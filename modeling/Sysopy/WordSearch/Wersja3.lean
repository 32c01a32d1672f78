/-
wersja3 of the word search (cw08/zad1): `thread_func` for any number of threads. Each thread reads the next
chunk of the file under the mutex, reports the matches in its complete records, and returns at an empty read.
The threads do the search of `Scan`: the mutex makes a read and the move of the shared offset one step of it.
-/
import Sysopy.Conc.Mutex
import Sysopy.WordSearch.Scan

namespace Sysopy.WordSearch.Wersja3

open Sysopy.Conc Sysopy.CText

/-! ## thread_func -/

/-- The file offset, the output, and the owner of the mutex. -/
structure Shared (n : ℕ) extends Output n where
  mutex : Option (Fin n)

/-- Where a thread is; the arguments are `i`, `record_id` and `j`. The kernel serves a read in two steps: it
copies the bytes at the offset and then moves the offset. -/
inductive Pc where
  | lock
  | read
  | advance
  | unlock
  | record (i : ℕ)
  | position (i : ℕ) (recordId : ℤ) (j : ℕ)
  | ended

/-- The locals of a thread: `buf` and `read_count` are in its chunk, and `ptr` is `buf + RECORD_SIZE*i`. -/
structure Local where
  pc : Pc
  chunk : Chunk

variable {n : ℕ} {J : Job}

/-- One step of `thread_func`. -/
def threadFunc (n : ℕ) (J : Job) : Program (Fin n) (Shared n) Local Unit := fun self g l _ =>
  match l.pc with
  | .lock => if g.mutex = none then some ({ g with mutex := some self }, { l with pc := .read }) else none
  | .read => some (g, ⟨.advance, J.read g.offset l.chunk.buf⟩)
  | .advance => some ({ g with offset := g.offset + l.chunk.taken }, { l with pc := .unlock })
  | .unlock => some ({ g with mutex := none }, { l with pc := .record 0 })
  | .record i =>
    if i < l.chunk.actualReadCount then
      some (g, { l with pc := .position i (atoi (l.chunk.buf.drop (RECORD_SIZE * i))) 5 })
    else some (g, { l with pc := if l.chunk.readCount = 0 then .ended else .lock })
  | .position i recordId j =>
    if j < RECORD_SIZE - J.word.length then
      some ({ g with toOutput := g.toOutput.test J self l.chunk i recordId j },
        { l with pc := .position i recordId (j + 1) })
    else
      some ({ g with scanned := g.scanned ++ [(self, l.chunk.base + i)] }, { l with pc := .record (i + 1) })
  | .ended => none

/-- A thread before its first read: `read_count` is 1, and the buffer holds what malloc returned. -/
def Started (l : Local) : Prop := l.pc = .lock ∧ l.chunk.readCount = 1

/-- All runs of the threads that main creates. -/
def system (n : ℕ) (J : Job) : System (Pool (Fin n) (Shared n) Local) (Fin n × Unit) :=
  (threadFunc n J).system fun s => s.shared = ⟨⟨0, [], []⟩, none⟩ ∧ ∀ p, Started (s.procs p)

/-! ## The search behind it -/

/-- What a thread is doing in the search: its chunk counts from the moment the offset has moved. -/
def Local.work (l : Local) : Work :=
  match l.pc with
  | .lock | .read | .advance => .idle
  | .unlock => .records l.chunk 0
  | .record i => .records l.chunk i
  | .position i recordId j => .positions l.chunk i recordId j
  | .ended => .ended

/-- Between `pthread_mutex_lock` and `pthread_mutex_unlock`. -/
def Local.holds (l : Local) : Bool :=
  match l.pc with
  | .read | .advance | .unlock => true
  | _ => false

/-- The threads are in a state of the search, and a chunk that has been copied is still the next one. -/
structure Sim (J : Job) (g : Shared n) (procs : Fin n → Local) : Prop where
  searching : (searches n J).Reachable ⟨g.toOutput, Local.work ∘ procs⟩
  owned : Owned Local.holds procs g.mutex
  copied : ∀ p, (procs p).pc = .advance → ∃ buf, (procs p).chunk = J.read g.offset buf

section Step

variable {g g' : Shared n} {procs : Fin n → Local} {p : Fin n} {l : Local}

/-- Another thread cannot be between the copy and the move of the offset while `p` holds the mutex. -/
theorem Sim.copied_update (hS : Sim J g procs) (hoff : g'.offset = g.offset ∨ (procs p).holds = true)
    (hl : l.pc = .advance → ∃ buf, l.chunk = J.read g'.offset buf) :
    ∀ q, (Function.update procs p l q).pc = .advance →
      ∃ buf, (Function.update procs p l q).chunk = J.read g'.offset buf := by
  intro q hq
  by_cases hqp : q = p
  · subst hqp
    rw [Function.update_self] at hq ⊢
    exact hl hq
  · rw [Function.update_of_ne hqp] at hq ⊢
    rcases hoff with hoff | hoff
    · rw [hoff]
      exact hS.copied q hq
    · have := hS.owned.not_holds hoff hqp
      simp [Local.holds, hq] at this

/-- A step that is none of the search. -/
theorem Sim.stay (hS : Sim J g procs) (hout : g'.toOutput = g.toOutput) (hwork : l.work = (procs p).work)
    (howned : Owned Local.holds (Function.update procs p l) g'.mutex)
    (hl : l.pc = .advance → ∃ buf, l.chunk = J.read g'.offset buf) : Sim J g' (Function.update procs p l) := by
  refine ⟨?_, howned, hS.copied_update (.inl ?_) hl⟩
  · rw [hout]
    exact Program.view_stay hS.searching hwork
  · rw [hout]

/-- A step of the search. -/
theorem Sim.step (hS : Sim J g procs) (buf : Buffer)
    (hstep : search n J p g.toOutput (procs p).work buf = some (g'.toOutput, l.work))
    (hmutex : g'.mutex = g.mutex) (hholds : l.holds = (procs p).holds)
    (hoff : g'.offset = g.offset ∨ (procs p).holds = true) (hpc : l.pc ≠ .advance) :
    Sim J g' (Function.update procs p l) := by
  refine ⟨Program.view_step hS.searching hstep, ?_, hS.copied_update hoff fun h => absurd h hpc⟩
  rw [hmutex]
  exact hS.owned.keep hholds

theorem sim_step (hS : Sim J g procs) (h : threadFunc n J p g (procs p) () = some (g', l)) :
    Sim J g' (Function.update procs p l) := by
  rcases hp : procs p with ⟨pc, c⟩
  rw [hp] at h
  have hwork : (procs p).work = Local.work ⟨pc, c⟩ := by rw [hp]
  have hholds : (procs p).holds = Local.holds ⟨pc, c⟩ := by rw [hp]
  cases pc with
  | lock =>
    simp only [threadFunc] at h
    split at h
    · rename_i hfree
      obtain ⟨rfl, rfl⟩ := Prod.mk.inj (Option.some.inj h)
      have howned := hS.owned
      rw [hfree] at howned
      exact hS.stay rfl hwork.symm (howned.lock rfl) nofun
    · cases h
  | read =>
    simp only [threadFunc] at h
    generalize hread : J.read g.offset c.buf = c' at h
    obtain ⟨rfl, rfl⟩ := Prod.mk.inj (Option.some.inj h)
    exact hS.stay rfl hwork.symm (hS.owned.keep hholds.symm) fun _ => ⟨_, hread.symm⟩
  | advance =>
    -- nobody has moved the offset since the chunk was copied from it
    obtain ⟨buf, hbuf⟩ := hS.copied p (by rw [hp])
    rw [hp] at hbuf
    dsimp only at hbuf
    obtain ⟨rfl, rfl⟩ := Prod.mk.inj (Option.some.inj h)
    refine hS.step buf ?_ rfl hholds.symm (.inr hholds) nofun
    rw [hwork]
    simp only [search, Local.work, hbuf]
  | unlock =>
    obtain ⟨rfl, rfl⟩ := Prod.mk.inj (Option.some.inj h)
    exact hS.stay rfl hwork.symm (hS.owned.unlock hholds rfl) nofun
  | record i =>
    simp only [threadFunc] at h
    split at h
    · rename_i hlt
      obtain ⟨rfl, rfl⟩ := Prod.mk.inj (Option.some.inj h)
      refine hS.step [] ?_ rfl hholds.symm (.inl rfl) nofun
      rw [hwork]
      simp only [search, Local.work, hlt, if_true]
    · rename_i hlt
      obtain ⟨rfl, rfl⟩ := Prod.mk.inj (Option.some.inj h)
      -- an empty chunk ends the thread
      by_cases h0 : c.readCount = 0
      · simp only [h0, if_true]
        refine hS.step [] ?_ rfl hholds.symm (.inl rfl) nofun
        rw [hwork]
        simp only [search, Local.work, hlt, h0, if_true, if_false]
      · simp only [h0, if_false]
        refine hS.step [] ?_ rfl hholds.symm (.inl rfl) nofun
        rw [hwork]
        simp only [search, Local.work, hlt, h0, if_false]
  | position i recordId j =>
    simp only [threadFunc] at h
    split at h
    · rename_i hlt
      obtain ⟨rfl, rfl⟩ := Prod.mk.inj (Option.some.inj h)
      refine hS.step [] ?_ rfl hholds.symm (.inl ?_) nofun
      · rw [hwork]
        simp only [search, Local.work, hlt, if_true]
      · unfold Output.test
        split <;> rfl
    · rename_i hlt
      obtain ⟨rfl, rfl⟩ := Prod.mk.inj (Option.some.inj h)
      refine hS.step [] ?_ rfl hholds.symm (.inl rfl) nofun
      rw [hwork]
      simp only [search, Local.work, hlt, if_false]
  | ended => cases h

end Step

theorem reachable_sim {s : Pool (Fin n) (Shared n) Local} (h : (system n J).Reachable s) :
    Sim J s.shared s.procs := by
  refine Program.invariant (fun s hs => ?_) (fun g procs p a g' l hS hstep => sim_step hS hstep) h
  obtain ⟨hg, hp⟩ := hs
  have hidle : ∀ p, (s.procs p).work = .idle := fun p => by rw [Local.work, (hp p).1]
  refine ⟨.init ⟨?_, hidle⟩, ?_, fun p hpc => ?_⟩
  · rw [hg]
  · rw [hg]
    exact Owned.of_none fun p => by rw [Local.holds, (hp p).1]
  · rw [(hp p).1] at hpc
    cases hpc

/-! ## Every record once -/

section Ended

variable {s : Pool (Fin n) (Shared n) Local}

/-- When all threads have ended the whole file has been handed out and nothing is left. -/
theorem ended_inv (hn : 0 < n) (hcount : ¬ 2 ^ 22 ∣ J.recordsCount) (h : (system n J).Reachable s)
    (hended : ∀ p, (s.procs p).pc = .ended) :
    Inv J s.shared.toOutput (Local.work ∘ s.procs) ∧ (∀ p, ((Local.work ∘ s.procs) p).Free) ∧
      s.shared.offset / RECORD_SIZE = J.records := by
  have hwork : ∀ p, (Local.work ∘ s.procs) p = .ended := fun p => by
    show (s.procs p).work = .ended
    rw [Local.work, hended p]
  have hI := reachable_inv (reachable_sim h).searching
  refine ⟨hI, fun p => .inr (hwork p), ?_⟩
  rw [hI.offset_eq (mt J.size_eq_zero_iff.1 hcount) (hwork ⟨0, hn⟩)]
  rfl

/-- Every complete record has been scanned by one thread once, whatever the word and the records are, if the reads ask
for something. -/
theorem scanned_once (hn : 0 < n) (hcount : ¬ 2 ^ 22 ∣ J.recordsCount) (h : (system n J).Reachable s)
    (hended : ∀ p, (s.procs p).pc = .ended) : (s.shared.scanned.map Prod.snd).Perm (List.range J.records) := by
  obtain ⟨hI, hfree, hoff⟩ := ended_inv hn hcount h hended
  rw [← hoff]
  exact hI.scanned_eq hfree

/-- In every run that has ended, however many threads and records at once there were, every complete record has
been scanned once, and the reports are those of a sequential scan: the size of a read must not overflow to 0, and
the number of a record with a match has to end inside the record, for `atoi` to read no further. -/
theorem reports_sequential (hn : 0 < n) (hcount : ¬ 2 ^ 22 ∣ J.recordsCount)
    (hnumbers : ∀ k < J.records, J.scanRecord k ≠ [] → NumberEnds (recordAt J.file k))
    (h : (system n J).Reachable s) (hended : ∀ p, (s.procs p).pc = .ended) :
    (s.shared.scanned.map Prod.snd).Perm (List.range J.records) ∧
      (s.shared.reports.map fun r => (r.recordId, r.position)).Perm J.scan := by
  obtain ⟨hI, hfree, hoff⟩ := ended_inv hn hcount h hended
  exact ⟨scanned_once hn hcount h hended, hI.reports_perm_scan hfree hoff hnumbers⟩

end Ended

/-! ## One thread after the other -/

section Alone

variable {g : Shared n} {procs : Fin n → Local} {p : Fin n} {c : Chunk}

/-- A thread that is alone takes its next step. -/
theorem alone_step {l : Local} (h : (system n J).Reachable ⟨g, Function.update procs p l⟩) (g' : Shared n)
    (l' : Local) (hstep : threadFunc n J p g l () = some (g', l')) :
    (system n J).Reachable ⟨g', Function.update procs p l'⟩ :=
  Program.reachable_again h hstep

/-- It reads a chunk. -/
theorem alone_read {c' : Chunk} (h : (system n J).Reachable ⟨g, Function.update procs p ⟨.lock, c⟩⟩)
    (hg : g.mutex = none) (hchunk : J.read g.offset c.buf = c') :
    (system n J).Reachable ⟨{ g with offset := g.offset + c'.taken }, Function.update procs p ⟨.record 0, c'⟩⟩ := by
  have hlock := alone_step h { g with mutex := some p } ⟨.read, c⟩ (by simp only [threadFunc, hg, if_true])
  have hread := alone_step hlock _ ⟨.advance, c'⟩ (by
    simp only [threadFunc, hchunk]
    rfl)
  have hadvance := alone_step hread _ ⟨.unlock, c'⟩ rfl
  have hunlock := alone_step hadvance _ ⟨.record 0, c'⟩ rfl
  rwa [← hg] at hunlock

/-- It goes on to the next record of its chunk, -/
theorem alone_record {i : ℕ} (hi : i < c.actualReadCount)
    (h : (system n J).Reachable ⟨g, Function.update procs p ⟨.record i, c⟩⟩) :
    (system n J).Reachable ⟨g, Function.update procs p ⟨.position i (atoi (c.buf.drop (RECORD_SIZE * i))) 5, c⟩⟩ :=
  alone_step h g _ (by simp only [threadFunc, hi, if_true])

/-- or for the next chunk. -/
theorem alone_again {i : ℕ} (hi : ¬ i < c.actualReadCount) (h0 : c.readCount ≠ 0)
    (h : (system n J).Reachable ⟨g, Function.update procs p ⟨.record i, c⟩⟩) :
    (system n J).Reachable ⟨g, Function.update procs p ⟨.lock, c⟩⟩ :=
  alone_step h g _ (by simp only [threadFunc, hi, h0, if_false])

/-- It goes through the rest of a record that has no match there. -/
theorem alone_quiet {i j : ℕ} {recordId : ℤ} (hj : j ≤ RECORD_SIZE - J.word.length)
    (hquiet : ∀ k, j ≤ k → k < RECORD_SIZE - J.word.length → wordEq J.word c.buf (RECORD_SIZE * i + k) = false)
    (h : (system n J).Reachable ⟨g, Function.update procs p ⟨.position i recordId j, c⟩⟩) :
    (system n J).Reachable ⟨{ g with scanned := g.scanned ++ [(p, c.base + i)] },
      Function.update procs p ⟨.record (i + 1), c⟩⟩ := by
  induction hd : RECORD_SIZE - J.word.length - j generalizing j with
  | zero =>
    refine alone_step h _ _ ?_
    simp only [threadFunc, show ¬ j < RECORD_SIZE - J.word.length by omega, if_false]
  | succ d ih =>
    have hlt : j < RECORD_SIZE - J.word.length := by omega
    have hnext := alone_step h g ⟨.position i recordId (j + 1), c⟩ (by
      simp only [threadFunc, hlt, if_true, Output.test, hquiet j le_rfl hlt, Bool.false_eq_true, if_false])
    exact ih (by omega) (fun k hk => hquiet k (by omega)) hnext (by omega)

/-- It reports the one match of a spaced record at the head of its chunk. -/
theorem alone_spaced (hword : J.word = []) {x : Char} (hx : x ≠ ' ') {t : List Char} (hbuf : c.buf = spaced x ++ t)
    (hcount : 0 < c.actualReadCount) (h : (system n J).Reachable ⟨g, Function.update procs p ⟨.record 0, c⟩⟩) :
    (system n J).Reachable ⟨{ g with
      reports := g.reports ++ [⟨p, atoi c.buf, c.base, 5⟩]
      scanned := g.scanned ++ [(p, c.base)] }, Function.update procs p ⟨.record 1, c⟩⟩ := by
  have hmatch : ∀ j, 5 ≤ j → j < RECORD_SIZE → wordEq J.word c.buf (RECORD_SIZE * 0 + j) = decide (j = 5) := by
    intro j h5 hj
    rw [hword, hbuf, Nat.mul_zero, Nat.zero_add]
    exact wordEq_nil_spaced hx h5 hj
  have hlimit : RECORD_SIZE - J.word.length = RECORD_SIZE := by
    rw [hword]
    rfl
  have hrecord := alone_record hcount h
  rw [Nat.mul_zero, List.drop_zero] at hrecord
  have htest := alone_step hrecord { g with reports := g.reports ++ [⟨p, atoi c.buf, c.base, 5⟩] }
    ⟨.position 0 (atoi c.buf) 6, c⟩ (by
      have h5 : 5 < RECORD_SIZE := by decide
      simp only [threadFunc, hlimit, Output.test, hmatch 5 le_rfl h5, h5, decide_true, if_true]
      rfl)
  refine alone_quiet (by rw [hlimit]; decide) (fun k hk hlt => ?_) htest
  rw [hlimit] at hlt
  rw [hmatch k (by omega) hlt]
  exact decide_eq_false (by omega)

/-- At the end of the file it returns. -/
theorem alone_end (h : (system n J).Reachable ⟨g, Function.update procs p ⟨.lock, c⟩⟩) (hsize : 0 ≤ J.size)
    (hg : g.mutex = none) (hoff : J.file.length ≤ g.offset) :
    ∃ c', (system n J).Reachable ⟨g, Function.update procs p ⟨.ended, c'⟩⟩ := by
  have hzero : (J.read g.offset c.buf).readCount = 0 := readCount_end hsize hoff
  generalize hchunk : J.read g.offset c.buf = c' at hzero
  have hread := alone_read h hg hchunk
  rw [Chunk.taken, hzero, Int.toNat_zero, Nat.add_zero] at hread
  exact ⟨c', alone_step hread g _ (by
    simp only [threadFunc, Chunk.actualReadCount, hzero, Int.zero_tdiv, Int.toNat_zero, Nat.lt_irrefl, if_true,
      if_false])⟩

/-- A thread in front of its loop, with an empty buffer. -/
def fresh : Local := ⟨.lock, ⟨[], 1, 0⟩⟩

theorem start_reachable (p : Fin n) :
    (system n J).Reachable ⟨⟨⟨0, [], []⟩, none⟩, Function.update (fun _ => fresh) p fresh⟩ := by
  refine .init ⟨rfl, fun q => ?_⟩
  rw [Function.update_eq_self_iff.2 rfl]
  exact ⟨rfl, rfl⟩

/-- The first thread starts with the whole file in its buffer when it asks for as much. -/
theorem alone_start (p : Fin n) (hsize : (J.file.length : ℤ) = J.size) :
    (system n J).Reachable ⟨⟨⟨J.file.length, [], []⟩, none⟩,
      Function.update (fun _ => fresh) p ⟨.record 0, ⟨J.file, J.file.length, 0⟩⟩⟩ := by
  have hread := alone_read (start_reachable p) rfl (read_all hsize)
  rwa [Chunk.taken, Int.toNat_natCast, Nat.zero_add] at hread

end Alone

/-- Two threads: the first scans the one record, and then both find the end of the file. -/
theorem oneRecord_ended : ∃ s, (system 2 oneRecord).Reachable s ∧ (∀ p, (s.procs p).pc = .ended) ∧
    s.shared.reports = [⟨0, 0, 0, 5⟩] := by
  have hlen := oneRecord_length
  have hsize : (oneRecord.file.length : ℤ) = oneRecord.size := by
    rw [hlen]
    decide
  have hmatch := alone_spaced (x := 'x') (t := []) rfl (by decide) (List.append_nil _).symm
    (by rw [Chunk.actualReadCount, hlen]; decide) (alone_start (0 : Fin 2) hsize)
  have hlock := alone_again (by rw [Chunk.actualReadCount, hlen]; decide) (by rw [hlen]; decide) hmatch
  obtain ⟨c, hfirst⟩ := alone_end hlock (by decide) rfl le_rfl
  obtain ⟨c', hsecond⟩ := alone_end (Program.reachable_turn (i := 1) (l := fresh) hfirst rfl) (by decide) rfl le_rfl
  refine ⟨_, hsecond, fun p => ?_, ?_⟩
  · fin_cases p
    · rfl
    · rfl
  · show [(⟨0, atoi oneRecord.file, 0, 5⟩ : Report 2)] = _
    rw [oneRecord_atoi]

theorem reports_sequential_oneRecord : ∃ s, (system 2 oneRecord).Reachable s ∧ s.shared.reports = [⟨0, 0, 0, 5⟩] ∧
    (s.shared.scanned.map Prod.snd).Perm (List.range oneRecord.records) ∧
    (s.shared.reports.map fun r => (r.recordId, r.position)).Perm oneRecord.scan := by
  obtain ⟨s, hs, hended, hreports⟩ := oneRecord_ended
  exact ⟨s, hs, hreports,
    reports_sequential (by decide) (by decide) (fun k hk _ => oneRecord_numberEnds hk) hs hended⟩

/-! ## Numbers that run over the end of a record -/

/-- A record of white space with a match, and a record that starts with a digit, read at once. -/
def lateNumber : Job := ⟨[], spaced '\n' ++ '7' :: List.replicate 1023 'x', 2⟩

theorem lateNumber_quiet {j : ℕ} (h5 : 5 ≤ j) (hj : j < RECORD_SIZE) :
    wordEq [] lateNumber.file (RECORD_SIZE * 1 + j) = false := by
  have hx : byteAt lateNumber.file (RECORD_SIZE * 1 + j) = 'x' := by
    obtain ⟨i, rfl⟩ := Nat.exists_eq_add_of_le' h5
    rw [Nat.mul_one, ← length_spaced '\n', lateNumber, byteAt_append, byteAt, List.getD_cons_succ,
      List.getD_eq_getElem?_getD, List.getElem?_replicate_of_lt (by unfold RECORD_SIZE at hj; omega), Option.getD_some]
  rw [Bool.eq_false_iff, Ne, wordEq_nil, hx]
  exact fun h => absurd h.2 (by decide)

theorem lateNumber_ended : ∃ s, (system 1 lateNumber).Reachable s ∧ (∀ p, (s.procs p).pc = .ended) ∧
    s.shared.reports = [⟨0, 7, 0, 5⟩] := by
  have hlen : lateNumber.file.length = RECORD_SIZE * 2 := by decide +kernel
  have hsize : (lateNumber.file.length : ℤ) = lateNumber.size := by
    rw [hlen]
    decide
  have hmatch := alone_spaced (x := '\n') rfl (by decide) rfl
    (by rw [Chunk.actualReadCount, hlen]; decide) (alone_start (0 : Fin 1) hsize)
  have hrecord := alone_record (by rw [Chunk.actualReadCount, hlen]; decide) hmatch
  have hquiet := alone_quiet (J := lateNumber) (c := ⟨lateNumber.file, _, 0⟩) (i := 1) (by decide)
    (fun k hk hlt => lateNumber_quiet hk hlt) hrecord
  have hlock := alone_again (by rw [Chunk.actualReadCount, hlen]; decide) (by rw [hlen]; decide) hquiet
  have hid : atoi lateNumber.file = 7 := by decide +kernel
  obtain ⟨c, hend⟩ := alone_end hlock (by decide) rfl le_rfl
  refine ⟨_, hend, fun p => ?_, ?_⟩
  · fin_cases p
    rfl
  · show [(⟨0, atoi lateNumber.file, 0, 5⟩ : Report 1)] = _
    rw [hid]

/-- The number of the record of white space is read on into the next record. -/
theorem lateNumber_not_sequential : ∃ s, (system 1 lateNumber).Reachable s ∧ (∀ p, (s.procs p).pc = .ended) ∧
    ¬ (s.shared.reports.map fun r => (r.recordId, r.position)).Perm lateNumber.scan := by
  obtain ⟨s, hs, hended, hreports⟩ := lateNumber_ended
  refine ⟨s, hs, hended, fun hperm => ?_⟩
  rw [hreports] at hperm
  have hmem : ((0 : ℤ), 5) ∈ lateNumber.scan := by
    have hid : atoi (recordAt lateNumber.file 0) = 0 := by decide +kernel
    have hfound : (0, 5) ∈ lateNumber.found lateNumber.records :=
      Job.mem_found.2 ⟨by decide +kernel, by decide +kernel⟩
    exact List.mem_map.2 ⟨(0, 5), hfound, by rw [hid]⟩
  have := hperm.mem_iff.2 hmem
  simp at this

end Sysopy.WordSearch.Wersja3
