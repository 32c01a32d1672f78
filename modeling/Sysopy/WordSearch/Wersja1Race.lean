/-
The race in wersja1 that leaves a mutex locked for ever, for every word and file with matches in two chunks and
any four threads or more: two threads find the word at once and cancel each other, the second one before it has
asked anybody else, the first one after it has cancelled the thread that has just locked the mutex.
-/
import Sysopy.WordSearch.Wersja1Deadlock

namespace Sysopy.WordSearch.Wersja1

open Sysopy.Conc Sysopy.CText

variable {n : ℕ} {J : Job}

/-! ## A thread searches on its own -/

/-- Thread `p` gets to `l` while the others stand still, before any request; the offset is then `offset`. -/
def Alone (J : Job) (procs : Fin n → Local) (p : Fin n) (offset : ℕ) (l : Local) : Prop :=
  ∃ g : Shared n, (system n J).Reachable ⟨g, Function.update procs p l⟩ ∧ g.offset = offset ∧ g.mutex = none ∧
    g.requested = fun _ => false

section Search

variable {procs : Fin n → Local} {p : Fin n} {offset : ℕ} {c : Chunk} {i j : ℕ} {recordId : ℤ} {l l' : Local}

/-- A step that changes nothing shared. -/
theorem Alone.step (h : Alone J procs p offset l) (hs : ∀ g, Steps J p g l g l') : Alone J procs p offset l' := by
  obtain ⟨g, hreach, hg⟩ := h
  exact ⟨g, alone_step hreach (hs g), hg⟩

/-- The end of a record. -/
theorem Alone.finish (h : Alone J procs p offset ⟨.position i recordId j, c, false⟩)
    (hj : ¬ j < RECORD_SIZE - J.word.length) : Alone J procs p offset ⟨.record (i + 1), c, false⟩ := by
  obtain ⟨g, hreach, hg⟩ := h
  exact ⟨_, alone_step hreach (.finish hj), hg⟩

theorem Alone.read (h : Alone J procs p offset ⟨.lock, c, false⟩) :
    Alone J procs p (offset + (J.read offset c.buf).taken) ⟨.record 0, J.read offset c.buf, false⟩ := by
  obtain ⟨g, hreach, rfl, hfree, hreq⟩ := h
  exact ⟨_, alone_step (alone_step (alone_step hreach (.lock hfree)) (.read rfl)) .unlock, rfl, rfl, hreq⟩

/-- The rest of a record without a match. -/
theorem Alone.quiet (h : Alone J procs p offset ⟨.position i recordId j, c, false⟩)
    (hquiet : ∀ k, j ≤ k → k < RECORD_SIZE - J.word.length → wordEq J.word c.buf (RECORD_SIZE * i + k) = false) :
    Alone J procs p offset ⟨.record (i + 1), c, false⟩ := by
  induction hd : RECORD_SIZE - J.word.length - j generalizing j with
  | zero => exact h.finish (by omega)
  | succ d ih =>
    have hj : j < RECORD_SIZE - J.word.length := by omega
    exact ih (h.step fun _ => .miss hj (hquiet j le_rfl hj)) (fun k hk => hquiet k (by omega)) (by omega)

/-- The first match in the rest of a record. -/
theorem Alone.hit {m : ℕ} (h : Alone J procs p offset ⟨.position i recordId j, c, false⟩) (hjm : j ≤ m)
    (hm : m < RECORD_SIZE - J.word.length) (heq : wordEq J.word c.buf (RECORD_SIZE * i + m) = true) :
    ∃ j', Alone J procs p offset ⟨.print i recordId j', c, false⟩ := by
  induction hd : m - j generalizing j with
  | zero =>
    obtain rfl : j = m := by omega
    exact ⟨j, h.step fun _ => .hit hm heq⟩
  | succ d ih =>
    cases hw : wordEq J.word c.buf (RECORD_SIZE * i + j) with
    | true => exact ⟨j, h.step fun _ => .hit (by omega) hw⟩
    | false => exact ih (h.step fun _ => .miss (by omega) hw) (by omega) (by omega)

/-- A record without a match. -/
theorem Alone.recordQuiet (h : Alone J procs p offset ⟨.record i, c, false⟩) (hof : c.Of J)
    (hi : i < c.actualReadCount) (hnone : J.scanRecord (c.base + i) = []) :
    Alone J procs p offset ⟨.record (i + 1), c, false⟩ := by
  refine (h.step fun _ => .record hi).quiet fun k h5 hk => ?_
  rw [hof.wordEq hi h5 hk]
  have hnot := List.filter_eq_nil_iff.1 hnone k (List.mem_range'_1.2 ⟨h5, by omega⟩)
  exact Bool.eq_false_iff.2 hnot

/-- Records without a match. -/
theorem Alone.recordsQuiet {m : ℕ} (h : Alone J procs p offset ⟨.record 0, c, false⟩) (hof : c.Of J)
    (hm : m ≤ c.actualReadCount) (hnone : ∀ i < m, J.scanRecord (c.base + i) = []) :
    Alone J procs p offset ⟨.record m, c, false⟩ := by
  induction m with
  | zero => exact h
  | succ m ih =>
    have hquiet := ih (by omega) fun i hi => hnone i (by omega)
    exact hquiet.recordQuiet hof (by omega) (hnone m (by omega))

/-- A record with a match. -/
theorem Alone.recordHit (h : Alone J procs p offset ⟨.record i, c, false⟩) (hof : c.Of J)
    (hi : i < c.actualReadCount) (hsome : J.scanRecord (c.base + i) ≠ []) :
    ∃ recordId j, Alone J procs p offset ⟨.print i recordId j, c, false⟩ := by
  obtain ⟨m, hm⟩ := List.exists_mem_of_ne_nil _ hsome
  obtain ⟨hrange, heq⟩ := List.mem_filter.1 hm
  obtain ⟨h5, hlt⟩ := List.mem_range'_1.1 hrange
  rw [← hof.wordEq hi h5 (by omega)] at heq
  obtain ⟨j, hj⟩ := (h.step fun _ => .record hi).hit h5 (by omega) heq
  exact ⟨_, j, hj⟩

end Search

/-! ## Chunk after chunk -/

section Chunks

variable {procs : Fin n → Local} {p : Fin n} {c : Chunk} {buf : Buffer} {a b k : ℕ}

/-- Where a complete record ends. -/
theorem record_end (hk : k < J.records) :
    J.bytes * (k / J.perRead) + RECORD_SIZE * (k % J.perRead + 1) ≤ J.file.length := by
  have hend : RECORD_SIZE * (k + 1) ≤ J.file.length := by
    rw [Nat.mul_comm]
    exact (Nat.le_div_iff_mul_le (by decide)).1 hk
  calc J.bytes * (k / J.perRead) + RECORD_SIZE * (k % J.perRead + 1)
    _ = RECORD_SIZE * (J.perRead * (k / J.perRead) + k % J.perRead + 1) := by
      rw [J.bytes_eq]
      ring
    _ = RECORD_SIZE * (k + 1) := by rw [Nat.div_add_mod]
    _ ≤ J.file.length := hend

theorem aligned_chunk (h : J.bytes * a ≤ J.file.length) : Aligned J (J.bytes * a) :=
  ⟨h, .inl (Dvd.dvd.mul_right (Dvd.intro _ J.bytes_eq.symm) a)⟩

theorem base_chunk : (J.read (J.bytes * a) buf).base = J.perRead * a := by
  rw [base_eq, J.bytes_eq, Nat.mul_assoc, Nat.mul_div_cancel_left _ (by decide)]

/-- A read in front of the end of its chunk gets it. -/
theorem taken_full (h : J.bytes * (a + 1) ≤ J.file.length) : (J.read (J.bytes * a) buf).taken = J.bytes := by
  rw [taken_eq]
  rw [Nat.mul_succ] at h
  omega

/-- A record is in the chunk that is read for it. -/
theorem mod_lt_actualReadCount (buf : Buffer) (hpos : 0 < J.perRead) (hk : k < J.records) :
    k % J.perRead < (J.read (J.bytes * (k / J.perRead)) buf).actualReadCount := by
  have hend := record_end hk
  have hle : RECORD_SIZE * (k % J.perRead + 1) ≤ J.bytes := by
    calc RECORD_SIZE * (k % J.perRead + 1) ≤ RECORD_SIZE * J.perRead := Nat.mul_le_mul_left _ (Nat.mod_lt k hpos)
      _ = J.bytes := J.bytes_eq.symm
  have hread : (k % J.perRead + 1) * RECORD_SIZE ≤ (J.read (J.bytes * (k / J.perRead)) buf).taken := by
    rw [taken_eq, Nat.mul_comm]
    omega
  rw [Chunk.actualReadCount_eq]
  exact (Nat.le_div_iff_mul_le (by decide)).2 hread

theorem Alone.chunkQuiet (h : Alone J procs p (J.bytes * a) ⟨.lock, c, false⟩) (hpos : 0 < J.perRead)
    (hfull : J.bytes * (a + 1) ≤ J.file.length) (hnone : ∀ k, k / J.perRead = a → J.scanRecord k = []) :
    ∃ c', Alone J procs p (J.bytes * (a + 1)) ⟨.lock, c', false⟩ := by
  have hcount : (J.read (J.bytes * a) c.buf).taken = J.bytes := taken_full hfull
  have hactual : (J.read (J.bytes * a) c.buf).actualReadCount = J.perRead := by
    rw [Chunk.actualReadCount_eq, hcount]
    rfl
  have hle : J.bytes * a ≤ J.file.length := (Nat.mul_le_mul_left _ (Nat.le_succ a)).trans hfull
  have hread := h.read
  rw [hcount, ← Nat.mul_succ] at hread
  refine ⟨_, (hread.recordsQuiet (read_of (aligned_chunk hle)) le_rfl fun i hi => hnone _ ?_).step fun _ =>
    .again (lt_irrefl _) ?_⟩
  · rw [hactual] at hi
    rw [base_chunk, Nat.mul_add_div hpos, Nat.div_eq_of_lt hi, Nat.add_zero]
  · refine Chunk.readCount_ne_zero ?_
    rw [hcount, J.bytes_eq]
    exact Nat.mul_pos (by decide) hpos

theorem Alone.chunksQuiet (h : Alone J procs p (J.bytes * a) ⟨.lock, c, false⟩) (hpos : 0 < J.perRead)
    (hab : a ≤ b) (hfull : J.bytes * b ≤ J.file.length)
    (hnone : ∀ k, a ≤ k / J.perRead → k / J.perRead < b → J.scanRecord k = []) :
    ∃ c', Alone J procs p (J.bytes * b) ⟨.lock, c', false⟩ := by
  induction b, hab using Nat.le_induction with
  | base => exact ⟨c, h⟩
  | succ b hab ih =>
    have hle : J.bytes * b ≤ J.file.length := (Nat.mul_le_mul_left _ (Nat.le_succ b)).trans hfull
    obtain ⟨c', hc'⟩ := ih hle fun k hak hkb => hnone k hak (by omega)
    exact hc'.chunkQuiet hpos hfull fun k hk => hnone k (by omega) (by omega)

/-- The thread finds the first match from its offset on; if there are records behind the chunk, the offset is in
front of them. -/
theorem Alone.found (h : Alone J procs p (J.bytes * a) ⟨.lock, c, false⟩) (hpos : 0 < J.perRead)
    (hk : k < J.records) (hak : a ≤ k / J.perRead) (hsome : J.scanRecord k ≠ [])
    (hnone : ∀ k' < k, a ≤ k' / J.perRead → J.scanRecord k' = []) :
    ∃ offset i recordId j c', Alone J procs p offset ⟨.print i recordId j, c', false⟩ ∧
      ∀ k' < J.records, k / J.perRead < k' / J.perRead → offset = J.bytes * (k / J.perRead + 1) := by
  have hend := record_end hk
  have hle : J.bytes * (k / J.perRead) ≤ J.file.length := by omega
  obtain ⟨c', hc'⟩ := h.chunksQuiet hpos hak hle fun k' hak' hk' =>
    hnone k' (lt_of_not_ge fun hge => by have := Nat.div_le_div_right (c := J.perRead) hge; omega) hak'
  have hof : (J.read (J.bytes * (k / J.perRead)) c'.buf).Of J := read_of (aligned_chunk hle)
  have hin := mod_lt_actualReadCount c'.buf hpos hk
  have hrecord : (J.read (J.bytes * (k / J.perRead)) c'.buf).base + k % J.perRead = k := by
    rw [base_chunk, Nat.div_add_mod]
  have hquiet := hc'.read.recordsQuiet hof hin.le fun i hi => by
    rw [base_chunk]
    have hlt : J.perRead * (k / J.perRead) + i < k := by
      have := Nat.div_add_mod k J.perRead
      omega
    refine hnone _ hlt ?_
    rw [Nat.mul_add_div hpos]
    exact hak.trans (Nat.le_add_right _ _)
  obtain ⟨recordId, j, hprint⟩ := hquiet.recordHit hof hin (by rwa [hrecord])
  refine ⟨_, _, recordId, j, _, hprint, fun k' hk' hlt => ?_⟩
  have hend' := record_end hk'
  have hfull : J.bytes * (k / J.perRead + 1) ≤ J.file.length :=
    (Nat.mul_le_mul_left _ hlt).trans (by omega)
  rw [taken_full hfull, Nat.mul_succ]

end Chunks

/-! ## Two threads find the word -/

/-- With matches in two chunks there are a first one and a first one behind its chunk. -/
theorem two_matches (h : ¬ OneChunk J) : ∃ k < J.records, ∃ k' < J.records, J.scanRecord k ≠ [] ∧
    J.scanRecord k' ≠ [] ∧ k / J.perRead < k' / J.perRead ∧ (∀ i < k, J.scanRecord i = []) ∧
      ∀ i < k', k / J.perRead < i / J.perRead → J.scanRecord i = [] := by
  classical
  have hsome : ∃ k, k < J.records ∧ J.scanRecord k ≠ [] := by
    by_contra hnone
    push Not at hnone
    exact h fun k hk _ _ hmatch => absurd (hnone k hk) hmatch
  obtain ⟨hk, hmatch⟩ := Nat.find_spec hsome
  have hfirst : ∀ i < Nat.find hsome, J.scanRecord i = [] := fun i hi => by
    by_contra hne
    exact Nat.find_min hsome hi ⟨hi.trans hk, hne⟩
  have hbehind : ∃ k', k' < J.records ∧ J.scanRecord k' ≠ [] ∧
      Nat.find hsome / J.perRead < k' / J.perRead := by
    by_contra hnone
    push Not at hnone
    have hsame : ∀ i < J.records, J.scanRecord i ≠ [] → i / J.perRead = Nat.find hsome / J.perRead :=
      fun i hi hne => (hnone i hi hne).antisymm (Nat.div_le_div_right (Nat.find_min' hsome ⟨hi, hne⟩))
    exact h fun i hi i' hi' hne hne' => (hsame i hi hne).trans (hsame i' hi' hne').symm
  obtain ⟨hk', hmatch', hlt⟩ := Nat.find_spec hbehind
  refine ⟨_, hk, _, hk', hmatch, hmatch', hlt, hfirst, fun i hi hchunk => ?_⟩
  by_contra hne
  exact Nat.find_min hbehind hi ⟨hi.trans hk', hne, hchunk⟩

/-- Both have found a match, and neither has printed yet. -/
theorem both_print (h : ¬ OneChunk J) {a b : Fin n} (hab : b ≠ a) :
    ∃ (g : Shared n) (i i' : ℕ) (recordId recordId' : ℤ) (j j' : ℕ) (c c' : Chunk), (system n J).Reachable ⟨g,
      Function.update (Function.update (fun _ => fresh) a ⟨.print i recordId j, c, false⟩) b
        ⟨.print i' recordId' j', c', false⟩⟩ ∧ g.mutex = none ∧ g.requested = fun _ => false := by
  obtain ⟨k, hk, k', hk', hmatch, hmatch', hlt, hfirst, hbehind⟩ := two_matches h
  -- without a record in a read there is only one chunk, the empty one
  have hpos : 0 < J.perRead := Nat.pos_of_ne_zero fun h0 => by
    rw [h0, Nat.div_zero, Nat.div_zero] at hlt
    exact absurd hlt (Nat.lt_irrefl 0)
  have hstart : Alone J (fun _ => fresh) a (J.bytes * 0) fresh := by
    refine ⟨⟨⟨0, [], []⟩, none, fun _ => false⟩, ?_, rfl, rfl, rfl⟩
    rw [Function.update_eq_self]
    exact start_reachable n J
  obtain ⟨offset, i, recordId, j, c, ⟨g, hreach, hoff, hfree, hreq⟩, hnext⟩ :=
    hstart.found hpos hk (Nat.zero_le _) hmatch fun i hi _ => hfirst i hi
  have hsecond : Alone J (Function.update (fun _ => fresh) a ⟨.print i recordId j, c, false⟩) b
      (J.bytes * (k / J.perRead + 1)) fresh := by
    refine ⟨g, ?_, hoff.trans (hnext k' hk' hlt), hfree, hreq⟩
    rwa [Function.update_eq_self_iff.2 (Function.update_of_ne hab _ _).symm]
  obtain ⟨-, i', recordId', j', c', ⟨g', hreach', -, hfree', hreq'⟩, -⟩ :=
    hsecond.found hpos hk' hlt hmatch' hbehind
  exact ⟨g', i, i', recordId, recordId', j, j', c, c', hreach', hfree', hreq'⟩

/-! ## They cancel each other -/

section Race

variable {g : Shared n} {procs : Fin n → Local} {p q : Fin n} {c : Chunk} {i j k : ℕ} {recordId : ℤ} {l : Local}

theorem alone_ask (h : (system n J).Reachable ⟨g, Function.update procs p ⟨.cancel i recordId j k, c, false⟩⟩)
    (hk : q.val = k) (hq : q ≠ p) : (system n J).Reachable ⟨{ g with requested := Function.update g.requested q true },
      Function.update procs p ⟨.cancel i recordId j (k + 1), c, false⟩⟩ := by
  subst hk
  have hstep := alone_step h (.cancel q.isLt)
  rwa [if_pos hq] at hstep

theorem alone_skip (h : (system n J).Reachable ⟨g, Function.update procs p ⟨.cancel i recordId j k, c, false⟩⟩)
    (hk : p.val = k) :
    (system n J).Reachable ⟨g, Function.update procs p ⟨.cancel i recordId j (k + 1), c, false⟩⟩ := by
  subst hk
  have hstep := alone_step h (.cancel p.isLt)
  rwa [if_neg (not_not.2 rfl)] at hstep

/-- The first finder has cancelled the second, which has cancelled it, and then the owner of the mutex. -/
theorem race_stuck (hn : 4 ≤ n) (h : ¬ OneChunk J) : ∃ s, (system n J).Reachable s ∧ Stuck s := by
  obtain ⟨a, ha⟩ : ∃ a : Fin n, a.val = 0 := ⟨⟨0, by omega⟩, rfl⟩
  obtain ⟨b, hb⟩ : ∃ b : Fin n, b.val = 1 := ⟨⟨1, by omega⟩, rfl⟩
  obtain ⟨c, hc⟩ : ∃ c : Fin n, c.val = 2 := ⟨⟨2, by omega⟩, rfl⟩
  obtain ⟨d, hd⟩ : ∃ d : Fin n, d.val = 3 := ⟨⟨3, by omega⟩, rfl⟩
  have hab : a ≠ b := fun h => by omega
  have hac : a ≠ c := fun h => by omega
  have hbc : b ≠ c := fun h => by omega
  have hda : d ≠ a := fun h => by omega
  have hdb : d ≠ b := fun h => by omega
  have hdc : d ≠ c := fun h => by omega
  obtain ⟨g, i, i', recordId, recordId', j, j', ca, cb, hboth, hfree, hreq⟩ := both_print h hab.symm
  -- the first prints and asks the second
  have hprint := alone_step (Program.reachable_turn (i := a) hboth
    (by rw [Function.update_of_ne hab, Function.update_self])) .print
  have hask := alone_ask (alone_skip hprint ha) hb hab.symm
  -- the second prints and asks the first, and is cancelled
  have hprint' := alone_step (Program.reachable_turn (i := b) hask (by
    rw [Function.update_of_ne hab.symm, Function.update_self])) .print
  have hask' := alone_ask hprint' ha hab
  have hstrike := alone_step hask' (.strike rfl (update_requested (Function.update_self ..)))
  -- the third locks the mutex
  have hlock := alone_step (Program.reachable_turn (i := c) hstrike (l := fresh) (by
    simp only [Function.update_of_ne hac.symm, Function.update_of_ne hbc.symm])) (.lock hfree)
  -- the first asks the third, and both are cancelled
  have hagain := Program.reachable_turn (i := a) hlock (l := ⟨.cancel i recordId j 2, ca, false⟩) (by
    simp only [Function.update_of_ne hac, Function.update_of_ne hab, Function.update_self])
  have hask'' := alone_ask hagain hc hac.symm
  have hfirst := alone_step hask'' (.strike rfl (update_requested (Function.update_self ..)))
  have hend := alone_step (Program.reachable_turn (i := c) hfirst (by
    rw [Function.update_of_ne hac.symm, Function.update_self])) (.strike rfl (Function.update_self ..))
  refine ⟨_, hend, ⟨d, ?_⟩, fun p hp => ?_, c, rfl, ?_⟩
  · dsimp only
    simp only [Function.update_of_ne hdc, Function.update_of_ne hda, Function.update_of_ne hdb]
    rfl
  · dsimp only at hp ⊢
    by_cases hpc : p = c
    · subst hpc
      rw [Function.update_self] at hp
      cases hp
    by_cases hpa : p = a
    · subst hpa
      rw [Function.update_of_ne hpc, Function.update_self] at hp
      cases hp
    by_cases hpb : p = b
    · subst hpb
      simp only [Function.update_of_ne hpc, Function.update_of_ne hpa, Function.update_self] at hp
      cases hp
    simp only [Function.update_of_ne hpc, Function.update_of_ne hpa, Function.update_of_ne hpb, hreq]
    exact ⟨rfl, trivial⟩
  · dsimp only
    rw [Function.update_self]

end Race

/-! ## When the threads can be stuck -/

/-- The mutex is never left to a thread that is cancelled, with others waiting for ever in a process that goes on,
exactly when there are at most three threads or all matches are in one chunk. -/
theorem stuck_iff_race :
    (∀ s, (process n J).system.Reachable s → s.exited = false → ¬ Stuck s.pool) ↔ n ≤ 3 ∨ OneChunk J := by
  constructor
  · intro hnever
    by_contra hrace
    obtain ⟨hn, hchunks⟩ := not_or.1 hrace
    obtain ⟨t, ht, hstuck⟩ := race_stuck (Nat.lt_of_not_le hn) hchunks
    exact hnever _ (Joining.reachableIf_of_threads (M := process n J) ht).reachable rfl hstuck
  · rintro hcond s hs - hstuck
    obtain ⟨hn, hchunks⟩ := hstuck.needs (Joining.reachable_threads hs)
    rcases hcond with hthree | hone
    · omega
    · exact hchunks hone

/-- Two records with a match, read one by one. -/
def twoRecords : Job := ⟨[], spaced 'x' ++ spaced 'x', 1⟩

theorem twoRecords_match {k : ℕ} (hk : k < 2) : twoRecords.scanRecord k ≠ [] := by
  have hmem : 5 ∈ twoRecords.scanRecord k := by
    refine List.mem_filter.2 ⟨List.mem_range'_1.2 (by decide), ?_⟩
    interval_cases k
    · decide +kernel
    · decide +kernel
  exact List.ne_nil_of_mem hmem

theorem twoRecords_stuck : ¬ ∀ (n : ℕ) (J : Job), 0 < J.recordsCount → ∀ s, (process n J).system.Reachable s →
    s.exited = false → ¬ Stuck s.pool := by
  intro hnever
  have hrecords : twoRecords.records = 2 := by
    unfold Job.records twoRecords
    rw [List.length_append, length_spaced]
    rfl
  have hchunks : ¬ OneChunk twoRecords := fun hone => by
    have hsame := hone 0 (by omega) 1 (by omega) (twoRecords_match (by decide)) (twoRecords_match (by decide))
    exact absurd hsame (by decide)
  obtain ⟨s, hs, hstuck⟩ := race_stuck (n := 4) le_rfl hchunks
  exact hnever 4 twoRecords (by decide) _ (Joining.reachableIf_of_threads (M := process 4 twoRecords) hs).reachable rfl
    hstuck

end Sysopy.WordSearch.Wersja1
