/-
wersja2 of the word search (cw08/zad1): `thread_func` with deferred cancellation. A thread that finds the word
reports it and requests the cancellation of every thread, itself included; a request is acted upon at a
cancellation point while cancellation is enabled, and that is only so between two chunks. So no chunk is left
half scanned, and when the threads have ended the reports are the matches of the records handed out, unless a request
for a thread that main has joined has ended the process before.
-/
import Sysopy.Conc.Joins
import Sysopy.Conc.Mutex
import Sysopy.WordSearch.Scan

namespace Sysopy.WordSearch.Wersja2

open Sysopy.Conc Sysopy.CText

/-! ## thread_func -/

/-- The file offset, the output, the owner of the mutex, and the threads with a request for cancellation. -/
structure Shared (n : ℕ) extends Output n where
  mutex : Option (Fin n)
  requested : Fin n → Bool

/-- Where a thread is; the arguments are `i`, `record_id`, `j` and `k`. As in `Wersja3` a read is two steps. -/
inductive Pc where
  | testcancel
  | disable
  | lock
  | read
  | advance
  | unlock
  | record (i : ℕ)
  | position (i : ℕ) (recordId : ℤ) (j : ℕ)
  | print (i : ℕ) (recordId : ℤ) (j : ℕ)
  | cancel (i : ℕ) (recordId : ℤ) (j k : ℕ)
  | cancelSelf (i : ℕ) (recordId : ℤ) (j : ℕ)
  | enable
  | ended
  | cancelled
  deriving DecidableEq

/-- The locals of a thread and its cancellation state; `late` is a history of how many chunks it has read
since its cancellation was requested. -/
structure Local where
  pc : Pc
  chunk : Chunk
  enabled : Bool
  late : ℕ

variable {n : ℕ} {J : Job}

/-- At a cancellation point a request is acted upon if cancellation is enabled. -/
def acted (self : Fin n) (g : Shared n) (l : Local) : Bool := l.enabled && g.requested self

/-- One step of `thread_func`. `pthread_testcancel`, read and printf are cancellation points. -/
def threadFunc (n : ℕ) (J : Job) : Program (Fin n) (Shared n) Local Unit := fun self g l _ =>
  match l.pc with
  | .testcancel =>
    if acted self g l then some (g, { l with pc := .cancelled }) else some (g, { l with pc := .disable })
  | .disable => some (g, { l with pc := .lock, enabled := false })
  | .lock => if g.mutex = none then some ({ g with mutex := some self }, { l with pc := .read }) else none
  | .read =>
    if acted self g l then some (g, { l with pc := .cancelled })
    else some (g, { l with
      pc := .advance
      chunk := J.read g.offset l.chunk.buf
      -- history: a read made after a request, with cancellation disabled
      late := if g.requested self then l.late + 1 else l.late })
  | .advance => some ({ g with offset := g.offset + l.chunk.taken }, { l with pc := .unlock })
  | .unlock => some ({ g with mutex := none }, { l with pc := .record 0 })
  | .record i =>
    if i < l.chunk.actualReadCount then
      some (g, { l with pc := .position i (atoi (l.chunk.buf.drop (RECORD_SIZE * i))) 5 })
    else some (g, { l with pc := .enable })
  | .position i recordId j =>
    if j < RECORD_SIZE - J.word.length then
      if wordEq J.word l.chunk.buf (RECORD_SIZE * i + j) then some (g, { l with pc := .print i recordId j })
      else some (g, { l with pc := .position i recordId (j + 1) })
    else
      some ({ g with scanned := g.scanned ++ [(self, l.chunk.base + i)] }, { l with pc := .record (i + 1) })
  | .print i recordId j =>
    if acted self g l then some (g, { l with pc := .cancelled })
    else some ({ g with reports := g.reports ++ [⟨self, recordId, l.chunk.base + i, j⟩] },
      { l with pc := .cancel i recordId j 0 })
  | .cancel i recordId j k =>
    if h : k < n then
      some ({ g with requested := if ⟨k, h⟩ ≠ self then Function.update g.requested ⟨k, h⟩ true else g.requested },
        { l with pc := .cancel i recordId j (k + 1) })
    else some (g, { l with pc := .cancelSelf i recordId j })
  | .cancelSelf i recordId j =>
    some ({ g with requested := Function.update g.requested self true }, { l with pc := .position i recordId (j + 1) })
  | .enable =>
    some (g, { l with pc := if l.chunk.readCount = 0 then .ended else .testcancel, enabled := true })
  | .ended => none
  | .cancelled => none

/-- A thread in front of its loop. -/
def Started (l : Local) : Prop := l.pc = .testcancel ∧ l.chunk.readCount = 1 ∧ l.enabled = true ∧ l.late = 0

/-- All runs of the threads, once main has created them all. -/
def system (n : ℕ) (J : Job) : System (Pool (Fin n) (Shared n) Local) (Fin n × Unit) :=
  (threadFunc n J).system fun s =>
    s.shared = ⟨⟨0, [], []⟩, none, fun _ => false⟩ ∧ ∀ p, Started (s.procs p)

/-- The thread has returned or is cancelled. -/
def Local.over (l : Local) : Bool := l.pc == .ended || l.pc == .cancelled

/-- Whose cancellation a thread requests in its next step. -/
def Local.handle (self : Fin n) (l : Local) : Option (Fin n) :=
  match l.pc with
  | .cancel _ _ _ k => if h : k < n then if ⟨k, h⟩ ≠ self then some ⟨k, h⟩ else none else none
  | .cancelSelf .. => some self
  | _ => none

/-- The threads and main, which joins them in their order. A request to a thread that has ended and is not joined has
no effect; for one that is joined `pthread_cancel` may fault, and the handler of SIGSEGV ends the process. -/
def process (n : ℕ) (J : Job) : Joining n (Shared n) Local Unit :=
  ⟨threadFunc n J, (system n J).init, Local.over, Local.handle⟩

/-! ## The search behind it -/

/-- What a thread is doing in the search. -/
def Local.work (l : Local) : Work :=
  match l.pc with
  | .testcancel | .disable | .lock | .read | .advance | .cancelled => .idle
  | .unlock => .records l.chunk 0
  | .record i => .records l.chunk i
  | .position i recordId j | .print i recordId j => .positions l.chunk i recordId j
  | .cancel i recordId j _ | .cancelSelf i recordId j => .positions l.chunk i recordId (j + 1)
  | .enable => if l.chunk.readCount = 0 then .ended else .idle
  | .ended => .ended

/-- Between `pthread_mutex_lock` and `pthread_mutex_unlock`. -/
def Local.holds (l : Local) : Bool :=
  match l.pc with
  | .read | .advance | .unlock => true
  | _ => false

/-- Between the read of a chunk and the end of its scan. -/
def Pc.scanning : Pc → Bool
  | .advance | .unlock | .record _ | .position .. | .print .. | .cancel .. | .cancelSelf .. => true
  | _ => false

/-- Where cancellation is enabled. -/
def Pc.cancelable : Pc → Bool
  | .testcancel | .disable | .ended | .cancelled => true
  | _ => false

/-- What a thread knows at a point of the program. -/
def PcOK (J : Job) (g : Shared n) (p : Fin n) (c : Chunk) (late : ℕ) : Pc → Prop
  | .disable | .lock | .read => late = 0
  | .advance => ∃ buf, c = J.read g.offset buf
  | .print i _ j => j < RECORD_SIZE - J.word.length ∧ wordEq J.word c.buf (RECORD_SIZE * i + j) = true
  | .cancel .. | .cancelSelf .. => g.reports ≠ []
  | .cancelled => g.requested p = true
  | _ => True

structure LocalOK (J : Job) (g : Shared n) (p : Fin n) (l : Local) : Prop where
  enabled : l.enabled = l.pc.cancelable
  late : l.late ≤ 1
  requested : l.late ≠ 0 → g.requested p = true
  pc : PcOK J g p l.chunk l.late l.pc

/-- The threads are in a state of the search, and nobody is cancelled before there is a report. -/
structure Sim (J : Job) (g : Shared n) (procs : Fin n → Local) : Prop where
  searching : (searches n J).Reachable ⟨g.toOutput, Local.work ∘ procs⟩
  owned : Owned Local.holds procs g.mutex
  locals : ∀ p, LocalOK J g p (procs p)
  found : ∀ p, g.requested p = true → g.reports ≠ []

section Step

variable {g g' : Shared n} {procs : Fin n → Local} {p q : Fin n} {l : Local}

/-- Requests and reports are not taken back, and only the owner of the mutex moves the offset. -/
theorem LocalOK.frame (h : LocalOK J g q l) (hoff : g'.offset = g.offset ∨ l.holds = false)
    (hreq : g.requested q = true → g'.requested q = true) (hrep : g.reports ≠ [] → g'.reports ≠ []) :
    LocalOK J g' q l := by
  refine ⟨h.enabled, h.late, fun hlate => hreq (h.requested hlate), ?_⟩
  have hpc := h.pc
  rcases l with ⟨pc, c, enabled, late⟩
  cases pc with
  | advance =>
    rcases hoff with hoff | hoff
    · obtain ⟨buf, hbuf⟩ := hpc
      exact ⟨buf, by rw [hoff]; exact hbuf⟩
    · cases hoff
  | cancel i recordId j k => exact hrep hpc
  | cancelSelf i recordId j => exact hrep hpc
  | cancelled => exact hreq hpc
  | _ => exact hpc

/-- One thread has taken a step. -/
theorem Sim.update (hS : Sim J g procs)
    (hsearch : (searches n J).Reachable ⟨g'.toOutput, Local.work ∘ Function.update procs p l⟩)
    (howned : Owned Local.holds (Function.update procs p l) g'.mutex) (hl : LocalOK J g' p l)
    (hoff : g'.offset = g.offset ∨ (procs p).holds = true)
    (hreq : ∀ q, g.requested q = true → g'.requested q = true) (hrep : g.reports ≠ [] → g'.reports ≠ [])
    (hfound : ∀ q, g'.requested q = true → g'.reports ≠ []) : Sim J g' (Function.update procs p l) := by
  refine ⟨hsearch, howned, fun q => ?_, hfound⟩
  by_cases hq : q = p
  · subst hq
    rwa [Function.update_self]
  · rw [Function.update_of_ne hq]
    refine (hS.locals q).frame ?_ (hreq q) hrep
    exact hoff.imp_right fun h => hS.owned.not_holds h hq

/-- A step that is none of the search. -/
theorem Sim.stay (hS : Sim J g procs) (hout : g'.toOutput = g.toOutput) (hwork : l.work = (procs p).work)
    (howned : Owned Local.holds (Function.update procs p l) g'.mutex) (hl : LocalOK J g' p l)
    (hreq : ∀ q, g.requested q = true → g'.requested q = true)
    (hfound : ∀ q, g'.requested q = true → g.reports ≠ []) : Sim J g' (Function.update procs p l) := by
  refine hS.update ?_ howned hl (.inl ?_) hreq ?_ ?_
  · rw [hout]
    exact Program.view_stay hS.searching hwork
  · rw [hout]
  · rw [hout]
    exact id
  · rw [hout]
    exact hfound

/-- A step that changes nothing the others see. -/
theorem Sim.goOn (hS : Sim J g procs) (hwork : l.work = (procs p).work) (hholds : l.holds = (procs p).holds)
    (hl : LocalOK J g p l) : Sim J g (Function.update procs p l) :=
  hS.stay rfl hwork (hS.owned.keep hholds) hl (fun _ => id) hS.found

/-- A step of the search. -/
theorem Sim.step (hS : Sim J g procs) (buf : Buffer)
    (hstep : search n J p g.toOutput (procs p).work buf = some (g'.toOutput, l.work))
    (hmutex : g'.mutex = g.mutex) (hholds : l.holds = (procs p).holds) (hl : LocalOK J g' p l)
    (hoff : g'.offset = g.offset ∨ (procs p).holds = true) (hreq : g'.requested = g.requested)
    (hrep : g.reports ≠ [] → g'.reports ≠ []) : Sim J g' (Function.update procs p l) := by
  refine hS.update (Program.view_step hS.searching hstep) ?_ hl hoff ?_ hrep ?_
  · rw [hmutex]
    exact hS.owned.keep hholds
  · rw [hreq]
    exact fun q => id
  · rw [hreq]
    exact fun q hq => hrep (hS.found q hq)

/-- Cancellation acts only where it is enabled, and only on a request. -/
theorem acted_eq_true (hl : LocalOK J g p l) : acted p g l = true ↔ l.pc.cancelable = true ∧ g.requested p = true := by
  unfold acted
  rw [hl.enabled, Bool.and_eq_true]

/-- A step that only moves the thread on. -/
theorem LocalOK.move (hl : LocalOK J g p l) {pc : Pc} (hcancel : pc.cancelable = l.pc.cancelable)
    (hpc : PcOK J g p l.chunk l.late pc) : LocalOK J g p { l with pc := pc } :=
  ⟨hl.enabled.trans hcancel.symm, hl.late, hl.requested, hpc⟩

theorem sim_step (hS : Sim J g procs) (h : threadFunc n J p g (procs p) () = some (g', l)) :
    Sim J g' (Function.update procs p l) := by
  have hl := hS.locals p
  have hfound := hS.found
  rcases hp : procs p with ⟨pc, c, enabled, late⟩
  rw [hp] at h hl
  have hwork : (procs p).work = Local.work ⟨pc, c, enabled, late⟩ := by rw [hp]
  have hholds : (procs p).holds = Local.holds ⟨pc, c, enabled, late⟩ := by rw [hp]
  have hpcOK := hl.pc
  cases pc with
  | testcancel =>
    simp only [threadFunc] at h
    split at h
    · rename_i hact
      obtain ⟨rfl, rfl⟩ := Prod.mk.inj (Option.some.inj h)
      refine hS.goOn hwork.symm hholds.symm (hl.move rfl ?_)
      exact ((acted_eq_true hl).1 hact).2
    · rename_i hact
      obtain ⟨rfl, rfl⟩ := Prod.mk.inj (Option.some.inj h)
      refine hS.goOn hwork.symm hholds.symm (hl.move rfl ?_)
      -- no request so far, so nothing has been read since one
      by_contra hlate
      exact hact ((acted_eq_true hl).2 ⟨rfl, hl.requested hlate⟩)
  | disable =>
    obtain ⟨rfl, rfl⟩ := Prod.mk.inj (Option.some.inj h)
    exact hS.goOn hwork.symm hholds.symm ⟨rfl, hl.late, hl.requested, hpcOK⟩
  | lock =>
    simp only [threadFunc] at h
    split at h
    · rename_i hfree
      obtain ⟨rfl, rfl⟩ := Prod.mk.inj (Option.some.inj h)
      have howned := hS.owned
      rw [hfree] at howned
      refine hS.stay rfl hwork.symm (howned.lock rfl) ?_ (fun q => id) hfound
      exact ⟨hl.enabled, hl.late, hl.requested, hpcOK⟩
    · cases h
  | read =>
    simp only [threadFunc] at h
    split at h
    · rename_i hact
      exact absurd ((acted_eq_true hl).1 hact).1 Bool.false_ne_true
    · generalize hread : J.read g.offset c.buf = c' at h
      obtain ⟨rfl, rfl⟩ := Prod.mk.inj (Option.some.inj h)
      refine hS.goOn hwork.symm hholds.symm ?_
      have hlate : late = 0 := hpcOK
      refine ⟨hl.enabled, ?_, ?_, ⟨_, hread.symm⟩⟩
      · rw [hlate]
        split
        · exact le_rfl
        · exact Nat.zero_le _
      · intro hne
        by_contra hreq
        exact hne (by simp [hreq, hlate])
  | advance =>
    obtain ⟨buf, hbuf⟩ : ∃ buf, c = J.read g.offset buf := hpcOK
    obtain ⟨rfl, rfl⟩ := Prod.mk.inj (Option.some.inj h)
    refine hS.step buf ?_ rfl hholds.symm ⟨hl.enabled, hl.late, hl.requested, trivial⟩ (.inr hholds) rfl id
    rw [hwork]
    simp only [search, Local.work, hbuf]
  | unlock =>
    obtain ⟨rfl, rfl⟩ := Prod.mk.inj (Option.some.inj h)
    refine hS.stay rfl hwork.symm (hS.owned.unlock hholds rfl) ?_ (fun q => id) hfound
    exact ⟨hl.enabled, hl.late, hl.requested, trivial⟩
  | record i =>
    simp only [threadFunc] at h
    split at h
    · rename_i hlt
      obtain ⟨rfl, rfl⟩ := Prod.mk.inj (Option.some.inj h)
      refine hS.step [] ?_ rfl hholds.symm (hl.move rfl trivial) (.inl rfl) rfl id
      rw [hwork]
      simp only [search, Local.work, hlt, if_true]
    · rename_i hlt
      obtain ⟨rfl, rfl⟩ := Prod.mk.inj (Option.some.inj h)
      refine hS.step [] ?_ rfl hholds.symm (hl.move rfl trivial) (.inl rfl) rfl id
      rw [hwork]
      simp only [search, Local.work, hlt, if_false]
  | position i recordId j =>
    simp only [threadFunc] at h
    split at h
    · rename_i hlt
      split at h
      · rename_i heq
        obtain ⟨rfl, rfl⟩ := Prod.mk.inj (Option.some.inj h)
        refine hS.goOn hwork.symm hholds.symm (hl.move rfl ?_)
        exact ⟨hlt, heq⟩
      · rename_i heq
        obtain ⟨rfl, rfl⟩ := Prod.mk.inj (Option.some.inj h)
        refine hS.step [] ?_ rfl hholds.symm (hl.move rfl trivial) (.inl rfl) rfl id
        rw [hwork]
        simp only [search, Local.work, Output.test, hlt, if_true, heq, Bool.false_eq_true, if_false]
    · rename_i hlt
      obtain ⟨rfl, rfl⟩ := Prod.mk.inj (Option.some.inj h)
      refine hS.step [] ?_ rfl hholds.symm ⟨hl.enabled, hl.late, hl.requested, trivial⟩ (.inl rfl) rfl id
      rw [hwork]
      simp only [search, Local.work, hlt, if_false]
  | print i recordId j =>
    obtain ⟨hlt, heq⟩ : j < RECORD_SIZE - J.word.length ∧ wordEq J.word c.buf (RECORD_SIZE * i + j) = true := hpcOK
    simp only [threadFunc] at h
    split at h
    · rename_i hact
      exact absurd ((acted_eq_true hl).1 hact).1 Bool.false_ne_true
    · obtain ⟨rfl, rfl⟩ := Prod.mk.inj (Option.some.inj h)
      have hsome : g.reports ++ [⟨p, recordId, c.base + i, j⟩] ≠ [] := by simp
      refine hS.step [] ?_ rfl hholds.symm ⟨hl.enabled, hl.late, hl.requested, hsome⟩ (.inl rfl) rfl fun _ => hsome
      rw [hwork]
      simp only [search, Local.work, Output.test, hlt, heq, if_true]
  | cancel i recordId j k =>
    simp only [threadFunc] at h
    split at h
    · rename_i hk
      obtain ⟨rfl, rfl⟩ := Prod.mk.inj (Option.some.inj h)
      have hmono : ∀ q, g.requested q = true →
          (if (⟨k, hk⟩ : Fin n) ≠ p then Function.update g.requested ⟨k, hk⟩ true else g.requested) q = true := by
        intro q hq
        split
        · exact update_requested hq
        · exact hq
      refine hS.stay rfl hwork.symm (hS.owned.keep hholds.symm) ?_ hmono fun _ _ => hpcOK
      exact ⟨hl.enabled, hl.late, fun hlate => hmono p (hl.requested hlate), hpcOK⟩
    · obtain ⟨rfl, rfl⟩ := Prod.mk.inj (Option.some.inj h)
      exact hS.goOn hwork.symm hholds.symm (hl.move rfl hpcOK)
  | cancelSelf i recordId j =>
    obtain ⟨rfl, rfl⟩ := Prod.mk.inj (Option.some.inj h)
    have hmono : ∀ q, g.requested q = true → Function.update g.requested p true q = true := fun q hq =>
      update_requested hq
    refine hS.stay rfl hwork.symm (hS.owned.keep hholds.symm) ?_ hmono fun _ _ => hpcOK
    exact ⟨hl.enabled, hl.late, fun hlate => hmono p (hl.requested hlate), trivial⟩
  | enable =>
    obtain ⟨rfl, rfl⟩ := Prod.mk.inj (Option.some.inj h)
    by_cases h0 : c.readCount = 0
    · simp only [h0, if_true]
      refine hS.goOn ?_ hholds.symm ⟨rfl, hl.late, hl.requested, trivial⟩
      rw [hwork]
      simp only [Local.work, h0, if_true]
    · simp only [h0, if_false]
      refine hS.goOn ?_ hholds.symm ⟨rfl, hl.late, hl.requested, trivial⟩
      rw [hwork]
      simp only [Local.work, h0, if_false]
  | ended => cases h
  | cancelled => cases h

end Step

theorem reachable_sim {s : Pool (Fin n) (Shared n) Local} (h : (system n J).Reachable s) :
    Sim J s.shared s.procs := by
  refine Program.invariant (fun s hs => ?_) (fun g procs p a g' l hS hstep => sim_step hS hstep) h
  obtain ⟨hg, hp⟩ := hs
  have hidle : ∀ p, (s.procs p).work = .idle := fun p => by rw [Local.work, (hp p).1]
  refine ⟨.init ⟨?_, hidle⟩, ?_, fun p => ?_, fun p hp => ?_⟩
  · rw [hg]
  · rw [hg]
    exact Owned.of_none fun p => by rw [Local.holds, (hp p).1]
  · obtain ⟨hpc, -, henabled, hlate⟩ := hp p
    refine ⟨by rw [henabled, hpc]; rfl, by omega, fun h => absurd hlate h, ?_⟩
    rw [hpc]
    trivial
  · rw [hg] at hp
    cases hp

/-! ## Deferred cancellation -/

section Results

variable {g : Shared n} {procs : Fin n → Local} {p : Fin n}

theorem over_iff {l : Local} : l.over = true ↔ l.pc = .ended ∨ l.pc = .cancelled := by
  rw [Local.over, Bool.or_eq_true, beq_iff_eq, beq_iff_eq]

/-- A thread that has ended or is cancelled has no work left. -/
theorem free_of_over {l : Local} (h : l.over = true) : l.work.Free := by
  rcases over_iff.1 h with h | h
  · right
    rw [Local.work, h]
  · left
    rw [Local.work, h]

/-- Without a report nobody is cancelled, so the threads have found the end of the file. -/
theorem Sim.offset_eq (hS : Sim J g procs) (hI : Inv J g.toOutput (Local.work ∘ procs)) (hn : 0 < n)
    (hsize : J.size ≠ 0) (hover : ∀ p, (procs p).over = true) (hnone : g.reports = []) : g.offset = J.file.length := by
  have hended : (Local.work ∘ procs) ⟨0, hn⟩ = .ended := by
    rcases over_iff.1 (hover ⟨0, hn⟩) with hpc | hpc
    · show (procs _).work = .ended
      rw [Local.work, hpc]
    · have hrequest := (hS.locals ⟨0, hn⟩).pc
      rw [hpc] at hrequest
      exact absurd hnone (hS.found _ hrequest)
  exact hI.offset_eq hsize hended

theorem Sim.reports (hS : Sim J g procs) (hI : Inv J g.toOutput (Local.work ∘ procs)) (hn : 0 < n)
    (hsize : J.size ≠ 0) (hover : ∀ p, (procs p).over = true) :
    ∃ m ≤ J.records, (g.reports.map Report.place).Perm (J.found m) ∧
      ∀ k < J.records, (∀ i < k, J.scanRecord i = []) → ∀ j ∈ J.scanRecord k, (k, j) ∈ g.reports.map Report.place := by
  have hreports := hI.reports_perm fun p => free_of_over (hover p)
  refine ⟨g.offset / RECORD_SIZE, Nat.div_le_div_right hI.aligned.1, hreports, fun k hk hfirst j hj => ?_⟩
  have hlt : k < g.offset / RECORD_SIZE := by
    cases hnone : g.reports with
    | nil =>
      rw [hS.offset_eq hI hn hsize hover hnone]
      exact hk
    | cons r rest =>
      -- a record that is reported is handed out, and the first one with a match is not behind it
      have hmem : r.place ∈ J.found (g.offset / RECORD_SIZE) := by
        refine hreports.mem_iff.1 (List.mem_map.2 ⟨r, ?_, rfl⟩)
        rw [hnone]
        exact List.mem_cons_self
      obtain ⟨hr, hmatch⟩ := Job.mem_found.1 hmem
      have hle : k ≤ r.place.1 := by
        by_contra hlt
        rw [hfirst _ (Nat.lt_of_not_le hlt)] at hmatch
        cases hmatch
      omega
  exact hreports.mem_iff.2 (Job.mem_found.2 ⟨hlt, hj⟩)

end Results

/-- A thread that requests a cancellation has reported a match. -/
theorem Sim.reported_of_handle {g : Shared n} {procs : Fin n → Local} (hS : Sim J g procs) {p q : Fin n}
    (h : (procs p).handle p = some q) : g.reports ≠ [] := by
  have hpc := (hS.locals p).pc
  unfold Local.handle at h
  cases hp : (procs p).pc with
  | cancel | cancelSelf =>
    rw [hp] at hpc
    exact hpc
  | _ =>
    rw [hp] at h
    cases h

/-- Without a report the process has not come to its end, or there is no match. -/
theorem found_nil_of_ended {s : Joining.State n (Shared n) Local} (hn : 0 < n) (hsize : J.size ≠ 0)
    (h : (process n J).system.Reachable s) (hend : (process n J).Ended s) (hnone : s.pool.shared.reports = []) :
    J.found J.records = [] := by
  have hS : Sim J s.pool.shared s.pool.procs := reachable_sim (Joining.reachable_threads h)
  have hI := reachable_inv hS.searching
  rcases hend with hexit | hover
  · obtain ⟨p, ⟨q, hq, -⟩, -⟩ := Joining.stale_of_exited h hexit
    exact absurd hnone (hS.reported_of_handle hq)
  · have hperm := hI.reports_perm fun p => free_of_over (hover p)
    rw [hS.offset_eq hI hn hsize hover hnone, hnone] at hperm
    exact hperm.nil_eq.symm

/-! ## One thread finds the word -/

section Alone

variable {g : Shared n} {procs : Fin n → Local} {p : Fin n} {c : Chunk} {late : ℕ}

/-- A thread that is alone takes its next step. -/
theorem alone_step {l : Local} (h : (system n J).Reachable ⟨g, Function.update procs p l⟩) (g' : Shared n)
    (l' : Local) (hstep : threadFunc n J p g l () = some (g', l')) :
    (system n J).Reachable ⟨g', Function.update procs p l'⟩ :=
  Program.reachable_again h hstep

/-- With no request for it, it reads a chunk. -/
theorem alone_read {c' : Chunk}
    (h : (system n J).Reachable ⟨g, Function.update procs p ⟨.testcancel, c, true, late⟩⟩)
    (hg : g.mutex = none) (hreq : g.requested p = false) (hchunk : J.read g.offset c.buf = c') :
    (system n J).Reachable ⟨{ g with offset := g.offset + c'.taken },
      Function.update procs p ⟨.record 0, c', false, late⟩⟩ := by
  have htest := alone_step h g ⟨.disable, c, true, late⟩ (by simp [threadFunc, acted, hreq])
  have hdisable := alone_step htest _ ⟨.lock, c, false, late⟩ rfl
  have hlock := alone_step hdisable { g with mutex := some p } ⟨.read, c, false, late⟩ (by
    simp only [threadFunc, hg, if_true])
  have hread := alone_step hlock _ ⟨.advance, c', false, late⟩ (by
    simp only [threadFunc, acted, hreq, hchunk, Bool.false_and, Bool.false_eq_true, if_false]
    rfl)
  have hadvance := alone_step hread _ ⟨.unlock, c', false, late⟩ rfl
  have hunlock := alone_step hadvance _ ⟨.record 0, c', false, late⟩ rfl
  rwa [← hg] at hunlock

/-- It goes through the rest of a record that has no match there. -/
theorem alone_quiet {i j : ℕ} {recordId : ℤ} (hj : j ≤ RECORD_SIZE - J.word.length)
    (hquiet : ∀ k, j ≤ k → k < RECORD_SIZE - J.word.length → wordEq J.word c.buf (RECORD_SIZE * i + k) = false)
    (h : (system n J).Reachable ⟨g, Function.update procs p ⟨.position i recordId j, c, false, late⟩⟩) :
    (system n J).Reachable ⟨{ g with scanned := g.scanned ++ [(p, c.base + i)] },
      Function.update procs p ⟨.record (i + 1), c, false, late⟩⟩ := by
  induction hd : RECORD_SIZE - J.word.length - j generalizing j with
  | zero =>
    refine alone_step h _ _ ?_
    simp only [threadFunc, show ¬ j < RECORD_SIZE - J.word.length by omega, if_false]
  | succ d ih =>
    have hlt : j < RECORD_SIZE - J.word.length := by omega
    have hnext := alone_step h g ⟨.position i recordId (j + 1), c, false, late⟩ (by
      simp only [threadFunc, hlt, if_true, hquiet j le_rfl hlt, Bool.false_eq_true, if_false])
    exact ih (by omega) (fun k hk => hquiet k (by omega)) hnext (by omega)

/-- The first of two threads finds the word and requests the cancellation of both. -/
theorem alone_found {g : Shared 2} {procs : Fin 2 → Local} {i j : ℕ} {recordId : ℤ}
    (hj : j < RECORD_SIZE - J.word.length) (hmatch : wordEq J.word c.buf (RECORD_SIZE * i + j) = true)
    (h : (system 2 J).Reachable ⟨g, Function.update procs 0 ⟨.position i recordId j, c, false, late⟩⟩) :
    (system 2 J).Reachable ⟨{ g with
      reports := g.reports ++ [⟨0, recordId, c.base + i, j⟩]
      requested := fun _ => true }, Function.update procs 0 ⟨.position i recordId (j + 1), c, false, late⟩⟩ := by
  have htest := alone_step h g ⟨.print i recordId j, c, false, late⟩ (by
    simp only [threadFunc, hj, hmatch, if_true])
  have hprint := alone_step htest { g with reports := g.reports ++ [⟨0, recordId, c.base + i, j⟩] }
    ⟨.cancel i recordId j 0, c, false, late⟩ rfl
  have hself := alone_step hprint _ ⟨.cancel i recordId j 1, c, false, late⟩ rfl
  have hother := alone_step hself _ ⟨.cancel i recordId j 2, c, false, late⟩ rfl
  have hloop := alone_step hother _ ⟨.cancelSelf i recordId j, c, false, late⟩ rfl
  refine alone_step hloop _ _ ?_
  have hall : Function.update (Function.update g.requested 1 true) 0 true = fun _ => true := by
    funext q
    fin_cases q
    · rfl
    · rfl
  rw [← hall]
  rfl

/-- A thread in front of its loop, with an empty buffer. -/
def fresh : Local := ⟨.testcancel, ⟨[], 1, 0⟩, true, 0⟩

theorem start_reachable (p : Fin n) : (system n J).Reachable ⟨⟨⟨0, [], []⟩, none, fun _ => false⟩,
    Function.update (fun _ => fresh) p fresh⟩ := by
  refine .init ⟨rfl, fun q => ?_⟩
  rw [Function.update_eq_self_iff.2 rfl]
  exact ⟨rfl, rfl, rfl, rfl⟩

/-- Two threads: the first finds the word, requests the cancellation of both, finishes its record and is
cancelled, and so is the second. -/
theorem oneRecord_cancelled : ∃ s, (system 2 oneRecord).Reachable s ∧ (∀ p, (s.procs p).pc = .cancelled) ∧
    s.shared.reports = [⟨0, 0, 0, 5⟩] := by
  have hstart := start_reachable (J := oneRecord) (0 : Fin 2)
  have hread := alone_read hstart rfl rfl oneRecord_read
  have hrecord := alone_step hread _ ⟨.position 0 (atoi oneRecord.file) 5, _, false, 0⟩ (by
    simp only [threadFunc, Nat.mul_zero, List.drop_zero]
    rfl)
  have hfound := alone_found (by decide) (oneRecord_wordEq le_rfl (by decide)) hrecord
  have hnone : ∀ k, 6 ≤ k → k < RECORD_SIZE → wordEq [] oneRecord.file (RECORD_SIZE * 0 + k) = false := by
    intro k hk hlt
    exact (oneRecord_wordEq (by omega) hlt).trans (decide_eq_false (by omega))
  -- the rest of the record is looked through before the request is acted on
  have hquiet := alone_quiet (J := oneRecord) (by decide) hnone hfound
  have henable := alone_step hquiet _ ⟨.enable, _, false, 0⟩ rfl
  have hagain := alone_step henable _ ⟨.testcancel, _, true, 0⟩ rfl
  have hfirst := alone_step hagain _ ⟨.cancelled, _, true, 0⟩ rfl
  rw [← Function.update_eq_self (1 : Fin 2) (Function.update _ _ _)] at hfirst
  have hsecond := alone_step hfirst _ ⟨.cancelled, _, true, 0⟩ rfl
  refine ⟨_, hsecond, fun p => ?_, ?_⟩
  · fin_cases p
    · rfl
    · rfl
  · show [(⟨0, atoi oneRecord.file, 0, 5⟩ : Report 2)] = _
    rw [oneRecord_atoi]

end Alone

/-! ## A request to a thread that is joined -/

end Sysopy.WordSearch.Wersja2
