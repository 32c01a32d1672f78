/-
wersja1 of the word search (cw08/zad1): `thread_func` with asynchronous cancellation. A request to a thread takes
effect between any two of its steps, also while it holds the mutex, which nobody can take then. Up to that point
every thread takes part in the search, and a request is made only after a report; so the reports are of matches,
and the threads do not all end without one when the file has a match.
-/
import Sysopy.Conc.Joins
import Sysopy.Conc.Mutex
import Sysopy.WordSearch.Scan

namespace Sysopy.WordSearch.Wersja1

open Sysopy.Conc Sysopy.CText

/-! ## thread_func -/

/-- The file offset, the output, the owner of the mutex, and the threads with a request for cancellation. -/
structure Shared (n : ℕ) extends Output n where
  mutex : Option (Fin n)
  requested : Fin n → Bool

/-- Where a thread is; the arguments are `i`, `record_id`, `j` and `k`. -/
inductive Pc where
  | lock
  | read
  | unlock
  | record (i : ℕ)
  | position (i : ℕ) (recordId : ℤ) (j : ℕ)
  | print (i : ℕ) (recordId : ℤ) (j : ℕ)
  | cancel (i : ℕ) (recordId : ℤ) (j k : ℕ)
  | cancelSelf (i : ℕ) (recordId : ℤ) (j : ℕ)
  | ended
  deriving DecidableEq

/-- The locals of a thread; one that is cancelled stays where it was. -/
structure Local where
  pc : Pc
  chunk : Chunk
  cancelled : Bool

variable {n : ℕ} {J : Job}

/-- The thread has returned or is cancelled. -/
def Local.over (l : Local) : Bool := l.cancelled || l.pc == .ended

/-- The next step of the code. -/
def code (n : ℕ) (J : Job) (self : Fin n) (g : Shared n) (l : Local) : Option (Shared n × Local) :=
  match l.pc with
  | .lock => if g.mutex = none then some ({ g with mutex := some self }, { l with pc := .read }) else none
  | .read =>
    let chunk := J.read g.offset l.chunk.buf
    some ({ g with offset := g.offset + chunk.taken }, { l with pc := .unlock, chunk := chunk })
  | .unlock => some ({ g with mutex := none }, { l with pc := .record 0 })
  | .record i =>
    if i < l.chunk.actualReadCount then
      some (g, { l with pc := .position i (atoi (l.chunk.buf.drop (RECORD_SIZE * i))) 5 })
    -- `while(read_count)` ends with the first read that returns nothing
    else some (g, { l with pc := if l.chunk.readCount = 0 then .ended else .lock })
  | .position i recordId j =>
    if j < RECORD_SIZE - J.word.length then
      if wordEq J.word l.chunk.buf (RECORD_SIZE * i + j) then some (g, { l with pc := .print i recordId j })
      else some (g, { l with pc := .position i recordId (j + 1) })
    else
      -- history: the record has been looked through
      some ({ g with scanned := g.scanned ++ [(self, l.chunk.base + i)] }, { l with pc := .record (i + 1) })
  | .print i recordId j =>
    some ({ g with reports := g.reports ++ [⟨self, recordId, l.chunk.base + i, j⟩] },
      { l with pc := .cancel i recordId j 0 })
  | .cancel i recordId j k =>
    if h : k < n then
      some ({ g with requested := if ⟨k, h⟩ ≠ self then Function.update g.requested ⟨k, h⟩ true else g.requested },
        { l with pc := .cancel i recordId j (k + 1) })
    else some (g, { l with pc := .cancelSelf i recordId j })
  | .cancelSelf i recordId j =>
    some ({ g with requested := Function.update g.requested self true }, { l with pc := .position i recordId (j + 1) })
  | .ended => none

/-- One step of a thread: its cancellation takes effect, or it goes on. -/
def threadFunc (n : ℕ) (J : Job) : Program (Fin n) (Shared n) Local Bool := fun self g l strike =>
  if l.over then none
  -- asynchronous cancellation strikes between any two steps
  else if strike then
    if g.requested self then some (g, { l with cancelled := true }) else none
  else code n J self g l

/-- A thread in front of its loop. -/
def Started (l : Local) : Prop := l.pc = .lock ∧ l.cancelled = false

/-- All runs of the threads, once main has created them all. -/
def system (n : ℕ) (J : Job) : System (Pool (Fin n) (Shared n) Local) (Fin n × Bool) :=
  (threadFunc n J).system fun s =>
    s.shared = ⟨⟨0, [], []⟩, none, fun _ => false⟩ ∧ ∀ p, Started (s.procs p)

/-- Whose cancellation a thread requests in its next step. -/
def Local.handle (self : Fin n) (l : Local) : Option (Fin n) :=
  match l.pc with
  | .cancel _ _ _ k => if h : k < n then if ⟨k, h⟩ ≠ self then some ⟨k, h⟩ else none else none
  | .cancelSelf .. => some self
  | _ => none

/-- The threads and main, which joins them in their order. A `pthread_cancel` of a thread that is joined has no
effect, or it faults: then the handler of SIGSEGV ends the process. -/
def process (n : ℕ) (J : Job) : Joining n (Shared n) Local Bool :=
  ⟨threadFunc n J, (system n J).init, Local.over, Local.handle⟩

/-! ## What a step does -/

/-- Everything a step of a thread can be. -/
inductive Steps (J : Job) (p : Fin n) (g : Shared n) : Local → Shared n → Local → Prop
  | strike {l : Local} (hover : l.over = false) (h : g.requested p = true) :
      Steps J p g l g { l with cancelled := true }
  | lock {c : Chunk} (h : g.mutex = none) :
      Steps J p g ⟨.lock, c, false⟩ { g with mutex := some p } ⟨.read, c, false⟩
  | read {c c' : Chunk} (h : J.read g.offset c.buf = c') :
      Steps J p g ⟨.read, c, false⟩ { g with offset := g.offset + c'.taken } ⟨.unlock, c', false⟩
  | unlock {c : Chunk} : Steps J p g ⟨.unlock, c, false⟩ { g with mutex := none } ⟨.record 0, c, false⟩
  | record {c : Chunk} {i : ℕ} (h : i < c.actualReadCount) :
      Steps J p g ⟨.record i, c, false⟩ g ⟨.position i (atoi (c.buf.drop (RECORD_SIZE * i))) 5, c, false⟩
  | again {c : Chunk} {i : ℕ} (h : ¬ i < c.actualReadCount) (h0 : c.readCount ≠ 0) :
      Steps J p g ⟨.record i, c, false⟩ g ⟨.lock, c, false⟩
  | stop {c : Chunk} {i : ℕ} (h : ¬ i < c.actualReadCount) (h0 : c.readCount = 0) :
      Steps J p g ⟨.record i, c, false⟩ g ⟨.ended, c, false⟩
  | hit {c : Chunk} {i j : ℕ} {recordId : ℤ} (hj : j < RECORD_SIZE - J.word.length)
      (h : wordEq J.word c.buf (RECORD_SIZE * i + j) = true) :
      Steps J p g ⟨.position i recordId j, c, false⟩ g ⟨.print i recordId j, c, false⟩
  | miss {c : Chunk} {i j : ℕ} {recordId : ℤ} (hj : j < RECORD_SIZE - J.word.length)
      (h : wordEq J.word c.buf (RECORD_SIZE * i + j) = false) :
      Steps J p g ⟨.position i recordId j, c, false⟩ g ⟨.position i recordId (j + 1), c, false⟩
  | finish {c : Chunk} {i j : ℕ} {recordId : ℤ} (hj : ¬ j < RECORD_SIZE - J.word.length) :
      Steps J p g ⟨.position i recordId j, c, false⟩ { g with scanned := g.scanned ++ [(p, c.base + i)] }
        ⟨.record (i + 1), c, false⟩
  | print {c : Chunk} {i j : ℕ} {recordId : ℤ} : Steps J p g ⟨.print i recordId j, c, false⟩
      { g with reports := g.reports ++ [⟨p, recordId, c.base + i, j⟩] } ⟨.cancel i recordId j 0, c, false⟩
  | cancel {c : Chunk} {i j k : ℕ} {recordId : ℤ} (h : k < n) : Steps J p g ⟨.cancel i recordId j k, c, false⟩
      { g with requested := if ⟨k, h⟩ ≠ p then Function.update g.requested ⟨k, h⟩ true else g.requested }
      ⟨.cancel i recordId j (k + 1), c, false⟩
  | cancelled {c : Chunk} {i j k : ℕ} {recordId : ℤ} (h : ¬ k < n) :
      Steps J p g ⟨.cancel i recordId j k, c, false⟩ g ⟨.cancelSelf i recordId j, c, false⟩
  | cancelSelf {c : Chunk} {i j : ℕ} {recordId : ℤ} : Steps J p g ⟨.cancelSelf i recordId j, c, false⟩
      { g with requested := Function.update g.requested p true } ⟨.position i recordId (j + 1), c, false⟩

theorem code_steps {p : Fin n} {g g' : Shared n} {pc : Pc} {c : Chunk} {l' : Local}
    (h : code n J p g ⟨pc, c, false⟩ = some (g', l')) : Steps J p g ⟨pc, c, false⟩ g' l' := by
  cases pc with
  | lock =>
    simp only [code] at h
    split at h
    · rename_i hfree
      cases h
      exact .lock hfree
    · cases h
  | read =>
    simp only [code] at h
    generalize hread : J.read g.offset c.buf = c' at h
    cases h
    exact .read hread
  | unlock =>
    cases h
    exact .unlock
  | record i =>
    simp only [code] at h
    split at h
    · rename_i hlt
      cases h
      exact .record hlt
    · rename_i hlt
      split at h
      · rename_i h0
        cases h
        exact .stop hlt h0
      · rename_i h0
        cases h
        exact .again hlt h0
  | position i recordId j =>
    simp only [code] at h
    split at h
    · rename_i hj
      split at h
      · rename_i heq
        cases h
        exact .hit hj heq
      · rename_i heq
        cases h
        exact .miss hj (Bool.eq_false_iff.2 heq)
    · rename_i hj
      cases h
      exact .finish hj
  | print i recordId j =>
    cases h
    exact .print
  | cancel i recordId j k =>
    simp only [code] at h
    split at h
    · rename_i hk
      cases h
      exact .cancel hk
    · rename_i hk
      cases h
      exact .cancelled hk
  | cancelSelf i recordId j =>
    cases h
    exact .cancelSelf
  | ended => cases h

theorem steps_code {p : Fin n} {g g' : Shared n} {l l' : Local} (h : Steps J p g l g' l') :
    ∃ strike, threadFunc n J p g l strike = some (g', l') := by
  cases h with
  | strike hover h => exact ⟨true, by simp [threadFunc, hover, h]⟩
  | lock h => exact ⟨false, by simp [threadFunc, Local.over, code, h]⟩
  | record h => exact ⟨false, by simp [threadFunc, Local.over, code, h]⟩
  | again h h0 => exact ⟨false, by simp [threadFunc, Local.over, code, h, h0]⟩
  | stop h h0 => exact ⟨false, by simp [threadFunc, Local.over, code, h, h0]⟩
  | hit hj h => exact ⟨false, by simp [threadFunc, Local.over, code, hj, h]⟩
  | miss hj h => exact ⟨false, by simp [threadFunc, Local.over, code, hj, h]⟩
  | finish hj => exact ⟨false, by simp [threadFunc, Local.over, code, hj]⟩
  | cancel h => exact ⟨false, by simp [threadFunc, Local.over, code, h]⟩
  | cancelled h => exact ⟨false, by simp [threadFunc, Local.over, code, h]⟩
  | read h => exact ⟨false, by simp [threadFunc, Local.over, code, h]⟩
  | unlock | print | cancelSelf => exact ⟨false, rfl⟩

theorem steps_iff {p : Fin n} {g g' : Shared n} {l l' : Local} :
    Steps J p g l g' l' ↔ ∃ strike, threadFunc n J p g l strike = some (g', l') := by
  refine ⟨steps_code, ?_⟩
  rintro ⟨strike, h⟩
  unfold threadFunc at h
  split at h
  · cases h
  · rename_i hover
    rw [Bool.not_eq_true] at hover
    split at h
    · split at h
      · rename_i hreq
        cases h
        exact .strike hover hreq
      · cases h
    · rcases l with ⟨pc, c, cancelled⟩
      obtain ⟨rfl, -⟩ : cancelled = false ∧ _ := Bool.or_eq_false_iff.1 hover
      exact code_steps h

/-! ## The search behind it -/

/-- What a thread is doing in the search, or was doing when it was cancelled. -/
def Local.work (l : Local) : Work :=
  match l.pc with
  | .lock | .read => .idle
  | .unlock => .records l.chunk 0
  | .record i => .records l.chunk i
  | .position i recordId j | .print i recordId j => .positions l.chunk i recordId j
  | .cancel i recordId j _ | .cancelSelf i recordId j => .positions l.chunk i recordId (j + 1)
  | .ended => .ended

/-- Between `pthread_mutex_lock` and `pthread_mutex_unlock`. -/
def Local.holds (l : Local) : Bool :=
  match l.pc with
  | .read | .unlock => true
  | _ => false

/-- A thread that prints has a match, and one that makes requests has reported it. -/
def PcOK (J : Job) (g : Shared n) (c : Chunk) : Pc → Prop
  | .print i _ j => j < RECORD_SIZE - J.word.length ∧ wordEq J.word c.buf (RECORD_SIZE * i + j) = true
  | .cancel i _ _ _ | .cancelSelf i _ _ => ∃ r ∈ g.reports, r.record = c.base + i
  | _ => True

/-- The threads are in a state of the search, and a request comes after a report. -/
structure Sim (J : Job) (g : Shared n) (procs : Fin n → Local) : Prop where
  searching : (searches n J).Reachable ⟨g.toOutput, Local.work ∘ procs⟩
  owned : Owned Local.holds procs g.mutex
  pcs : ∀ p, PcOK J g (procs p).chunk (procs p).pc
  found : ∀ p, g.requested p = true → g.reports ≠ []
  cancelled : ∀ p, (procs p).cancelled = true → g.requested p = true

section Step

variable {g g' : Shared n} {procs : Fin n → Local} {p : Fin n} {l : Local}

theorem PcOK.frame {c : Chunk} {pc : Pc} (h : PcOK J g c pc) (hrep : g.reports ⊆ g'.reports) : PcOK J g' c pc := by
  cases pc with
  | cancel i recordId j k =>
    obtain ⟨r, hr, hrecord⟩ := h
    exact ⟨r, hrep hr, hrecord⟩
  | cancelSelf i recordId j =>
    obtain ⟨r, hr, hrecord⟩ := h
    exact ⟨r, hrep hr, hrecord⟩
  | _ => exact h

/-- One thread has taken a step. -/
theorem Sim.update (hS : Sim J g procs)
    (hsearch : (searches n J).Reachable ⟨g'.toOutput, Local.work ∘ Function.update procs p l⟩)
    (howned : Owned Local.holds (Function.update procs p l) g'.mutex) (hpc : PcOK J g' l.chunk l.pc)
    (hrep : g.reports ⊆ g'.reports) (hreq : ∀ q, g.requested q = true → g'.requested q = true)
    (hfound : ∀ q, g'.requested q = true → g'.reports ≠ []) (hcancel : l.cancelled = true → g'.requested p = true) :
    Sim J g' (Function.update procs p l) := by
  refine ⟨hsearch, howned, fun q => ?_, hfound, fun q => ?_⟩
  · by_cases hq : q = p
    · subst hq
      rwa [Function.update_self]
    · rw [Function.update_of_ne hq]
      exact (hS.pcs q).frame hrep
  · by_cases hq : q = p
    · subst hq
      rwa [Function.update_self]
    · rw [Function.update_of_ne hq]
      exact fun h => hreq q (hS.cancelled q h)

/-- A step that is none of the search. -/
theorem Sim.stay (hS : Sim J g procs) (hout : g'.toOutput = g.toOutput) (hwork : l.work = (procs p).work)
    (howned : Owned Local.holds (Function.update procs p l) g'.mutex) (hpc : PcOK J g' l.chunk l.pc)
    (hreq : ∀ q, g.requested q = true → g'.requested q = true)
    (hfound : ∀ q, g'.requested q = true → g.reports ≠ []) (hcancel : l.cancelled = true → g'.requested p = true) :
    Sim J g' (Function.update procs p l) := by
  have hrep : g'.reports = g.reports := by rw [hout]
  refine hS.update ?_ howned hpc (by rw [hrep]; exact List.Subset.refl _) hreq (by rw [hrep]; exact hfound) hcancel
  rw [hout]
  exact Program.view_stay hS.searching hwork

/-- A step of the search. -/
theorem Sim.step (hS : Sim J g procs) (buf : Buffer)
    (hstep : search n J p g.toOutput (procs p).work buf = some (g'.toOutput, l.work))
    (hmutex : g'.mutex = g.mutex) (hholds : l.holds = (procs p).holds) (hpc : PcOK J g' l.chunk l.pc)
    (hreq : g'.requested = g.requested) (hrep : g.reports ⊆ g'.reports) (hcancel : l.cancelled = false) :
    Sim J g' (Function.update procs p l) := by
  refine hS.update (Program.view_step hS.searching hstep) ?_ hpc hrep ?_ ?_ ?_
  · rw [hmutex]
    exact hS.owned.keep hholds
  · rw [hreq]
    exact fun q => id
  · rw [hreq]
    exact fun q hq hnone => hS.found q hq (List.subset_nil.1 (hnone ▸ hrep))
  · rw [hcancel]
    rintro ⟨⟩

theorem PcOK.reported {k : ℕ} (h : ∃ r ∈ g.reports, r.record = k) : g.reports ≠ [] := by
  obtain ⟨r, hr, -⟩ := h
  exact List.ne_nil_of_mem hr

theorem sim_step (hS : Sim J g procs) {l₀ : Local} (hp : procs p = l₀) (h : Steps J p g l₀ g' l) :
    Sim J g' (Function.update procs p l) := by
  have hpc := hS.pcs p
  have hfound := hS.found
  have hwork : (procs p).work = l₀.work := by rw [hp]
  have hholds : (procs p).holds = l₀.holds := by rw [hp]
  rw [hp] at hpc
  cases h with
  | strike hover hreq => exact hS.stay rfl hwork.symm (hS.owned.keep hholds.symm) hpc (fun q => id) hfound fun _ => hreq
  | lock hfree =>
    have howned := hS.owned
    rw [hfree] at howned
    exact hS.stay rfl hwork.symm (howned.lock rfl) trivial (fun q => id) hfound fun h => nomatch h
  | @read c c' hread =>
    -- the read takes the chunk and moves the offset under the mutex
    refine hS.step c.buf ?_ rfl hholds.symm trivial rfl (List.Subset.refl _) rfl
    rw [hwork]
    simp only [search, Local.work, hread]
  | unlock => exact hS.stay rfl hwork.symm (hS.owned.unlock hholds rfl) trivial (fun q => id) hfound fun h => nomatch h
  | record hlt =>
    refine hS.step [] ?_ rfl hholds.symm trivial rfl (List.Subset.refl _) rfl
    rw [hwork]
    simp only [search, Local.work, hlt, if_true]
  | again hlt h0 =>
    refine hS.step [] ?_ rfl hholds.symm trivial rfl (List.Subset.refl _) rfl
    rw [hwork]
    simp only [search, Local.work, hlt, h0, if_false]
  | stop hlt h0 =>
    refine hS.step [] ?_ rfl hholds.symm trivial rfl (List.Subset.refl _) rfl
    rw [hwork]
    simp only [search, Local.work, hlt, h0, if_false, if_true]
  | hit hj heq =>
    exact hS.stay rfl hwork.symm (hS.owned.keep hholds.symm) ⟨hj, heq⟩ (fun q => id) hfound fun h => nomatch h
  | miss hj heq =>
    refine hS.step [] ?_ rfl hholds.symm trivial rfl (List.Subset.refl _) rfl
    rw [hwork]
    simp only [search, Local.work, Output.test, hj, heq, if_true, Bool.false_eq_true, if_false]
  | finish hj =>
    refine hS.step [] ?_ rfl hholds.symm trivial rfl (List.Subset.refl _) rfl
    rw [hwork]
    simp only [search, Local.work, hj, if_false]
  | print =>
    -- the printf is the step of the search: the position was tested before
    obtain ⟨hj, heq⟩ := hpc
    refine hS.step [] ?_ rfl hholds.symm ⟨_, List.mem_append_right _ List.mem_cons_self, rfl⟩ rfl
      (List.subset_append_left _ _) rfl
    rw [hwork]
    simp only [search, Local.work, Output.test, hj, heq, if_true]
  | cancel hk =>
    refine hS.stay rfl hwork.symm (hS.owned.keep hholds.symm) hpc (fun q hq => ?_)
      (fun _ _ => PcOK.reported hpc) fun h => nomatch h
    dsimp only
    split
    · exact update_requested hq
    · exact hq
  | cancelled hk =>
    exact hS.stay rfl hwork.symm (hS.owned.keep hholds.symm) hpc (fun q => id) hfound fun h => nomatch h
  | cancelSelf =>
    exact hS.stay rfl hwork.symm (hS.owned.keep hholds.symm) trivial (fun q => update_requested)
      (fun _ _ => PcOK.reported hpc) fun h => nomatch h

end Step

theorem reachable_sim {s : Pool (Fin n) (Shared n) Local} (h : (system n J).Reachable s) :
    Sim J s.shared s.procs := by
  refine Program.invariant (fun s hs => ?_)
    (fun g procs p a g' l hS hstep => sim_step hS rfl (steps_iff.2 ⟨a, hstep⟩)) h
  obtain ⟨hg, hp⟩ := hs
  have hidle : ∀ p, (s.procs p).work = .idle := fun p => by rw [Local.work, (hp p).1]
  refine ⟨.init ⟨?_, hidle⟩, ?_, fun p => ?_, fun p hreq => ?_, fun p hcancel => ?_⟩
  · rw [hg]
  · rw [hg]
    exact Owned.of_none fun p => by rw [Local.holds, (hp p).1]
  · rw [(hp p).1]
    trivial
  · rw [hg] at hreq
    cases hreq
  · rw [(hp p).2] at hcancel
    cases hcancel

/-! ## Reports and matches -/

section Reports

variable {g : Shared n} {procs : Fin n → Local}

/-- The reports are of matches in the complete records. -/
theorem reported_found (hI : Inv J g.toOutput (Local.work ∘ procs)) {r : Report n} (hr : r ∈ g.reports) :
    r.record < J.records ∧ r.position ∈ J.scanRecord r.record := by
  have hle : (g.reports.map Report.place : Multiset (ℕ × ℕ)) ≤
      (J.found (g.offset / RECORD_SIZE) : Multiset (ℕ × ℕ)) := by
    rw [← Job.matches_eq_found, ← hI.reports]
    exact Multiset.le_add_right _ _
  have hmem : r.place ∈ J.found (g.offset / RECORD_SIZE) :=
    Multiset.mem_coe.1 (Multiset.mem_of_le hle (Multiset.mem_coe.2 (List.mem_map_of_mem hr)))
  obtain ⟨hlt, hj⟩ := Job.mem_found.1 hmem
  exact ⟨hlt.trans_le (Nat.div_le_div_right hI.aligned.1), hj⟩

/-- Without a report nobody is cancelled, so all have searched to the end of the file. -/
theorem Sim.found_nil (hS : Sim J g procs) (hI : Inv J g.toOutput (Local.work ∘ procs)) (hn : 0 < n)
    (hsize : J.size ≠ 0) (hover : ∀ p, (procs p).over = true) (hnone : g.reports = []) : J.found J.records = [] := by
  have hended : ∀ p, (Local.work ∘ procs) p = .ended := fun p => by
    rcases Bool.or_eq_true_iff.1 (hover p) with hcancel | hpc
    · exact absurd hnone (hS.found p (hS.cancelled p hcancel))
    · show (procs p).work = .ended
      rw [Local.work, beq_iff_eq.1 hpc]
  have hperm := hI.reports_perm fun p => .inr (hended p)
  rw [hI.offset_eq hsize (hended ⟨0, hn⟩), hnone] at hperm
  exact hperm.nil_eq.symm

end Reports

/-! ## Runs of one thread -/

section Alone

variable {g g' : Shared n} {procs : Fin n → Local} {p : Fin n} {l l' : Local}

/-- A thread takes a step while the others stand still. -/
theorem alone_step (h : (system n J).Reachable ⟨g, Function.update procs p l⟩) (hs : Steps J p g l g' l') :
    (system n J).Reachable ⟨g', Function.update procs p l'⟩ := by
  obtain ⟨strike, hstep⟩ := steps_iff.1 hs
  exact Program.reachable_again h hstep

/-- A thread in front of its loop, with an empty buffer. -/
def fresh : Local := ⟨.lock, ⟨[], 1, 0⟩, false⟩

theorem start_reachable (n : ℕ) (J : Job) :
    (system n J).Reachable ⟨⟨⟨0, [], []⟩, none, fun _ => false⟩, fun _ => fresh⟩ :=
  .init ⟨rfl, fun _ => ⟨rfl, rfl⟩⟩

end Alone

/-! ## Reports and the end of the process -/

/-- Every report is of a match, and when all threads have ended, by return, by cancellation or with the process, there
is one exactly when some complete record of the file has a match. -/
structure ReportsMatches (J : Job) (s : Joining.State n (Shared n) Local) : Prop where
  real : ∀ r ∈ s.pool.shared.reports, r.record < J.records ∧ r.position ∈ J.scanRecord r.record ∧
    (NumberEnds (recordAt J.file r.record) → r.recordId = atoi (recordAt J.file r.record))
  found : (process n J).Ended s → (s.pool.shared.reports ≠ [] ↔ ∃ k < J.records, J.scanRecord k ≠ [])

section Process

variable {s : Joining.State n (Shared n) Local}

/-- A thread that requests a cancellation has reported a match. -/
theorem Sim.reported_of_handle {g : Shared n} {procs : Fin n → Local} (hS : Sim J g procs) {p q : Fin n}
    (h : (procs p).handle p = some q) : g.reports ≠ [] := by
  have hpc := hS.pcs p
  unfold Local.handle at h
  cases hp : (procs p).pc with
  | cancel i recordId j k =>
    rw [hp] at hpc
    exact PcOK.reported hpc
  | cancelSelf i recordId j =>
    rw [hp] at hpc
    exact PcOK.reported hpc
  | _ =>
    rw [hp] at h
    cases h

/-- Without a report the process has not come to its end, or there is no match. -/
theorem found_nil_of_ended (hn : 0 < n) (hsize : J.size ≠ 0) (h : (process n J).system.Reachable s)
    (hend : (process n J).Ended s) (hnone : s.pool.shared.reports = []) : J.found J.records = [] := by
  have hS : Sim J s.pool.shared s.pool.procs := reachable_sim (Joining.reachable_threads h)
  rcases hend with hexit | hover
  · -- the fault is in a `pthread_cancel`, and that comes after a report
    obtain ⟨p, ⟨q, hq, -⟩, -⟩ := Joining.stale_of_exited h hexit
    exact absurd hnone (hS.reported_of_handle hq)
  · exact hS.found_nil (reachable_inv hS.searching) hn hsize hover hnone

theorem reportsMatches_of_reachable (h : (process n J).system.Reachable s)
    (hnil : (process n J).Ended s → s.pool.shared.reports = [] → J.found J.records = []) : ReportsMatches J s := by
  have hS : Sim J s.pool.shared s.pool.procs := reachable_sim (Joining.reachable_threads h)
  have hI := reachable_inv hS.searching
  refine ⟨fun r hr => ?_, fun hend => ⟨fun hsome => ?_, ?_⟩⟩
  · obtain ⟨hlt, hj⟩ := reported_found hI hr
    exact ⟨hlt, hj, hI.ids r hr⟩
  · obtain ⟨r, hr⟩ := List.exists_mem_of_ne_nil _ hsome
    obtain ⟨hlt, hj⟩ := reported_found hI hr
    exact ⟨r.record, hlt, List.ne_nil_of_mem hj⟩
  · rintro ⟨k, hk, hne⟩ hnone
    obtain ⟨j, hj⟩ := List.exists_mem_of_ne_nil _ hne
    have hmem : (k, j) ∈ J.found J.records := Job.mem_found.2 ⟨hk, hj⟩
    rw [hnil hend hnone] at hmem
    cases hmem

/-- A thread whose reads ask for nothing. -/
def idleEnd (J : Job) : Local := ⟨.ended, J.read 0 [], false⟩

/-- One thread after the other ends without a record. -/
theorem idle_reachable (hsize : J.size = 0) {m : ℕ} (hm : m ≤ n) :
    (system n J).Reachable ⟨⟨⟨0, [], []⟩, none, fun _ => false⟩,
      fun p => if p.val < m then idleEnd J else fresh⟩ := by
  induction m with
  | zero => simpa only [Nat.not_lt_zero, if_false] using start_reachable n J
  | succ m ih =>
    have hp : (⟨m, hm⟩ : Fin n).val = m := rfl
    have hstart := ih (by omega)
    rw [← Function.update_eq_self (⟨m, hm⟩ : Fin n) fun p : Fin n => if p.val < m then idleEnd J else fresh] at hstart
    dsimp only at hstart
    rw [if_neg (lt_irrefl m)] at hstart
    have hzero : (J.read 0 []).readCount = 0 := readCount_none hsize
    -- what has been read is of no further interest
    rw [idleEnd] at hstart ⊢
    generalize hchunk : J.read 0 [] = c at *
    have htaken : c.taken = 0 := by rw [Chunk.taken, hzero, Int.toNat_zero]
    have hread := alone_step (alone_step hstart (.lock rfl)) (.read hchunk)
    dsimp only at hread
    rw [htaken] at hread
    have hend := alone_step (alone_step hread .unlock) (.stop (by simp [Chunk.actualReadCount, hzero]) hzero)
    have hprocs : Function.update (fun p : Fin n => if p.val < m then ⟨.ended, c, false⟩ else fresh) ⟨m, hm⟩
        ⟨.ended, c, false⟩ = fun p => if p.val < m + 1 then ⟨.ended, c, false⟩ else fresh := by
      funext p
      by_cases hpm : p = ⟨m, hm⟩
      · rw [hpm, Function.update_self, if_pos (Nat.lt_succ_self m)]
      · rw [Function.update_of_ne hpm]
        have hne : p.val ≠ m := fun h => hpm (Fin.ext h)
        exact if_congr (by omega) rfl rfl
    rw [← hprocs]
    exact hend

/-- When the size of a read overflows to 0, all threads end without a report. -/
theorem idle_ended (hsize : J.size = 0) : ∃ s, (process n J).system.Reachable s ∧ (process n J).Ended s ∧
    s.pool.shared.reports = [] := by
  refine ⟨_, (Joining.reachableIf_of_threads (M := process n J) (idle_reachable hsize le_rfl)).reachable,
    .inr fun p => ?_, rfl⟩
  dsimp only
  rw [if_pos p.isLt]
  rfl

end Process

/-- The reports are right in every run of any number of threads exactly when the size of a read does not overflow to
0, or there is nothing to report. -/
theorem reported_iff_match (hn : 0 < n) : (∀ s, (process n J).system.Reachable s → ReportsMatches J s) ↔
    ¬ 2 ^ 22 ∣ J.recordsCount ∨ ∀ k < J.records, J.scanRecord k = [] := by
  rw [← J.size_eq_zero_iff]
  constructor
  · intro h
    by_contra hcond
    obtain ⟨hsize, hmatch⟩ := not_or.1 hcond
    push Not at hmatch
    obtain ⟨s, hs, hend, hnone⟩ := idle_ended (n := n) (not_not.1 hsize)
    exact ((h s hs).found hend).2 hmatch hnone
  · rintro (hsize | hnone) s hs
    · exact reportsMatches_of_reachable hs fun hend => found_nil_of_ended hn hsize hs hend
    · refine reportsMatches_of_reachable hs fun _ _ => List.eq_nil_iff_forall_not_mem.2 fun x hx => ?_
      obtain ⟨hlt, hj⟩ := Job.mem_found.1 hx
      rw [hnone x.1 hlt] at hj
      cases hj

/-- One thread that finds the word, requests its own cancellation and is cancelled in front of the next position. -/
theorem oneRecord_cancelled : ∃ s, (system 1 oneRecord).Reachable s ∧ (∀ p, (s.procs p).over = true) ∧
    s.shared.reports = [⟨0, 0, 0, 5⟩] := by
  have hstart := start_reachable 1 oneRecord
  rw [← Function.update_eq_self (0 : Fin 1) fun _ => fresh] at hstart
  have hlock := alone_step hstart (.lock rfl)
  have hread := alone_step hlock (.read oneRecord_read)
  have hunlock := alone_step hread .unlock
  have hrecord := alone_step hunlock (.record (by decide))
  have hhit := alone_step hrecord (.hit (by decide) (oneRecord_wordEq le_rfl (by decide)))
  have hprint := alone_step hhit .print
  have hself := alone_step hprint (.cancel (by decide))
  have hloop := alone_step hself (.cancelled (by decide))
  have hrequest := alone_step hloop .cancelSelf
  have hstrike := alone_step hrequest (.strike rfl rfl)
  refine ⟨_, hstrike, fun p => ?_, ?_⟩
  · obtain rfl : p = 0 := Subsingleton.elim _ _
    rfl
  · show [(⟨0, atoi oneRecord.file, 0, 5⟩ : Report 1)] = _
    rw [oneRecord_atoi]

theorem reported_iff_match_oneRecord : ∃ s, (process 1 oneRecord).system.Reachable s ∧
    (process 1 oneRecord).Ended s ∧ s.pool.shared.reports = [⟨0, 0, 0, 5⟩] ∧ ReportsMatches oneRecord s := by
  obtain ⟨s, hs, hover, hreports⟩ := oneRecord_cancelled
  have hprocess := (Joining.reachableIf_of_threads (M := process 1 oneRecord) hs).reachable
  exact ⟨_, hprocess, .inr hover, hreports, (reported_iff_match (by decide)).2 (.inl (by decide)) _ hprocess⟩

/-- That record, by reads of so many records that their size is 0 as an int. -/
def overflowing : Job := { oneRecord with recordsCount := 2 ^ 22 }

theorem overflowing_unreported : ¬ ∀ (n : ℕ) (J : Job), 0 < n → 0 < J.recordsCount →
    ∀ s, (process n J).system.Reachable s → ReportsMatches J s := by
  intro h
  have hsize : overflowing.size = 0 := overflowing.size_eq_zero_iff.2 dvd_rfl
  have hrecords : 0 < overflowing.records := by
    have hlength : overflowing.file.length = RECORD_SIZE := oneRecord_length
    rw [Job.records, hlength]
    decide
  have hmatch : 5 ∈ oneRecord.scanRecord 0 := List.mem_filter.2 ⟨List.mem_range'_1.2 (by decide), by decide +kernel⟩
  obtain ⟨s, hs, hend, hnone⟩ := idle_ended (n := 1) hsize
  have hright := h 1 overflowing Nat.one_pos (Nat.two_pow_pos 22) s hs
  exact (hright.found hend).2 ⟨0, hrecords, List.ne_nil_of_mem hmatch⟩ hnone

end Sysopy.WordSearch.Wersja1
