/-
Families of processes. A process forks children and waits for them: it gets the exit status of one that has ended,
whichever that is. All processes run one program on local states of their own and share nothing. A contract says what
status the job of a process ends with and what its local state knows of the children it has not waited for; if each
process keeps to it alone, then the family does, always ends, and in no order of steps gets stuck.
-/
import Sysopy.Conc.System

namespace Sysopy.Conc.Family

/-- What a process does next; `wait` goes on with the status of a child. -/
inductive Action (L : Type*) where
  | go (l : L)
  | fork (l child : L)
  | wait (l : ℕ → L)
  | exit (status : ℕ)

/-- A process with the children it has not waited for, or one that has ended. -/
inductive Proc (L : Type*) where
  | run (l : L) (children : List (Proc L))
  | ended (status : ℕ)

section Steps

variable {L : Type*} (P : L → Option (Action L))

/-- A step of the process itself; `wait` takes the child at place `j`, which must have ended. -/
def own (l : L) (children : List (Proc L)) (j : ℕ) : Option (Proc L) :=
  match P l with
  | none => none
  | some (.go l') => some (.run l' children)
  | some (.fork l' child) => some (.run l' (children ++ [.run child []]))
  | some (.wait l') =>
    match children[j]? with
    | some (.ended status) => some (.run (l' status) (children.eraseIdx j))
    | _ => none
  | some (.exit status) => some (.ended status)

/-- A step of the process at an address, the places of the children that lead to it. -/
def next : List ℕ → ℕ → Proc L → Option (Proc L)
  | _, _, .ended _ => none
  | [], j, .run l children => own P l children j
  | i :: address, j, .run l children =>
    children[i]?.bind fun child => (next address j child).map fun child' => .run l (children.set i child')

/-- The runs of a family from its first process on. -/
def system (start : L) : System (Proc L) (List ℕ × ℕ) := ⟨fun p => p = .run start [], fun p a => next P a.1 a.2 p⟩

end Steps

/-- A process ends by a step of its own. -/
theorem exit_of_ended {L : Type*} {P : L → Option (Action L)} {address : List ℕ} {j status : ℕ} {l : L}
    {children : List (Proc L)} (hs : next P address j (.run l children) = some (.ended status)) :
    ∃ status, P l = some (.exit status) := by
  cases address with
  | nil =>
    rw [next] at hs
    unfold own at hs
    split at hs
    · cases hs
    · cases hs
    · cases hs
    · split at hs <;> cases hs
    · rename_i status hP
      exact ⟨status, hP⟩
  | cons i address =>
    rw [next, Option.bind_eq_some_iff] at hs
    obtain ⟨c, -, hs⟩ := hs
    obtain ⟨c', -, hc⟩ := Option.map_eq_some_iff.1 hs
    cases hc

/-- The next action of a process with job `n`, with `k` steps left and the jobs `js` of the children it has not waited
for, leaves the invariant true for what remains; a process that waits has a child, and none ends before its children. -/
inductive Keeps {L ι : Type*} (code : ι → ℕ) (Inv : L → ι → List ι → ℕ → Prop) (n : ι) :
    List ι → ℕ → Option (Action L) → Prop
  | go {l : L} {js : List ι} {k k' : ℕ} (steps : k = k' + 1) (inv : Inv l n js k') :
      Keeps code Inv n js k (some (.go l))
  | fork {l child : L} {m : ι} {js : List ι} {k k' kc : ℕ} (steps : k = k' + kc + 1) (inv : Inv l n (js ++ [m]) k')
      (inv_child : Inv child m [] kc) : Keeps code Inv n js k (some (.fork l child))
  | wait {l : ℕ → L} {js : List ι} {k k' : ℕ} (steps : k = k' + 1) (some_child : js ≠ [])
      (inv : ∀ js₁ m js₂, js = js₁ ++ m :: js₂ → Inv (l (code m)) n (js₁ ++ js₂) k') :
      Keeps code Inv n js k (some (.wait l))
  | exit : Keeps code Inv n [] 1 (some (.exit (code n)))

section Keeps

variable {L ι : Type*} {code : ι → ℕ} {Inv : L → ι → List ι → ℕ → Prop} {n : ι} {js : List ι} {k : ℕ}

theorem Keeps.of_go {l : L} (h : Keeps code Inv n js k (some (.go l))) : ∃ k', k = k' + 1 ∧ Inv l n js k' := by
  cases h with
  | go steps inv => exact ⟨_, steps, inv⟩

theorem Keeps.of_fork {l child : L} (h : Keeps code Inv n js k (some (.fork l child))) :
    ∃ m k' kc, k = k' + kc + 1 ∧ Inv l n (js ++ [m]) k' ∧ Inv child m [] kc := by
  cases h with
  | fork steps inv inv_child => exact ⟨_, _, _, steps, inv, inv_child⟩

theorem Keeps.of_wait {l : ℕ → L} (h : Keeps code Inv n js k (some (.wait l))) :
    js ≠ [] ∧ ∃ k', k = k' + 1 ∧ ∀ js₁ m js₂, js = js₁ ++ m :: js₂ → Inv (l (code m)) n (js₁ ++ js₂) k' := by
  cases h with
  | wait steps some_child inv => exact ⟨some_child, _, steps, inv⟩

theorem Keeps.of_exit {status : ℕ} (h : Keeps code Inv n js k (some (.exit status))) :
    status = code n ∧ js = [] ∧ k = 1 := by
  cases h with
  | exit => exact ⟨rfl, rfl, rfl⟩

end Keeps

/-- The status that a process with a given job ends with, and an invariant of its local state, with the jobs of the
children it has not waited for and the number of steps it has left, those of the children it will fork included. -/
structure Contract {L : Type*} (P : L → Option (Action L)) (ι : Type*) where
  code : ι → ℕ
  Inv : L → ι → List ι → ℕ → Prop
  step : ∀ {l n js k}, Inv l n js k → Keeps code Inv n js k (P l)

section Contract

variable {L ι : Type*} {P : L → Option (Action L)} (C : Contract P ι)

/-- Every process of the family keeps to the contract; `k` steps are left. -/
inductive Meets : Proc L → ι → ℕ → Prop
  | run {l : L} {n : ι} {k : ℕ} {xs : List (Proc L × ι × ℕ)} (inv : C.Inv l n (xs.map fun x => x.2.1) k)
      (below : ∀ x ∈ xs, Meets x.1 x.2.1 x.2.2) :
      Meets (.run l (xs.map fun x => x.1)) n (k + (xs.map fun x => x.2.2).sum)
  | ended (n : ι) : Meets (.ended (C.code n)) n 0

variable {C} {l : L} {n : ι} {k : ℕ} {p p' : Proc L}

theorem meets_start {start : L} (h : C.Inv start n [] k) : Meets C (.run start []) n k :=
  have hxs : ∀ x ∈ ([] : List (Proc L × ι × ℕ)), Meets C x.1 x.2.1 x.2.2 := by simp
  .run h hxs

/-- The place of a child cuts the list of the children. -/
theorem split_of_getElem? {α : Type*} {xs : List α} {j : ℕ} {x : α} (h : xs[j]? = some x) :
    ∃ xs₁ xs₂, xs = xs₁ ++ x :: xs₂ ∧ xs₁.length = j := by
  obtain ⟨hj, rfl⟩ := List.getElem?_eq_some_iff.1 h
  exact ⟨xs.take j, xs.drop (j + 1), by simp, by simp; omega⟩

/-- The children without it. -/
theorem map_eraseIdx_middle {α β : Type*} (f : α → β) (xs₁ xs₂ : List α) (x : α) :
    ((xs₁ ++ x :: xs₂).map f).eraseIdx xs₁.length = (xs₁ ++ xs₂).map f := by
  rw [List.map_append, List.map_cons, List.eraseIdx_append_of_length_le (by simp)]
  simp

theorem forall_mem_middle {α : Type*} {p : α → Prop} {xs₁ xs₂ : List α} {x : α} (h : ∀ y ∈ xs₁ ++ x :: xs₂, p y) :
    ∀ y ∈ xs₁ ++ xs₂, p y := by
  rw [List.forall_mem_append, List.forall_mem_cons] at h
  rw [List.forall_mem_append]
  exact ⟨h.1, h.2.2⟩

/-- A process that waits is given the status that the job of the child ends with. -/
theorem meets_wait {l' : ℕ → L} {xs : List (Proc L × ι × ℕ)} (hP : P l = some (.wait l'))
    (hinv : C.Inv l n (xs.map fun x => x.2.1) k) (hbelow : ∀ x ∈ xs, Meets C x.1 x.2.1 x.2.2) {j status : ℕ}
    (hj : (xs.map fun x => x.1)[j]? = some (.ended status)) :
    ∃ k', k + (xs.map fun x => x.2.2).sum = k' + 1 ∧
      Meets C (.run (l' status) ((xs.map fun x => x.1).eraseIdx j)) n k' := by
  rw [List.getElem?_map, Option.map_eq_some_iff] at hj
  obtain ⟨⟨c, m, kc⟩, hx, hc⟩ := hj
  obtain ⟨xs₁, xs₂, rfl, rfl⟩ := split_of_getElem? hx
  have hm := hbelow _ (List.mem_append_right _ List.mem_cons_self)
  simp only at hc hm
  subst hc
  cases hm
  have hkeeps := C.step hinv
  rw [hP] at hkeeps
  obtain ⟨-, k', rfl, hinv'⟩ := hkeeps.of_wait
  have hinv' := hinv' _ m _ (List.map_append ..)
  rw [← List.map_append] at hinv'
  refine ⟨k' + ((xs₁ ++ xs₂).map fun x => x.2.2).sum, ?_, ?_⟩
  · simp only [List.map_append, List.map_cons, List.sum_append, List.sum_cons]
    omega
  · rw [map_eraseIdx_middle]
    exact .run hinv' (forall_mem_middle hbelow)

theorem meets_own {xs : List (Proc L × ι × ℕ)} (hinv : C.Inv l n (xs.map fun x => x.2.1) k)
    (hbelow : ∀ x ∈ xs, Meets C x.1 x.2.1 x.2.2) {j : ℕ} (hs : own P l (xs.map fun x => x.1) j = some p') :
    ∃ k', k + (xs.map fun x => x.2.2).sum = k' + 1 ∧ Meets C p' n k' := by
  have hkeeps := C.step hinv
  unfold own at hs
  split at hs
  · cases hs
  · rename_i l' hP
    cases hs
    rw [hP] at hkeeps
    obtain ⟨k', rfl, hinv'⟩ := hkeeps.of_go
    exact ⟨_, by omega, .run hinv' hbelow⟩
  · rename_i l' child hP
    cases hs
    rw [hP] at hkeeps
    obtain ⟨m, k', kc, rfl, hinv', hchild⟩ := hkeeps.of_fork
    have hrun : (xs.map fun x => x.1) ++ [Proc.run child []] =
        (xs ++ [(Proc.run child [], m, kc)]).map fun x => x.1 := by simp
    rw [hrun]
    refine ⟨k' + ((xs ++ [(Proc.run child [], m, kc)]).map fun x => x.2.2).sum, ?_, .run (by simpa using hinv') ?_⟩
    · simp only [List.map_append, List.sum_append, List.map_cons, List.map_nil, List.sum_cons, List.sum_nil]
      omega
    · rw [List.forall_mem_append, List.forall_mem_singleton]
      exact ⟨hbelow, meets_start hchild⟩
  · rename_i l' hP
    split at hs
    · rename_i status hj
      cases hs
      exact meets_wait hP hinv hbelow hj
    · cases hs
  · rename_i status hP
    cases hs
    rw [hP] at hkeeps
    obtain ⟨rfl, hjs, rfl⟩ := hkeeps.of_exit
    obtain rfl := List.map_eq_nil_iff.1 hjs
    exact ⟨0, by simp, .ended n⟩

/-- Every step of every process keeps to the contract, and takes one from what is left. -/
theorem meets_next {address : List ℕ} {j : ℕ} (h : Meets C p n k) (hs : next P address j p = some p') :
    ∃ k', k = k' + 1 ∧ Meets C p' n k' := by
  induction address generalizing p p' n k with
  | nil =>
    cases h with
    | ended => cases hs
    | run hinv hbelow => exact meets_own hinv hbelow hs
  | cons i address ih =>
    cases h with
    | ended => cases hs
    | @run l _ k xs hinv hbelow =>
      rw [next, Option.bind_eq_some_iff] at hs
      obtain ⟨c, hc, hs⟩ := hs
      obtain ⟨c', hc', rfl⟩ := Option.map_eq_some_iff.1 hs
      rw [List.getElem?_map, Option.map_eq_some_iff] at hc
      obtain ⟨⟨c, m, kc⟩, hx, rfl⟩ := hc
      obtain ⟨xs₁, xs₂, rfl, rfl⟩ := split_of_getElem? hx
      -- only this child has changed
      obtain ⟨kc', rfl, hchild⟩ := ih (hbelow _ (List.mem_append_right _ List.mem_cons_self)) hc'
      have hset : ((xs₁ ++ (c, m, kc' + 1) :: xs₂).map fun x => x.1).set xs₁.length c' =
          (xs₁ ++ (c', m, kc') :: xs₂).map fun x => x.1 := by
        simp [List.set_append_right]
      rw [hset]
      refine ⟨k + ((xs₁ ++ (c', m, kc') :: xs₂).map fun x => x.2.2).sum, ?_, .run (by simpa using hinv) ?_⟩
      · simp only [List.map_append, List.sum_append, List.map_cons, List.sum_cons]
        omega
      · rw [List.forall_mem_append, List.forall_mem_cons] at hbelow ⊢
        exact ⟨hbelow.1, hchild, hbelow.2.2⟩

/-- A process that waits has a child; when that has not ended, it has a step. -/
theorem meets_progress (h : Meets C p n k) :
    (∃ status, p = .ended status) ∨ ∃ address j p', next P address j p = some p' := by
  induction h with
  | ended n => exact .inl ⟨_, rfl⟩
  | @run l n k xs hinv _ ih =>
    right
    have hkeeps := C.step hinv
    generalize hjs : (xs.map fun x => x.2.1) = js at hkeeps
    generalize hP : P l = action at hkeeps
    cases hkeeps with
    | go => exact ⟨[], 0, _, by rw [next, own, hP]⟩
    | fork => exact ⟨[], 0, _, by rw [next, own, hP]⟩
    | exit => exact ⟨[], 0, _, by rw [next, own, hP]⟩
    | @wait l' _ _ _ _ hne =>
      rw [← hjs, Ne, List.map_eq_nil_iff] at hne
      obtain ⟨⟨c, m, kc⟩, xs, rfl⟩ := List.exists_cons_of_ne_nil hne
      rcases ih _ List.mem_cons_self with ⟨status, hc⟩ | ⟨address, j, c', hc⟩
      · refine ⟨[], 0, .run (l' status) (xs.map fun x => x.1), ?_⟩
        simp only at hc
        simp only [next, own, hP, List.map_cons, List.getElem?_cons_zero, hc, List.eraseIdx_cons_zero]
      · refine ⟨0 :: address, j, .run l (c' :: xs.map fun x => x.1), ?_⟩
        rw [next, List.map_cons, List.getElem?_cons_zero, Option.bind_some, hc, Option.map_some, List.set_cons_zero]

/-- A run of the family. -/
theorem meets_run {start : L} (as : List (List ℕ × ℕ)) (h : Meets C p n k)
    (hr : (system P start).run p as = some p') : ∃ k', k = k' + as.length ∧ Meets C p' n k' := by
  induction as generalizing p k with
  | nil =>
    cases hr
    exact ⟨k, rfl, h⟩
  | cons a as ih =>
    obtain ⟨p₁, hs, hr⟩ := Option.bind_eq_some_iff.1 hr
    obtain ⟨k₁, rfl, h₁⟩ := meets_next h hs
    obtain ⟨k', rfl, h'⟩ := ih h₁ hr
    exact ⟨k', by rw [List.length_cons]; omega, h'⟩

variable {start : L}

theorem meets_reachable (h0 : C.Inv start n [] k) (h : (system P start).Reachable p) : ∃ k', Meets C p n k' := by
  refine h.invariant (I := fun p => ∃ k', Meets C p n k') ?_ ?_
  · rintro p rfl
    exact ⟨k, meets_start h0⟩
  · rintro p a p' - ⟨k', hm⟩ hs
    obtain ⟨k'', -, hm'⟩ := meets_next hm hs
    exact ⟨k'', hm'⟩

/-- The first process keeps to the contract, and so do its children. -/
theorem inv_of_reachable (h0 : C.Inv start n [] k) {children : List (Proc L)}
    (h : (system P start).Reachable (.run l children)) : ∃ js k', C.Inv l n js k' := by
  obtain ⟨k', hm⟩ := meets_reachable h0 h
  cases hm with
  | run hinv => exact ⟨_, _, hinv⟩

/-- No run is longer than the contract says, and one that cannot go on has ended. -/
theorem ends_of_run (h0 : C.Inv start n [] k) (as : List (List ℕ × ℕ))
    (hr : (system P start).run (.run start []) as = some p) :
    as.length ≤ k ∧ ((∃ status, p = .ended status) ∨ ∃ a p', (system P start).next p a = some p') := by
  obtain ⟨k', rfl, hm⟩ := meets_run as (meets_start h0) hr
  refine ⟨by omega, (meets_progress hm).imp_right ?_⟩
  rintro ⟨address, j, p', hs⟩
  exact ⟨(address, j), p', hs⟩

/-- From every state reached the family comes to where the first process is about to end. -/
theorem exit_reachable {children : List (Proc L)} (hm : Meets C (.run l children) n k)
    (h : (system P start).Reachable (.run l children)) :
    ∃ l' children' status, (system P start).Reachable (.run l' children') ∧ P l' = some (.exit status) := by
  induction k generalizing l children with
  | zero =>
    -- a process that runs has a step left
    rcases meets_progress hm with ⟨status, hp⟩ | ⟨address, j, p', hs⟩
    · cases hp
    · obtain ⟨k', hk, -⟩ := meets_next hm hs
      omega
  | succ k ih =>
    rcases meets_progress hm with ⟨status, hp⟩ | ⟨address, j, p', hs⟩
    · cases hp
    · obtain ⟨k', hk, hm'⟩ := meets_next hm hs
      obtain rfl : k = k' := by omega
      have h' : (system P start).Reachable p' := h.next (a := (address, j)) hs
      cases p' with
      | run l' children' => exact ih hm' h'
      | ended status =>
        obtain ⟨status, hP⟩ := exit_of_ended hs
        exact ⟨l, children, status, h, hP⟩

end Contract

end Sysopy.Conc.Family
