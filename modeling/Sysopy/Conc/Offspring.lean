/-
Families of processes that make choices, and that may wait when they have no child. A process forks children and waits
for them; a child ends with a value, which the process that waits for it is given. Two rules: an invariant that every
step of a process keeps, with what its children may end with, is one of the whole family; and what a process computes
when each child it forks runs to its end first, it computes in some run of the family.
-/
import Sysopy.Conc.Family

namespace Sysopy.Conc.Offspring

/-- What a process does next; `wait` goes on with the value of a child, or without one. -/
inductive Action (L V : Type*) where
  | go (l : L)
  | fork (l child : L)
  | wait (alone : L) (child : V → L)
  | exit (v : V)

/-- A process with the children it has not waited for, or one that has ended. -/
inductive Proc (L V : Type*) where
  | run (l : L) (children : List (Proc L V))
  | ended (v : V)

section Steps

variable {L V α : Type*} (P : L → α → Option (Action L V))

/-- A step of the process itself; `wait` takes the child at place `j`, which must have ended. -/
def own (l : L) (children : List (Proc L V)) (j : ℕ) (a : α) : Option (Proc L V) :=
  match P l a with
  | none => none
  | some (.go l') => some (.run l' children)
  | some (.fork l' child) => some (.run l' (children ++ [.run child []]))
  | some (.wait alone child) =>
    match children with
    | [] => some (.run alone [])
    | c :: cs =>
      match (c :: cs)[j]? with
      | some (.ended v) => some (.run (child v) ((c :: cs).eraseIdx j))
      | _ => none
  | some (.exit v) => some (.ended v)

/-- A step of the process at an address, the places of the children that lead to it. -/
def next : List ℕ → ℕ → α → Proc L V → Option (Proc L V)
  | _, _, _, .ended _ => none
  | [], j, a, .run l children => own P l children j a
  | i :: address, j, a, .run l children =>
    children[i]?.bind fun child => (next address j a child).map fun child' => .run l (children.set i child')

/-- The runs of a family from its first process on. -/
def system (start : L) : System (Proc L V) (List ℕ × ℕ × α) :=
  ⟨fun p => p = .run start [], fun p a => next P a.1 a.2.1 a.2.2 p⟩

end Steps

/-! ## Invariants -/

/-- What a process with a given job may end with, and an invariant of its local state with the jobs of the children it
has not waited for. -/
structure Contract {L V α : Type*} (P : L → α → Option (Action L V)) (ι : Type*) where
  code : ι → V → Prop
  Inv : L → ι → List ι → Prop
  go : ∀ {l a l' n js}, Inv l n js → P l a = some (.go l') → Inv l' n js
  fork : ∀ {l a l' child n js}, Inv l n js → P l a = some (.fork l' child) →
    ∃ m, Inv l' n (js ++ [m]) ∧ Inv child m []
  alone : ∀ {l a l₀ l₁ n}, Inv l n [] → P l a = some (.wait l₀ l₁) → Inv l₀ n []
  wait : ∀ {l a l₀ l₁ n js₁ m js₂ v}, Inv l n (js₁ ++ m :: js₂) → P l a = some (.wait l₀ l₁) → code m v →
    Inv (l₁ v) n (js₁ ++ js₂)
  exit : ∀ {l a v n js}, Inv l n js → P l a = some (.exit v) → code n v

section Contract

variable {L V α ι : Type*} {P : L → α → Option (Action L V)} (C : Contract P ι)

/-- Every process of the family keeps to the contract. -/
inductive Meets : Proc L V → ι → Prop
  | run {l : L} {n : ι} {xs : List (Proc L V × ι)} (inv : C.Inv l n (xs.map fun x => x.2))
      (below : ∀ x ∈ xs, Meets x.1 x.2) : Meets (.run l (xs.map fun x => x.1)) n
  | ended {n : ι} {v : V} (code : C.code n v) : Meets (.ended v) n

variable {C} {l start : L} {n : ι} {a : α} {p p' : Proc L V}

theorem meets_start (h : C.Inv start n []) : Meets C (.run start []) n :=
  have hxs : ∀ x ∈ ([] : List (Proc L V × ι)), Meets C x.1 x.2 := by simp
  .run h hxs

/-- A process that waits is given what the job of the child allows. -/
theorem meets_wait {l₀ : L} {l₁ : V → L} {xs : List (Proc L V × ι)} (hP : P l a = some (.wait l₀ l₁))
    (hinv : C.Inv l n (xs.map fun x => x.2)) (hbelow : ∀ x ∈ xs, Meets C x.1 x.2) {j : ℕ} {v : V}
    (hj : (xs.map fun x => x.1)[j]? = some (.ended v)) :
    Meets C (.run (l₁ v) ((xs.map fun x => x.1).eraseIdx j)) n := by
  rw [List.getElem?_map, Option.map_eq_some_iff] at hj
  obtain ⟨⟨c, m⟩, hx, hc⟩ := hj
  obtain ⟨xs₁, xs₂, rfl, rfl⟩ := Family.split_of_getElem? hx
  have hm := hbelow _ (List.mem_append_right _ List.mem_cons_self)
  simp only at hc hm
  subst hc
  cases hm with
  | ended hcode =>
    rw [List.map_append, List.map_cons] at hinv
    have hinv' := C.wait hinv hP hcode
    rw [← List.map_append] at hinv'
    rw [Family.map_eraseIdx_middle]
    exact .run hinv' (Family.forall_mem_middle hbelow)

theorem meets_own {xs : List (Proc L V × ι)} (hinv : C.Inv l n (xs.map fun x => x.2))
    (hbelow : ∀ x ∈ xs, Meets C x.1 x.2) {j : ℕ} (hs : own P l (xs.map fun x => x.1) j a = some p') :
    Meets C p' n := by
  unfold own at hs
  split at hs
  · cases hs
  · rename_i l' hP
    cases hs
    exact .run (C.go hinv hP) hbelow
  · rename_i l' child hP
    cases hs
    obtain ⟨m, hinv', hchild⟩ := C.fork hinv hP
    let x : Proc L V × ι := (.run child [], m)
    have hrun : (xs.map fun x => x.1) ++ [Proc.run child []] = (xs ++ [x]).map fun x => x.1 := by simp [x]
    rw [hrun]
    refine .run (by simpa [x] using hinv') ?_
    rw [List.forall_mem_append, List.forall_mem_singleton]
    exact ⟨hbelow, meets_start hchild⟩
  · rename_i l₀ l₁ hP
    split at hs
    · rename_i hnil
      cases hs
      obtain rfl := List.map_eq_nil_iff.1 hnil
      exact meets_start (C.alone hinv hP)
    · rename_i c cs hcons
      split at hs
      · rename_i v hj
        cases hs
        rw [← hcons] at hj ⊢
        exact meets_wait hP hinv hbelow hj
      · cases hs
  · rename_i v hP
    cases hs
    exact .ended (C.exit hinv hP)

/-- Every step of every process keeps to the contract. -/
theorem meets_next {address : List ℕ} {j : ℕ} (h : Meets C p n) (hs : next P address j a p = some p') :
    Meets C p' n := by
  induction address generalizing p p' n with
  | nil =>
    cases h with
    | ended => cases hs
    | run hinv hbelow => exact meets_own hinv hbelow hs
  | cons i address ih =>
    cases h with
    | ended => cases hs
    | @run l _ xs hinv hbelow =>
      rw [next, Option.bind_eq_some_iff] at hs
      obtain ⟨c, hc, hs⟩ := hs
      obtain ⟨c', hc', rfl⟩ := Option.map_eq_some_iff.1 hs
      rw [List.getElem?_map, Option.map_eq_some_iff] at hc
      obtain ⟨⟨c, m⟩, hx, rfl⟩ := hc
      obtain ⟨xs₁, xs₂, rfl, rfl⟩ := Family.split_of_getElem? hx
      -- only this child has changed
      have hchild := ih (hbelow _ (List.mem_append_right _ List.mem_cons_self)) hc'
      have hset : ((xs₁ ++ (c, m) :: xs₂).map fun x => x.1).set xs₁.length c' =
          (xs₁ ++ (c', m) :: xs₂).map fun x => x.1 := by
        simp [List.set_append_right]
      rw [hset]
      refine .run (by simpa using hinv) ?_
      rw [List.forall_mem_append, List.forall_mem_cons] at hbelow ⊢
      exact ⟨hbelow.1, hchild, hbelow.2.2⟩

theorem meets_reachable (h0 : C.Inv start n []) (h : (system P start).Reachable p) : Meets C p n := by
  refine h.invariant (I := fun p => Meets C p n) ?_ ?_
  · rintro p rfl
    exact meets_start h0
  · exact fun p a p' _ hm hs => meets_next hm hs

/-- The first process keeps to the contract while it runs. -/
theorem inv_of_reachable (h0 : C.Inv start n []) {children : List (Proc L V)}
    (h : (system P start).Reachable (.run l children)) : ∃ js, C.Inv l n js := by
  cases meets_reachable h0 h with
  | run hinv => exact ⟨_, hinv⟩

/-- And what it ends with does. -/
theorem code_of_reachable (h0 : C.Inv start n []) {v : V} (h : (system P start).Reachable (.ended v)) : C.code n v := by
  cases meets_reachable h0 h with
  | ended hcode => exact hcode

end Contract

/-! ## Each child at once -/

section Alone

variable {L V α : Type*} {P : L → α → Option (Action L V)} {start : L}

/-- What a process ends with when each child runs to its end as soon as it is forked; `vs` is what the children that it
has not waited for have ended with. -/
inductive Computes (P : L → α → Option (Action L V)) : L → List V → V → Prop
  | go {l l' : L} {a : α} {vs : List V} {v : V} (step : P l a = some (.go l')) (rest : Computes P l' vs v) :
      Computes P l vs v
  | fork {l l' child : L} {a : α} {vs : List V} {w v : V} (step : P l a = some (.fork l' child))
      (run : Computes P child [] w) (rest : Computes P l' (vs ++ [w]) v) : Computes P l vs v
  | alone {l l₀ : L} {l₁ : V → L} {a : α} {v : V} (step : P l a = some (.wait l₀ l₁)) (rest : Computes P l₀ [] v) :
      Computes P l [] v
  | wait {l l₀ : L} {l₁ : V → L} {a : α} {w : V} {vs : List V} {v : V} (step : P l a = some (.wait l₀ l₁))
      (rest : Computes P (l₁ w) vs v) : Computes P l (w :: vs) v
  | exit {l : L} {a : α} {vs : List V} {v : V} (step : P l a = some (.exit v)) : Computes P l vs v

theorem run_cons {p p₁ p' : Proc L V} {a : List ℕ × ℕ × α} {as : List (List ℕ × ℕ × α)}
    (hs : (system P start).next p a = some p₁) (hr : (system P start).run p₁ as = some p') :
    (system P start).run p (a :: as) = some p' := by
  rw [System.run, hs, Option.bind_some, hr]

/-- The last child runs while the others stand still. -/
theorem run_last (l : L) (cs : List (Proc L V)) (as : List (List ℕ × ℕ × α)) {c c' : Proc L V}
    (h : (system P start).run c as = some c') :
    ∃ bs, (system P start).run (.run l (cs ++ [c])) bs = some (.run l (cs ++ [c'])) := by
  induction as generalizing c with
  | nil =>
    cases h
    exact ⟨[], rfl⟩
  | cons a as ih =>
    obtain ⟨c₁, hs, hr⟩ := Option.bind_eq_some_iff.1 h
    obtain ⟨bs, hr'⟩ := ih hr
    have hnext : (system P start).next (.run l (cs ++ [c])) (cs.length :: a.1, a.2) = some (.run l (cs ++ [c₁])) := by
      simp only [system] at hs ⊢
      rw [next, List.getElem?_append_right le_rfl, Nat.sub_self, List.getElem?_cons_zero, Option.bind_some, hs,
        Option.map_some, List.set_append_right _ _ le_rfl, Nat.sub_self, List.set_cons_zero]
    exact ⟨_, run_cons hnext hr'⟩

variable (start) in
/-- Such a computation is a run of the family. -/
theorem Computes.run {l : L} {vs : List V} {v : V} (h : Computes P l vs v) :
    ∃ as, (system P start).run (.run l (vs.map .ended)) as = some (.ended v) := by
  induction h with
  | @go l l' a vs v step rest ih =>
    obtain ⟨as, hr⟩ := ih
    exact ⟨_, run_cons (a := ([], 0, a)) (by simp only [system, next, own, step]) hr⟩
  | @fork l l' child a vs w v step run rest ih₁ ih₂ =>
    obtain ⟨as₁, hr₁⟩ := ih₁
    obtain ⟨as₂, hr₂⟩ := ih₂
    -- the child is the last one, and is run to its end
    rw [List.map_nil] at hr₁
    rw [List.map_append, List.map_singleton] at hr₂
    obtain ⟨bs, hchild⟩ := run_last l' (vs.map .ended) as₁ hr₁
    have hfork : (system P start).next (.run l (vs.map .ended)) ([], 0, a) =
        some (.run l' (vs.map .ended ++ [.run child []])) := by simp only [system, next, own, step]
    have hrest : (system P start).run (.run l' (vs.map .ended ++ [.run child []])) (bs ++ as₂) = some (.ended v) := by
      rw [System.run_append, hchild, Option.bind_some, hr₂]
    exact ⟨_, run_cons hfork hrest⟩
  | @alone l l₀ l₁ a v step rest ih =>
    obtain ⟨as, hr⟩ := ih
    exact ⟨_, run_cons (a := ([], 0, a)) (by simp only [system, next, own, step, List.map_nil]) hr⟩
  | @wait l l₀ l₁ a w vs v step rest ih =>
    obtain ⟨as, hr⟩ := ih
    refine ⟨_, run_cons (a := ([], 0, a)) ?_ hr⟩
    simp only [system, next, own, step, List.map_cons, List.getElem?_cons_zero, List.eraseIdx_cons_zero]
  | @exit l a vs v step => exact ⟨[([], 0, a)], by simp [System.run, system, next, own, step]⟩

/-- From the start of the first process. -/
theorem Computes.reachable {v : V} (h : Computes P start [] v) : (system P start).Reachable (.ended v) := by
  obtain ⟨as, hr⟩ := h.run start
  exact System.Reachable.run as (.init rfl) hr

end Alone

end Sysopy.Conc.Offspring
