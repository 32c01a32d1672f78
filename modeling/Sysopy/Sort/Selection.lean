/-
Selection sort that takes the first largest element of what is left and puts it in front of what it has taken:
the result is in order, and elements with equal keys come out in the reverse of their order.
-/
import Mathlib.Tactic

namespace Sysopy.Sort

variable {α K : Type*} [LinearOrder K] {key : α → K}

/-- `m` is the first largest element of `l₁ ++ m :: l₂`. -/
structure FirstMax (key : α → K) (l₁ : List α) (m : α) (l₂ : List α) : Prop where
  before : ∀ x ∈ l₁, key x < key m
  after : ∀ x ∈ l₂, key x ≤ key m

section Scan

variable {l₁ l₂ : List α} {m x : α}

theorem firstMax_single (key : α → K) (m : α) : FirstMax key [] m [] := ⟨by simp, by simp⟩

/-- The next element is not larger. -/
theorem FirstMax.keep (h : FirstMax key l₁ m l₂) (hx : key x ≤ key m) : FirstMax key l₁ m (l₂ ++ [x]) :=
  ⟨h.before, List.forall_mem_append.2 ⟨h.after, List.forall_mem_singleton.2 hx⟩⟩

/-- The next element is larger. -/
theorem FirstMax.replace (h : FirstMax key l₁ m l₂) (hx : key m < key x) : FirstMax key (l₁ ++ m :: l₂) x [] := by
  refine ⟨List.forall_mem_append.2 ⟨fun y hy => (h.before y hy).trans hx, List.forall_mem_cons.2 ⟨hx, fun y hy => ?_⟩⟩,
    by simp⟩
  exact (h.after y hy).trans_lt hx

end Scan

/-- In order, with the elements of `l₀` and with those of one key in reverse. -/
structure SortedReverse (key : α → K) (l₀ l : List α) : Prop where
  perm : l.Perm l₀
  sorted : l.Pairwise fun x y => key x ≤ key y
  ties : ∀ k, l.filter (fun x => decide (key x = k)) = (l₀.filter fun x => decide (key x = k)).reverse

/-- Of `l₀` the elements of `l` are left and those of `acc` are in order. -/
structure Selected (key : α → K) (l₀ l acc : List α) : Prop where
  perm : (acc ++ l).Perm l₀
  sorted : acc.Pairwise fun x y => key x ≤ key y
  le : ∀ x ∈ l, ∀ y ∈ acc, key x ≤ key y
  ties : ∀ k, l₀.filter (fun x => decide (key x = k)) =
    (acc.filter fun x => decide (key x = k)).reverse ++ l.filter fun x => decide (key x = k)

section Select

variable {l₀ l l₁ l₂ acc : List α} {m : α}

theorem selected_start (key : α → K) (l : List α) : Selected key l l [] :=
  ⟨.refl _, .nil, by simp, by simp⟩

/-- One selection. -/
theorem Selected.select (h : Selected key l₀ (l₁ ++ m :: l₂) acc) (hm : FirstMax key l₁ m l₂) :
    Selected key l₀ (l₁ ++ l₂) (m :: acc) := by
  have hmem : ∀ x ∈ l₁ ++ l₂, x ∈ l₁ ++ m :: l₂ := fun x hx => by
    rcases List.mem_append.1 hx with hx | hx <;> simp [hx]
  refine ⟨?_, List.pairwise_cons.2 ⟨h.le m (by simp), h.sorted⟩, fun x hx => List.forall_mem_cons.2 ⟨?_, ?_⟩, ?_⟩
  · calc (m :: acc ++ (l₁ ++ l₂)).Perm (acc ++ m :: (l₁ ++ l₂)) := List.perm_middle.symm
      List.Perm _ (acc ++ (l₁ ++ m :: l₂)) := List.perm_middle.symm.append_left acc
      List.Perm _ l₀ := h.perm
  · rcases List.mem_append.1 hx with hx | hx
    · exact (hm.before x hx).le
    · exact hm.after x hx
  · exact h.le x (hmem x hx)
  · intro k
    rw [h.ties k]
    by_cases hk : key m = k
    · have hnone : l₁.filter (fun x => decide (key x = k)) = [] :=
        List.filter_eq_nil_iff.2 fun x hx => by simpa using (hk ▸ hm.before x hx).ne
      simp [hk, hnone]
    · simp [hk]

theorem Selected.done (h : Selected key l₀ [] acc) : SortedReverse key l₀ acc := by
  refine ⟨by simpa using h.perm, h.sorted, fun k => ?_⟩
  rw [h.ties k]
  simp

/-- The first element of a key is the last one there was. -/
theorem SortedReverse.find? (h : SortedReverse key l₀ l) (k : K) :
    l.find? (fun x => decide (key x = k)) = l₀.reverse.find? fun x => decide (key x = k) := by
  rw [← List.head?_filter, ← List.head?_filter, h.ties, List.filter_reverse]

end Select

/-! ## Selection that stops at one key -/

/-- In order and with ties in reverse as far as the keys are not `z`; the elements of key `z` are behind the others,
as they were. -/
structure SortedReverseBut (key : α → K) (z : K) (l₀ l : List α) : Prop where
  perm : l.Perm l₀
  split : l = l.filter (fun x => decide (key x ≠ z)) ++ l₀.filter fun x => decide (key x = z)
  sorted : (l.filter fun x => decide (key x ≠ z)).Pairwise fun x y => key x ≤ key y
  ties : ∀ k, k ≠ z → l.filter (fun x => decide (key x = k)) = (l₀.filter fun x => decide (key x = k)).reverse

section Stop

variable {l₀ l acc : List α} {z : K}

/-- Everything else has been taken. -/
theorem Selected.stop (h : Selected key l₀ l acc) (hacc : ∀ x ∈ acc, key x ≠ z) (hl : ∀ x ∈ l, key x = z) :
    SortedReverseBut key z l₀ (acc ++ l) := by
  have hnone : acc.filter (fun x => decide (key x = z)) = [] :=
    List.filter_eq_nil_iff.2 fun x hx => by simpa using hacc x hx
  have hrest : l.filter (fun x => decide (key x = z)) = l := List.filter_eq_self.2 fun x hx => by simpa using hl x hx
  have hzeros : l₀.filter (fun x => decide (key x = z)) = l := by
    rw [h.ties z, hnone, hrest]
    rfl
  have htaken : (acc ++ l).filter (fun x => decide (key x ≠ z)) = acc := by
    have hself : acc.filter (fun x => decide (key x ≠ z)) = acc :=
      List.filter_eq_self.2 fun x hx => by simpa using hacc x hx
    have hgone : l.filter (fun x => decide (key x ≠ z)) = [] :=
      List.filter_eq_nil_iff.2 fun x hx => by simpa using hl x hx
    rw [List.filter_append, hself, hgone, List.append_nil]
  refine ⟨h.perm, by rw [htaken, hzeros], by rw [htaken]; exact h.sorted, fun k hk => ?_⟩
  have hother : l.filter (fun x => decide (key x = k)) = [] :=
    List.filter_eq_nil_iff.2 fun x hx => by simpa [hl x hx] using hk.symm
  rw [h.ties k, List.filter_append, hother, List.append_nil, List.append_nil, List.reverse_reverse]

/-- With a least key `z` the whole is in order iff all keys are `z` or none is. -/
theorem SortedReverseBut.sorted_iff (h : SortedReverseBut key z l₀ l) (hz : ∀ x ∈ l₀, z ≤ key x) :
    l.Pairwise (fun x y => key x ≤ key y) ↔ (∀ x ∈ l₀, key x = z) ∨ ∀ x ∈ l₀, key x ≠ z := by
  constructor
  · intro hsorted
    by_contra hboth
    simp only [not_or, not_forall] at hboth
    obtain ⟨⟨x, hx, hxz⟩, y, hy, hyz⟩ := hboth
    have hx' : x ∈ l.filter (fun x => decide (key x ≠ z)) :=
      List.mem_filter.2 ⟨h.perm.mem_iff.2 hx, by simpa using hxz⟩
    have hy' : y ∈ l₀.filter (fun x => decide (key x = z)) := List.mem_filter.2 ⟨hy, by simpa using hyz⟩
    rw [h.split] at hsorted
    have hle : key x ≤ key y := (List.pairwise_append.1 hsorted).2.2 x hx' y hy'
    exact hxz (le_antisymm (hle.trans_eq (not_not.1 hyz)) (hz x hx))
  · rintro (hall | hnone)
    · refine List.Pairwise.imp_of_mem ?_ (List.pairwise_of_forall fun _ _ => trivial)
      intro x y hx hy _
      rw [hall x (h.perm.mem_iff.1 hx), hall y (h.perm.mem_iff.1 hy)]
    · have hself : l.filter (fun x => decide (key x ≠ z)) = l :=
        List.filter_eq_self.2 fun x hx => by simpa using hnone x (h.perm.mem_iff.1 hx)
      have hsorted := h.sorted
      rwa [hself] at hsorted

end Stop

end Sysopy.Sort
