/-
The selection sort against the stable sort of the library: elements of equal keys come out in reverse, so one sort is
the stable sort of the reversed list and two sorts are the stable sort. A list in order is determined by what it has of
each key.
-/
import Sysopy.Sort.Selection

namespace Sysopy.Sort

variable {α K : Type*} [LinearOrder K] {key : α → K} {z : K} {l l₀ l₁ l₂ : List α}

/-- The stable sort. -/
def stableSort (key : α → K) (l : List α) : List α := l.mergeSort fun x y => decide (key x ≤ key y)

theorem stableSort_perm (key : α → K) (l : List α) : (stableSort key l).Perm l := List.mergeSort_perm l _

theorem stableSort_sorted (key : α → K) (l : List α) : (stableSort key l).Pairwise fun x y => key x ≤ key y := by
  have hsorted := @List.pairwise_mergeSort α (fun x y => decide (key x ≤ key y))
    (fun a b c => by simpa using le_trans) (fun a b => by simpa using le_total (key a) (key b)) l
  simpa [stableSort] using hsorted

/-- The elements of one key stay in their order. -/
theorem stableSort_filter (key : α → K) (l : List α) (k : K) :
    (stableSort key l).filter (fun x => decide (key x = k)) = l.filter fun x => decide (key x = k) := by
  have hequal : (l.filter fun x => decide (key x = k)).Pairwise fun x y => decide (key x ≤ key y) = true := by
    refine List.Pairwise.imp_of_mem ?_ (List.pairwise_of_forall fun _ _ => trivial)
    intro x y hx hy _
    have hx' : key x = k := by simpa using (List.mem_filter.1 hx).2
    have hy' : key y = k := by simpa using (List.mem_filter.1 hy).2
    simp [hx', hy']
  have hsublist : (l.filter fun x => decide (key x = k)).Sublist (l.mergeSort fun x y => decide (key x ≤ key y)) :=
    List.sublist_mergeSort (fun a b c => by simpa using le_trans) (fun a b => by simpa using le_total (key a) (key b))
      hequal List.filter_sublist
  have hsub := hsublist.filter fun x => decide (key x = k)
  rw [List.filter_filter] at hsub
  simp only [Bool.and_self] at hsub
  exact (hsub.eq_of_length ((stableSort_perm key l).filter _).length_eq.symm).symm

/-- Elements are sorted as their images are. -/
theorem stableSort_map {β : Type*} (f : β → α) (l : List β) :
    stableSort key (l.map f) = (stableSort (fun x => key (f x)) l).map f := by
  unfold stableSort
  rw [List.map_mergeSort]
  simp

/-- Lists in order with the same elements of every key are equal. -/
theorem eq_of_sorted (h₁ : l₁.Pairwise fun x y => key x ≤ key y) (h₂ : l₂.Pairwise fun x y => key x ≤ key y)
    (h : ∀ k, l₁.filter (fun x => decide (key x = k)) = l₂.filter fun x => decide (key x = k)) : l₁ = l₂ := by
  have hmem : ∀ x, x ∈ l₁ ↔ x ∈ l₂ := fun x => by
    have hx := congrArg (x ∈ ·) (h (key x))
    simpa [List.mem_filter] using hx
  induction l₁ generalizing l₂ with
  | nil =>
    refine (List.eq_nil_iff_forall_not_mem.2 fun x hx => ?_).symm
    exact List.not_mem_nil ((hmem x).2 hx)
  | cons a l₁ ih =>
    cases l₂ with
    | nil => exact absurd ((hmem a).1 List.mem_cons_self) List.not_mem_nil
    | cons b l₂ =>
      obtain ⟨ha, hl₁⟩ := List.pairwise_cons.1 h₁
      obtain ⟨hb, hl₂⟩ := List.pairwise_cons.1 h₂
      -- each of the first elements is in the other list, so they have the same key
      have hab : key a = key b := by
        refine le_antisymm ?_ ?_
        · rcases List.mem_cons.1 ((hmem b).2 List.mem_cons_self) with rfl | hmem'
          · exact le_rfl
          · exact ha b hmem'
        · rcases List.mem_cons.1 ((hmem a).1 List.mem_cons_self) with rfl | hmem'
          · exact le_rfl
          · exact hb a hmem'
      have hfirst := h (key b)
      simp only [List.filter_cons, hab, decide_true, if_true, List.cons.injEq] at hfirst
      obtain ⟨rfl, -⟩ := hfirst
      have hrest : ∀ k, l₁.filter (fun x => decide (key x = k)) = l₂.filter fun x => decide (key x = k) := fun k => by
        have hk := h k
        by_cases ha : key a = k <;> simpa [ha] using hk
      rw [ih hl₁ hl₂ hrest fun x => by
        have hx := congrArg (x ∈ ·) (hrest (key x))
        simpa [List.mem_filter] using hx]

/-- The order is that of the keys in the list. -/
theorem stableSort_congr {key' : α → K} (h : ∀ x ∈ l, key x = key' x) : stableSort key l = stableSort key' l := by
  have hmem : ∀ x ∈ stableSort key' l, key x = key' x := fun x hx => h x ((stableSort_perm key' l).mem_iff.1 hx)
  refine eq_of_sorted (stableSort_sorted key l) ((stableSort_sorted key' l).imp_of_mem ?_) fun k => ?_
  · intro x y hx hy hle
    rwa [hmem x hx, hmem y hy]
  · have hsame : ∀ l' : List α, (∀ x ∈ l', key x = key' x) →
        l'.filter (fun x => decide (key x = k)) = l'.filter fun x => decide (key' x = k) := fun l' hl' =>
      List.filter_congr fun x hx => by rw [hl' x hx]
    rw [stableSort_filter, hsame _ hmem, stableSort_filter, hsame l h]

/-- One sort. -/
theorem SortedReverse.eq_stableSort (h : SortedReverse key l₀ l) : l = stableSort key l₀.reverse := by
  refine eq_of_sorted h.sorted (stableSort_sorted key _) fun k => ?_
  rw [h.ties, stableSort_filter, List.filter_reverse]

/-- Two sorts. -/
theorem SortedReverse.twice (h : SortedReverse key l₀ l₁) (h' : SortedReverse key l₁ l₂) :
    l₂ = stableSort key l₀ := by
  refine eq_of_sorted h'.sorted (stableSort_sorted key _) fun k => ?_
  rw [h'.ties, h.ties, List.reverse_reverse, stableSort_filter]

/-- The elements of other keys than `z` are sorted among themselves. -/
theorem SortedReverseBut.reverse (h : SortedReverseBut key z l₀ l) :
    SortedReverse key (l₀.filter fun x => decide (key x ≠ z)) (l.filter fun x => decide (key x ≠ z)) := by
  refine ⟨h.perm.filter _, h.sorted, fun k => ?_⟩
  by_cases hk : k = z
  · subst hk
    simp [List.filter_filter]
  · have hother : ∀ x, (decide (key x = k) && decide (key x ≠ z)) = decide (key x = k) := fun x => by
      by_cases hx : key x = k <;> simp [hx, hk]
    simp only [List.filter_filter, hother]
    exact h.ties k hk

/-- One sort that leaves the elements of key `z` behind the others. -/
theorem SortedReverseBut.eq_stableSort (h : SortedReverseBut key z l₀ l) :
    l = stableSort key (l₀.filter fun x => decide (key x ≠ z)).reverse ++ l₀.filter fun x => decide (key x = z) := by
  rw [← h.reverse.eq_stableSort]
  exact h.split

/-- Two of them. -/
theorem SortedReverseBut.twice (h : SortedReverseBut key z l₀ l₁) (h' : SortedReverseBut key z l₁ l₂) :
    l₂ = stableSort key (l₀.filter fun x => decide (key x ≠ z)) ++ l₀.filter fun x => decide (key x = z) := by
  have hzeros : l₁.filter (fun x => decide (key x = z)) = l₀.filter fun x => decide (key x = z) := by
    rw [h.split]
    simp [List.filter_filter]
  rw [← h.reverse.twice h'.reverse, ← hzeros]
  exact h'.split

end Sysopy.Sort
