/-
Sequences cut into pieces: how long pieces of bounded length are together, when they are the records of the
sequence, and the records of one size at its start.
-/
import Mathlib.Tactic

namespace Sysopy.Files

variable {α : Type*} {N : ℕ} {ps rs : List (List α)}

/-! ## Pieces -/

theorem length_flatten_of_length (h : ∀ p ∈ ps, p.length = N) : ps.flatten.length = ps.length * N := by
  rw [List.length_flatten, List.sum_eq_card_nsmul _ N, List.length_map, smul_eq_mul]
  exact List.forall_mem_map.2 h

/-- The first `n` records of `N` elements. -/
def records (N : ℕ) : ℕ → List α → List (List α)
  | 0, _ => []
  | n + 1, l => l.take N :: records N n (l.drop N)

@[simp] theorem length_records (N n : ℕ) (l : List α) : (records N n l).length = n := by
  induction n generalizing l with
  | zero => rfl
  | succ n ih => rw [records, List.length_cons, ih]

theorem length_of_mem_records {N n : ℕ} {l : List α} (h : n * N ≤ l.length) : ∀ r ∈ records N n l, r.length = N := by
  induction n generalizing l with
  | zero => exact nofun
  | succ n ih =>
    rw [Nat.succ_mul] at h
    refine List.forall_mem_cons.2 ⟨List.length_take_of_le (by omega), ih ?_⟩
    rw [List.length_drop]
    omega

/-- The records and what is behind them. -/
theorem flatten_records (N n : ℕ) (l : List α) : (records N n l).flatten ++ l.drop (n * N) = l := by
  induction n generalizing l with
  | zero => rw [Nat.zero_mul, List.drop_zero]; rfl
  | succ n ih =>
    have hrest := ih (l.drop N)
    rw [List.drop_drop, Nat.add_comm, ← Nat.succ_mul] at hrest
    rw [records, List.flatten_cons, List.append_assoc, hrest, List.take_append_drop]

theorem records_append (h : ∀ r ∈ rs, r.length = N) (rest : List α) :
    records N rs.length (rs.flatten ++ rest) = rs := by
  induction rs with
  | nil => rfl
  | cons r rs ih =>
    obtain ⟨hr, hrs⟩ := List.forall_mem_cons.1 h
    rw [List.length_cons, records, List.flatten_cons, List.append_assoc, List.take_left' hr, List.drop_left' hr, ih hrs]

theorem drop_records_append (h : ∀ r ∈ rs, r.length = N) (rest : List α) :
    (rs.flatten ++ rest).drop (rs.length * N) = rest :=
  List.drop_left' (length_flatten_of_length h)

end Sysopy.Files
