/-
C strings and `strcmp`, which orders them as lists of characters.
-/
import Sysopy.CText.Buffer
import Mathlib.Data.Char
import Mathlib.Data.List.Lex

namespace Sysopy.CText

/-- A string with a NUL behind it: no character of its own is one. -/
abbrev CStr := { s : List Char // '\x00' ∉ s }

theorem nul_not_mem_empty : '\x00' ∉ ([] : List Char) := by simp

theorem nul_not_mem_a : '\x00' ∉ ['a'] := by simp

/-- `strcmp`: the difference of the first characters that differ, the NULs at the ends included. -/
def strcmp : List Char → List Char → ℤ
  | [], [] => 0
  | [], b :: _ => -b.toNat
  | a :: _, [] => a.toNat
  | a :: s, b :: t => if a = b then strcmp s t else a.toNat - b.toNat

theorem toNat_pos {c : Char} (hc : c ≠ '\x00') : 0 < c.toNat := by
  refine Nat.pos_of_ne_zero fun h => hc ?_
  rw [← Char.ofNat_toNat c, h]

/-- On strings without NUL the order of `strcmp` is the lexicographic one. -/
theorem strcmp_pos_iff {s t : List Char} (hs : '\x00' ∉ s) (ht : '\x00' ∉ t) : 0 < strcmp s t ↔ t < s := by
  induction s, t using strcmp.induct with
  | case1 => simp [strcmp]
  | case2 b t =>
    simp [strcmp]
  | case3 a s =>
    have ha : a ≠ '\x00' := fun h => hs (h ▸ List.mem_cons_self)
    simp [strcmp, toNat_pos ha]
  | case4 s b t ih =>
    rw [strcmp, if_pos rfl, ih (fun h => hs (List.mem_cons_of_mem _ h)) fun h => ht (List.mem_cons_of_mem _ h)]
    simp
  | case5 a s b t hab =>
    rw [strcmp, if_neg hab, List.cons_lt_cons_iff]
    have hlt : (0 : ℤ) < a.toNat - b.toNat ↔ b < a := sub_pos.trans Int.ofNat_lt
    rw [hlt]
    simp [Ne.symm hab]

theorem strcmp_nonpos_iff {s t : List Char} (hs : '\x00' ∉ s) (ht : '\x00' ∉ t) : strcmp s t ≤ 0 ↔ s ≤ t := by
  rw [← not_lt, strcmp_pos_iff hs ht, not_lt]

theorem strcmp_eq_zero_iff {s t : List Char} (hs : '\x00' ∉ s) (ht : '\x00' ∉ t) : strcmp s t = 0 ↔ s = t := by
  induction s, t using strcmp.induct with
  | case1 => simp [strcmp]
  | case2 b t =>
    have hb : b ≠ '\x00' := fun h => ht (h ▸ List.mem_cons_self)
    simp [strcmp, (toNat_pos hb).ne']
  | case3 a s =>
    have ha : a ≠ '\x00' := fun h => hs (h ▸ List.mem_cons_self)
    simp [strcmp, (toNat_pos ha).ne']
  | case4 s b t ih =>
    rw [strcmp, if_pos rfl, ih (fun h => hs (List.mem_cons_of_mem _ h)) fun h => ht (List.mem_cons_of_mem _ h)]
    simp
  | case5 a s b t hab =>
    have hne : a.toNat ≠ b.toNat := fun h => hab (by rw [← Char.ofNat_toNat a, h, Char.ofNat_toNat])
    have hsub : (a.toNat : ℤ) - b.toNat ≠ 0 := by omega
    simp [strcmp, hab, hsub]

end Sysopy.CText
