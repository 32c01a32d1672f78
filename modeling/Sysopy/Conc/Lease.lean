/-
Leases: a table whose entries hold a key for a fixed time. As time goes on entries only expire, so a table in
which no key is held twice stays so until an entry is written; the lemmas are the two ways to write one.
-/
import Mathlib.Tactic

namespace Sysopy.Conc

/-- An entry: its key, and since when it holds it. -/
structure Lease (κ : Type*) where
  key : κ
  since : ℤ

/-- Younger than `e` at the time `now`. -/
def Lease.Live {κ : Type*} (e : ℤ) (l : Lease κ) (now : ℤ) : Prop := now - l.since < e

/-- No key is held by two entries at the time `now`. -/
def HeldOnce {ι κ : Type*} (e : ℤ) (table : ι → Lease κ) (now : ℤ) : Prop :=
  ∀ i j, (table i).Live e now → (table j).Live e now → (table i).key = (table j).key → i = j

variable {ι κ : Type*} {e now t : ℤ} {table : ι → Lease κ} {i : ι} {k : κ} {l : Lease κ}

/-- What is live now was live at any time before. -/
theorem Lease.Live.before (h : l.Live e now) (ht : t ≤ now) : l.Live e t := by
  unfold Lease.Live at *
  omega

variable [DecidableEq ι]

/-- A key is given to an entry when no other entry holds it. -/
theorem HeldOnce.grant (h : HeldOnce e table now) (hk : ∀ j, j ≠ i → (table j).key = k → ¬ (table j).Live e now) :
    HeldOnce e (Function.update table i ⟨k, t⟩) now := by
  have hother : ∀ j, j ≠ i → (Function.update table i ⟨k, t⟩ j).Live e now →
      (Function.update table i ⟨k, t⟩ j).key ≠ k := fun j hj hl he => by
    rw [Function.update_of_ne hj] at hl he
    exact hk j hj he hl
  intro a b ha hb hab
  by_cases hai : a = i
  · subst hai
    by_contra hba
    rw [Function.update_self] at hab
    exact hother b (Ne.symm hba) hb hab.symm
  · by_cases hbi : b = i
    · subst hbi
      rw [Function.update_self] at hab
      exact absurd hab (hother a hai ha)
    · rw [Function.update_of_ne hai] at ha hab
      rw [Function.update_of_ne hbi] at hb hab
      exact h a b ha hb hab

/-- An entry that was live at some time before is renewed. -/
theorem HeldOnce.renew (h : HeldOnce e table now) (hb : HeldOnce e table t) (ht : t ≤ now) (hl : (table i).Live e t)
    {t' : ℤ} : HeldOnce e (Function.update table i ⟨(table i).key, t'⟩) now :=
  h.grant fun j hj hk hlj => hj (hb j i (hlj.before ht) hl hk)

end Sysopy.Conc
