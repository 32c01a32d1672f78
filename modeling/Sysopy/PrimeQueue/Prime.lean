/-
What the two versions of the prime service (cw06/zad1 and cw06/zad2) have in common: the clients'
primality test and the numbers the servers draw.
-/
import Mathlib.Data.Nat.Prime.Basic
import Mathlib.Tactic
import Sysopy.CText.Decimal

namespace Sysopy.PrimeQueue

open Sysopy.CText

/-- The results of `rand()`: 0 to `RAND_MAX`. -/
abbrev Rand := Fin (2 ^ 31)

scoped instance neZero_rand : NeZero (2 ^ 31) := ⟨by decide⟩

theorem inInt_rand (rand : Rand) : InInt (rand.val : ℤ) := by
  have hlt := rand.isLt
  exact ⟨by omega, by omega⟩

/-- `is_prime`: `flag` is set by the first `i` from 2 to `number / 2` that divides the number. -/
def isPrime (number : ℤ) : ℤ :=
  let flag := (List.range' 2 ((number.tdiv 2).toNat - 1)).any fun i => number.tmod i == 0
  if flag then 0 else 1

theorem isPrime_eq (number : ℤ) : isPrime number = 0 ∨ isPrime number = 1 := by
  unfold isPrime
  dsimp only
  split
  · exact .inl rfl
  · exact .inr rfl

theorem isPrime_inInt (number : ℤ) : InInt (isPrime number) := by
  rcases isPrime_eq number with h | h <;> rw [h] <;> decide

/-! ## Primes -/

/-- `flag` stays 0 iff none of the numbers tried divides the number. -/
theorem isPrime_eq_one_iff {n : ℕ} : isPrime n = 1 ↔ ∀ i, 2 ≤ i → i ≤ n / 2 → ¬ i ∣ n := by
  have htried : ∀ i, i ∈ List.range' 2 (((n : ℤ).tdiv 2).toNat - 1) ↔ 2 ≤ i ∧ i ≤ n / 2 := by
    intro i
    rw [List.mem_range'_1, Int.tdiv_eq_ediv_of_nonneg (by omega)]
    omega
  have hdvd : ∀ i : ℕ, ((n : ℤ).tmod i == 0) = true ↔ i ∣ n := by
    intro i
    rw [beq_iff_eq, ← Int.natCast_dvd_natCast, Int.dvd_iff_tmod_eq_zero]
  unfold isPrime
  dsimp only
  split
  · rename_i hflag
    obtain ⟨i, hi, hmod⟩ := List.any_eq_true.1 hflag
    obtain ⟨h2, hle⟩ := (htried i).1 hi
    exact ⟨nofun, fun h => absurd ((hdvd i).1 hmod) (h i h2 hle)⟩
  · rename_i hflag
    refine ⟨fun _ i h2 hle hi => hflag ?_, fun _ => rfl⟩
    exact List.any_eq_true.2 ⟨i, (htried i).2 ⟨h2, hle⟩, (hdvd i).2 hi⟩

/-- A composite number has a divisor among those up to its half. -/
theorem exists_dvd_le_half {n : ℕ} (h2 : 2 ≤ n) (hn : ¬ n.Prime) : ∃ i, 2 ≤ i ∧ i ≤ n / 2 ∧ i ∣ n := by
  obtain ⟨i, hi, hi2, hlt⟩ := Nat.exists_dvd_of_not_prime2 h2 hn
  obtain ⟨k, rfl⟩ := hi
  have hk : 2 ≤ k := by
    by_contra hk
    interval_cases k <;> omega
  exact ⟨i, hi2, by rw [Nat.le_div_iff_mul_le (by decide)]; exact Nat.mul_le_mul_left i hk, Nat.dvd_mul_right i k⟩

/-- `is_prime` is right about a number just when it is at least 2: 0 and 1 pass, because nothing is tried. -/
theorem isPrime_right_iff (n : ℕ) : (isPrime n = 1 ↔ n.Prime) ↔ 2 ≤ n := by
  rw [isPrime_eq_one_iff]
  constructor
  · intro h
    by_contra hlt
    have hnone : ∀ i, 2 ≤ i → i ≤ n / 2 → ¬ i ∣ n := fun i hi hle => by omega
    have := (h.1 hnone).two_le
    omega
  · intro h2
    constructor
    · intro h
      by_contra hn
      obtain ⟨i, hi, hle, hdvd⟩ := exists_dvd_le_half h2 hn
      exact h i hi hle hdvd
    · intro hp i hi hle hdvd
      rcases (Nat.dvd_prime hp).1 hdvd with rfl | rfl <;> omega

end Sysopy.PrimeQueue
