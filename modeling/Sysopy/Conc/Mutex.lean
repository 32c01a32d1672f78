/-
Ownership of a mutex in a pool: the mutex records its owner, and a process owns it exactly while its
local state is one that holds it. Each lemma is one way a step of one process keeps this.
-/
import Sysopy.Conc.Pool

namespace Sysopy.Conc

/-- The processes in a holding state are exactly the owner recorded in the mutex. -/
def Owned {ι L : Type*} (holds : L → Bool) (procs : ι → L) (m : Option ι) : Prop :=
  ∀ p, holds (procs p) = true ↔ m = some p

namespace Owned

variable {ι L : Type*} {holds : L → Bool} {procs : ι → L} {m : Option ι} {p q : ι} {l : L}

theorem owner (h : Owned holds procs m) (hp : holds (procs p) = true) : m = some p := (h p).1 hp

/-- Two processes do not hold the mutex at once. -/
theorem unique (h : Owned holds procs m) (hp : holds (procs p) = true) (hq : holds (procs q) = true) : p = q :=
  Option.some.inj ((h.owner hp).symm.trans (h.owner hq))

theorem not_holds (h : Owned holds procs m) (hp : holds (procs p) = true) (hq : q ≠ p) : holds (procs q) = false := by
  cases hc : holds (procs q)
  · rfl
  · exact absurd (h.unique hc hp) hq

theorem of_none (h : ∀ p, holds (procs p) = false) : Owned holds procs none := fun p => by simp [h p]

variable [DecidableEq ι]

/-- Taking a free mutex. -/
theorem lock (h : Owned holds procs none) (hl : holds l = true) : Owned holds (Function.update procs p l) (some p) := by
  intro q
  by_cases hq : q = p
  · subst hq; simp [hl]
  · rw [Function.update_of_ne hq]
    have := h q
    simp only [reduceCtorEq, iff_false] at this
    simp [this, Ne.symm hq]

/-- Releasing the mutex. -/
theorem unlock (h : Owned holds procs m) (hp : holds (procs p) = true) (hl : holds l = false) :
    Owned holds (Function.update procs p l) none := by
  intro q
  by_cases hq : q = p
  · subst hq; simp [hl]
  · rw [Function.update_of_ne hq]
    simp [h.not_holds hp hq]

/-- Any other step. -/
theorem keep (h : Owned holds procs m) (hl : holds l = holds (procs p)) :
    Owned holds (Function.update procs p l) m := by
  intro q
  by_cases hq : q = p
  · subst hq; rw [Function.update_self, hl]; exact h q
  · rw [Function.update_of_ne hq]; exact h q

end Owned

end Sysopy.Conc
