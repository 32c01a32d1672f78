/-
A table that the first of several processes creates, finds empty and sets cell by cell before it uses it, while
the others find it existing. The cells set are always the first ones, and whoever uses the table has found all
cells set, provided that nobody attaches to it before.
-/
import Sysopy.Conc.Pool

namespace Sysopy.Conc

/-- Whether the table exists, and as history which cells have been set. -/
structure Segment (MAX : ℕ) where
  present : Bool
  set : Fin MAX → Bool

namespace Segment

variable {MAX : ℕ}

/-- No table yet. -/
def absent (MAX : ℕ) : Segment MAX := ⟨false, fun _ => false⟩

/-- A table just created. -/
def created (MAX : ℕ) : Segment MAX := ⟨true, fun _ => false⟩

/-- Cell `i` is set. -/
def write (s : Segment MAX) (i : Fin MAX) : Segment MAX := { s with set := Function.update s.set i true }

/-- Of the cells only the first `n` are kept. -/
def cut (s : Segment MAX) (n : ℕ) : Segment MAX := { s with set := fun k => decide (k.val < n) && s.set k }

def Full (s : Segment MAX) : Prop := ∀ k, s.set k = true

instance (s : Segment MAX) : Decidable s.Full := inferInstanceAs (Decidable (∀ _, _))

theorem full_cut {s : Segment MAX} {n : ℕ} : (s.cut n).Full ↔ s.Full ∧ MAX ≤ n := by
  constructor
  · intro h
    have hk : ∀ k : Fin MAX, k.val < n ∧ s.set k = true := fun k => by simpa [cut] using h k
    refine ⟨fun k => (hk k).2, ?_⟩
    by_contra hn
    have := (hk ⟨n, by omega⟩).1
    simp at this
  · rintro ⟨h, hn⟩ k
    have := k.isLt
    simp [cut, h k, show k.val < n by omega]

theorem cut_of_le {s : Segment MAX} {n : ℕ} (h : MAX ≤ n) : s.cut n = s := by
  have hset : (s.cut n).set = s.set := funext fun k => by
    have := k.isLt
    simp [cut, show k.val < n by omega]
  rw [← show ({ s with set := (s.cut n).set } : Segment MAX) = s.cut n from rfl, hset]

theorem cut_of_empty {s : Segment MAX} {n : ℕ} (h : ∀ k, s.set k = false) : s.cut n = s := by
  have hset : (s.cut n).set = s.set := funext fun k => by simp [cut, h k]
  rw [← show ({ s with set := (s.cut n).set } : Segment MAX) = s.cut n from rfl, hset]

variable {ι L : Type*}

/-- The table and the process that sets its cells: `writing` is the next cell of a process that does. -/
structure Made (writing : L → Option ℕ) (s : Segment MAX) (procs : ι → L) : Prop where
  absent : s.present = false → (∀ k, s.set k = false) ∧ ∀ p, writing (procs p) = none
  alone : ∀ p q i j, writing (procs p) = some i → writing (procs q) = some j → p = q
  upTo : ∀ p i, writing (procs p) = some i → ∀ k : Fin MAX, s.set k = true ↔ k.val < i
  closed : ∀ j k : Fin MAX, j ≤ k → s.set k = true → s.set j = true

/-- Whoever uses the table finds every cell set. -/
def Ready (uses : L → Bool) (s : Segment MAX) (procs : ι → L) : Prop := ∀ p, uses (procs p) = true → s.Full

section Steps

variable [DecidableEq ι] {writing : L → Option ℕ} {uses : L → Bool} {s s' : Segment MAX} {procs : ι → L} {p : ι} {l : L}
  {i : ℕ}

omit [DecidableEq ι] in
theorem Made.init (h : ∀ p, writing (procs p) = none) : Made writing (.absent MAX) procs where
  absent _ := ⟨fun _ => rfl, h⟩
  alone p q i j hi := by rw [h p] at hi; cases hi
  upTo p i hi := by rw [h p] at hi; cases hi
  closed _ _ _ hk := by cases hk

/-- A step that has nothing to do with the cells. -/
theorem Made.keep (h : Made writing s procs) (hl : writing l = writing (procs p)) :
    Made writing s (Function.update procs p l) := by
  have hsame : ∀ q, writing (Function.update procs p l q) = writing (procs q) := fun q => by
    by_cases hq : q = p
    · subst hq
      rw [Function.update_self, hl]
    · rw [Function.update_of_ne hq]
  refine ⟨fun ha => ⟨(h.absent ha).1, fun q => ?_⟩, fun q r i j hi hj => ?_, fun q i hi => ?_, h.closed⟩
  · rw [hsame, (h.absent ha).2 q]
  · rw [hsame] at hi hj
    exact h.alone q r i j hi hj
  · rw [hsame] at hi
    exact h.upTo q i hi

/-- The table is created. -/
theorem Made.create (h : Made writing s procs) (hs : s.present = false) (hl : writing l = some 0) :
    Made writing (created MAX) (Function.update procs p l) := by
  have hself : ∀ q i, writing (Function.update procs p l q) = some i → q = p ∧ i = 0 := fun q i hi => by
    by_cases hq : q = p
    · subst hq
      rw [Function.update_self, hl] at hi
      exact ⟨rfl, (Option.some.inj hi).symm⟩
    · rw [Function.update_of_ne hq, (h.absent hs).2 q] at hi
      cases hi
  refine ⟨nofun, fun q r i j hi hj => ?_, fun q i hi k => ?_, fun _ _ _ hk => by cases hk⟩
  · rw [(hself q i hi).1, (hself r j hj).1]
  · rw [(hself q i hi).2]
    simp [created]

/-- The next cell is set. -/
theorem Made.write (h : Made writing s procs) (hp : writing (procs p) = some i) (hi : i < MAX)
    (hl : writing l = some (i + 1)) : Made writing (s.write ⟨i, hi⟩) (Function.update procs p l) := by
  have hself : ∀ q j, writing (Function.update procs p l q) = some j → q = p ∧ j = i + 1 := fun q j hj => by
    by_cases hq : q = p
    · subst hq
      rw [Function.update_self, hl] at hj
      exact ⟨rfl, (Option.some.inj hj).symm⟩
    · rw [Function.update_of_ne hq] at hj
      exact absurd (h.alone q p j i hj hp) hq
  have hset : ∀ k : Fin MAX, (s.write ⟨i, hi⟩).set k = true ↔ k.val < i + 1 := fun k => by
    by_cases hk : k = ⟨i, hi⟩
    · subst hk
      simp [Segment.write]
    · have hne : k.val ≠ i := fun he => hk (Fin.ext he)
      show Function.update s.set ⟨i, hi⟩ true k = true ↔ _
      rw [Function.update_of_ne hk, h.upTo p i hp k]
      omega
  refine ⟨fun hs => ?_, fun q r j k hj hk => ?_, fun q j hj k => ?_, fun j k hjk hk => ?_⟩
  · rw [(h.absent hs).2 p] at hp
    cases hp
  · rw [(hself q j hj).1, (hself r k hk).1]
  · rw [(hself q j hj).2]
    exact hset k
  · have hle : j.val ≤ k.val := hjk
    rw [hset] at hk ⊢
    omega

/-- The process has set all cells. -/
theorem Made.finish (h : Made writing s procs) (hp : writing (procs p) = some i) (hi : ¬ i < MAX)
    (hl : writing l = none) : Made writing s (Function.update procs p l) ∧ s.Full := by
  refine ⟨⟨fun hs => ?_, fun q r j k hj hk => ?_, fun q j hj => ?_, h.closed⟩, fun k => ?_⟩
  · rw [(h.absent hs).2 p] at hp
    cases hp
  · have hq : q ≠ p := by
      rintro rfl
      rw [Function.update_self, hl] at hj
      cases hj
    rw [Function.update_of_ne hq] at hj
    exact absurd (h.alone q p j i hj hp) hq
  · by_cases hq : q = p
    · subst hq
      rw [Function.update_self, hl] at hj
      cases hj
    · rw [Function.update_of_ne hq] at hj
      exact h.upTo q j hj
  · exact (h.upTo p i hp k).2 (by omega)

/-- Cells stay set, and a process that begins to use the table finds it full. -/
theorem Ready.step (h : Ready uses s procs) (hs : ∀ k, s.set k = true → s'.set k = true)
    (hl : uses l = true → uses (procs p) = true ∨ s'.Full) : Ready uses s' (Function.update procs p l) := by
  intro q hq
  have hold : ∀ q, uses (procs q) = true → s'.Full := fun q hq k => hs k (h q hq k)
  by_cases hqp : q = p
  · subst hqp
    rw [Function.update_self] at hq
    exact (hl hq).elim (hold q) id
  · rw [Function.update_of_ne hqp] at hq
    exact hold q hq

theorem set_write {j : Fin MAX} (k : Fin MAX) (h : s.set k = true) : (s.write j).set k = true := by
  by_cases hk : k = j
  · subst hk
    exact Function.update_self ..
  · exact (Function.update_of_ne hk ..).trans h

end Steps

end Segment

end Sysopy.Conc
