/-
Pools of processes over a shared state: any number of processes run one program, each with its own
local state, and a step of the pool is one step of one of them. `tally` sums a weight over all the
processes (or over the cells of a table); the counting invariants of semaphores and mutexes are
equations between tallies.
-/
import Sysopy.Conc.System

namespace Sysopy.Conc

/-- The shared state and the local state of every process. -/
structure Pool (ι G L : Type*) where
  shared : G
  procs : ι → L

/-- A program: what a process does next from a shared and a local state, under a choice of the
environment; no result when it blocks or has ended. -/
abbrev Program (ι G L α : Type*) := ι → G → L → α → Option (G × L)

section Program

variable {ι G L α : Type*} [DecidableEq ι]

/-- One process takes one step. -/
def Program.next (P : Program ι G L α) (s : Pool ι G L) (a : ι × α) : Option (Pool ι G L) :=
  (P a.1 s.shared (s.procs a.1) a.2).map fun r => ⟨r.1, Function.update s.procs a.1 r.2⟩

/-- All interleavings of the processes from the initial states. -/
def Program.system (P : Program ι G L α) (init : Pool ι G L → Prop) : System (Pool ι G L) (ι × α) :=
  ⟨init, P.next⟩

theorem Program.next_eq_some {P : Program ι G L α} {s s' : Pool ι G L} {a : ι × α} :
    P.next s a = some s' ↔ ∃ g l, P a.1 s.shared (s.procs a.1) a.2 = some (g, l) ∧
      s' = ⟨g, Function.update s.procs a.1 l⟩ := by
  unfold Program.next
  rw [Option.map_eq_some_iff]
  constructor
  · rintro ⟨⟨g, l⟩, h, rfl⟩; exact ⟨g, l, h, rfl⟩
  · rintro ⟨g, l, h, rfl⟩; exact ⟨(g, l), h, rfl⟩

/-- The invariant rule for pools: it is enough that each step of each process keeps it. -/
theorem Program.invariant {P : Program ι G L α} {init : Pool ι G L → Prop} {I : G → (ι → L) → Prop}
    (h0 : ∀ s, init s → I s.shared s.procs)
    (hn : ∀ g procs i a g' l, I g procs → P i g (procs i) a = some (g', l) → I g' (Function.update procs i l))
    {s : Pool ι G L} (h : (P.system init).Reachable s) : I s.shared s.procs := by
  refine h.invariant (I := fun s => I s.shared s.procs) h0 ?_
  rintro s ⟨i, a⟩ s' - hI hs
  obtain ⟨g, l, hP, rfl⟩ := Program.next_eq_some.1 hs
  exact hn _ _ i a g l hI hP

/-- One step of one process from a reachable state. -/
theorem Program.reachable_step {P : Program ι G L α} {init : Pool ι G L → Prop} {s : Pool ι G L}
    (h : (P.system init).Reachable s) {i : ι} {a : α} {g : G} {l : L} (hP : P i s.shared (s.procs i) a = some (g, l)) :
    (P.system init).Reachable ⟨g, Function.update s.procs i l⟩ :=
  System.Reachable.next (a := (i, a)) h (Program.next_eq_some.2 ⟨g, l, hP, rfl⟩)

/-- One process takes step after step while the others stand still. -/
theorem Program.reachable_again {P : Program ι G L α} {init : Pool ι G L → Prop} {procs : ι → L} {i : ι} {a : α}
    {g g' : G} {l l' : L} (h : (P.system init).Reachable ⟨g, Function.update procs i l⟩)
    (hP : P i g l a = some (g', l')) : (P.system init).Reachable ⟨g', Function.update procs i l'⟩ := by
  have hself : P i g (Function.update procs i l i) a = some (g', l') := by rwa [Function.update_self]
  have hnext := Program.reachable_step h hself
  rwa [Function.update_idem] at hnext

/-- It is the turn of another one. -/
theorem Program.reachable_turn {P : Program ι G L α} {init : Pool ι G L → Prop} {procs : ι → L} {i : ι} {g : G} {l : L}
    (h : (P.system init).Reachable ⟨g, procs⟩) (hl : procs i = l) :
    (P.system init).Reachable ⟨g, Function.update procs i l⟩ := by
  rwa [Function.update_eq_self_iff.2 hl.symm]

/-! Pools seen through a view of the local states: a step of a process is a step in the view, or none. -/

theorem Program.view_step {K : Type*} {A : Program ι G L α} {init : Pool ι G L → Prop} {v : K → L} {g g' : G}
    {procs : ι → K} {i : ι} {k : K} {a : α} (h : (A.system init).Reachable ⟨g, v ∘ procs⟩)
    (hA : A i g (v (procs i)) a = some (g', v k)) :
    (A.system init).Reachable ⟨g', v ∘ Function.update procs i k⟩ := by
  rw [Function.comp_update]
  exact Program.reachable_step h hA

theorem Program.view_stay {K : Type*} {A : Program ι G L α} {init : Pool ι G L → Prop} {v : K → L} {g : G}
    {procs : ι → K} {i : ι} {k : K} (h : (A.system init).Reachable ⟨g, v ∘ procs⟩) (hv : v k = v (procs i)) :
    (A.system init).Reachable ⟨g, v ∘ Function.update procs i k⟩ := by
  have hsame : Function.update (v ∘ procs) i (v k) = v ∘ procs := by
    rw [hv]
    exact Function.update_eq_self i (v ∘ procs)
  rwa [Function.comp_update, hsame]

end Program

/-! ## Sums over the processes -/

section Tally

variable {ι L M : Type*} [Fintype ι]

/-- The sum of a weight over all processes. -/
def tally [AddCommMonoid M] (w : L → M) (f : ι → L) : M := ∑ i, w (f i)

/-- Changing one process changes a tally by the difference of its weights. -/
theorem tally_update [DecidableEq ι] [AddCommMonoid M] (w : L → M) (f : ι → L) (i : ι) (x : L) :
    tally w (Function.update f i x) + w (f i) = tally w f + w x := by
  unfold tally
  rw [← Finset.add_sum_erase _ _ (Finset.mem_univ i), ← Finset.add_sum_erase _ (fun j => w (f j)) (Finset.mem_univ i)]
  have h : ∀ j ∈ Finset.univ.erase i, w (Function.update f i x j) = w (f j) := fun j hj => by
    rw [Function.update_of_ne (Finset.ne_of_mem_erase hj)]
  rw [Finset.sum_congr rfl h, Function.update_self]
  abel

/-- A process that gives up a part of its weight. -/
theorem tally_spend [DecidableEq ι] [AddCancelCommMonoid M] {w : L → M} {f : ι → L} {i : ι} {x : L} {d : M}
    (h : w (f i) = d + w x) : d + tally w (Function.update f i x) = tally w f := by
  have := tally_update w f i x
  rw [h, ← add_assoc] at this
  rw [add_comm d]
  exact add_right_cancel this

/-- A process that gains weight. -/
theorem tally_earn [DecidableEq ι] [AddCancelCommMonoid M] {w : L → M} {f : ι → L} {i : ι} {x : L} {d : M}
    (h : w x = d + w (f i)) : tally w (Function.update f i x) = tally w f + d := by
  have := tally_update w f i x
  rw [h, ← add_assoc] at this
  exact add_right_cancel this

theorem le_tally (w : L → ℕ) (f : ι → L) (i : ι) : w (f i) ≤ tally w f :=
  Finset.single_le_sum (f := fun j => w (f j)) (fun _ _ => Nat.zero_le _) (Finset.mem_univ i)

/-- Two different processes both count. -/
theorem add_le_tally [DecidableEq ι] (w : L → ℕ) (f : ι → L) {i j : ι} (h : i ≠ j) :
    w (f i) + w (f j) ≤ tally w f := by
  unfold tally
  rw [← Finset.add_sum_erase _ _ (Finset.mem_univ i)]
  have := Finset.single_le_sum (f := fun k => w (f k)) (fun _ _ => Nat.zero_le _)
    (Finset.mem_erase.2 ⟨h.symm, Finset.mem_univ j⟩)
  omega

/-- At most one process has a positive weight when the tally is at most one. -/
theorem eq_of_tally_le_one [DecidableEq ι] {w : L → ℕ} {f : ι → L} (h : tally w f ≤ 1) {i j : ι}
    (hi : 0 < w (f i)) (hj : 0 < w (f j)) : i = j := by
  by_contra hij
  have := add_le_tally w f hij
  omega

theorem tally_eq_zero {w : L → ℕ} {f : ι → L} : tally w f = 0 ↔ ∀ i, w (f i) = 0 := by
  unfold tally
  rw [Finset.sum_eq_zero_iff]
  exact ⟨fun h i => h i (Finset.mem_univ i), fun h i _ => h i⟩

/-- A positive tally has a process that counts. -/
theorem exists_of_tally_pos {w : L → ℕ} {f : ι → L} (h : 0 < tally w f) : ∃ i, 0 < w (f i) := by
  by_contra hc
  push Not at hc
  have := tally_eq_zero.2 fun i => Nat.le_zero.1 (hc i)
  omega

/-- A tally of weights at most one is at most the number of processes. -/
theorem tally_le_card {w : L → ℕ} {f : ι → L} (h : ∀ i, w (f i) ≤ 1) : tally w f ≤ Fintype.card ι := by
  unfold tally
  calc ∑ i, w (f i) ≤ ∑ _i : ι, 1 := Finset.sum_le_sum fun i _ => h i
    _ = Fintype.card ι := by simp

/-- Weights that are all one count the processes. -/
theorem tally_eq_card {w : L → ℕ} {f : ι → L} (h : ∀ i, w (f i) = 1) : tally w f = Fintype.card ι := by
  unfold tally
  simp [h]

/-- A set of processes that all count is at most the tally. -/
theorem card_le_tally {w : L → ℕ} {f : ι → L} {t : Finset ι} (h : ∀ i ∈ t, 0 < w (f i)) : t.card ≤ tally w f := by
  calc t.card = ∑ _i ∈ t, 1 := by simp
    _ ≤ ∑ i ∈ t, w (f i) := Finset.sum_le_sum fun i hi => h i hi
    _ ≤ tally w f := Finset.sum_le_sum_of_subset (Finset.subset_univ t)

/-- A set of all the processes that count is at least a tally of weights at most one. -/
theorem tally_le_card_of_mem {w : L → ℕ} {f : ι → L} {t : Finset ι} (h1 : ∀ i, w (f i) ≤ 1)
    (h : ∀ i, 0 < w (f i) → i ∈ t) : tally w f ≤ t.card := by
  have h0 : ∀ i ∈ Finset.univ, i ∉ t → w (f i) = 0 := fun i _ hi => by
    by_contra hc
    exact hi (h i (Nat.pos_of_ne_zero hc))
  calc tally w f = ∑ i ∈ t, w (f i) := (Finset.sum_subset (Finset.subset_univ t) h0).symm
    _ ≤ ∑ _i ∈ t, 1 := Finset.sum_le_sum fun i _ => h1 i
    _ = t.card := by simp

end Tally

end Sysopy.Conc
