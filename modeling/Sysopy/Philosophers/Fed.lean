/-
Nobody at the table of cw09/zad1 is ever shut out, for any table size: whatever has happened, every philosopher can be
brought to eat by at most 28 steps, none of which is a wait that ends by itself. The thread in the critical section
goes out of it, the philosopher calls `use`, his left neighbour puts back and then his right one, who passes him to
`change_philo_state` when neither of them eats.
-/
import Sysopy.Conc.Within
import Sysopy.Philosophers.Waking

namespace Sysopy.Philosophers

open Sysopy.Conc

variable {N : ℕ} {g : Shared N} {i j k : Fin N} {s : Pool (Fin N) (Shared N) Pc}

/-- No wait ends by itself. -/
def plain (a : Fin N × Bool) : Prop := a.2 = false

/-! ## Out of the critical section -/

/-- The statements up to the one that releases the mutex. -/
def toGo : Pc → ℕ
  | .useSet | .putSet => 4
  | .useChange | .putLeft => 3
  | .useTest | .putRight => 2
  | .useWait | .usePop | .putPop => 1
  | .thinking | .blocked | .eating => 0

/-- The thread has called `use` and not yet `put_back`. -/
def seated : Pc → Bool
  | .useSet | .useChange | .useTest | .useWait | .blocked | .usePop | .eating => true
  | _ => false

theorem toGo_le (pc : Pc) : toGo pc ≤ 4 := by cases pc <;> decide

theorem exists_out {pc : Pc} (h : holds pc = true) : ∃ g' pc', philo k g pc false = some (g', pc') ∧
    toGo pc' < toGo pc ∧ (holds pc' = false → g'.mutex = none) ∧ (seated pc = true → seated pc' = true) := by
  cases pc with
  | thinking | blocked | eating => cases h
  | useTest =>
    by_cases hwait : g.philoState k = .WAIT
    · exact ⟨g, .useWait, by simp [philo, use, hwait], by decide, by rintro ⟨⟩, fun _ => rfl⟩
    · exact ⟨g, .usePop, by simp [philo, use, hwait], by decide, by rintro ⟨⟩, fun _ => rfl⟩
  | useSet | useChange | putSet | putLeft | putRight => exact ⟨_, _, rfl, by decide, by rintro ⟨⟩, id⟩
  | useWait | usePop | putPop => exact ⟨_, _, rfl, by decide, fun _ => rfl, id⟩

/-- The thread in the critical section goes out of it. -/
theorem within_out (h : holds (s.procs k) = true) : ∃ s', (table N).Within plain 4 s s' ∧ s'.shared.mutex = none ∧
    (seated (s.procs k) = true → seated (s'.procs k) = true) := by
  have hnext : ∀ t : Pool (Fin N) (Shared N) Pc, ((holds (t.procs k) = false → t.shared.mutex = none) ∧
      (seated (s.procs k) = true → seated (t.procs k) = true)) → ¬ holds (t.procs k) = false →
      ∃ a t', plain a ∧ (table N).next t a = some t' ∧ ((holds (t'.procs k) = false → t'.shared.mutex = none) ∧
        (seated (s.procs k) = true → seated (t'.procs k) = true)) ∧ toGo (t'.procs k) < toGo (t.procs k) := by
    rintro t ⟨-, hseated⟩ hin
    obtain ⟨g', pc', hstep, hlt, hfree, hstays⟩ := exists_out (g := t.shared) (k := k) (Bool.not_eq_false _ ▸ hin)
    refine ⟨(k, false), _, rfl, Program.next_eq_some.2 ⟨g', pc', hstep, rfl⟩, ?_⟩
    simp only [Function.update_self]
    exact ⟨⟨hfree, fun hs => hstays (hseated hs)⟩, hlt⟩
  obtain ⟨s', hwithin, ⟨hmutex, hseated⟩, hout⟩ := System.within_of_weight
    (w := fun t : Pool (Fin N) (Shared N) Pc => toGo (t.procs k)) hnext (s := s)
    ⟨fun hc => absurd hc (by rw [h]; decide), id⟩
  exact ⟨s', hwithin.mono (toGo_le _), hmutex hout, hseated⟩

/-- Where the threads are while the mutex is free. -/
theorem place_of_free (hI : Inv s.shared s.procs) (hfree : s.shared.mutex = none) (j : Fin N) :
    s.procs j = .thinking ∨ s.procs j = .blocked ∨ s.procs j = .eating := by
  have hnot : holds (s.procs j) ≠ true := fun hh => by
    rw [hI.mutex.owner hh] at hfree
    cases hfree
  cases hpc : s.procs j with
  | thinking => exact .inl rfl
  | blocked => exact .inr (.inl rfl)
  | eating => exact .inr (.inr rfl)
  | _ => exact absurd (by rw [hpc]; rfl) hnot

theorem lock_of_free (hfree : g.mutex = none) : lock g i = some { g with mutex := some i } :=
  lock_eq_some.2 ⟨hfree, rfl⟩

theorem unlock_lock (hfree : g.mutex = none) : unlock { g with mutex := some i } = g := by
  cases g
  cases hfree
  rfl

/-! ## One philosopher while the mutex is free -/

section Free

variable (hfree : s.shared.mutex = none)

include hfree

/-- He calls `use`, or has done so. -/
theorem within_seated (hI : Inv s.shared s.procs) (i : Fin N) : ∃ s', (table N).Within plain 5 s s' ∧
    s'.shared.mutex = none ∧ seated (s'.procs i) = true := by
  rcases place_of_free hI hfree i with hpc | hpc
  rotate_left
  · exact ⟨s, .refl s, hfree, by rcases hpc with hpc | hpc <;> rw [hpc] <;> rfl⟩
  have hcall : (table N).Within plain 1 s ⟨{ s.shared with mutex := some i }, Function.update s.procs i .useSet⟩ :=
    Program.within_step (a := false) rfl (by rw [hpc]; simp only [philo, use, lock_of_free hfree, Option.map_some])
  obtain ⟨s', hwithin, hfree', hseated⟩ := within_out (k := i)
    (s := ⟨{ s.shared with mutex := some i }, Function.update s.procs i .useSet⟩)
    (by simp only [Function.update_self]; rfl)
  refine ⟨s', (hcall.trans hwithin).mono (by decide), hfree', hseated ?_⟩
  simp only [Function.update_self]
  rfl

/-- He returns from `use` when he is in EAT. -/
theorem within_eating (hI : Inv s.shared s.procs) (hW : Wakeful s.shared s.procs)
    (heat : s.shared.philoState j = .EAT) :
    (table N).Within plain 3 s ⟨s.shared, Function.update s.procs j .eating⟩ := by
  rcases place_of_free hI hfree j with hpc | hpc | hpc
  · have hthink := hI.states j
    rw [hpc, StateOK, heat] at hthink
    cases hthink
  · have hwake : (table N).Within plain 1 s ⟨{ s.shared with mutex := some j }, Function.update s.procs j .useTest⟩ :=
      Program.within_step (a := false) rfl
        (by
          rw [hpc]
          simp only [philo, use, hW.signalled j hpc heat, true_or, if_true, lock_of_free hfree, Option.map_some])
    have htest : (table N).Within plain 2 s ⟨{ s.shared with mutex := some j }, Function.update s.procs j .usePop⟩ :=
      Program.within_again (a := false) hwake rfl (by simp [philo, use, heat])
    have hpop := Program.within_again (a := false) (k := .eating) htest rfl rfl
    rwa [unlock_lock hfree] at hpop
  · have hsame : Function.update s.procs j .eating = s.procs := by rw [← hpc, Function.update_eq_self]
    rw [hsame]
    exact .refl s

/-- What `put_back(j)` makes of the shared variables. -/
def afterPutBack (g : Shared N) (j : Fin N) : Shared N :=
  unlock (changePhiloState (changePhiloState
    { g with mutex := some j, philoState := Function.update g.philoState j .THINK } (left j)) (right j))

theorem within_putBack (hpc : s.procs j = .eating) :
    (table N).Within plain 5 s ⟨afterPutBack s.shared j, Function.update s.procs j .thinking⟩ := by
  have hlock : (table N).Within plain 1 s ⟨{ s.shared with mutex := some j }, Function.update s.procs j .putSet⟩ :=
    Program.within_step (a := false) rfl (by rw [hpc]; simp only [philo, putBack, lock_of_free hfree, Option.map_some])
  have hset := Program.within_again (a := false) (k := .putLeft) hlock rfl rfl
  have hleft := Program.within_again (a := false) (k := .putRight) hset rfl rfl
  have hright := Program.within_again (a := false) (k := .putPop) hleft rfl rfl
  exact Program.within_again (a := false) (k := .thinking) hright rfl rfl

/-- A philosopher in EAT returns from `use` and puts back. -/
theorem within_leaves (hI : Inv s.shared s.procs) (hW : Wakeful s.shared s.procs)
    (heat : s.shared.philoState j = .EAT) :
    (table N).Within plain 8 s ⟨afterPutBack s.shared j, Function.update s.procs j .thinking⟩ := by
  have hputs := within_putBack (s := ⟨s.shared, Function.update s.procs j .eating⟩) hfree (Function.update_self ..)
  rw [Function.update_idem] at hputs
  exact (within_eating hfree hI hW heat).trans hputs

theorem attended_of_free (hI : Inv s.shared s.procs) (hW : Wakeful s.shared s.procs)
    (hwait : s.shared.philoState i = .WAIT) : Attended s.shared i := by
  rcases hW.waiting i hwait with h | ⟨k, hk⟩
  · exact h
  · rcases place_of_free hI hfree k with hpc | hpc | hpc
    all_goals
      rw [hpc] at hk
      exact hk.elim

end Free

/-! ## What his neighbours leave to a philosopher -/

theorem afterPutBack_self (g : Shared N) (j : Fin N) : (afterPutBack g j).philoState j = .THINK :=
  changePhiloState_eq_THINK.2 (changePhiloState_eq_THINK.2 (Function.update_self ..))

theorem afterPutBack_eq_THINK (hij : i ≠ j) : (afterPutBack g j).philoState i = .THINK ↔ g.philoState i = .THINK := by
  refine changePhiloState_eq_THINK.trans (changePhiloState_eq_THINK.trans ?_)
  simp only [Function.update_of_ne hij]

/-- The right neighbour examines a philosopher whose left neighbour does not eat. -/
theorem afterPutBack_right (hN : 2 ≤ N) (hwait : g.philoState i = .WAIT) (hleft : g.philoState (left i) ≠ .EAT) :
    (afterPutBack g (right i)).philoState i = .EAT := by
  refine changePhiloState_eq_EAT.2 (.inl (changePhiloState_eq_EAT.2 (.inr ⟨(left_right i).symm, ?_⟩)))
  simp only [left_right, Function.update_self, Function.update_of_ne (right_ne hN i).symm]
  refine ⟨hwait, ?_, by rintro ⟨⟩⟩
  -- at a table of two both neighbours are one
  by_cases hsame : left i = right i
  · rw [hsame, Function.update_self]
    rintro ⟨⟩
  · rwa [Function.update_of_ne hsame]

section Fed

variable (hN : 2 ≤ N)

include hN

/-- With the left neighbour not eating. -/
theorem within_eat_right (hs : (table N).Reachable s) (hfree : s.shared.mutex = none)
    (hthink : s.shared.philoState i ≠ .THINK) (hleft : s.shared.philoState (left i) ≠ .EAT) :
    ∃ s', (table N).Within plain 8 s s' ∧ s'.shared.mutex = none ∧ s'.shared.philoState i = .EAT := by
  obtain ⟨hI, hW⟩ := reachable_wakeful hN hs
  cases hstate : s.shared.philoState i with
  | THINK => exact absurd hstate hthink
  | EAT => exact ⟨s, .refl s, hfree, hstate⟩
  | WAIT =>
    have hright : s.shared.philoState (right i) = .EAT := (attended_of_free hfree hI hW hstate).resolve_left hleft
    exact ⟨_, within_leaves hfree hI hW hright, rfl, afterPutBack_right hN hstate hleft⟩

/-- A philosopher who has called `use` is let eat. -/
theorem within_eat (hs : (table N).Reachable s) (hfree : s.shared.mutex = none)
    (hthink : s.shared.philoState i ≠ .THINK) :
    ∃ s', (table N).Within plain 16 s s' ∧ s'.shared.mutex = none ∧ s'.shared.philoState i = .EAT := by
  by_cases hleft : s.shared.philoState (left i) = .EAT
  · obtain ⟨hI, hW⟩ := reachable_wakeful hN hs
    have hne : i ≠ left i := fun h => right_ne hN (left i) (by rw [right_left]; exact h)
    have hleaves := within_leaves hfree hI hW hleft
    obtain ⟨s', hwithin, hfree', heat⟩ := within_eat_right hN (i := i) (hleaves.reachable hs) rfl
      (fun h => hthink ((afterPutBack_eq_THINK hne).1 h)) (by rw [afterPutBack_self]; rintro ⟨⟩)
    exact ⟨s', hleaves.trans hwithin, hfree', heat⟩
  · obtain ⟨s', hwithin, hfree', heat⟩ := within_eat_right hN hs hfree hthink hleft
    exact ⟨s', hwithin.mono (by decide), hfree', heat⟩

/-- From every state that is reached, every philosopher can be brought to return from `use` by at most 28 steps, however
large the table is and without a wait that ends by itself. -/
theorem always_fed (hs : (table N).Reachable s) (i : Fin N) :
    ∃ s', (table N).Within plain 28 s s' ∧ s'.procs i = .eating := by
  obtain ⟨s₁, hout, hfree₁⟩ : ∃ s₁, (table N).Within plain 4 s s₁ ∧ s₁.shared.mutex = none := by
    cases hmutex : s.shared.mutex with
    | none => exact ⟨s, .refl s, hmutex⟩
    | some k =>
      obtain ⟨s₁, hwithin, hfree, -⟩ := within_out (((reachable_inv hN hs).mutex k).2 hmutex)
      exact ⟨s₁, hwithin, hfree⟩
  have hs₁ := hout.reachable hs
  obtain ⟨s₂, hcall, hfree₂, hseated⟩ := within_seated hfree₁ (reachable_inv hN hs₁) i
  have hs₂ := hcall.reachable hs₁
  have hthink : s₂.shared.philoState i ≠ .THINK := by
    have hstate := (reachable_inv hN hs₂).states i
    rcases place_of_free (reachable_inv hN hs₂) hfree₂ i with hpc | hpc | hpc <;> rw [hpc] at hseated hstate
    · cases hseated
    · exact hstate
    · rw [StateOK] at hstate
      rw [hstate]
      rintro ⟨⟩
  obtain ⟨s₃, hlet, hfree₃, heat⟩ := within_eat hN hs₂ hfree₂ hthink
  obtain ⟨hI, hW⟩ := reachable_wakeful hN (hlet.reachable hs₂)
  exact ⟨_, ((hout.trans hcall).trans hlet).trans (within_eating hfree₃ hI hW heat), Function.update_self ..⟩

end Fed

/-- Philosopher 1 of five sleeps beside philosopher 0, who eats. -/
theorem always_fed_five : ∃ s, (table 5).run emptyTable firstEats = some s ∧ s.procs 1 = .blocked ∧
    ∃ s', (table 5).Within plain 28 s s' ∧ s'.procs 1 = .eating := by
  refine ⟨_, rfl, rfl, ?_⟩
  exact always_fed (by decide) (System.Reachable.run firstEats (.init emptyTable_started) rfl) 1

end Sysopy.Philosophers
