/-
Nobody at the table of cw09/zad1 waits in vain, for any table size and any interleaving: while the mutex is
free a philosopher in WAIT sits beside one in EAT, and one who was set to EAT while his thread was inside
`pthread_cond_wait` has been signalled. The invariant says which waiting philosophers the thread in the
critical section has still to examine.
-/
import Sysopy.Philosophers.Exclusion

namespace Sysopy.Philosophers

open Sysopy.Conc

variable {N : ℕ}

/-- One of the neighbours eats. -/
def Attended (g : Shared N) (j : Fin N) : Prop := g.philoState (left j) = .EAT ∨ g.philoState (right j) = .EAT

/-- The philosophers that thread `i` has still to pass to `change_philo_state`. -/
def Unexamined (i : Fin N) : Pc → Fin N → Prop
  | .useChange, j => j = i
  | .putLeft, j => j = left i ∨ j = right i
  | .putRight, j => j = right i
  | _, _ => False

/-- A waiting philosopher has an eating neighbour or is about to be examined, and a thread in
`pthread_cond_wait` whose philosopher may eat has been signalled. -/
structure Wakeful (g : Shared N) (procs : Fin N → Pc) : Prop where
  waiting : ∀ j, g.philoState j = .WAIT → Attended g j ∨ ∃ i, Unexamined i (procs i) j
  signalled : ∀ j, procs j = .blocked → g.philoState j = .EAT → g.signalled j = true

/-! ## What `change_philo_state` does for the waiting -/

section Change

variable {g : Shared N} {i j : Fin N}

theorem Attended.change (h : Attended g j) (i : Fin N) : Attended (changePhiloState g i) j :=
  h.imp (fun h => changePhiloState_eq_EAT.2 (.inl h)) fun h => changePhiloState_eq_EAT.2 (.inl h)

/-- It makes nobody wait. -/
theorem wait_of_change (h : (changePhiloState g i).philoState j = .WAIT) : g.philoState j = .WAIT := by
  cases hj : g.philoState j with
  | WAIT => rfl
  | THINK =>
    rw [changePhiloState_eq_THINK.2 hj] at h
    cases h
  | EAT =>
    rw [changePhiloState_eq_EAT.2 (.inl hj)] at h
    cases h

/-- A philosopher who still waits after he was examined has an eating neighbour. -/
theorem attended_of_change (h : (changePhiloState g i).philoState i = .WAIT) : Attended (changePhiloState g i) i := by
  have hw := wait_of_change h
  by_contra hc
  have hleft : g.philoState (left i) ≠ .EAT := fun he => hc (.inl (changePhiloState_eq_EAT.2 (.inl he)))
  have hright : g.philoState (right i) ≠ .EAT := fun he => hc (.inr (changePhiloState_eq_EAT.2 (.inl he)))
  rw [changePhiloState_eq_EAT.2 (.inr ⟨rfl, hw, hleft, hright⟩)] at h
  cases h

/-- Whoever may eat from now on is signalled. -/
theorem changePhiloState_signalled (h : g.philoState j = .EAT → g.signalled j = true)
    (he : (changePhiloState g i).philoState j = .EAT) : (changePhiloState g i).signalled j = true := by
  unfold changePhiloState at he ⊢
  split at he
  · rename_i hc
    rw [if_pos hc]
    by_cases hj : j = i
    · subst hj
      exact Function.update_self ..
    · simp only [Function.update_of_ne hj] at he ⊢
      exact h he
  · rename_i hc
    rw [if_neg hc]
    exact h he

end Change

/-! ## One step -/

section Step

variable {g g' : Shared N} {procs : Fin N → Pc} {i : Fin N} {pc' : Pc}

/-- A step of thread `i` after which every waiting philosopher it leaves unexamined was waiting before with an
eating neighbour or was examined by now. -/
theorem Wakeful.update (hW : Wakeful g procs)
    (hw : ∀ j, g'.philoState j = .WAIT → g.philoState j = .WAIT ∨ Attended g' j ∨ Unexamined i pc' j)
    (ha : ∀ j, g'.philoState j = .WAIT → Attended g j → Attended g' j ∨ Unexamined i pc' j)
    (hu : ∀ j, g'.philoState j = .WAIT → Unexamined i (procs i) j → Attended g' j ∨ Unexamined i pc' j)
    (hs : ∀ j, Function.update procs i pc' j = .blocked → g'.philoState j = .EAT → g'.signalled j = true) :
    Wakeful g' (Function.update procs i pc') := by
  refine ⟨fun j hj => ?_, hs⟩
  have hself : Attended g' j ∨ Unexamined i pc' j →
      Attended g' j ∨ ∃ k, Unexamined k (Function.update procs i pc' k) j :=
    fun h => h.imp_right fun h => ⟨i, by rwa [Function.update_self]⟩
  rcases hw j hj with hold | h
  · rcases hW.waiting j hold with h | ⟨k, hk⟩
    · exact hself (ha j hj h)
    · by_cases hki : k = i
      · subst hki
        exact hself (hu j hj hk)
      · exact .inr ⟨k, by rwa [Function.update_of_ne hki]⟩
  · exact hself h

/-- The threads in `pthread_cond_wait` after thread `i` has gone on to a place outside it. -/
theorem Wakeful.signalled_update (hW : Wakeful g procs) (hpc : pc' ≠ .blocked)
    (h : ∀ j, procs j = .blocked → (g.philoState j = .EAT → g.signalled j = true) →
      g'.philoState j = .EAT → g'.signalled j = true) (j : Fin N) (hj : Function.update procs i pc' j = .blocked) :
    g'.philoState j = .EAT → g'.signalled j = true := by
  by_cases hji : j = i
  · subst hji
    rw [Function.update_self] at hj
    exact absurd hj hpc
  · rw [Function.update_of_ne hji] at hj
    exact h j hj (hW.signalled j hj)

/-- A step that only moves the thread on, when it has nobody left to examine. -/
theorem Wakeful.move (hW : Wakeful g procs) (hg : g'.philoState = g.philoState) (hs : g'.signalled = g.signalled)
    (hu : ∀ j, ¬ Unexamined i (procs i) j) (hpc : pc' ≠ .blocked) : Wakeful g' (Function.update procs i pc') := by
  have hatt : ∀ j, Attended g j → Attended g' j := fun j h => by
    unfold Attended at h ⊢
    rwa [hg]
  refine hW.update (fun j hj => .inl (by rwa [hg] at hj)) (fun j _ h => .inl (hatt j h))
    (fun j _ h => absurd h (hu j)) (hW.signalled_update hpc fun j _ h => ?_)
  rw [hg, hs]
  exact h

/-- A step that examines philosopher `k`. -/
theorem Wakeful.examine (hW : Wakeful g procs) (k : Fin N) (hpc : pc' ≠ .blocked)
    (hu : ∀ j, Unexamined i (procs i) j → j = k ∨ Unexamined i pc' j) :
    Wakeful (changePhiloState g k) (Function.update procs i pc') := by
  refine hW.update (fun j hj => .inl (wait_of_change hj)) (fun j _ h => .inl (h.change k)) (fun j hj h => ?_)
    (hW.signalled_update hpc fun j _ h => changePhiloState_signalled h)
  rcases hu j h with rfl | h
  · exact .inl (attended_of_change hj)
  · exact .inr h

/-- A step that sets the entry of thread `i`. -/
theorem Wakeful.set (hW : Wakeful g procs) {st : PhiloState} (hpc : pc' ≠ .blocked)
    (hu : ∀ j, ¬ Unexamined i (procs i) j) (hwait : st = .WAIT → Unexamined i pc' i)
    (hleft : g.philoState i = .EAT → Unexamined i pc' (left i) ∧ Unexamined i pc' (right i))
    (hblocked : procs i ≠ .blocked) :
    Wakeful { g with philoState := Function.update g.philoState i st } (Function.update procs i pc') := by
  -- a neighbour who no longer eats is `i`, and he examines both sides
  have hkeep : ∀ k, g.philoState k = .EAT → Function.update g.philoState i st k = .EAT ∨ k = i := fun k hk => by
    by_cases hki : k = i
    · exact .inr hki
    · left
      rwa [Function.update_of_ne hki]
  refine hW.update (fun j hj => ?_) (fun j _ h => ?_) (fun j _ h => absurd h (hu j))
    (hW.signalled_update hpc fun j hj h he => ?_)
  · by_cases hji : j = i
    · subst hji
      simp only [Function.update_self] at hj
      exact .inr (.inr (hwait hj))
    · left
      simpa only [Function.update_of_ne hji] using hj
  · rcases h with h | h
    · rcases hkeep _ h with h' | h'
      · exact .inl (.inl h')
      · rw [h'] at h
        right
        rw [← right_left j, h']
        exact (hleft h).2
    · rcases hkeep _ h with h' | h'
      · exact .inl (.inr h')
      · rw [h'] at h
        right
        rw [← left_right j, h']
        exact (hleft h).1
  · have hji : j ≠ i := by
      rintro rfl
      exact hblocked hj
    simp only [Function.update_of_ne hji] at he
    exact h he

/-- One step of one philosopher keeps everybody awake. -/
theorem wakeful_step {spurious : Bool} (hI : Inv g procs) (hW : Wakeful g procs)
    (h : philo i g (procs i) spurious = some (g', pc')) : Wakeful g' (Function.update procs i pc') := by
  have hs := hI.states i
  cases hpc : procs i <;> rw [hpc] at h hs <;> simp only [philo, use, putBack, Option.some.injEq, Prod.mk.injEq] at h
  case thinking | eating =>
    obtain ⟨_, hl, he⟩ := Option.map_eq_some_iff.1 h
    obtain ⟨-, rfl⟩ := lock_eq_some.1 hl
    cases he
    exact hW.move rfl rfl (fun j => by rw [hpc]; exact id) (by rintro ⟨⟩)
  case useSet =>
    obtain ⟨rfl, rfl⟩ := h
    refine hW.set (by rintro ⟨⟩) (fun j => by rw [hpc]; exact id) (fun _ => rfl) (fun he => ?_) (by rw [hpc]; rintro ⟨⟩)
    rw [hs] at he
    cases he
  case useChange =>
    obtain ⟨rfl, rfl⟩ := h
    exact hW.examine i (by rintro ⟨⟩) fun j hj => by rw [hpc] at hj; exact .inl hj
  case useTest =>
    obtain ⟨rfl, rfl⟩ := h
    exact hW.move rfl rfl (fun j => by rw [hpc]; exact id) (by split <;> rintro ⟨⟩)
  case useWait =>
    obtain ⟨rfl, rfl⟩ := h
    -- the thread begins to wait for a signal when its entry is WAIT
    refine hW.update (fun j hj => .inl hj) (fun j _ h => .inl h) (fun j _ h => by rw [hpc] at h; exact h.elim)
      fun j hj he => ?_
    by_cases hji : j = i
    · subst hji
      exact absurd (hs.symm.trans he) (by decide)
    · rw [Function.update_of_ne hji] at hj
      simp only [Function.update_of_ne hji]
      exact hW.signalled j hj he
  case blocked =>
    split at h
    · obtain ⟨_, hl, he⟩ := Option.map_eq_some_iff.1 h
      obtain ⟨-, rfl⟩ := lock_eq_some.1 hl
      cases he
      exact hW.move rfl rfl (fun j => by rw [hpc]; exact id) (by rintro ⟨⟩)
    · cases h
  case usePop | putPop =>
    obtain ⟨rfl, rfl⟩ := h
    exact hW.move rfl rfl (fun j => by rw [hpc]; exact id) (by rintro ⟨⟩)
  case putSet =>
    obtain ⟨rfl, rfl⟩ := h
    exact hW.set (by rintro ⟨⟩) (fun j => by rw [hpc]; exact id) (by rintro ⟨⟩) (fun _ => ⟨.inl rfl, .inr rfl⟩)
      (by rw [hpc]; rintro ⟨⟩)
  case putLeft =>
    obtain ⟨rfl, rfl⟩ := h
    exact hW.examine (left i) (by rintro ⟨⟩) fun j hj => by rw [hpc] at hj; exact hj
  case putRight =>
    obtain ⟨rfl, rfl⟩ := h
    exact hW.examine (right i) (by rintro ⟨⟩) fun j hj => by rw [hpc] at hj; exact .inl hj

end Step

theorem reachable_wakeful (hN : 2 ≤ N) {s : Pool (Fin N) (Shared N) Pc} (h : (table N).Reachable s) :
    Inv s.shared s.procs ∧ Wakeful s.shared s.procs := by
  refine Program.invariant (I := fun g procs => Inv g procs ∧ Wakeful g procs) (fun s hs => ⟨started_inv hs, ?_⟩)
    (fun _ _ _ _ _ _ hI hstep => ⟨inv_step hN hI.1 hstep, wakeful_step hI.1 hI.2 hstep⟩) h
  obtain ⟨hg, hp⟩ := hs
  refine ⟨fun j hj => ?_, fun j hj => ?_⟩
  · rw [hg] at hj
    cases hj
  · rw [hp j] at hj
    cases hj

/-- In every run of a table of two or more: while the mutex is free, whoever waits sits beside somebody who
eats, and whoever has been let eat while his thread was inside `pthread_cond_wait` has been signalled since
that wait began. So as long as somebody waits somebody eats. -/
theorem no_lost_wakeup (hN : 2 ≤ N) {s : Pool (Fin N) (Shared N) Pc} (h : (table N).Reachable s)
    (hfree : s.shared.mutex = none) :
    (∀ i, s.shared.philoState i = .WAIT →
      s.shared.philoState (left i) = .EAT ∨ s.shared.philoState (right i) = .EAT) ∧
    (∀ i, s.procs i = .blocked → s.shared.philoState i = .EAT → s.shared.signalled i = true) ∧
    ((∃ i, s.shared.philoState i = .WAIT) → ∃ j, s.shared.philoState j = .EAT) := by
  obtain ⟨hI, hW⟩ := reachable_wakeful hN h
  have hattended : ∀ i, s.shared.philoState i = .WAIT → Attended s.shared i := fun i hi => by
    rcases hW.waiting i hi with h | ⟨k, hk⟩
    · exact h
    · -- a thread that has yet to examine somebody holds the mutex
      have hholds : holds (s.procs k) = true := by
        cases hpc : s.procs k <;> rw [hpc] at hk <;> first | rfl | exact hk.elim
      have := hI.mutex.owner hholds
      rw [hfree] at this
      cases this
  refine ⟨hattended, hW.signalled, ?_⟩
  rintro ⟨i, hi⟩
  rcases hattended i hi with h | h
  · exact ⟨_, h⟩
  · exact ⟨_, h⟩

/-- Philosopher 1 of five goes to sleep beside philosopher 0, who eats and then puts back. -/
def firstEats : List (Fin 5 × Bool) :=
  List.replicate 5 (0, false) ++ List.replicate 5 (1, false)

theorem no_lost_wakeup_five : ∃ s, (table 5).run emptyTable (firstEats ++ List.replicate 5 (0, false)) = some s ∧
    s.procs 1 = .blocked ∧ s.shared.philoState 1 = .EAT ∧ s.shared.signalled 1 = true := by
  refine ⟨_, rfl, rfl, rfl, ?_⟩
  exact (no_lost_wakeup (by decide) (System.Reachable.run (firstEats ++ List.replicate 5 (0, false))
    (.init emptyTable_started) rfl) rfl).2.1 1 rfl rfl

end Sysopy.Philosophers
