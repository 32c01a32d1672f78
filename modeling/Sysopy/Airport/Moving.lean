/-
No plane of cw09/zad2 is ever kept where it is, for any constants `1 ≤ K ≤ N` and any number of planes from `K` on:
whatever has happened, each can be brought to land or to take off. A signal may wake a plane that has to go on waiting,
and planes sleep that could go on; but fewer than `K` sleep before take-off, and all but `K` at most before landing. So
with fewer than `K` on board somebody is awake to land, and with `K` or more somebody to take off.
-/
import Sysopy.Airport.Deadlock
import Sysopy.Conc.Within

namespace Sysopy.Airport

open Sysopy.Conc

variable {ι : Type*} [DecidableEq ι]

/-! ## Sleeping planes -/

section Sleeping

variable [Fintype ι] {N K : ℕ} {g g' : Shared ι} {procs : ι → Pc} {p w : ι} {l' : Pc} {s : Pool ι (Shared ι) Pc}

omit [Fintype ι] in
/-- Only a plane that has found it has to wait comes to the planes that sleep before landing. -/
theorem tookOff_of_plane {l : Pc} (h : plane N K p g l w = some (g', l')) :
    g'.tookOff ⊆ g.tookOff ∨ (l = .waitLand ∧ g'.tookOff = insert p g.tookOff) := by
  have hlock : ∀ {m : Mtx} {g₁ : Shared ι}, lock g m p = some g₁ → g₁.tookOff = g.tookOff := fun hl => by
    rw [(lock_eq_some.1 hl).2]
  cases l <;> simp only [plane, Option.some.injEq, Option.map_eq_some_iff, Prod.mk.injEq] at h
  case lockWaitLand | lockStripLand | lockTestLand | lockDecLand | lockWaitTakeoff | lockStripTakeoff |
      lockTestTakeoff | lockDecTakeoff =>
    obtain ⟨_, hl, rfl, -⟩ := h
    exact .inl (hlock hl).subset
  case insideWaitLand | insideWaitTakeoff =>
    split at h
    · cases h
    · obtain ⟨⟨g₁, l₁⟩, hl, he⟩ := Option.map_eq_some_iff.1 h
      cases he
      exact .inl (hlock hl).subset
  case signalLanded =>
    obtain ⟨_, -, rfl, -⟩ := h
    exact .inl (Finset.Subset.refl _)
  case signalTookOff =>
    obtain ⟨_, hs, rfl, -⟩ := h
    exact .inl (signal_subset hs)
  case waitLand =>
    obtain ⟨rfl, -⟩ := h
    exact .inr ⟨rfl, rfl⟩
  all_goals
    obtain ⟨rfl, -⟩ := h
    exact .inl (Finset.Subset.refl _)

/-- Planes that sleep before landing are not on board. -/
theorem Inv.asleep_le (hI : Inv K g procs) : g.tookOff.card + tally onBoard procs ≤ Fintype.card ι := by
  have hle : tally onBoard procs ≤ g.tookOffᶜ.card := by
    refine tally_le_card_of_mem (fun q => ?_) fun q hq => ?_
    · cases procs q <;> decide
    · rw [Finset.mem_compl]
      intro hsleeps
      rw [hI.tookOff q hsleeps] at hq
      exact absurd hq (by decide)
  rw [Finset.card_compl] at hle
  have := Finset.card_le_univ g.tookOff
  omega

/-- There are always `K` planes that do not sleep before landing. -/
theorem reachable_asleep (hK : 1 ≤ K) (hKN : K ≤ N) (hP : K ≤ Fintype.card ι) (h : (airport ι N K).Reachable s) :
    s.shared.tookOff.card + K ≤ Fintype.card ι := by
  refine h.invariant (I := fun s => s.shared.tookOff.card + K ≤ Fintype.card ι) ?_ ?_
  · rintro s ⟨hg, -⟩
    rw [hg]
    simpa using hP
  · rintro s ⟨p, w⟩ s' hs hle hstep
    have hI' := reachable_inv hK hKN (hs.next hstep)
    obtain ⟨g', l', hplane, rfl⟩ := Program.next_eq_some.1 hstep
    rcases tookOff_of_plane hplane with hsub | ⟨hpc, -⟩
    · exact (Nat.add_le_add_right (Finset.card_le_card hsub) K).trans hle
    · -- it has seen `K` planes on board, and still holds the strip
      have hfull := (reachable_inv hK hKN hs).locals p
      rw [hpc] at hfull hplane
      have hboard : g'.planesOnBoard = s.shared.planesOnBoard := by
        cases hplane
        rfl
      have hasleep := hI'.asleep_le
      have htally := hI'.board
      simp only [LocalOK] at hfull hasleep htally
      simp only
      omega

/-- With fewer than `K` planes on board one in the air is awake. -/
theorem exists_toLand (hK : 1 ≤ K) (hKN : K ≤ N) (hP : K ≤ Fintype.card ι) (h : (airport ι N K).Reachable s)
    (hfew : s.shared.planesOnBoard < K) : ∃ q, onBoard (s.procs q) = 0 ∧ q ∉ s.shared.tookOff := by
  by_contra hc
  push Not at hc
  have hall : ∀ q ∈ s.shared.tookOffᶜ, 0 < onBoard (s.procs q) := fun q hq => by
    by_contra h0
    exact Finset.mem_compl.1 hq (hc q (by omega))
  have hle := card_le_tally hall
  rw [Finset.card_compl] at hle
  have hasleep := reachable_asleep hK hKN hP h
  have hboard := (reachable_inv hK hKN h).board
  omega

/-- With `K` or more on board one of them is awake. -/
theorem exists_toTakeoff (hK : 1 ≤ K) (hKN : K ≤ N) (h : (airport ι N K).Reachable s)
    (hmany : (K : ℤ) ≤ s.shared.planesOnBoard) : ∃ q, onBoard (s.procs q) = 1 ∧ q ∉ s.shared.landed := by
  have hone : ∀ pc, onBoard pc ≤ 1 := fun pc => by cases pc <;> decide
  by_contra hc
  push Not at hc
  have hle := tally_le_card_of_mem (w := onBoard) (f := s.procs) (t := s.shared.landed) (fun q => hone _)
    fun q hq => hc q (by have := hone (s.procs q); omega)
  have hI := reachable_inv hK hKN h
  have hboard := hI.board
  have hfew := hI.few
  omega

end Sleeping

/-! ## Off the mutexes -/

/-- The steps up to the end of this half of the loop when the plane need not wait; to the release of the strip when it
has found that it must. -/
def toGo : Pc → ℕ
  | .unlockStripLand | .unlockStripTakeoff | .waitLand | .waitTakeoff => 1
  | .signalLanded | .signalTookOff | .unlockTestLand | .unlockTestTakeoff => 2
  | .incBoard | .decBoard => 3
  | .unlockDecLand | .unlockDecTakeoff => 4
  | .decWaitLand | .decWaitTakeoff => 5
  | .lockDecLand | .lockDecTakeoff => 6
  | .unlockLand | .unlockTakeoff => 7
  | .testLand | .testTakeoff => 8
  | .lockTestLand | .lockTestTakeoff => 9
  | .lockStripLand | .lockStripTakeoff | .insideWaitLand | .insideWaitTakeoff => 10
  | .unlockWaitLand | .unlockWaitTakeoff => 11
  | .incWaitLand | .incWaitTakeoff => 12
  | .lockWaitLand | .lockWaitTakeoff => 13

/-- The plane holds a mutex. -/
def busy (pc : Pc) : Bool := holds .landingstrip pc || holds .waitingToTakeoffMutex pc || holds .waitingToLandMutex pc

/-- What a plane has to do until it holds no mutex. -/
def busyFor (pc : Pc) : ℕ := if busy pc then toGo pc else 0

theorem busyFor_le (pc : Pc) : busyFor pc ≤ 13 := by cases pc <;> decide

theorem busy_of_holds {m : Mtx} {pc : Pc} (h : holds m pc = true) : busy pc = true := by
  cases m <;> simp [busy, h]

theorem busyFor_step {N K : ℕ} {g g' : Shared ι} {p w : ι} {l l' : Pc} (hbusy : busy l = true)
    (h : plane N K p g l w = some (g', l')) : busyFor l' < busyFor l := by
  cases l <;> simp only [plane, Option.some.injEq, Option.map_eq_some_iff, Prod.mk.injEq] at h
  case lockWaitLand | lockStripLand | lockWaitTakeoff | lockStripTakeoff | insideWaitLand | insideWaitTakeoff =>
    cases hbusy
  case lockTestLand | lockDecLand | lockTestTakeoff | lockDecTakeoff | signalLanded | signalTookOff =>
    obtain ⟨_, -, -, rfl⟩ := h
    decide
  case testLand | testTakeoff =>
    obtain ⟨-, rfl⟩ := h
    split <;> decide
  all_goals
    obtain ⟨-, rfl⟩ := h
    decide

/-- Any step of the planes. -/
def anyStep (_ : ι × ι) : Prop := True

/-- Nobody holds a mutex. -/
structure Calm (N K : ℕ) (s : Pool ι (Shared ι) Pc) : Prop where
  reachable : (airport ι N K).Reachable s
  free : ∀ m, s.shared.mutex m = none

section Calm

variable [Fintype ι] {N K : ℕ} {s : Pool ι (Shared ι) Pc} {p q : ι}

/-- As long as some plane holds a mutex, one that does takes a step. -/
theorem exists_busy_step (hI : Inv K s.shared s.procs) (hp : busy (s.procs p) = true) :
    ∃ q w g' l', busy (s.procs q) = true ∧ plane N K q s.shared (s.procs q) w = some (g', l') := by
  have hmoves : ∀ q, busy (s.procs q) = true → ¬ Blocked s q → ∃ q w g' l', busy (s.procs q) = true ∧
      plane N K q s.shared (s.procs q) w = some (g', l') := by
    intro q hq hb
    rw [blocked_iff (N := N) (K := K)] at hb
    push Not at hb
    obtain ⟨w, hw⟩ := hb
    obtain ⟨⟨g', l'⟩, hstep⟩ := Option.ne_none_iff_exists'.1 hw
    exact ⟨q, w, g', l', hq, hstep⟩
  by_cases hinner : ∃ m, m ≠ .landingstrip ∧ s.shared.mutex m ≠ none
  · obtain ⟨m, hm, hheld⟩ := hinner
    obtain ⟨q, hq⟩ := Option.ne_none_iff_exists'.1 hheld
    have hholds := (hI.mutex m q).2 hq
    exact hmoves q (busy_of_holds hholds) (not_blocked_of_holds hm hholds)
  · -- the holder of the strip waits for an inner mutex only
    push Not at hinner
    refine hmoves p hp ?_
    have hwants : ∀ pc : Pc, busy pc = true →
        wants pc ≠ some .landingstrip ∧ pc ≠ .insideWaitLand ∧ pc ≠ .insideWaitTakeoff := by
      intro pc hpc
      cases pc <;> first | exact ⟨by decide, by decide, by decide⟩ | cases hpc
    obtain ⟨hstrip, hland, htakeoff⟩ := hwants _ hp
    rintro (⟨m, hm, hheld⟩ | ⟨hpc, -⟩ | ⟨hpc, -⟩)
    · exact hheld (hinner m fun h => hstrip (h ▸ hm))
    · exact hland hpc
    · exact htakeoff hpc

/-- From every state, the planes that hold mutexes can go on until none is held. -/
theorem within_calm (hK : 1 ≤ K) (hKN : K ≤ N) (hs : (airport ι N K).Reachable s) : ∃ s',
    (airport ι N K).Within anyStep (13 * Fintype.card ι) s s' ∧ Calm N K s' := by
  have hnext : ∀ t, (airport ι N K).Reachable t → ¬ (∀ q, busy (t.procs q) = false) → ∃ a t', anyStep a ∧
      (airport ι N K).next t a = some t' ∧ (airport ι N K).Reachable t' ∧
      tally busyFor t'.procs < tally busyFor t.procs := by
    intro t ht hbusy
    push Not at hbusy
    obtain ⟨p, hp⟩ := hbusy
    obtain ⟨q, w, g', l', hq, hstep⟩ := exists_busy_step (reachable_inv hK hKN ht) (Bool.eq_true_of_not_eq_false hp)
    have hnext : (airport ι N K).next t (q, w) = some ⟨g', Function.update t.procs q l'⟩ :=
      Program.next_eq_some.2 ⟨g', l', hstep, rfl⟩
    refine ⟨(q, w), _, trivial, hnext, ht.next hnext, ?_⟩
    have htally := tally_update busyFor t.procs q l'
    have hlt := busyFor_step hq hstep
    simp only
    omega
  obtain ⟨s', hwithin, hs', hidle⟩ := System.within_of_weight
    (w := fun t : Pool ι (Shared ι) Pc => tally busyFor t.procs) hnext (s := s) hs
  have hbound : tally busyFor s.procs ≤ 13 * Fintype.card ι := by
    calc tally busyFor s.procs ≤ ∑ _q : ι, 13 := Finset.sum_le_sum fun q _ => busyFor_le _
      _ = 13 * Fintype.card ι := by simp [mul_comm]
  refine ⟨s', hwithin.mono hbound, hs', fun m => ?_⟩
  cases hm : s'.shared.mutex m with
  | none => rfl
  | some q =>
    have hholds := busy_of_holds (((reachable_inv hK hKN hs').mutex m q).2 hm)
    rw [hidle q] at hholds
    cases hholds

end Calm

/-! ## One plane lands while the others stand still -/

/-- Where a landing has come to that has begun in `g`; at its end it wakes `w`. -/
def Landing (g : Shared ι) (w : ι) (g' : Shared ι) : Pc → Prop
  | .lockWaitLand | .incWaitLand | .unlockWaitLand | .lockStripLand | .insideWaitLand | .lockTestLand | .testLand
  | .unlockLand | .lockDecLand | .decWaitLand | .unlockDecLand | .incBoard =>
    g'.planesOnBoard = g.planesOnBoard ∧ g'.landed = g.landed
  | .signalLanded => g'.planesOnBoard = g.planesOnBoard + 1 ∧ g'.landed = g.landed
  | .unlockStripLand | .lockWaitTakeoff => g'.planesOnBoard = g.planesOnBoard + 1 ∧ g'.landed = g.landed.erase w
  | _ => False

theorem signal_erase {waiters : Finset ι} {w : ι} (hw : waiters = ∅ ∨ w ∈ waiters) :
    signal waiters w = some (waiters.erase w) := by
  rcases hw with rfl | hw
  · exact signal_eq_some.2 (.inl ⟨rfl, Finset.erase_empty w⟩)
  · exact signal_eq_some.2 (.inr ⟨hw, rfl⟩)

/-- The steps up to `planes_on_board++` and the end of this half, none of them a wait. -/
theorem landing_step {N K : ℕ} {g₀ g : Shared ι} {p w : ι} {pc : Pc} (hKN : K ≤ N) (hfew : g₀.planesOnBoard < K)
    (hw : g₀.landed = ∅ ∨ w ∈ g₀.landed) (hawake : p ∉ g.tookOff) (hfree : ∀ m, holds m pc = false → g.mutex m = none)
    (hL : Landing g₀ w g pc) (hend : pc ≠ .lockWaitTakeoff) : ∃ g' pc', plane N K p g pc w = some (g', pc') ∧
      g'.tookOff = g.tookOff ∧ Landing g₀ w g' pc' ∧ (pc' ≠ .lockWaitTakeoff → toGo pc' < toGo pc) := by
  have hlock : ∀ {m : Mtx}, holds m pc = false →
      lock g m p = some { g with mutex := Function.update g.mutex m (some p) } := fun hm =>
    lock_eq_some.2 ⟨hfree _ hm, rfl⟩
  cases pc
  case lockWaitLand | lockStripLand | lockTestLand | lockDecLand =>
    exact ⟨_, _, congrArg (Option.map _) (hlock rfl), rfl, hL, fun _ => by decide⟩
  case insideWaitLand =>
    exact ⟨_, _, (if_neg hawake).trans (congrArg (Option.map _) (hlock rfl)), rfl, hL, fun _ => by decide⟩
  case testLand =>
    have hgo : ¬ mustWaitToLand N K g := by
      rintro (hN | ⟨hK, -⟩) <;> have := hL.1 <;> omega
    exact ⟨g, .unlockLand, by rw [plane, if_neg hgo], rfl, hL, fun _ => by decide⟩
  case incWaitLand | unlockWaitLand | unlockLand | decWaitLand | unlockDecLand =>
    exact ⟨_, _, rfl, rfl, hL, fun _ => by decide⟩
  case incBoard =>
    refine ⟨_, _, rfl, rfl, ⟨?_, hL.2⟩, fun _ => by decide⟩
    simp only [hL.1]
  case signalLanded =>
    have hsignal : signal g.landed w = some (g₀.landed.erase w) := by rw [hL.2, signal_erase hw]
    exact ⟨_, _, congrArg (Option.map _) hsignal, rfl, ⟨hL.1, rfl⟩, fun _ => by decide⟩
  case unlockStripLand => exact ⟨_, _, rfl, rfl, hL, fun h => absurd rfl h⟩
  case lockWaitTakeoff => exact absurd rfl hend
  all_goals exact hL.elim

/-- Where a take-off has come to that has begun in `g`; at its end it wakes `w`. -/
def TakingOff (g : Shared ι) (w : ι) (g' : Shared ι) : Pc → Prop
  | .lockWaitTakeoff | .incWaitTakeoff | .unlockWaitTakeoff | .lockStripTakeoff | .insideWaitTakeoff | .lockTestTakeoff
  | .testTakeoff | .unlockTakeoff | .lockDecTakeoff | .decWaitTakeoff | .unlockDecTakeoff | .decBoard =>
    g'.planesOnBoard = g.planesOnBoard ∧ g'.tookOff = g.tookOff
  | .signalTookOff => g'.planesOnBoard = g.planesOnBoard - 1 ∧ g'.tookOff = g.tookOff
  | .unlockStripTakeoff | .lockWaitLand => g'.planesOnBoard = g.planesOnBoard - 1 ∧ g'.tookOff = g.tookOff.erase w
  | _ => False

/-- The steps up to `planes_on_board--` and the end of this half, none of them a wait. -/
theorem takeoff_step {N K : ℕ} {g₀ g : Shared ι} {p w : ι} {pc : Pc} (hmany : (K : ℤ) ≤ g₀.planesOnBoard)
    (hw : g₀.tookOff = ∅ ∨ w ∈ g₀.tookOff) (hawake : p ∉ g.landed) (hfree : ∀ m, holds m pc = false → g.mutex m = none)
    (hT : TakingOff g₀ w g pc) (hend : pc ≠ .lockWaitLand) : ∃ g' pc', plane N K p g pc w = some (g', pc') ∧
      g'.landed = g.landed ∧ TakingOff g₀ w g' pc' ∧ (pc' ≠ .lockWaitLand → toGo pc' < toGo pc) := by
  have hlock : ∀ {m : Mtx}, holds m pc = false →
      lock g m p = some { g with mutex := Function.update g.mutex m (some p) } := fun hm =>
    lock_eq_some.2 ⟨hfree _ hm, rfl⟩
  cases pc
  case lockWaitTakeoff | lockStripTakeoff | lockTestTakeoff | lockDecTakeoff =>
    exact ⟨_, _, congrArg (Option.map _) (hlock rfl), rfl, hT, fun _ => by decide⟩
  case insideWaitTakeoff =>
    exact ⟨_, _, (if_neg hawake).trans (congrArg (Option.map _) (hlock rfl)), rfl, hT, fun _ => by decide⟩
  case testTakeoff =>
    have hgo : ¬ mustWaitToTakeoff K g := by
      rintro ⟨hK, -⟩
      have := hT.1
      omega
    exact ⟨g, .unlockTakeoff, by rw [plane, if_neg hgo], rfl, hT, fun _ => by decide⟩
  case incWaitTakeoff | unlockWaitTakeoff | unlockTakeoff | decWaitTakeoff | unlockDecTakeoff =>
    exact ⟨_, _, rfl, rfl, hT, fun _ => by decide⟩
  case decBoard =>
    refine ⟨_, _, rfl, rfl, ⟨?_, hT.2⟩, fun _ => by decide⟩
    simp only [hT.1]
  case signalTookOff =>
    have hsignal : signal g.tookOff w = some (g₀.tookOff.erase w) := by rw [hT.2, signal_erase hw]
    exact ⟨_, _, congrArg (Option.map _) hsignal, rfl, ⟨hT.1, rfl⟩, fun _ => by decide⟩
  case unlockStripTakeoff => exact ⟨_, _, rfl, rfl, hT, fun h => absurd rfl h⟩
  case lockWaitLand => exact absurd rfl hend
  all_goals exact hT.elim

section Alone

variable [Fintype ι] {N K : ℕ} {s : Pool ι (Shared ι) Pc} {p q w : ι} {e : Pc} {R : Shared ι → Pc → Prop}

theorem Calm.not_busy (hc : Calm N K s) (hK : 1 ≤ K) (hKN : K ≤ N) (q : ι) : busy (s.procs q) = false := by
  have hnot : ∀ m, holds m (s.procs q) = false := fun m => by
    rw [Bool.eq_false_iff]
    intro hh
    have howner := ((reachable_inv hK hKN hc.reachable).mutex m).owner hh
    rw [hc.free m] at howner
    cases howner
  simp [busy, hnot]

/-- While no other plane holds a mutex, one that can take each of its steps comes to the end of its half of the loop. -/
theorem Calm.within_alone (hK : 1 ≤ K) (hKN : K ≤ N) (hc : Calm N K s) (he : busy e = false)
    (hstep : ∀ g pc, (∀ m, holds m pc = false → g.mutex m = none) → R g pc → pc ≠ e →
      ∃ g' pc', plane N K p g pc w = some (g', pc') ∧ R g' pc' ∧ (pc' ≠ e → toGo pc' < toGo pc))
    (h0 : R s.shared (s.procs p)) : ∃ s', (airport ι N K).Within anyStep 13 s s' ∧ Calm N K s' ∧
      (∀ q, q ≠ p → s'.procs q = s.procs q) ∧ s'.procs p = e ∧ R s'.shared e := by
  have hothers : ∀ t : Pool ι (Shared ι) Pc, (airport ι N K).Reachable t → (∀ q, q ≠ p → t.procs q = s.procs q) →
      ∀ m, holds m (t.procs p) = false → t.shared.mutex m = none := by
    intro t ht hsame m hm
    cases howner : t.shared.mutex m with
    | none => rfl
    | some q =>
      have hholds := ((reachable_inv hK hKN ht).mutex m q).2 howner
      by_cases hq : q = p
      · rw [hq, hm] at hholds
        cases hholds
      · rw [hsame q hq] at hholds
        have hbusy := busy_of_holds hholds
        rw [hc.not_busy hK hKN q] at hbusy
        cases hbusy
  have hnext : ∀ t, ((airport ι N K).Reachable t ∧ (∀ q, q ≠ p → t.procs q = s.procs q) ∧ R t.shared (t.procs p)) →
      ¬ t.procs p = e → ∃ a t', anyStep a ∧ (airport ι N K).next t a = some t' ∧ ((airport ι N K).Reachable t' ∧
        (∀ q, q ≠ p → t'.procs q = s.procs q) ∧ R t'.shared (t'.procs p)) ∧
        (if t'.procs p = e then 0 else toGo (t'.procs p)) < if t.procs p = e then 0 else toGo (t.procs p) := by
    rintro t ⟨ht, hsame, hstage⟩ hend
    obtain ⟨g', pc', hplane, hstage', hlt⟩ := hstep _ _ (hothers t ht hsame) hstage hend
    have hnext : (airport ι N K).next t (p, w) = some ⟨g', Function.update t.procs p pc'⟩ :=
      Program.next_eq_some.2 ⟨g', pc', hplane, rfl⟩
    refine ⟨(p, w), _, trivial, hnext, ⟨ht.next hnext, fun q hq => ?_, ?_⟩, ?_⟩
    · simp only [Function.update_of_ne hq, hsame q hq]
    · simpa only [Function.update_self] using hstage'
    · simp only [Function.update_self]
      rw [if_neg hend]
      split
      · cases t.procs p <;> decide
      · exact hlt ‹_›
  obtain ⟨s', hwithin, ⟨hs', hsame, hstage⟩, hend⟩ := System.within_of_weight
    (w := fun t : Pool ι (Shared ι) Pc => if t.procs p = e then 0 else toGo (t.procs p)) hnext (s := s)
    ⟨hc.reachable, fun _ _ => rfl, h0⟩
  have hbound : (if s.procs p = e then 0 else toGo (s.procs p)) ≤ 13 := by
    split
    · decide
    · cases s.procs p <;> decide
  refine ⟨s', hwithin.mono hbound, ⟨hs', fun m => hothers s' hs' hsame m ?_⟩, hsame, hend, hend ▸ hstage⟩
  rw [hend, Bool.eq_false_iff]
  intro hh
  rw [busy_of_holds hh] at he
  cases he

/-- A plane that is awake lands while fewer than `K` are on board, and wakes who it should before take-off. -/
theorem Calm.within_landing (hK : 1 ≤ K) (hKN : K ≤ N) (hc : Calm N K s) (hair : onBoard (s.procs p) = 0)
    (hawake : p ∉ s.shared.tookOff) (hfew : s.shared.planesOnBoard < K)
    (hw : s.shared.landed = ∅ ∨ w ∈ s.shared.landed) : ∃ s', (airport ι N K).Within anyStep 13 s s' ∧ Calm N K s' ∧
      (∀ q, q ≠ p → s'.procs q = s.procs q) ∧ onBoard (s'.procs p) = 1 ∧ s'.shared.tookOff = s.shared.tookOff ∧
      s'.shared.planesOnBoard = s.shared.planesOnBoard + 1 ∧ s'.shared.landed = s.shared.landed.erase w := by
  have hbegin : Landing s.shared w s.shared (s.procs p) := by
    have hbusy := hc.not_busy hK hKN p
    generalize s.procs p = pc at hair hbusy
    cases pc <;> first | exact ⟨rfl, rfl⟩ | exact absurd hair (by decide) | exact absurd hbusy (by decide)
  obtain ⟨s', hwithin, hc', hsame, hend, htookOff, hboard, hlanded⟩ := hc.within_alone hK hKN (e := .lockWaitTakeoff)
    (R := fun g pc => g.tookOff = s.shared.tookOff ∧ Landing s.shared w g pc) rfl
    (fun g pc hfree hstage hne => by
      obtain ⟨g', pc', hplane, htook, hL, hlt⟩ := landing_step hKN hfew hw (hstage.1.symm ▸ hawake) hfree hstage.2 hne
      exact ⟨g', pc', hplane, ⟨htook.trans hstage.1, hL⟩, hlt⟩) ⟨rfl, hbegin⟩
  exact ⟨s', hwithin, hc', hsame, by rw [hend]; rfl, htookOff, hboard, hlanded⟩

/-- A plane that is awake takes off while `K` or more are on board, and wakes who it should before landing. -/
theorem Calm.within_takeoff (hK : 1 ≤ K) (hKN : K ≤ N) (hc : Calm N K s) (hon : onBoard (s.procs p) = 1)
    (hawake : p ∉ s.shared.landed) (hmany : (K : ℤ) ≤ s.shared.planesOnBoard)
    (hw : s.shared.tookOff = ∅ ∨ w ∈ s.shared.tookOff) : ∃ s', (airport ι N K).Within anyStep 13 s s' ∧ Calm N K s' ∧
      (∀ q, q ≠ p → s'.procs q = s.procs q) ∧ onBoard (s'.procs p) = 0 ∧ s'.shared.landed = s.shared.landed ∧
      s'.shared.planesOnBoard = s.shared.planesOnBoard - 1 ∧ s'.shared.tookOff = s.shared.tookOff.erase w := by
  have hbegin : TakingOff s.shared w s.shared (s.procs p) := by
    have hbusy := hc.not_busy hK hKN p
    generalize s.procs p = pc at hon hbusy
    cases pc <;> first | exact ⟨rfl, rfl⟩ | exact absurd hon (by decide) | exact absurd hbusy (by decide)
  obtain ⟨s', hwithin, hc', hsame, hend, hlanded, hboard, htookOff⟩ := hc.within_alone hK hKN (e := .lockWaitLand)
    (R := fun g pc => g.landed = s.shared.landed ∧ TakingOff s.shared w g pc) rfl
    (fun g pc hfree hstage hne => by
      obtain ⟨g', pc', hplane, hland, hT, hlt⟩ :=
        takeoff_step (N := N) hmany hw (hstage.1.symm ▸ hawake) hfree hstage.2 hne
      exact ⟨g', pc', hplane, ⟨hland.trans hstage.1, hT⟩, hlt⟩) ⟨rfl, hbegin⟩
  exact ⟨s', hwithin, hc', hsame, by rw [hend]; rfl, hlanded, hboard, htookOff⟩

end Alone

/-! ## Until it is the turn of a plane -/

section Turns

variable [Fintype ι] {N K : ℕ} {s : Pool ι (Shared ι) Pc} {p : ι}

omit [Fintype ι] in
/-- A signal can be chosen to wake a certain plane if it sleeps. -/
theorem exists_waiter (waiters : Finset ι) (p : ι) : ∃ w, (waiters = ∅ ∨ w ∈ waiters) ∧ p ∉ waiters.erase w := by
  by_cases hp : p ∈ waiters
  · exact ⟨p, .inr hp, Finset.notMem_erase p _⟩
  · rcases waiters.eq_empty_or_nonempty with rfl | ⟨w, hw⟩
    · exact ⟨p, .inl rfl, Finset.notMem_erase p _⟩
    · exact ⟨w, .inr hw, fun h => hp (Finset.mem_of_mem_erase h)⟩

variable (hK : 1 ≤ K) (hKN : K ≤ N)

include hK hKN

/-- Planes land until `K` are on board; either the plane is one of them, or it is awake if one has landed at all. -/
theorem Calm.rise (hP : K ≤ Fintype.card ι) (p : ι) : ∀ (n : ℕ) {s : Pool ι (Shared ι) Pc}, Calm N K s →
    s.shared.planesOnBoard + n = K → ∃ s', (airport ι N K).Within anyStep (13 * n) s s' ∧ Calm N K s' ∧
      (onBoard (s'.procs p) ≠ onBoard (s.procs p) ∨ (onBoard (s'.procs p) = onBoard (s.procs p) ∧
        s'.shared.planesOnBoard = K ∧ (p ∈ s'.shared.landed → n = 0 ∧ p ∈ s.shared.landed)))
  | 0, s, hc, hn => ⟨s, .refl s, hc, .inr ⟨rfl, by omega, fun h => ⟨rfl, h⟩⟩⟩
  | n + 1, s, hc, hn => by
    obtain ⟨q, hair, hawake⟩ := exists_toLand hK hKN hP hc.reachable (by omega)
    obtain ⟨w, hw, hwoken⟩ := exists_waiter s.shared.landed p
    obtain ⟨s₁, hwithin₁, hc₁, hsame, hon, -, hboard, hlanded⟩ :=
      hc.within_landing hK hKN hair hawake (by omega) hw
    by_cases hq : p = q
    · subst hq
      exact ⟨s₁, hwithin₁.mono (by omega), hc₁, .inl (by rw [hon, hair]; decide)⟩
    · obtain ⟨s', hwithin, hc', hp⟩ := Calm.rise hP p n hc₁ (by omega)
      rw [hsame p hq] at hp
      refine ⟨s', (hwithin₁.trans hwithin).mono (by omega), hc', hp.imp_right ?_⟩
      rintro ⟨hrole, hfull, hsleeps⟩
      refine ⟨hrole, hfull, fun h => absurd (hsleeps h).2 ?_⟩
      rwa [hlanded]

/-- Planes take off until one less than `K` are on board; either the plane is one of them, or it is awake if one has
taken off at all. -/
theorem Calm.sink (p : ι) : ∀ (n : ℕ) {s : Pool ι (Shared ι) Pc}, Calm N K s →
    s.shared.planesOnBoard + 1 = K + n → ∃ s', (airport ι N K).Within anyStep (13 * n) s s' ∧ Calm N K s' ∧
      (onBoard (s'.procs p) ≠ onBoard (s.procs p) ∨ (onBoard (s'.procs p) = onBoard (s.procs p) ∧
        s'.shared.planesOnBoard + 1 = K ∧ (p ∈ s'.shared.tookOff → n = 0 ∧ p ∈ s.shared.tookOff)))
  | 0, s, hc, hn => ⟨s, .refl s, hc, .inr ⟨rfl, by omega, fun h => ⟨rfl, h⟩⟩⟩
  | n + 1, s, hc, hn => by
    obtain ⟨q, hon, hawake⟩ := exists_toTakeoff hK hKN hc.reachable (by omega)
    obtain ⟨w, hw, hwoken⟩ := exists_waiter s.shared.tookOff p
    obtain ⟨s₁, hwithin₁, hc₁, hsame, hair, -, hboard, htookOff⟩ :=
      hc.within_takeoff hK hKN hon hawake (by omega) hw
    by_cases hq : p = q
    · subst hq
      exact ⟨s₁, hwithin₁.mono (by omega), hc₁, .inl (by rw [hair, hon]; decide)⟩
    · obtain ⟨s', hwithin, hc', hp⟩ := Calm.sink p n hc₁ (by omega)
      rw [hsame p hq] at hp
      refine ⟨s', (hwithin₁.trans hwithin).mono (by omega), hc', hp.imp_right ?_⟩
      rintro ⟨hrole, hfull, hsleeps⟩
      refine ⟨hrole, hfull, fun h => absurd (hsleeps h).2 ?_⟩
      rwa [htookOff]

/-- With `K` or more on board, enough of them take off first. -/
theorem Calm.lands_of_many {n : ℕ} (hc : Calm N K s) (hair : onBoard (s.procs p) = 0)
    (hn : s.shared.planesOnBoard = K + n) : ∃ s', (airport ι N K).Within anyStep (13 * (n + 2)) s s' ∧
      onBoard (s'.procs p) ≠ onBoard (s.procs p) := by
  obtain ⟨s₁, hwithin₁, hc₁, hmoved | ⟨hrole, hboard, hawake⟩⟩ := hc.sink hK hKN p (n + 1) (by omega)
  · exact ⟨s₁, hwithin₁.mono (by omega), hmoved⟩
  · obtain ⟨w, hw, -⟩ := exists_waiter s₁.shared.landed p
    obtain ⟨s', hwithin, -, -, hon, -⟩ := hc₁.within_landing hK hKN (p := p) (hrole.trans hair)
      (fun h => absurd (hawake h).1 (Nat.succ_ne_zero n)) (by omega) hw
    exact ⟨s', (hwithin₁.trans hwithin).mono (by omega), by rw [hon, hair]; decide⟩

/-- With fewer than `K` on board, enough others land first. -/
theorem Calm.departs_of_few {n : ℕ} (hP : K ≤ Fintype.card ι) (hc : Calm N K s) (hon : onBoard (s.procs p) = 1)
    (hn : s.shared.planesOnBoard + (n + 1) = K) : ∃ s', (airport ι N K).Within anyStep (13 * (n + 2)) s s' ∧
      onBoard (s'.procs p) ≠ onBoard (s.procs p) := by
  obtain ⟨s₁, hwithin₁, hc₁, hmoved | ⟨hrole, hboard, hawake⟩⟩ := hc.rise hK hKN hP p (n + 1) (by omega)
  · exact ⟨s₁, hwithin₁.mono (by omega), hmoved⟩
  · obtain ⟨w, hw, -⟩ := exists_waiter s₁.shared.tookOff p
    obtain ⟨s', hwithin, -, -, hair, -⟩ := hc₁.within_takeoff hK hKN (p := p) (hrole.trans hon)
      (fun h => absurd (hawake h).1 (Nat.succ_ne_zero n)) (by omega) hw
    exact ⟨s', (hwithin₁.trans hwithin).mono (by omega), by rw [hon, hair]; decide⟩

/-- While nobody holds a mutex, a plane lands or takes off after at most as many others as there are, and one more. -/
theorem Calm.within_moves (hP : K ≤ Fintype.card ι) (hc : Calm N K s) (p : ι) : ∃ s',
    (airport ι N K).Within anyStep (13 * (Fintype.card ι + 2)) s s' ∧ onBoard (s'.procs p) ≠ onBoard (s.procs p) := by
  have hone : ∀ pc, onBoard pc ≤ 1 := fun pc => by cases pc <;> decide
  have hcard := tally_le_card (w := onBoard) (f := s.procs) fun q => hone _
  have hboard := (reachable_inv hK hKN hc.reachable).board
  rcases Nat.le_one_iff_eq_zero_or_eq_one.1 (hone (s.procs p)) with hair | hon
  · rcases lt_or_ge s.shared.planesOnBoard K with hfew | hmany
    · obtain ⟨n, hn⟩ := Int.exists_add_of_le hfew.le
      obtain ⟨s₁, hwithin₁, hc₁, hmoved | ⟨hrole, hfull, -⟩⟩ := hc.rise hK hKN hP p n hn.symm
      · exact ⟨s₁, hwithin₁.mono (by omega), hmoved⟩
      · obtain ⟨s', hwithin, hp⟩ := hc₁.lands_of_many hK hKN (n := 0) (hrole.trans hair) (by omega)
        exact ⟨s', (hwithin₁.trans hwithin).mono (by omega), hrole ▸ hp⟩
    · obtain ⟨n, hn⟩ := Int.exists_add_of_le hmany
      obtain ⟨s', hwithin, hp⟩ := hc.lands_of_many hK hKN hair hn
      exact ⟨s', hwithin.mono (by omega), hp⟩
  · rcases lt_or_ge s.shared.planesOnBoard K with hfew | hmany
    · obtain ⟨n, hn⟩ := Int.exists_add_of_le (Int.add_one_le_of_lt hfew)
      obtain ⟨s', hwithin, hp⟩ := hc.departs_of_few hK hKN hP hon (n := n) (by omega)
      exact ⟨s', hwithin.mono (by omega), hp⟩
    · obtain ⟨n, hn⟩ := Int.exists_add_of_le hmany
      obtain ⟨s₁, hwithin₁, hc₁, hmoved | ⟨hrole, hfew, -⟩⟩ := hc.sink hK hKN p (n + 1) (by omega)
      · exact ⟨s₁, hwithin₁.mono (by omega), hmoved⟩
      · obtain ⟨s', hwithin, hp⟩ := hc₁.departs_of_few hK hKN hP (n := 0) (hrole.trans hon) (by omega)
        exact ⟨s', (hwithin₁.trans hwithin).mono (by omega), hrole ▸ hp⟩

/-- From every state that is reached, every plane can be brought to land if it is in the air, or to take off if it is on
board, with 26 steps for each plane and one more. -/
theorem always_moves (hP : K ≤ Fintype.card ι) (hs : (airport ι N K).Reachable s) (p : ι) : ∃ s',
    (airport ι N K).Within anyStep (26 * (Fintype.card ι + 1)) s s' ∧ onBoard (s'.procs p) ≠ onBoard (s.procs p) := by
  obtain ⟨s₁, hcalms, hc⟩ := within_calm hK hKN hs
  by_cases hrole : onBoard (s₁.procs p) = onBoard (s.procs p)
  · obtain ⟨s', hwithin, hp⟩ := hc.within_moves hK hKN hP p
    exact ⟨s', (hcalms.trans hwithin).mono (by omega), hrole ▸ hp⟩
  · exact ⟨s₁, hcalms.mono (by omega), hrole⟩

end Turns

/-- The constants of the code: while plane 0 of 15 holds a mutex that plane 1 waits for. -/
theorem always_moves_fifteen : ∃ s, (airport (Fin 15) 10 5).run grounded [(0, 0)] = some s ∧ Blocked s 1 ∧
    ∃ s', (airport (Fin 15) 10 5).Within anyStep (26 * (Fintype.card (Fin 15) + 1)) s s' ∧
      onBoard (s'.procs 1) ≠ onBoard (s.procs 1) := by
  refine ⟨_, rfl, .inl ⟨.waitingToLandMutex, rfl, by decide⟩, ?_⟩
  exact always_moves (show 1 ≤ 5 by decide) (show 5 ≤ 10 by decide) (by simp)
    (System.Reachable.run [(0, 0)] (.init grounded_started) rfl) 1

end Sysopy.Airport
