/-
The counters of cw09/zad2 are exact and the airport is never over its capacity, for any number of planes, also
when a wait ends without a signal and when an update of a counter reads it in one step and writes it in another.
A plane that has passed the test before landing keeps the landing strip up to its `planes_on_board++`, so what it
has tested still holds there.
-/
import Sysopy.Airport.Deadlock

namespace Sysopy.Airport

open Sysopy.Conc

variable {ι : Type*} [DecidableEq ι]

/-! ## Waits that end by themselves -/

/-- The plane is not among the waiters any more. -/
def wake (id : ι) (g : Shared ι) : Pc → Shared ι
  | .insideWaitLand => { g with tookOff := g.tookOff.erase id }
  | .insideWaitTakeoff => { g with landed := g.landed.erase id }
  | _ => g

/-- `plane()` when a wait may also end without a signal. -/
def planeWaking (N K : ℕ) : Program ι (Shared ι) Pc (ι × Bool) := fun id g pc a =>
  plane N K id (if a.2 then wake id g pc else g) pc a.1

/-- All interleavings of these planes. -/
def wakingAirport (ι : Type*) [DecidableEq ι] (N K : ℕ) : System (Pool ι (Shared ι) Pc) (ι × ι × Bool) :=
  (planeWaking N K).system Started

/-! ## Updates in two steps -/

inductive Counter
  | planesOnBoard
  | waitingToTakeoff
  | waitingToLand

def Counter.get (g : Shared ι) : Counter → ℤ
  | .planesOnBoard => g.planesOnBoard
  | .waitingToTakeoff => g.waitingToTakeoff
  | .waitingToLand => g.waitingToLand

def Counter.set (g : Shared ι) (v : ℤ) : Counter → Shared ι
  | .planesOnBoard => { g with planesOnBoard := v }
  | .waitingToTakeoff => { g with waitingToTakeoff := v }
  | .waitingToLand => { g with waitingToLand := v }

/-- The counter that `++` or `--` is about. -/
def updates : Pc → Option Counter
  | .incBoard | .decBoard => some .planesOnBoard
  | .incWaitTakeoff | .decWaitTakeoff => some .waitingToTakeoff
  | .incWaitLand | .decWaitLand => some .waitingToLand
  | _ => none

/-- Where a plane is, and the value that an update has read and not yet written back. -/
structure Local where
  pc : Pc
  read : Option ℤ

/-- `plane()` when each `++` and `--` first reads the counter and then writes it. -/
def planeReading (N K : ℕ) : Program ι (Shared ι) Local (ι × Bool) := fun id g l a =>
  match updates l.pc, l.read with
  | some c, none => some (g, { l with read := some (c.get g) })
  | some c, some v => (planeWaking N K id (c.set g v) l.pc a).map fun r => (r.1, ⟨r.2, none⟩)
  | none, _ => (planeWaking N K id g l.pc a).map fun r => (r.1, ⟨r.2, none⟩)

/-- All interleavings of these planes. -/
def readingAirport (ι : Type*) [DecidableEq ι] (N K : ℕ) : System (Pool ι (Shared ι) Local) (ι × ι × Bool) :=
  (planeReading N K).system fun s => Started ⟨s.shared, Local.pc ∘ s.procs⟩ ∧ ∀ p, (s.procs p).read = none

/-! ## The capacity -/

/-- Past the test before landing and not yet past `planes_on_board++`. -/
def cleared : Pc → Bool
  | .unlockLand | .lockDecLand | .decWaitLand | .unlockDecLand | .incBoard => true
  | _ => false

theorem holds_of_cleared {pc : Pc} (h : cleared pc = true) : holds .landingstrip pc = true := by
  cases pc <;> first | rfl | cases h

/-- The counters count, and a plane that is cleared to land has room. -/
structure Counted [Fintype ι] (N : ℕ) (g : Shared ι) (procs : ι → Pc) : Prop where
  mutex : ∀ m, Owned (holds m) procs (g.mutex m)
  board : g.planesOnBoard = tally onBoard procs
  land : g.waitingToLand = tally toLand procs
  takeoff : g.waitingToTakeoff = tally toTakeoff procs
  capacity : g.planesOnBoard ≤ N
  room : ∀ p, cleared (procs p) = true → g.planesOnBoard < N

section Step

variable [Fintype ι] {N K : ℕ} {g g' : Shared ι} {procs : ι → Pc} {p w : ι} {l l' : Pc}

omit [DecidableEq ι] in
theorem started_counted {s : Pool ι (Shared ι) Pc} (h : Started s) : Counted N s.shared s.procs := by
  obtain ⟨hg, hp⟩ := h
  have zero : ∀ w : Pc → ℕ, w .lockWaitLand = 0 → tally w s.procs = 0 :=
    fun w hw => tally_eq_zero.2 fun p => by rw [hp p, hw]
  rw [hg]
  refine ⟨fun m => .of_none fun p => by rw [hp p]; cases m <;> rfl, ?_, ?_, ?_, by simp, fun p hc => ?_⟩
  · rw [zero onBoard rfl]; rfl
  · rw [zero toLand rfl]; rfl
  · rw [zero toTakeoff rfl]; rfl
  · rw [hp p] at hc
    cases hc

omit [DecidableEq ι] in
/-- Nothing here is about the waiters. -/
theorem Counted.congr (hC : Counted N g procs) (hm : g'.mutex = g.mutex) (hb : g'.planesOnBoard = g.planesOnBoard)
    (hl : g'.waitingToLand = g.waitingToLand) (ht : g'.waitingToTakeoff = g.waitingToTakeoff) : Counted N g' procs := by
  refine ⟨fun m => ?_, hb.trans hC.board, hl.trans hC.land, ht.trans hC.takeoff, ?_, fun p hc => ?_⟩
  · rw [hm]
    exact hC.mutex m
  · rw [hb]
    exact hC.capacity
  · rw [hb]
    exact hC.room p hc

theorem Counted.wake (hC : Counted N g procs) (p : ι) (pc : Pc) : Counted N (wake p g pc) procs := by
  unfold Airport.wake
  split <;> exact hC.congr rfl rfl rfl rfl

/-- A step moves the counters with the plane, and `planes_on_board` only under the landing strip. -/
theorem Counted.update (hC : Counted N g procs) (hp : procs p = l)
    (hm : ∀ m, Owned (holds m) (Function.update procs p l') (g'.mutex m))
    (wb : g'.planesOnBoard + onBoard l = g.planesOnBoard + onBoard l')
    (wl : g'.waitingToLand + toLand l = g.waitingToLand + toLand l')
    (wt : g'.waitingToTakeoff + toTakeoff l = g.waitingToTakeoff + toTakeoff l')
    (hstrip : holds .landingstrip l = true ∨ g'.planesOnBoard = g.planesOnBoard) (hcap : g'.planesOnBoard ≤ N)
    (hroom : cleared l' = true → g'.planesOnBoard < N) : Counted N g' (Function.update procs p l') := by
  subst hp
  have tb := tally_update onBoard procs p l'
  have tl := tally_update toLand procs p l'
  have tt := tally_update toTakeoff procs p l'
  have hb := hC.board
  have hl := hC.land
  have ht := hC.takeoff
  refine ⟨hm, by omega, by omega, by omega, hcap, fun q hq => ?_⟩
  by_cases hqp : q = p
  · subst hqp
    rw [Function.update_self] at hq
    exact hroom hq
  · rw [Function.update_of_ne hqp] at hq
    rcases hstrip with hs | heq
    · -- nobody else holds the landing strip
      have hnot := (hC.mutex .landingstrip).not_holds hs hqp
      rw [holds_of_cleared hq] at hnot
      cases hnot
    · rw [heq]
      exact hC.room q hq

/-- A step that leaves `planes_on_board` alone. -/
theorem Counted.move (hC : Counted N g procs) (hp : procs p = l)
    (hm : ∀ m, Owned (holds m) (Function.update procs p l') (g'.mutex m)) (hb : g'.planesOnBoard = g.planesOnBoard)
    (wb : onBoard l' = onBoard l) (wl : g'.waitingToLand + toLand l = g.waitingToLand + toLand l')
    (wt : g'.waitingToTakeoff + toTakeoff l = g.waitingToTakeoff + toTakeoff l')
    (hroom : cleared l' = true → cleared l = true ∨ g.planesOnBoard < N) :
    Counted N g' (Function.update procs p l') := by
  refine hC.update hp hm (by rw [hb, wb]) wl wt (.inr hb) (hb ▸ hC.capacity) fun hc => ?_
  rw [hb]
  rcases hroom hc with h | h
  · exact hC.room p (by rw [hp, h])
  · exact h

/-- A plane takes a mutex. -/
theorem Counted.take (hC : Counted N g procs) (hp : procs p = l) {m : Mtx} (hl : lock g m p = some g')
    (hh : ∀ m', holds m' l' = (decide (m' = m) || holds m' l)) (wb : onBoard l' = onBoard l)
    (wl : toLand l' = toLand l) (wt : toTakeoff l' = toTakeoff l) (hc : cleared l' = true → cleared l = true) :
    Counted N g' (Function.update procs p l') := by
  obtain ⟨hm, rfl⟩ := lock_eq_some.1 hl
  exact hC.move hp (owned_lock hC.mutex hm hp hh) rfl wb (by rw [wl]) (by rw [wt]) fun h => .inl (hc h)

/-- A plane releases a mutex. -/
theorem Counted.release (hC : Counted N g procs) (hp : procs p = l) {m : Mtx} (hm : holds m l = true)
    (hh : ∀ m', holds m' l' = (!decide (m' = m) && holds m' l)) (wb : onBoard l' = onBoard l)
    (wl : toLand l' = toLand l) (wt : toTakeoff l' = toTakeoff l) (hc : cleared l' = true → cleared l = true) :
    Counted N (unlock g m) (Function.update procs p l') :=
  hC.move hp (owned_unlock hC.mutex hp hm hh) rfl wb (by rw [wl]; rfl) (by rw [wt]; rfl) fun h => .inl (hc h)

/-- A plane takes a step that touches no mutex and no counter. -/
theorem Counted.pass (hC : Counted N g procs) (hp : procs p = l) (hh : ∀ m, holds m l' = holds m l)
    (wb : onBoard l' = onBoard l) (wl : toLand l' = toLand l) (wt : toTakeoff l' = toTakeoff l)
    (hc : cleared l' = true → g.planesOnBoard < N) : Counted N g (Function.update procs p l') :=
  hC.move hp (owned_keep hC.mutex hp hh) rfl wb (by rw [wl]) (by rw [wt]) fun h => .inr (hc h)

/-- A plane leaves the test before landing only when there is room. -/
theorem Counted.testLand (hC : Counted N g procs) (hp : procs p = .testLand) :
    Counted N g (Function.update procs p (if mustWaitToLand N K g then .unlockTestLand else .unlockLand)) := by
  split
  · exact hC.pass hp (fun m => by cases m <;> rfl) rfl rfl rfl nofun
  · rename_i hc
    have hcap := hC.capacity
    -- below `N`, and not at it: the loop has been left
    have hne : g.planesOnBoard ≠ N := fun h => hc (.inl h)
    exact hC.pass hp (fun m => by cases m <;> rfl) rfl rfl rfl fun _ => by omega

theorem plane_counted (hC : Counted N g procs) (h : plane N K p g (procs p) w = some (g', l')) :
    Counted N g' (Function.update procs p l') := by
  cases hp : procs p <;> rw [hp] at h <;>
    simp only [plane, Option.some.injEq, Option.map_eq_some_iff, Prod.mk.injEq] at h
  case lockWaitLand | lockStripLand | lockTestLand | lockDecLand | lockWaitTakeoff | lockStripTakeoff |
      lockTestTakeoff | lockDecTakeoff =>
    obtain ⟨_, hl, rfl, rfl⟩ := h
    exact hC.take hp hl (fun m => by cases m <;> rfl) rfl rfl rfl (by decide)
  case unlockWaitLand | unlockTestLand | unlockLand | unlockDecLand | unlockStripLand | unlockWaitTakeoff |
      unlockTestTakeoff | unlockTakeoff | unlockDecTakeoff | unlockStripTakeoff =>
    obtain ⟨rfl, rfl⟩ := h
    exact hC.release hp rfl (fun m => by cases m <;> rfl) rfl rfl rfl (by decide)
  case waitLand | waitTakeoff =>
    obtain ⟨rfl, rfl⟩ := h
    refine Counted.congr (hC.release (m := .landingstrip) hp rfl (fun m => by cases m <;> rfl) rfl rfl rfl (by decide))
      rfl rfl rfl rfl
  case insideWaitLand | insideWaitTakeoff =>
    split at h
    · cases h
    · obtain ⟨⟨_, _⟩, hl, he⟩ := Option.map_eq_some_iff.1 h
      cases he
      exact hC.take hp hl (fun m => by cases m <;> rfl) rfl rfl rfl (by decide)
  case incWaitLand | decWaitLand =>
    obtain ⟨rfl, rfl⟩ := h
    exact hC.move hp (owned_keep hC.mutex hp fun m => by cases m <;> rfl) rfl rfl (by simp only [toLand]; omega) rfl
      fun h => .inl (by revert h; decide)
  case incWaitTakeoff | decWaitTakeoff =>
    obtain ⟨rfl, rfl⟩ := h
    exact hC.move hp (owned_keep hC.mutex hp fun m => by cases m <;> rfl) rfl rfl rfl (by simp only [toTakeoff]; omega)
      fun h => .inl (by revert h; decide)
  case incBoard =>
    obtain ⟨rfl, rfl⟩ := h
    -- the plane has kept the strip since its test, so there still is room
    have hroom := hC.room p (by rw [hp]; rfl)
    exact hC.update hp (owned_keep hC.mutex hp fun m => by cases m <;> rfl) (by simp only [onBoard]; omega) rfl rfl
      (.inl rfl) hroom (by rintro ⟨⟩)
  case decBoard =>
    obtain ⟨rfl, rfl⟩ := h
    have hcap := hC.capacity
    refine hC.update hp (owned_keep hC.mutex hp fun m => by cases m <;> rfl) (by simp only [onBoard]; omega) rfl rfl
      (.inl rfl) ?_ (by rintro ⟨⟩)
    show g.planesOnBoard - 1 ≤ N
    omega
  case testLand => obtain ⟨rfl, rfl⟩ := h; exact hC.testLand hp
  case testTakeoff =>
    obtain ⟨rfl, rfl⟩ := h
    split <;> exact hC.pass hp (fun m => by cases m <;> rfl) rfl rfl rfl (by rintro ⟨⟩)
  case signalLanded | signalTookOff =>
    obtain ⟨_, hs, rfl, rfl⟩ := h
    exact Counted.congr (hC.pass hp (fun m => by cases m <;> rfl) rfl rfl rfl (by rintro ⟨⟩)) rfl rfl rfl rfl

theorem reachable_counted {s : Pool ι (Shared ι) Pc} (h : (wakingAirport ι N K).Reachable s) :
    Counted N s.shared s.procs := by
  refine Program.invariant (fun _ => started_counted) (fun g procs p a g' l' hC hs => ?_) h
  unfold planeWaking at hs
  split at hs
  · exact plane_counted (hC.wake p _) hs
  · exact plane_counted hC hs

/-! ## No update is lost -/

/-- The mutex that guards the updates of a counter. -/
def Counter.guard : Counter → Mtx
  | .planesOnBoard => .landingstrip
  | .waitingToTakeoff => .waitingToTakeoffMutex
  | .waitingToLand => .waitingToLandMutex

omit [Fintype ι] in
theorem holds_guard {pc : Pc} {c : Counter} (h : updates pc = some c) : holds c.guard pc = true := by
  cases pc <;> cases h <;> rfl

omit [Fintype ι] [DecidableEq ι] in
theorem Counter.set_get (c : Counter) : c.set g (c.get g) = g := by cases c <;> rfl

omit [Fintype ι] in
theorem Counter.get_wake (c : Counter) (pc : Pc) : c.get (wake p g pc) = c.get g := by
  unfold Airport.wake
  split <;> cases c <;> rfl

omit [Fintype ι] in
/-- A step changes no counter but the one that it updates. -/
theorem plane_get {c : Counter} (h : plane N K p g l w = some (g', l')) (hc : updates l ≠ some c) :
    c.get g' = c.get g := by
  cases l <;> simp only [plane, Option.some.injEq, Option.map_eq_some_iff, Prod.mk.injEq] at h
  case lockWaitLand | lockStripLand | lockTestLand | lockDecLand | lockWaitTakeoff | lockStripTakeoff |
      lockTestTakeoff | lockDecTakeoff =>
    obtain ⟨_, hl, rfl, rfl⟩ := h
    obtain ⟨-, rfl⟩ := lock_eq_some.1 hl
    cases c <;> rfl
  case insideWaitLand | insideWaitTakeoff =>
    split at h
    · cases h
    · obtain ⟨g₁, hl, he⟩ := Option.map_eq_some_iff.1 h
      obtain ⟨rfl, rfl⟩ := Prod.mk.inj he
      obtain ⟨-, rfl⟩ := lock_eq_some.1 hl
      cases c <;> rfl
  case signalLanded | signalTookOff =>
    obtain ⟨_, -, rfl, rfl⟩ := h
    cases c <;> rfl
  all_goals
    obtain ⟨rfl, rfl⟩ := h
    cases c <;> first | rfl | exact absurd rfl hc

omit [Fintype ι] in
theorem planeWaking_get {c : Counter} {a : ι × Bool} (h : planeWaking N K p g l a = some (g', l'))
    (hc : updates l ≠ some c) : c.get g' = c.get g := by
  unfold planeWaking at h
  split at h
  · rw [plane_get h hc, c.get_wake]
  · exact plane_get h hc

end Step

/-- An update that has been begun goes on from the value that the counter still has. -/
def Fresh (g : Shared ι) (procs : ι → Local) : Prop :=
  ∀ p c v, updates (procs p).pc = some c → (procs p).read = some v → c.get g = v

section Reading

variable {N K : ℕ} {g g' : Shared ι} {procs : ι → Local} {p : ι} {a : ι × Bool} {l' : Pc}

omit [DecidableEq ι] in
theorem Fresh.congr [DecidableEq ι] (hF : Fresh g procs) (x : Local)
    (hx : ∀ c v, updates x.pc = some c → x.read = some v → c.get g' = v)
    (hg : ∀ q c, q ≠ p → updates (procs q).pc = some c → c.get g' = c.get g) :
    Fresh g' (Function.update procs p x) := by
  intro q c v hu hr
  by_cases hqp : q = p
  · subst hqp
    rw [Function.update_self] at hu hr
    exact hx c v hu hr
  · rw [Function.update_of_ne hqp] at hu hr
    rw [hg q c hqp hu]
    exact hF q c v hu hr

/-- The step of a plane between two updates, or the end of an update: nobody else has begun one of the counter
that changes, since its mutex is taken. -/
theorem Fresh.step [Fintype ι] (hF : Fresh g procs) (hC : Counted N g (Local.pc ∘ procs))
    (h : planeWaking N K p g (procs p).pc a = some (g', l')) :
    Fresh g' (Function.update procs p ⟨l', none⟩) := by
  refine hF.congr _ (fun c v _ hr => by cases hr) fun q c hqp hu => ?_
  -- two planes in an update of one counter would both hold its mutex
  refine planeWaking_get h fun hc => hqp ?_
  exact (hC.mutex c.guard).unique (p := q) (q := p) (holds_guard hu) (holds_guard hc)

/-- The two steps of an update do what the update in one step does. -/
theorem reachable_reading [Fintype ι] {s : Pool ι (Shared ι) Local} (h : (readingAirport ι N K).Reachable s) :
    (wakingAirport ι N K).Reachable ⟨s.shared, Local.pc ∘ s.procs⟩ ∧ Fresh s.shared s.procs := by
  refine Program.invariant (I := fun g procs =>
    (wakingAirport ι N K).Reachable ⟨g, Local.pc ∘ procs⟩ ∧ Fresh g procs) ?_ ?_ h
  · rintro s ⟨hs, hr⟩
    refine ⟨.init hs, fun p c v _ hv => ?_⟩
    rw [hr p] at hv
    cases hv
  · rintro g procs p a g' x ⟨hR, hF⟩ hs
    have hC := reachable_counted hR
    unfold planeReading at hs
    split at hs
    · -- the counter is read
      rename_i c hc hn
      cases hs
      refine ⟨Program.view_stay hR rfl, hF.congr _ (fun c' v hu hr => ?_) fun _ _ _ _ => rfl⟩
      obtain rfl : c = c' := Option.some.inj (hc.symm.trans hu)
      exact Option.some.inj hr
    · -- the counter is written; it still has the value that was read
      rename_i c v hc hr
      have hset : c.set g v = g := by
        rw [← hF p c v hc hr, c.set_get]
      rw [hset] at hs
      obtain ⟨⟨g₁, l₁⟩, hw, he⟩ := Option.map_eq_some_iff.1 hs
      obtain ⟨rfl, rfl⟩ := Prod.mk.inj he
      exact ⟨Program.view_step hR hw, hF.step hC hw⟩
    · obtain ⟨⟨g₁, l₁⟩, hw, he⟩ := Option.map_eq_some_iff.1 hs
      obtain ⟨rfl, rfl⟩ := Prod.mk.inj he
      exact ⟨Program.view_step hR hw, hF.step hC hw⟩

end Reading

/-- In every reachable state the planes on board are between none and `N`, and each counter counts the planes
between its `++` and its `--`. -/
theorem counters_exact [Fintype ι] {N K : ℕ} {s : Pool ι (Shared ι) Local} (h : (readingAirport ι N K).Reachable s) :
    (0 ≤ s.shared.planesOnBoard ∧ s.shared.planesOnBoard ≤ N) ∧
      s.shared.planesOnBoard = tally (fun l => onBoard l.pc) s.procs ∧
      s.shared.waitingToLand = tally (fun l => toLand l.pc) s.procs ∧
      s.shared.waitingToTakeoff = tally (fun l => toTakeoff l.pc) s.procs := by
  have hC := reachable_counted (reachable_reading h).1
  have hboard := hC.board
  have hcap := hC.capacity
  refine ⟨⟨?_, hcap⟩, hboard, hC.land, hC.takeoff⟩
  rw [hboard]
  exact Int.natCast_nonneg _

/-- All planes before `plane()`, no update begun. -/
def hangar : Pool (Fin 15) (Shared (Fin 15)) Local :=
  ⟨⟨fun _ => none, 0, 0, 0, ∅, ∅⟩, fun _ => ⟨.lockWaitLand, none⟩⟩

theorem hangar_reachable : (readingAirport (Fin 15) 10 5).Reachable hangar :=
  .init ⟨⟨rfl, fun _ => rfl⟩, fun _ => rfl⟩

/-- Plane 0 of 15 has taken the mutex, read `waiting_to_land` and written it back. -/
theorem counters_exact_fifteen : ∃ s,
    (readingAirport (Fin 15) 10 5).run hangar [(0, 0, false), (0, 0, false), (0, 0, false)] = some s ∧
      s.shared.waitingToLand = 1 ∧ tally (fun l => toLand l.pc) s.procs = 1 := by
  refine ⟨_, rfl, rfl, ?_⟩
  have hs := counters_exact (System.Reachable.run [(0, 0, false), (0, 0, false), (0, 0, false)] hangar_reachable rfl)
  exact Int.ofNat_inj.1 hs.2.2.1.symm

end Sysopy.Airport
