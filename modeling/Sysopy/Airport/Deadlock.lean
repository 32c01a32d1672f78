/-
The planes of cw09/zad2 never deadlock, for any constants `1 ≤ K ≤ N` and any number of planes from
`K` on.

Mutexes alone cannot block everybody: a plane holds the inner mutexes only where it does not wait. So a
deadlock has every plane asleep on a condition variable. Fewer than `K` planes ever sleep before
take-off, so some sleep before landing while fewer than `K` are on board; but then a departure has
signalled one of them (`Inv.arrival`), which is a plane on its way that is not asleep.
-/
import Sysopy.Airport.Model

namespace Sysopy.Airport

open Sysopy.Conc

/-! ## Where a plane is -/

/-- The mutexes a plane holds. -/
def holds : Mtx → Pc → Bool
  | .landingstrip, .lockTestLand | .landingstrip, .testLand | .landingstrip, .unlockTestLand
  | .landingstrip, .waitLand | .landingstrip, .unlockLand | .landingstrip, .lockDecLand
  | .landingstrip, .decWaitLand | .landingstrip, .unlockDecLand | .landingstrip, .incBoard
  | .landingstrip, .signalLanded | .landingstrip, .unlockStripLand | .landingstrip, .lockTestTakeoff
  | .landingstrip, .testTakeoff | .landingstrip, .unlockTestTakeoff | .landingstrip, .waitTakeoff
  | .landingstrip, .unlockTakeoff | .landingstrip, .lockDecTakeoff | .landingstrip, .decWaitTakeoff
  | .landingstrip, .unlockDecTakeoff | .landingstrip, .decBoard | .landingstrip, .signalTookOff
  | .landingstrip, .unlockStripTakeoff => true
  | .waitingToTakeoffMutex, .testLand | .waitingToTakeoffMutex, .unlockTestLand
  | .waitingToTakeoffMutex, .unlockLand | .waitingToTakeoffMutex, .incWaitTakeoff
  | .waitingToTakeoffMutex, .unlockWaitTakeoff | .waitingToTakeoffMutex, .decWaitTakeoff
  | .waitingToTakeoffMutex, .unlockDecTakeoff => true
  | .waitingToLandMutex, .testTakeoff | .waitingToLandMutex, .unlockTestTakeoff
  | .waitingToLandMutex, .unlockTakeoff | .waitingToLandMutex, .incWaitLand
  | .waitingToLandMutex, .unlockWaitLand | .waitingToLandMutex, .decWaitLand
  | .waitingToLandMutex, .unlockDecLand => true
  | _, _ => false

/-- Past `planes_on_board++` and not yet past `planes_on_board--`. -/
def onBoard : Pc → ℕ
  | .signalLanded | .unlockStripLand | .lockWaitTakeoff | .incWaitTakeoff | .unlockWaitTakeoff
  | .lockStripTakeoff | .lockTestTakeoff | .testTakeoff | .unlockTestTakeoff | .waitTakeoff
  | .insideWaitTakeoff | .unlockTakeoff | .lockDecTakeoff | .decWaitTakeoff | .unlockDecTakeoff | .decBoard => 1
  | _ => 0

/-- Past `waiting_to_land++` and not yet past `waiting_to_land--`. -/
def toLand : Pc → ℕ
  | .unlockWaitLand | .lockStripLand | .lockTestLand | .testLand | .unlockTestLand | .waitLand
  | .insideWaitLand | .unlockLand | .lockDecLand | .decWaitLand => 1
  | _ => 0

/-- Past `waiting_to_takeoff++` and not yet past `waiting_to_takeoff--`. -/
def toTakeoff : Pc → ℕ
  | .unlockWaitTakeoff | .lockStripTakeoff | .lockTestTakeoff | .testTakeoff | .unlockTestTakeoff
  | .waitTakeoff | .insideWaitTakeoff | .unlockTakeoff | .lockDecTakeoff | .decWaitTakeoff => 1
  | _ => 0

/-- A plane that is about to signal `took_off`, or that, when it does not sleep, is about to land. -/
def coming : Pc → Bool
  | .signalTookOff | .insideWaitLand | .lockTestLand | .testLand | .unlockLand | .lockDecLand
  | .decWaitLand | .unlockDecLand | .incBoard => true
  | _ => false

variable {ι : Type*}

/-- What the last test of a plane that holds the landing strip said. -/
def LocalOK (K : ℕ) (g : Shared ι) : Pc → Prop
  | .unlockTestLand | .waitLand => (K : ℤ) ≤ g.planesOnBoard
  | .unlockTestTakeoff | .waitTakeoff => g.planesOnBoard < K
  | .unlockTakeoff | .lockDecTakeoff | .decWaitTakeoff | .unlockDecTakeoff | .decBoard =>
    g.tookOff ≠ ∅ → (K : ℤ) ≤ g.planesOnBoard
  | _ => True

/-- Without the landing strip a plane relies on no test. -/
theorem LocalOK.frame {K : ℕ} {g g' : Shared ι} {pc : Pc} (h : LocalOK K g pc)
    (hpc : holds .landingstrip pc = false) : LocalOK K g' pc := by
  cases pc <;> trivial

theorem LocalOK.congr {K : ℕ} {g g' : Shared ι} {pc : Pc} (h : LocalOK K g pc)
    (hb : g'.planesOnBoard = g.planesOnBoard) (ht : g'.tookOff = g.tookOff) : LocalOK K g' pc := by
  cases pc <;> simp only [LocalOK] at h ⊢ <;> first | trivial | (rw [hb]; exact h) | (rw [hb, ht]; exact h)

/-! ## The invariant -/

/-- The invariant of the planes. -/
structure Inv [Fintype ι] (K : ℕ) (g : Shared ι) (procs : ι → Pc) : Prop where
  mutex : ∀ m, Owned (holds m) procs (g.mutex m)
  tookOff : ∀ p ∈ g.tookOff, procs p = .insideWaitLand
  landed : ∀ p ∈ g.landed, procs p = .insideWaitTakeoff
  board : g.planesOnBoard = tally onBoard procs
  land : g.waitingToLand = tally toLand procs
  takeoff : g.waitingToTakeoff = tally toTakeoff procs
  locals : ∀ p, LocalOK K g (procs p)
  /-- Planes that sleep before landing keep all but one of the last `K` on board. -/
  floor : g.tookOff ≠ ∅ → (K : ℤ) ≤ g.planesOnBoard + 1
  /-- While planes sleep before landing though they could land, one more plane is on its way. -/
  arrival : g.tookOff ≠ ∅ → g.planesOnBoard < K → ∃ p, p ∉ g.tookOff ∧ coming (procs p) = true
  few : g.landed.card < K

theorem started_inv [Fintype ι] {K : ℕ} (hK : 1 ≤ K) {s : Pool ι (Shared ι) Pc} (h : Started s) :
    Inv K s.shared s.procs := by
  obtain ⟨hg, hp⟩ := h
  have zero : ∀ w : Pc → ℕ, w .lockWaitLand = 0 → tally w s.procs = 0 :=
    fun w hw => tally_eq_zero.2 fun p => by rw [hp p, hw]
  rw [hg]
  refine ⟨fun m => .of_none fun p => by rw [hp p]; cases m <;> rfl, by simp, by simp, ?_, ?_, ?_,
    fun p => by rw [hp p]; trivial, by simp, by simp, by simpa using Nat.lt_of_lt_of_le Nat.one_pos hK⟩
  · rw [zero onBoard rfl]; rfl
  · rw [zero toLand rfl]; rfl
  · rw [zero toTakeoff rfl]; rfl

section Step

variable [DecidableEq ι] {N K : ℕ} {g g' : Shared ι} {procs : ι → Pc} {p w : ι} {l l' : Pc}

/-- Taking one mutex keeps the ownership of all of them. -/
theorem owned_lock (h : ∀ m, Owned (holds m) procs (g.mutex m)) {m : Mtx} (hm : g.mutex m = none)
    (hp : procs p = l) (hl : ∀ m', holds m' l' = (decide (m' = m) || holds m' l)) (m' : Mtx) :
    Owned (holds m') (Function.update procs p l') (Function.update g.mutex m (some p) m') := by
  subst hp
  by_cases hmm : m' = m
  · subst hmm
    rw [Function.update_self]
    exact (hm ▸ h m').lock (by simp [hl])
  · rw [Function.update_of_ne hmm]
    exact (h m').keep (by simp [hl, hmm])

/-- Releasing one mutex keeps the ownership of all of them. -/
theorem owned_unlock (h : ∀ m, Owned (holds m) procs (g.mutex m)) {m : Mtx} (hp : procs p = l)
    (hm : holds m l = true) (hl : ∀ m', holds m' l' = (!decide (m' = m) && holds m' l)) (m' : Mtx) :
    Owned (holds m') (Function.update procs p l') (Function.update g.mutex m none m') := by
  subst hp
  by_cases hmm : m' = m
  · subst hmm
    rw [Function.update_self]
    exact (h m').unlock hm (by simp [hl])
  · rw [Function.update_of_ne hmm]
    exact (h m').keep (by simp [hl, hmm])

theorem owned_keep (h : ∀ m, Owned (holds m) procs (g.mutex m)) (hp : procs p = l)
    (hl : ∀ m, holds m l' = holds m l) (m : Mtx) : Owned (holds m) (Function.update procs p l') (g.mutex m) :=
  (h m).keep (by rw [hp, hl])

/-- The waiters of a condition variable are still inside its wait after a step of a plane that is not
among them. -/
theorem waiters_update {t : Finset ι} {pc : Pc} (h : ∀ q ∈ t, procs q = pc) (hp : p ∉ t) :
    ∀ q ∈ t, Function.update procs p l' q = pc := fun q hq => by
  have hqp : q ≠ p := fun hc => hp (hc ▸ hq)
  rw [Function.update_of_ne hqp]; exact h q hq

variable [Fintype ι]

/-- A step of a plane that does not sleep keeps the invariant when it moves the counters with the plane,
puts nobody to sleep, changes what others have tested only under the landing strip, and leaves the two
facts about planes that sleep before landing. -/
theorem Inv.update (hI : Inv K g procs) (hp : procs p = l)
    (hm : ∀ m, Owned (holds m) (Function.update procs p l') (g'.mutex m))
    (wb : g'.planesOnBoard + onBoard l = g.planesOnBoard + onBoard l')
    (wl : g'.waitingToLand + toLand l = g.waitingToLand + toLand l')
    (wt : g'.waitingToTakeoff + toTakeoff l = g.waitingToTakeoff + toTakeoff l')
    (hpt : p ∉ g.tookOff) (hpl : p ∉ g.landed) (ht : g'.tookOff ⊆ g.tookOff) (hd : g'.landed ⊆ g.landed)
    (hok : LocalOK K g' l')
    (hfr : holds .landingstrip l = true ∨ g'.planesOnBoard = g.planesOnBoard ∧ g'.tookOff = g.tookOff)
    (hfl : g'.tookOff ≠ ∅ → (K : ℤ) ≤ g'.planesOnBoard + 1)
    (hc : g'.tookOff ≠ ∅ → g'.planesOnBoard < K →
      ∃ q, q ∉ g'.tookOff ∧ Airport.coming (Function.update procs p l' q) = true) :
    Inv K g' (Function.update procs p l') := by
  subst hp
  have tb := tally_update onBoard procs p l'
  have tl := tally_update toLand procs p l'
  have tt := tally_update toTakeoff procs p l'
  have hb' := hI.board
  have hl' := hI.land
  have ht' := hI.takeoff
  have hcard := Finset.card_le_card hd
  have hfew := hI.few
  refine ⟨hm, fun q hq => waiters_update hI.tookOff hpt q (ht hq), fun q hq => waiters_update hI.landed hpl q (hd hq),
    by omega, by omega, by omega, fun q => ?_, hfl, hc, by omega⟩
  by_cases hq : q = p
  · subst hq; rw [Function.update_self]; exact hok
  · rw [Function.update_of_ne hq]
    rcases hfr with hs | ⟨hb, ht⟩
    · -- nobody else holds the landing strip
      exact (hI.locals q).frame ((hI.mutex .landingstrip).not_holds hs hq)
    · exact (hI.locals q).congr hb ht

/-- A step that leaves `planes_on_board` and the sleeping planes alone. -/
theorem Inv.move (hI : Inv K g procs) (hp : procs p = l)
    (hm : ∀ m, Owned (holds m) (Function.update procs p l') (g'.mutex m))
    (hb : g'.planesOnBoard = g.planesOnBoard) (ht : g'.tookOff = g.tookOff) (hd : g'.landed = g.landed)
    (wb : onBoard l' = onBoard l) (wl : g'.waitingToLand + toLand l = g.waitingToLand + toLand l')
    (wt : g'.waitingToTakeoff + toTakeoff l = g.waitingToTakeoff + toTakeoff l')
    (hpt : p ∉ g.tookOff) (hpl : p ∉ g.landed) (hok : LocalOK K g l')
    (hc : coming l = true → coming l' = true ∨ (K : ℤ) ≤ g.planesOnBoard) :
    Inv K g' (Function.update procs p l') := by
  refine hI.update hp hm (by rw [hb, wb]) wl wt hpt hpl (by rw [ht]) (by rw [hd]) (hok.congr hb ht) (.inr ⟨hb, ht⟩)
    (by rw [ht, hb]; exact hI.floor) ?_
  rw [ht, hb]
  intro hne hlt
  obtain ⟨q, hq, hcq⟩ := hI.arrival hne hlt
  by_cases hqp : q = p
  · subst hqp
    refine ⟨q, hq, ?_⟩
    rw [Function.update_self]
    exact (hc (hp ▸ hcq)).resolve_right (by omega)
  · exact ⟨q, hq, by rw [Function.update_of_ne hqp]; exact hcq⟩

omit [DecidableEq ι] in
/-- A plane outside both waits sleeps on neither condition variable. -/
theorem Inv.awake (hI : Inv K g procs) (hp : procs p = l) (h1 : l ≠ .insideWaitLand) (h2 : l ≠ .insideWaitTakeoff) :
    p ∉ g.tookOff ∧ p ∉ g.landed :=
  ⟨fun h => h1 (hp ▸ hI.tookOff p h), fun h => h2 (hp ▸ hI.landed p h)⟩

/-- A plane takes a mutex. -/
theorem Inv.take (hI : Inv K g procs) (hp : procs p = l) {m : Mtx} (hl : lock g m p = some g')
    (hh : ∀ m', holds m' l' = (decide (m' = m) || holds m' l)) (wb : onBoard l' = onBoard l)
    (wl : toLand l' = toLand l) (wt : toTakeoff l' = toTakeoff l) (hpt : p ∉ g.tookOff) (hpl : p ∉ g.landed)
    (hok : LocalOK K g l') (hc : coming l = true → coming l' = true) : Inv K g' (Function.update procs p l') := by
  obtain ⟨hm, rfl⟩ := lock_eq_some.1 hl
  exact hI.move hp (owned_lock hI.mutex hm hp hh) rfl rfl rfl wb (by rw [wl]) (by rw [wt]) hpt hpl hok
    fun h => .inl (hc h)

/-- A plane releases a mutex. -/
theorem Inv.release (hI : Inv K g procs) (hp : procs p = l) {m : Mtx} (hm : holds m l = true)
    (hh : ∀ m', holds m' l' = (!decide (m' = m) && holds m' l)) (wb : onBoard l' = onBoard l)
    (wl : toLand l' = toLand l) (wt : toTakeoff l' = toTakeoff l) (h1 : l ≠ .insideWaitLand)
    (h2 : l ≠ .insideWaitTakeoff) (hok : LocalOK K g l') (hc : coming l = true → coming l' = true) :
    Inv K (unlock g m) (Function.update procs p l') :=
  hI.move hp (owned_unlock hI.mutex hp hm hh) rfl rfl rfl wb (by rw [wl]; rfl) (by rw [wt]; rfl)
    (hI.awake hp h1 h2).1 (hI.awake hp h1 h2).2 hok fun h => .inl (hc h)

/-- A plane goes to sleep on `took_off`; at least `K` planes are on board then. -/
theorem Inv.sleepLand (hI : Inv K g procs) (hp : procs p = .waitLand) :
    Inv K { unlock g .landingstrip with tookOff := insert p g.tookOff } (Function.update procs p .insideWaitLand) := by
  have hK : (K : ℤ) ≤ g.planesOnBoard := by have := hI.locals p; rwa [hp] at this
  have hM : Inv K (unlock g .landingstrip) (Function.update procs p .insideWaitLand) :=
    hI.release hp rfl (fun m => by cases m <;> rfl) rfl rfl rfl (by decide) (by decide) trivial (by decide)
  refine ⟨hM.mutex, fun q hq => ?_, hM.landed, hM.board, hM.land, hM.takeoff, fun q => ?_, fun _ => ?_, fun _ hlt => ?_,
    hM.few⟩
  · rcases Finset.mem_insert.1 hq with rfl | hq
    · exact Function.update_self ..
    · exact hM.tookOff q hq
  · by_cases hq : q = p
    · subst hq; rw [Function.update_self]; trivial
    · -- nobody else holds the landing strip
      rw [Function.update_of_ne hq]
      exact (hI.locals q).frame ((hI.mutex .landingstrip).not_holds (p := p) (by rw [hp]; rfl) hq)
  · show (K : ℤ) ≤ g.planesOnBoard + 1; omega
  · exact absurd hlt (by show ¬ g.planesOnBoard < K; omega)

/-- A plane goes to sleep on `landed`; it is on board, with fewer than `K` others. -/
theorem Inv.sleepTakeoff (hI : Inv K g procs) (hp : procs p = .waitTakeoff) :
    Inv K { unlock g .landingstrip with landed := insert p g.landed } (Function.update procs p .insideWaitTakeoff) := by
  have hK : g.planesOnBoard < K := by have := hI.locals p; rwa [hp] at this
  have hM : Inv K (unlock g .landingstrip) (Function.update procs p .insideWaitTakeoff) :=
    hI.release hp rfl (fun m => by cases m <;> rfl) rfl rfl rfl (by decide) (by decide) trivial (by decide)
  have hin : ∀ q ∈ insert p g.landed,
      Function.update procs p .insideWaitTakeoff q = .insideWaitTakeoff := fun q hq => by
    rcases Finset.mem_insert.1 hq with rfl | hq
    · exact Function.update_self ..
    · exact hM.landed q hq
  refine ⟨hM.mutex, hM.tookOff, hin, hM.board, hM.land, hM.takeoff, hM.locals, hM.floor, hM.arrival, ?_⟩
  have h1 := card_le_tally (w := onBoard) (f := Function.update procs p .insideWaitTakeoff) (t := insert p g.landed)
    fun q hq => by rw [hin q hq]; exact Nat.one_pos
  have h2 : g.planesOnBoard = tally onBoard (Function.update procs p .insideWaitTakeoff) := hM.board
  show (insert p g.landed).card < K
  omega

omit [Fintype ι] in
theorem signal_subset {waiters waiters' : Finset ι} (h : signal waiters w = some waiters') : waiters' ⊆ waiters := by
  rcases signal_eq_some.1 h with ⟨_, rfl⟩ | ⟨_, rfl⟩
  · exact Finset.empty_subset _
  · exact Finset.erase_subset _ _

/-- A plane signals `landed`. -/
theorem Inv.signalLanded (hI : Inv K g procs) (hp : procs p = .signalLanded) {landed : Finset ι}
    (hs : signal g.landed w = some landed) :
    Inv K { g with landed := landed } (Function.update procs p .unlockStripLand) := by
  obtain ⟨h1, h2⟩ := hI.awake hp (by decide) (by decide)
  have hM : Inv K g (Function.update procs p .unlockStripLand) :=
    hI.move hp (owned_keep hI.mutex hp fun m => by cases m <;> rfl) rfl rfl rfl rfl rfl rfl h1 h2 trivial
      (fun h => absurd h (by decide))
  exact hI.update hp hM.mutex rfl rfl rfl h1 h2 (Finset.Subset.refl _) (signal_subset hs) trivial (.inl rfl) hM.floor
    hM.arrival

/-- A plane signals `took_off`: if a plane sleeps there, the one it wakes is on its way. -/
theorem Inv.signalTookOff (hI : Inv K g procs) (hp : procs p = .signalTookOff) {tookOff : Finset ι}
    (hs : signal g.tookOff w = some tookOff) :
    Inv K { g with tookOff := tookOff } (Function.update procs p .unlockStripTakeoff) := by
  obtain ⟨h1, h2⟩ := hI.awake hp (by decide) (by decide)
  refine hI.update hp (owned_keep hI.mutex hp fun m => by cases m <;> rfl) rfl rfl rfl h1 h2 (signal_subset hs)
    (Finset.Subset.refl _) trivial (.inl rfl) (fun hne => hI.floor fun h0 => ?_) fun hne _ => ?_
  · exact hne (Finset.subset_empty.1 (h0 ▸ signal_subset hs))
  · rcases signal_eq_some.1 hs with ⟨_, rfl⟩ | ⟨hw, rfl⟩
    · exact absurd rfl hne
    · refine ⟨w, Finset.notMem_erase w _, ?_⟩
      rw [waiters_update hI.tookOff h1 w hw]; rfl

/-- A plane lands: with planes asleep before landing at least `K` are on board afterwards. -/
theorem Inv.incBoard (hI : Inv K g procs) (hp : procs p = .incBoard) :
    Inv K { g with planesOnBoard := g.planesOnBoard + 1 } (Function.update procs p .signalLanded) := by
  obtain ⟨h1, h2⟩ := hI.awake hp (by decide) (by decide)
  refine hI.update hp (owned_keep hI.mutex hp fun m => by cases m <;> rfl) ?_ rfl rfl h1 h2 (Finset.Subset.refl _)
    (Finset.Subset.refl _) trivial (.inl rfl) (fun hne => ?_) fun hne hlt => ?_
  · simp only [onBoard]; omega
  · have := hI.floor hne; simp only; omega
  · have := hI.floor hne; simp only at hlt; omega

/-- A plane departs: with planes asleep before landing at least `K` were on board, and the plane is
about to signal. -/
theorem Inv.decBoard (hI : Inv K g procs) (hp : procs p = .decBoard) :
    Inv K { g with planesOnBoard := g.planesOnBoard - 1 } (Function.update procs p .signalTookOff) := by
  obtain ⟨h1, h2⟩ := hI.awake hp (by decide) (by decide)
  have hK : g.tookOff ≠ ∅ → (K : ℤ) ≤ g.planesOnBoard := by have := hI.locals p; rwa [hp] at this
  refine hI.update hp (owned_keep hI.mutex hp fun m => by cases m <;> rfl) ?_ rfl rfl h1 h2 (Finset.Subset.refl _)
    (Finset.Subset.refl _) trivial (.inl rfl) (fun hne => ?_) fun _ _ => ⟨p, h1, by rw [Function.update_self]; rfl⟩
  · simp only [onBoard]; omega
  · have := hK hne; simp only; omega

/-- A plane leaves a test: it has to wait only with `K` planes on board. -/
theorem Inv.testLand (hKN : K ≤ N) (hI : Inv K g procs) (hp : procs p = .testLand) :
    Inv K g (Function.update procs p (if mustWaitToLand N K g then .unlockTestLand else .unlockLand)) := by
  obtain ⟨h1, h2⟩ := hI.awake hp (by decide) (by decide)
  split
  · rename_i hc
    have hK : (K : ℤ) ≤ g.planesOnBoard := by
      rcases hc with hc | hc
      · omega
      · exact hc.1
    exact hI.move hp (owned_keep hI.mutex hp fun m => by cases m <;> rfl) rfl rfl rfl rfl rfl rfl h1 h2 hK
      fun _ => .inr hK
  · exact hI.move hp (owned_keep hI.mutex hp fun m => by cases m <;> rfl) rfl rfl rfl rfl rfl rfl h1 h2 trivial
      fun _ => .inl rfl

/-- A plane leaves the test before take-off: the planes that sleep before landing are counted in
`waiting_to_land`, so with any of them it goes on only with `K` planes on board. -/
theorem Inv.testTakeoff (hI : Inv K g procs) (hp : procs p = .testTakeoff) :
    Inv K g (Function.update procs p (if mustWaitToTakeoff K g then .unlockTestTakeoff else .unlockTakeoff)) := by
  obtain ⟨h1, h2⟩ := hI.awake hp (by decide) (by decide)
  split
  · rename_i hc
    exact hI.move hp (owned_keep hI.mutex hp fun m => by cases m <;> rfl) rfl rfl rfl rfl rfl rfl h1 h2 hc.1
      (fun h => absurd h (by decide))
  · rename_i hc
    refine hI.move hp (owned_keep hI.mutex hp fun m => by cases m <;> rfl) rfl rfl rfl rfl rfl rfl h1 h2 (fun hne => ?_)
      (fun h => absurd h (by decide))
    obtain ⟨q, hq⟩ := Finset.nonempty_iff_ne_empty.2 hne
    have hl := le_tally toLand procs q
    rw [hI.tookOff q hq] at hl
    have := hI.land
    by_contra hlt
    exact hc ⟨by omega, by simp only [toLand] at hl; omega⟩

/-- Every step of a plane keeps the invariant. -/
theorem inv_step (hKN : K ≤ N) (hI : Inv K g procs) (h : plane N K p g (procs p) w = some (g', l')) :
    Inv K g' (Function.update procs p l') := by
  cases hp : procs p <;> rw [hp] at h <;>
    simp only [plane, Option.some.injEq, Option.map_eq_some_iff, Prod.mk.injEq] at h
  case lockWaitLand | lockStripLand | lockTestLand | lockDecLand | lockWaitTakeoff | lockStripTakeoff |
      lockTestTakeoff =>
    obtain ⟨_, hl, rfl, rfl⟩ := h
    obtain ⟨h1, h2⟩ := hI.awake hp (by decide) (by decide)
    exact hI.take hp hl (fun m => by cases m <;> rfl) rfl rfl rfl h1 h2 trivial (by decide)
  case lockDecTakeoff =>
    obtain ⟨_, hl, rfl, rfl⟩ := h
    obtain ⟨h1, h2⟩ := hI.awake hp (by decide) (by decide)
    exact hI.take hp hl (fun m => by cases m <;> rfl) rfl rfl rfl h1 h2 (by have := hI.locals p; rwa [hp] at this)
      (by decide)
  case unlockWaitLand | unlockLand | unlockDecLand | unlockStripLand | unlockWaitTakeoff | unlockStripTakeoff =>
    obtain ⟨rfl, rfl⟩ := h
    exact hI.release hp rfl (fun m => by cases m <;> rfl) rfl rfl rfl (by decide) (by decide) trivial (by decide)
  case unlockTestLand | unlockTestTakeoff | unlockTakeoff | unlockDecTakeoff =>
    obtain ⟨rfl, rfl⟩ := h
    exact hI.release hp rfl (fun m => by cases m <;> rfl) rfl rfl rfl (by decide) (by decide)
      (by have := hI.locals p; rwa [hp] at this) (by decide)
  case insideWaitLand =>
    split at h
    · cases h
    · rename_i hpt
      obtain ⟨⟨_, _⟩, hl, he⟩ := Option.map_eq_some_iff.1 h
      cases he
      -- a signalled plane takes the strip again; it waits on no other condition
      have hpl : p ∉ g.landed := fun hc => by have := hI.landed p hc; rw [hp] at this; cases this
      exact hI.take hp hl (fun m => by cases m <;> rfl) rfl rfl rfl hpt hpl trivial (by decide)
  case insideWaitTakeoff =>
    split at h
    · cases h
    · rename_i hpl
      obtain ⟨⟨_, _⟩, hl, he⟩ := Option.map_eq_some_iff.1 h
      cases he
      have hpt : p ∉ g.tookOff := fun hc => by have := hI.tookOff p hc; rw [hp] at this; cases this
      exact hI.take hp hl (fun m => by cases m <;> rfl) rfl rfl rfl hpt hpl trivial (by decide)
  case incWaitLand | decWaitLand =>
    obtain ⟨rfl, rfl⟩ := h
    obtain ⟨h1, h2⟩ := hI.awake hp (by decide) (by decide)
    exact hI.move hp (owned_keep hI.mutex hp fun m => by cases m <;> rfl) rfl rfl rfl rfl
      (by simp only [toLand]; omega) rfl h1 h2 trivial (fun h => .inl (by revert h; decide))
  case incWaitTakeoff =>
    obtain ⟨rfl, rfl⟩ := h
    obtain ⟨h1, h2⟩ := hI.awake hp (by decide) (by decide)
    exact hI.move hp (owned_keep hI.mutex hp fun m => by cases m <;> rfl) rfl rfl rfl rfl rfl
      (by simp only [toTakeoff]; omega) h1 h2 trivial (fun h => absurd h (by decide))
  case decWaitTakeoff =>
    obtain ⟨rfl, rfl⟩ := h
    obtain ⟨h1, h2⟩ := hI.awake hp (by decide) (by decide)
    exact hI.move hp (owned_keep hI.mutex hp fun m => by cases m <;> rfl) rfl rfl rfl rfl rfl
      (by simp only [toTakeoff]; omega) h1 h2 (by have := hI.locals p; rwa [hp] at this) (fun h => absurd h (by decide))
  case testLand => obtain ⟨rfl, rfl⟩ := h; exact hI.testLand hKN hp
  case testTakeoff => obtain ⟨rfl, rfl⟩ := h; exact hI.testTakeoff hp
  case waitLand => obtain ⟨rfl, rfl⟩ := h; exact hI.sleepLand hp
  case waitTakeoff => obtain ⟨rfl, rfl⟩ := h; exact hI.sleepTakeoff hp
  case incBoard => obtain ⟨rfl, rfl⟩ := h; exact hI.incBoard hp
  case decBoard => obtain ⟨rfl, rfl⟩ := h; exact hI.decBoard hp
  case signalLanded => obtain ⟨_, hs, rfl, rfl⟩ := h; exact hI.signalLanded hp hs
  case signalTookOff => obtain ⟨_, hs, rfl, rfl⟩ := h; exact hI.signalTookOff hp hs

theorem reachable_inv (hK : 1 ≤ K) (hKN : K ≤ N) {s : Pool ι (Shared ι) Pc} (h : (airport ι N K).Reachable s) :
    Inv K s.shared s.procs :=
  Program.invariant (fun _ => started_inv hK) (fun _ _ _ _ _ _ hI hs => inv_step hKN hI hs) h

end Step

/-! ## No deadlock -/

section Deadlock

variable [Fintype ι] {K : ℕ} {s : Pool ι (Shared ι) Pc}

omit [Fintype ι] in
/-- A plane that waits holds no mutex but the landing strip. -/
theorem not_blocked_of_holds {p : ι} {m : Mtx} (hm : m ≠ .landingstrip)
    (hp : holds m (s.procs p) = true) : ¬ Blocked s p := by
  have key : wants (s.procs p) = none ∧ s.procs p ≠ .insideWaitLand ∧ s.procs p ≠ .insideWaitTakeoff := by
    generalize s.procs p = pc at hp
    cases m <;> cases pc <;> first | exact absurd rfl hm | exact ⟨rfl, by decide, by decide⟩ | cases hp
  rintro (⟨m', hw, _⟩ | ⟨hw, _⟩ | ⟨hw, _⟩)
  · rw [key.1] at hw; cases hw
  · exact key.2.1 hw
  · exact key.2.2 hw

/-- In a deadlock no mutex is held: the holder of an inner one could go on, and the holder of the
landing strip waits only for an inner one. -/
theorem mutex_free (hI : Inv K s.shared s.procs) (hd : Deadlock s) (m : Mtx) : s.shared.mutex m = none := by
  have inner : ∀ m, m ≠ .landingstrip → s.shared.mutex m = none := fun m hm => by
    cases hh : s.shared.mutex m with
    | none => rfl
    | some p => exact absurd (hd p) (not_blocked_of_holds hm ((hI.mutex m p).2 hh))
  by_cases hm : m = .landingstrip
  · subst hm
    cases hh : s.shared.mutex .landingstrip with
    | none => rfl
    | some p =>
      have hp := (hI.mutex _ p).2 hh
      rcases hd p with ⟨m', hw, hne⟩ | ⟨hw, _⟩ | ⟨hw, _⟩
      · refine absurd (inner m' ?_) hne
        rintro rfl
        revert hp hw
        generalize s.procs p = pc
        cases pc <;> decide
      · rw [hw] at hp; cases hp
      · rw [hw] at hp; cases hp
  · exact inner m hm

/-- In a deadlock every plane sleeps on a condition variable. -/
theorem all_asleep (hI : Inv K s.shared s.procs) (hd : Deadlock s) (p : ι) :
    (s.procs p = .insideWaitLand ∧ p ∈ s.shared.tookOff) ∨ (s.procs p = .insideWaitTakeoff ∧ p ∈ s.shared.landed) := by
  rcases hd p with ⟨m, _, hm⟩ | h | h
  · exact absurd (mutex_free hI hd m) hm
  · exact .inl h
  · exact .inr h

/-- For constants `1 ≤ K ≤ N` and at least `K` planes no reachable state is a deadlock: it is never the
case that every plane waits for a held mutex or on a condition variable without having been signalled. -/
theorem no_deadlock [DecidableEq ι] {N : ℕ} (hK : 1 ≤ K) (hKN : K ≤ N) (hP : K ≤ Fintype.card ι)
    (h : (airport ι N K).Reachable s) : ¬ Deadlock s := by
  intro hd
  have hI := reachable_inv hK hKN h
  have hasleep := all_asleep hI hd
  -- the planes on board are those that sleep before take-off, fewer than K
  have hle : tally onBoard s.procs ≤ s.shared.landed.card := by
    refine tally_le_card_of_mem (fun p => ?_) fun p hp => ?_
    · rcases hasleep p with ⟨hp, _⟩ | ⟨hp, _⟩ <;> rw [hp] <;> decide
    · rcases hasleep p with ⟨hp', _⟩ | ⟨_, hp'⟩
      · rw [hp'] at hp; exact absurd hp (by decide)
      · exact hp'
  have hb := hI.board
  have hf := hI.few
  -- so some plane sleeps before landing
  have hne : s.shared.tookOff ≠ ∅ := by
    intro he
    have hall : ∀ p, p ∈ s.shared.landed := fun p => by
      rcases hasleep p with ⟨_, hp⟩ | ⟨_, hp⟩
      · rw [he] at hp; exact absurd hp (Finset.notMem_empty p)
      · exact hp
    have hcard := Finset.card_le_card (fun p _ => hall p : Finset.univ ⊆ s.shared.landed)
    rw [Finset.card_univ] at hcard
    omega
  obtain ⟨p, hp, hc⟩ := hI.arrival hne (by omega)
  rcases hasleep p with ⟨_, hp'⟩ | ⟨hp', _⟩
  · exact hp hp'
  · rw [hp'] at hc; cases hc

def grounded : Pool (Fin 15) (Shared (Fin 15)) Pc :=
  ⟨⟨fun _ => none, 0, 0, 0, ∅, ∅⟩, fun _ => .lockWaitLand⟩

theorem grounded_started : Started grounded := ⟨rfl, fun _ => rfl⟩

/-- The constants of the code: plane 0 of 15 has taken its first mutex, on which another waits. -/
theorem no_deadlock_fifteen : ∃ s, (airport (Fin 15) 10 5).run grounded [(0, 0)] = some s ∧
    Blocked s 1 ∧ ¬ Deadlock s := by
  refine ⟨_, rfl, .inl ⟨.waitingToLandMutex, rfl, by decide⟩, ?_⟩
  exact no_deadlock (show 1 ≤ 5 by decide) (show 5 ≤ 10 by decide) (by simp)
    (System.Reachable.run [(0, 0)] (.init grounded_started) rfl)

end Deadlock

end Sysopy.Airport
