/-
Turn taking between a server and its clients: every client has one message, which is in the server's queue,
with the server, in the client's own queue or with the client itself. The rules say what that message may be
in each place; a phase is a client's state together with the one place its message is in.
-/
import Mathlib.Tactic

namespace Sysopy.Conc

/-- How far a client is: before it has a queue, before its first message, without a message, or with one. -/
inductive Stage where
  | fresh
  | ready
  | idle
  | busy
  deriving DecidableEq

/-- What the system holds about one client: its messages in the server's queue, with the server and in its
own queue, its local state and its history. -/
@[ext] structure Holdings (M H C D : Type*) where
  queued : List M
  served : Option H
  own : Option (List M)
  client : C
  history : D

/-- The rules of the turns: the stage of a local state, and what may be true in each place. -/
structure Turns (M H C D : Type*) where
  stage : C → Stage
  fresh : C → D → Prop
  ready : C → D → Prop
  queued : C → D → M → Prop
  served : C → D → H → Prop
  own : C → D → M → Prop
  busy : C → D → Prop

namespace Turns

variable {M H C D : Type*} {T : Turns M H C D} {v : Holdings M H C D}

/-- The phases of a client: before its first message, and then the one place its message is in. -/
inductive Phase (T : Turns M H C D) (v : Holdings M H C D) : Prop
  | fresh (hs : T.stage v.client = .fresh) (h : T.fresh v.client v.history) (hq : v.queued = [])
    (hv : v.served = none) (ho : v.own = none)
  | ready (hs : T.stage v.client = .ready) (h : T.ready v.client v.history) (hq : v.queued = [])
    (hv : v.served = none) (ho : v.own = some [])
  | queued (m : M) (hs : T.stage v.client = .idle) (h : T.queued v.client v.history m) (hq : v.queued = [m])
    (hv : v.served = none) (ho : v.own = some [])
  | served (x : H) (hs : T.stage v.client = .idle) (h : T.served v.client v.history x) (hq : v.queued = [])
    (hv : v.served = some x) (ho : v.own = some [])
  | own (m : M) (hs : T.stage v.client = .idle) (h : T.own v.client v.history m) (hq : v.queued = [])
    (hv : v.served = none) (ho : v.own = some [m])
  | busy (hs : T.stage v.client = .busy) (h : T.busy v.client v.history) (hq : v.queued = [])
    (hv : v.served = none) (ho : v.own = some [])

/-! ## The place of a message tells the phase -/

theorem Phase.of_queued {m : M} (h : T.Phase v) (hm : m ∈ v.queued) :
    T.stage v.client = .idle ∧ T.queued v.client v.history m ∧ v.queued = [m] ∧ v.served = none ∧ v.own = some [] := by
  cases h
  case queued m' hs h hq hv ho =>
    obtain rfl : m = m' := by simpa [hq] using hm
    exact ⟨hs, h, hq, hv, ho⟩
  all_goals simp_all only [List.not_mem_nil]

theorem Phase.of_served {x : H} (h : T.Phase v) (hx : v.served = some x) :
    T.stage v.client = .idle ∧ T.served v.client v.history x ∧ v.queued = [] ∧ v.own = some [] := by
  cases h
  case served x' hs h hq hv ho =>
    obtain rfl : x' = x := Option.some.inj (hv.symm.trans hx)
    exact ⟨hs, h, hq, ho⟩
  all_goals simp_all only [reduceCtorEq]

theorem Phase.of_own {m : M} {l : List M} (h : T.Phase v) (hm : v.own = some (m :: l)) :
    T.stage v.client = .idle ∧ T.own v.client v.history m ∧ l = [] ∧ v.queued = [] ∧ v.served = none := by
  cases h
  case own m' hs h hq hv ho =>
    obtain ⟨rfl, rfl⟩ : m = m' ∧ l = [] := by simpa [hm] using ho
    exact ⟨hs, h, rfl, hq, hv⟩
  all_goals simp_all only [Option.some.injEq, reduceCtorEq]

theorem Phase.of_fresh (h : T.Phase v) (hs : T.stage v.client = .fresh) :
    T.fresh v.client v.history ∧ v.queued = [] ∧ v.served = none := by
  cases h
  case fresh h hq hv ho => exact ⟨h, hq, hv⟩
  all_goals simp_all only [reduceCtorEq]

theorem Phase.of_ready (h : T.Phase v) (hs : T.stage v.client = .ready) :
    T.ready v.client v.history ∧ v.queued = [] ∧ v.served = none ∧ v.own = some [] := by
  cases h
  case ready h hq hv ho => exact ⟨h, hq, hv, ho⟩
  all_goals simp_all only [reduceCtorEq]

theorem Phase.of_busy (h : T.Phase v) (hs : T.stage v.client = .busy) :
    T.busy v.client v.history ∧ v.queued = [] ∧ v.served = none ∧ v.own = some [] := by
  cases h
  case busy h hq hv ho => exact ⟨h, hq, hv, ho⟩
  all_goals simp_all only [reduceCtorEq]

/-! ## One message for each client -/

/-- How many messages of the client there are. -/
def count (T : Turns M H C D) (v : Holdings M H C D) : ℕ :=
  v.queued.length + v.served.toList.length + (v.own.getD []).length + if T.stage v.client = .busy then 1 else 0

theorem Phase.count (h : T.Phase v) (h1 : T.stage v.client ≠ .fresh) (h2 : T.stage v.client ≠ .ready) :
    T.count v = 1 := by
  unfold Turns.count
  cases h
  case fresh hs _ _ _ _ => exact absurd hs h1
  case ready hs _ _ _ _ => exact absurd hs h2
  all_goals
    rename_i hs _ hq hv ho
    simp [hs, hq, hv, ho]

theorem Phase.length_queued (h : T.Phase v) : v.queued.length ≤ 1 := by
  cases h <;> simp [*]

end Turns

end Sysopy.Conc
