/-
What zad2.raport says of the program of cw08/zad2 holds for every interleaving of the two threads, but for one row: the
signal is sent to `t` after a sleep of one second, and only if `t` has blocked it by the time it takes effect does
nothing happen.
-/
import Sysopy.ThreadSignals.Model

namespace Sysopy.ThreadSignals

open Sysopy.Conc

section Calls

variable {sig : Sig} {x y : Thread} {s : Process}

theorem block_eq (sig : Sig) (x : Thread) (s : Process) :
    block sig x s = { s with blocked := Function.update s.blocked x (s.blocked x || sig.catchable) } := by
  unfold block
  cases sig.catchable
  · simp
  · simp

theorem install_eq (sig : Sig) (s : Process) : install sig s = { s with handler := s.handler || sig.catchable } := by
  unfold install
  cases sig.catchable
  · simp
  · simp

end Calls

/-! ## The invariant -/

/-- Main has made its calls of sigprocmask or signal. -/
def MainPc.ready : MainPc → Bool
  | .create | .setup => false
  | .sleep | .send | .join => true

/-- The signal has been sent and has not taken effect, or the handler has run once, or it took its default action in a
thread that did not block it. -/
inductive Sent (v : Variant) (sig : Sig) (s : Process) : Prop
  | pending (status : s.status = .running) (handled : s.handled = []) (pending : s.pending v.target = true)
  | handled (status : s.status = .running) (handled : s.handled.length = 1) (handler : s.handler = true)
      (pending : s.pending v.target = false)
  | acted (status : s.status = sig.action) (handled : s.handled = []) (handler : s.handler = false)
      (unblocked : s.blocked v.target = false)

structure Inv (v : Variant) (sig : Sig) (s : Process) : Prop where
  handler : s.handler = true → v = .III ∧ sig.catchable = true
  installed : v = .III → sig.catchable = true → s.main.ready = true → s.handler = true
  blockedMain : s.blocked .main = true ↔ v = .II ∧ sig.catchable = true ∧ s.main.ready = true
  blockedT : s.blocked .t = true ↔ v = .IV ∧ sig.catchable = true ∧ s.t = .pause
  born : s.main = .create ↔ s.t = .unborn
  unsent : s.main ≠ .join → s.status = .running ∧ s.handled = [] ∧ ∀ x, s.pending x = false
  other : ∀ x, x ≠ v.target → s.pending x = false
  sent : s.main = .join → Sent v sig s

section Step

variable {v : Variant} {sig : Sig} {s s' : Process} {x : Thread}

theorem inv_initial (v : Variant) (sig : Sig) : Inv v sig .initial := by
  constructor <;> simp [Process.initial, MainPc.ready]

theorem Inv.main (hI : Inv v sig s) (h : stepMain v sig s = some s') : Inv v sig s' := by
  obtain ⟨hhandler, hinstalled, hmain, ht, hborn, hunsent, hother, -⟩ := hI
  unfold stepMain at h
  split at h
  · rename_i hpc
    cases h
    constructor <;> simp_all [MainPc.ready]
  · rename_i hpc
    cases h
    obtain ⟨hstatus, hhandled, hpending⟩ := hunsent (by simp [hpc])
    cases v <;> simp only [mainSetup, block_eq, install_eq]
    case II | I | IV | V => constructor <;> simp_all [MainPc.ready]
    case III =>
      refine ⟨fun hset => ⟨rfl, ?_⟩, fun _ hcatch _ => ?_, ?_, ht, ?_, fun _ => ⟨hstatus, hhandled, hpending⟩, hother,
        ?_⟩
      · rcases Bool.or_eq_true_iff.1 hset with hset | hset
        · exact (hhandler hset).2
        · exact hset
      · simp [hcatch]
      · simp_all [MainPc.ready]
      · simp_all
      · rintro ⟨⟩
  · rename_i hpc
    cases h
    constructor <;> simp_all [MainPc.ready]
  · rename_i hpc
    cases h
    obtain ⟨hstatus, hhandled, hpending⟩ := hunsent (by simp [hpc])
    refine ⟨hhandler, ?_, ?_, ht, by simp_all, by simp, fun x hx => ?_, fun _ => ?_⟩
    · simp_all [MainPc.ready]
    · simp_all [MainPc.ready]
    · simp only [Function.update_of_ne hx, hpending]
    · exact .pending hstatus hhandled (Function.update_self ..)
  · cases h

theorem action_ne_running (sig : Sig) : sig.action ≠ .running := by cases sig <;> rintro ⟨⟩

/-- Calls that block the signal or install the handler do not change what has become of it. -/
theorem Sent.congr (h : Sent v sig s) (hs : s.status = .running) (hstatus : s'.status = s.status)
    (hhandled : s'.handled = s.handled) (hpending : s'.pending = s.pending)
    (hhandler : s.handler = true → s'.handler = true) : Sent v sig s' := by
  cases h with
  | pending _ h₁ h₂ => exact .pending (hstatus.trans hs) (hhandled.trans h₁) (by rw [hpending, h₂])
  | handled _ h₁ h₂ h₃ =>
    exact .handled (hstatus.trans hs) (by rw [hhandled, h₁]) (hhandler h₂) (by rw [hpending, h₃])
  | acted h₁ => exact absurd (h₁.symm.trans hs) (action_ne_running sig)

theorem Inv.t (hI : Inv v sig s) (hs : s.status = .running) (h : stepThread v sig s = some s') : Inv v sig s' := by
  obtain ⟨hhandler, hinstalled, hmain, ht, hborn, hunsent, hother, hsent⟩ := hI
  unfold stepThread at h
  split at h
  · rename_i hpc
    cases h
    cases v <;> simp only [threadSetup, block_eq, install_eq]
    case I | II | V =>
      refine ⟨hhandler, hinstalled, hmain, ?_, ?_, hunsent, hother, fun hjoin => (hsent hjoin).congr hs rfl rfl rfl id⟩
      · simp_all
      · simp_all
    case III =>
      refine ⟨fun hset => ⟨rfl, ?_⟩, fun _ hcatch _ => by simp [hcatch], hmain, ?_, ?_, hunsent, hother,
        fun hjoin => (hsent hjoin).congr hs rfl rfl rfl fun hset => by simp [hset]⟩
      · rcases Bool.or_eq_true_iff.1 hset with hset | hset
        · exact (hhandler hset).2
        · exact hset
      · simp_all
      · simp_all
    case IV =>
      refine ⟨hhandler, hinstalled, ?_, ?_, ?_, hunsent, hother, fun hjoin => (hsent hjoin).congr hs rfl rfl rfl id⟩
      · simp_all
      · simp_all
      · simp_all
  · cases h
  · cases h

/-- The signal takes effect in its target. -/
theorem Inv.deliver (hI : Inv v sig s) (hs : s.status = .running) (h : deliver sig x s = some s') :
    Inv v sig s' ∧ x = v.target ∧ s.pending x = true ∧ s.main = .join := by
  obtain ⟨hhandler, hinstalled, hmain, ht, hborn, hunsent, hother, hsent⟩ := hI
  unfold ThreadSignals.deliver at h
  split at h
  · rename_i hdue
    obtain ⟨hpending, hblocked⟩ := hdue
    obtain rfl : x = v.target := by
      by_contra hx
      rw [hother x hx] at hpending
      cases hpending
    have hjoin : s.main = .join := by
      by_contra hj
      rw [(hunsent hj).2.2] at hpending
      cases hpending
    have hhandled : s.handled = [] := by
      cases hsent hjoin with
      | pending _ h₁ _ => exact h₁
      | handled _ _ _ h₁ =>
        rw [hpending] at h₁
        cases h₁
      | acted h₁ => exact absurd (h₁.symm.trans hs) (action_ne_running sig)
    refine ⟨?_, rfl, hpending, hjoin⟩
    split at h
    · rename_i hset
      cases h
      refine ⟨hhandler, hinstalled, hmain, ht, hborn, fun hj => absurd hjoin hj, fun y hy => ?_, fun _ => ?_⟩
      · simp only [Function.update_of_ne hy, hother y hy]
      · exact .handled hs (by simp [hhandled]) hset (Function.update_self ..)
    · rename_i hset
      cases h
      exact ⟨hhandler, hinstalled, hmain, ht, hborn, fun hj => absurd hjoin hj, hother,
        fun _ => .acted rfl hhandled (by simpa using hset) hblocked⟩
  · cases h

end Step

/-! ## Runs -/

section Runs

variable {v : Variant} {sig : Sig} {s s' : Process} {a : Act}

def MainPc.left : MainPc → ℕ
  | .create => 4
  | .setup => 3
  | .sleep => 2
  | .send => 1
  | .join => 0

def ThreadPc.left : ThreadPc → ℕ
  | .unborn | .setup => 1
  | .pause => 0

/-- The steps that are left. -/
def left (v : Variant) (s : Process) : ℕ :=
  if s.status = .running then
    1 + s.main.left + s.t.left + if s.main = .join ∧ s.pending v.target = false then 0 else 1
  else 0

theorem mainSetup_frame (v : Variant) (sig : Sig) (s : Process) :
    (mainSetup v sig s).status = s.status ∧ (mainSetup v sig s).t = s.t := by
  cases v <;> simp [mainSetup, block_eq, install_eq]

theorem threadSetup_frame (v : Variant) (sig : Sig) (s : Process) : (threadSetup v sig s).status = s.status ∧
    (threadSetup v sig s).main = s.main ∧ (threadSetup v sig s).pending = s.pending := by
  cases v <;> simp [threadSetup, block_eq, install_eq]

theorem left_stepMain (hI : Inv v sig s) (hs : s.status = .running) (h : stepMain v sig s = some s') :
    left v s' < left v s := by
  unfold stepMain at h
  split at h
  · rename_i hpc
    cases h
    have hunborn := hI.born.1 hpc
    simp [left, hs, hpc, hunborn, MainPc.left, ThreadPc.left]
  · rename_i hpc
    cases h
    obtain ⟨hstatus, ht⟩ := mainSetup_frame v sig s
    simp [left, hstatus, ht, hs, hpc, MainPc.left]
  · rename_i hpc
    cases h
    simp [left, hs, hpc, MainPc.left]
  · rename_i hpc
    cases h
    simp [left, hs, hpc, MainPc.left]
  · cases h

theorem left_stepThread (hs : s.status = .running) (h : stepThread v sig s = some s') : left v s' < left v s := by
  unfold stepThread at h
  split at h
  · rename_i hpc
    cases h
    obtain ⟨hstatus, hmain, hpending⟩ := threadSetup_frame v sig s
    simp [left, hstatus, hmain, hpending, hs, hpc, ThreadPc.left]
  · cases h
  · cases h

theorem left_deliver (hs : s.status = .running) (hjoin : s.main = .join) (hpending : s.pending v.target = true)
    (h : deliver sig v.target s = some s') : left v s' < left v s := by
  unfold deliver at h
  split at h
  · split at h
    · cases h
      simp [left, hs, hjoin, hpending]
    · cases h
      simp [left, hs, action_ne_running]
  · cases h

theorem Inv.next (hI : Inv v sig s) (h : next v sig s a = some s') : Inv v sig s' ∧ left v s' < left v s := by
  unfold ThreadSignals.next at h
  split at h
  · rename_i hs
    cases a with
    | main => exact ⟨hI.main h, left_stepMain hI hs h⟩
    | t => exact ⟨hI.t hs h, left_stepThread hs h⟩
    | deliver x =>
      obtain ⟨hI', rfl, hpending, hjoin⟩ := hI.deliver hs h
      exact ⟨hI', left_deliver hs hjoin hpending h⟩
  · cases h

/-- Where no step is possible the signal has been sent, and in a process that still runs `t` is in its loop and the
signal is not pending in a thread that would take it. -/
theorem Inv.ended (hI : Inv v sig s) (hend : ∀ a, ThreadSignals.next v sig s a = none) : s.main = .join ∧
    (s.status = .running → s.t = .pause ∧ (s.pending v.target = true → s.blocked v.target = true)) := by
  have hrunning : s.status = .running → s.main = .join := fun hs => by
    have hnone := hend .main
    rw [ThreadSignals.next, if_pos hs] at hnone
    unfold stepMain at hnone
    split at hnone <;> first | assumption | cases hnone
  have hjoin : s.main = .join := by
    by_contra hj
    exact hj (hrunning (hI.unsent hj).1)
  refine ⟨hjoin, fun hs => ⟨?_, fun hpending => ?_⟩⟩
  · have hnone := hend .t
    rw [ThreadSignals.next, if_pos hs] at hnone
    cases ht : s.t with
    | unborn =>
      have hcreate := hI.born.2 ht
      rw [hjoin] at hcreate
      cases hcreate
    | setup => simp [stepThread, ht] at hnone
    | pause => rfl
  · have hnone := hend (.deliver v.target)
    rw [ThreadSignals.next, if_pos hs] at hnone
    by_contra hblocked
    have hdue : s.pending v.target = true ∧ s.blocked v.target = false := ⟨hpending, by simpa using hblocked⟩
    simp only [ThreadSignals.deliver, if_pos hdue] at hnone
    split at hnone <;> cases hnone

/-- Only main with the macro II and `t` with the macro IV block the signal sent to them. -/
theorem Inv.blocked_target (hI : Inv v sig s) (h : s.blocked v.target = true) :
    (v = .II ∨ v = .IV) ∧ sig.catchable = true := by
  cases v with
  | I | II | III =>
    obtain ⟨hv, hcatch, -⟩ := hI.blockedMain.1 h
    exact ⟨.inl hv, hcatch⟩
  | IV | V =>
    obtain ⟨hv, hcatch, -⟩ := hI.blockedT.1 h
    exact ⟨.inr hv, hcatch⟩

/-- In a process that has come to rest the signal is pending and blocked, or it was handled or took its action. -/
theorem Inv.shows (hI : Inv v sig s) (hend : ∀ a, ThreadSignals.next v sig s a = none) :
    s.Shows (if v = .IV ∧ sig.catchable = true ∧ s.blocked .t = false then .ZABITY else table v sig) := by
  obtain ⟨hjoin, hrest⟩ := hI.ended hend
  have hsent := hI.sent hjoin
  cases hsent with
  | pending hs h₁ hpending =>
    -- It stays pending: its thread blocks it.
    have hblocked := (hrest hs).2 hpending
    obtain ⟨hv, hcatch⟩ := hI.blocked_target hblocked
    have hNIC : table v sig = .NIC := by
      rcases hv with rfl | rfl <;> cases sig <;> first | rfl | cases hcatch
    rw [if_neg, hNIC]
    · exact ⟨hs, h₁⟩
    · rintro ⟨rfl, -, hunblocked⟩
      exact absurd hblocked (by simp [Variant.target, hunblocked])
  | handled hs h₁ hset _ =>
    obtain ⟨rfl, hcatch⟩ := hI.handler hset
    have hPRZECH : table .III sig = .PRZECH := by cases sig <;> first | rfl | cases hcatch
    rw [if_neg (by simp), hPRZECH]
    exact ⟨hs, h₁⟩
  | acted hs h₁ hset hblocked =>
    obtain ⟨-, hinstalled, hmain, -, -, -, -, -⟩ := hI
    cases v <;> cases sig <;>
      simp_all [Variant.target, Sig.catchable, Sig.action, table, Process.Shows, MainPc.ready]

/-- Every run of every build is over after a few steps, with main at pthread_join. What has then become of the
process is what the report says, except that with the macro IV the signal kills it where it takes effect before `t`
blocks it. -/
theorem report (v : Variant) (sig : Sig) (as : List Act) (hr : (process v sig).run .initial as = some s) :
    as.length ≤ 7 ∧ ((∀ a, (process v sig).next s a = none) → s.main = .join ∧
      s.Shows (if v = .IV ∧ sig.catchable = true ∧ s.blocked .t = false then .ZABITY else table v sig)) := by
  obtain ⟨hI, hlength⟩ := System.run_length (S := process v sig) (I := Inv v sig) (w := left v)
    (fun _ _ _ hI h => hI.next h) as (inv_initial v sig) hr
  have hseven : left v .initial = 7 := by simp [left, Process.initial, MainPc.left, ThreadPc.left]
  exact ⟨by omega, fun hend => ⟨(hI.ended hend).1, hI.shows hend⟩⟩

/-- The signal overtakes `t`, which then has not blocked it. -/
theorem report_early : ∃ s, (process .IV .SIGTERM).run .initial [.main, .main, .main, .main, .deliver .t] = some s ∧
    s.status = .terminated ∧ table .IV .SIGTERM = .NIC :=
  ⟨_, rfl, (report .IV .SIGTERM [.main, .main, .main, .main, .deliver .t] rfl).2 (fun _ => rfl) |>.2.1, rfl⟩

end Runs

end Sysopy.ThreadSignals
