/-
The bursts of cw04/zad2/zad2a and zad2c: sender.c and receiver.c with their handlers installed. The sender sends
all its SIGUSR1 and then a SIGUSR2, and the receiver does the same for those it has counted. The two directories
differ in the signals only, standard ones in zad2a and SIGRTMIN plus the same numbers in zad2c, so one model
serves both, with the way signals are kept as a parameter. One step is one statement of a process or the start of
a handler.
-/
import Sysopy.Conc.Count
import Sysopy.Signals.Handshake

namespace Sysopy.Signals.Burst

open Sysopy.Conc

/-! ## How the signals are delivered -/

/-- The lower number first. -/
def before : Signal → List Signal
  | .SIGUSR1 => []
  | .SIGUSR2 => [.SIGUSR1]

/-- zad2a: a signal that is pending is not queued again. -/
def plain : Delivery Signal := ⟨fun _ => 1, before⟩

/-- zad2c: real-time signals are queued. -/
def realtime : Delivery Signal := ⟨fun k => k + 1, before⟩

/-! ## sender.c -/

structure SenderVars where
  received : ℕ
  loop : ℕ
  deriving DecidableEq, Repr

/-- Where the sender's `main` is after it has installed the handlers; the argument is `i`. -/
inductive SenderPc where
  | test (i : ℕ)
  | kill (i : ℕ)
  | killLoop
  | loop
  | printSent
  | print
  | returned
  deriving DecidableEq, Repr

/-- Where the sender's `handler` is. -/
inductive SenderHandler where
  | entry
  | ret
  deriving DecidableEq, Repr

/-- `main` of sender.c from its for loop on. -/
def senderMain (signals : ℕ) (v : SenderVars) : SenderPc → Option (SenderVars × SenderPc × Option Signal)
  | .test i => some (v, if i < signals then .kill i else .killLoop, none)
  | .kill i => some (v, .test (i + 1), some .SIGUSR1)
  | .killLoop => some (v, .loop, some .SIGUSR2)
  | .loop => some (v, if v.loop ≠ 0 then .loop else .printSent, none)
  | .printSent => some (v, .print, none)
  | .print => some (v, .returned, none)
  | .returned => none

/-- `handler` of sender.c. -/
def senderHandler (signal : Signal) (v : SenderVars) : SenderHandler → SenderVars × Option SenderHandler × Option Signal
  | .entry =>
    if signal = .SIGUSR1 then ({ v with received := v.received + 1 }, some .ret, none)
    else ({ v with loop := 0 }, some .ret, none)
  | .ret => (v, none, none)

def sender (signals : ℕ) : Code Signal SenderVars SenderPc SenderHandler :=
  ⟨senderMain signals, fun m => m == .returned, .entry, senderHandler⟩

/-! ## receiver.c -/

structure ReceiverVars where
  received : ℕ
  loop : ℕ
  /-- The process `pid` names; a global that is not set yet is 0 and names none. -/
  pid : Option Party
  deriving DecidableEq, Repr

/-- Where the receiver's `main` is after it has installed the handlers; the argument is `i`. -/
inductive ReceiverPc where
  | loop
  | test (i : ℕ)
  | kill (i : ℕ)
  | killLoop
  | print
  | returned
  deriving DecidableEq, Repr

/-- Where the receiver's `handler` is. -/
inductive ReceiverHandler where
  | entry
  | setPid
  | print
  | ret
  deriving DecidableEq, Repr

/-- `main` of receiver.c from its while loop on. -/
def receiverMain (v : ReceiverVars) : ReceiverPc → Option (ReceiverVars × ReceiverPc × Option Signal)
  | .loop => some (v, if v.loop ≠ 0 then .loop else .test 0, none)
  | .test i => some (v, if i < v.received then .kill i else .killLoop, none)
  | .kill i => some (v, .test (i + 1), Handshake.kill v.pid .SIGUSR1)
  | .killLoop => some (v, .print, Handshake.kill v.pid .SIGUSR2)
  | .print => some (v, .returned, none)
  | .returned => none

/-- `handler` of receiver.c; only the sender sends to the receiver, so `si_pid` is the sender's. -/
def receiverHandler (signal : Signal) (v : ReceiverVars) :
    ReceiverHandler → ReceiverVars × Option ReceiverHandler × Option Signal
  | .entry =>
    if signal = .SIGUSR1 then ({ v with received := v.received + 1 }, some .setPid, none)
    else ({ v with loop := 0 }, some .ret, none)
  | .setPid => ({ v with pid := some .sender }, some .print, none)
  | .print => (v, some .ret, none)
  | .ret => (v, none, none)

def receiver : Code Signal ReceiverVars ReceiverPc ReceiverHandler :=
  ⟨receiverMain, fun m => m == .returned, .entry, receiverHandler⟩

/-! ## Both -/

abbrev Sender := Process Signal SenderVars SenderPc SenderHandler

abbrev Receiver := Process Signal ReceiverVars ReceiverPc ReceiverHandler

/-- The sender in front of its for loop. -/
def senderStart : Sender := ⟨⟨0, 1⟩, .test 0, [], fun _ => 0⟩

/-- The receiver in front of its while loop. -/
def receiverStart : Receiver := ⟨⟨0, 1, none⟩, .loop, [], fun _ => 0⟩

/-- All interleavings of the two. -/
def burst (D : Delivery Signal) (signals : ℕ) : System (Sender × Receiver) (Act Signal ⊕ Act Signal) :=
  (sender signals).duo receiver D fun s => s = (senderStart, receiverStart)

/-! ## Both count SIGUSR1 and end with SIGUSR2 -/

def senderCounter : Counter Signal SenderVars SenderHandler :=
  ⟨.SIGUSR1, .SIGUSR2, .entry, SenderVars.received, SenderVars.loop⟩

def receiverCounter : Counter Signal ReceiverVars ReceiverHandler :=
  ⟨.SIGUSR1, .SIGUSR2, .entry, ReceiverVars.received, ReceiverVars.loop⟩

/-- The main code of the sender changes no variable. -/
theorem senderMain_vars {n : ℕ} {v v' : SenderVars} {m m' : SenderPc} {o : Option Signal}
    (h : senderMain n v m = some (v', m', o)) : v' = v := by
  cases m <;> cases h <;> rfl

theorem receiverMain_vars {v v' : ReceiverVars} {m m' : ReceiverPc} {o : Option Signal}
    (h : receiverMain v m = some (v', m', o)) : v' = v := by
  cases m <;> cases h <;> rfl

/-- The receiver does not come back to its while loop. -/
theorem receiverMain_ne_loop {v v' : ReceiverVars} {m m' : ReceiverPc} {o : Option Signal}
    (h : receiverMain v m = some (v', m', o)) (hm : m ≠ .loop) : m' ≠ .loop := by
  cases m with
  | loop => exact absurd rfl hm
  | test i =>
    cases h
    split <;> nofun
  | returned => cases h
  | _ =>
    cases h
    nofun

theorem senderCounter_of (n : ℕ) : senderCounter.Of (sender n) where
  ne := nofun
  only s := by cases s <;> simp [senderCounter]
  entry := rfl
  main h := by
    rw [senderMain_vars h]
    exact ⟨rfl, rfl⟩
  counts h := by
    cases h
    exact ⟨rfl, rfl⟩
  stops h := by
    cases h
    exact ⟨rfl, rfl⟩
  rest {s v f v' f' o} h hf := by
    cases f with
    | entry => exact absurd rfl hf
    | ret =>
      cases h
      exact ⟨rfl, rfl⟩
  leaves {s v f v' f' o} h := by
    cases f with
    | entry => cases s <;> cases h <;> nofun
    | ret => cases h
  silent {s v f v' f' o} h := by
    cases f with
    | entry => cases s <;> cases h <;> rfl
    | ret =>
      cases h
      rfl

theorem receiverCounter_of : receiverCounter.Of receiver where
  ne := nofun
  only s := by cases s <;> simp [receiverCounter]
  entry := rfl
  main h := by
    rw [receiverMain_vars h]
    exact ⟨rfl, rfl⟩
  counts h := by
    cases h
    exact ⟨rfl, rfl⟩
  stops h := by
    cases h
    exact ⟨rfl, rfl⟩
  rest {s v f v' f' o} h hf := by
    cases f with
    | entry => exact absurd rfl hf
    | setPid | print | ret =>
      cases h
      exact ⟨rfl, rfl⟩
  leaves {s v f v' f' o} h := by
    cases f with
    | entry => cases s <;> cases h <;> nofun
    | setPid | print =>
      cases h
      nofun
    | ret => cases h
  silent {s v f v' f' o} h := by
    cases f with
    | entry => cases s <;> cases h <;> rfl
    | setPid | print | ret =>
      cases h
      rfl

theorem plain_sound : plain.Sound := fun k => ⟨Nat.one_pos, Nat.le_add_left 1 k⟩

theorem realtime_sound : realtime.Sound := fun k => ⟨Nat.succ_pos k, le_rfl⟩

theorem realtime_lossless : realtime.Lossless := fun _ => rfl

end Sysopy.Signals.Burst
