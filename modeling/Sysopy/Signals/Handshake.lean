/-
The handshake of cw04/zad2/zad2b: sender.c and receiver.c with their handlers installed. The sender sends one
SIGUSR1 at a time and spins until the receiver's handler has sent one back; then both end with a SIGUSR2. One
step is one statement of a process or the start of a handler, at any point between two statements.
-/
import Mathlib.Tactic
import Sysopy.Conc.Signal

namespace Sysopy.Signals

open Sysopy.Conc

inductive Signal where
  | SIGUSR1
  | SIGUSR2
  deriving DecidableEq, Repr

instance : Fintype Signal := ⟨{.SIGUSR1, .SIGUSR2}, fun s => by cases s <;> decide⟩

/-- Whom the receiver's `pid` names. -/
inductive Party where
  | sender
  | receiver
  deriving DecidableEq, Repr

namespace Handshake

/-! ## sender.c -/

structure SenderVars where
  received : ℕ
  loop : ℕ
  wait : ℕ
  deriving DecidableEq, Repr

/-- Where the sender's `main` is after it has installed the handlers; the argument is `i`. -/
inductive SenderPc where
  | test (i : ℕ)
  | kill (i : ℕ)
  | setWait (i : ℕ)
  | spin (i : ℕ)
  | killLoop
  | loop
  | print
  | returned
  deriving DecidableEq, Repr

/-- Where the sender's `handler` is. -/
inductive SenderHandler where
  | entry
  | clearWait
  | ret
  deriving DecidableEq, Repr

/-- `main` of sender.c from its for loop on. -/
def senderMain (signals : ℕ) (v : SenderVars) : SenderPc → Option (SenderVars × SenderPc × Option Signal)
  | .test i => some (v, if i < signals then .kill i else .killLoop, none)
  | .kill i => some (v, .setWait i, some .SIGUSR1)
  | .setWait i => some ({ v with wait := 1 }, .spin i, none)
  | .spin i => some (v, if v.wait ≠ 0 then .spin i else .test (i + 1), none)
  | .killLoop => some (v, .loop, some .SIGUSR2)
  | .loop => some (v, if v.loop ≠ 0 then .loop else .print, none)
  | .print => some (v, .returned, none)
  | .returned => none

/-- `handler` of sender.c. -/
def senderHandler (signal : Signal) (v : SenderVars) : SenderHandler → SenderVars × Option SenderHandler × Option Signal
  | .entry =>
    if signal = .SIGUSR1 then ({ v with received := v.received + 1 }, some .clearWait, none)
    else ({ v with loop := 0 }, some .ret, none)
  | .clearWait => ({ v with wait := 0 }, some .ret, none)
  | .ret => (v, none, none)

def sender (signals : ℕ) : Code Signal SenderVars SenderPc SenderHandler :=
  ⟨senderMain signals, fun m => m == .returned, .entry, senderHandler⟩

/-! ## receiver.c -/

structure ReceiverVars where
  received : ℕ
  loop : ℕ
  /-- The process `pid` names; a global that is not set yet is 0 and names none. -/
  pid : Option Party
  deriving DecidableEq, Repr

/-- Where the receiver's `main` is after it has installed the handlers. -/
inductive ReceiverPc where
  | loop
  | killLoop
  | print
  | returned
  deriving DecidableEq, Repr

/-- Where the receiver's `handler` is. -/
inductive ReceiverHandler where
  | entry
  | setPid
  | print
  | kill
  | ret
  deriving DecidableEq, Repr

/-- `kill(pid, signal)`, as far as it reaches the sender. -/
def kill (pid : Option Party) (signal : Signal) : Option Signal := if pid = some .sender then some signal else none

/-- `main` of receiver.c from its while loop on. -/
def receiverMain (v : ReceiverVars) : ReceiverPc → Option (ReceiverVars × ReceiverPc × Option Signal)
  | .loop => some (v, if v.loop ≠ 0 then .loop else .killLoop, none)
  | .killLoop => some (v, .print, kill v.pid .SIGUSR2)
  | .print => some (v, .returned, none)
  | .returned => none

/-- `handler` of receiver.c; only the sender sends to the receiver, so `si_pid` is the sender's. -/
def receiverHandler (signal : Signal) (v : ReceiverVars) :
    ReceiverHandler → ReceiverVars × Option ReceiverHandler × Option Signal
  | .entry =>
    if signal = .SIGUSR1 then ({ v with received := v.received + 1 }, some .setPid, none)
    else ({ v with loop := 0 }, some .ret, none)
  | .setPid => ({ v with pid := some .sender }, some .print, none)
  | .print => (v, some .kill, none)
  | .kill => (v, some .ret, kill v.pid .SIGUSR1)
  | .ret => (v, none, none)

def receiver : Code Signal ReceiverVars ReceiverPc ReceiverHandler :=
  ⟨receiverMain, fun m => m == .returned, .entry, receiverHandler⟩

/-! ## Both -/

abbrev Sender := Process Signal SenderVars SenderPc SenderHandler

abbrev Receiver := Process Signal ReceiverVars ReceiverPc ReceiverHandler

/-- The sender in front of its for loop. -/
def senderStart : Sender := ⟨⟨0, 1, 0⟩, .test 0, [], fun _ => 0⟩

/-- The receiver in front of its while loop. -/
def receiverStart : Receiver := ⟨⟨0, 1, none⟩, .loop, [], fun _ => 0⟩

/-- All interleavings of the two. -/
def handshake (signals : ℕ) : System (Sender × Receiver) (Act Signal ⊕ Act Signal) :=
  (sender signals).duo receiver (.standard Signal) fun s => s = (senderStart, receiverStart)

/-! ## What the handlers do -/

section Handlers

variable {s t : Signal} {v v' : SenderVars} {w w' : ReceiverVars} {o : Option Signal}

/-- The sender's handler sends nothing. -/
theorem senderHandler_sends {f : SenderHandler} {f' : Option SenderHandler} (h : senderHandler s v f = (v', f', o)) :
    o = none := by
  cases f with
  | entry =>
    simp only [senderHandler] at h
    split at h <;> cases h <;> rfl
  | clearWait | ret =>
    cases h
    rfl

theorem senderHandler_ret {f : SenderHandler} (h : senderHandler s v f = (v', none, o)) : f = .ret ∧ v' = v := by
  cases f with
  | entry =>
    simp only [senderHandler] at h
    split at h <;> cases h
  | clearWait => cases h
  | ret =>
    cases h
    exact ⟨rfl, rfl⟩

/-- The receiver's handler sends the answer. -/
theorem receiverHandler_sends {f : ReceiverHandler} {f' : Option ReceiverHandler}
    (h : receiverHandler s w f = (w', f', some t)) : t = .SIGUSR1 ∧ f = .kill := by
  cases f with
  | entry =>
    simp only [receiverHandler] at h
    split at h <;> cases h
  | kill =>
    simp only [receiverHandler, kill] at h
    split at h <;> cases h
    exact ⟨rfl, rfl⟩
  | setPid | print | ret => cases h

theorem receiverHandler_ret {f : ReceiverHandler} (h : receiverHandler s w f = (w', none, o)) :
    f = .ret ∧ w' = w ∧ o = none := by
  cases f with
  | entry =>
    simp only [receiverHandler] at h
    split at h <;> cases h
  | ret =>
    cases h
    exact ⟨rfl, rfl, rfl⟩
  | setPid | print | kill => cases h

end Handlers

end Handshake

end Sysopy.Signals
