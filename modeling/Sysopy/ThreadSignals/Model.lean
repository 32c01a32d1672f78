/-
Signals to a process of two threads (cw08/zad2/main.c). The program is built five times, with one of the macros I to V,
for each of four signals; zad2.raport has a table of what became of the process. A signal that raise or pthread_kill
sends to a thread stays pending while that thread blocks it; then it is handled there, or its default action ends or
stops the whole process.
-/
import Sysopy.Conc.System

namespace Sysopy.ThreadSignals

open Sysopy.Conc

/-! ## Signals -/

/-- The macro of a build. -/
inductive Variant
  | I
  | II
  | III
  | IV
  | V
  deriving DecidableEq, Repr

/-- The values of `SIG`. -/
inductive Sig
  | SIGUSR1
  | SIGTERM
  | SIGKILL
  | SIGSTOP
  deriving DecidableEq, Repr

inductive Status
  | running
  | terminated
  | stopped
  deriving DecidableEq, Repr

/-- SIGKILL and SIGSTOP cannot be blocked or handled. -/
def Sig.catchable : Sig → Bool
  | .SIGUSR1 | .SIGTERM => true
  | .SIGKILL | .SIGSTOP => false

/-- What the signal does to the process by default. -/
def Sig.action : Sig → Status
  | .SIGSTOP => .stopped
  | _ => .terminated

/-! ## The process -/

/-- The main thread and `t`. -/
inductive Thread
  | main
  | t
  deriving DecidableEq, Repr

/-- The next statement of main. -/
inductive MainPc
  | create
  /-- Its calls of sigprocmask or signal. -/
  | setup
  | sleep
  /-- raise or pthread_kill. -/
  | send
  | join
  deriving DecidableEq, Repr

/-- The next statement of `thread_func`. -/
inductive ThreadPc
  | unborn
  | setup
  | pause
  deriving DecidableEq, Repr

structure Process where
  status : Status
  /-- `handler` is installed. -/
  handler : Bool
  blocked : Thread → Bool
  pending : Thread → Bool
  /-- The threads in which `handler` has run. -/
  handled : List Thread
  main : MainPc
  t : ThreadPc

inductive Act
  | main
  | t
  | deliver (x : Thread)
  deriving DecidableEq

/-- `sigprocmask(SIG_SETMASK, &sigset, NULL)` in a thread, without effect for the two signals that cannot be blocked. -/
def block (sig : Sig) (x : Thread) (s : Process) : Process :=
  if sig.catchable then { s with blocked := Function.update s.blocked x true } else s

/-- `signal(SIG, handler)`, which fails for them. -/
def install (sig : Sig) (s : Process) : Process := if sig.catchable then { s with handler := true } else s

/-- The thread that the signal is sent to: raise in the main thread sends it to that thread. -/
def Variant.target : Variant → Thread
  | .I | .II | .III => .main
  | .IV | .V => .t

/-- The calls of main in front of its sleep. -/
def mainSetup (v : Variant) (sig : Sig) (s : Process) : Process :=
  match v with
  | .II => block sig .main s
  | .III => install sig s
  | _ => s

/-- The calls of `thread_func` in front of its loop over pause. -/
def threadSetup (v : Variant) (sig : Sig) (s : Process) : Process :=
  match v with
  | .III => install sig s
  | .IV => block sig .t s
  | _ => s

/-- A statement of main; pthread_join does not return. -/
def stepMain (v : Variant) (sig : Sig) (s : Process) : Option Process :=
  match s.main with
  | .create => some { s with t := .setup, main := .setup }
  | .setup => some { mainSetup v sig s with main := .sleep }
  | .sleep => some { s with main := .send }
  | .send => some { s with pending := Function.update s.pending v.target true, main := .join }
  | .join => none

/-- A step of `thread_func`, which then only waits in its loop. -/
def stepThread (v : Variant) (sig : Sig) (s : Process) : Option Process :=
  match s.t with
  | .setup => some { threadSetup v sig s with t := .pause }
  | .unborn | .pause => none

/-- A pending signal takes effect in its thread. -/
def deliver (sig : Sig) (x : Thread) (s : Process) : Option Process :=
  if s.pending x = true ∧ s.blocked x = false then
    if s.handler then
      some { s with pending := Function.update s.pending x false, handled := s.handled ++ [x] }
    else some { s with status := sig.action }
  else none

/-- A process that has ended or is stopped takes no step. -/
def next (v : Variant) (sig : Sig) (s : Process) (a : Act) : Option Process :=
  if s.status = .running then
    match a with
    | .main => stepMain v sig s
    | .t => stepThread v sig s
    | .deliver x => deliver sig x s
  else none

/-- The process in front of pthread_create. -/
def Process.initial : Process := ⟨.running, false, fun _ => false, fun _ => false, [], .create, .unborn⟩

/-- All runs of a build. -/
def process (v : Variant) (sig : Sig) : System Process Act := ⟨fun s => s = .initial, next v sig⟩

/-! ## The report -/

/-- The entries of the table in zad2.raport. -/
inductive Entry
  | ZABITY
  | NIC
  | PRZECH
  | STOPOWANY
  deriving DecidableEq, Repr

/-- The table: a row for each variant and a column for each signal. -/
def table : Variant → Sig → Entry
  | .I, .SIGUSR1 | .I, .SIGTERM => .ZABITY
  | .II, .SIGUSR1 | .II, .SIGTERM => .NIC
  | .III, .SIGUSR1 | .III, .SIGTERM => .PRZECH
  | .IV, .SIGUSR1 | .IV, .SIGTERM => .NIC
  | .V, .SIGUSR1 | .V, .SIGTERM => .ZABITY
  | _, .SIGKILL => .ZABITY
  | _, .SIGSTOP => .STOPOWANY

/-- What an entry says of the process: it was killed, nothing happened, the signal was caught once, or it was
stopped. -/
def Process.Shows (s : Process) : Entry → Prop
  | .ZABITY => s.status = .terminated ∧ s.handled = []
  | .NIC => s.status = .running ∧ s.handled = []
  | .PRZECH => s.status = .running ∧ s.handled.length = 1
  | .STOPOWANY => s.status = .stopped ∧ s.handled = []

end Sysopy.ThreadSignals
