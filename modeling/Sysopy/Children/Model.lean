/-
The program cw03/zad1/proc.c, which creates n children one after the other by fork, vfork or clone and waits for
each. A child increments a counter, in its own copy of the memory or in that of its parent, and ends with the clock
ticks that it has lived. The clock may advance between any two statements, and any child may fail to be created.
-/
import Sysopy.CText.Compare
import Sysopy.Conc.System

namespace Sysopy.Children

open Sysopy.CText Sysopy.Conc

/-! ## Children -/

/-- The globals. -/
structure Globals where
  counter : ℤ
  parent_time : ℤ

inductive Method
  | fork
  | vfork
  | clonefork
  | clonevfork
  deriving DecidableEq, Repr

/-- The calls of strcmp in the loop. -/
def methodOf (method : List Char) : Option Method :=
  if strcmp method "fork".toList = 0 then some .fork
  else if strcmp method "vfork".toList = 0 then some .vfork
  else if strcmp method "clonefork".toList = 0 then some .clonefork
  else if strcmp method "clonevfork".toList = 0 then some .clonevfork
  else none

/-- vfork, and clone with CLONE_VM, leave the child in the memory of its parent. -/
def Method.shares : Method → Bool
  | .fork | .clonefork => false
  | .vfork | .clonevfork => true

/-- The next statement of `fn`: it is called where fork or vfork has returned 0, and clone starts the child in it. -/
inductive FnPc
  | increment
  | times
  | exit (t : ℤ)
  /-- The status that it ended with; `t` is a history. -/
  | ended (t : ℤ) (status : ℕ)
  deriving DecidableEq, Repr

structure Child where
  pc : FnPc
  /-- Its copy of the memory, if it does not share that of its parent. -/
  memory : Option Globals

/-! ## The parent -/

/-- What is printed; the times are in clock ticks, and those of the processor are left out. -/
inductive Line
  | needsTwoArguments
  | unknownMethod
  | pidError
  | counter (counter : ℤ)
  | parent (real : ℤ)
  | children (real : ℤ)
  deriving DecidableEq, Repr

inductive Pc
  | start
  | test
  | stamp
  | create
  /-- In `wait`, or with vfork and CLONE_VFORK first in the call that created the child. -/
  | wait
  | report
  | returned (code : ℤ)
  /-- `strcpy` has written behind `method`; what follows is undefined. -/
  | overflow
  deriving DecidableEq, Repr

structure State where
  clock : ℤ
  memory : Globals
  i : ℕ
  start_time : ℤ
  child_time : ℤ
  pc : Pc
  child : Option Child
  printed : List Line
  /-- A history: the time at which `parent_time` was last set in the loop. -/
  born : ℤ
  /-- A history: for each child waited for, the ticks from then until it read the clock. -/
  lives : List ℤ

structure Args where
  argc : ℕ
  argv1 : CStr
  argv2 : CStr

/-- `atoi(argv[2])`. -/
def Args.n (a : Args) : ℤ := atoi a.argv2.1

inductive Act
  | tick (d : ℕ)
  /-- A statement of main; a child that it creates here is created or not. -/
  | main (created : Bool)
  | child
  deriving DecidableEq, Repr

/-- The call that creates a child. -/
def create (m : Method) (created : Bool) (s : State) : State :=
  if created then
    { s with pc := .wait, child := some ⟨.increment, if m.shares then none else some s.memory⟩ }
  else { s with pc := .test, i := s.i + 1, printed := s.printed ++ [.pidError] }

def stepMain (a : Args) (created : Bool) (s : State) : Option State :=
  match s.pc with
  | .start =>
    if a.argc ≠ 3 then some { s with pc := .returned (-1), printed := s.printed ++ [.needsTwoArguments] }
    else if a.argv1.1.length < 16 then
      some { s with pc := .test, start_time := s.clock, child_time := 0, memory.counter := 0, i := 0 }
    else some { s with pc := .overflow }
  | .test => some { s with pc := if (s.i : ℤ) < a.n then .stamp else .report }
  | .stamp => some { s with pc := .create, memory.parent_time := s.clock, born := s.clock }
  | .create =>
    match methodOf a.argv1.1 with
    | some m => some (create m created s)
    | none => some { s with pc := .returned (-1), printed := s.printed ++ [.unknownMethod] }
  | .wait =>
    match s.child with
    | some ⟨.ended t status, _⟩ =>
      some { s with
        pc := .test
        i := s.i + 1
        child := none
        child_time := s.child_time + status
        lives := s.lives ++ [t - s.born] }
    | _ => none
  | .report =>
    some { s with
      pc := .returned 0
      memory.parent_time := s.clock - s.start_time
      printed := s.printed ++
        [.counter s.memory.counter, .parent (s.clock - s.start_time), .children s.child_time] }
  | .returned _ | .overflow => none

/-- `counter++` in the memory that the child works in. -/
def increment (c : Child) (s : State) : State :=
  match c.memory with
  | some g => { s with child := some ⟨.times, some { g with counter := g.counter + 1 }⟩ }
  | none => { s with memory.counter := s.memory.counter + 1, child := some ⟨.times, none⟩ }

/-- The low eight bits of the argument of `_exit`, which WEXITSTATUS gives. -/
def exitStatus (value : ℤ) : ℕ := (value % 256).toNat

/-- A statement of the child; it reads `parent_time` in its memory. -/
def stepChild (s : State) : Option State :=
  match s.child with
  | some c =>
    match c.pc with
    | .increment => some (increment c s)
    | .times => some { s with child := some { c with pc := .exit s.clock } }
    | .exit t =>
      some { s with child := some { c with pc := .ended t (exitStatus (t - (c.memory.getD s.memory).parent_time)) } }
    | .ended _ _ => none
  | none => none

/-- The clock does not wait for the program. -/
def Act.statement : Act → Bool
  | .tick _ => false
  | .main _ | .child => true

def next (a : Args) (s : State) : Act → Option State
  | .tick d => some { s with clock := s.clock + d }
  | .main created => stepMain a created s
  | .child => stepChild s

/-- The process at the start of main, at some time. -/
def State.initial (clock : ℤ) (memory : Globals) : State := ⟨clock, memory, 0, 0, 0, .start, none, [], 0, []⟩

def proc (a : Args) : System State Act := ⟨fun s => ∃ clock memory, s = .initial clock memory, next a⟩

end Sysopy.Children
