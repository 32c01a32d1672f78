/-
The program cw05/zad1, which runs `tr [:lower:] [:upper:] | fold -w n`: the parent becomes tr, with the write end of the
pipe as its standard output, and the child fold, with the read end as its standard input. A step is a call of one of the
two; what fork and the execs leave open decides who sees the end of the pipe, and whom a write to it kills.
-/
import Sysopy.Conc.Filter
import Sysopy.Conc.Pipe
import Sysopy.Conc.System

namespace Sysopy.Pipeline

open Sysopy.Conc

/-! ## Descriptors -/

inductive PipeName
  | fd1
  | fd2
  deriving DecidableEq, Repr

/-- What a descriptor stands for. -/
inductive Object
  | stdin
  | stdout
  | readEnd (pipe : PipeName)
  | writeEnd (pipe : PipeName)
  deriving DecidableEq, Repr

/-- The descriptors of a process: 0, 1, and those that its variables hold. -/
structure Descriptors where
  zero : Option Object
  one : Option Object
  fd1_0 : Option Object
  fd1_1 : Option Object
  fd2_0 : Option Object
  fd2_1 : Option Object
  deriving DecidableEq, Repr

def Descriptors.terminal : Descriptors := ⟨some .stdin, some .stdout, none, none, none, none⟩

/-- Those of a process that has ended. -/
def Descriptors.closed : Descriptors := ⟨none, none, none, none, none, none⟩

/-- The process has the object open. -/
def Descriptors.has (d : Descriptors) (e : Object) : Bool :=
  d.zero == some e || d.one == some e || d.fd1_0 == some e || d.fd1_1 == some e || d.fd2_0 == some e ||
    d.fd2_1 == some e

/-! ## Processes -/

inductive Ending
  | exited
  | returned (code : ℤ)
  /-- By SIGPIPE. -/
  | killed
  deriving DecidableEq, Repr

/-- The next call of the parent; σ is the state of tr. -/
inductive Parent (σ : Type*)
  | start
  | pipe
  | fork
  | close
  | dup2
  | execl
  | tr (r : Filter σ Char)
  | ended (e : Ending)

/-- The next call of the child; τ is the state of fold. -/
inductive Child (τ : Type*)
  | unborn
  | close
  | dup2
  | pipe
  | execl
  | fold (r : Filter τ Char)
  | ended (e : Ending)

/-- What is left of the standard input, what is in the pipe `fd1`, and what the terminal shows. Nothing is written into
`fd2`. -/
structure Streams where
  stdin : List Char
  pipe : List Char
  stdout : List Char

structure State (σ τ : Type*) where
  parent : Parent σ
  parentFds : Descriptors
  child : Child τ
  childFds : Descriptors
  streams : Streams

variable {σ τ : Type*}

/-- Some process has it open. -/
def State.open (s : State σ τ) (e : Object) : Bool := s.parentFds.has e || s.childFds.has e

/-! ## tr and fold -/

/-- What a step is: a call of main, which fork and execl may fail, or what tr or fold does next. -/
inductive Move
  | call (ok : Bool)
  | read (n : ℕ)
  | write (n : ℕ)
  | exit
  deriving DecidableEq, Repr

/-- A read of `n` characters from descriptor 0. -/
def read (n : ℕ) (d : Descriptors) (s : State σ τ) : Option (List Char × Streams) :=
  match d.zero with
  | some .stdin => (Pipe.read n n ⟨s.streams.stdin, true⟩).map fun r => (r.1, { s.streams with stdin := r.2.bytes })
  | some (.readEnd .fd1) =>
    (Pipe.read n n ⟨s.streams.pipe, !s.open (.writeEnd .fd1)⟩).map fun r => (r.1, { s.streams with pipe := r.2.bytes })
  | _ => none

/-- A write to descriptor 1, of some characters that the pipe has room for; none where it kills the process. -/
def write (cap : ℕ) (l : List Char) (d : Descriptors) (s : State σ τ) : Option (Option Streams) :=
  match d.one with
  | some .stdout => some (some { s.streams with stdout := s.streams.stdout ++ l })
  | some (.writeEnd .fd1) =>
    if s.open (.readEnd .fd1) then
      if s.streams.pipe.length + l.length ≤ cap then some (some { s.streams with pipe := s.streams.pipe ++ l })
      else none
    else some none
  | _ => none

/-- A filter goes on, or has ended. -/
def filterStep {υ : Type*} (T : Transducer υ Char Char) (cap : ℕ) (d : Descriptors) (r : Filter υ Char)
    (s : State σ τ) : Move → Option (Streams × (Filter υ Char ⊕ Ending))
  | .read n => if r.eof then none else (read n d s).map fun p => (p.2, .inl (r.feed T p.1))
  | .write n =>
    if 1 ≤ n ∧ n ≤ r.pending.length then
      (write cap (r.pending.take n) d s).map fun
        | some streams => (streams, .inl (r.drop n))
        | none => (s.streams, .inr .killed)
    else none
  | .exit => if r.eof ∧ r.pending = [] then some (s.streams, .inr .exited) else none
  | .call _ => none

/-! ## main -/

/-- What main prints when it has not one argument. -/
def needsOneArgument : List Char := "Needs one argument".toList

variable (tr : Transducer σ Char Char) (fold : Transducer τ Char Char) (argc cap : ℕ)

def State.endParent (s : State σ τ) (e : Ending) : State σ τ := { s with parent := .ended e, parentFds := .closed }

def State.endChild (s : State σ τ) (e : Ending) : State σ τ := { s with child := .ended e, childFds := .closed }

/-- The parent behind a step of tr. -/
def State.parentAfter (s : State σ τ) (streams : Streams) : Filter σ Char ⊕ Ending → State σ τ
  | .inl r => { s with parent := .tr r, streams := streams }
  | .inr e => { s with streams := streams }.endParent e

/-- The child behind a step of fold. -/
def State.childAfter (s : State σ τ) (streams : Streams) : Filter τ Char ⊕ Ending → State σ τ
  | .inl r => { s with child := .fold r, streams := streams }
  | .inr e => { s with streams := streams }.endChild e

def stepParent (m : Move) (s : State σ τ) : Option (State σ τ) :=
  match s.parent, m with
  | .start, .call _ =>
    if argc ≠ 2 then
      some { s.endParent (.returned (-1)) with
        streams.stdout := s.streams.stdout ++ needsOneArgument }
    else some { s with parent := .pipe }
  | .pipe, .call _ =>
    some { s with
      parent := .fork
      parentFds.fd1_0 := some (.readEnd .fd1)
      parentFds.fd1_1 := some (.writeEnd .fd1) }
  | .fork, .call ok =>
    -- a negative `pid1` is in neither branch
    if ok then some { s with parent := .close, child := .close, childFds := s.parentFds }
    else some (s.endParent (.returned 0))
  | .close, .call _ => some { s with parent := .dup2, parentFds.fd1_0 := none }
  | .dup2, .call _ => some { s with parent := .execl, parentFds.one := s.parentFds.fd1_1 }
  | .execl, .call ok => if ok then some { s with parent := .tr (.start tr) } else some (s.endParent (.returned 0))
  | .tr r, m => (filterStep tr cap s.parentFds r s m).map fun p => s.parentAfter p.1 p.2
  | _, _ => none

def stepChild (m : Move) (s : State σ τ) : Option (State σ τ) :=
  match s.child, m with
  | .close, .call _ => some { s with child := .dup2, childFds.fd1_1 := none }
  | .dup2, .call _ => some { s with child := .pipe, childFds.zero := s.childFds.fd1_0 }
  | .pipe, .call _ =>
    some { s with
      child := .execl
      childFds.fd2_0 := some (.readEnd .fd2)
      childFds.fd2_1 := some (.writeEnd .fd2) }
  | .execl, .call ok => if ok then some { s with child := .fold (.start fold) } else some (s.endChild (.returned 0))
  | .fold r, m => (filterStep fold cap s.childFds r s m).map fun p => s.childAfter p.1 p.2
  | _, _ => none

inductive Act
  | parent (m : Move)
  | child (m : Move)
  deriving DecidableEq, Repr

/-- All runs of the two processes; the pipe has room for `cap` characters. -/
def system (input : List Char) : System (State σ τ) Act where
  init s := s = ⟨.start, .terminal, .unborn, .closed, ⟨input, [], []⟩⟩
  next s
    | .parent m => stepParent tr argc cap m s
    | .child m => stepChild fold cap m s

end Sysopy.Pipeline
