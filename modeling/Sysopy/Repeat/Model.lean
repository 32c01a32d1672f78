/-
The line that cw04/zad1/main.c prints `mul` times a pass, while every SIGTSTP reverses it and every third one
moves `mul`: the handler with the two arrays it copies between, and the main loop it interrupts.
-/
import Sysopy.CText.Buffer
import Sysopy.Conc.System

namespace Sysopy.Repeat

open Sysopy.CText Sysopy.Conc

/-! ## How often the line is printed -/

structure Vars where
  mul : ℤ
  direction : ℤ
  reverse : ℤ
  deriving DecidableEq, Repr

/-- The values the globals start with. -/
def Vars.initial : Vars := ⟨1, 0, 1⟩

/-- The branch `reverse == 3`: `mul` goes one up or down and turns round at `max` and at 1. -/
def move (max : ℤ) (v : Vars) : Vars :=
  if v.direction = 0 then
    if v.mul = max then { v with direction := 1, mul := v.mul - 1 } else { v with mul := v.mul + 1 }
  else if v.direction = 1 then
    if v.mul = 1 then { v with direction := 0, mul := v.mul + 1 } else { v with mul := v.mul - 1 }
  else v

/-- The second half of `main_handler`. -/
def countSignal (max : ℤ) (v : Vars) : Vars :=
  if v.reverse = 1 then { v with reverse := 2 }
  else if v.reverse = 2 then { v with reverse := 3 }
  else if v.reverse = 3 then { move max v with reverse := 1 }
  else v

/-! ## The reversal -/

/-- A byte that is read or written: the allocated length of its array, and its index. -/
structure Access where
  size : ℕ
  index : ℕ
  deriving DecidableEq, Repr

def Access.Inside (x : Access) : Prop := x.index < x.size

instance (x : Access) : Decidable x.Inside := inferInstanceAs (Decidable (_ < _))

/-- `line` and `line_reversed`: their allocated lengths and the bytes from their addresses on, which go on behind
the arrays, and the accesses to them so far. -/
structure Arrays where
  lineSize : ℕ
  line : Buffer
  reversedSize : ℕ
  lineReversed : Buffer
  accesses : List Access

/-- `line = argv[1]`: the text, its NUL, and what is behind it in memory. -/
def Arrays.argument (text : List Char) (behind : Buffer) : Arrays :=
  ⟨text.length + 1, text ++ '\x00' :: behind, 0, [], []⟩

namespace Arrays

def touchLine (is : List ℕ) (m : Arrays) : Arrays :=
  { m with accesses := m.accesses ++ is.map (Access.mk m.lineSize) }

def touchReversed (is : List ℕ) (m : Arrays) : Arrays :=
  { m with accesses := m.accesses ++ is.map (Access.mk m.reversedSize) }

/-- `strlen(line)` reads the string and its NUL. -/
def strlen (m : Arrays) : ℕ := (cString m.line).length

def callStrlen (m : Arrays) : Arrays := m.touchLine (List.range (m.strlen + 1))

/-- `line_reversed = malloc(sizeof(char) * strlen(line))`; `memory` is what is found from that address on. -/
def malloc (memory : Buffer) (m : Arrays) : Arrays :=
  { m.callStrlen with reversedSize := m.strlen, lineReversed := memory }

/-- `line_reversed[j] = line[i]`. -/
def assign (j i : ℕ) (m : Arrays) : Arrays :=
  { (m.touchLine [i]).touchReversed [j] with
    lineReversed := (m.lineReversed.rightpad (j + 1) '\x00').set j (m.line.getD i '\x00') }

/-- The for loop: the first argument is `i + 1`, the second `j`. -/
def reverseLoop : ℕ → ℕ → Arrays → Arrays
  | 0, _, m => m
  | i + 1, j, m => reverseLoop i (j + 1) (m.assign j i)

/-- `strcpy(line, line_reversed)`. -/
def strcpy (m : Arrays) : Arrays :=
  let s := cString m.lineReversed
  { (m.touchReversed (List.range (s.length + 1))).touchLine (List.range (s.length + 1)) with
    line := overwrite (s ++ ['\x00']) m.line }

/-- The first half of `main_handler`. -/
def reverse (memory : Buffer) (m : Arrays) : Arrays :=
  let m := m.malloc memory
  let n := m.strlen
  (reverseLoop n 0 m.callStrlen).strcpy

end Arrays

/-! ## The handler -/

/-- The globals. -/
structure Globals where
  arrays : Arrays
  max : ℤ
  vars : Vars

/-- `main_handler`; `memory` is what its malloc returns. -/
def mainHandler (memory : Buffer) (g : Globals) : Globals :=
  { g with arrays := g.arrays.reverse memory, vars := countSignal g.max g.vars }

/-- Deliveries handled one after the other, each with the memory that its malloc returns. -/
def deliveries (memories : List Buffer) (g : Globals) : Globals := memories.foldl (fun g b => mainHandler b g) g

/-! ## The program -/

/-- Where `main` is once the handlers are installed; the argument is `i`. -/
inductive Pc where
  /-- In front of the test of `argc`, with `line` still NULL. -/
  | start
  | setMax
  | test (i : ℕ)
  | print (i : ℕ)
  | newline
  | sleep
  | returned
  /-- The handler was called with `line` NULL. -/
  | segv
  /-- `exit_handler` has run. -/
  | exited
  deriving DecidableEq, Repr

structure Proc where
  globals : Globals
  main : Pc
  /-- The copies of the line printed in this pass. -/
  copies : List (List Char)

/-- The arguments of `main`: what is in memory from `argv[1]` on, and `argv[2]`. -/
structure Args where
  argc : ℕ
  argv1 : List Char
  behind : Buffer
  argv2 : List Char

inductive Act where
  | main
  | sigtstp (memory : Buffer)
  | sigint
  deriving DecidableEq, Repr

/-- A statement of `main`. -/
def stepMain (a : Args) (p : Proc) : Option Proc :=
  match p.main with
  | .start =>
    if a.argc < 3 then some { p with main := .returned }
    else some { p with globals.arrays := .argument a.argv1 a.behind, main := .setMax }
  | .setMax => some { p with globals.max := atoi a.argv2, main := .test 0 }
  | .test i => some { p with main := if i < p.globals.vars.mul then .print i else .newline }
  | .print i => some { p with main := .test (i + 1), copies := p.copies ++ [cString p.globals.arrays.line] }
  | .newline => some { p with main := .sleep }
  | .sleep => some { p with main := .test 0, copies := [] }
  | .returned | .segv | .exited => none

/-- SIGTSTP is handled between two statements of `main`. -/
def stepSigtstp (memory : Buffer) (p : Proc) : Option Proc :=
  match p.main with
  | .start => some { p with main := .segv }
  | .returned | .segv | .exited => none
  | _ => some { p with globals := mainHandler memory p.globals }

/-- `exit_handler`. -/
def stepSigint (p : Proc) : Option Proc :=
  match p.main with
  | .returned | .segv | .exited => none
  | _ => some { p with main := .exited }

/-- All runs of the program, with its signals at any moment. -/
def system (a : Args) : System Proc Act where
  init p := p = ⟨⟨⟨0, [], 0, [], []⟩, 0, Vars.initial⟩, .start, []⟩
  next p
    | .main => stepMain a p
    | .sigtstp memory => stepSigtstp memory p
    | .sigint => stepSigint p

/-- A SIGTSTP is handled only once `main` has set `line` and `max`. -/
def AfterSetup (p : Proc) (a : Act) : Prop := (∃ memory, a = .sigtstp memory) → p.main ≠ .start ∧ p.main ≠ .setMax

end Sysopy.Repeat
