/-
The FIFO programs of cw05/zad2: `wrfifo` writes the lines of its standard input into the FIFO, each behind its
process id and the time, and `rdfifo` prints what it reads from it, each time behind the time. Both have the FIFO
open. One step of `wrfifo` is a `getline` or one turn of its loop body, one step of `rdfifo` a `read` or one turn.
-/
import Sysopy.CText.Buffer
import Sysopy.Conc.Pipe
import Sysopy.Conc.System

namespace Sysopy.Fifo

open Sysopy.Conc Sysopy.CText

/-- What `getpid` returns. -/
abbrev Pid := { pid : ℤ // InInt pid }

/-- What `localtime` says. -/
structure Tm where
  hour : Fin 24
  min : Fin 60
  sec : Fin 61

/-- `"%d:%d:%d - %s"`. -/
def stamped (t : Tm) (text : List Char) : List Char :=
  printInt t.hour ++ ':' :: (printInt t.min ++ ':' :: (printInt t.sec ++ ' ' :: '-' :: ' ' :: text))

/-- `"%d - %d:%d:%d - %s"`. -/
def message (pid : Pid) (t : Tm) (line : List Char) : List Char := printInt pid ++ ' ' :: '-' :: ' ' :: stamped t line

/-- A string whose message fits into the 1024 bytes of wrfifo's `buffer`. -/
structure Text (pid : Pid) where
  chars : List Char
  nul_not_mem : '\x00' ∉ chars
  fits : ∀ t, (message pid t chars).length + 1 ≤ 1024

/-- A line of the standard input, with its newline if it has one. -/
structure Line (pid : Pid) extends Text pid where
  ne_nil : chars ≠ []

variable {pid : Pid}

theorem nul_not_mem_stamped {text : List Char} (h : '\x00' ∉ text) (t : Tm) : '\x00' ∉ stamped t text := by
  simp [stamped, nul_not_mem_printInt, h]

theorem nul_not_mem_message {text : List Char} (h : '\x00' ∉ text) (t : Tm) : '\x00' ∉ message pid t text := by
  simp [message, nul_not_mem_printInt, nul_not_mem_stamped h]

theorem length_message_le (pid : Pid) (t : Tm) (text : List Char) :
    (message pid t text).length ≤ 52 + text.length := by
  have hint : ∀ n < 61, (printInt (n : ℕ)).length ≤ 11 := fun n hn =>
    length_printInt_le ⟨by omega, by omega⟩
  have h0 := length_printInt_le pid.2
  have h1 := hint t.hour (by omega)
  have h2 := hint t.min (by omega)
  have h3 := hint t.sec (by omega)
  simp only [message, stamped, List.length_append, List.length_cons]
  omega

/-- A text short enough for every process id. -/
def Text.ofShort (pid : Pid) (chars : List Char) (hnul : '\x00' ∉ chars) (hlen : chars.length ≤ 971) : Text pid where
  chars := chars
  nul_not_mem := hnul
  fits t := by have := length_message_le pid t chars; omega

/-- Where `wrfifo` is; `line` is what its variable points to. -/
inductive Writer (pid : Pid)
  | getline
  | body (line : Text pid)
  | close
  | exited

/-- Where `rdfifo` is; `print` has its local `bytes_read`. -/
inductive Reader
  | read
  | print (bytesRead : ℕ)
  | close
  | exited
  deriving DecidableEq

/-- Both programs and the FIFO. The last five are histories the programs never read: what `wrfifo` has written and
what each `read` has returned, the indices at which `rdfifo` has stored its NUL, and what it has printed. -/
structure State (pid : Pid) where
  writer : Writer pid
  input : List (Line pid)
  fifo : Pipe Char
  reader : Reader
  buffer : List Char
  messages : List (List Char)
  reads : List (List Char)
  stores : List ℕ
  out : List Char

/-- `getline`: the length of the line, or -1 at the end of the input, where `left` is what `line` then holds. -/
def getline (left : Text pid) : List (Line pid) → ℤ × Text pid × List (Line pid)
  | [] => (-1, left, [])
  | line :: input => (line.chars.length, line.toText, input)

/-- `sprintf` into wrfifo's `buffer`. -/
def sprintf (t : Tm) (line : Text pid) : CharArray 1024 where
  string := message pid t line.chars
  nul_not_mem := nul_not_mem_message line.nul_not_mem t
  fits := line.fits t

/-- One step of `wrfifo`. -/
def wrfifo (t : Tm) (left : Text pid) (s : State pid) : Option (State pid) :=
  match s.writer with
  | .getline =>
    let r := getline left s.input
    if r.1 ≠ 0 then some { s with writer := .body r.2.1, input := r.2.2 }
    else some { s with writer := .close, input := r.2.2 }
  | .body line =>
    let buffer := sprintf t line
    some { s with
      writer := .getline
      fifo := s.fifo.write buffer.string
      messages := s.messages ++ [buffer.string] }
  | .close => some { s with writer := .exited, fifo := s.fifo.close }
  | .exited => none

/-- One step of `rdfifo`, whose `read` gets `n` bytes. It stores a NUL at `buffer[bytes_read]` and prints the string in
`buffer`; `behind` is what lies behind the array then. -/
def rdfifo (n : ℕ) (t : Tm) (behind : List Char) (s : State pid) : Option (State pid) :=
  match s.reader with
  | .read => (s.fifo.read 1024 n).map fun (bytes, fifo) =>
    if bytes.length ≠ 0 then
      { s with
        reader := .print bytes.length
        fifo
        buffer := overwrite bytes s.buffer
        reads := s.reads ++ [bytes] }
    else { s with reader := .close, fifo }
  | .print bytesRead =>
    let buffer := s.buffer.set bytesRead '\x00'
    some { s with
      reader := .read
      buffer
      stores := s.stores ++ [bytesRead]
      out := s.out ++ stamped t (cString (buffer ++ behind)) }
  | .close => some { s with reader := .exited }
  | .exited => none

inductive Label (pid : Pid)
  | wrfifo (t : Tm) (left : Text pid)
  | rdfifo (n : ℕ) (t : Tm) (behind : List Char)

def next (s : State pid) : Label pid → Option (State pid)
  | .wrfifo t left => wrfifo t left s
  | .rdfifo n t behind => rdfifo n t behind s

/-- Both have opened the FIFO and nothing has been read from the standard input. -/
structure Started (lines : List (Line pid)) (s : State pid) : Prop where
  writer : s.writer = .getline
  input : s.input = lines
  fifo : s.fifo = .empty
  reader : s.reader = .read
  buffer : s.buffer.length = 1024
  messages : s.messages = []
  reads : s.reads = []
  stores : s.stores = []
  out : s.out = []

/-- All runs of both programs on these lines. -/
def system (lines : List (Line pid)) : System (State pid) (Label pid) := ⟨Started lines, next⟩

/-! ## What a step does -/

section Cases

variable {s s' : State pid} {t : Tm} {left : Text pid} {n : ℕ} {behind : List Char}

/-- `getline` returns something else than 0, at the end of the input too. -/
theorem getline_ne_zero (left : Text pid) (input : List (Line pid)) : (getline left input).1 ≠ 0 := by
  cases input with
  | nil => simp [getline]
  | cons line input =>
    have hpos := List.length_pos_iff.2 line.ne_nil
    simp only [getline]
    omega

/-- So after a `getline` the body of the loop comes. -/
theorem wrfifo_getline (h : s.writer = .getline) : wrfifo t left s =
    some { s with writer := .body (getline left s.input).2.1, input := (getline left s.input).2.2 } := by
  simp only [wrfifo, h, if_pos (getline_ne_zero left s.input)]

theorem wrfifo_body {line : Text pid} (h : s.writer = .body line) : wrfifo t left s = some { s with
    writer := .getline
    fifo := s.fifo.write (message pid t line.chars)
    messages := s.messages ++ [message pid t line.chars] } := by
  simp only [wrfifo, h, sprintf]

/-- Everything a step of `rdfifo` can do. -/
inductive RdfifoStep (n : ℕ) (t : Tm) (behind : List Char) (s : State pid) : State pid → Prop
  | read (bytes : List Char) (fifo : Pipe Char) (hpc : s.reader = .read)
      (h : s.fifo.read 1024 n = some (bytes, fifo)) (hne : bytes ≠ []) : RdfifoStep n t behind s
      { s with reader := .print bytes.length, fifo, buffer := overwrite bytes s.buffer, reads := s.reads ++ [bytes] }
  | readEnd (fifo : Pipe Char) (hpc : s.reader = .read) (h : s.fifo.read 1024 n = some ([], fifo)) :
      RdfifoStep n t behind s { s with reader := .close, fifo }
  | print (bytesRead : ℕ) (hpc : s.reader = .print bytesRead) : RdfifoStep n t behind s { s with
      reader := .read
      buffer := s.buffer.set bytesRead '\x00'
      stores := s.stores ++ [bytesRead]
      out := s.out ++ stamped t (cString (s.buffer.set bytesRead '\x00' ++ behind)) }
  | close (hpc : s.reader = .close) : RdfifoStep n t behind s { s with reader := .exited }

theorem rdfifo_cases (h : rdfifo n t behind s = some s') : RdfifoStep n t behind s s' := by
  unfold rdfifo at h
  split at h
  · rename_i hpc
    obtain ⟨⟨bytes, fifo⟩, hread, rfl⟩ := Option.map_eq_some_iff.1 h
    dsimp only
    split
    · rename_i hlen
      exact .read bytes fifo hpc hread fun hc => hlen (by rw [hc]; rfl)
    · rename_i hlen
      cases List.length_eq_zero_iff.1 (not_not.1 hlen)
      exact .readEnd fifo hpc hread
  · rename_i bytesRead hpc
    cases h
    exact .print bytesRead hpc
  · rename_i hpc
    cases h
    exact .close hpc
  · cases h

end Cases

end Sysopy.Fifo
