/-
Sorting a file of records in place (cw02/zad1/sort.c): `sort_file` with the calls of unistd.h and `lib_sort_file`
with those of stdio.h. The two bodies are the same but for the calls, so one definition serves both.
-/
import Sysopy.Files.Offset

namespace Sysopy.FileSort

open Sysopy.Files

abbrev Record := List UInt8

/-- `buffer[0]`, an unsigned char that is compared as an int. -/
def byte0 (buffer : Record) : ℕ := (buffer.headD 0).toNat

/-- The open file, and how many calls of malloc there have been. -/
structure State (σ : Type) where
  file : σ
  mallocs : ℕ

/-- `max_record[0] = 0`, which is undefined when the buffer has no byte. -/
def clear0 : Record → Option Record
  | [] => none
  | _ :: b => some (0 :: b)

/-- `max_record`, `max_pos` and `swapped`. -/
structure Best where
  maxRecord : Record
  maxPos : ℕ
  swapped : Bool

/-- The body of the loop over `j` behind its read. -/
def Best.compare (j : ℕ) (buffer : Record) (m : Best) : Best :=
  if byte0 m.maxRecord < byte0 buffer then ⟨buffer, j, true⟩ else m

section Body

variable {σ : Type} (c : Calls σ) (memory : ℕ → ℕ → UInt8) (recordSize : ℕ)

/-- `malloc(sizeof(unsigned char) * record_size)`: what the bytes are before they are set depends on the call. -/
def malloc (s : State σ) : Record × State σ :=
  ((List.range recordSize).map (memory s.mallocs), { s with mallocs := s.mallocs + 1 })

def seek (n : ℕ) (s : State σ) : Option (State σ) := (c.seek n s.file).map fun f => { s with file := f }

def write (buffer : Record) (s : State σ) : Option (State σ) :=
  (c.write buffer s.file).map fun f => { s with file := f }

/-- A buffer from malloc and a read of `record_size` bytes into it. -/
def readRecord (s : State σ) : Option (Record × State σ) :=
  let (buffer, s) := malloc memory recordSize s
  (c.read recordSize s.file).map fun (data, f) => (data ++ buffer.drop data.length, { s with file := f })

/-- The loop over `j`; the first argument is `file_size - j`. -/
def scanLoop : ℕ → ℕ → Best → State σ → Option (Best × State σ)
  | 0, _, m, s => some (m, s)
  | left + 1, j, m, s => do
    let (buffer, s) ← readRecord c memory recordSize s
    scanLoop left (j + 1) (m.compare j buffer) s

/-- The inner loop over `i`, from `max_pos` down to 1. -/
def shiftLoop : ℕ → State σ → Option (State σ)
  | 0, s => some s
  | i + 1, s => do
    let s ← seek c (i * recordSize) s
    let (buffer, s) ← readRecord c memory recordSize s
    let s ← seek c ((i + 1) * recordSize) s
    let s ← write c buffer s
    shiftLoop i s

/-- The outer loop; the first argument is `file_size - i`. -/
def sortLoop : ℕ → ℕ → State σ → Option (State σ)
  | 0, _, s => some s
  | left + 1, i, s => do
    let (maxRecord, s) := malloc memory recordSize s
    let maxRecord ← clear0 maxRecord
    let s ← seek c (i * recordSize) s
    let (m, s) ← scanLoop c memory recordSize (left + 1) i ⟨maxRecord, i, false⟩ s
    -- no record that is left has a first byte above 0: the break
    if m.swapped then
      let s ← shiftLoop c memory recordSize m.maxPos s
      let s ← seek c 0 s
      let s ← write c m.maxRecord s
      sortLoop left (i + 1) s
    else some s

end Body

/-- `sort_file` on a file with these bytes: the bytes afterwards. -/
def sortFile (memory : ℕ → ℕ → UInt8) (recordSize fileSize : ℕ) (bytes : List UInt8) : Option (List UInt8) :=
  (sortLoop unistd memory recordSize fileSize 0 ⟨⟨bytes, 0⟩, 0⟩).map fun s => s.file.bytes

/-- `lib_sort_file` on a file with these bytes, opened for update: the bytes afterwards. -/
def libSortFile (memory : ℕ → ℕ → UInt8) (recordSize fileSize : ℕ) (bytes : List UInt8) : Option (List UInt8) :=
  (sortLoop stdio memory recordSize fileSize 0 ⟨⟨⟨bytes, 0⟩, .positioned⟩, 0⟩).map fun s => s.file.file.bytes

end Sysopy.FileSort
