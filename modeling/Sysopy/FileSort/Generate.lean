/-
The programs around the sort of cw02/zad1: gen.c, which writes random bytes over the start of a file one by one, and
`print_file`, which prints the records. What is printed after a sort is what was generated, in the order of the sort,
and what an older file had behind the records stays.
-/
import Sysopy.FileSort.Exact
import Sysopy.CText.Decimal

namespace Sysopy.FileSort

open Sysopy.Files Sysopy.CText

/-! ## gen.c -/

/-- `unsigned char buffer = rand()%255; write(handle, &buffer, 1);` with the number of calls of rand so far. -/
def generateByte (rand : ℕ → ℕ) (s : OpenFile × ℕ) : OpenFile × ℕ :=
  (s.1.write [UInt8.ofNat (rand s.2 % 255)], s.2 + 1)

/-- `generate` on a file with these bytes, which it does not truncate: the bytes afterwards. -/
def generate (rand : ℕ → ℕ) (recordSize fileSize : ℕ) (bytes : List UInt8) : List UInt8 :=
  (((generateByte rand)^[recordSize])^[fileSize] (⟨bytes, 0⟩, 0)).1.bytes

/-- The first `n` bytes that are generated. -/
def generated (rand : ℕ → ℕ) (n : ℕ) : List UInt8 := (List.range n).map fun i => UInt8.ofNat (rand i % 255)

theorem iterate_generateByte (rand : ℕ → ℕ) (bytes : List UInt8) (n : ℕ) :
    (generateByte rand)^[n] (⟨bytes, 0⟩, 0) = (⟨generated rand n ++ bytes.drop n, n⟩, n) := by
  induction n with
  | zero => rfl
  | succ n ih =>
    have hlength : (generated rand n).length = n := by simp [generated]
    have hpad : ((generated rand n ++ bytes.drop n).rightpad n 0).take n = generated rand n := by
      rw [List.rightpad, List.append_assoc]
      exact List.take_left' hlength
    have hdrop : (generated rand n ++ bytes.drop n).drop (n + 1) = bytes.drop (n + 1) := by
      rw [← List.drop_drop, List.drop_left' hlength, List.drop_drop]
    rw [Function.iterate_succ_apply', ih]
    simp only [generateByte, OpenFile.write, hpad, List.length_singleton, hdrop]
    simp [generated, List.range_succ]

/-- The generated bytes stand in front of what was behind them. -/
theorem generate_eq (rand : ℕ → ℕ) (recordSize fileSize : ℕ) (bytes : List UInt8) :
    generate rand recordSize fileSize bytes =
      generated rand (fileSize * recordSize) ++ bytes.drop (fileSize * recordSize) := by
  rw [generate, ← Function.iterate_mul, iterate_generateByte, mul_comm]

/-- The random bytes end at 254. -/
theorem le_of_mem_generated {rand : ℕ → ℕ} {n : ℕ} {b : UInt8} (h : b ∈ generated rand n) : b.toNat ≤ 254 := by
  obtain ⟨i, -, rfl⟩ := List.mem_map.1 h
  have hlt := Nat.mod_lt (rand i) (show 0 < 255 by decide)
  have hmod : rand i % 255 % 256 = rand i % 255 := Nat.mod_eq_of_lt (by omega)
  rw [UInt8.toNat_ofNat', hmod]
  omega

/-! ## print_file -/

/-- The inner loop of `print_file`. -/
def printRecord (buffer : Record) : List Char := (buffer.map fun b => printInt b.toNat ++ [' ']).flatten ++ ['\n']

/-- The outer loop; the first argument is `file_size - i`. -/
def printLoop (memory : ℕ → ℕ → UInt8) (recordSize : ℕ) : ℕ → State OpenFile → Option (List Char)
  | 0, _ => some []
  | left + 1, s => do
    let (buffer, s) ← readRecord unistd memory recordSize s
    let rest ← printLoop memory recordSize left s
    some (printRecord buffer ++ rest)

/-- What `print_file` prints of a file with these bytes. -/
def printFile (memory : ℕ → ℕ → UInt8) (recordSize fileSize : ℕ) (bytes : List UInt8) : Option (List Char) :=
  printLoop memory recordSize fileSize ⟨⟨bytes, 0⟩, 0⟩

section Print

variable {memory : ℕ → ℕ → UInt8} {recordSize fileSize : ℕ} {bytes rest : List UInt8} {rs : List Record}

theorem printLoop_eq {N : ℕ} (B : List Record) : ∀ (A : List Record) (s : State OpenFile),
    Layout N (A ++ B) rest s.file → s.file.offset = A.length * N →
      printLoop memory N B.length s = some ((B.map printRecord).flatten) := by
  induction B with
  | nil => exact fun _ _ _ _ => rfl
  | cons x B ih =>
    intro A s hl hoff
    obtain ⟨s', hread, hl', hoff', -⟩ := readRecord_spec memory unistd_lawful hl hoff trivial
    have hrest := ih (A ++ [x]) s' (by simpa using hl') (by simpa using hoff')
    rw [List.length_cons, printLoop, hread]
    simp only [Option.bind_eq_bind, Option.bind_some, hrest]
    rfl

/-- It prints the records one after the other. -/
theorem printFile_withRecords (hrs : ∀ r ∈ rs, r.length = recordSize) :
    printFile memory recordSize rs.length (withRecords recordSize rs.length bytes rs) =
      some ((rs.map printRecord).flatten) :=
  have hlayout : Layout recordSize ([] ++ rs) (bytes.drop (rs.length * recordSize))
      ⟨withRecords recordSize rs.length bytes rs, 0⟩ := ⟨rfl, hrs⟩
  printLoop_eq rs [] _ hlayout (by simp)

/-- A file that is generated, sorted by either program and printed: the output has each generated record once, those
with a first byte other than 0 in the order of the sort and then the others, no byte is 255, and no byte of an older
file behind the records is lost. -/
theorem generate_sort_print (kind : Kind) (rand : ℕ → ℕ) (memory memory' : ℕ → ℕ → UInt8) (hsize : 1 ≤ recordSize)
    (fileSize : ℕ) (bytes : List UInt8) :
    let rs := records recordSize fileSize (generated rand (fileSize * recordSize))
    ∃ out, kind.sort memory recordSize fileSize (generate rand recordSize fileSize bytes) = some out ∧
      out.drop (fileSize * recordSize) = bytes.drop (fileSize * recordSize) ∧
      (sortedRecords rs).Perm rs ∧ (∀ r ∈ rs, ∀ b ∈ r, b.toNat ≤ 254) ∧
      printFile memory' recordSize fileSize out = some (((sortedRecords rs).map printRecord).flatten) := by
  intro rs
  have hlength : (generated rand (fileSize * recordSize)).length = fileSize * recordSize := by simp [generated]
  have hwhole : ∀ r ∈ rs, r.length = recordSize := length_of_mem_records hlength.ge
  have hcount : rs.length = fileSize := length_records _ _ _
  have hflat : rs.flatten = generated rand (fileSize * recordSize) := by
    have hall := flatten_records recordSize fileSize (generated rand (fileSize * recordSize))
    rwa [List.drop_of_length_le hlength.le, List.append_nil] at hall
  have hrecords : records recordSize fileSize (generate rand recordSize fileSize bytes) = rs := by
    rw [generate_eq, ← hflat]
    have hgen := records_append hwhole (bytes.drop (fileSize * recordSize))
    rwa [hcount] at hgen
  have hlen : fileSize * recordSize ≤ (generate rand recordSize fileSize bytes).length := by
    rw [generate_eq, List.length_append, hlength]
    exact Nat.le_add_right _ _
  have hbehind : (generate rand recordSize fileSize bytes).drop (fileSize * recordSize) =
      bytes.drop (fileSize * recordSize) := by
    rw [generate_eq, List.drop_left' hlength]
  obtain ⟨out, hout, hsorted⟩ := kind.sort_sorted memory hsize hlen
  have hperm : (sortedRecords rs).Perm rs := by
    rw [sortedRecords, ← hrecords, ← hsorted.order.eq_stableSort]
    exact hsorted.order.perm
  have hbytes : ∀ r ∈ rs, ∀ b ∈ r, b.toNat ≤ 254 := fun r hr b hb =>
    le_of_mem_generated (hflat ▸ List.mem_flatten.2 ⟨r, hr, hb⟩)
  refine ⟨out, hout, hsorted.behind.trans hbehind, hperm, hbytes, ?_⟩
  have hprint : printFile memory' recordSize (sortedRecords rs).length (withRecords recordSize (sortedRecords rs).length
      bytes (sortedRecords rs)) = some (((sortedRecords rs).map printRecord).flatten) :=
    printFile_withRecords fun r hr => hwhole r (hperm.mem_iff.1 hr)
  rw [hperm.length_eq, hcount] at hprint
  rw [hsorted.eq, hrecords, withRecords, hbehind]
  exact hprint

theorem generate_sort_print_three : ∃ out,
    Kind.sys.sort (fun _ _ => 7) 1 3 (generate (fun i => 256 * i + 254) 1 3 [1, 2, 3, 4]) = some out ∧
    out.drop 3 = [4] := by
  obtain ⟨out, hout, hbehind, -⟩ :=
    generate_sort_print .sys (fun i => 256 * i + 254) (fun _ _ => 7) (fun _ _ => 7) (le_refl 1) 3 [1, 2, 3, 4]
  exact ⟨out, hout, hbehind⟩

end Print

end Sysopy.FileSort
