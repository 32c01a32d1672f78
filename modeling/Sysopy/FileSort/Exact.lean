/-
What is in the file after a sort (cw02/zad1/sort.c), byte for byte: the records with a first byte other than 0, sorted
stably from their reversed order, then those with 0 as they were, then what was behind the records. So `sys` and `lib`
leave the same file, whatever malloc returns, and after two sorts, of either kind, equal first bytes are back in order.
-/
import Sysopy.FileSort.Order
import Sysopy.Sort.Stable

namespace Sysopy.FileSort

open Sysopy.Files Sysopy.Sort

/-- The records of a file after one sort. -/
def sortedRecords (rs : List Record) : List Record :=
  stableSort byte0 (rs.filter fun x => decide (byte0 x ≠ 0)).reverse ++ rs.filter fun x => decide (byte0 x = 0)

/-- The records of a file after two. -/
def stablyRecords (rs : List Record) : List Record :=
  stableSort byte0 (rs.filter fun x => decide (byte0 x ≠ 0)) ++ rs.filter fun x => decide (byte0 x = 0)

/-- The bytes of a file whose records are others now. -/
def withRecords (recordSize fileSize : ℕ) (bytes : List UInt8) (rs : List Record) : List UInt8 :=
  rs.flatten ++ bytes.drop (fileSize * recordSize)

/-- `sort` with the argument `sys` or `lib`. -/
inductive Kind where
  | sys
  | lib
  deriving DecidableEq, Repr

/-- A call of the program, with what its mallocs return. -/
def Kind.sort (memory : ℕ → ℕ → UInt8) (recordSize fileSize : ℕ) (bytes : List UInt8) : Kind → Option (List UInt8)
  | .sys => sortFile memory recordSize fileSize bytes
  | .lib => libSortFile memory recordSize fileSize bytes

section Exact

variable {recordSize fileSize : ℕ} {bytes out out' : List UInt8}

theorem Kind.sort_sorted (kind : Kind) (memory : ℕ → ℕ → UInt8) (hsize : 1 ≤ recordSize)
    (hlen : fileSize * recordSize ≤ bytes.length) :
    ∃ out, kind.sort memory recordSize fileSize bytes = some out ∧ Sorted recordSize fileSize bytes out := by
  cases kind with
  | sys => exact sortFile_sorted memory hsize hlen
  | lib => exact libSortFile_sorted memory hsize hlen

/-- A file is its records and what is behind them. -/
theorem withRecords_records (hbehind : out.drop (fileSize * recordSize) = bytes.drop (fileSize * recordSize)) :
    withRecords recordSize fileSize bytes (records recordSize fileSize out) = out := by
  rw [withRecords, ← hbehind]
  exact flatten_records recordSize fileSize out

theorem Sorted.eq (h : Sorted recordSize fileSize bytes out) :
    out = withRecords recordSize fileSize bytes (sortedRecords (records recordSize fileSize bytes)) := by
  rw [sortedRecords, ← h.order.eq_stableSort, withRecords_records h.behind]

theorem Sorted.twice (h : Sorted recordSize fileSize bytes out) (h' : Sorted recordSize fileSize out out') :
    out' = withRecords recordSize fileSize bytes (stablyRecords (records recordSize fileSize bytes)) := by
  rw [stablyRecords, ← h.order.twice h'.order, withRecords_records (h'.behind.trans h.behind)]

/-- The records are as long together as they were. -/
theorem Sorted.length (h : Sorted recordSize fileSize bytes out) (hlen : fileSize * recordSize ≤ bytes.length) :
    fileSize * recordSize ≤ out.length := by
  have hwhole : ∀ r ∈ records recordSize fileSize out, r.length = recordSize := fun r hr =>
    length_of_mem_records hlen r (h.order.perm.mem_iff.1 hr)
  have hflat := congrArg List.length (flatten_records recordSize fileSize out)
  rw [List.length_append, length_flatten_of_length hwhole, length_records] at hflat
  omega

/-- Both programs leave the same bytes, which depend on nothing but the bytes that were there. -/
theorem sort_exact (kind : Kind) (memory : ℕ → ℕ → UInt8) (hsize : 1 ≤ recordSize)
    (hlen : fileSize * recordSize ≤ bytes.length) : kind.sort memory recordSize fileSize bytes =
      some (withRecords recordSize fileSize bytes (sortedRecords (records recordSize fileSize bytes))) := by
  obtain ⟨out, hout, hsorted⟩ := kind.sort_sorted memory hsize hlen
  rw [hout, hsorted.eq]

theorem sort_exact_four : Kind.lib.sort (fun _ _ => 7) 2 4 [3, 1, 0, 2, 3, 3, 9, 4, 5] =
    some (withRecords 2 4 [3, 1, 0, 2, 3, 3, 9, 4, 5]
      (sortedRecords (records 2 4 [3, 1, 0, 2, 3, 3, 9, 4, 5]))) :=
  sort_exact .lib (fun _ _ => 7) (by decide) (by decide)

/-- Two sorts, of either kind, sort the records with a first byte other than 0 stably. -/
theorem sort_again (kind kind' : Kind) (memory memory' : ℕ → ℕ → UInt8) (hsize : 1 ≤ recordSize)
    (hlen : fileSize * recordSize ≤ bytes.length) :
    (kind.sort memory recordSize fileSize bytes).bind (fun out => kind'.sort memory' recordSize fileSize out) =
      some (withRecords recordSize fileSize bytes (stablyRecords (records recordSize fileSize bytes))) := by
  obtain ⟨out, hout, hsorted⟩ := kind.sort_sorted memory hsize hlen
  obtain ⟨out', hout', hsorted'⟩ := kind'.sort_sorted memory' hsize (hsorted.length hlen)
  rw [hout, Option.bind_some, hout', hsorted.twice hsorted']

theorem sort_again_four :
    (Kind.sys.sort (fun _ _ => 7) 2 4 [3, 1, 0, 2, 3, 3, 9, 4, 5]).bind
        (fun out => Kind.lib.sort (fun _ _ => 8) 2 4 out) =
      some (withRecords 2 4 [3, 1, 0, 2, 3, 3, 9, 4, 5] (stablyRecords (records 2 4 [3, 1, 0, 2, 3, 3, 9, 4, 5]))) :=
  sort_again .sys .lib (fun _ _ => 7) (fun _ _ => 8) (by decide) (by decide)

end Exact

end Sysopy.FileSort
