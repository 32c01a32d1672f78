/-
Open files: bytes and an offset, with the calls of unistd.h, and the streams of stdio.h, which must be positioned
between a read and a write. Both are sets of calls with the same laws, and a program that keeps to the laws does
the same with either.
-/
import Sysopy.Files.Records

namespace Sysopy.Files

/-! ## Bytes and an offset -/

structure OpenFile where
  bytes : List UInt8
  offset : ℕ
  deriving DecidableEq, Repr

namespace OpenFile

/-- `lseek(handle, n, SEEK_SET)`. -/
def seek (n : ℕ) (f : OpenFile) : OpenFile := { f with offset := n }

/-- The bytes from the offset on, as many as asked for and as there are. -/
def read (n : ℕ) (f : OpenFile) : List UInt8 × OpenFile :=
  let data := (f.bytes.drop f.offset).take n
  (data, { f with offset := f.offset + data.length })

/-- Bytes written at the offset; a gap behind the end of the file is filled with zeros. -/
def write (data : List UInt8) (f : OpenFile) : OpenFile :=
  ⟨(f.bytes.rightpad f.offset 0).take f.offset ++ data ++ f.bytes.drop (f.offset + data.length),
    f.offset + data.length⟩

end OpenFile

/-! ## Sets of calls -/

/-- The calls on an open file, for the states `σ` that it may be in. No result is undefined behaviour. -/
structure Calls (σ : Type*) where
  seek : ℕ → σ → Option σ
  read : ℕ → σ → Option (List UInt8 × σ)
  write : List UInt8 → σ → Option σ

/-- The calls work on `view`: any of them may follow a seek, and a read may follow a read of all that was asked
for. -/
structure Calls.Lawful {σ : Type*} (c : Calls σ) (view : σ → OpenFile) (reads writes : σ → Prop) : Prop where
  seek (n : ℕ) (s : σ) : ∃ s', c.seek n s = some s' ∧ view s' = (view s).seek n ∧ reads s' ∧ writes s'
  read (n : ℕ) (s : σ) : reads s → ∃ s', c.read n s = some (((view s).read n).1, s') ∧
    view s' = ((view s).read n).2 ∧ (((view s).read n).1.length = n → reads s')
  write (data : List UInt8) (s : σ) : writes s → ∃ s', c.write data s = some s' ∧ view s' = (view s).write data

/-! ## unistd.h and stdio.h -/

/-- `lseek`, `read` and `write`. -/
def unistd : Calls OpenFile where
  seek n f := some (f.seek n)
  read n f := some (f.read n)
  write data f := some (f.write data)

theorem unistd_lawful : unistd.Lawful id (fun _ => True) fun _ => True where
  seek n f := ⟨f.seek n, rfl, rfl, trivial, trivial⟩
  read n f _ := ⟨(f.read n).2, rfl, rfl, fun _ => trivial⟩
  write data f _ := ⟨f.write data, rfl, rfl⟩

/-- The last call on a stream, as far as the next one depends on it. -/
inductive LastCall where
  | positioned
  | input
  | output
  deriving DecidableEq, Repr

structure Stream where
  file : OpenFile
  last : LastCall
  deriving DecidableEq, Repr

/-- `fseek`, `fread` and `fwrite` on a stream open for update. Output must not follow input without a seek,
unless the input met the end of the file, nor input output. -/
def stdio : Calls Stream where
  seek n s := some ⟨s.file.seek n, .positioned⟩
  read n s :=
    if s.last = .output then none
    else
      let data := (s.file.read n).1
      some (data, ⟨(s.file.read n).2, if data.length < n then .positioned else .input⟩)
  write data s := if s.last = .input then none else some ⟨s.file.write data, .output⟩

theorem stdio_lawful : stdio.Lawful Stream.file (fun s => s.last ≠ .output) fun s => s.last ≠ .input where
  seek n s := ⟨_, rfl, rfl, nofun, nofun⟩
  read n s hs := by
    refine ⟨_, if_neg hs, rfl, fun hlen => ?_⟩
    rw [hlen, if_neg (Nat.lt_irrefl n)]
    exact nofun
  write data s hs := ⟨_, if_neg hs, rfl⟩

/-! ## Files of records -/

section Layout

variable {N : ℕ} {A B : List (List UInt8)} {x y rest : List UInt8} {f : OpenFile}

/-- Of a file the records from its start on, of one size, and what is behind them. -/
structure Layout (N : ℕ) (rs : List (List UInt8)) (rest : List UInt8) (f : OpenFile) : Prop where
  bytes : f.bytes = rs.flatten ++ rest
  whole : ∀ r ∈ rs, r.length = N

theorem Layout.seek {rs : List (List UInt8)} (h : Layout N rs rest f) (n : ℕ) : Layout N rs rest (f.seek n) :=
  ⟨h.bytes, h.whole⟩

/-- A read at the start of a record. -/
theorem Layout.read (h : Layout N (A ++ x :: B) rest f) (hoff : f.offset = A.length * N) :
    f.read N = (x, { f with offset := (A.length + 1) * N }) := by
  obtain ⟨hA, hxB⟩ := List.forall_mem_append.1 h.whole
  have hx : x.length = N := hxB x List.mem_cons_self
  have hdrop : f.bytes.drop f.offset = x ++ (B.flatten ++ rest) := by
    rw [h.bytes, hoff, List.flatten_append, List.flatten_cons, List.append_assoc, List.append_assoc]
    exact List.drop_left' (length_flatten_of_length hA)
  simp only [OpenFile.read]
  rw [hdrop, List.take_left' hx, hx, hoff, Nat.succ_mul]

/-- A record written over another one. -/
theorem Layout.write (h : Layout N (A ++ x :: B) rest f) (hoff : f.offset = A.length * N) (hy : y.length = N) :
    Layout N (A ++ y :: B) rest (f.write y) := by
  obtain ⟨hA, hxB⟩ := List.forall_mem_append.1 h.whole
  obtain ⟨hx, hB⟩ := List.forall_mem_cons.1 hxB
  have hlen := length_flatten_of_length hA
  have hbytes : f.bytes = A.flatten ++ (x ++ (B.flatten ++ rest)) := by
    rw [h.bytes, List.flatten_append, List.flatten_cons, List.append_assoc, List.append_assoc]
  have hpad : f.bytes.rightpad f.offset 0 = f.bytes := by
    have hle : f.offset ≤ f.bytes.length := by
      rw [hbytes, List.length_append, hlen, hoff]
      omega
    rw [List.rightpad, Nat.sub_eq_zero_of_le hle, List.replicate_zero, List.append_nil]
  have htake : f.bytes.take f.offset = A.flatten := by
    rw [hbytes, hoff]
    exact List.take_left' hlen
  have hdrop : f.bytes.drop (f.offset + y.length) = B.flatten ++ rest := by
    rw [← List.drop_drop, hbytes, hoff, List.drop_left' hlen, hy]
    exact List.drop_left' hx
  refine ⟨?_, List.forall_mem_append.2 ⟨hA, List.forall_mem_cons.2 ⟨hy, hB⟩⟩⟩
  show (f.bytes.rightpad f.offset 0).take f.offset ++ y ++ f.bytes.drop (f.offset + y.length) = _
  rw [hpad, htake, hdrop, List.flatten_append, List.flatten_cons]
  simp only [List.append_assoc]

end Layout

end Sysopy.Files
