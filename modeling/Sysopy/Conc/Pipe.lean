/-
A pipe between a writer and a reader: the bytes written and not yet read, in order. A read takes any positive
number of the first bytes, as many as were asked for at most; it waits while the pipe is empty and returns
nothing once the writer has closed it.
-/
import Mathlib.Tactic

namespace Sysopy.Conc

structure Pipe (α : Type*) where
  bytes : List α
  closed : Bool

namespace Pipe

variable {α : Type*} {p p' : Pipe α} {r : List α} {size n : ℕ}

/-- An open pipe with nothing in it. -/
def empty : Pipe α := ⟨[], false⟩

def write (m : List α) (p : Pipe α) : Pipe α := { p with bytes := p.bytes ++ m }

def close (p : Pipe α) : Pipe α := { p with closed := true }

/-- A read of at most `size` bytes that gets the first `n`. -/
def read (size n : ℕ) (p : Pipe α) : Option (List α × Pipe α) :=
  match p.bytes with
  | [] => if p.closed then some ([], p) else none
  | _ :: _ =>
    if 1 ≤ n ∧ n ≤ size ∧ n ≤ p.bytes.length then some (p.bytes.take n, { p with bytes := p.bytes.drop n }) else none

@[simp] theorem write_bytes (m : List α) (p : Pipe α) : (p.write m).bytes = p.bytes ++ m := rfl

/-- What a read returns is what the pipe loses at its front, and it returns nothing only at the end. -/
theorem read_spec (h : p.read size n = some (r, p')) : p.bytes = r ++ p'.bytes ∧ p'.closed = p.closed ∧
    r.length ≤ size ∧ (r = [] → p.bytes = [] ∧ p.closed = true) := by
  unfold read at h
  split at h
  · rename_i hnil
    split at h
    · rename_i hclosed
      cases h
      exact ⟨by rw [List.nil_append], rfl, Nat.zero_le _, fun _ => ⟨hnil, hclosed⟩⟩
    · cases h
  · rename_i b bs hcons
    split at h
    · rename_i hn
      cases h
      refine ⟨(List.take_append_drop n _).symm, rfl, ?_, fun hr => ?_⟩
      · rw [List.length_take]
        omega
      · have hlen := congrArg List.length hr
        rw [List.length_take, List.length_nil] at hlen
        omega
    · cases h

/-- A closed pipe never keeps its reader waiting. -/
theorem exists_read (hsize : 1 ≤ size) (h : p.closed = true) : ∃ n r, p.read size n = some r := by
  refine ⟨1, ?_⟩
  unfold read
  split
  · exact ⟨_, if_pos h⟩
  · rename_i b bs hcons
    exact ⟨_, if_pos ⟨le_rfl, hsize, by rw [hcons]; simp⟩⟩

/-- Nor does one with something in it. -/
theorem read_one (h : p.bytes = [] → p.closed = true) : ∃ r, p.read 1 1 = some r := by
  unfold read
  split
  · rename_i hnil
    exact ⟨_, if_pos (h hnil)⟩
  · rename_i b bs hcons
    exact ⟨_, if_pos ⟨le_rfl, le_rfl, by rw [hcons]; simp⟩⟩

/-! ## What has gone through -/

/-- Everything written has been read or is still in the pipe, in order. -/
def Carries (written received : List α) (p : Pipe α) : Prop := received ++ p.bytes = written

theorem carries_empty : Carries [] [] (empty : Pipe α) := rfl

variable {written received : List α}

theorem Carries.write (h : Carries written received p) (m : List α) : Carries (written ++ m) received (p.write m) := by
  unfold Carries at *
  rw [write_bytes, ← List.append_assoc, h]

theorem Carries.read (h : Carries written received p) (hr : p.read size n = some (r, p')) :
    Carries written (received ++ r) p' := by
  unfold Carries at *
  rw [List.append_assoc, ← (read_spec hr).1, h]

end Pipe

end Sysopy.Conc
