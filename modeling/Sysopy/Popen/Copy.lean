/-
The loop of cw05/zad3 that copies what a command prints into a file, a piece of at most 1023 characters at a time. Each
piece is written as a string, so the file has what the command printed iff that has no NUL.
-/
import Sysopy.CText.Lines

namespace Sysopy.Popen

open Sysopy.CText

/-- The length of `buffer`. -/
def bufferSize : ℕ := 1024

/-- `while(fgets(buffer, 1024, pipe) != NULL) fprintf(file, "%s", buffer);` with what is still to be read from the pipe
and what the file has. -/
def copyLoop (buffer : Buffer) (pipe file : List Char) : List Char :=
  match h : fgets bufferSize pipe with
  | none => file
  | some (piece, rest) =>
    copyLoop (overwrite (piece ++ ['\x00']) buffer) rest (file ++ cString (overwrite (piece ++ ['\x00']) buffer))
termination_by pipe.length
decreasing_by exact length_fgets (by decide) h

/-- main, when `buffer` starts with `memory` and the command prints `output`: the file it leaves. -/
def main (memory : Buffer) (output : List Char) : List Char := copyLoop memory output []

section Copy

variable {memory : Buffer} {output : List Char}

theorem copyLoop_eq (buffer : Buffer) (pipe file : List Char) :
    copyLoop buffer pipe file = file ++ ((pieces (bufferSize - 1) pipe).map cString).flatten := by
  induction buffer, pipe, file using copyLoop.induct with
  | case1 buffer pipe file h =>
    have hpipe : pipe = [] := by
      by_contra hne
      simp [fgets, hne] at h
    rw [copyLoop, hpipe]
    simp [fgets]
  | case2 buffer pipe file piece rest h ih =>
    have hpipe : pipe ≠ [] := by
      rintro rfl
      simp [fgets] at h
    have htake : takeLine (bufferSize - 1) pipe = (piece, rest) := by simpa [fgets, hpipe] using h
    rw [copyLoop]
    split
    · rename_i hnone
      rw [h] at hnone
      cases hnone
    · rename_i piece' rest' hsome
      rw [h] at hsome
      cases hsome
      rw [ih, pieces_cons (by decide) hpipe, htake, List.map_cons, List.flatten_cons, cString_overwrite_piece,
        List.append_assoc]

theorem main_eq (memory : Buffer) (output : List Char) :
    main memory output = ((pieces (bufferSize - 1) output).map cString).flatten := by
  rw [main, copyLoop_eq, List.nil_append]

/-- As strings, pieces have at most the characters they had, and fewer if there is a NUL in one. -/
theorem length_cStrings (ps : List (List Char)) : (ps.map cString).flatten.length ≤ ps.flatten.length ∧
    ((ps.map cString).flatten.length = ps.flatten.length → '\x00' ∉ ps.flatten) := by
  induction ps with
  | nil => simp
  | cons p ps ih =>
    obtain ⟨hle, hnul⟩ := ih
    have hp : (cString p).length ≤ p.length := (List.takeWhile_prefix _).length_le
    simp only [List.map_cons, List.flatten_cons, List.length_append, List.mem_append]
    refine ⟨by omega, fun heq => ?_⟩
    have hlength : (cString p).length = p.length := by omega
    have hself : cString p = p := (List.takeWhile_prefix _).eq_of_length hlength
    rintro (h | h)
    · exact not_mem_cString p (hself.symm ▸ h)
    · exact hnul (by omega) h

/-- Whatever the command prints and whatever was in `buffer`, the file has all of it iff there is no NUL in it; it is
never longer. -/
theorem copy_iff (memory : Buffer) (output : List Char) :
    (main memory output = output ↔ '\x00' ∉ output) ∧ (main memory output).length ≤ output.length := by
  have hroom : bufferSize - 1 ≠ 0 := by decide
  obtain ⟨hle, hnul⟩ := length_cStrings (pieces (bufferSize - 1) output)
  rw [pieces_flatten hroom, ← main_eq memory] at hle hnul
  refine ⟨⟨fun h => hnul (congrArg List.length h), fun h => ?_⟩, hle⟩
  have hpieces : ∀ p ∈ pieces (bufferSize - 1) output, cString p = p := fun p hp => cString_eq_self fun hmem => by
    rw [← pieces_flatten hroom output] at h
    exact h (List.mem_flatten.2 ⟨p, hp, hmem⟩)
  rw [main_eq, List.map_congr_left hpieces, List.map_id', pieces_flatten hroom]

end Copy

end Sysopy.Popen
