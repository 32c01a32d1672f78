/-
The chat client (cw10/zad2/client.c): `th_stdin` cuts what is typed into pieces that fit into `buf.text`, takes the
newline off and sends each with the client's name; main prints what it receives. What is printed of a record depends
only on its piece, and it is the line that was typed iff that fits.
-/
import Sysopy.Chat.Stream
import Sysopy.CText.Lines

namespace Sysopy.Chat

open Sysopy.CText

/-- `struct msg`. -/
structure Msg where
  name : Buffer
  text : Buffer
  deriving DecidableEq

/-- `if ((pos=strchr(text, '\n')) != NULL) *pos = '\0';` -/
def stripNewline (text : Buffer) : Buffer :=
  if '\n' ∈ cString text then text.set ((cString text).idxOf '\n') '\x00' else text

/-- A turn of the loop in `th_stdin` up to its send: `buf`, and the rest of the input. -/
def thStdin (buf : Msg) (input : List Char) : Option (Msg × List Char) :=
  (fgets TXTSZ input).map fun r => ({ buf with text := stripNewline (overwrite (r.1 ++ ['\x00']) buf.text) }, r.2)

/-- `printf("%s: %s\n", buf.name, buf.text)` -/
def printed (buf : Msg) : List Char := cString buf.name ++ [':', ' '] ++ cString buf.text ++ ['\n']

/-! ## What is in a record -/

section Text

variable {buf m : Msg} {input rest : List Char}

theorem cString_stripNewline (text : Buffer) : cString (stripNewline text) = CText.text (cString text) := by
  unfold stripNewline
  split
  · rename_i hmem
    obtain ⟨u, v, hsplit, hu⟩ := List.eq_append_cons_of_mem hmem
    obtain ⟨rest, htext⟩ : cString text <+: text := List.takeWhile_prefix _
    have hnul : '\x00' ∉ u := fun h => not_mem_cString text (hsplit ▸ List.mem_append_left _ h)
    have hindex : (cString text).idxOf '\n' = u.length := by
      rw [hsplit, List.idxOf_append_of_notMem hu]
      simp
    rw [hindex, hsplit, text_line hu, ← htext, hsplit, List.append_assoc, List.cons_append]
    rw [List.set_append_right _ _ le_rfl, Nat.sub_self, List.set_cons_zero, cString_append_nul hnul]
  · rename_i hmem
    exact (text_eq_self hmem).symm

theorem length_stripNewline (text : Buffer) : (stripNewline text).length = text.length := by
  unfold stripNewline
  split
  · exact List.length_set
  · rfl

/-- What is printed of a piece, by a client with the given name. -/
def line (name piece : List Char) : List Char := name ++ [':', ' '] ++ text (cString piece) ++ ['\n']

/-- A record prints as its piece, whatever `buf` held before. -/
theorem printed_thStdin (h : thStdin buf input = some (m, rest)) : input ≠ [] ∧
    (takeLine (TXTSZ - 1) input).2 = rest ∧ m.name = buf.name ∧
    printed m = line (cString buf.name) (takeLine (TXTSZ - 1) input).1 := by
  unfold thStdin fgets at h
  split at h
  · cases h
  · rename_i hinput
    obtain ⟨rfl, rfl⟩ := Prod.mk.inj (Option.some.inj h)
    refine ⟨hinput, rfl, rfl, ?_⟩
    simp only [printed, line, cString_stripNewline, cString_overwrite_piece]

/-- The record stays within its array. -/
theorem length_thStdin (hbuf : buf.text.length = TXTSZ) (h : thStdin buf input = some (m, rest)) :
    m.text.length = TXTSZ := by
  unfold thStdin fgets at h
  split at h
  · cases h
  · obtain ⟨rfl, -⟩ := Prod.mk.inj (Option.some.inj h)
    have hpiece := length_takeLine (TXTSZ - 1) input
    have hpos : 0 < TXTSZ := by decide
    simp only [length_stripNewline, overwrite, List.length_append, List.length_drop, List.length_singleton]
    omega

end Text

/-! ## What the others see of what is typed -/

/-- The lines printed of all the records of one client. -/
def lines (name input : List Char) : List (List Char) := (pieces (TXTSZ - 1) input).map (line name)

theorem lines_of_thStdin {buf m : Msg} {input rest : List Char} (h : thStdin buf input = some (m, rest)) :
    lines (cString buf.name) input = printed m :: lines (cString m.name) rest := by
  obtain ⟨hinput, hrest, hname, hprinted⟩ := printed_thStdin h
  rw [lines, pieces_cons (by decide) hinput, List.map_cons, hrest, hname, hprinted]
  rfl

/-- The lines that are typed are printed, one for one, iff none is longer than 254 characters. -/
theorem lines_typed_iff (name : List Char) {typedLines : List (List Char)} (hnl : ∀ l ∈ typedLines, '\n' ∉ l)
    (hnul : ∀ l ∈ typedLines, '\x00' ∉ l) :
    lines name (typed typedLines) = typedLines.map (fun l => name ++ [':', ' '] ++ l ++ ['\n']) ↔
      ∀ l ∈ typedLines, l.length ≤ 254 := by
  have hroom : TXTSZ - 1 ≠ 0 := by decide
  have hfits : (∀ l ∈ typedLines, l.length ≤ 254) ↔ ∀ l ∈ typedLines, l.length < TXTSZ - 1 :=
    forall₂_congr fun l _ => Nat.lt_succ_iff.symm
  rw [hfits, ← text_pieces_iff hroom hnl]
  -- a piece has no NUL, as the lines have none
  have hpieces : ∀ piece ∈ pieces (TXTSZ - 1) (typed typedLines), cString piece = piece := by
    intro piece hpiece
    refine cString_eq_self fun h => ?_
    have hmem : '\x00' ∈ typed typedLines := by
      rw [← pieces_flatten hroom (typed typedLines)]
      exact List.mem_flatten.2 ⟨piece, hpiece, h⟩
    simp only [typed, List.mem_flatten, List.mem_map] at hmem
    obtain ⟨_, ⟨l, hl, rfl⟩, hmem⟩ := hmem
    rcases List.mem_append.1 hmem with hmem | hmem
    · exact hnul l hl hmem
    · simp at hmem
  have hlines : lines name (typed typedLines) =
      ((pieces (TXTSZ - 1) (typed typedLines)).map text).map fun l => name ++ [':', ' '] ++ l ++ ['\n'] := by
    rw [lines, List.map_map]
    refine List.map_congr_left fun piece hpiece => ?_
    simp only [line, hpieces piece hpiece, Function.comp_apply]
  have hinj : Function.Injective fun l : List Char => name ++ [':', ' '] ++ l ++ ['\n'] := fun l l' h => by
    simpa using h
  rw [hlines, (List.map_injective_iff.2 hinj).eq_iff]

/-- A line of 255 characters comes out as two. -/
theorem lines_typed_iff_long : lines ['A'] (typed [List.replicate 255 'x']) ≠
    [['A', ':', ' '] ++ List.replicate 255 'x' ++ ['\n']] := by
  have hchars : ∀ c ∈ List.replicate 255 'x', c = 'x' := fun c hc => List.eq_of_mem_replicate hc
  have hiff := lines_typed_iff ['A'] (List.forall_mem_singleton.2 fun h => absurd (hchars _ h) (by decide))
    (List.forall_mem_singleton.2 fun h => absurd (hchars _ h) (by decide))
  intro hlines
  have hshort := hiff.1 hlines _ List.mem_cons_self
  rw [List.length_replicate] at hshort
  omega

end Sysopy.Chat
