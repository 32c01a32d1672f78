/-
`fgets`, which takes a line from the input as far as it fits into the array, and what a loop over it gets: pieces that
make up the input, one for each line iff the lines fit.
-/
import Sysopy.CText.Buffer

namespace Sysopy.CText

/-- What `fgets` takes when the array has room for `room` characters and a NUL, and the rest of the input. -/
def takeLine : ℕ → List Char → List Char × List Char
  | 0, input => ([], input)
  | _ + 1, [] => ([], [])
  | room + 1, c :: input => if c = '\n' then ([c], input) else ((c :: (takeLine room input).1), (takeLine room input).2)

/-- `fgets`: no result at the end of the input. -/
def fgets (size : ℕ) (input : List Char) : Option (List Char × List Char) :=
  if input = [] then none else some (takeLine (size - 1) input)

section TakeLine

variable {room : ℕ} {input line rest : List Char}

theorem takeLine_append (room : ℕ) (input : List Char) :
    (takeLine room input).1 ++ (takeLine room input).2 = input := by
  induction room, input using takeLine.induct with
  | case1 input => rfl
  | case2 room => rfl
  | case3 room input => simp [takeLine]
  | case4 room c input hc ih => simp [takeLine, hc, ih]

theorem length_takeLine (room : ℕ) (input : List Char) : (takeLine room input).1.length ≤ room := by
  induction room, input using takeLine.induct with
  | case1 input => exact le_rfl
  | case2 room => exact Nat.zero_le _
  | case3 room input => simp [takeLine]
  | case4 room c input hc ih => simpa [takeLine, hc] using ih

theorem length_takeLine_rest (hroom : room ≠ 0) (hinput : input ≠ []) :
    (takeLine room input).2.length < input.length := by
  obtain ⟨c, input, rfl⟩ := List.exists_cons_of_ne_nil hinput
  obtain ⟨room, rfl⟩ := Nat.exists_eq_succ_of_ne_zero hroom
  have hlength := congrArg List.length (takeLine_append room input)
  rw [List.length_append] at hlength
  simp only [takeLine]
  split
  · simp
  · simp only [List.length_cons]
    omega

theorem length_fgets {size : ℕ} {piece : List Char} (hsize : 1 < size) (h : fgets size input = some (piece, rest)) :
    rest.length < input.length := by
  unfold fgets at h
  split at h
  · cases h
  · rename_i hinput
    obtain ⟨-, rfl⟩ := Prod.mk.inj (Option.some.inj h)
    exact length_takeLine_rest (by omega) hinput

/-- A line that fits is taken with its newline. -/
theorem takeLine_line (hline : '\n' ∉ line) (hfits : line.length < room) (rest : List Char) :
    takeLine room (line ++ '\n' :: rest) = (line ++ ['\n'], rest) := by
  induction line generalizing room with
  | nil =>
    obtain ⟨room, rfl⟩ := Nat.exists_eq_succ_of_ne_zero (Nat.ne_of_gt hfits)
    simp [takeLine]
  | cons c line ih =>
    obtain ⟨room, rfl⟩ := Nat.exists_eq_succ_of_ne_zero (Nat.ne_of_gt (Nat.zero_lt_of_lt hfits))
    have hc : c ≠ '\n' := fun h => hline (h ▸ List.mem_cons_self)
    have hrest := ih (fun h => hline (List.mem_cons_of_mem c h)) (by simpa using hfits)
    simp [takeLine, hc, hrest]

/-- Of a longer one as much as there is room for. -/
theorem takeLine_long (hline : '\n' ∉ line) (hlong : room ≤ line.length) (rest : List Char) :
    takeLine room (line ++ rest) = (line.take room, line.drop room ++ rest) := by
  induction line generalizing room with
  | nil =>
    obtain rfl : room = 0 := by simpa using hlong
    simp [takeLine]
  | cons c line ih =>
    cases room with
    | zero => rfl
    | succ room =>
      have hc : c ≠ '\n' := fun h => hline (h ▸ List.mem_cons_self)
      have hrest := ih (fun h => hline (List.mem_cons_of_mem c h)) (by simpa using hlong)
      simp [takeLine, hc, hrest]

end TakeLine

/-- A piece without the newline at its end. -/
def text (piece : List Char) : List Char := piece.takeWhile fun c => c != '\n'

theorem text_line {line : List Char} (hline : '\n' ∉ line) (rest : List Char) : text (line ++ '\n' :: rest) = line := by
  unfold text
  rw [List.takeWhile_append_of_pos fun c hc => by rw [bne_iff_ne]; rintro rfl; exact hline hc]
  simp

theorem text_eq_self {piece : List Char} (h : '\n' ∉ piece) : text piece = piece := by
  refine List.takeWhile_eq_self_iff.2 fun c hc => ?_
  rw [bne_iff_ne]
  rintro rfl
  exact h hc

/-- The string of a piece in a buffer. -/
theorem cString_overwrite_piece (piece : List Char) (b : Buffer) :
    cString (overwrite (piece ++ ['\x00']) b) = cString piece := by
  simp only [overwrite, List.append_assoc, List.singleton_append]
  by_cases hnul : '\x00' ∈ piece
  · obtain ⟨u, v, rfl, hu⟩ := List.eq_append_cons_of_mem hnul
    rw [List.append_assoc, List.cons_append, cString_append_nul hu, cString_append_nul hu]
  · rw [cString_append_nul hnul, cString_eq_self hnul]

theorem count_takeLine (room : ℕ) (input : List Char) : (takeLine room input).1.count '\n' ≤ 1 := by
  induction room, input using takeLine.induct with
  | case1 input => exact Nat.zero_le _
  | case2 room => exact Nat.zero_le _
  | case3 room input => simp [takeLine]
  | case4 room c input hc ih => simpa [takeLine, hc] using ih

/-! ## A loop over `fgets` -/

/-- What the calls of `fgets` return until the end of the input. -/
def pieces (room : ℕ) (input : List Char) : List (List Char) :=
  if h : room ≠ 0 ∧ input ≠ [] then (takeLine room input).1 :: pieces room (takeLine room input).2 else []
termination_by input.length
decreasing_by exact length_takeLine_rest h.1 h.2

section Pieces

variable {room : ℕ} {input : List Char}

@[simp] theorem pieces_nil (room : ℕ) : pieces room [] = [] := by
  rw [pieces, dif_neg (by simp)]

theorem pieces_cons (hroom : room ≠ 0) (hinput : input ≠ []) :
    pieces room input = (takeLine room input).1 :: pieces room (takeLine room input).2 := by
  rw [pieces, dif_pos ⟨hroom, hinput⟩]

/-- Nothing of the input is lost or added. -/
theorem pieces_flatten (hroom : room ≠ 0) (input : List Char) : (pieces room input).flatten = input := by
  induction input using pieces.induct room with
  | case1 input h ih => rw [pieces_cons h.1 h.2, List.flatten_cons, ih, takeLine_append]
  | case2 input h =>
    obtain rfl : input = [] := by
      by_contra hne
      exact h ⟨hroom, hne⟩
    rw [pieces_nil, List.flatten_nil]

theorem length_of_mem_pieces {piece : List Char} (h : piece ∈ pieces room input) : piece.length ≤ room := by
  induction input using pieces.induct room with
  | case1 input hne ih =>
    rw [pieces_cons hne.1 hne.2] at h
    rcases List.mem_cons.1 h with rfl | h
    · exact length_takeLine room input
    · exact ih h
  | case2 input hne =>
    rw [pieces, dif_neg hne] at h
    cases h

/-- Lines as they are typed. -/
def typed (lines : List (List Char)) : List Char := (lines.map fun line => line ++ ['\n']).flatten

theorem typed_cons (line : List Char) (lines : List (List Char)) :
    typed (line :: lines) = line ++ '\n' :: typed lines := by
  simp [typed]

/-- Lines come out one by one. -/
theorem pieces_typed {lines : List (List Char)} (hlines : ∀ line ∈ lines, '\n' ∉ line)
    (hfits : ∀ line ∈ lines, line.length < room) :
    pieces room (typed lines) = lines.map fun line => line ++ ['\n'] := by
  induction lines with
  | nil => exact pieces_nil room
  | cons line lines ih =>
    have hline := takeLine_line (hlines line List.mem_cons_self) (hfits line List.mem_cons_self) (typed lines)
    have hroom : room ≠ 0 := Nat.ne_of_gt (Nat.zero_lt_of_lt (hfits line List.mem_cons_self))
    rw [typed_cons, pieces_cons hroom (by simp), hline, List.map_cons,
      ih (fun l hl => hlines l (List.mem_cons_of_mem _ hl)) fun l hl => hfits l (List.mem_cons_of_mem _ hl)]

/-- There are at least as many pieces as lines. -/
theorem length_le_pieces (hroom : room ≠ 0) (input : List Char) : input.count '\n' ≤ (pieces room input).length := by
  induction input using pieces.induct room with
  | case1 input h ih =>
    have hcount := count_takeLine room input
    rw [pieces_cons h.1 h.2, List.length_cons]
    calc input.count '\n'
      _ = ((takeLine room input).1 ++ (takeLine room input).2).count '\n' := by rw [takeLine_append]
      _ = (takeLine room input).1.count '\n' + (takeLine room input).2.count '\n' := List.count_append ..
      _ ≤ (pieces room (takeLine room input).2).length + 1 := by omega
  | case2 input h =>
    obtain rfl : input = [] := by
      by_contra hne
      exact h ⟨hroom, hne⟩
    exact Nat.zero_le _

theorem count_typed {lines : List (List Char)} (hlines : ∀ line ∈ lines, '\n' ∉ line) :
    (typed lines).count '\n' = lines.length := by
  induction lines with
  | nil => rfl
  | cons line lines ih =>
    have hnone : line.count '\n' = 0 := List.count_eq_zero.2 (hlines line List.mem_cons_self)
    rw [typed_cons, List.count_append, hnone, List.count_cons_self, ih fun l hl => hlines l (List.mem_cons_of_mem _ hl)]
    simp

/-- The texts of the pieces are the lines that were typed iff every line fits with its newline. -/
theorem text_pieces_iff (hroom : room ≠ 0) {lines : List (List Char)} (hlines : ∀ line ∈ lines, '\n' ∉ line) :
    (pieces room (typed lines)).map text = lines ↔ ∀ line ∈ lines, line.length < room := by
  constructor
  · intro htexts
    induction lines with
    | nil => simp
    | cons line lines ih =>
      have hrest : ∀ l ∈ lines, '\n' ∉ l := fun l hl => hlines l (List.mem_cons_of_mem _ hl)
      have hline : '\n' ∉ line := hlines line List.mem_cons_self
      rw [typed_cons, pieces_cons hroom (by simp)] at htexts
      by_cases hfits : line.length < room
      · rw [takeLine_line hline hfits, List.map_cons] at htexts
        exact List.forall_mem_cons.2 ⟨hfits, ih hrest (List.cons.inj htexts).2⟩
      · -- what is left of the line makes a piece too many
        rw [takeLine_long hline (Nat.le_of_not_lt hfits), List.map_cons] at htexts
        dsimp only at htexts
        obtain ⟨hfirst, hothers⟩ := List.cons.inj htexts
        rw [text_eq_self fun h => hline (List.mem_of_mem_take h)] at hfirst
        have hdrop : line.drop room = [] := by
          have hall := List.take_append_drop room line
          rw [hfirst] at hall
          exact List.append_right_eq_self.1 hall
        rw [hdrop, List.nil_append] at hothers
        have hcount := length_le_pieces hroom ('\n' :: typed lines)
        have hlength := congrArg List.length hothers
        rw [List.length_map] at hlength
        rw [List.count_cons_self, count_typed hrest] at hcount
        omega
  · intro hfits
    have htexts : ∀ line ∈ lines, (text ∘ fun line => line ++ ['\n']) line = line := fun line hline =>
      text_line (hlines line hline) []
    rw [pieces_typed hlines hfits, List.map_map, List.map_congr_left htexts, List.map_id']

end Pieces

end Sysopy.CText
