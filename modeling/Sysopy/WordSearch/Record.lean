/-
Records and words in the search of cw08/zad1: `word_eq` on the bytes of a buffer, the 1024-byte records of a
buffer or a file, and the number `atoi` reads at the head of one. The positions that `thread_func` tries lie
inside a record, so whether they match does not depend on what is around it; the number does, when it runs up
to the end of the record.
-/
import Sysopy.CText.Buffer

namespace Sysopy.WordSearch

open Sysopy.CText

/-! ## The word -/

def RECORD_SIZE : ℕ := 1024

/-- `b[n]`. -/
def byteAt (b : Buffer) (n : ℕ) : Char := b.getD n '\x00'

/-- The loop of `word_eq` over the word from `s` on, and the space behind it. -/
def sameBytes (b : Buffer) : List Char → ℕ → Bool
  | [], s => byteAt b s == ' '
  | c :: w, s => if c != byteAt b s then false else sameBytes b w (s + 1)

/-- `word_eq(b + s, strlen(word))`; the pointers `s` and `s - 1` are never null. -/
def wordEq (word : List Char) (b : Buffer) (s : ℕ) : Bool :=
  if byteAt b (s - 1) == ' ' then sameBytes b word s else false

theorem sameBytes_eq_true {b : Buffer} {w : List Char} {s : ℕ} :
    sameBytes b w s = true ↔ (∀ i (h : i < w.length), w.get ⟨i, h⟩ = byteAt b (s + i)) ∧
      byteAt b (s + w.length) = ' ' := by
  induction w generalizing s with
  | nil => simp [sameBytes]
  | cons c w ih =>
    have hstep : sameBytes b (c :: w) s = true ↔ c = byteAt b s ∧ sameBytes b w (s + 1) = true := by
      simp [sameBytes]
    rw [hstep, ih]
    constructor
    · rintro ⟨hc, hw, hend⟩
      refine ⟨fun i h => ?_, ?_⟩
      · cases i with
        | zero => exact hc
        | succ i =>
          have := hw i (by simpa using h)
          rwa [show s + 1 + i = s + (i + 1) by omega] at this
      · rwa [show s + 1 + w.length = s + (c :: w).length by rw [List.length_cons]; omega] at hend
    · rintro ⟨hw, hend⟩
      refine ⟨hw 0 (by simp), fun i h => ?_, ?_⟩
      · have := hw (i + 1) (by simpa using h)
        rwa [show s + (i + 1) = s + 1 + i by omega] at this
      · rwa [show s + (c :: w).length = s + 1 + w.length by rw [List.length_cons]; omega] at hend

/-- What `word_eq` says: the word stands at `s`, with a space before and behind it. -/
theorem wordEq_eq_true {word : List Char} {b : Buffer} {s : ℕ} :
    wordEq word b s = true ↔ byteAt b (s - 1) = ' ' ∧
      (∀ i (h : i < word.length), word.get ⟨i, h⟩ = byteAt b (s + i)) ∧ byteAt b (s + word.length) = ' ' := by
  rw [← sameBytes_eq_true]
  simp [wordEq]

/-- `word_eq` reads the bytes of the word and one on each side. -/
theorem wordEq_congr {word : List Char} {b b' : Buffer} {s s' : ℕ} (hs : 0 < s) (hs' : 0 < s')
    (h : ∀ n ≤ word.length + 1, byteAt b (s - 1 + n) = byteAt b' (s' - 1 + n)) :
    wordEq word b s = wordEq word b' s' := by
  have hat : ∀ n ≤ word.length, byteAt b (s + n) = byteAt b' (s' + n) := by
    intro n hn
    have := h (n + 1) (by omega)
    rwa [show s - 1 + (n + 1) = s + n by omega, show s' - 1 + (n + 1) = s' + n by omega] at this
  rw [Bool.eq_iff_iff, wordEq_eq_true, wordEq_eq_true]
  have hbefore : byteAt b (s - 1) = byteAt b' (s' - 1) := h 0 (Nat.zero_le _)
  rw [hbefore, hat _ le_rfl]
  refine and_congr_right fun _ => and_congr_left fun _ => ?_
  exact forall_congr' fun i => forall_congr' fun hi => by rw [hat i (Nat.le_of_lt hi)]

/-! ## Records -/

/-- Record number `k`. -/
def recordAt (b : Buffer) (k : ℕ) : List Char := (b.drop (RECORD_SIZE * k)).take RECORD_SIZE

theorem byteAt_recordAt {b : Buffer} {k n : ℕ} (h : n < RECORD_SIZE) :
    byteAt (recordAt b k) n = byteAt b (RECORD_SIZE * k + n) := by
  unfold byteAt recordAt
  rw [List.getD_eq_getElem?_getD, List.getD_eq_getElem?_getD, List.getElem?_take_of_lt h, List.getElem?_drop]

/-- A position that is tried sees only its own record. -/
theorem wordEq_recordAt {word : List Char} {b : Buffer} {k j : ℕ} (h5 : 5 ≤ j) (hj : j < RECORD_SIZE - word.length) :
    wordEq word (recordAt b k) j = wordEq word b (RECORD_SIZE * k + j) := by
  refine wordEq_congr (by omega) (by omega) fun n hn => ?_
  rw [byteAt_recordAt (by omega)]
  congr 1
  omega

/-- Overwriting keeps the records behind and brings the new ones. -/
theorem recordAt_overwrite {m b : Buffer} {k : ℕ} (h : RECORD_SIZE * (k + 1) ≤ m.length) :
    recordAt (overwrite m b) k = recordAt m k := by
  have hle : RECORD_SIZE * k + RECORD_SIZE ≤ m.length := h
  unfold recordAt overwrite
  rw [List.drop_append_of_le_length (by omega), List.take_append_of_le_length (by rw [List.length_drop]; omega)]

/-- What is in memory from a record on starts with the record. -/
theorem drop_eq_recordAt_append (b : Buffer) (k : ℕ) :
    b.drop (RECORD_SIZE * k) = recordAt b k ++ (b.drop (RECORD_SIZE * k)).drop RECORD_SIZE :=
  (List.take_append_drop _ _).symm

/-- The number of a record that ends in it is read right, whatever is behind the record. -/
theorem atoi_recordAt {b : Buffer} {k : ℕ} (h : NumberEnds (recordAt b k)) :
    atoi (b.drop (RECORD_SIZE * k)) = atoi (recordAt b k) := by
  rw [drop_eq_recordAt_append, atoi_append h]

/-- A byte that is not zero is one of the list. -/
theorem getElem?_of_byteAt {b : Buffer} {n : ℕ} (h : byteAt b n ≠ '\x00') : b[n]? = some (byteAt b n) := by
  unfold byteAt at h ⊢
  rw [List.getD_eq_getElem?_getD] at h ⊢
  cases hn : b[n]? with
  | none =>
    rw [hn] at h
    exact absurd rfl h
  | some c => rfl

/-- A record with a match has a number that ends in it when the word has a character that is no white space. -/
theorem numberEnds_of_wordEq {word : List Char} {r : Buffer} {j : ℕ} (hword : ∃ c ∈ word, isSpace c = false)
    (h : wordEq word r j = true) : NumberEnds r := by
  obtain ⟨c, hc, hspace⟩ := hword
  obtain ⟨⟨i, hi⟩, rfl⟩ := List.get_of_mem hc
  obtain ⟨-, hsame, hend⟩ := wordEq_eq_true.1 h
  have hbehind : r[j + word.length]? = some ' ' := by
    rw [getElem?_of_byteAt (by rw [hend]; decide), hend]
  have hlen : j + word.length < r.length := (List.getElem?_eq_some_iff.1 hbehind).1
  have hat : byteAt r (j + i) = r[j + i] := by
    rw [byteAt, List.getD_eq_getElem?_getD, List.getElem?_eq_getElem, Option.getD_some]
  rw [hsame i hi, hat] at hspace
  have hsplit : r = r.take (j + i) ++ r[j + i] :: r.drop (j + i + 1) := by
    rw [List.cons_getElem_drop_succ, List.take_append_drop]
  rw [hsplit]
  refine numberEnds_of_space hspace (List.mem_of_getElem? (i := word.length - i - 1) ?_)
  rw [List.getElem?_drop, show j + i + 1 + (word.length - i - 1) = j + word.length by omega, hbehind]

/-! ## The empty word -/

/-- The empty word matches between two spaces. -/
theorem wordEq_nil {b : Buffer} {s : ℕ} : wordEq [] b s = true ↔ byteAt b (s - 1) = ' ' ∧ byteAt b s = ' ' := by
  rw [wordEq_eq_true]
  simp

/-- A record of one character with two spaces in it, at 4 and 5. -/
def spaced (c : Char) : List Char := List.replicate 4 c ++ ' ' :: ' ' :: List.replicate 1018 c

theorem byteAt_spaced {c : Char} {t : List Char} {j : ℕ} (h : 6 ≤ j) (hj : j < RECORD_SIZE) :
    byteAt (spaced c ++ t) j = c := by
  have hsplit : spaced c ++ t = (List.replicate 4 c ++ [' ', ' ']) ++ (List.replicate 1018 c ++ t) := by
    unfold spaced
    rw [List.append_assoc, List.append_assoc]
    rfl
  have hlen : (List.replicate 4 c ++ [' ', ' ']).length = 6 := rfl
  have hi : j - 6 < 1018 := by
    unfold RECORD_SIZE at hj
    omega
  unfold byteAt
  rw [hsplit, List.getD_eq_getElem?_getD, List.getElem?_append_right (by omega), hlen,
    List.getElem?_append_left (by rwa [List.length_replicate]), List.getElem?_replicate_of_lt hi, Option.getD_some]

/-- In such a record the empty word matches at 5 and nowhere else. -/
theorem wordEq_nil_spaced {c : Char} (hc : c ≠ ' ') {t : List Char} {j : ℕ} (h5 : 5 ≤ j) (hj : j < RECORD_SIZE) :
    wordEq [] (spaced c ++ t) j = decide (j = 5) := by
  rcases Nat.lt_or_ge 5 j with h | h
  · rw [decide_eq_false (by omega), Bool.eq_false_iff, Ne, wordEq_nil, byteAt_spaced h hj]
    exact fun hh => hc hh.2
  · obtain rfl : j = 5 := by omega
    rfl

theorem length_spaced (c : Char) : (spaced c).length = RECORD_SIZE := by
  unfold spaced
  rw [List.length_append, List.length_replicate, List.length_cons, List.length_cons, List.length_replicate]
  rfl

/-- Behind a record the bytes of the next one follow. -/
theorem byteAt_append (a b : Buffer) (n : ℕ) : byteAt (a ++ b) (a.length + n) = byteAt b n := by
  unfold byteAt
  rw [List.getD_eq_getElem?_getD, List.getD_eq_getElem?_getD, List.getElem?_append_right (Nat.le_add_right _ _),
    Nat.add_sub_cancel_left]

end Sysopy.WordSearch
