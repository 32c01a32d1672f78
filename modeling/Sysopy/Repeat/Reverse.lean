/-
The reversal of the line (cw04/zad1/main.c 13-25). `line_reversed` has no byte for a NUL and none is written, so
`strcpy` reads the byte behind the array at every delivery. Where that byte happens to be zero the line is
reversed; otherwise what is behind the array is appended to it.
-/
import Sysopy.CText.Compare
import Sysopy.Repeat.Model
import Mathlib.Data.List.GetD

namespace Sysopy.Repeat

open Sysopy.CText

namespace Arrays

/-! ## The loop -/

/-- A byte written into a buffer, or right behind its bytes. -/
theorem set_rightpad {r : Buffer} {j : ℕ} (hj : j ≤ r.length) (c : Char) :
    (r.rightpad (j + 1) '\x00').set j c = r.take j ++ c :: r.drop (j + 1) := by
  unfold List.rightpad
  rcases hj.lt_or_eq with hlt | rfl
  · rw [Nat.sub_eq_zero_of_le hlt, List.replicate_zero, List.append_nil, List.set_eq_take_append_cons_drop, if_pos hlt]
  · simp

@[simp] theorem reverseLoop_reversedSize (n j : ℕ) (m : Arrays) :
    (reverseLoop n j m).reversedSize = m.reversedSize := by
  induction n generalizing j m with
  | zero => rfl
  | succ i ih => exact ih _ _

/-- The loop writes the first `n` bytes of the line in reverse, from index `j` on. -/
theorem reverseLoop_lineReversed (n j : ℕ) (m : Arrays) (hn : n ≤ m.line.length) (hj : j ≤ m.lineReversed.length) :
    (reverseLoop n j m).lineReversed =
      m.lineReversed.take j ++ (m.line.take n).reverse ++ m.lineReversed.drop (j + n) := by
  induction n generalizing j m with
  | zero => simp [reverseLoop]
  | succ i ih =>
    have hassign : (m.assign j i).lineReversed =
        m.lineReversed.take j ++ m.line.getD i '\x00' :: m.lineReversed.drop (j + 1) := set_rightpad hj _
    have hlen : (m.lineReversed.take j).length = j := List.length_take_of_le hj
    have hlen' : j + 1 ≤ (m.assign j i).lineReversed.length := by
      rw [hassign, List.length_append, List.length_cons, hlen]
      omega
    have htake : m.line.take (i + 1) = m.line.take i ++ [m.line.getD i '\x00'] := by
      rw [List.getD_eq_getElem _ _ hn, List.take_append_getElem]
    have hbehind : (m.lineReversed.drop (j + 1)).drop i = m.lineReversed.drop (j + (i + 1)) := by
      rw [List.drop_drop, Nat.add_assoc, Nat.add_comm 1]
    have hsplit : m.lineReversed.take j ++ m.line.getD i '\x00' :: m.lineReversed.drop (j + 1) =
        (m.lineReversed.take j ++ [m.line.getD i '\x00']) ++ m.lineReversed.drop (j + 1) := by simp
    have hlast : (m.lineReversed.take j ++ [m.line.getD i '\x00']).length = j + 1 := by
      rw [List.length_append, hlen, List.length_singleton]
    calc (reverseLoop (i + 1) j m).lineReversed
        = (m.assign j i).lineReversed.take (j + 1) ++ (m.line.take i).reverse ++
            (m.assign j i).lineReversed.drop (j + 1 + i) := ih (j + 1) (m.assign j i) (Nat.le_of_succ_le hn) hlen'
      _ = (m.lineReversed.take j ++ [m.line.getD i '\x00']) ++ (m.line.take i).reverse ++
            (m.lineReversed.drop (j + 1)).drop i := by
          rw [hassign, hsplit, List.take_left' hlast, ← List.drop_drop, List.drop_left' hlast]
      _ = m.lineReversed.take j ++ (m.line.take (i + 1)).reverse ++ m.lineReversed.drop (j + (i + 1)) := by
          rw [htake, hbehind, List.reverse_append]
          simp

/-! ## One delivery -/

theorem cString_eq_take (b : Buffer) : cString b = b.take (cString b).length :=
  List.prefix_iff_eq_take.1 (List.takeWhile_prefix _)

theorem strlen_le (m : Arrays) : m.strlen ≤ m.line.length := (List.takeWhile_prefix _).length_le

/-- What the loop leaves at `line_reversed`: the reversed line, and behind it what was in memory. -/
theorem lineReversed_eq (memory : Buffer) (m : Arrays) :
    (reverseLoop m.strlen 0 (m.malloc memory).callStrlen).lineReversed =
      (cString m.line).reverse ++ memory.drop m.strlen := by
  have hloop := reverseLoop_lineReversed m.strlen 0 (m.malloc memory).callStrlen m.strlen_le (Nat.zero_le _)
  have htake : m.line.take m.strlen = cString m.line := (cString_eq_take m.line).symm
  rw [List.take_zero, List.nil_append, Nat.zero_add] at hloop
  rw [hloop]
  exact congrArg (fun s => s.reverse ++ memory.drop m.strlen) htake

/-- The string that `strcpy` copies is the reversed line and what follows it in memory up to a NUL. -/
theorem cString_lineReversed (memory : Buffer) (m : Arrays) :
    cString (reverseLoop m.strlen 0 (m.malloc memory).callStrlen).lineReversed =
      (cString m.line).reverse ++ cString (memory.drop m.strlen) := by
  have hrev : ∀ c ∈ (cString m.line).reverse, (c != '\x00') = true := by
    intro c hc
    exact List.mem_takeWhile_imp (p := fun c => c != '\x00') (List.mem_reverse.1 hc)
  rw [lineReversed_eq]
  exact List.takeWhile_append_of_pos hrev

/-- After a delivery the line is its reverse, with the bytes behind `line_reversed` appended up to a NUL. -/
theorem cString_reverse (memory : Buffer) (m : Arrays) :
    cString (m.reverse memory).line = (cString m.line).reverse ++ cString (memory.drop m.strlen) := by
  have hcopy : (m.reverse memory).line =
      overwrite (cString (reverseLoop m.strlen 0 (m.malloc memory).callStrlen).lineReversed ++ ['\x00'])
        (reverseLoop m.strlen 0 (m.malloc memory).callStrlen).line := rfl
  rw [hcopy, overwrite, List.append_assoc, List.singleton_append, cString_append_nul (not_mem_cString _),
    cString_lineReversed]

/-- The line is reversed iff the byte behind `line_reversed` is zero. -/
theorem cString_reverse_iff (memory : Buffer) (m : Arrays) :
    cString (m.reverse memory).line = (cString m.line).reverse ↔ memory.getD m.strlen '\x00' = '\x00' := by
  have hbyte : (memory.drop m.strlen).getD 0 '\x00' = memory.getD m.strlen '\x00' := by
    simp [List.getD_eq_getElem?_getD]
  rw [cString_reverse, List.append_right_eq_self, cString_eq_nil, hbyte]

/-! ## The accesses of a delivery -/

@[simp] theorem reverseLoop_lineSize (n j : ℕ) (m : Arrays) : (reverseLoop n j m).lineSize = m.lineSize := by
  induction n generalizing j m with
  | zero => rfl
  | succ i ih => exact ih _ _

@[simp] theorem reverse_lineSize (memory : Buffer) (m : Arrays) : (m.reverse memory).lineSize = m.lineSize :=
  reverseLoop_lineSize _ _ _

@[simp] theorem mem_touchLine (is : List ℕ) (m : Arrays) (x : Access) :
    x ∈ (m.touchLine is).accesses ↔ x ∈ m.accesses ∨ ∃ i ∈ is, x = ⟨m.lineSize, i⟩ := by
  simp [touchLine, eq_comm]

@[simp] theorem mem_touchReversed (is : List ℕ) (m : Arrays) (x : Access) :
    x ∈ (m.touchReversed is).accesses ↔ x ∈ m.accesses ∨ ∃ i ∈ is, x = ⟨m.reversedSize, i⟩ := by
  simp [touchReversed, eq_comm]

@[simp] theorem touchReversed_lineSize (is : List ℕ) (m : Arrays) : (m.touchReversed is).lineSize = m.lineSize := rfl

/-- The loop reads the line and writes `line_reversed`, `n` bytes of each. -/
theorem mem_accesses_reverseLoop (n j : ℕ) (m : Arrays) (x : Access) : x ∈ (reverseLoop n j m).accesses ↔
    x ∈ m.accesses ∨ (∃ i < n, x = ⟨m.lineSize, i⟩) ∨ ∃ k, (j ≤ k ∧ k < j + n) ∧ x = ⟨m.reversedSize, k⟩ := by
  induction n generalizing j m with
  | zero =>
    have hnone : ∀ k, ¬ (j ≤ k ∧ k < j) := by omega
    simp [reverseLoop, hnone]
  | succ i ih =>
    have hassign : x ∈ (m.assign j i).accesses ↔ x ∈ m.accesses ∨ x = ⟨m.lineSize, i⟩ ∨ x = ⟨m.reversedSize, j⟩ := by
      simp [assign, touchLine, touchReversed]
    have hline : (∃ l < i + 1, x = ⟨m.lineSize, l⟩) ↔ x = ⟨m.lineSize, i⟩ ∨ ∃ l < i, x = ⟨m.lineSize, l⟩ := by
      simp only [Nat.lt_succ_iff_lt_or_eq, or_and_right, exists_or, exists_eq_left]
      exact or_comm
    have hreversed : (∃ k, (j ≤ k ∧ k < j + (i + 1)) ∧ x = ⟨m.reversedSize, k⟩) ↔
        x = ⟨m.reversedSize, j⟩ ∨ ∃ k, (j + 1 ≤ k ∧ k < j + 1 + i) ∧ x = ⟨m.reversedSize, k⟩ := by
      have hcases : ∀ k, (j ≤ k ∧ k < j + (i + 1)) ↔ k = j ∨ (j + 1 ≤ k ∧ k < j + 1 + i) := by omega
      simp only [hcases, or_and_right, exists_or, exists_eq_left]
    rw [reverseLoop, ih, hassign, hline, hreversed]
    exact or_assoc.trans (or_congr_right or_or_or_comm)

/-- Both calls of `strlen` read the line up to its NUL. -/
theorem mem_accesses_callStrlen (memory : Buffer) (m : Arrays) (x : Access) :
    x ∈ (m.malloc memory).callStrlen.accesses ↔ x ∈ m.accesses ∨ ∃ i ≤ m.strlen, x = ⟨m.lineSize, i⟩ := by
  have htwice : x ∈ (m.malloc memory).callStrlen.accesses ↔ (x ∈ m.accesses ∨ ∃ i ∈ List.range (m.strlen + 1),
      x = ⟨m.lineSize, i⟩) ∨ ∃ i ∈ List.range (m.strlen + 1), x = ⟨m.lineSize, i⟩ := by
    rw [callStrlen, mem_touchLine]
    exact or_congr_left (mem_touchLine _ _ _)
  rw [htwice, or_assoc, or_self]
  simp only [List.mem_range, Nat.lt_succ_iff]

/-- Every access of a delivery: `strlen` and the loop stay inside the line, and `strcpy` reads `line_reversed` and
writes the line up to the NUL it finds. -/
theorem mem_accesses_reverse (memory : Buffer) (m : Arrays) (x : Access) :
    x ∈ (m.reverse memory).accesses ↔ x ∈ m.accesses ∨ (∃ i ≤ m.strlen, x = ⟨m.lineSize, i⟩) ∨
      ∃ i ≤ m.strlen + (cString (memory.drop m.strlen)).length, x = ⟨m.strlen, i⟩ ∨ x = ⟨m.lineSize, i⟩ := by
  have hlen : (cString (reverseLoop m.strlen 0 (m.malloc memory).callStrlen).lineReversed).length =
      m.strlen + (cString (memory.drop m.strlen)).length := by
    rw [cString_lineReversed, List.length_append, List.length_reverse]
    rfl
  have hcopy : (m.reverse memory).accesses = (((reverseLoop m.strlen 0 (m.malloc memory).callStrlen).touchReversed
      (List.range (m.strlen + (cString (memory.drop m.strlen)).length + 1))).touchLine
      (List.range (m.strlen + (cString (memory.drop m.strlen)).length + 1))).accesses := by
    rw [← hlen]
    rfl
  rw [hcopy, mem_touchLine, mem_touchReversed, mem_accesses_reverseLoop, mem_accesses_callStrlen]
  simp only [List.mem_range, Nat.lt_succ_iff, reverseLoop_reversedSize, reverseLoop_lineSize, touchReversed_lineSize]
  constructor
  · rintro ((((hx | hx) | ⟨i, hi, hx⟩ | ⟨i, ⟨-, hi⟩, hx⟩) | ⟨i, hi, hx⟩) | ⟨i, hi, hx⟩)
    · exact .inl hx
    · exact .inr (.inl hx)
    · exact .inr (.inl ⟨i, hi.le, hx⟩)
    · exact .inr (.inr ⟨i, by omega, .inl hx⟩)
    · exact .inr (.inr ⟨i, hi, .inl hx⟩)
    · exact .inr (.inr ⟨i, hi, .inr hx⟩)
  · rintro (hx | hx | ⟨i, hi, hx | hx⟩)
    · exact .inl (.inl (.inl (.inl hx)))
    · exact .inl (.inl (.inl (.inr hx)))
    · exact .inl (.inr ⟨i, hi, hx⟩)
    · exact .inr ⟨i, hi, hx⟩

/-- A delivery reads the byte behind `line_reversed`. -/
theorem outside_mem_reverse (memory : Buffer) (m : Arrays) :
    ⟨m.strlen, m.strlen⟩ ∈ (m.reverse memory).accesses :=
  (mem_accesses_reverse memory m _).2 (.inr (.inr ⟨m.strlen, Nat.le_add_right _ _, .inl rfl⟩))

theorem accesses_subset_reverse (memory : Buffer) (m : Arrays) : m.accesses ⊆ (m.reverse memory).accesses :=
  fun _ hx => (mem_accesses_reverse memory m _).2 (.inl hx)

/-- When that byte is zero, it is the only access outside the arrays. -/
theorem accesses_reverse_of_nul {memory : Buffer} {m : Arrays} (hsize : m.strlen < m.lineSize)
    (hnul : memory.getD m.strlen '\x00' = '\x00') {x : Access} (hx : x ∈ (m.reverse memory).accesses) :
    x ∈ m.accesses ∨ x.Inside ∨ x = ⟨m.strlen, m.strlen⟩ := by
  have hnone : cString (memory.drop m.strlen) = [] := by
    have hrev := (cString_reverse_iff memory m).2 hnul
    rwa [cString_reverse, List.append_right_eq_self] at hrev
  rw [mem_accesses_reverse, hnone] at hx
  rcases hx with hx | ⟨i, hi, rfl⟩ | ⟨i, hi, rfl | rfl⟩
  · exact .inl hx
  · exact .inr (.inl (Nat.lt_of_le_of_lt hi hsize))
  · rcases hi.lt_or_eq with hlt | rfl
    · exact .inr (.inl hlt)
    · exact .inr (.inr rfl)
  · exact .inr (.inl (Nat.lt_of_le_of_lt hi hsize))

end Arrays

/-! ## Any number of deliveries -/

theorem accesses_subset_deliveries (memories : List Buffer) :
    ∀ g : Globals, g.arrays.accesses ⊆ (deliveries memories g).arrays.accesses := by
  induction memories with
  | nil => exact fun _ => List.Subset.refl _
  | cons b memories ih =>
    intro g x hx
    exact ih (mainHandler b g) (Arrays.accesses_subset_reverse b g.arrays hx)

/-- As long as the byte behind each `line_reversed` is zero, the line is the text after an even number of
deliveries and its reverse after an odd number. -/
theorem cString_deliveries (text : List Char) (memories : List Buffer) :
    (∀ b ∈ memories, b.getD text.length '\x00' = '\x00') → ∀ g : Globals, cString g.arrays.line = text →
      cString (deliveries memories g).arrays.line = if Even memories.length then text else text.reverse := by
  induction memories generalizing text with
  | nil =>
    intro _ g hg
    exact hg
  | cons b memories ih =>
    intro hnul g hg
    have hlen : g.arrays.strlen = text.length := congrArg List.length hg
    have hfirst : cString (mainHandler b g).arrays.line = text.reverse := by
      have hrev := (Arrays.cString_reverse_iff b g.arrays).2 (by rw [hlen]; exact hnul b List.mem_cons_self)
      rwa [hg] at hrev
    have hrest := ih text.reverse (fun b hb => by rw [List.length_reverse]; exact hnul b (List.mem_cons_of_mem _ hb))
      (mainHandler b g) hfirst
    rw [List.reverse_reverse] at hrest
    refine hrest.trans ?_
    by_cases heven : Even memories.length <;> simp [Nat.even_add_one, heven]

/-- And the byte behind `line_reversed` is the only one outside the arrays that is ever accessed. -/
theorem accesses_deliveries {n : ℕ} (memories : List Buffer) (hnul : ∀ b ∈ memories, b.getD n '\x00' = '\x00') :
    ∀ g : Globals, g.arrays.strlen = n → n < g.arrays.lineSize → (∀ x ∈ g.arrays.accesses, x.Inside ∨ x = ⟨n, n⟩) →
      ∀ x ∈ (deliveries memories g).arrays.accesses, x.Inside ∨ x = ⟨n, n⟩ := by
  induction memories with
  | nil => exact fun _ _ _ h => h
  | cons b memories ih =>
    intro g hlen hsize hin
    have hbyte : b.getD g.arrays.strlen '\x00' = '\x00' := by
      rw [hlen]
      exact hnul b List.mem_cons_self
    have hlen' : (mainHandler b g).arrays.strlen = n := by
      have hrev := (Arrays.cString_reverse_iff b g.arrays).2 hbyte
      exact (congrArg List.length hrev).trans (List.length_reverse.trans hlen)
    refine ih (fun b hb => hnul b (List.mem_cons_of_mem _ hb)) (mainHandler b g) hlen' ?_ ?_
    · exact hsize.trans_eq (Arrays.reverse_lineSize b g.arrays).symm
    · intro x hx
      rcases Arrays.accesses_reverse_of_nul (hlen.trans_lt hsize) hbyte hx with hx | hx | hx
      · exact hin x hx
      · exact .inl hx
      · exact .inr (hlen ▸ hx)

/-- No access outside the two arrays, a line of the same length, and the text or its reverse: that holds only as
long as no signal has been delivered. -/
theorem reversal_safe_iff (text : CStr) (behind : Buffer) (max : ℤ) (v : Vars) (memories : List Buffer) :
    let m := (deliveries memories ⟨.argument text.1 behind, max, v⟩).arrays
    ((∀ x ∈ m.accesses, x.Inside) ∧ m.strlen = text.1.length ∧
      cString m.line = if Even memories.length then text.1 else text.1.reverse) ↔ memories.length = 0 := by
  intro m
  have hline : cString (Arrays.argument text.1 behind).line = text.1 := cString_append_nul text.2 behind
  constructor
  · rintro ⟨hin, -, -⟩
    cases memories with
    | nil => rfl
    | cons b memories =>
      have hout := accesses_subset_deliveries memories (mainHandler b ⟨.argument text.1 behind, max, v⟩)
        (Arrays.outside_mem_reverse b (.argument text.1 behind))
      exact absurd (hin _ hout) (Nat.lt_irrefl _)
  · intro hn
    have hnil := List.length_eq_zero_iff.1 hn
    subst hnil
    exact ⟨nofun, congrArg List.length hline, hline⟩

/-- One delivery with a byte other than zero behind the array: it is read, and the line grows. -/
theorem reversal_reads_outside :
    let m := (deliveries ["??!".toList] ⟨.argument "ab".toList [], 3, Vars.initial⟩).arrays
    ¬ (∀ x ∈ m.accesses, x.Inside) ∧ cString m.line = "ba!".toList := by
  decide

end Sysopy.Repeat
