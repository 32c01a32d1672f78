/-
The reads of `thread_func` in the word search (cw08/zad1), for one thread of each version. A read may be short or fail;
the loop is left only when one returns 0. So it goes on for ever just if no read does: as the data are finite, from
some read on all fail then. In wersja1 and wersja2 a thread also leaves the loop when it is cancelled. A thread that
is kept waiting for the mutex is not considered here.
-/
import Sysopy.WordSearch.Record

namespace Sysopy.WordSearch

open Sysopy.CText

/-! ## Reads -/

/-- What `read(fd, buf, RECORD_SIZE*records_count)` does: it returns -1, or puts bytes into `buf` and returns their
number. -/
inductive ReadResult where
  | error
  | bytes (d : List Char)
  deriving DecidableEq

namespace ReadResult

/-- The value of `read_count`. -/
def count : ReadResult → ℤ
  | error => -1
  | bytes d => d.length

def into : ReadResult → Buffer → Buffer
  | error, buf => buf
  | bytes d, buf => overwrite d buf

/-- One of the complete records that have been read has a match. -/
def HasMatch (word : List Char) : ReadResult → Prop
  | error => False
  | bytes d => ∃ i < d.length / RECORD_SIZE, ∃ j, 5 ≤ j ∧ j < RECORD_SIZE - word.length ∧
      wordEq word (recordAt d i) j = true

end ReadResult

/-- The results of the reads of one thread, at the given offsets. `file` is `none` when `open` has failed; the data of
the file are finite, and the other threads may move the offset in between. -/
structure ReadsOf (size : ℕ) (file : Option (List Char)) (offset : ℕ → ℕ) (results : ℕ → ReadResult) : Prop where
  failed : file = none → ∀ k, results k = .error
  moves : ∀ k, offset k ≤ offset (k + 1)
  bytes : ∀ data, file = some data → ∀ k d, results k = .bytes d →
    d.length ≤ size ∧ d <+: data.drop (offset k) ∧ offset k + d.length ≤ offset (k + 1)
  atEnd : ∀ data, file = some data → ∀ k, data.length ≤ offset k → results k = .bytes []

/-- From some read on all fail, and none before has returned 0. -/
def FailOn (results : ℕ → ReadResult) : Prop :=
  ∃ m, (∀ k < m, (results k).count ≠ 0) ∧ ∀ k, m ≤ k → results k = .error

/-! ## thread_func -/

/-- One turn of the loop meets the result of a read, and perhaps a request for cancellation by another thread. -/
structure Turn where
  result : ReadResult
  requested : Bool

/-- The locals between two turns. `cancel` is a pending request of the thread to itself, and `printed` the numbers and
positions it has reported. -/
structure Locals where
  buf : Buffer
  read_count : ℤ
  cancel : Bool
  printed : List (ℤ × ℕ)

/-- A thread is in its loop, has returned, or is cancelled. -/
inductive Thread where
  | inside (l : Locals)
  | returned (l : Locals)
  | cancelled (l : Locals)

/-- A thread before its loop, with what `malloc` has returned. -/
def Locals.start (buf : Buffer) : Locals := ⟨buf, 1, false, []⟩

/-- `while(read_count)`. -/
def whileReadCount (l : Locals) : Thread := if l.read_count ≠ 0 then .inside l else .returned l

/-- `read_count/RECORD_SIZE`. -/
def actualReadCount (read_count : ℤ) : ℤ := read_count.tdiv RECORD_SIZE

/-- The matches that the loops over `i` and `j` come to, with `record_id` and the position. -/
def found (word : List Char) (buf : Buffer) (actual_read_count : ℤ) : List (ℤ × ℕ) :=
  (List.range actual_read_count.toNat).flatMap fun i =>
    ((List.range' 5 (RECORD_SIZE - word.length - 5)).filter fun j => wordEq word buf (RECORD_SIZE * i + j)).map
      fun j => (atoi (buf.drop (RECORD_SIZE * i)), j)

/-- A turn in wersja3. -/
def Wersja3.turn (word : List Char) (l : Locals) (t : Turn) : Thread :=
  let buf := t.result.into l.buf
  let read_count := t.result.count
  whileReadCount ⟨buf, read_count, l.cancel, l.printed ++ found word buf (actualReadCount read_count)⟩

/-- A turn in wersja1. Cancellation is asynchronous: a request of another thread may end the turn anywhere, and that of
the thread to itself, behind its first match, ends it at once. -/
def Wersja1.turn (word : List Char) (l : Locals) (t : Turn) : Thread :=
  if t.requested then .cancelled l
  else
    let buf := t.result.into l.buf
    let read_count := t.result.count
    match found word buf (actualReadCount read_count) with
    | [] => whileReadCount ⟨buf, read_count, l.cancel, l.printed⟩
    | m :: _ => .cancelled ⟨buf, read_count, true, l.printed ++ [m]⟩

/-- A turn in wersja2. Requests are acted upon in `pthread_testcancel`, at the head of the turn. -/
def Wersja2.turn (word : List Char) (l : Locals) (t : Turn) : Thread :=
  if l.cancel || t.requested then .cancelled l
  else
    let buf := t.result.into l.buf
    let read_count := t.result.count
    let matched := found word buf (actualReadCount read_count)
    whileReadCount ⟨buf, read_count, !matched.isEmpty, l.printed ++ matched⟩

/-- A thread after a number of reads. -/
def after (turn : Locals → Turn → Thread) (buf : Buffer) (ts : ℕ → Turn) : ℕ → Thread
  | 0 => .inside (.start buf)
  | n + 1 =>
    match after turn buf ts n with
    | .inside l => turn l (ts n)
    | t => t

/-- The loop ends after finitely many reads. -/
def Ends (turn : Locals → Turn → Thread) (buf : Buffer) (ts : ℕ → Turn) : Prop :=
  ∃ n, ∀ l, after turn buf ts n ≠ .inside l

/-! ## When the loop ends -/

section Loop

variable {turn : Locals → Turn → Thread} {word : List Char} {buf : Buffer} {ts : ℕ → Turn} {n : ℕ} {l : Locals}

theorem after_succ_of_inside (h : after turn buf ts n = .inside l) : after turn buf ts (n + 1) = turn l (ts n) := by
  rw [after, h]

/-- A loop whose turn `k` leads to the next one iff `Q k` ends iff `Q` fails somewhere; `I k` is what holds of the
locals before turn `k`. -/
theorem ends_iff_exists {I : ℕ → Locals → Prop} {Q : ℕ → Prop} (h0 : I 0 (.start buf))
    (hgo : ∀ k l, I k l → Q k → ∃ l', turn l (ts k) = .inside l' ∧ I (k + 1) l')
    (hstop : ∀ k l, I k l → ¬ Q k → ∀ l', turn l (ts k) ≠ .inside l') : Ends turn buf ts ↔ ∃ k, ¬ Q k := by
  have hinside : ∀ n, (∀ k < n, Q k) → ∃ l, after turn buf ts n = .inside l ∧ I n l := by
    intro n hok
    induction n with
    | zero => exact ⟨_, rfl, h0⟩
    | succ n ih =>
      obtain ⟨l, hl, hI⟩ := ih fun k hk => hok k (Nat.lt_succ_of_lt hk)
      rw [after_succ_of_inside hl]
      exact hgo n l hI (hok n (Nat.lt_succ_self n))
  constructor
  · rintro ⟨n, hn⟩
    by_contra hall
    push Not at hall
    obtain ⟨l, hl, -⟩ := hinside n fun k _ => hall k
    exact hn l hl
  · intro hex
    classical
    -- the first turn that does not lead to the next one
    obtain ⟨l, hl, hI⟩ := hinside (Nat.find hex) fun k hk => Classical.not_not.1 (Nat.find_min hex hk)
    refine ⟨Nat.find hex + 1, ?_⟩
    rw [after_succ_of_inside hl]
    exact hstop _ l hI (Nat.find_spec hex)

/-- The division of -1 gives 0, so nothing is looked at after a read that fails. -/
theorem actualReadCount_count (r : ReadResult) : (actualReadCount r.count).toNat =
    match r with
    | .error => 0
    | .bytes d => d.length / RECORD_SIZE := by
  cases r with
  | error => rfl
  | bytes d =>
    show ((d.length : ℤ).tdiv (RECORD_SIZE : ℤ)).toNat = _
    rw [← Int.ofNat_tdiv]
    rfl

/-- What is found depends on the bytes that have been read. -/
theorem found_ne_nil_iff (buf : Buffer) (r : ReadResult) :
    found word (r.into buf) (actualReadCount r.count) ≠ [] ↔ r.HasMatch word := by
  unfold found
  rw [actualReadCount_count, Ne, List.flatMap_eq_nil_iff]
  cases r with
  | error => simp [ReadResult.HasMatch]
  | bytes d =>
    have hrecord : ∀ i < d.length / RECORD_SIZE, ∀ j, 5 ≤ j → j < RECORD_SIZE - word.length →
        wordEq word (overwrite d buf) (RECORD_SIZE * i + j) = wordEq word (recordAt d i) j := by
      intro i hi j h5 hj
      rw [← wordEq_recordAt h5 hj, recordAt_overwrite]
      calc RECORD_SIZE * (i + 1) ≤ RECORD_SIZE * (d.length / RECORD_SIZE) := Nat.mul_le_mul_left _ hi
        _ ≤ d.length := Nat.mul_div_le _ _
    simp only [List.mem_range, List.map_eq_nil_iff, List.filter_eq_nil_iff, List.mem_range'_1, ReadResult.into,
      ReadResult.HasMatch]
    push Not
    refine exists_congr fun i => and_congr_right fun hi => exists_congr fun j => ?_
    constructor
    · rintro ⟨⟨h5, hj⟩, hw⟩
      have hj' : j < RECORD_SIZE - word.length := by omega
      rw [hrecord i hi j h5 hj'] at hw
      exact ⟨h5, hj', hw⟩
    · rintro ⟨h5, hj, hw⟩
      rw [← hrecord i hi j h5 hj] at hw
      exact ⟨⟨h5, by omega⟩, hw⟩

theorem whileReadCount_inside (h : l.read_count ≠ 0) : whileReadCount l = .inside l := if_pos h

theorem whileReadCount_ne_inside (h : l.read_count = 0) (l' : Locals) : whileReadCount l ≠ .inside l' := by
  unfold whileReadCount
  rw [if_neg (not_not_intro h)]
  exact nofun

/-- wersja3 leaves the loop when a read returns 0. -/
theorem Wersja3.ends_iff : Ends (Wersja3.turn word) buf ts ↔ ∃ k, (ts k).result.count = 0 := by
  rw [ends_iff_exists (I := fun _ _ => True) (Q := fun k => (ts k).result.count ≠ 0) trivial]
  · simp only [not_not]
  · exact fun k l _ hok => ⟨_, whileReadCount_inside hok, trivial⟩
  · exact fun k l _ hok => whileReadCount_ne_inside (Classical.not_not.1 hok)

/-- wersja1 also when the thread is cancelled. -/
theorem Wersja1.ends_iff : Ends (Wersja1.turn word) buf ts ↔
    (∃ k, (ts k).result.count = 0) ∨ ∃ k, (ts k).requested = true ∨ (ts k).result.HasMatch word := by
  rw [ends_iff_exists (I := fun _ _ => True)
    (Q := fun k => (ts k).result.count ≠ 0 ∧ (ts k).requested = false ∧ ¬ (ts k).result.HasMatch word) trivial]
  · rw [← exists_or]
    refine exists_congr fun k => ?_
    rw [Classical.not_and_iff_not_or_not, Classical.not_and_iff_not_or_not, Bool.not_eq_false, not_not, not_not]
  · rintro k l - ⟨hcount, hreq, hnone⟩
    have hfound : found word ((ts k).result.into l.buf) (actualReadCount (ts k).result.count) = [] := by
      by_contra hne
      exact hnone ((found_ne_nil_iff _ _).1 hne)
    refine ⟨⟨(ts k).result.into l.buf, (ts k).result.count, l.cancel, l.printed⟩, ?_, trivial⟩
    simp only [turn, hreq, hfound, Bool.false_eq_true, if_false]
    exact whileReadCount_inside hcount
  · intro k l _ hok l'
    unfold turn
    split
    · exact nofun
    · rename_i hreq
      dsimp only
      split
      · rename_i hfound
        refine whileReadCount_ne_inside ?_ l'
        by_contra hcount
        refine hok ⟨hcount, Bool.not_eq_true _ ▸ hreq, fun hm => ?_⟩
        exact (found_ne_nil_iff _ _).2 hm hfound
      · exact nofun

/-- wersja2 too, at the head of the next turn. -/
theorem Wersja2.ends_iff : Ends (Wersja2.turn word) buf ts ↔
    (∃ k, (ts k).result.count = 0) ∨ ∃ k, (ts k).requested = true ∨ (ts k).result.HasMatch word := by
  rw [ends_iff_exists (I := fun k l => l.cancel = true ↔ ∃ i < k, (ts i).result.HasMatch word)
    (Q := fun k => (ts k).result.count ≠ 0 ∧ (ts k).requested = false ∧ ∀ i < k, ¬ (ts i).result.HasMatch word)]
  · constructor
    · rintro ⟨k, hk⟩
      by_contra hc
      push Not at hc
      refine hk ⟨hc.1 k, ?_, fun i _ => (hc.2 i).2⟩
      exact Bool.eq_false_of_not_eq_true (hc.2 k).1
    · rintro (⟨k, hk⟩ | ⟨k, hk | hk⟩)
      · exact ⟨k, fun h => h.1 hk⟩
      · refine ⟨k, fun h => ?_⟩
        rw [h.2.1] at hk
        cases hk
      · exact ⟨k + 1, fun h => h.2.2 k (Nat.lt_succ_self k) hk⟩
  · simp [Locals.start]
  · rintro k l hI ⟨hcount, hreq, hnone⟩
    have hcancel : l.cancel = false := by
      by_contra hc
      obtain ⟨i, hi, hm⟩ := hI.1 (Bool.not_eq_false _ ▸ hc)
      exact hnone i hi hm
    let matched := found word ((ts k).result.into l.buf) (actualReadCount (ts k).result.count)
    refine ⟨⟨(ts k).result.into l.buf, (ts k).result.count, !matched.isEmpty, l.printed ++ matched⟩, ?_, ?_⟩
    · simp only [turn, hreq, hcancel, Bool.or_self, Bool.false_eq_true, if_false]
      exact whileReadCount_inside hcount
    · have hmatched : (!matched.isEmpty) = true ↔ (ts k).result.HasMatch word := by
        rw [← found_ne_nil_iff l.buf]
        simp [matched]
      rw [hmatched]
      constructor
      · exact fun hm => ⟨k, Nat.lt_succ_self k, hm⟩
      · rintro ⟨i, hi, hm⟩
        rcases Nat.lt_succ_iff_lt_or_eq.1 hi with hi | rfl
        · exact absurd hm (hnone i hi)
        · exact hm
  · intro k l hI hok l'
    unfold turn
    split
    · exact nofun
    · rename_i hreq
      obtain ⟨hcancel, hreq⟩ := Bool.or_eq_false_iff.1 (Bool.eq_false_of_not_eq_true hreq)
      refine whileReadCount_ne_inside ?_ l'
      by_contra hcount
      refine hok ⟨hcount, hreq, fun i hi hm => ?_⟩
      rw [hI.2 ⟨i, hi, hm⟩] at hcancel
      cases hcancel

end Loop

/-! ## When a read returns 0 -/

section Reads

variable {size : ℕ} {file : Option (List Char)} {offset : ℕ → ℕ} {results : ℕ → ReadResult}

theorem ReadsOf.mono (h : ReadsOf size file offset results) {k k' : ℕ} (hle : k ≤ k') : offset k ≤ offset k' :=
  monotone_nat_of_le_succ h.moves hle

/-- The data are finite, so not all reads can bring some. -/
theorem ReadsOf.failOn_iff (h : ReadsOf size file offset results) : FailOn results ↔ ∀ k, (results k).count ≠ 0 := by
  constructor
  · rintro ⟨m, hbefore, herror⟩ k
    rcases Nat.lt_or_ge k m with hk | hk
    · exact hbefore k hk
    · rw [herror k hk]
      decide
  · intro hcount
    by_contra hnot
    have hlater : ∀ m, ∃ k, m ≤ k ∧ results k ≠ .error := by
      intro m
      by_contra hc
      push Not at hc
      exact hnot ⟨m, fun k _ => hcount k, hc⟩
    cases file with
    | none =>
      obtain ⟨k, -, hk⟩ := hlater 0
      exact hk (h.failed rfl k)
    | some data =>
      -- a read that does not fail brings at least one byte
      have hbrings : ∀ k, results k ≠ .error → offset k < data.length ∧ offset k + 1 ≤ offset (k + 1) := by
        intro k hk
        cases hr : results k with
        | error => exact absurd hr hk
        | bytes d =>
          obtain ⟨-, hpre, hnext⟩ := h.bytes data rfl k d hr
          have hlen := hpre.length_le
          have hpos := hcount k
          rw [hr] at hpos
          simp only [ReadResult.count] at hpos
          rw [List.length_drop] at hlen
          omega
      have hgrows : ∀ n, ∃ k, n ≤ offset k := by
        intro n
        induction n with
        | zero => exact ⟨0, Nat.zero_le _⟩
        | succ n ih =>
          obtain ⟨m, hm⟩ := ih
          obtain ⟨k, hmk, hk⟩ := hlater m
          have hle := h.mono hmk
          obtain ⟨-, hnext⟩ := hbrings k hk
          exact ⟨k + 1, by omega⟩
      obtain ⟨m, hm⟩ := hgrows data.length
      obtain ⟨k, hmk, hk⟩ := hlater m
      have hle := h.mono hmk
      obtain ⟨hlt, -⟩ := hbrings k hk
      omega

end Reads

/-! ## The loop of the three versions -/

section Versions

variable {size : ℕ} {file : Option (List Char)} {offset : ℕ → ℕ} {ts : ℕ → Turn}

/-- With a read that returns 0 the loop ends, and without one all reads fail from some point on. So the loop of wersja3
goes on for ever iff they do; in wersja1 and wersja2 the thread must also never be cancelled, neither on a match of its
own nor by another thread. The mutex is taken to be granted to the thread each time it asks. -/
theorem loops_end_iff (word : List Char) (buf : Buffer) (h : ReadsOf size file offset fun k => (ts k).result) :
    (Ends (Wersja3.turn word) buf ts ↔ ¬ FailOn fun k => (ts k).result) ∧
    (Ends (Wersja1.turn word) buf ts ↔
      ¬ (FailOn fun k => (ts k).result) ∨ ∃ k, (ts k).requested = true ∨ (ts k).result.HasMatch word) ∧
    (Ends (Wersja2.turn word) buf ts ↔
      ¬ (FailOn fun k => (ts k).result) ∨ ∃ k, (ts k).requested = true ∨ (ts k).result.HasMatch word) := by
  have hzero : (¬ FailOn fun k => (ts k).result) ↔ ∃ k, (ts k).result.count = 0 := by
    rw [h.failOn_iff]
    push Not
    rfl
  rw [hzero]
  exact ⟨Wersja3.ends_iff, Wersja1.ends_iff, Wersja2.ends_iff⟩

end Versions

/-- A read that is interrupted, one that brings a short file, and then the end. -/
def shortFile : ℕ → Turn
  | 0 => ⟨.error, false⟩
  | 1 => ⟨.bytes "1 ab".toList, false⟩
  | _ + 2 => ⟨.bytes [], false⟩

theorem shortFile_reads : ReadsOf RECORD_SIZE (some "1 ab".toList) (fun k => if k ≤ 1 then 0 else 4)
    fun k => (shortFile k).result where
  failed := nofun
  moves k := by split <;> split <;> omega
  bytes := by
    rintro data ⟨⟩ k d hd
    match k with
    | 0 => cases hd
    | 1 =>
      cases hd
      exact ⟨by decide, List.prefix_refl _, by decide⟩
    | k + 2 =>
      cases hd
      exact ⟨Nat.zero_le _, List.nil_prefix, by simp⟩
  atEnd := by
    rintro data ⟨⟩ k hk
    match k with
    | 0 | 1 => exact absurd hk (by decide)
    | k + 2 => rfl

theorem loops_end_shortFile : Ends (Wersja3.turn ['b']) [] shortFile ∧ Ends (Wersja1.turn ['b']) [] shortFile ∧
    Ends (Wersja2.turn ['b']) [] shortFile := by
  obtain ⟨h3, h1, h2⟩ := loops_end_iff ['b'] [] shortFile_reads
  have hnot : ¬ FailOn fun k => (shortFile k).result := by
    rintro ⟨m, -, herror⟩
    cases herror (m + 2) (Nat.le_add_right m 2)
  exact ⟨h3.2 hnot, h1.2 (.inl hnot), h2.2 (.inl hnot)⟩

/-- When `open` has failed, `fd` is -1 and no version leaves the loop. -/
theorem not_ends_of_failed : ReadsOf RECORD_SIZE none (fun _ => 0) (fun _ => .error) ∧
    ∀ word buf, ¬ Ends (Wersja3.turn word) buf (fun _ => ⟨.error, false⟩) ∧
      ¬ Ends (Wersja1.turn word) buf (fun _ => ⟨.error, false⟩) ∧
      ¬ Ends (Wersja2.turn word) buf (fun _ => ⟨.error, false⟩) := by
  refine ⟨⟨fun _ _ => rfl, fun _ => le_rfl, nofun, nofun⟩, fun word buf => ?_⟩
  have hcount : ¬ ∃ _ : ℕ, ReadResult.error.count = 0 := by
    rintro ⟨-, h⟩
    cases h
  have hquiet : ¬ ∃ _ : ℕ, false = true ∨ ReadResult.error.HasMatch word := by
    rintro ⟨-, h | h⟩ <;> cases h
  rw [Wersja3.ends_iff, Wersja1.ends_iff, Wersja2.ends_iff]
  exact ⟨hcount, not_or.2 ⟨hcount, hquiet⟩, not_or.2 ⟨hcount, hquiet⟩⟩

end Sysopy.WordSearch
