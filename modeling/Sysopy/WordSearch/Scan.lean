/-
What the threads of the word search do to the file and the output, without the mutex and the cancellation of
the single versions: a thread without work takes the next chunk of the file, tests every position of every
complete record in it, and stops at an empty chunk. In every state the matches reported and those the threads
have yet to report are the matches of the records handed out.
-/
import Sysopy.CText.Decimal
import Sysopy.Conc.Pool
import Sysopy.WordSearch.Record

namespace Sysopy.WordSearch

open Sysopy.Conc Sysopy.CText

/-! ## Chunks -/

/-- What main sets: the word, the contents of the file, and how many records a thread reads at once. -/
structure Job where
  word : List Char
  file : List Char
  recordsCount : ℕ

/-- `RECORD_SIZE*records_count`, a product of two ints. -/
def Job.size (J : Job) : ℤ := toInt (RECORD_SIZE * J.recordsCount)

/-- The bytes a read gets if the file has as many left. -/
def Job.bytes (J : Job) : ℕ := J.size.toNat

/-- The records in them: `records_count`, unless the product is none of an int. -/
def Job.perRead (J : Job) : ℕ := J.bytes / RECORD_SIZE

/-- The number of complete records. -/
def Job.records (J : Job) : ℕ := J.file.length / RECORD_SIZE

/-- The buffer of a thread after a read; `base` is the number of its first record in the file. -/
structure Chunk where
  buf : Buffer
  readCount : ℤ
  base : ℕ

/-- `read_count/RECORD_SIZE`, as often as the loop goes round for it. -/
def Chunk.actualReadCount (c : Chunk) : ℕ := (c.readCount.tdiv RECORD_SIZE).toNat

/-- How far the read has moved the offset. -/
def Chunk.taken (c : Chunk) : ℕ := c.readCount.toNat

/-- `read(fd, buf, RECORD_SIZE*records_count)` at an offset of the file. For a negative product `malloc` has failed, and
so does the read. -/
def Job.read (J : Job) (offset : ℕ) (buf : Buffer) : Chunk :=
  if J.size < 0 then ⟨buf, -1, offset / RECORD_SIZE⟩
  else
    let bytes := (J.file.drop offset).take J.bytes
    ⟨overwrite bytes buf, bytes.length, offset / RECORD_SIZE⟩

/-! ## The search -/

/-- A line of the output: the thread, `record_id`, and the record and position it is about. -/
structure Report (n : ℕ) where
  tid : Fin n
  recordId : ℤ
  record : ℕ
  position : ℕ

/-- The shared file offset and the output; `scanned` is a history of who finished which record. -/
structure Output (n : ℕ) where
  offset : ℕ
  reports : List (Report n)
  scanned : List (Fin n × ℕ)

/-- A thread with no chunk, in front of record `i` of its chunk, in front of position `j` of that record, or
at its end. -/
inductive Work where
  | idle
  | records (c : Chunk) (i : ℕ)
  | positions (c : Chunk) (i : ℕ) (recordId : ℤ) (j : ℕ)
  | ended

variable {n : ℕ}

/-- The output when position `j` has been tested. -/
def Output.test (J : Job) (self : Fin n) (c : Chunk) (i : ℕ) (recordId : ℤ) (j : ℕ) (g : Output n) : Output n :=
  if wordEq J.word c.buf (RECORD_SIZE * i + j) then
    { g with reports := g.reports ++ [⟨self, recordId, c.base + i, j⟩] }
  else g

/-- One step of a thread; `buf` is what is in its memory when it reads. -/
def search (n : ℕ) (J : Job) : Program (Fin n) (Output n) Work Buffer := fun self g l buf =>
  match l with
  | .idle =>
    some ({ g with offset := g.offset + (J.read g.offset buf).taken }, .records (J.read g.offset buf) 0)
  | .records c i =>
    if i < c.actualReadCount then some (g, .positions c i (atoi (c.buf.drop (RECORD_SIZE * i))) 5)
    else some (g, if c.readCount = 0 then .ended else .idle)
  | .positions c i recordId j =>
    if j < RECORD_SIZE - J.word.length then some (g.test J self c i recordId j, .positions c i recordId (j + 1))
    else some ({ g with scanned := g.scanned ++ [(self, c.base + i)] }, .records c (i + 1))
  | .ended => none

/-- All runs of the search. -/
def searches (n : ℕ) (J : Job) : System (Pool (Fin n) (Output n) Work) (Fin n × Buffer) :=
  (search n J).system fun s => s.shared = ⟨0, [], []⟩ ∧ ∀ p, s.procs p = .idle

/-! ## The matches of the file -/

section Matches

variable (J : Job)

/-- The match at a position of a record, if there is one. -/
def Job.hit (k j : ℕ) : Multiset (ℕ × ℕ) := if wordEq J.word (recordAt J.file k) j then {(k, j)} else 0

/-- The matches of a record from a position on. -/
def Job.hits (k j : ℕ) : Multiset (ℕ × ℕ) := ∑ i ∈ Finset.Ico j (RECORD_SIZE - J.word.length), J.hit k i

/-- The matches of the records `a`, ..., `b - 1`. -/
def Job.matches (a b : ℕ) : Multiset (ℕ × ℕ) := ∑ k ∈ Finset.Ico a b, J.hits k 5

variable {J}

theorem Job.hits_step {k j : ℕ} (h : j < RECORD_SIZE - J.word.length) : J.hits k j = J.hit k j + J.hits k (j + 1) :=
  Finset.sum_eq_sum_Ico_succ_bot h _

theorem Job.hits_end {k j : ℕ} (h : ¬ j < RECORD_SIZE - J.word.length) : J.hits k j = 0 := by
  unfold Job.hits
  rw [Finset.Ico_eq_empty_of_le (Nat.not_lt.1 h), Finset.sum_empty]

theorem Job.matches_step {a b : ℕ} (h : a < b) : J.matches a b = J.hits a 5 + J.matches (a + 1) b :=
  Finset.sum_eq_sum_Ico_succ_bot h _

theorem Job.matches_self (a : ℕ) : J.matches a a = 0 := by simp [Job.matches]

/-- A sequential scan of one record. -/
def Job.scanRecord (J : Job) (k : ℕ) : List ℕ :=
  (List.range' 5 (RECORD_SIZE - J.word.length - 5)).filter fun j => wordEq J.word (recordAt J.file k) j

/-- The matches of the first `m` records in the order of a sequential scan: the record and the position. -/
def Job.found (J : Job) (m : ℕ) : List (ℕ × ℕ) :=
  (List.range m).flatMap fun k => (J.scanRecord k).map fun j => (k, j)

/-- What a sequential scan of the file reports: the number at the head of the record, and the position. -/
def Job.scan (J : Job) : List (ℤ × ℕ) := (J.found J.records).map fun m => (atoi (recordAt J.file m.1), m.2)

theorem Job.hits_eq_scanRecord (k : ℕ) : J.hits k 5 = ((J.scanRecord k).map fun j => (k, j) : Multiset (ℕ × ℕ)) := by
  have hrange : ∀ m, ∑ i ∈ Finset.Ico 5 (5 + m), J.hit k i = (((List.range' 5 m).filter fun j =>
      wordEq J.word (recordAt J.file k) j).map fun j => (k, j) : Multiset (ℕ × ℕ)) := by
    intro m
    induction m with
    | zero => simp
    | succ m ih =>
      rw [← Nat.add_assoc, Finset.sum_Ico_succ_top (by omega), ih, List.range'_concat, List.filter_append,
        List.map_append, ← Multiset.coe_add, Nat.one_mul]
      congr 1
      unfold Job.hit
      split <;> simp [*]
  unfold Job.hits Job.scanRecord
  rw [← hrange]
  rcases Nat.le_total 5 (RECORD_SIZE - J.word.length) with h | h
  · rw [Nat.add_sub_cancel' h]
  · rw [Nat.sub_eq_zero_of_le h, Finset.Ico_eq_empty_of_le h, Nat.add_zero, Finset.Ico_self]

theorem Job.mem_found {m : ℕ} {x : ℕ × ℕ} : x ∈ J.found m ↔ x.1 < m ∧ x.2 ∈ J.scanRecord x.1 := by
  unfold Job.found
  rw [List.mem_flatMap]
  constructor
  · rintro ⟨k, hk, hx⟩
    obtain ⟨j, hj, rfl⟩ := List.mem_map.1 hx
    exact ⟨List.mem_range.1 hk, hj⟩
  · rintro ⟨hk, hj⟩
    exact ⟨x.1, List.mem_range.2 hk, List.mem_map.2 ⟨x.2, hj, rfl⟩⟩

/-- A word with a character that is no white space matches only in records whose number ends in them. -/
theorem Job.numberEnds_of_word (hword : ∃ c ∈ J.word, isSpace c = false) {k : ℕ} (h : J.scanRecord k ≠ []) :
    NumberEnds (recordAt J.file k) := by
  obtain ⟨j, hj⟩ := List.exists_mem_of_ne_nil _ h
  exact numberEnds_of_wordEq hword (List.mem_filter.1 hj).2

theorem Job.matches_eq_found (m : ℕ) : J.matches 0 m = (J.found m : Multiset (ℕ × ℕ)) := by
  induction m with
  | zero => rfl
  | succ m ih =>
    have hlast : J.matches 0 (m + 1) = J.matches 0 m + J.hits m 5 := Finset.sum_Ico_succ_top (Nat.zero_le _) _
    rw [hlast, ih, Job.hits_eq_scanRecord, Multiset.coe_add]
    simp [Job.found, List.range_succ]

theorem Job.matches_append {a b c : ℕ} (hab : a ≤ b) (hbc : b ≤ c) : J.matches a b + J.matches b c = J.matches a c :=
  Finset.sum_Ico_consecutive _ hab hbc

end Matches

/-! ## Reading on record boundaries -/

section Read

variable {J : Job} {offset : ℕ} {buf : Buffer} {c : Chunk}

/-- The offset is on a record boundary, or at the end of the file. -/
def Aligned (J : Job) (offset : ℕ) : Prop :=
  offset ≤ J.file.length ∧ (RECORD_SIZE ∣ offset ∨ offset = J.file.length)

/-- The product is a number of whole records also where it overflows. -/
theorem Job.dvd_size (J : Job) : (RECORD_SIZE : ℤ) ∣ J.size := by
  have hdvd : (RECORD_SIZE : ℤ) ∣ ((2 ^ 32 : ℕ) : ℤ) := ⟨2 ^ 22, by norm_num [RECORD_SIZE]⟩
  have hsub : ((2 ^ 32 : ℕ) : ℤ) ∣ J.size - RECORD_SIZE * J.recordsCount := by
    unfold Job.size toInt
    exact Int.dvd_bmod_sub_self
  exact (Int.dvd_iff_dvd_of_dvd_sub (hdvd.trans hsub)).2 (Int.dvd_mul_right _ _)

theorem Job.bytes_eq (J : Job) : J.bytes = RECORD_SIZE * J.perRead := by
  have hdvd : RECORD_SIZE ∣ J.bytes := by
    unfold Job.bytes
    rcases Int.le_total 0 J.size with h | h
    · rw [← Int.natCast_dvd_natCast, Int.toNat_of_nonneg h]
      exact J.dvd_size
    · rw [Int.toNat_of_nonpos h]
      exact Nat.dvd_zero _
  exact (Nat.mul_div_cancel' hdvd).symm

/-- The overflow of the product, by whole multiples of 2^22 records, leaves nothing to read. -/
theorem Job.size_eq_zero_iff (J : Job) : J.size = 0 ↔ 2 ^ 22 ∣ J.recordsCount := by
  have hzero : ((2 ^ 32 : ℕ) : ℤ) ∣ RECORD_SIZE * J.recordsCount ↔ J.size = 0 := Int.dvd_iff_bmod_eq_zero
  rw [← hzero]
  unfold RECORD_SIZE
  omega

theorem taken_eq : (J.read offset buf).taken = min J.bytes (J.file.length - offset) := by
  unfold Job.read Chunk.taken
  split
  · rename_i hneg
    have hzero : J.bytes = 0 := Int.toNat_of_nonpos hneg.le
    rw [hzero, Nat.zero_min]
    rfl
  · exact (Int.toNat_natCast _).trans (List.length_take.trans (by rw [List.length_drop]))

theorem base_eq : (J.read offset buf).base = offset / RECORD_SIZE := by
  unfold Job.read
  split <;> rfl

/-- The division truncates, so a read that has failed leaves no record. -/
theorem Chunk.actualReadCount_eq (c : Chunk) : c.actualReadCount = c.taken / RECORD_SIZE := by
  unfold Chunk.actualReadCount Chunk.taken
  cases c.readCount with
  | ofNat k => rfl
  | negSucc k => rw [Int.toNat_negSucc, Nat.zero_div, Int.negSucc_eq, Int.neg_tdiv]; exact Int.toNat_neg_natCast _

/-- A read takes whole records, or all that is left. -/
theorem taken_cases (h : Aligned J offset) : RECORD_SIZE ∣ (J.read offset buf).taken ∨
    offset + (J.read offset buf).taken = J.file.length := by
  rw [taken_eq]
  rcases Nat.le_total J.bytes (J.file.length - offset) with hle | hle
  · left
    rw [Nat.min_eq_left hle, J.bytes_eq]
    exact Dvd.intro _ rfl
  · right
    have := h.1
    omega

theorem aligned_read (h : Aligned J offset) : Aligned J (offset + (J.read offset buf).taken) := by
  have hle : (J.read offset buf).taken ≤ J.file.length - offset := by
    rw [taken_eq]
    exact Nat.min_le_right _ _
  have := h.1
  refine ⟨by omega, ?_⟩
  have hcases : RECORD_SIZE ∣ (J.read offset buf).taken ∨ _ := taken_cases h
  rcases hcases with hd | hd
  · rcases h.2 with ho | ho
    · exact .inl (Nat.dvd_add ho hd)
    · exact .inr (by omega)
  · exact .inr hd

/-- The records handed out by a read are those in the chunk. -/
theorem handed_read (h : Aligned J offset) : (offset + (J.read offset buf).taken) / RECORD_SIZE =
    (J.read offset buf).base + (J.read offset buf).actualReadCount := by
  rw [base_eq, Chunk.actualReadCount_eq]
  rcases h.2 with hd | hd
  · exact Nat.add_div_of_dvd_right hd
  · have hzero : (J.read offset buf).taken = 0 := by
      rw [taken_eq, hd]
      omega
    rw [hzero, Nat.add_zero, Nat.zero_div, Nat.add_zero]

/-- An empty read is one at the end of the file, if it asks for something. -/
theorem length_le_of_readCount (hsize : J.size ≠ 0) (h : (J.read offset buf).readCount = 0) :
    J.file.length ≤ offset := by
  have hpos : 0 < J.size := by
    by_contra hneg
    rw [Job.read, if_pos (by omega)] at h
    cases h
  have htaken : (J.read offset buf).taken = 0 := by rw [Chunk.taken, h, Int.toNat_zero]
  have hbytes : 0 < J.bytes := Int.lt_toNat.2 hpos
  rw [taken_eq] at htaken
  omega

/-- A read that asks for as much as the whole file gets it, -/
theorem read_all (h : (J.file.length : ℤ) = J.size) : J.read 0 [] = ⟨J.file, J.file.length, 0⟩ := by
  have hbytes : J.bytes = J.file.length := by rw [Job.bytes, ← h, Int.toNat_natCast]
  unfold Job.read
  rw [if_neg (by omega), List.drop_zero, hbytes, List.take_length]
  dsimp only
  rw [overwrite_nil, Nat.zero_div]

/-- as when the file is one record. -/
theorem read_record {word r : List Char} (hr : r.length = RECORD_SIZE) :
    (Job.mk word r 1).read 0 [] = ⟨r, RECORD_SIZE, 0⟩ := by
  have hone : (RECORD_SIZE : ℤ) = toInt (RECORD_SIZE * (1 : ℕ)) := by decide
  have hsize : ((Job.mk word r 1).file.length : ℤ) = (Job.mk word r 1).size := by
    rw [hr]
    exact hone
  rw [read_all hsize, hr]

theorem readCount_eq (hsize : 0 ≤ J.size) : (J.read offset buf).readCount = (J.read offset buf).taken := by
  unfold Chunk.taken Job.read
  rw [if_neg (by omega), Int.toNat_natCast]

theorem Chunk.readCount_ne_zero (h : 0 < c.taken) : c.readCount ≠ 0 := fun h0 => by
  rw [Chunk.taken, h0] at h
  exact absurd h (Nat.lt_irrefl 0)

/-- At the end of the file a read is empty, -/
theorem readCount_end (hsize : 0 ≤ J.size) (h : J.file.length ≤ offset) : (J.read offset buf).readCount = 0 := by
  rw [readCount_eq hsize, taken_eq, Nat.sub_eq_zero_of_le h, Nat.min_zero]
  rfl

/-- and everywhere if it asks for nothing. -/
theorem readCount_none (hsize : J.size = 0) : (J.read offset buf).readCount = 0 := by
  have hbytes : J.bytes = 0 := by rw [Job.bytes, hsize, Int.toNat_zero]
  rw [readCount_eq hsize.ge, taken_eq, hbytes, Nat.zero_min]
  rfl

/-- The complete records in a chunk are those of the file from its base on. -/
def Chunk.Of (J : Job) (c : Chunk) : Prop :=
  ∀ i < c.actualReadCount, recordAt c.buf i = recordAt J.file (c.base + i)

theorem read_of (h : Aligned J offset) : (J.read offset buf).Of J := by
  intro i hi
  have hlen : RECORD_SIZE * (i + 1) ≤ (J.read offset buf).taken := by
    rw [Chunk.actualReadCount_eq] at hi
    rw [mul_comm]
    exact (Nat.le_div_iff_mul_le (by decide)).1 hi
  have hcount : (J.read offset buf).taken = min J.bytes (J.file.length - offset) := taken_eq
  have hbase : RECORD_SIZE * (offset / RECORD_SIZE) = offset := by
    rcases h.2 with hd | hd
    · exact Nat.mul_div_cancel' hd
    · have : 0 < RECORD_SIZE * (i + 1) := Nat.mul_pos (by decide) (Nat.succ_pos i)
      omega
  have hsize : RECORD_SIZE * i + RECORD_SIZE ≤ J.bytes := by
    have : RECORD_SIZE * (i + 1) ≤ J.bytes := by omega
    exact this
  have hbuf : (J.read offset buf).buf = overwrite ((J.file.drop offset).take J.bytes) buf := by
    unfold Job.read
    split
    · rename_i hneg
      have hzero : J.bytes = 0 := Int.toNat_of_nonpos hneg.le
      exact absurd hsize (by rw [hzero, RECORD_SIZE]; omega)
    · rfl
  have hlength : RECORD_SIZE * (i + 1) ≤ ((J.file.drop offset).take J.bytes).length := by
    rw [List.length_take, List.length_drop]
    omega
  rw [hbuf, base_eq, recordAt_overwrite hlength]
  unfold recordAt
  rw [List.drop_take, List.take_take, Nat.min_eq_left (by omega), List.drop_drop, Nat.mul_add, hbase]

/-- Inside a chunk the test of a position is the test of that position in the file's record. -/
theorem Chunk.Of.wordEq (hc : c.Of J) {i j : ℕ} (hi : i < c.actualReadCount) (h5 : 5 ≤ j)
    (hj : j < RECORD_SIZE - J.word.length) :
    wordEq J.word c.buf (RECORD_SIZE * i + j) = WordSearch.wordEq J.word (recordAt J.file (c.base + i)) j := by
  rw [← hc i hi, wordEq_recordAt h5 hj]

theorem Chunk.Of.atoi (hc : c.Of J) {i : ℕ} (hi : i < c.actualReadCount)
    (h : NumberEnds (recordAt J.file (c.base + i))) :
    atoi (c.buf.drop (RECORD_SIZE * i)) = CText.atoi (recordAt J.file (c.base + i)) := by
  rw [← hc i hi] at h ⊢
  exact atoi_recordAt h

end Read

/-! ## The invariant -/

namespace Work

/-- The matches a thread has yet to report. -/
def todo (J : Job) : Work → Multiset (ℕ × ℕ)
  | .records c i => J.matches (c.base + i) (c.base + c.actualReadCount)
  | .positions c i _ j => J.hits (c.base + i) j + J.matches (c.base + i + 1) (c.base + c.actualReadCount)
  | _ => 0

/-- The records a thread has yet to finish. -/
def unscanned : Work → Multiset ℕ
  | .records c i | .positions c i _ _ => ∑ k ∈ Finset.Ico (c.base + i) (c.base + c.actualReadCount), {k}
  | _ => 0

/-- What a thread knows: its chunk holds records of the file, its number is the right one if that number ends
in the record, and it stops at the end of the file, if the reads ask for something. -/
def OK (J : Job) (offset : ℕ) : Work → Prop
  | .idle => True
  | .records c i => c.Of J ∧ i ≤ c.actualReadCount ∧ (c.readCount = 0 → J.size ≠ 0 → J.file.length ≤ offset)
  | .positions c i recordId j => c.Of J ∧ i < c.actualReadCount ∧ 5 ≤ j ∧
      (NumberEnds (recordAt J.file (c.base + i)) → recordId = atoi (recordAt J.file (c.base + i)))
  | .ended => J.size ≠ 0 → J.file.length ≤ offset

theorem OK.mono {J : Job} {offset offset' : ℕ} {l : Work} (h : l.OK J offset) (hle : offset ≤ offset') :
    l.OK J offset' := by
  cases l with
  | idle => trivial
  | records c i => exact ⟨h.1, h.2.1, fun h0 hsize => (h.2.2 h0 hsize).trans hle⟩
  | positions c i recordId j => exact h
  | ended => exact fun hsize => (h hsize).trans hle

end Work

/-- The record and the position a report is about. -/
def Report.place (r : Report n) : ℕ × ℕ := (r.record, r.position)

/-- The records handed out are the reports made and to be made, and the records finished and to be finished. -/
structure Inv (J : Job) (g : Output n) (procs : Fin n → Work) : Prop where
  aligned : Aligned J g.offset
  locals : ∀ p, (procs p).OK J g.offset
  reports : (g.reports.map Report.place : Multiset (ℕ × ℕ)) + tally (Work.todo J) procs =
    J.matches 0 (g.offset / RECORD_SIZE)
  scanned : (g.scanned.map Prod.snd : Multiset ℕ) + tally Work.unscanned procs =
    ∑ k ∈ Finset.Ico 0 (g.offset / RECORD_SIZE), {k}
  ids : ∀ r ∈ g.reports, NumberEnds (recordAt J.file r.record) → r.recordId = atoi (recordAt J.file r.record)

section Step

variable {J : Job} {g : Output n} {procs : Fin n → Work} {p : Fin n} {l : Work}

/-- A step that leaves the offset alone: what is reported and finished is what is no longer to be. -/
theorem Inv.update (hI : Inv J g procs) {g' : Output n} (made : Multiset (ℕ × ℕ)) (done : Multiset ℕ)
    (hoff : g'.offset = g.offset) (hl : l.OK J g.offset)
    (hmade : (g'.reports.map Report.place : Multiset (ℕ × ℕ)) = g.reports.map Report.place + made)
    (htodo : (procs p).todo J = made + l.todo J)
    (hdone : (g'.scanned.map Prod.snd : Multiset ℕ) = g.scanned.map Prod.snd + done)
    (hunscanned : (procs p).unscanned = done + l.unscanned)
    (hids : ∀ r ∈ g'.reports, NumberEnds (recordAt J.file r.record) → r.recordId = atoi (recordAt J.file r.record)) :
    Inv J g' (Function.update procs p l) := by
  constructor
  · rw [hoff]
    exact hI.aligned
  · intro q
    rw [hoff]
    by_cases hq : q = p
    · subst hq
      rwa [Function.update_self]
    · rw [Function.update_of_ne hq]
      exact hI.locals q
  · rw [hmade, hoff, ← hI.reports, add_assoc, tally_spend htodo]
  · rw [hdone, hoff, ← hI.scanned, add_assoc, tally_spend hunscanned]
  · exact hids

/-- A thread gets a chunk: the records handed out go from the file to the thread. -/
theorem Inv.receive (hI : Inv J g procs) (hp : procs p = .idle) {c : Chunk}
    (haligned : Aligned J (g.offset + c.taken)) (hof : c.Of J) (hbase : c.base = g.offset / RECORD_SIZE)
    (hhanded : (g.offset + c.taken) / RECORD_SIZE = c.base + c.actualReadCount)
    (hend : c.readCount = 0 → J.size ≠ 0 → J.file.length ≤ g.offset) :
    Inv J { g with offset := g.offset + c.taken } (Function.update procs p (.records c 0)) := by
  constructor
  · exact haligned
  · intro q
    by_cases hq : q = p
    · subst hq
      rw [Function.update_self]
      exact ⟨hof, Nat.zero_le _, fun h0 hsize => (hend h0 hsize).trans (Nat.le_add_right _ _)⟩
    · rw [Function.update_of_ne hq]
      exact (hI.locals q).mono (Nat.le_add_right _ _)
  · have hearn : Work.todo J (.records c 0) =
        J.matches c.base (c.base + c.actualReadCount) + Work.todo J (procs p) := by
      rw [hp]
      exact (add_zero _).symm
    rw [tally_earn hearn, ← add_assoc, hI.reports, hhanded, ← hbase]
    exact J.matches_append (Nat.zero_le _) (Nat.le_add_right _ _)
  · have hearn : Work.unscanned (.records c 0) =
        (∑ k ∈ Finset.Ico c.base (c.base + c.actualReadCount), {k}) + Work.unscanned (procs p) := by
      rw [hp]
      exact (add_zero _).symm
    rw [tally_earn hearn, ← add_assoc, hI.scanned, hhanded, ← hbase]
    exact Finset.sum_Ico_consecutive _ (Nat.zero_le _) (Nat.le_add_right _ _)
  · exact hI.ids

/-- It gets the one it has read. -/
theorem Inv.take (hI : Inv J g procs) (hp : procs p = .idle) (buf : Buffer) :
    Inv J { g with offset := g.offset + (J.read g.offset buf).taken }
      (Function.update procs p (.records (J.read g.offset buf) 0)) :=
  hI.receive hp (aligned_read hI.aligned) (read_of hI.aligned) base_eq (handed_read hI.aligned)
    fun h0 hsize => length_le_of_readCount hsize h0

/-- A thread goes on to the next record of its chunk, or for the next chunk. -/
theorem Inv.nextRecord (hI : Inv J g procs) {c : Chunk} {i : ℕ} (hp : procs p = .records c i) :
    Inv J g (Function.update procs p (if i < c.actualReadCount then
      .positions c i (atoi (c.buf.drop (RECORD_SIZE * i))) 5 else if c.readCount = 0 then .ended else .idle)) := by
  have hok := hI.locals p
  rw [hp] at hok
  obtain ⟨hc, hi, hend⟩ := hok
  by_cases hlt : i < c.actualReadCount
  · rw [if_pos hlt]
    refine hI.update 0 0 rfl ⟨hc, hlt, le_rfl, hc.atoi hlt⟩ ?_ ?_ ?_ ?_ hI.ids
    · rw [add_zero]
    · rw [hp, zero_add]
      exact J.matches_step (by omega)
    · rw [add_zero]
    · rw [hp, zero_add]
      rfl
  · rw [if_neg hlt]
    have hi' : i = c.actualReadCount := by omega
    refine hI.update 0 0 rfl ?_ (add_zero _).symm ?_ (add_zero _).symm ?_ hI.ids
    · split
      · rename_i h0
        exact hend h0
      · trivial
    · rw [hp, hi', zero_add]
      refine (J.matches_self _).trans ?_
      split <;> rfl
    · have hnone : Work.unscanned (.records c c.actualReadCount) = 0 := by simp [Work.unscanned]
      rw [hp, hi', zero_add, hnone]
      split <;> rfl

/-- A thread tests a position. -/
theorem Inv.test (hI : Inv J g procs) {c : Chunk} {i j : ℕ} {recordId : ℤ} (hp : procs p = .positions c i recordId j)
    (hj : j < RECORD_SIZE - J.word.length) :
    Inv J (g.test J p c i recordId j) (Function.update procs p (.positions c i recordId (j + 1))) := by
  have hok := hI.locals p
  rw [hp] at hok
  obtain ⟨hc, hi, h5, hid⟩ := hok
  -- one match is reported, and one less is left to report
  have hhit : ((g.test J p c i recordId j).reports.map Report.place : Multiset (ℕ × ℕ)) =
      g.reports.map Report.place + J.hit (c.base + i) j := by
    unfold Output.test Job.hit
    rw [hc.wordEq hi h5 hj]
    split
    · rw [List.map_append, ← Multiset.coe_add]
      rfl
    · rw [add_zero]
  have hoff : (g.test J p c i recordId j).offset = g.offset := by
    unfold Output.test
    split <;> rfl
  have hscanned : (g.test J p c i recordId j).scanned = g.scanned := by
    unfold Output.test
    split <;> rfl
  refine hI.update (J.hit (c.base + i) j) 0 hoff ⟨hc, hi, by omega, hid⟩ hhit ?_ ?_ ?_ ?_
  · rw [hp]
    simp only [Work.todo]
    rw [J.hits_step hj, add_assoc]
  · rw [hscanned, add_zero]
  · rw [hp, zero_add]
    rfl
  · intro r hr
    unfold Output.test at hr
    split at hr
    · rcases List.mem_append.1 hr with hr | hr
      · exact hI.ids r hr
      · obtain rfl := List.mem_singleton.1 hr
        exact hid
    · exact hI.ids r hr

/-- A thread has finished a record. -/
theorem Inv.finish (hI : Inv J g procs) {c : Chunk} {i j : ℕ} {recordId : ℤ}
    (hp : procs p = .positions c i recordId j) (hj : ¬ j < RECORD_SIZE - J.word.length) :
    Inv J { g with scanned := g.scanned ++ [(p, c.base + i)] } (Function.update procs p (.records c (i + 1))) := by
  have hok := hI.locals p
  rw [hp] at hok
  obtain ⟨hc, hi, -, -⟩ := hok
  -- an empty chunk has no record to finish
  have hcount : c.readCount ≠ 0 := by
    intro h0
    rw [Chunk.actualReadCount, h0, Int.zero_tdiv] at hi
    exact absurd hi (Nat.not_lt_zero _)
  refine hI.update 0 {c.base + i} rfl ⟨hc, hi, fun h0 => absurd h0 hcount⟩ ?_ ?_ ?_ ?_ hI.ids
  · rw [add_zero]
  · rw [hp, zero_add]
    simp only [Work.todo]
    rw [J.hits_end hj, zero_add]
    rfl
  · rw [List.map_append, ← Multiset.coe_add]
    rfl
  · rw [hp]
    exact Finset.sum_eq_sum_Ico_succ_bot (by omega) _

theorem inv_step (hI : Inv J g procs) {buf : Buffer} {g' : Output n}
    (h : search n J p g (procs p) buf = some (g', l)) : Inv J g' (Function.update procs p l) := by
  unfold search at h
  cases hp : procs p with
  | idle =>
    rw [hp] at h
    obtain ⟨rfl, rfl⟩ := Prod.mk.inj (Option.some.inj h)
    exact hI.take hp buf
  | records c i =>
    rw [hp] at h
    have hnext := hI.nextRecord hp
    dsimp only at h
    split at h
    · rename_i hlt
      obtain ⟨rfl, rfl⟩ := Prod.mk.inj (Option.some.inj h)
      rwa [if_pos hlt] at hnext
    · rename_i hlt
      obtain ⟨rfl, rfl⟩ := Prod.mk.inj (Option.some.inj h)
      rwa [if_neg hlt] at hnext
  | positions c i recordId j =>
    rw [hp] at h
    dsimp only at h
    split at h
    · rename_i hlt
      obtain ⟨rfl, rfl⟩ := Prod.mk.inj (Option.some.inj h)
      exact hI.test hp hlt
    · rename_i hlt
      obtain ⟨rfl, rfl⟩ := Prod.mk.inj (Option.some.inj h)
      exact hI.finish hp hlt
  | ended =>
    rw [hp] at h
    cases h

end Step

theorem reachable_inv {J : Job} {s : Pool (Fin n) (Output n) Work}
    (h : (searches n J).Reachable s) : Inv J s.shared s.procs := by
  refine Program.invariant (fun s hs => ?_) (fun g procs p a g' l hI hstep => inv_step hI hstep) h
  obtain ⟨hg, hp⟩ := hs
  have hzero : ∀ {M : Type} [AddCommMonoid M] (w : Work → M), w .idle = 0 → tally w s.procs = 0 := by
    intro M _ w hw
    unfold tally
    exact Finset.sum_eq_zero fun p _ => by rw [hp p, hw]
  rw [hg]
  refine ⟨⟨Nat.zero_le _, .inl (Nat.dvd_zero _)⟩, fun p => ?_, ?_, ?_, ?_⟩
  · rw [hp p]
    trivial
  · rw [hzero _ rfl]
    simp [Job.matches]
  · rw [hzero _ rfl]
    simp
  · intro r hr
    cases hr

/-! ## Requests for cancellation -/

/-- A request is not taken back by another one. -/
theorem update_requested {n : ℕ} {q r : Fin n} {requested : Fin n → Bool} (h : requested q = true) :
    Function.update requested r true q = true := by
  by_cases hq : q = r
  · rw [hq, Function.update_self]
  · rwa [Function.update_of_ne hq]

/-! ## Threads without work -/

/-- A thread that has nothing left of the records it took. -/
def Work.Free (l : Work) : Prop := l = .idle ∨ l = .ended

section Free

variable {J : Job} {g : Output n} {procs : Fin n → Work}

theorem tally_free {M : Type*} [AddCommMonoid M] {w : Work → M} (hidle : w .idle = 0) (hended : w .ended = 0)
    (h : ∀ p, (procs p).Free) : tally w procs = 0 := by
  refine Finset.sum_eq_zero fun p _ => ?_
  rcases h p with hp | hp
  · rw [hp, hidle]
  · rw [hp, hended]

/-- When no thread has work left, the reports are the matches of the records handed out. -/
theorem Inv.reports_perm (hI : Inv J g procs) (h : ∀ p, (procs p).Free) :
    (g.reports.map Report.place).Perm (J.found (g.offset / RECORD_SIZE)) := by
  have := hI.reports
  rw [tally_free rfl rfl h, add_zero, Job.matches_eq_found] at this
  exact Multiset.coe_eq_coe.1 this

/-- With their numbers they are the sequential scan, once the whole file is handed out and when the numbers of
the records with a match end in them. -/
theorem Inv.reports_perm_scan (hI : Inv J g procs) (h : ∀ p, (procs p).Free)
    (hend : g.offset / RECORD_SIZE = J.records)
    (hnumbers : ∀ k < J.records, J.scanRecord k ≠ [] → NumberEnds (recordAt J.file k)) :
    (g.reports.map fun r => (r.recordId, r.position)).Perm J.scan := by
  have hplaces := hI.reports_perm h
  rw [hend] at hplaces
  have hid : ∀ r ∈ g.reports, (r.recordId, r.position) = (atoi (recordAt J.file r.place.1), r.place.2) := by
    intro r hr
    have hmem : r.place ∈ J.found J.records := hplaces.mem_iff.1 (List.mem_map.2 ⟨r, hr, rfl⟩)
    obtain ⟨hlt, hj⟩ := Job.mem_found.1 hmem
    rw [hI.ids r hr (hnumbers _ hlt (List.ne_nil_of_mem hj))]
    rfl
  have hscan := hplaces.map fun m => (atoi (recordAt J.file m.1), m.2)
  rw [List.map_map] at hscan
  rwa [List.map_congr_left hid]

/-- And these records have been scanned, each once. -/
theorem Inv.scanned_eq (hI : Inv J g procs) (h : ∀ p, (procs p).Free) :
    (g.scanned.map Prod.snd).Perm (List.range (g.offset / RECORD_SIZE)) := by
  have := hI.scanned
  rw [tally_free rfl rfl h, add_zero, Finset.sum_multiset_singleton] at this
  rw [← Multiset.coe_eq_coe, this, Nat.Ico_zero_eq_range]
  rfl

/-- A thread that has ended has found the end of the file. -/
theorem Inv.offset_eq (hI : Inv J g procs) (hsize : J.size ≠ 0) {p : Fin n} (h : procs p = .ended) :
    g.offset = J.file.length := by
  have hended := hI.locals p
  rw [h] at hended
  exact Nat.le_antisymm hI.aligned.1 (hended hsize)

end Free

/-! ## A file of one record -/

/-- One record, with a match of the empty word and a character that is no white space before it. -/
def oneRecord : Job := ⟨[], spaced 'x', 1⟩

theorem oneRecord_length : oneRecord.file.length = RECORD_SIZE := length_spaced 'x'

theorem oneRecord_read : oneRecord.read 0 [] = ⟨oneRecord.file, RECORD_SIZE, 0⟩ := read_record oneRecord_length

theorem oneRecord_numberEnds {k : ℕ} (hk : k < oneRecord.records) : NumberEnds (recordAt oneRecord.file k) := by
  have hrecords : oneRecord.records = 1 := by
    unfold Job.records
    rw [oneRecord_length]
    rfl
  obtain rfl : k = 0 := by omega
  decide +kernel

theorem oneRecord_wordEq {j : ℕ} (h5 : 5 ≤ j) (hj : j < RECORD_SIZE) :
    wordEq oneRecord.word oneRecord.file (RECORD_SIZE * 0 + j) = decide (j = 5) := by
  rw [Nat.mul_zero, Nat.zero_add]
  have := wordEq_nil_spaced (c := 'x') (t := []) (by decide) h5 hj
  rwa [List.append_nil] at this

theorem oneRecord_atoi : atoi oneRecord.file = 0 := by decide +kernel

end Sysopy.WordSearch
