/-
At which positions a record is reported, in all three versions of the word search (cw08/zad1). A position that a
thread has passed is reported exactly when `word_eq` accepts it; the loop over `j` stops one short of the last
position at which the word fits, so a word at the very end of a record is not found.
-/
import Sysopy.WordSearch.Wersja1
import Sysopy.WordSearch.Wersja2
import Sysopy.WordSearch.Wersja3

namespace Sysopy.WordSearch

open Sysopy.Conc Sysopy.CText

/-! ## Positions that have been passed -/

section Tested

variable {n : ℕ} {J : Job} {g : Output n} {procs : Fin n → Work} {k j : ℕ}

/-- Position `j` of record `k` is behind the thread that has the record. -/
def Tested (g : Output n) (procs : Fin n → Work) (k j : ℕ) : Prop :=
  (∃ p, (p, k) ∈ g.scanned) ∨ ∃ p c i recordId j', procs p = .positions c i recordId j' ∧ c.base + i = k ∧ j < j'

/-- A line has been printed for position `j` of record `k`. -/
def Reported (g : Output n) (k j : ℕ) : Prop := ∃ r ∈ g.reports, r.record = k ∧ r.position = j

theorem count_tally (w : Work → Multiset ℕ) (k : ℕ) :
    (tally w procs).count k = tally (fun l => (w l).count k) procs := by
  unfold tally
  exact Multiset.count_sum'

theorem mem_tally {α : Type} {w : Work → Multiset α} {x : α} : x ∈ tally w procs ↔ ∃ p, x ∈ w (procs p) := by
  unfold tally
  exact Multiset.mem_sum.trans (by simp)

theorem mem_hits {a b : ℕ} (h : (k, j) ∈ J.hits a b) : k = a ∧ b ≤ j := by
  obtain ⟨i, hi, hx⟩ := Multiset.mem_sum.1 h
  unfold Job.hit at hx
  split at hx
  · cases Multiset.mem_singleton.1 hx
    exact ⟨rfl, (Finset.mem_Ico.1 hi).1⟩
  · cases hx

theorem mem_matches {a b : ℕ} (h : (k, j) ∈ J.matches a b) : a ≤ k ∧ k < b := by
  obtain ⟨i, hi, hx⟩ := Multiset.mem_sum.1 h
  obtain ⟨rfl, -⟩ := mem_hits hx
  exact Finset.mem_Ico.1 hi

theorem mem_records {a b : ℕ} : k ∈ (∑ k ∈ Finset.Ico a b, {k} : Multiset ℕ) ↔ a ≤ k ∧ k < b := by
  simp

/-- What a thread has yet to report is in the records it has yet to finish, and not behind it. -/
theorem mem_todo {l : Work} (hl : l.OK J g.offset) (h : (k, j) ∈ l.todo J) :
    k ∈ l.unscanned ∧ ∀ c i recordId j', l = .positions c i recordId j' → c.base + i = k → j' ≤ j := by
  cases l with
  | idle => cases h
  | ended => cases h
  | records c i =>
    constructor
    · exact mem_records.2 (mem_matches h)
    · nofun
  | positions c i recordId j' =>
    obtain ⟨-, hi, -⟩ := hl
    rcases Multiset.mem_add.1 h with h | h
    · obtain ⟨rfl, hle⟩ := mem_hits h
      refine ⟨mem_records.2 ⟨le_rfl, by omega⟩, ?_⟩
      rintro _ _ _ _ ⟨⟩ -
      exact hle
    · obtain ⟨hlow, hhigh⟩ := mem_matches h
      refine ⟨mem_records.2 ⟨by omega, hhigh⟩, ?_⟩
      rintro _ _ _ _ ⟨⟩ hk
      omega

/-- No two threads have the same record, and a thread has no finished one. -/
theorem Inv.record_once (hI : Inv J g procs) (k : ℕ) :
    (g.scanned.map Prod.snd).count k + tally (fun l => l.unscanned.count k) procs ≤ 1 := by
  have hnodup : (∑ k ∈ Finset.Ico 0 (g.offset / RECORD_SIZE), {k} : Multiset ℕ).Nodup := by
    rw [Finset.sum_multiset_singleton]
    exact Finset.nodup _
  have hone := Multiset.nodup_iff_count_le_one.1 hnodup k
  rwa [← hI.scanned, Multiset.count_add, Multiset.coe_count, count_tally] at hone

/-- A record that has been passed is one of those handed out. -/
theorem Inv.handed (hI : Inv J g procs) (h : Tested g procs k j) : k < g.offset / RECORD_SIZE := by
  have hmem : k ∈ (g.scanned.map Prod.snd : Multiset ℕ) + tally Work.unscanned procs := by
    rcases h with ⟨p, hp⟩ | ⟨p, c, i, recordId, j', hp, rfl, -⟩
    · exact Multiset.mem_add.2 (.inl (Multiset.mem_coe.2 (List.mem_map_of_mem hp)))
    · refine Multiset.mem_add.2 (.inr (mem_tally.2 ⟨p, ?_⟩))
      have hok := hI.locals p
      rw [hp] at hok ⊢
      exact mem_records.2 ⟨le_rfl, by have := hok.2.1; omega⟩
  rw [hI.scanned] at hmem
  exact (mem_records.1 hmem).2

/-- Nothing is left to report at a position that has been passed. -/
theorem Inv.not_mem_todo (hI : Inv J g procs) (h : Tested g procs k j) : (k, j) ∉ tally (Work.todo J) procs := by
  intro hmem
  obtain ⟨q, hq⟩ := mem_tally.1 hmem
  obtain ⟨hrest, hahead⟩ := mem_todo (hI.locals q) hq
  have hone := hI.record_once k
  have hcount : 0 < (procs q).unscanned.count k := Multiset.count_pos.2 hrest
  rcases h with ⟨p, hp⟩ | ⟨p, c, i, recordId, j', hp, hk, hlt⟩
  · have hfinished : 0 < (g.scanned.map Prod.snd).count k := List.count_pos_iff.2 (List.mem_map_of_mem hp)
    have hle := le_tally (fun l => Multiset.count k (Work.unscanned l)) procs q
    omega
  · by_cases hpq : p = q
    · subst hpq
      have := hahead c i recordId j' hp hk
      omega
    · have hown : 0 < (procs p).unscanned.count k := by
        have hok := hI.locals p
        rw [hp] at hok ⊢
        exact Multiset.count_pos.2 (mem_records.2 ⟨by omega, by have := hok.2.1; omega⟩)
      have hle := add_le_tally (fun l => Multiset.count k (Work.unscanned l)) procs hpq
      omega

/-- A position that has been passed is reported iff the loop accepts it. -/
theorem Inv.reported_iff (hI : Inv J g procs) (h : Tested g procs k j) : Reported g k j ↔ j ∈ J.scanRecord k := by
  have hreports : Reported g k j ↔ (k, j) ∈ (g.reports.map Report.place : Multiset (ℕ × ℕ)) := by
    simp [Reported, Report.place]
  have hfound : (k, j) ∈ (g.reports.map Report.place : Multiset (ℕ × ℕ)) ↔
      (k, j) ∈ J.matches 0 (g.offset / RECORD_SIZE) := by
    rw [← hI.reports, Multiset.mem_add, or_iff_left (hI.not_mem_todo h)]
  rw [hreports, hfound, Job.matches_eq_found, Multiset.mem_coe, Job.mem_found]
  exact and_iff_right (hI.handed h)

end Tested

/-! ## Positions at which the word stands -/

/-- The word stands at `j` in the text of a record: with a space before it, and with a space or the end of the
record behind it. -/
def Stands (word r : List Char) (j : ℕ) : Prop :=
  5 ≤ j ∧ (r.drop j).take word.length = word ∧ byteAt r (j - 1) = ' ' ∧
    (byteAt r (j + word.length) = ' ' ∨ j + word.length = RECORD_SIZE)

/-- The last bytes of a record are a space and the word. -/
def EndsWith (word r : List Char) : Prop :=
  5 + word.length ≤ RECORD_SIZE ∧ r.drop (RECORD_SIZE - word.length) = word ∧
    byteAt r (RECORD_SIZE - word.length - 1) = ' '

section Stands

variable {word r : List Char} {j : ℕ}

theorem sameWord_iff (hj : j + word.length ≤ r.length) :
    (∀ i (h : i < word.length), word.get ⟨i, h⟩ = byteAt r (j + i)) ↔ (r.drop j).take word.length = word := by
  have hlen : ((r.drop j).take word.length).length = word.length := by
    rw [List.length_take, List.length_drop]
    omega
  have hat : ∀ i (h : i < word.length), ((r.drop j).take word.length)[i]? = some (byteAt r (j + i)) := by
    intro i h
    have hlt : j + i < r.length := by omega
    rw [List.getElem?_take_of_lt h, List.getElem?_drop, List.getElem?_eq_getElem hlt, byteAt,
      List.getD_eq_getElem?_getD, List.getElem?_eq_getElem hlt, Option.getD_some]
  constructor
  · intro h
    apply List.ext_getElem?
    intro i
    rcases Nat.lt_or_ge i word.length with hi | hi
    · rw [hat i hi, ← h i hi]
      exact (List.getElem?_eq_getElem hi).symm
    · rw [List.getElem?_eq_none (by omega), List.getElem?_eq_none hi]
  · intro h i hi
    have hi' := hat i hi
    rw [h, List.getElem?_eq_getElem hi] at hi'
    exact Option.some.inj hi'

/-- The loop accepts a position iff the word stands there and does not end with the record. -/
theorem accepted_iff (hr : r.length = RECORD_SIZE) :
    (5 ≤ j ∧ j < RECORD_SIZE - word.length ∧ wordEq word r j = true) ↔
      Stands word r j ∧ j + word.length ≠ RECORD_SIZE := by
  rw [wordEq_eq_true]
  constructor
  · rintro ⟨h5, hlt, hbefore, hsame, hbehind⟩
    exact ⟨⟨h5, (sameWord_iff (by omega)).1 hsame, hbefore, .inl hbehind⟩, by omega⟩
  · rintro ⟨⟨h5, hsame, hbefore, hbehind | hend⟩, hne⟩
    · have hlt : j + word.length < r.length :=
        (List.getElem?_eq_some_iff.1 (getElem?_of_byteAt (by rw [hbehind]; decide))).1
      exact ⟨h5, by omega, hbefore, (sameWord_iff hlt.le).2 hsame, hbehind⟩
    · exact absurd hend hne

/-- The word stands at the last position at which it fits iff the record ends with it. -/
theorem endsWith_iff (hr : r.length = RECORD_SIZE) :
    EndsWith word r ↔ ∃ j, Stands word r j ∧ j + word.length = RECORD_SIZE := by
  constructor
  · rintro ⟨hlen, hsame, hbefore⟩
    refine ⟨RECORD_SIZE - word.length, ⟨by omega, ?_, hbefore, .inr (by omega)⟩, by omega⟩
    rw [hsame, List.take_length]
  · rintro ⟨j, ⟨h5, hsame, hbefore, -⟩, hj⟩
    obtain rfl : j = RECORD_SIZE - word.length := by omega
    refine ⟨by omega, ?_, hbefore⟩
    rwa [List.take_of_length_le (by rw [List.length_drop]; omega)] at hsame

end Stands

/-! ## All three versions -/

/-- Of every record with these bytes: a position that has been passed is reported iff the word stands there. -/
def ReportsRight {n : ℕ} (J : Job) (r : List Char) (g : Output n) (procs : Fin n → Work) : Prop :=
  ∀ k j, recordAt J.file k = r → Tested g procs k j → (Reported g k j ↔ Stands J.word r j)

theorem Job.mem_scanRecord {J : Job} {k j : ℕ} : j ∈ J.scanRecord k ↔
    5 ≤ j ∧ j < RECORD_SIZE - J.word.length ∧ wordEq J.word (recordAt J.file k) j = true := by
  unfold Job.scanRecord
  rw [List.mem_filter, List.mem_range'_1, and_assoc]
  constructor
  · rintro ⟨h5, hlt, h⟩
    exact ⟨h5, by omega, h⟩
  · rintro ⟨h5, hlt, h⟩
    exact ⟨h5, by omega, h⟩

section Versions

variable {n : ℕ} {J : Job} {r : List Char} {g : Output n} {procs : Fin n → Work}

/-- Without the word at its end a record is reported right. -/
theorem reportsRight_of_searches (h : (searches n J).Reachable ⟨g, procs⟩) (hr : r.length = RECORD_SIZE)
    (hend : ¬ EndsWith J.word r) : ReportsRight J r g procs := by
  have hI := reachable_inv h
  rintro k j rfl htested
  rw [hI.reported_iff htested, Job.mem_scanRecord, accepted_iff hr]
  exact and_iff_left_of_imp fun hstands hj => hend ((endsWith_iff hr).2 ⟨j, hstands, hj⟩)

/-- With the word at its end it is not, once a thread has finished it. -/
theorem not_reportsRight_of_searches (h : (searches n J).Reachable ⟨g, procs⟩) (hr : r.length = RECORD_SIZE)
    (hend : EndsWith J.word r) {p : Fin n} {k : ℕ} (hk : recordAt J.file k = r) (hscanned : (p, k) ∈ g.scanned) :
    ¬ ReportsRight J r g procs := by
  have hI := reachable_inv h
  intro hright
  obtain ⟨j, hstands, hj⟩ := (endsWith_iff hr).1 hend
  have htested : Tested g procs k j := .inl ⟨p, hscanned⟩
  have hreported := (hright k j hk htested).2 hstands
  rw [hI.reported_iff htested, Job.mem_scanRecord, hk, accepted_iff hr] at hreported
  exact hreported.2 hj

end Versions

/-! ## A file that is one record, scanned by one thread -/

def onlyRecord (word r : List Char) : Job := ⟨word, r, 1⟩

section OnlyRecord

variable {word r : List Char}

theorem recordAt_onlyRecord (hr : r.length = RECORD_SIZE) : recordAt (onlyRecord word r).file 0 = r := by
  show (r.drop (RECORD_SIZE * 0)).take RECORD_SIZE = r
  rw [Nat.mul_zero, List.drop_zero, List.take_of_length_le hr.le]

theorem read_onlyRecord (hr : r.length = RECORD_SIZE) : (onlyRecord word r).read 0 [] = ⟨r, RECORD_SIZE, 0⟩ :=
  read_record hr

/-- Whatever it finds in it, a thread of wersja3 comes to the end of a record. -/
theorem Wersja3.alone_finish {n : ℕ} {J : Job} {procs : Fin n → Local} {p : Fin n} {c : Chunk} {i : ℕ} {recordId : ℤ}
    (d : ℕ) : ∀ (g : Shared n) (j : ℕ), RECORD_SIZE - J.word.length - j = d →
      (system n J).Reachable ⟨g, Function.update procs p ⟨.position i recordId j, c⟩⟩ →
      ∃ s, (system n J).Reachable s ∧ (p, c.base + i) ∈ s.shared.scanned := by
  induction d with
  | zero =>
    intro g j hd h
    have hend := alone_step h { g with scanned := g.scanned ++ [(p, c.base + i)] } ⟨.record (i + 1), c⟩
      (by simp only [threadFunc, show ¬ j < RECORD_SIZE - J.word.length by omega, if_false])
    exact ⟨_, hend, List.mem_append_right _ List.mem_cons_self⟩
  | succ d ih =>
    intro g j hd h
    have hnext := alone_step h { g with toOutput := g.toOutput.test J p c i recordId j }
      ⟨.position i recordId (j + 1), c⟩
      (by simp only [threadFunc, show j < RECORD_SIZE - J.word.length by omega, if_true])
    exact ih _ (j + 1) (by omega) hnext

theorem Wersja3.exists_scanned (word : List Char) (hr : r.length = RECORD_SIZE) :
    ∃ s, (system 1 (onlyRecord word r)).Reachable s ∧ (0, 0) ∈ s.shared.scanned := by
  have hread := alone_read (start_reachable (J := onlyRecord word r) (0 : Fin 1)) rfl (read_onlyRecord hr)
  exact alone_finish _ _ 5 rfl (alone_record Nat.one_pos hread)

/-- And so does one of wersja2, which then still has its cancellation disabled. -/
theorem Wersja2.alone_finish {J : Job} {procs : Fin 1 → Local} {c : Chunk} {i : ℕ} {recordId : ℤ} {late : ℕ}
    (d : ℕ) : ∀ (g : Shared 1) (j : ℕ), RECORD_SIZE - J.word.length - j = d →
      (system 1 J).Reachable ⟨g, Function.update procs 0 ⟨.position i recordId j, c, false, late⟩⟩ →
      ∃ s, (system 1 J).Reachable s ∧ (0, c.base + i) ∈ s.shared.scanned := by
  induction d with
  | zero =>
    intro g j hd h
    have hend := alone_step h { g with scanned := g.scanned ++ [(0, c.base + i)] } ⟨.record (i + 1), c, false, late⟩
      (by simp only [threadFunc, show ¬ j < RECORD_SIZE - J.word.length by omega, if_false])
    exact ⟨_, hend, List.mem_append_right _ List.mem_cons_self⟩
  | succ d ih =>
    intro g j hd h
    have hlt : j < RECORD_SIZE - J.word.length := by omega
    cases hmatch : wordEq J.word c.buf (RECORD_SIZE * i + j) with
    | false =>
      have hnext := alone_step h g ⟨.position i recordId (j + 1), c, false, late⟩ (by
        simp only [threadFunc, hlt, hmatch, if_true, Bool.false_eq_true, if_false])
      exact ih _ (j + 1) (by omega) hnext
    | true =>
      have htest := alone_step h g ⟨.print i recordId j, c, false, late⟩ (by
        simp only [threadFunc, hlt, hmatch, if_true])
      have hprint := alone_step htest _ ⟨.cancel i recordId j 0, c, false, late⟩ rfl
      have hself := alone_step hprint _ ⟨.cancel i recordId j 1, c, false, late⟩ rfl
      have hloop := alone_step hself _ ⟨.cancelSelf i recordId j, c, false, late⟩ rfl
      have hnext := alone_step hloop _ ⟨.position i recordId (j + 1), c, false, late⟩ rfl
      exact ih _ (j + 1) (by omega) hnext

theorem Wersja2.exists_scanned (word : List Char) (hr : r.length = RECORD_SIZE) :
    ∃ s, (system 1 (onlyRecord word r)).Reachable s ∧ (0, 0) ∈ s.shared.scanned := by
  have hread := alone_read (start_reachable (J := onlyRecord word r) (0 : Fin 1)) rfl rfl (read_onlyRecord hr)
  have hrecord := alone_step hread _ ⟨.position 0 (atoi r) 5, ⟨r, RECORD_SIZE, 0⟩, false, 0⟩ (by
    simp only [threadFunc, Nat.mul_zero, List.drop_zero]
    rfl)
  exact alone_finish _ _ 5 rfl hrecord

/-- So does one of wersja1 that its own request does not strike before that. -/
theorem Wersja1.alone_finish {J : Job} {procs : Fin 1 → Local} {c : Chunk} {i : ℕ} {recordId : ℤ}
    (d : ℕ) : ∀ (g : Shared 1) (j : ℕ), RECORD_SIZE - J.word.length - j = d →
      (system 1 J).Reachable ⟨g, Function.update procs 0 ⟨.position i recordId j, c, false⟩⟩ →
      ∃ s, (system 1 J).Reachable s ∧ (0, c.base + i) ∈ s.shared.scanned := by
  induction d with
  | zero =>
    intro g j hd h
    exact ⟨_, alone_step h (.finish (by omega)), List.mem_append_right _ List.mem_cons_self⟩
  | succ d ih =>
    intro g j hd h
    have hlt : j < RECORD_SIZE - J.word.length := by omega
    cases hmatch : wordEq J.word c.buf (RECORD_SIZE * i + j) with
    | false => exact ih _ (j + 1) (by omega) (alone_step h (.miss hlt hmatch))
    | true =>
      have hprint := alone_step (alone_step h (.hit hlt hmatch)) .print
      have hself := alone_step hprint (.cancel (by decide))
      have hloop := alone_step hself (.cancelled (by decide))
      exact ih _ (j + 1) (by omega) (alone_step hloop .cancelSelf)

theorem Wersja1.exists_scanned (word : List Char) (hr : r.length = RECORD_SIZE) :
    ∃ s, (system 1 (onlyRecord word r)).Reachable s ∧ (0, 0) ∈ s.shared.scanned := by
  have hstart := start_reachable 1 (onlyRecord word r)
  rw [← Function.update_eq_self (0 : Fin 1) fun _ => fresh] at hstart
  have hread := alone_step (alone_step hstart (.lock rfl)) (.read (read_onlyRecord hr))
  have hrecord := alone_step (alone_step hread .unlock) (.record Nat.one_pos)
  exact alone_finish _ _ 5 rfl hrecord

end OnlyRecord

/-! ## The reports of the three versions -/

/-- A record is reported right at every position a thread has passed, in every run of any of the three versions,
exactly when it does not end with a space and the word. -/
theorem reports_right_iff (word r : List Char) (hr : r.length = RECORD_SIZE) :
    ((∀ (n : ℕ) (J : Job), J.word = word → 0 < J.recordsCount → ∀ s, (Wersja1.system n J).Reachable s →
        ReportsRight J r s.shared.toOutput (Wersja1.Local.work ∘ s.procs)) ↔ ¬ EndsWith word r) ∧
    ((∀ (n : ℕ) (J : Job), J.word = word → 0 < J.recordsCount → ∀ s, (Wersja2.system n J).Reachable s →
        ReportsRight J r s.shared.toOutput (Wersja2.Local.work ∘ s.procs)) ↔ ¬ EndsWith word r) ∧
    ((∀ (n : ℕ) (J : Job), J.word = word → 0 < J.recordsCount → ∀ s, (Wersja3.system n J).Reachable s →
        ReportsRight J r s.shared.toOutput (Wersja3.Local.work ∘ s.procs)) ↔ ¬ EndsWith word r) := by
  have hone : 0 < (onlyRecord word r).recordsCount := Nat.one_pos
  refine ⟨⟨?_, ?_⟩, ⟨?_, ?_⟩, ⟨?_, ?_⟩⟩
  · intro h hend
    obtain ⟨s, hs, hscanned⟩ := Wersja1.exists_scanned word hr
    exact not_reportsRight_of_searches (Wersja1.reachable_sim hs).searching hr hend (recordAt_onlyRecord hr)
      hscanned (h 1 _ rfl hone s hs)
  · rintro hend n J rfl - s hs
    exact reportsRight_of_searches (Wersja1.reachable_sim hs).searching hr hend
  · intro h hend
    obtain ⟨s, hs, hscanned⟩ := Wersja2.exists_scanned word hr
    exact not_reportsRight_of_searches (Wersja2.reachable_sim hs).searching hr hend (recordAt_onlyRecord hr)
      hscanned (h 1 _ rfl hone s hs)
  · rintro hend n J rfl - s hs
    exact reportsRight_of_searches (Wersja2.reachable_sim hs).searching hr hend
  · intro h hend
    obtain ⟨s, hs, hscanned⟩ := Wersja3.exists_scanned word hr
    exact not_reportsRight_of_searches (Wersja3.reachable_sim hs).searching hr hend (recordAt_onlyRecord hr)
      hscanned (h 1 _ rfl hone s hs)
  · rintro hend n J rfl - s hs
    exact reportsRight_of_searches (Wersja3.reachable_sim hs).searching hr hend

/-- A record with the word between two spaces. -/
def middleRecord : List Char := List.replicate 9 'x' ++ " ab ".toList ++ List.replicate 1011 'x'

/-- A thread of wersja3 scans it, and reports the word at position 10. -/
theorem reports_right_iff_letters : ∃ s, (Wersja3.system 1 (onlyRecord "ab".toList middleRecord)).Reachable s ∧
    (0, 0) ∈ s.shared.scanned ∧ Reported s.shared.toOutput 0 10 ∧
      ReportsRight (onlyRecord "ab".toList middleRecord) middleRecord s.shared.toOutput
        (Wersja3.Local.work ∘ s.procs) := by
  have hr : middleRecord.length = RECORD_SIZE := by decide +kernel
  have hend : ¬ EndsWith "ab".toList middleRecord := by
    unfold EndsWith
    decide +kernel
  have hstands : Stands "ab".toList middleRecord 10 := by
    unfold Stands
    decide +kernel
  obtain ⟨s, hs, hscanned⟩ := Wersja3.exists_scanned "ab".toList hr
  have hright := (reports_right_iff "ab".toList middleRecord hr).2.2.2 hend 1 _ rfl Nat.one_pos s hs
  exact ⟨s, hs, hscanned, (hright 0 10 (recordAt_onlyRecord hr) (.inl ⟨0, hscanned⟩)).2 hstands, hright⟩

/-- A record that ends with the word, behind a space. -/
def endRecord : List Char := List.replicate 1021 'x' ++ " ab".toList

/-- The word stands at 1022, and none of the three versions reports it when the record has been scanned. -/
theorem word_at_end_missed :
    (∃ s, (Wersja1.system 1 (onlyRecord "ab".toList endRecord)).Reachable s ∧
      ¬ ReportsRight (onlyRecord "ab".toList endRecord) endRecord s.shared.toOutput (Wersja1.Local.work ∘ s.procs)) ∧
    (∃ s, (Wersja2.system 1 (onlyRecord "ab".toList endRecord)).Reachable s ∧
      ¬ ReportsRight (onlyRecord "ab".toList endRecord) endRecord s.shared.toOutput (Wersja2.Local.work ∘ s.procs)) ∧
    ∃ s, (Wersja3.system 1 (onlyRecord "ab".toList endRecord)).Reachable s ∧
      ¬ ReportsRight (onlyRecord "ab".toList endRecord) endRecord s.shared.toOutput (Wersja3.Local.work ∘ s.procs) := by
  have hr : endRecord.length = RECORD_SIZE := by decide +kernel
  have hend : EndsWith "ab".toList endRecord := by
    unfold EndsWith
    decide +kernel
  constructor
  · obtain ⟨s, hs, hscanned⟩ := Wersja1.exists_scanned "ab".toList hr
    exact ⟨s, hs, not_reportsRight_of_searches (Wersja1.reachable_sim hs).searching hr hend
      (recordAt_onlyRecord hr) hscanned⟩
  constructor
  · obtain ⟨s, hs, hscanned⟩ := Wersja2.exists_scanned "ab".toList hr
    exact ⟨s, hs, not_reportsRight_of_searches (Wersja2.reachable_sim hs).searching hr hend
      (recordAt_onlyRecord hr) hscanned⟩
  · obtain ⟨s, hs, hscanned⟩ := Wersja3.exists_scanned "ab".toList hr
    exact ⟨s, hs, not_reportsRight_of_searches (Wersja3.reachable_sim hs).searching hr hend
      (recordAt_onlyRecord hr) hscanned⟩

end Sysopy.WordSearch
