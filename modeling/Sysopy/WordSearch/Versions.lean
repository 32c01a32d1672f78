/-
The three versions of the word search in cw08/zad1 side by side: what a run that is over has printed, whatever the
number of threads, the number of records read at once and the order of steps. Cancelled threads leave matches
unreported, but all versions agree on whether there is one, and that is whether the word stands in a record.
-/
import Sysopy.WordSearch.Positions

namespace Sysopy.WordSearch

open Sysopy.Conc Sysopy.CText

/-- wersja1.c, wersja2.c and wersja3.c. -/
inductive Version where
  | wersja1
  | wersja2
  | wersja3
  deriving DecidableEq, Repr

/-- The records and positions that the lines of the output are about. -/
def Output.places {n : ℕ} (g : Output n) : List (ℕ × ℕ) := g.reports.map Report.place

/-- What `n` threads have left behind when all of them have returned or are cancelled, or the process has ended. -/
def Version.Leaves (v : Version) (n : ℕ) (J : Job) (g : Output n) : Prop :=
  match v with
  | .wersja1 => ∃ s, (Wersja1.process n J).system.Reachable s ∧ (Wersja1.process n J).Ended s ∧
      s.pool.shared.toOutput = g
  | .wersja2 => ∃ s, (Wersja2.process n J).system.Reachable s ∧ (Wersja2.process n J).Ended s ∧
      s.pool.shared.toOutput = g
  | .wersja3 => ∃ s, (Wersja3.system n J).Reachable s ∧ (∀ p, (s.procs p).pc = .ended) ∧ s.shared.toOutput = g

/-! ## The reports among the matches -/

section Matches

variable {n : ℕ} {J : Job} {g : Output n} {procs : Fin n → Work}

/-- Whatever work the threads have left, they have reported matches of the complete records, each once at most. -/
theorem Inv.places_subperm (hI : Inv J g procs) : g.places.Subperm (J.found J.records) := by
  have hhanded : J.matches 0 (g.offset / RECORD_SIZE) ≤ J.matches 0 J.records := by
    have hsplit := Job.matches_append (J := J) (Nat.zero_le _) (Nat.div_le_div_right (c := RECORD_SIZE) hI.aligned.1)
    rw [Job.records, ← hsplit]
    exact Multiset.le_add_right _ _
  have hle : (g.places : Multiset (ℕ × ℕ)) ≤ J.matches 0 (g.offset / RECORD_SIZE) := by
    rw [← hI.reports]
    exact Multiset.le_add_right _ _
  have hall := hle.trans hhanded
  rwa [Job.matches_eq_found, Multiset.coe_le] at hall

/-- The word stands somewhere in a complete record, and not at its end. -/
def Job.Has (J : Job) : Prop :=
  ∃ k < J.records, ∃ j, Stands J.word (recordAt J.file k) j ∧ j + J.word.length ≠ RECORD_SIZE

theorem length_recordAt {k : ℕ} (hk : k < J.records) : (recordAt J.file k).length = RECORD_SIZE := by
  have hle : RECORD_SIZE * (k + 1) ≤ J.file.length := by
    calc RECORD_SIZE * (k + 1) ≤ RECORD_SIZE * J.records := Nat.mul_le_mul_left _ hk
      _ ≤ J.file.length := Nat.mul_div_le _ _
  rw [recordAt, List.length_take, List.length_drop]
  rw [Nat.mul_add, Nat.mul_one] at hle
  omega

theorem Job.found_ne_nil_iff : J.found J.records ≠ [] ↔ J.Has := by
  have hstands : ∀ k < J.records, ∀ j, j ∈ J.scanRecord k ↔
      Stands J.word (recordAt J.file k) j ∧ j + J.word.length ≠ RECORD_SIZE := by
    intro k hk j
    rw [Job.mem_scanRecord, accepted_iff (length_recordAt hk)]
  constructor
  · intro hne
    obtain ⟨⟨k, j⟩, hmem⟩ := List.exists_mem_of_ne_nil _ hne
    obtain ⟨hk, hj⟩ := Job.mem_found.1 hmem
    exact ⟨k, hk, j, (hstands k hk j).1 hj⟩
  · rintro ⟨k, hk, j, hj⟩
    have hmem : (k, j) ∈ J.found J.records := Job.mem_found.2 ⟨hk, (hstands k hk j).2 hj⟩
    exact List.ne_nil_of_mem hmem

end Matches

/-! ## What each version leaves -/

section Leaves

variable {v : Version} {n n' : ℕ} {J : Job} {g : Output n} {g' : Output n'}

/-- The reports are of matches, and they are none only where there are none. -/
theorem Version.Leaves.places (h : v.Leaves n J g) (hn : 0 < n) (hcount : ¬ 2 ^ 22 ∣ J.recordsCount) :
    g.places.Subperm (J.found J.records) ∧ (g.places = [] → J.found J.records = []) ∧
      (v = .wersja3 → g.places.Perm (J.found J.records)) := by
  have hsize : J.size ≠ 0 := mt J.size_eq_zero_iff.1 hcount
  cases v with
  | wersja1 =>
    obtain ⟨s, hs, hend, rfl⟩ := h
    have hI := reachable_inv (Wersja1.reachable_sim (Joining.reachable_threads hs)).searching
    refine ⟨hI.places_subperm, fun hnone => ?_, by rintro ⟨⟩⟩
    exact Wersja1.found_nil_of_ended hn hsize hs hend (List.map_eq_nil_iff.1 hnone)
  | wersja2 =>
    obtain ⟨s, hs, hend, rfl⟩ := h
    have hI := reachable_inv (Wersja2.reachable_sim (Joining.reachable_threads hs)).searching
    refine ⟨hI.places_subperm, fun hnone => ?_, by rintro ⟨⟩⟩
    exact Wersja2.found_nil_of_ended hn hsize hs hend (List.map_eq_nil_iff.1 hnone)
  | wersja3 =>
    obtain ⟨s, hs, hended, rfl⟩ := h
    obtain ⟨hI, hfree, hoffset⟩ := Wersja3.ended_inv hn hcount hs hended
    have hperm := hI.reports_perm hfree
    rw [hoffset] at hperm
    refine ⟨hperm.subperm, fun hnone => ?_, fun _ => hperm⟩
    rw [Output.places] at hnone
    rw [hnone] at hperm
    exact hperm.nil_eq.symm

/-- A version that cancels its threads reports no match that wersja3 does not report as well, and none twice; and it
reports one if wersja3 does. The threads and the records read at once may be as many as they like in either. -/
theorem versions_agree {word file : List Char} {c c' : ℕ} (hn : 0 < n) (hn' : 0 < n') (hc : ¬ 2 ^ 22 ∣ c)
    (hc' : ¬ 2 ^ 22 ∣ c') (h : v.Leaves n ⟨word, file, c⟩ g) (h' : Version.wersja3.Leaves n' ⟨word, file, c'⟩ g') :
    g.places.Subperm g'.places ∧ (g.places = [] ↔ g'.places = []) ∧ (v = .wersja3 → g.places.Perm g'.places) := by
  obtain ⟨hsub, hnone, hperm⟩ := h.places hn hc
  obtain ⟨-, hnone', hall⟩ := h'.places hn' hc'
  -- the matches do not depend on the number of records read at once
  have hfound : g'.places.Perm (Job.found ⟨word, file, c⟩ (Job.records ⟨word, file, c⟩)) := hall rfl
  refine ⟨hsub.trans hfound.symm.subperm, ⟨fun h => ?_, fun h => ?_⟩, fun hv => (hperm hv).trans hfound.symm⟩
  · exact List.perm_nil.1 (hnone h ▸ hfound)
  · have hnil : Job.found ⟨word, file, c⟩ (Job.records ⟨word, file, c⟩) = [] := hnone' h
    rw [hnil] at hsub
    exact List.subperm_nil.1 hsub

/-- In each version: there is a line of output iff the word stands in a complete record, and not at its end. -/
theorem reports_iff_has (hn : 0 < n) (hcount : ¬ 2 ^ 22 ∣ J.recordsCount) (h : v.Leaves n J g) :
    g.reports ≠ [] ↔ J.Has := by
  obtain ⟨hsub, hnone, -⟩ := h.places hn hcount
  rw [← Job.found_ne_nil_iff]
  refine not_congr ⟨fun hnil => hnone (by rw [Output.places, hnil]; rfl), fun hnil => ?_⟩
  rw [hnil] at hsub
  exact List.map_eq_nil_iff.1 (List.subperm_nil.1 hsub)

end Leaves

/-! ## A file of one record -/

theorem oneRecord_leaves : ∃ g g' g'', Version.wersja1.Leaves 1 oneRecord g ∧ Version.wersja2.Leaves 2 oneRecord g' ∧
    Version.wersja3.Leaves 2 oneRecord g'' := by
  obtain ⟨s, hs, hover, -⟩ := Wersja1.oneRecord_cancelled
  obtain ⟨s', hs', hcancelled, -⟩ := Wersja2.oneRecord_cancelled
  obtain ⟨s'', hs'', hended, -⟩ := Wersja3.oneRecord_ended
  have hfirst := (Joining.reachableIf_of_threads (M := Wersja1.process 1 oneRecord) hs).reachable
  have hsecond := (Joining.reachableIf_of_threads (M := Wersja2.process 2 oneRecord) hs').reachable
  exact ⟨_, _, _, ⟨_, hfirst, .inr hover, rfl⟩,
    ⟨_, hsecond, .inr fun p => Wersja2.over_iff.2 (.inr (hcancelled p)), rfl⟩, ⟨s'', hs'', hended, rfl⟩⟩

theorem versions_agree_oneRecord : ∃ (g : Output 1) (g' : Output 2), Version.wersja1.Leaves 1 oneRecord g ∧
    Version.wersja3.Leaves 2 oneRecord g' ∧ g.places.Subperm g'.places ∧ (g.places = [] ↔ g'.places = []) := by
  obtain ⟨g, -, g', h, -, h'⟩ := oneRecord_leaves
  obtain ⟨hsub, hnone, -⟩ := versions_agree (by decide) (by decide) (by decide) (by decide) h h'
  exact ⟨g, g', h, h', hsub, hnone⟩

theorem reports_iff_has_oneRecord : ∃ g : Output 2, Version.wersja2.Leaves 2 oneRecord g ∧
    (g.reports ≠ [] ↔ oneRecord.Has) := by
  obtain ⟨-, g, -, -, h, -⟩ := oneRecord_leaves
  exact ⟨g, h, reports_iff_has (by decide) (by decide) h⟩

end Sysopy.WordSearch
