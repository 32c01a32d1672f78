/-
When the readers and writers of cw07/zad2 can deadlock: exactly when there are two readers. `readcount`
is not shared, so the second reader also takes itself for the first: it waits for `WRT` with `MUTEX` held,
and the reader that holds `WRT` needs `MUTEX` to release it. With at most one reader, and any number of
writers, no reachable state is a deadlock.
-/
import Sysopy.ReadersWriters.Serial

namespace Sysopy.ReadersWriters

open Sysopy.Conc

variable {ι : Type*} {MAX : ℕ} {T₀ : Fin MAX → ℤ}

/-- The semaphore a process lowers next. -/
def waitsFor : Proc MAX → Option Sem
  | .reader _ .downMutex | .reader _ .downMutexEnd => some .MUTEX
  | .reader _ .downWrt | .writer (.downWrt _) => some .WRT
  | _ => none

/-- The process holds `MUTEX`. -/
def holdsMutex : Proc MAX → ℕ
  | .reader _ .incCount | .reader _ .testFirst | .reader _ .downWrt | .reader _ .upMutex | .reader _ .decCount
  | .reader _ .testLast | .reader _ .upWrt | .reader _ .upMutexEnd => 1
  | _ => 0

/-- The process is blocked inside `sem_wait`. -/
def Waiting (s : Pool ι (Shared ι MAX) (Proc MAX)) (p : ι) : Prop :=
  ∃ sem, waitsFor (s.procs p) = some sem ∧ s.shared.sem sem = 0

def Holds (s : Pool ι (Shared ι MAX) (Proc MAX)) (p : ι) : Prop :=
  holdsMutex (s.procs p) = 1 ∨ holdsWrt (s.procs p) = 1

/-- Some process waits, and every process that holds `MUTEX` or `WRT` waits too. -/
def Deadlock (s : Pool ι (Shared ι MAX) (Proc MAX)) : Prop := (∃ p, Waiting s p) ∧ ∀ p, Holds s p → Waiting s p

/-- At most one process is a reader. -/
def AtMostOneReader (isReader : ι → Bool) : Prop := ∀ p q, isReader p = true → isReader q = true → p = q

/-! ## Who holds MUTEX -/

def Proc.isReader : Proc MAX → Bool
  | .reader .. => true
  | .writer _ => false

section Step

variable {g g' : Shared ι MAX} {p : ι} {rand : ℕ}

theorem reader_mutex {rc rc' : ℤ} {pc pc' : Reader} (h : reader p rand g rc pc = some (g', rc', pc')) :
    g'.sem .MUTEX + holdsMutex (.reader rc' pc' : Proc MAX) = g.sem .MUTEX + holdsMutex (.reader rc pc : Proc MAX) := by
  cases pc <;> simp only [reader, Option.some.injEq, Option.map_eq_some_iff, Prod.mk.injEq] at h
  case downMutex | downMutexEnd =>
    obtain ⟨_, hs, rfl, rfl, rfl⟩ := h
    obtain ⟨hp, rfl⟩ := semDown_eq_some.1 hs
    simp only [Function.update_self, holdsMutex]; omega
  case downWrt =>
    obtain ⟨_, hs, rfl, rfl, rfl⟩ := h
    obtain ⟨hp, rfl⟩ := downWrt_eq_some.1 hs
    rfl
  case scan => split at h <;> cases h <;> rfl
  case testFirst | testLast => obtain ⟨rfl, rfl, rfl⟩ := h; split <;> rfl
  all_goals obtain ⟨rfl, rfl, rfl⟩ := h; rfl

theorem writer_mutex {pc pc' : Writer MAX} (h : writer p rand g pc = some (g', pc')) :
    g'.sem .MUTEX = g.sem .MUTEX := by
  cases pc <;> simp only [writer, Option.some.injEq, Option.map_eq_some_iff, Prod.mk.injEq] at h
  case downWrt =>
    obtain ⟨_, hs, rfl, -⟩ := h
    obtain ⟨-, rfl⟩ := downWrt_eq_some.1 hs
    rfl
  case choose | loop => (repeat' split at h) <;> cases h <;> rfl
  all_goals obtain ⟨rfl, -⟩ := h; rfl

/-- A step of a process moves `MUTEX` between the semaphore and the process, and does not change what the process is. -/
theorem program_mutex {l l' : Proc MAX} (h : program ι MAX p g l rand = some (g', l')) :
    g'.sem .MUTEX + holdsMutex l' = g.sem .MUTEX + holdsMutex l ∧ l'.isReader = l.isReader := by
  cases l with
  | reader rc pc =>
    obtain ⟨⟨g₁, rc', pc'⟩, hstep, he⟩ := Option.map_eq_some_iff.1 h
    cases he
    exact ⟨reader_mutex hstep, rfl⟩
  | writer pc =>
    obtain ⟨⟨g₁, pc'⟩, hstep, he⟩ := Option.map_eq_some_iff.1 h
    cases he
    exact ⟨by rw [writer_mutex hstep]; rfl, rfl⟩

end Step

theorem holdsMutex_atTop (isReader : Bool) : holdsMutex (atTop MAX isReader) = 0 := by cases isReader <;> rfl

theorem isReader_atTop (isReader : Bool) : (atTop MAX isReader).isReader = isReader := by cases isReader <;> rfl

section Reachable

variable [Fintype ι] [DecidableEq ι] {isReader : ι → Bool} {s : Pool ι (Shared ι MAX) (Proc MAX)}

/-- `MUTEX` is free or held by one process, and readers stay readers. -/
theorem reachable_mutex (h : (system T₀ isReader).Reachable s) :
    s.shared.sem .MUTEX + tally holdsMutex s.procs = 1 ∧ ∀ p, (s.procs p).isReader = isReader p := by
  refine Program.invariant (I := fun (g : Shared ι MAX) (procs : ι → Proc MAX) =>
    g.sem .MUTEX + tally holdsMutex procs = 1 ∧ ∀ p, (procs p).isReader = isReader p) ?_ ?_ h
  · rintro s ⟨hg, hp⟩
    rw [hg, tally_eq_zero.2 fun p => by rw [hp p, holdsMutex_atTop]]
    exact ⟨rfl, fun p => by rw [hp p, isReader_atTop]⟩
  · rintro g procs p rand g' l' ⟨hm, hr⟩ hs
    have key := program_mutex hs
    have th := tally_update holdsMutex procs p l'
    refine ⟨by omega, fun q => ?_⟩
    by_cases hq : q = p
    · subst hq; rw [Function.update_self, key.2, hr]
    · rw [Function.update_of_ne hq, hr]

/-- A process that holds `MUTEX`, or waits for it, is a reader; and no process does both. -/
theorem isReader_of_holdsMutex {l : Proc MAX} (h : 0 < holdsMutex l) :
    l.isReader = true ∧ waitsFor l ≠ some .MUTEX := by
  cases l with
  | reader rc pc => cases pc <;> simp_all [holdsMutex, waitsFor, Proc.isReader]
  | writer pc => cases h

theorem isReader_of_waitsFor {l : Proc MAX} (h : waitsFor l = some .MUTEX) : l.isReader = true := by
  cases l with
  | reader rc pc => rfl
  | writer pc => cases pc <;> cases h

theorem waitsFor_of_holdsWrt {l : Proc MAX} (h : 0 < holdsWrt l) : waitsFor l ≠ some .WRT := by
  cases l with
  | reader rc pc => cases pc <;> simp_all [holdsWrt, waitsFor]
  | writer pc => cases pc <;> simp_all [holdsWrt, waitsFor]

/-- With at most one reader nobody waits for `MUTEX`: its holder would be another reader. -/
theorem not_waiting_mutex (hone : AtMostOneReader isReader) (h : (system T₀ isReader).Reachable s) {p : ι}
    (hp : waitsFor (s.procs p) = some .MUTEX) : s.shared.sem .MUTEX ≠ 0 := by
  intro h0
  obtain ⟨hm, hr⟩ := reachable_mutex h
  obtain ⟨q, hq⟩ := exists_of_tally_pos (w := holdsMutex) (f := s.procs) (by omega)
  obtain ⟨hqr, hqw⟩ := isReader_of_holdsMutex hq
  have : p = q := hone p q (by rw [← hr, isReader_of_waitsFor hp]) (by rw [← hr, hqr])
  exact hqw (this ▸ hp)

theorem not_deadlock_of_one_reader (hone : AtMostOneReader isReader) (h : (system T₀ isReader).Reachable s) :
    ¬ Deadlock s := by
  rintro ⟨⟨p, sem, hw, h0⟩, hall⟩
  cases sem with
  | MUTEX => exact not_waiting_mutex hone h hw h0
  | WRT =>
    -- the holder of WRT waits too, not for WRT, so for MUTEX
    have hwrt := (reachable_sim h).2.wrt
    obtain ⟨q, hq⟩ := exists_of_tally_pos (w := holdsWrt) (f := s.procs) (by omega)
    have hle := le_tally holdsWrt s.procs q
    obtain ⟨sem, hqw, hq0⟩ := hall q (.inr (by omega))
    cases sem with
    | MUTEX => exact not_waiting_mutex hone h hqw hq0
    | WRT => exact waitsFor_of_holdsWrt hq hqw

end Reachable

/-! ## Two readers -/

section TwoReaders

variable [DecidableEq ι] {isReader : ι → Bool} {s : Pool ι (Shared ι MAX) (Proc MAX)} {p q : ι}

/-- One step of a reader from a reachable state. -/
theorem reader_step (rand : ℕ) (h : (system T₀ isReader).Reachable s) {rc rc' : ℤ} {pc pc' : Reader} {g : Shared ι MAX}
    (hp : s.procs p = .reader rc pc) (hr : reader p rand s.shared rc pc = some (g, rc', pc')) :
    ∃ s', (system T₀ isReader).Reachable s' ∧ s'.shared = g ∧ s'.procs p = .reader rc' pc' ∧
      ∀ q, q ≠ p → s'.procs q = s.procs q := by
  refine ⟨⟨g, Function.update s.procs p (.reader rc' pc')⟩, ?_, rfl, Function.update_self .., fun q hq =>
    Function.update_of_ne hq ..⟩
  refine Program.reachable_step h (a := rand) ?_
  simp only [program, hp, hr, Option.map_some]

/-- A reader that scans gets to the end of its scan and prints, whatever the table. -/
theorem scan_ends : ∀ (n : ℕ) {s : Pool ι (Shared ι MAX) (Proc MAX)} {i : ℕ} {rc v c : ℤ},
    (system T₀ isReader).Reachable s → MAX - i = n → s.procs p = .reader rc (.scan v i c) →
    ∃ s', (system T₀ isReader).Reachable s' ∧ s'.shared.sem = s.shared.sem ∧ s'.procs p = .reader rc .downMutexEnd ∧
      ∀ q, q ≠ p → s'.procs q = s.procs q
  | 0, s, i, rc, v, c, h, hn, hp => by
    obtain ⟨s₁, h₁, hg₁, hp₁, ho₁⟩ := reader_step 0 h hp
      (by simp only [reader, dif_neg (show ¬ i < MAX by omega)]; rfl)
    obtain ⟨s₂, h₂, hg₂, hp₂, ho₂⟩ := reader_step 0 h₁ hp₁ rfl
    exact ⟨s₂, h₂, by rw [hg₂, hg₁], hp₂, fun q hq => (ho₂ q hq).trans (ho₁ q hq)⟩
  | n + 1, s, i, rc, v, c, h, hn, hp => by
    obtain ⟨s₁, h₁, hg₁, hp₁, ho₁⟩ := reader_step 0 h hp
      (by simp only [reader, dif_pos (show i < MAX by omega)]; rfl)
    obtain ⟨s₂, h₂, hg₂, hp₂, ho₂⟩ := scan_ends n h₁ (by omega) hp₁
    exact ⟨s₂, h₂, by rw [hg₂, hg₁], hp₂, fun q hq => (ho₂ q hq).trans (ho₁ q hq)⟩

/-- Two readers reach a deadlock: `p` takes `WRT` and leaves `MUTEX`, `q` takes `MUTEX` and waits for
`WRT`, and `p` comes back for `MUTEX`; everybody else is still at the top of its loop. -/
theorem two_readers_deadlock (hpq : p ≠ q) (hp : isReader p = true) (hq : isReader q = true) :
    ∃ s, (system T₀ isReader).Reachable s ∧ Deadlock s := by
  have h₀ : (system T₀ isReader).Reachable ⟨initShared ι T₀, fun p => atTop MAX (isReader p)⟩ :=
    .init ⟨rfl, fun _ => rfl⟩
  have hqp : q ≠ p := hpq.symm
  obtain ⟨s₁, h₁, hg₁, hp₁, ho₁⟩ := reader_step (p := p) 0 h₀
    (show atTop MAX (isReader p) = .reader 0 .downMutex by simp only [atTop, hp, if_true]) rfl
  obtain ⟨s₂, h₂, hg₂, hp₂, ho₂⟩ := reader_step 0 h₁ hp₁ rfl
  obtain ⟨s₃, h₃, hg₃, hp₃, ho₃⟩ := reader_step 0 h₂ hp₂ rfl
  obtain ⟨s₄, h₄, hg₄, hp₄, ho₄⟩ := reader_step 0 h₃ hp₃ (by rw [hg₃, hg₂, hg₁]; rfl)
  obtain ⟨s₅, h₅, hg₅, hp₅, ho₅⟩ := reader_step 0 h₄ hp₄ rfl
  obtain ⟨s₆, h₆, hg₆, hq₆, ho₆⟩ := reader_step (p := q) 0 h₅
    (show s₅.procs q = .reader 0 .downMutex by
      rw [ho₅ q hqp, ho₄ q hqp, ho₃ q hqp, ho₂ q hqp, ho₁ q hqp]; simp only [atTop, hq, if_true])
    (by rw [hg₅, hg₄]; rfl)
  obtain ⟨s₇, h₇, hg₇, hq₇, ho₇⟩ := reader_step 0 h₆ hq₆ rfl
  obtain ⟨s₈, h₈, hg₈, hq₈, ho₈⟩ := reader_step 0 h₇ hq₇ rfl
  obtain ⟨s₉, h₉, hg₉, hp₉, ho₉⟩ := reader_step (p := p) 0 h₈
    (by rw [ho₈ p hpq, ho₇ p hpq, ho₆ p hpq, hp₅]) rfl
  obtain ⟨s', h', hsem, hp', ho'⟩ := scan_ends _ h₉ rfl hp₉
  have hq' : s'.procs q = .reader 1 .downWrt := by rw [ho' q hqp, ho₉ q hqp, hq₈]; rfl
  have hsem' : s'.shared.sem .MUTEX = 0 ∧ s'.shared.sem .WRT = 0 := by
    rw [hsem, hg₉, hg₈, hg₇, hg₆]
    exact ⟨rfl, rfl⟩
  have hwp : Waiting s' p := ⟨.MUTEX, by rw [hp']; rfl, hsem'.1⟩
  refine ⟨s', h', ⟨p, hwp⟩, fun r hr => ?_⟩
  by_cases hrp : r = p
  · rw [hrp]; exact hwp
  by_cases hrq : r = q
  · rw [hrq]; exact ⟨.WRT, by rw [hq']; rfl, hsem'.2⟩
  · have htop : s'.procs r = atTop MAX (isReader r) := by
      rw [ho' r hrp, ho₉ r hrp, ho₈ r hrq, ho₇ r hrq, ho₆ r hrq, ho₅ r hrp, ho₄ r hrp, ho₃ r hrp, ho₂ r hrp, ho₁ r hrp]
    unfold Holds at hr
    rw [htop] at hr
    exact absurd hr (by cases isReader r <;> simp [atTop, holdsMutex, holdsWrt])

end TwoReaders

/-- From any table, no reachable state of the given readers and writers is a deadlock, exactly when at most one of
them is a reader. -/
theorem no_deadlock_iff [Fintype ι] [DecidableEq ι] (T₀ : Fin MAX → ℤ) (isReader : ι → Bool) :
    (∀ s, (system T₀ isReader).Reachable s → ¬ Deadlock s) ↔ AtMostOneReader isReader := by
  constructor
  · intro h p q hp hq
    by_contra hpq
    obtain ⟨s, hs, hd⟩ : ∃ s, (system T₀ isReader).Reachable s ∧ Deadlock s := two_readers_deadlock hpq hp hq
    exact h s hs hd
  · exact fun hone s hs => not_deadlock_of_one_reader hone hs

/-- Two readers over the table of 50 cells deadlock. -/
theorem deadlock_of_two_readers :
    ¬ ∀ s, (system (fun _ : Fin 50 => -1) fun _ : Fin 2 => true).Reachable s → ¬ Deadlock s := by
  intro h
  have h01 : (0 : Fin 2) ≠ 1 := by decide
  obtain ⟨s, hs, hd⟩ : ∃ s, (system (fun _ : Fin 50 => -1) fun _ : Fin 2 => true).Reachable s ∧ Deadlock s :=
    two_readers_deadlock h01 rfl rfl
  exact h s hs hd

end Sysopy.ReadersWriters
