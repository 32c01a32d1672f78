/-
The producers and consumers of cw07/zad1 never all block, for any number of either and any table size. The
units that the blocked processes miss are counted by the invariant of `Safety`: with nobody between two
semaphore operations they are all in the semaphores.
-/
import Sysopy.ProdCons.Safety

namespace Sysopy.ProdCons

open Sysopy.Conc

/-- The semaphore whose `sem_down` a process is in. -/
def downOf : Proc → Option Sem
  | .producer (.downEmpty _) => some .EMPTY
  | .consumer .downFill => some .FILL
  | .producer (.downMutex _) | .consumer .downMutex => some .MUTEX
  | _ => none

/-- Where `sem_down` returns to. -/
def afterDown : Proc → Proc
  | .producer (.downEmpty v) => .producer (.downMutex v)
  | .producer (.downMutex v) => .producer (.scan v 0)
  | .consumer .downFill => .consumer .downMutex
  | .consumer .downMutex => .consumer (.scan 0)
  | l => l

/-- The process is inside a `sem_down` whose `semop` blocks. -/
def Blocked {MAX : ℕ} (g : Shared MAX) (l : Proc) : Prop :=
  ∃ sem, downOf l = some sem ∧ semDown false g sem = none

section Blocked

variable {MAX : ℕ} {g : Shared MAX} {l : Proc} {i : Bool} {rand : ℕ}

theorem semDown_eq_none {sem : Sem} : semDown false g sem = none ↔ g.sem sem = 0 := by
  rw [Option.eq_none_iff_forall_ne_some]
  constructor
  · intro h
    by_contra hc
    exact h _ (semDown_eq_some.2 ⟨Nat.pos_of_ne_zero hc, rfl⟩)
  · intro h g' hg'
    have := (semDown_eq_some.1 hg').1
    omega

/-- A blocked process waits at a semaphore that is at zero. -/
theorem blocked_iff : Blocked g l ↔ ∃ sem, downOf l = some sem ∧ g.sem sem = 0 := by
  unfold Blocked
  simp only [semDown_eq_none]

/-- A process in a `sem_down` goes on behind it when `semop` returns. -/
theorem step_of_downOf {sem : Sem} (hs : downOf l = some sem) :
    step i rand g l = (semDown i g sem).map fun g => (g, afterDown l) := by
  cases l with
  | producer pc =>
    cases pc with
    | downEmpty v | downMutex v =>
      cases hs
      simp only [step, producer, Option.map_map, afterDown, Function.comp_def]
    | _ => cases hs
  | consumer pc =>
    cases pc with
    | downFill | downMutex =>
      cases hs
      simp only [step, consumer, Option.map_map, afterDown, Function.comp_def]
    | _ => cases hs

/-- A process that is not blocked takes its next step, as long as it is inside the table. -/
theorem exists_step (rand : ℕ) (hl : LocalOK g.data l) (hb : ¬ Blocked g l) : ∃ r, step false rand g l = some r := by
  cases hs : downOf l with
  | some sem =>
    -- the semaphore is positive, since the process is not blocked on it
    cases hd : semDown false g sem with
    | some g' => exact ⟨_, by rw [step_of_downOf hs, hd, Option.map_some]⟩
    | none => exact absurd ⟨sem, hs, hd⟩ hb
  | none =>
    have hup : ∀ sem, ∃ g', semUp false g sem = some g' := fun sem => ⟨_, semUp_eq_some.2 rfl⟩
    cases l with
    | producer pc =>
      cases pc with
      | downEmpty v | downMutex v => cases hs
      | upMutex v i =>
        obtain ⟨g', hg'⟩ := hup .MUTEX
        exact ⟨_, by simp only [step, producer, hg']; rfl⟩
      | upFill v i =>
        obtain ⟨g', hg'⟩ := hup .FILL
        exact ⟨_, by simp only [step, producer, hg']; rfl⟩
      | scan v i =>
        simp only [step, producer]
        split
        · split <;> exact ⟨_, rfl⟩
        · exact ⟨_, rfl⟩
      | store v i =>
        simp only [step, producer]
        split <;> exact ⟨_, rfl⟩
      | top => exact ⟨_, rfl⟩
      | print v i => exact ⟨_, rfl⟩
      -- the scan never leaves the table
      | outside i => exact hl.elim
    | consumer pc =>
      cases pc with
      | downFill | downMutex => cases hs
      | upMutex i v =>
        obtain ⟨g', hg'⟩ := hup .MUTEX
        exact ⟨_, by simp only [step, consumer, hg']; rfl⟩
      | upEmpty i v =>
        obtain ⟨g', hg'⟩ := hup .EMPTY
        exact ⟨_, by simp only [step, consumer, hg']; rfl⟩
      | scan i =>
        simp only [step, consumer]
        split
        · split <;> exact ⟨_, rfl⟩
        · exact ⟨_, rfl⟩
      | read i | reset i v =>
        simp only [step, consumer]
        split <;> exact ⟨_, rfl⟩
      | print i v => exact ⟨_, rfl⟩
      | outside i => exact hl.elim

end Blocked

/-! ## Somebody is not blocked -/

/-- A process of `producer()`. -/
def Proc.isProducer : Proc → Bool
  | .producer _ => true
  | .consumer _ => false

section Deadlock

variable {ι : Type*} [Fintype ι] {MAX : ℕ} {g : Shared MAX} {procs : ι → Proc}

/-- A process that holds the mutex is not blocked, so if all are nobody waits for the mutex. -/
theorem Inv.mutex_of_blocked (hI : Inv g procs) (h : ∀ p, Blocked g (procs p)) : 0 < g.sem .MUTEX := by
  have hnone : tally inMutex procs = 0 := tally_eq_zero.2 fun p => by
    obtain ⟨sem, hd, -⟩ := h p
    cases hp : procs p with
    | producer pc =>
      rw [hp] at hd
      cases pc <;> first | rfl | cases hd
    | consumer pc =>
      rw [hp] at hd
      cases pc <;> first | rfl | cases hd
  have := hI.mutex
  omega

/-- Then the producers wait for `EMPTY` and the consumers for `FILL`. -/
theorem Inv.at_top_of_blocked (hI : Inv g procs) (h : ∀ p, Blocked g (procs p)) (p : ι) :
    (∃ v, procs p = .producer (.downEmpty v) ∧ g.sem .EMPTY = 0) ∨
      (procs p = .consumer .downFill ∧ g.sem .FILL = 0) := by
  have hmutex := hI.mutex_of_blocked h
  obtain ⟨sem, hd, h0⟩ := blocked_iff.1 (h p)
  cases hp : procs p with
  | producer pc =>
    rw [hp] at hd
    cases pc with
    | downEmpty v =>
      cases hd
      exact .inl ⟨v, rfl, h0⟩
    | downMutex v =>
      cases hd
      omega
    | _ => cases hd
  | consumer pc =>
    rw [hp] at hd
    cases pc with
    | downFill =>
      cases hd
      exact .inr ⟨rfl, h0⟩
    | downMutex =>
      cases hd
      omega
    | _ => cases hd

/-- With a producer and a consumer and at least one cell the processes are not all blocked: otherwise the
table would be empty and full. -/
theorem Inv.not_all_blocked (hI : Inv g procs) (hMAX : 1 ≤ MAX) {p c : ι} (hp : (procs p).isProducer = true)
    (hc : (procs c).isProducer = false) : ¬ ∀ q, Blocked g (procs q) := by
  intro h
  have hempty : g.sem .EMPTY = 0 := by
    rcases hI.at_top_of_blocked h p with ⟨-, -, h0⟩ | ⟨hcons, -⟩
    · exact h0
    · rw [hcons] at hp
      cases hp
  have hfill : g.sem .FILL = 0 := by
    rcases hI.at_top_of_blocked h c with ⟨v, hprod, -⟩ | ⟨-, h0⟩
    · rw [hprod] at hc
      cases hc
    · exact h0
  have hzero : ∀ w : Proc → ℕ, (∀ v, w (.producer (.downEmpty v)) = 0) → w (.consumer .downFill) = 0 →
      tally w procs = 0 := fun w h1 h2 => tally_eq_zero.2 fun q => by
    rcases hI.at_top_of_blocked h q with ⟨v, hq, -⟩ | ⟨hq, -⟩
    · rw [hq, h1]
    · rw [hq, h2]
  have h1 := hzero filling (fun _ => rfl) rfl
  have h2 := hzero hasFilled (fun _ => rfl) rfl
  have h3 := hzero emptying (fun _ => rfl) rfl
  have h4 := hzero hasEmptied (fun _ => rfl) rfl
  have hf := hI.fill
  have he := hI.empty
  omega

/-- In every run of at least one producer and one consumer over a table of at least one cell, some process is
not blocked in `sem_down`, and it takes a step. -/
theorem never_all_blocked [DecidableEq ι] {s : Pool ι (Shared MAX) Proc} (hMAX : 1 ≤ MAX)
    (h : (system ι MAX).Reachable s)
    (hp : ∃ p, (s.procs p).isProducer = true) (hc : ∃ c, (s.procs c).isProducer = false) :
    (¬ ∀ q, Blocked s.shared (s.procs q)) ∧ ∃ q, ∀ rand, ∃ s', (system ι MAX).next s (q, rand) = some s' := by
  have hI := reachable_inv h
  obtain ⟨p, hp⟩ := hp
  obtain ⟨c, hc⟩ := hc
  have hfree := hI.not_all_blocked hMAX hp hc
  refine ⟨hfree, ?_⟩
  push Not at hfree
  obtain ⟨q, hq⟩ := hfree
  refine ⟨q, fun rand => ?_⟩
  obtain ⟨⟨g', l'⟩, hstep⟩ := exists_step rand (hI.locals q) hq
  exact ⟨_, Program.next_eq_some.2 ⟨g', l', hstep, rfl⟩⟩

/-- The producer has taken the only unit of the mutex and the consumer waits for `FILL`. -/
theorem never_all_blocked_twoProcs : ∃ s, (system (Fin 2) 50).run twoProcs [(0, 7), (0, 0), (0, 0)] = some s ∧
    Blocked s.shared (s.procs 1) ∧ ¬ ∀ q, Blocked s.shared (s.procs q) := by
  refine ⟨_, rfl, ⟨.FILL, rfl, rfl⟩, ?_⟩
  exact (never_all_blocked (by decide) (System.Reachable.run [(0, 7), (0, 0), (0, 0)] (.init twoProcs_started) rfl)
    ⟨0, rfl⟩ ⟨1, rfl⟩).1

end Deadlock

end Sysopy.ProdCons
