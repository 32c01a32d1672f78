/-
No process of cw07/zad1 is ever shut out of the table, for any number of them and any table size. Whatever has
happened, those that have taken a unit can go on until all are back at the top of their loops, and no unit is missing
then; from there one round of a process of the other kind is enough for any process to find a unit.
-/
import Sysopy.Conc.Within
import Sysopy.ProdCons.Progress

namespace Sysopy.ProdCons

open Sysopy.Conc

/-! ## The way back to the top of the loop -/

/-- The process has not taken a unit in this pass of its loop. -/
def atHome : Proc → Bool
  | .producer .top | .producer (.downEmpty _) | .consumer .downFill => true
  | _ => false

/-- The steps up to the top of the loop, at most. -/
def toGo (MAX : ℕ) : Proc → ℕ
  | .producer (.downMutex _) => MAX + 6
  | .producer (.scan _ i) => MAX - i + 5
  | .producer (.store ..) => 4
  | .consumer .downMutex => MAX + 7
  | .consumer (.scan i) => MAX - i + 6
  | .consumer (.read _) => 5
  | .consumer (.reset ..) => 4
  | .producer (.upMutex ..) | .consumer (.upMutex ..) => 3
  | .producer (.upFill ..) | .consumer (.upEmpty ..) => 2
  | .producer (.print ..) | .consumer (.print ..) => 1
  | _ => 0

variable {MAX : ℕ} {g g' : Shared MAX} {l l' : Proc} {rand : ℕ}

theorem toGo_le (l : Proc) : toGo MAX l ≤ MAX + 7 := by
  cases l with
  | producer pc => cases pc <;> simp only [toGo] <;> omega
  | consumer pc => cases pc <;> simp only [toGo] <;> omega

/-- What a process lowers first. -/
def ownSem : Proc → Sem
  | .producer _ => .EMPTY
  | .consumer _ => .FILL

theorem ownSem_eq : ∀ {l l' : Proc}, l'.isProducer = l.isProducer → ownSem l' = ownSem l := by
  rintro (pc | pc) (pc' | pc') h <;> first | rfl | cases h

theorem ownSem_ne : ∀ {l l' : Proc}, l'.isProducer ≠ l.isProducer → ownSem l' ≠ ownSem l := by
  rintro (pc | pc) (pc' | pc') h
  · exact absurd rfl h
  · rintro ⟨⟩
  · rintro ⟨⟩
  · exact absurd rfl h

/-- A process that has taken its unit comes nearer to the top of its loop and takes no other one. -/
theorem step_nearer (hl : LocalOK g.data l) (hhome : atHome l = false) (h : step false rand g l = some (g', l')) :
    toGo MAX l' < toGo MAX l ∧ l'.isProducer = l.isProducer ∧ g'.sem (ownSem l) = g.sem (ownSem l) := by
  cases l with
  | producer pc =>
    obtain ⟨⟨g₁, pc'⟩, hpc, he⟩ := Option.map_eq_some_iff.1 h
    cases he
    cases producer_cases hpc with
    | top | downEmpty => cases hhome
    | downMutex v | upMutex v i | upFill v i => simp [toGo, ownSem, Proc.isProducer]
    | scanNext v i hi | scanStop v i hi =>
      simp only [toGo, ownSem, Proc.isProducer, and_true]
      omega
    | scanOutside v i hi =>
      simp only [toGo, ownSem, Proc.isProducer, and_true]
      omega
    | store v i hi | print v i => simp [toGo, ownSem, Proc.isProducer]
    | storeOutside v i hi => exact absurd hl.2.1 hi
  | consumer pc =>
    obtain ⟨⟨g₁, pc'⟩, hpc, he⟩ := Option.map_eq_some_iff.1 h
    cases he
    cases consumer_cases hpc with
    | downFill => cases hhome
    | downMutex | upMutex i v | upEmpty i v => simp [toGo, ownSem, Proc.isProducer]
    | scanNext i hi | scanStop i hi | scanOutside i hi =>
      simp only [toGo, ownSem, Proc.isProducer, and_true]
      omega
    | read i hi | reset i v hi | print i v => simp [toGo, ownSem, Proc.isProducer]
    | readOutside i hi => exact absurd hl.1 hi
    | resetOutside i v hi => exact absurd hl.1 hi

section Rest

variable {ι : Type*} [Fintype ι] {procs : ι → Proc} {p q : ι}

/-- Where the processes have taken no units, the semaphores count the cells. -/
theorem Inv.units_of_home (hI : Inv g procs) (hhome : ∀ q, atHome (procs q) = true) :
    g.sem .MUTEX = 1 ∧ g.sem .FILL = filledCells g.data ∧ g.sem .EMPTY + filledCells g.data = MAX := by
  have hzero : ∀ w : Proc → ℕ, (∀ l, atHome l = true → w l = 0) → tally w procs = 0 := fun w h =>
    tally_eq_zero.2 fun q => h _ (hhome q)
  have hhomes : ∀ l : Proc, atHome l = true →
      inMutex l = 0 ∧ emptying l = 0 ∧ hasFilled l = 0 ∧ filling l = 0 ∧ hasEmptied l = 0 := by
    rintro (pc | pc) h <;> cases pc <;> first | exact ⟨rfl, rfl, rfl, rfl, rfl⟩ | cases h
  have hmutex := hI.mutex
  have hfill := hI.fill
  have hempty := hI.empty
  rw [hzero _ fun l h => (hhomes l h).1] at hmutex
  rw [hzero _ fun l h => (hhomes l h).2.1, hzero _ fun l h => (hhomes l h).2.2.1] at hfill
  rw [hzero _ fun l h => (hhomes l h).2.2.2.1, hzero _ fun l h => (hhomes l h).2.2.2.2] at hempty
  exact ⟨by omega, by omega, by omega⟩

/-- Away from the top of its loop a process waits for nothing but the mutex, and who holds that waits for nothing. -/
theorem Inv.exists_movable (hI : Inv g procs) (hq : atHome (procs q) = false) :
    ∃ q, atHome (procs q) = false ∧ ¬ Blocked g (procs q) := by
  by_cases hb : Blocked g (procs q)
  rotate_left
  · exact ⟨q, hq, hb⟩
  have hzero : g.sem .MUTEX = 0 := by
    obtain ⟨sem, hd, h0⟩ := blocked_iff.1 hb
    cases hl : procs q with
    | producer pc => rw [hl] at hd hq; cases pc <;> cases hd <;> first | exact h0 | cases hq
    | consumer pc => rw [hl] at hd hq; cases pc <;> cases hd <;> first | exact h0 | cases hq
  have hmutex := hI.mutex
  obtain ⟨k, hk⟩ := exists_of_tally_pos (w := inMutex) (f := procs) (by omega)
  have hholder : ∀ l : Proc, 0 < inMutex l → atHome l = false ∧ downOf l = none := by
    rintro (pc | pc) h <;> cases pc <;> first | exact ⟨rfl, rfl⟩ | cases h
  obtain ⟨hhome, hdown⟩ := hholder _ hk
  refine ⟨k, hhome, ?_⟩
  rintro ⟨sem, hd, -⟩
  rw [hdown] at hd
  cases hd

end Rest

section Served

variable {ι : Type*} [Fintype ι] [DecidableEq ι] {s : Pool ι (Shared MAX) Proc} {p : ι}

/-- Any step of the processes. -/
def anyStep (_ : ι × ℕ) : Prop := True

/-- Who has not come back to the top of the loop can be brought nearer. -/
theorem exists_nearer (hs : (system ι MAX).Reachable s) {q : ι} (hq : atHome (s.procs q) = false) :
    ∃ q, atHome (s.procs q) = false ∧ ∃ g' l', (program ι MAX) q s.shared (s.procs q) 0 = some (g', l') ∧
      toGo MAX l' < toGo MAX (s.procs q) ∧ l'.isProducer = (s.procs q).isProducer ∧
      g'.sem (ownSem (s.procs q)) = s.shared.sem (ownSem (s.procs q)) := by
  have hI := reachable_inv hs
  obtain ⟨k, hk, hfree⟩ := hI.exists_movable hq
  obtain ⟨⟨g', l'⟩, hstep⟩ := exists_step 0 (hI.locals k) hfree
  exact ⟨k, hk, g', l', hstep, step_nearer (hI.locals k) hk hstep⟩

/-- The processes can all be brought back to the top of their loops. -/
theorem within_rest (hs : (system ι MAX).Reachable s) :
    ∃ s', (system ι MAX).Within anyStep (Fintype.card ι * (MAX + 7)) s s' ∧ (∀ q, atHome (s'.procs q) = true) ∧
      ∀ q, (s'.procs q).isProducer = (s.procs q).isProducer := by
  have hnext : ∀ t : Pool ι (Shared MAX) Proc, ((system ι MAX).Reachable t ∧
      ∀ q, (t.procs q).isProducer = (s.procs q).isProducer) → ¬ (∀ q, atHome (t.procs q) = true) →
      ∃ a t', anyStep a ∧ (system ι MAX).next t a = some t' ∧ ((system ι MAX).Reachable t' ∧
        ∀ q, (t'.procs q).isProducer = (s.procs q).isProducer) ∧
        tally (toGo MAX) t'.procs < tally (toGo MAX) t.procs := by
    rintro t ⟨ht, hroles⟩ haway
    push Not at haway
    obtain ⟨q, hq⟩ := haway
    obtain ⟨k, -, g', l', hstep, hlt, hrole, -⟩ := exists_nearer ht (Bool.eq_false_of_not_eq_true hq)
    refine ⟨(k, 0), _, trivial, Program.next_eq_some.2 ⟨g', l', hstep, rfl⟩, ⟨?_, fun j => ?_⟩, ?_⟩
    · exact Program.reachable_step ht hstep
    · by_cases hj : j = k
      · subst hj
        simp only [Function.update_self, hrole, hroles]
      · simp only [Function.update_of_ne hj, hroles]
    · have htally := tally_update (toGo MAX) t.procs k l'
      simp only
      omega
  obtain ⟨s', hwithin, ⟨-, hroles⟩, hhome⟩ := System.within_of_weight
    (w := fun t : Pool ι (Shared MAX) Proc => tally (toGo MAX) t.procs) hnext (s := s) ⟨hs, fun _ => rfl⟩
  have hbound : tally (toGo MAX) s.procs ≤ Fintype.card ι * (MAX + 7) := by
    calc tally (toGo MAX) s.procs ≤ ∑ _q : ι, (MAX + 7) := Finset.sum_le_sum fun q _ => toGo_le _
      _ = Fintype.card ι * (MAX + 7) := by simp
  exact ⟨s', hwithin.mono hbound, hhome, hroles⟩

/-- From every state that is reached, the processes can all be brought back to the top of their loops. No unit is
missing then: `FILL` is the number of filled cells, `EMPTY` that of the others, and the mutex is free. -/
theorem comes_to_rest (hs : (system ι MAX).Reachable s) :
    ∃ s', (system ι MAX).Within anyStep (Fintype.card ι * (MAX + 7)) s s' ∧ (∀ q, atHome (s'.procs q) = true) ∧
      (∀ q, (s'.procs q).isProducer = (s.procs q).isProducer) ∧ s'.shared.sem .MUTEX = 1 ∧
      s'.shared.sem .FILL = filledCells s'.shared.data ∧ s'.shared.sem .EMPTY + filledCells s'.shared.data = MAX := by
  obtain ⟨s', hwithin, hhome, hroles⟩ := within_rest hs
  exact ⟨s', hwithin, hhome, hroles, (reachable_inv (hwithin.reachable hs)).units_of_home hhome⟩

/-! ## One round -/

omit [Fintype ι] in
/-- A process at the top of its loop comes to its first `sem_down`. -/
theorem within_down (hhome : atHome (s.procs p) = true) : ∃ l, (system ι MAX).Within anyStep 1 s
      ⟨s.shared, Function.update s.procs p l⟩ ∧ atHome l = true ∧ l.isProducer = (s.procs p).isProducer ∧
      downOf l = some (ownSem l) := by
  cases hl : s.procs p with
  | producer pc =>
    rw [hl] at hhome
    cases pc with
    | top =>
      exact ⟨.producer (.downEmpty ((0 : ℕ) % 30000)), Program.within_step (a := 0) trivial (by rw [hl]; rfl), rfl, rfl,
        rfl⟩
    | downEmpty v =>
      refine ⟨.producer (.downEmpty v), ?_, rfl, rfl, rfl⟩
      rw [← hl, Function.update_eq_self]
      exact .refl s
    | _ => cases hhome
  | consumer pc =>
    rw [hl] at hhome
    cases pc with
    | downFill =>
      refine ⟨.consumer .downFill, ?_, rfl, rfl, rfl⟩
      rw [← hl, Function.update_eq_self]
      exact .refl s
    | _ => cases hhome

omit [Fintype ι] in
/-- It gets a unit if there is one. -/
theorem within_unit {d : Sem} (hdown : downOf (s.procs p) = some d) (hunit : 0 < s.shared.sem d) :
    (system ι MAX).Within anyStep 1 s
      ⟨{ s.shared with sem := Function.update s.shared.sem d (s.shared.sem d - 1) },
        Function.update s.procs p (afterDown (s.procs p))⟩ := by
  refine Program.within_step (a := 0) trivial ?_
  rw [program, step_of_downOf hdown, semDown_eq_some.2 ⟨hunit, rfl⟩, Option.map_some]

/-- A process that has a unit comes back to the top of its loop while the others stay there. -/
theorem within_home (hs : (system ι MAX).Reachable s) (hothers : ∀ q, q ≠ p → atHome (s.procs q) = true) :
    ∃ s', (system ι MAX).Within anyStep (MAX + 7) s s' ∧ (∀ q, atHome (s'.procs q) = true) ∧
      (∀ q, q ≠ p → s'.procs q = s.procs q) ∧ (s'.procs p).isProducer = (s.procs p).isProducer ∧
      s'.shared.sem (ownSem (s.procs p)) = s.shared.sem (ownSem (s.procs p)) := by
  have hnext : ∀ t : Pool ι (Shared MAX) Proc, ((system ι MAX).Reachable t ∧
      (∀ q, q ≠ p → t.procs q = s.procs q) ∧ (t.procs p).isProducer = (s.procs p).isProducer ∧
      t.shared.sem (ownSem (s.procs p)) = s.shared.sem (ownSem (s.procs p))) → ¬ atHome (t.procs p) = true →
      ∃ a t', anyStep a ∧ (system ι MAX).next t a = some t' ∧ ((system ι MAX).Reachable t' ∧
        (∀ q, q ≠ p → t'.procs q = s.procs q) ∧ (t'.procs p).isProducer = (s.procs p).isProducer ∧
        t'.shared.sem (ownSem (s.procs p)) = s.shared.sem (ownSem (s.procs p))) ∧
        toGo MAX (t'.procs p) < toGo MAX (t.procs p) := by
    rintro t ⟨ht, hsame, hrole, hsem⟩ haway
    obtain ⟨k, hk, g', l', hstep, hlt, hrole', hsem'⟩ := exists_nearer ht (Bool.eq_false_of_not_eq_true haway)
    obtain rfl : k = p := by
      by_contra hne
      rw [hsame k hne, hothers k hne] at hk
      cases hk
    refine ⟨(k, 0), _, trivial, Program.next_eq_some.2 ⟨g', l', hstep, rfl⟩,
      ⟨Program.reachable_step ht hstep, fun q hq => ?_, ?_, ?_⟩, ?_⟩
    · simp only [Function.update_of_ne hq, hsame q hq]
    · simp only [Function.update_self, hrole', hrole]
    · rw [ownSem_eq hrole] at hsem'
      exact hsem'.trans hsem
    · simp only [Function.update_self]
      exact hlt
  obtain ⟨s', hwithin, ⟨-, hsame, hrole, hsem⟩, hhome⟩ := System.within_of_weight
    (w := fun t : Pool ι (Shared MAX) Proc => toGo MAX (t.procs p)) hnext (s := s) ⟨hs, fun _ _ => rfl, rfl, rfl⟩
  refine ⟨s', hwithin.mono (toGo_le _), fun q => ?_, hsame, hrole, hsem⟩
  by_cases hq : q = p
  · rwa [hq]
  · rw [hsame q hq]
    exact hothers q hq

/-- One round of a process from a state of rest to the next, which takes a unit. -/
theorem within_round (hs : (system ι MAX).Reachable s) (hhome : ∀ q, atHome (s.procs q) = true)
    (hunit : 0 < s.shared.sem (ownSem (s.procs p))) :
    ∃ s', (system ι MAX).Within anyStep (MAX + 9) s s' ∧ (∀ q, atHome (s'.procs q) = true) ∧
      (∀ q, (s'.procs q).isProducer = (s.procs q).isProducer) ∧
      s'.shared.sem (ownSem (s.procs p)) + 1 = s.shared.sem (ownSem (s.procs p)) := by
  obtain ⟨l, hdown, -, hrole, hfirst⟩ := within_down (p := p) (hhome p)
  have hown : ownSem l = ownSem (s.procs p) := ownSem_eq hrole
  rw [hown] at hfirst
  have htakes := within_unit (s := ⟨s.shared, Function.update s.procs p l⟩) (p := p)
    (by simpa only [Function.update_self] using hfirst) hunit
  simp only [Function.update_self, Function.update_idem] at htakes
  have hafter : (afterDown l).isProducer = l.isProducer := by
    cases l with
    | producer pc => cases pc <;> rfl
    | consumer pc => cases pc <;> rfl
  have hsame : ∀ q, q ≠ p → Function.update s.procs p (afterDown l) q = s.procs q := fun q hq =>
    Function.update_of_ne hq ..
  obtain ⟨s', hback, hhome', hothers, hrole', hsem⟩ := within_home (p := p)
    ((hdown.trans htakes).reachable hs) fun q hq => by
      simpa only [hsame q hq] using hhome q
  simp only [Function.update_self] at hrole' hsem
  refine ⟨s', ((hdown.trans htakes).trans hback).mono (by omega), hhome', fun q => ?_, ?_⟩
  · by_cases hq : q = p
    · rw [hq, hrole', hafter, hrole]
    · rw [hothers q hq]
      simp only [hsame q hq]
  · rw [ownSem_eq hafter, hown, Function.update_self] at hsem
    omega

/-- A process goes on to its scan where there is a unit for it. -/
theorem within_scan (hs : (system ι MAX).Reachable s) (hhome : ∀ q, atHome (s.procs q) = true)
    (hunit : 0 < s.shared.sem (ownSem (s.procs p))) : ∃ s', (system ι MAX).Within anyStep 3 s s' ∧
      ((∃ v, s'.procs p = .producer (.scan v 0)) ∨ s'.procs p = .consumer (.scan 0)) := by
  have hmutex := ((reachable_inv hs).units_of_home hhome).1
  obtain ⟨l, hdown, hhomel, hrole, hfirst⟩ := within_down (p := p) (hhome p)
  have hown : ownSem l = ownSem (s.procs p) := ownSem_eq hrole
  have htakes := within_unit (s := ⟨s.shared, Function.update s.procs p l⟩) (p := p)
    (by simpa only [Function.update_self] using hfirst) (by rwa [hown])
  simp only [Function.update_self, Function.update_idem] at htakes
  have hne : Sem.MUTEX ≠ ownSem l := by cases l <;> rintro ⟨⟩
  have hsecond : downOf (afterDown l) = some .MUTEX := by
    cases l with
    | producer pc => cases pc <;> first | rfl | cases hfirst
    | consumer pc => cases pc <;> first | rfl | cases hfirst
  have hlocks := within_unit (p := p) (d := .MUTEX) (s := ⟨{ s.shared with
      sem := Function.update s.shared.sem (ownSem l) (s.shared.sem (ownSem l) - 1) },
    Function.update s.procs p (afterDown l)⟩) (by simpa only [Function.update_self] using hsecond)
    (by simp only [Function.update_of_ne hne, hmutex]; exact Nat.one_pos)
  refine ⟨_, (hdown.trans htakes).trans hlocks, ?_⟩
  simp only [Function.update_self]
  cases l with
  | producer pc =>
    cases pc with
    | downEmpty v => exact .inl ⟨v, rfl⟩
    | _ => cases hfirst
  | consumer pc =>
    cases pc with
    | downFill => exact .inr rfl
    | _ => cases hfirst

/-- From every state that is reached, every process can be brought to get its unit and the mutex, as long as there is at
least one process of each kind and one cell. -/
theorem always_served (hMAX : 1 ≤ MAX) (hs : (system ι MAX).Reachable s)
    (hproducer : ∃ q, (s.procs q).isProducer = true) (hconsumer : ∃ q, (s.procs q).isProducer = false) (p : ι) :
    ∃ s', (system ι MAX).Within anyStep (Fintype.card ι * (MAX + 7) + (MAX + 12)) s s' ∧
      ((∃ v, s'.procs p = .producer (.scan v 0)) ∨ s'.procs p = .consumer (.scan 0)) := by
  obtain ⟨s₁, hrest, hhome, hroles⟩ := within_rest hs
  have hs₁ := hrest.reachable hs
  obtain ⟨-, hfill, hempty⟩ := (reachable_inv hs₁).units_of_home hhome
  by_cases hunit : 0 < s₁.shared.sem (ownSem (s₁.procs p))
  · obtain ⟨s', hscan, hp⟩ := within_scan hs₁ hhome hunit
    exact ⟨s', (hrest.trans hscan).mono (by omega), hp⟩
  -- a process of the other kind makes a unit
  obtain ⟨o, hother⟩ : ∃ o, ownSem (s₁.procs o) ≠ ownSem (s₁.procs p) := by
    obtain ⟨a, ha⟩ := hproducer
    obtain ⟨b, hb⟩ := hconsumer
    rw [← hroles] at ha hb
    cases hp : (s₁.procs p).isProducer with
    | true => exact ⟨b, ownSem_ne (by rw [hb, hp]; rintro ⟨⟩)⟩
    | false => exact ⟨a, ownSem_ne (by rw [ha, hp]; rintro ⟨⟩)⟩
  have hsum : ∀ t : Pool ι (Shared MAX) Proc, t.shared.sem .FILL = filledCells t.shared.data →
      t.shared.sem .EMPTY + filledCells t.shared.data = MAX →
      t.shared.sem (ownSem (s₁.procs o)) + t.shared.sem (ownSem (s₁.procs p)) = MAX := by
    intro t hf he
    cases ho : s₁.procs o <;> cases hp : s₁.procs p <;> rw [ho, hp] at hother <;>
      simp only [ownSem] at hother ⊢ <;> first | exact absurd rfl hother | omega
  have hfirst := hsum s₁ hfill hempty
  obtain ⟨s₂, hround, hhome₂, hroles₂, hless⟩ := within_round (p := o) hs₁ hhome (by omega)
  have hs₂ := hround.reachable hs₁
  obtain ⟨-, hfill₂, hempty₂⟩ := (reachable_inv hs₂).units_of_home hhome₂
  have hsecond := hsum s₂ hfill₂ hempty₂
  obtain ⟨s', hscan, hp⟩ := within_scan (p := p) hs₂ hhome₂ (by rw [ownSem_eq (hroles₂ p)]; omega)
  exact ⟨s', ((hrest.trans hround).trans hscan).mono (by omega), hp⟩

end Served

/-- The consumer waits for the producer, who has just drawn 7. -/
theorem always_served_twoProcs : ∃ s, (system (Fin 2) 50).run twoProcs [(0, 7)] = some s ∧
    Blocked s.shared (s.procs 1) ∧ ∃ s', (system (Fin 2) 50).Within anyStep (2 * 57 + 62) s s' ∧
      ((∃ v, s'.procs 1 = .producer (.scan v 0)) ∨ s'.procs 1 = .consumer (.scan 0)) := by
  refine ⟨_, rfl, ⟨.FILL, rfl, rfl⟩, ?_⟩
  exact always_served (by decide) (System.Reachable.run [(0, 7)] (.init twoProcs_started) rfl) ⟨0, rfl⟩ ⟨1, rfl⟩ 1

theorem comes_to_rest_twoProcs : ∃ s', (system (Fin 2) 50).Within anyStep (2 * 57) twoProcs s' ∧
    (∀ q, atHome (s'.procs q) = true) ∧ (∀ q, (s'.procs q).isProducer = (twoProcs.procs q).isProducer) ∧
    s'.shared.sem .MUTEX = 1 ∧ s'.shared.sem .FILL = filledCells s'.shared.data ∧
    s'.shared.sem .EMPTY + filledCells s'.shared.data = 50 :=
  comes_to_rest (.init twoProcs_started)

end Sysopy.ProdCons
