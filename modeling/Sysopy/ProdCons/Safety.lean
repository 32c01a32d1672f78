/-
Safety of the producers and consumers of cw07/zad1, for any number of processes and any table size:
the scans stop inside the table, no filled cell is overwritten, and the values stored are the values
removed and those in the table.

The proof is a counting invariant (`Inv`): the value of each semaphore, plus the processes that have
taken one of its units and not yet given back the matching one, is tied to the number of filled cells.
-/
import Sysopy.ProdCons.Model

namespace Sysopy.ProdCons

open Sysopy.Conc

/-! ## What a process holds -/

/-- The process is between `sem_down(MUTEX)` and `sem_up(MUTEX)`. -/
def inMutex : Proc → ℕ
  | .producer (.scan ..) | .producer (.store ..) | .producer (.upMutex ..) => 1
  | .consumer (.scan ..) | .consumer (.read ..) | .consumer (.reset ..) | .consumer (.upMutex ..) => 1
  | _ => 0

/-- A producer with a unit of `EMPTY` whose cell it has not filled yet. -/
def filling : Proc → ℕ
  | .producer (.downMutex ..) | .producer (.scan ..) | .producer (.store ..) => 1
  | _ => 0

/-- A producer that has filled a cell and not yet raised `FILL`. -/
def hasFilled : Proc → ℕ
  | .producer (.upMutex ..) | .producer (.upFill ..) => 1
  | _ => 0

/-- A consumer with a unit of `FILL` whose cell it has not emptied yet. -/
def emptying : Proc → ℕ
  | .consumer .downMutex | .consumer (.scan ..) | .consumer (.read ..) | .consumer (.reset ..) => 1
  | _ => 0

/-- A consumer that has emptied a cell and not yet raised `EMPTY`. -/
def hasEmptied : Proc → ℕ
  | .consumer (.upMutex ..) | .consumer (.upEmpty ..) => 1
  | _ => 0

/-! ## The contents of the table -/

def filled (v : ℤ) : ℕ := if v = -1 then 0 else 1

def cellValue (v : ℤ) : Multiset ℤ := if v = -1 then 0 else {v}

/-- The number of filled cells. -/
def filledCells {MAX : ℕ} (data : Fin MAX → ℤ) : ℕ := tally filled data

/-- The values in the filled cells. -/
def tableValues {MAX : ℕ} (data : Fin MAX → ℤ) : Multiset ℤ := tally cellValue data

section Table

variable {MAX : ℕ} {data : Fin MAX → ℤ} {i : Fin MAX} {v : ℤ}

theorem filledCells_store (h : data i = -1) (hv : v ≠ -1) :
    filledCells (Function.update data i v) = filledCells data + 1 := by
  have := tally_update filled data i v
  unfold filledCells
  simp only [filled, h, hv, if_true, if_false] at this ⊢
  omega

theorem filledCells_reset (h : data i ≠ -1) : filledCells (Function.update data i (-1)) + 1 = filledCells data := by
  have := tally_update filled data i (-1)
  unfold filledCells
  simp only [filled, h, if_true, if_false] at this ⊢
  omega

theorem tableValues_store (h : data i = -1) (hv : v ≠ -1) :
    tableValues (Function.update data i v) = v ::ₘ tableValues data := by
  have := tally_update cellValue data i v
  unfold tableValues
  rw [show cellValue (data i) = 0 by simp [cellValue, h], show cellValue v = {v} by simp [cellValue, hv],
    add_zero] at this
  rw [this, add_comm, Multiset.singleton_add]

theorem tableValues_reset (h : data i ≠ -1) :
    data i ::ₘ tableValues (Function.update data i (-1)) = tableValues data := by
  have := tally_update cellValue data i (-1)
  unfold tableValues
  rw [show cellValue (data i) = {data i} by simp [cellValue, h], show cellValue (-1) = 0 by simp [cellValue],
    add_zero] at this
  rw [← this, add_comm, Multiset.singleton_add]

/-- A table with fewer filled cells than cells has an empty cell. -/
theorem exists_empty_cell (h : filledCells data < MAX) : ∃ j, data j = -1 := by
  by_contra hc
  push Not at hc
  have := tally_eq_card (w := filled) (f := data) fun j => by simp [filled, hc j]
  simp only [Fintype.card_fin] at this
  unfold filledCells at h
  omega

/-- A table with a filled cell. -/
theorem exists_filled_cell (h : 0 < filledCells data) : ∃ j, data j ≠ -1 := by
  obtain ⟨j, hj⟩ := exists_of_tally_pos h
  exact ⟨j, fun hc => by simp [filled, hc] at hj⟩

end Table

/-! ## The invariant -/

/-- What a process knows about the table: a scan has passed only cells it skips, a producer that
stopped stands at an empty cell, a consumer at a filled one, whose value it then holds; and nobody
has left the table. -/
def LocalOK {MAX : ℕ} (data : Fin MAX → ℤ) : Proc → Prop
  | .producer .top => True
  | .producer (.downEmpty v) | .producer (.downMutex v) => v ≠ -1
  | .producer (.scan v i) => v ≠ -1 ∧ ∀ k : Fin MAX, k.val < i → data k ≠ -1
  | .producer (.store v i) => v ≠ -1 ∧ ∃ h : i < MAX, data ⟨i, h⟩ = -1
  | .producer (.upMutex ..) | .producer (.upFill ..) | .producer (.print ..) => True
  | .producer (.outside _) => False
  | .consumer .downFill | .consumer .downMutex => True
  | .consumer (.scan i) => ∀ k : Fin MAX, k.val < i → data k = -1
  | .consumer (.read i) => ∃ h : i < MAX, data ⟨i, h⟩ ≠ -1
  | .consumer (.reset i v) => ∃ h : i < MAX, data ⟨i, h⟩ = v ∧ v ≠ -1
  | .consumer (.upMutex ..) | .consumer (.upEmpty ..) | .consumer (.print ..) => True
  | .consumer (.outside _) => False

/-- Outside the critical section a process knows nothing about the table. -/
theorem LocalOK.frame {MAX : ℕ} {data data' : Fin MAX → ℤ} {l : Proc} (h : LocalOK data l) (hl : inMutex l = 0) :
    LocalOK data' l := by
  cases l with
  | producer pc => cases pc <;> first | exact h | cases hl
  | consumer pc => cases pc <;> first | exact h | cases hl

/-- The invariant of the processes. -/
structure Inv {ι : Type*} [Fintype ι] {MAX : ℕ} (g : Shared MAX) (procs : ι → Proc) : Prop where
  mutex : g.sem .MUTEX + tally inMutex procs = 1
  fill : g.sem .FILL + tally emptying procs + tally hasFilled procs = filledCells g.data
  empty : g.sem .EMPTY + tally filling procs + tally hasEmptied procs + filledCells g.data = MAX
  values : g.stored = g.removed + tableValues g.data
  locals : ∀ p, LocalOK g.data (procs p)

section Step

variable {ι : Type*} [Fintype ι] {MAX : ℕ} {g g' : Shared MAX} {procs : ι → Proc} {p : ι}

theorem started_inv {s : Pool ι (Shared MAX) Proc} (h : Started s) : Inv s.shared s.procs := by
  obtain ⟨hg, hp⟩ := h
  have zero : ∀ w : Proc → ℕ, w (.producer .top) = 0 → w (.consumer .downFill) = 0 → tally w s.procs = 0 :=
    fun w h1 h2 => tally_eq_zero.2 fun p => by rcases hp p with h | h <;> rw [h] <;> assumption
  have hf : filledCells (initShared MAX).data = 0 := tally_eq_zero.2 fun i => rfl
  have hv : tableValues (initShared MAX).data = 0 := by
    unfold tableValues tally
    exact Finset.sum_eq_zero fun i _ => rfl
  rw [hg]
  refine ⟨?_, ?_, ?_, ?_, fun p => ?_⟩
  · rw [zero inMutex rfl rfl]; rfl
  · rw [zero emptying rfl rfl, zero hasFilled rfl rfl, hf]; rfl
  · rw [zero filling rfl rfl, zero hasEmptied rfl rfl, hf]; rfl
  · rw [hv]; rfl
  · rcases hp p with h | h <;> rw [h] <;> trivial

/-- A producer with a unit of `EMPTY` has an empty cell to find. -/
theorem Inv.exists_empty (hI : Inv g procs) (hp : 0 < filling (procs p)) : ∃ j, g.data j = -1 := by
  have := le_tally filling procs p
  have := hI.empty
  exact exists_empty_cell (by omega)

/-- A consumer with a unit of `FILL` has a filled cell to find. -/
theorem Inv.exists_filled (hI : Inv g procs) (hp : 0 < emptying (procs p)) : ∃ j, g.data j ≠ -1 := by
  have := le_tally emptying procs p
  have := hI.fill
  exact exists_filled_cell (by omega)

variable [DecidableEq ι]

/-- One step of one process keeps the invariant when it moves the semaphores, the weights of the
process and the table in balance, leaves the process in order, and writes to the table only inside
the critical section. -/
theorem Inv.update {l l' : Proc} (hI : Inv g procs) (hp : procs p = l)
    (hm : g'.sem .MUTEX + inMutex l' = g.sem .MUTEX + inMutex l)
    (hf : g'.sem .FILL + emptying l' + hasFilled l' + filledCells g.data =
      g.sem .FILL + emptying l + hasFilled l + filledCells g'.data)
    (he : g'.sem .EMPTY + filling l' + hasEmptied l' + filledCells g'.data =
      g.sem .EMPTY + filling l + hasEmptied l + filledCells g.data)
    (hv : g'.stored = g'.removed + tableValues g'.data) (hl : LocalOK g'.data l')
    (hd : g'.data = g.data ∨ inMutex l = 1) : Inv g' (Function.update procs p l') := by
  subst hp
  obtain ⟨im, if_, ie, -, il⟩ := hI
  have tm := tally_update inMutex procs p l'
  have te := tally_update emptying procs p l'
  have th := tally_update hasFilled procs p l'
  have tf := tally_update filling procs p l'
  have ta := tally_update hasEmptied procs p l'
  refine ⟨by omega, by omega, by omega, hv, fun q => ?_⟩
  by_cases hq : q = p
  · subst hq; simpa using hl
  · rw [Function.update_of_ne hq]
    rcases hd with hd | hd
    · rw [hd]; exact il q
    · -- the other processes are outside the critical section
      refine (il q).frame ?_
      by_contra hc
      exact hq (eq_of_tally_le_one (w := inMutex) (f := procs) (by omega) (by omega) (by omega))

/-- A step of a producer keeps the invariant. -/
theorem inv_producer {rand : ℕ} {pc pc' : Producer} (hI : Inv g procs) (hp : procs p = .producer pc)
    (h : ProducerStep rand g pc g' pc') : Inv g' (Function.update procs p (.producer pc')) := by
  have hl := hI.locals p
  have hv := hI.values
  rw [hp] at hl
  cases h with
  | top => exact hI.update hp rfl rfl rfl hv (by simp only [LocalOK]; omega) (.inl rfl)
  | downEmpty v h =>
    refine hI.update hp rfl rfl ?_ hv hl (.inl rfl)
    simp only [Function.update_self, filling, hasEmptied]; omega
  | downMutex v h =>
    refine hI.update hp ?_ rfl rfl hv ⟨hl, fun k hk => by omega⟩ (.inl rfl)
    simp only [Function.update_self, inMutex]; omega
  | scanNext v i hi h =>
    refine hI.update hp rfl rfl rfl hv ⟨hl.1, fun k hk => ?_⟩ (.inl rfl)
    rcases Nat.lt_succ_iff_lt_or_eq.1 hk with hk | rfl
    · exact hl.2 k hk
    · exact h
  | scanStop v i hi h => exact hI.update hp rfl rfl rfl hv ⟨hl.1, hi, h⟩ (.inl rfl)
  | scanOutside v i hi =>
    -- the scan would have passed every cell as filled, but there is an empty one
    obtain ⟨j, hj⟩ := hI.exists_empty (p := p) (by rw [hp]; exact Nat.one_pos)
    exact absurd hj (hl.2 j (by omega))
  | store v i hi =>
    obtain ⟨hv1, hi', hd⟩ := hl
    have hfc := filledCells_store hd hv1
    refine hI.update hp rfl ?_ ?_ ?_ trivial (.inr rfl)
    · simp only [hfc, emptying, hasFilled]; omega
    · simp only [hfc, filling, hasEmptied]; omega
    · simp only [tableValues_store hd hv1, hv, Multiset.add_cons]
  | storeOutside v i hi => exact absurd hl.2.1 hi
  | upMutex v i => exact hI.update hp rfl rfl rfl hv trivial (.inl rfl)
  | upFill v i => exact hI.update hp rfl rfl rfl hv trivial (.inl rfl)
  | print v i => exact hI.update hp rfl rfl rfl hv trivial (.inl rfl)

/-- A step of a consumer keeps the invariant. -/
theorem inv_consumer {pc pc' : Consumer} (hI : Inv g procs) (hp : procs p = .consumer pc)
    (h : ConsumerStep g pc g' pc') : Inv g' (Function.update procs p (.consumer pc')) := by
  have hl := hI.locals p
  have hv := hI.values
  rw [hp] at hl
  cases h with
  | downFill h =>
    refine hI.update hp rfl ?_ rfl hv trivial (.inl rfl)
    simp only [Function.update_self, emptying, hasFilled]; omega
  | downMutex h =>
    refine hI.update hp ?_ rfl rfl hv (fun k hk => by omega) (.inl rfl)
    simp only [Function.update_self, inMutex]; omega
  | scanNext i hi h =>
    refine hI.update hp rfl rfl rfl hv (fun k hk => ?_) (.inl rfl)
    rcases Nat.lt_succ_iff_lt_or_eq.1 hk with hk | rfl
    · exact hl k hk
    · exact h
  | scanStop i hi h => exact hI.update hp rfl rfl rfl hv ⟨hi, h⟩ (.inl rfl)
  | scanOutside i hi =>
    -- the scan would have passed every cell as empty, but there is a filled one
    obtain ⟨j, hj⟩ := hI.exists_filled (p := p) (by rw [hp]; exact Nat.one_pos)
    exact absurd (hl j (by omega)) hj
  | read i hi => exact hI.update hp rfl rfl rfl hv ⟨hi, rfl, hl.2⟩ (.inl rfl)
  | readOutside i hi => exact absurd hl.1 hi
  | reset i v hi =>
    obtain ⟨_, rfl, hd⟩ := hl
    have hfc := filledCells_reset hd
    refine hI.update hp rfl ?_ ?_ ?_ trivial (.inr rfl)
    · simp only [← hfc, emptying, hasFilled]; omega
    · simp only [← hfc, filling, hasEmptied]; omega
    · simp only [hv, ← tableValues_reset hd, Multiset.cons_add, Multiset.add_cons]
  | resetOutside i v hi => exact absurd hl.1 hi
  | upMutex i v => exact hI.update hp rfl rfl rfl hv trivial (.inl rfl)
  | upEmpty i v => exact hI.update hp rfl rfl rfl hv trivial (.inl rfl)
  | print i v => exact hI.update hp rfl rfl rfl hv trivial (.inl rfl)

/-- The invariant holds in every reachable state. -/
theorem reachable_inv {s : Pool ι (Shared MAX) Proc} (h : (system ι MAX).Reachable s) : Inv s.shared s.procs := by
  refine Program.invariant (fun s => started_inv) ?_ h
  intro g procs p rand g' l' hI hs
  simp only [program, step] at hs
  cases hp : procs p with
  | producer pc =>
    rw [hp] at hs
    obtain ⟨⟨g₁, pc'⟩, hpc, he⟩ := Option.map_eq_some_iff.1 hs
    cases he
    exact inv_producer hI hp (producer_cases hpc)
  | consumer pc =>
    rw [hp] at hs
    obtain ⟨⟨g₁, pc'⟩, hpc, he⟩ := Option.map_eq_some_iff.1 hs
    cases he
    exact inv_consumer hI hp (consumer_cases hpc)

end Step

/-! ## The scans -/

/-- A scan that stands at index `i` and stops at the first cell with property `P` stops inside the
table. -/
def ScanStops {MAX : ℕ} (P : Fin MAX → Prop) (i : ℕ) : Prop :=
  ∃ j : Fin MAX, i ≤ j.val ∧ P j ∧ ∀ k : Fin MAX, i ≤ k.val → k.val < j.val → ¬ P k

theorem scanStops_of_exists {MAX : ℕ} {P : Fin MAX → Prop} {i : ℕ} (hskip : ∀ k : Fin MAX, k.val < i → ¬ P k)
    (hex : ∃ j, P j) : ScanStops P i := by
  classical
  obtain ⟨j, hj⟩ := hex
  have hn : ∃ n, ∃ h : n < MAX, P ⟨n, h⟩ := ⟨j.val, j.isLt, hj⟩
  obtain ⟨hlt, hP⟩ := Nat.find_spec hn
  refine ⟨⟨Nat.find hn, hlt⟩, ?_, hP, fun k _ hk hPk => Nat.find_min hn hk ⟨k.isLt, hPk⟩⟩
  by_contra hc
  exact hskip ⟨Nat.find hn, hlt⟩ (Nat.lt_of_not_le hc) hP

section Scans

variable {ι : Type*} [Fintype ι] {MAX : ℕ} {g : Shared MAX} {procs : ι → Proc} {p : ι} {v : ℤ} {i : ℕ}

/-- A producer that scans has got a unit of `EMPTY`, so there is an empty cell. -/
theorem Inv.producerScan (hI : Inv g procs) (hp : procs p = .producer (.scan v i)) :
    ScanStops (fun k => g.data k = -1) i := by
  have hl := hI.locals p
  rw [hp] at hl
  have hpos : 0 < filling (procs p) := by
    rw [hp]
    exact Nat.one_pos
  exact scanStops_of_exists hl.2 (hI.exists_empty hpos)

/-- A consumer that scans has got a unit of `FILL`, so there is a filled cell. -/
theorem Inv.consumerScan (hI : Inv g procs) (hp : procs p = .consumer (.scan i)) :
    ScanStops (fun k => g.data k ≠ -1) i := by
  have hl := hI.locals p
  rw [hp] at hl
  have hpos : 0 < emptying (procs p) := by
    rw [hp]
    exact Nat.one_pos
  exact scanStops_of_exists (fun k hk hc => hc (hl k hk)) (hI.exists_filled hpos)

end Scans

/-- In every run of any number of producers and consumers over a table of any size: each scan stops
inside the table, no process accesses a cell outside it, a producer about to store stands at an empty
cell, a consumer about to reset a cell holds the value in it, and the values ever stored are the
values ever removed and those now in the table. -/
theorem table_safe {ι : Type*} [Fintype ι] [DecidableEq ι] {MAX : ℕ} {s : Pool ι (Shared MAX) Proc}
    (h : (system ι MAX).Reachable s) :
    (∀ p v i, s.procs p = .producer (.scan v i) → ScanStops (fun k => s.shared.data k = -1) i) ∧
    (∀ p i, s.procs p = .consumer (.scan i) → ScanStops (fun k => s.shared.data k ≠ -1) i) ∧
    (∀ p i, s.procs p ≠ .producer (.outside i) ∧ s.procs p ≠ .consumer (.outside i)) ∧
    (∀ p v i, s.procs p = .producer (.store v i) → ∃ hi : i < MAX, s.shared.data ⟨i, hi⟩ = -1) ∧
    (∀ p i, s.procs p = .consumer (.read i) → ∃ hi : i < MAX, s.shared.data ⟨i, hi⟩ ≠ -1) ∧
    (∀ p i v, s.procs p = .consumer (.reset i v) → ∃ hi : i < MAX, s.shared.data ⟨i, hi⟩ = v ∧ v ≠ -1) ∧
    s.shared.stored = s.shared.removed + tableValues s.shared.data := by
  have hI := reachable_inv h
  have hloc : ∀ {p l}, s.procs p = l → LocalOK s.shared.data l := fun {p l} hp => hp ▸ hI.locals p
  refine ⟨fun p v i hp => hI.producerScan hp, fun p i hp => hI.consumerScan hp,
    fun p i => ⟨fun hp => ?_, fun hp => ?_⟩, fun p v i hp => ?_, fun p i hp => ?_, fun p i v hp => ?_, hI.values⟩
  · exact hloc hp
  · exact hloc hp
  · exact (hloc hp).2
  · exact hloc hp
  · exact hloc hp

/-- One producer and one consumer over the table of 50 cells. -/
def twoProcs : Pool (Fin 2) (Shared 50) Proc := ⟨initShared 50, ![.producer .top, .consumer .downFill]⟩

theorem twoProcs_started : Started twoProcs :=
  ⟨rfl, fun p => by fin_cases p; exacts [.inl rfl, .inr rfl]⟩

/-- The producer draws 7 and starts its scan. -/
theorem table_safe_scanning : ∃ s, (system (Fin 2) 50).run twoProcs [(0, 7), (0, 0), (0, 0)] = some s ∧
    s.procs 0 = .producer (.scan 7 0) ∧ ScanStops (fun k => s.shared.data k = -1) 0 := by
  refine ⟨_, rfl, rfl, ?_⟩
  exact (table_safe (System.Reachable.run [(0, 7), (0, 0), (0, 0)] (.init twoProcs_started) rfl)).1 0 7 0 rfl

end Sysopy.ProdCons
