/-
The producers and consumers of cw07/zad1 past `init_sem` and `init_shm`: the System V semaphore
set, the shared table `data`, and the loops of `producer()` and `consumer()`. One step of a process
is one `semop` or one access to a cell of the table. The table size `MAX` is a parameter.
-/
import Sysopy.Conc.Pool

namespace Sysopy.ProdCons

open Sysopy.Conc

/-- The semaphores of the set. -/
inductive Sem
  | EMPTY
  | FILL
  | MUTEX
  deriving DecidableEq, Repr

/-- The semaphore set and the shared table. `stored` and `removed` are histories the processes never
read: the values written to cells, and the values whose cell was reset to -1 by their reader. -/
structure Shared (MAX : ℕ) where
  sem : Sem → ℕ
  data : Fin MAX → ℤ
  stored : Multiset ℤ
  removed : Multiset ℤ

/-- Where a process of `producer()` is; the arguments are its locals `to_add` and `i`. -/
inductive Producer
  | top
  | downEmpty (toAdd : ℤ)
  | downMutex (toAdd : ℤ)
  | scan (toAdd : ℤ) (i : ℕ)
  | store (toAdd : ℤ) (i : ℕ)
  | upMutex (toAdd : ℤ) (i : ℕ)
  | upFill (toAdd : ℤ) (i : ℕ)
  | print (toAdd : ℤ) (i : ℕ)
  | outside (i : ℕ)
  deriving DecidableEq, Repr

/-- Where a process of `consumer()` is; the arguments are its locals `i` and `to_check`. -/
inductive Consumer
  | downFill
  | downMutex
  | scan (i : ℕ)
  | read (i : ℕ)
  | reset (i : ℕ) (toCheck : ℤ)
  | upMutex (i : ℕ) (toCheck : ℤ)
  | upEmpty (i : ℕ) (toCheck : ℤ)
  | print (i : ℕ) (toCheck : ℤ)
  | outside (i : ℕ)
  deriving DecidableEq, Repr

inductive Proc
  | producer (pc : Producer)
  | consumer (pc : Consumer)
  deriving DecidableEq, Repr

variable {MAX : ℕ}

/-- `semop` on one semaphore: it blocks while the value would become negative. An interrupted
`semop` fails instead of blocking; `change_sem` then prints an error and goes on. -/
def changeSem (interrupted : Bool) (g : Shared MAX) (sem : Sem) (val : ℤ) : Option (Shared MAX) :=
  if 0 ≤ (g.sem sem : ℤ) + val then
    some { g with sem := Function.update g.sem sem ((g.sem sem : ℤ) + val).toNat }
  else if interrupted then some g
  else none

def semDown (interrupted : Bool) (g : Shared MAX) (sem : Sem) : Option (Shared MAX) := changeSem interrupted g sem (-1)

def semUp (interrupted : Bool) (g : Shared MAX) (sem : Sem) : Option (Shared MAX) := changeSem interrupted g sem 1

/-- One step of `producer()`; `rand` is what `rand()` returns. An access outside the table ends in
`outside`. -/
def producer (interrupted : Bool) (rand : ℕ) (g : Shared MAX) : Producer → Option (Shared MAX × Producer)
  | .top => some (g, .downEmpty ((rand : ℤ) % 30000))
  | .downEmpty toAdd => (semDown interrupted g .EMPTY).map (·, .downMutex toAdd)
  | .downMutex toAdd => (semDown interrupted g .MUTEX).map (·, .scan toAdd 0)
  | .scan toAdd i =>
    if h : i < MAX then
      if g.data ⟨i, h⟩ ≠ -1 then some (g, .scan toAdd (i + 1)) else some (g, .store toAdd i)
    else some (g, .outside i)
  | .store toAdd i =>
    if h : i < MAX then
      some ({ g with data := Function.update g.data ⟨i, h⟩ toAdd, stored := toAdd ::ₘ g.stored }, .upMutex toAdd i)
    else some (g, .outside i)
  | .upMutex toAdd i => (semUp interrupted g .MUTEX).map (·, .upFill toAdd i)
  | .upFill toAdd i => (semUp interrupted g .FILL).map (·, .print toAdd i)
  | .print _ _ => some (g, .top)
  | .outside _ => none

/-- One step of `consumer()`. -/
def consumer (interrupted : Bool) (g : Shared MAX) : Consumer → Option (Shared MAX × Consumer)
  | .downFill => (semDown interrupted g .FILL).map (·, .downMutex)
  | .downMutex => (semDown interrupted g .MUTEX).map (·, .scan 0)
  | .scan i =>
    if h : i < MAX then
      if g.data ⟨i, h⟩ = -1 then some (g, .scan (i + 1)) else some (g, .read i)
    else some (g, .outside i)
  | .read i => if h : i < MAX then some (g, .reset i (g.data ⟨i, h⟩)) else some (g, .outside i)
  | .reset i toCheck =>
    if h : i < MAX then
      some ({ g with data := Function.update g.data ⟨i, h⟩ (-1), removed := toCheck ::ₘ g.removed }, .upMutex i toCheck)
    else some (g, .outside i)
  | .upMutex i toCheck => (semUp interrupted g .MUTEX).map (·, .upEmpty i toCheck)
  | .upEmpty i toCheck => (semUp interrupted g .EMPTY).map (·, .print i toCheck)
  | .print _ _ => some (g, .downFill)
  | .outside _ => none

def step (interrupted : Bool) (rand : ℕ) (g : Shared MAX) : Proc → Option (Shared MAX × Proc)
  | .producer pc => (producer interrupted rand g pc).map fun r => (r.1, .producer r.2)
  | .consumer pc => (consumer interrupted g pc).map fun r => (r.1, .consumer r.2)

/-- The semaphores and the table as `init_sem` and `init_shm` leave them. -/
def initShared (MAX : ℕ) : Shared MAX where
  sem
    | .EMPTY => MAX
    | .FILL => 0
    | .MUTEX => 1
  data _ := -1
  stored := 0
  removed := 0

/-- Every process has finished its initialisation and is at the top of its loop. -/
def Started {ι : Type*} (s : Pool ι (Shared MAX) Proc) : Prop :=
  s.shared = initShared MAX ∧ ∀ p, s.procs p = .producer .top ∨ s.procs p = .consumer .downFill

/-- The processes when every `semop` succeeds or blocks. -/
def program (ι : Type*) (MAX : ℕ) : Program ι (Shared MAX) Proc ℕ := fun _ g l rand => step false rand g l

/-- All runs of any number of producers and consumers. -/
def system (ι : Type*) [DecidableEq ι] (MAX : ℕ) : System (Pool ι (Shared MAX) Proc) (ι × ℕ) :=
  (program ι MAX).system Started

/-! ## What a semaphore operation does -/

theorem semDown_eq_some {g g' : Shared MAX} {sem : Sem} :
    semDown false g sem = some g' ↔
      0 < g.sem sem ∧ g' = { g with sem := Function.update g.sem sem (g.sem sem - 1) } := by
  unfold semDown changeSem
  have hn : ((g.sem sem : ℤ) + -1).toNat = g.sem sem - 1 := by omega
  split
  · rw [hn, Option.some.injEq]
    exact ⟨fun h => ⟨by omega, h.symm⟩, fun h => h.2.symm⟩
  · simp only [Bool.false_eq_true, if_false, reduceCtorEq, false_iff]
    omega

theorem semUp_eq_some {i : Bool} {g g' : Shared MAX} {sem : Sem} :
    semUp i g sem = some g' ↔ g' = { g with sem := Function.update g.sem sem (g.sem sem + 1) } := by
  unfold semUp changeSem
  rw [if_pos (by omega), show ((g.sem sem : ℤ) + 1).toNat = g.sem sem + 1 by omega, Option.some.injEq]
  exact eq_comm

/-! ## What a step does -/

section Cases

variable {rand : ℕ} {g g' : Shared MAX}

/-- Everything a step of `producer()` can do. -/
inductive ProducerStep (rand : ℕ) (g : Shared MAX) : Producer → Shared MAX → Producer → Prop
  | top : ProducerStep rand g .top g (.downEmpty ((rand : ℤ) % 30000))
  | downEmpty (v : ℤ) (h : 0 < g.sem .EMPTY) : ProducerStep rand g (.downEmpty v)
      { g with sem := Function.update g.sem .EMPTY (g.sem .EMPTY - 1) } (.downMutex v)
  | downMutex (v : ℤ) (h : 0 < g.sem .MUTEX) : ProducerStep rand g (.downMutex v)
      { g with sem := Function.update g.sem .MUTEX (g.sem .MUTEX - 1) } (.scan v 0)
  | scanNext (v : ℤ) (i : ℕ) (hi : i < MAX) (h : g.data ⟨i, hi⟩ ≠ -1) :
      ProducerStep rand g (.scan v i) g (.scan v (i + 1))
  | scanStop (v : ℤ) (i : ℕ) (hi : i < MAX) (h : g.data ⟨i, hi⟩ = -1) :
      ProducerStep rand g (.scan v i) g (.store v i)
  | scanOutside (v : ℤ) (i : ℕ) (hi : ¬ i < MAX) : ProducerStep rand g (.scan v i) g (.outside i)
  | store (v : ℤ) (i : ℕ) (hi : i < MAX) : ProducerStep rand g (.store v i)
      { g with data := Function.update g.data ⟨i, hi⟩ v, stored := v ::ₘ g.stored } (.upMutex v i)
  | storeOutside (v : ℤ) (i : ℕ) (hi : ¬ i < MAX) : ProducerStep rand g (.store v i) g (.outside i)
  | upMutex (v : ℤ) (i : ℕ) : ProducerStep rand g (.upMutex v i)
      { g with sem := Function.update g.sem .MUTEX (g.sem .MUTEX + 1) } (.upFill v i)
  | upFill (v : ℤ) (i : ℕ) : ProducerStep rand g (.upFill v i)
      { g with sem := Function.update g.sem .FILL (g.sem .FILL + 1) } (.print v i)
  | print (v : ℤ) (i : ℕ) : ProducerStep rand g (.print v i) g .top

theorem producer_cases {pc pc' : Producer} (h : producer false rand g pc = some (g', pc')) :
    ProducerStep rand g pc g' pc' := by
  cases pc <;> simp only [producer, Option.map_eq_some_iff, Prod.mk.injEq] at h
  case top => cases h; exact .top
  case downEmpty v =>
    obtain ⟨_, hs, rfl, rfl⟩ := h
    obtain ⟨hp, rfl⟩ := semDown_eq_some.1 hs
    exact .downEmpty v hp
  case downMutex v =>
    obtain ⟨_, hs, rfl, rfl⟩ := h
    obtain ⟨hp, rfl⟩ := semDown_eq_some.1 hs
    exact .downMutex v hp
  case scan v i =>
    split at h
    · rename_i hi
      split at h
      · rename_i hd; cases h; exact .scanNext v i hi hd
      · rename_i hd; cases h; exact .scanStop v i hi (not_not.1 hd)
    · rename_i hi; cases h; exact .scanOutside v i hi
  case store v i =>
    split at h
    · rename_i hi; cases h; exact .store v i hi
    · rename_i hi; cases h; exact .storeOutside v i hi
  case upMutex v i =>
    obtain ⟨_, hs, rfl, rfl⟩ := h
    cases semUp_eq_some.1 hs
    exact .upMutex v i
  case upFill v i =>
    obtain ⟨_, hs, rfl, rfl⟩ := h
    cases semUp_eq_some.1 hs
    exact .upFill v i
  case print v i => cases h; exact .print v i
  case outside i => cases h

/-- Everything a step of `consumer()` can do. -/
inductive ConsumerStep (g : Shared MAX) : Consumer → Shared MAX → Consumer → Prop
  | downFill (h : 0 < g.sem .FILL) : ConsumerStep g .downFill
      { g with sem := Function.update g.sem .FILL (g.sem .FILL - 1) } .downMutex
  | downMutex (h : 0 < g.sem .MUTEX) : ConsumerStep g .downMutex
      { g with sem := Function.update g.sem .MUTEX (g.sem .MUTEX - 1) } (.scan 0)
  | scanNext (i : ℕ) (hi : i < MAX) (h : g.data ⟨i, hi⟩ = -1) : ConsumerStep g (.scan i) g (.scan (i + 1))
  | scanStop (i : ℕ) (hi : i < MAX) (h : g.data ⟨i, hi⟩ ≠ -1) : ConsumerStep g (.scan i) g (.read i)
  | scanOutside (i : ℕ) (hi : ¬ i < MAX) : ConsumerStep g (.scan i) g (.outside i)
  | read (i : ℕ) (hi : i < MAX) : ConsumerStep g (.read i) g (.reset i (g.data ⟨i, hi⟩))
  | readOutside (i : ℕ) (hi : ¬ i < MAX) : ConsumerStep g (.read i) g (.outside i)
  | reset (i : ℕ) (v : ℤ) (hi : i < MAX) : ConsumerStep g (.reset i v)
      { g with data := Function.update g.data ⟨i, hi⟩ (-1), removed := v ::ₘ g.removed } (.upMutex i v)
  | resetOutside (i : ℕ) (v : ℤ) (hi : ¬ i < MAX) : ConsumerStep g (.reset i v) g (.outside i)
  | upMutex (i : ℕ) (v : ℤ) : ConsumerStep g (.upMutex i v)
      { g with sem := Function.update g.sem .MUTEX (g.sem .MUTEX + 1) } (.upEmpty i v)
  | upEmpty (i : ℕ) (v : ℤ) : ConsumerStep g (.upEmpty i v)
      { g with sem := Function.update g.sem .EMPTY (g.sem .EMPTY + 1) } (.print i v)
  | print (i : ℕ) (v : ℤ) : ConsumerStep g (.print i v) g .downFill

theorem consumer_cases {pc pc' : Consumer} (h : consumer false g pc = some (g', pc')) :
    ConsumerStep g pc g' pc' := by
  cases pc <;> simp only [consumer, Option.map_eq_some_iff, Prod.mk.injEq] at h
  case downFill =>
    obtain ⟨_, hs, rfl, rfl⟩ := h
    obtain ⟨hp, rfl⟩ := semDown_eq_some.1 hs
    exact .downFill hp
  case downMutex =>
    obtain ⟨_, hs, rfl, rfl⟩ := h
    obtain ⟨hp, rfl⟩ := semDown_eq_some.1 hs
    exact .downMutex hp
  case scan i =>
    split at h
    · rename_i hi
      split at h
      · rename_i hd; cases h; exact .scanNext i hi hd
      · rename_i hd; cases h; exact .scanStop i hi hd
    · rename_i hi; cases h; exact .scanOutside i hi
  case read i =>
    split at h
    · rename_i hi; cases h; exact .read i hi
    · rename_i hi; cases h; exact .readOutside i hi
  case reset i v =>
    split at h
    · rename_i hi; cases h; exact .reset i v hi
    · rename_i hi; cases h; exact .resetOutside i v hi
  case upMutex i v =>
    obtain ⟨_, hs, rfl, rfl⟩ := h
    cases semUp_eq_some.1 hs
    exact .upMutex i v
  case upEmpty i v =>
    obtain ⟨_, hs, rfl, rfl⟩ := h
    cases semUp_eq_some.1 hs
    exact .upEmpty i v
  case print i v => cases h; exact .print i v
  case outside i => cases h

end Cases

end Sysopy.ProdCons
