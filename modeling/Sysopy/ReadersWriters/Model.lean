/-
The readers and writers of cw07/zad2 past `init_sem` and `init_shm`: the two named semaphores, the
shared table `data`, and the loops of `reader()` and `writer()`. `readcount` is an ordinary global of
each reader process, so it is part of the reader's own state. One step is one semaphore operation, one
access to a cell of the table, or one step on the process's own variables.
-/
import Sysopy.Conc.Pool

namespace Sysopy.ReadersWriters

open Sysopy.Conc

/-- The named semaphores. -/
inductive Sem
  | WRT
  | MUTEX
  deriving DecidableEq, Repr

/-- What one writer round does: the positions it chose (`positions[i] == 1`) and what it drew for the
cells that were empty. -/
structure Round (MAX : ℕ) where
  positions : Fin MAX → ℤ
  draws : Fin MAX → ℤ

/-- A finished writer round, or the count a reader printed. -/
inductive Entry (ι : Type*) (MAX : ℕ)
  | wrote (p : ι) (r : Round MAX)
  | counted (p : ι) (searchedValue count : ℤ)

/-- The semaphores and the table. `acquired` and `log` are histories the processes never read: who took
`WRT`, and what was written and counted, in order. -/
structure Shared (ι : Type*) (MAX : ℕ) where
  sem : Sem → ℕ
  data : Fin MAX → ℤ
  acquired : List ι
  log : List (Entry ι MAX)

/-- Where a process of `reader()` is; the arguments are `searched_value`, `i` and `count`. -/
inductive Reader
  | downMutex
  | incCount
  | testFirst
  | downWrt
  | upMutex
  | draw
  | scan (searchedValue : ℤ) (i : ℕ) (count : ℤ)
  | print (searchedValue count : ℤ)
  | downMutexEnd
  | decCount
  | testLast
  | upWrt
  | upMutexEnd

/-- Where a process of `writer()` is. -/
inductive Writer (MAX : ℕ)
  | top
  | choose (howMany : ℕ) (positions : Fin MAX → ℤ)
  | downWrt (positions : Fin MAX → ℤ)
  | loop (r : Round MAX) (i : ℕ)
  | testEmpty (r : Round MAX) (i : Fin MAX)
  | assign (r : Round MAX) (i : Fin MAX)
  | testLess (r : Round MAX) (i : Fin MAX)
  | readInc (r : Round MAX) (i : Fin MAX)
  | writeInc (r : Round MAX) (i : Fin MAX) (v : ℤ)
  | print (r : Round MAX) (i : Fin MAX)
  | upWrt (r : Round MAX)

/-- A reader with its own `readcount`, or a writer. -/
inductive Proc (MAX : ℕ)
  | reader (readcount : ℤ) (pc : Reader)
  | writer (pc : Writer MAX)

variable {ι : Type*} {MAX : ℕ}

/-- `sem_wait`: it blocks at 0. -/
def semDown (g : Shared ι MAX) (sem : Sem) : Option (Shared ι MAX) :=
  if 0 < g.sem sem then some { g with sem := Function.update g.sem sem (g.sem sem - 1) } else none

/-- `sem_post` -/
def semUp (g : Shared ι MAX) (sem : Sem) : Shared ι MAX :=
  { g with sem := Function.update g.sem sem (g.sem sem + 1) }

/-- `sem_down(WRT)` by process `id`. -/
def downWrt (id : ι) (g : Shared ι MAX) : Option (Shared ι MAX) :=
  (semDown g .WRT).map fun g => { g with acquired := g.acquired ++ [id] }

/-- One step of `reader()`. -/
def reader (id : ι) (rand : ℕ) (g : Shared ι MAX) (readcount : ℤ) : Reader → Option (Shared ι MAX × ℤ × Reader)
  | .downMutex => (semDown g .MUTEX).map (·, readcount, .incCount)
  | .incCount => some (g, readcount + 1, .testFirst)
  | .testFirst => some (g, readcount, if readcount = 1 then .downWrt else .upMutex)
  | .downWrt => (downWrt id g).map (·, readcount, .upMutex)
  | .upMutex => some (semUp g .MUTEX, readcount, .draw)
  | .draw => some (g, readcount, .scan ((rand : ℤ) % (10 + 1)) 0 0)
  | .scan v i count =>
    if h : i < MAX then some (g, readcount, .scan v (i + 1) (if v = g.data ⟨i, h⟩ then count + 1 else count))
    else some (g, readcount, .print v count)
  | .print v count => some ({ g with log := g.log ++ [.counted id v count] }, readcount, .downMutexEnd)
  | .downMutexEnd => (semDown g .MUTEX).map (·, readcount, .decCount)
  | .decCount => some (g, readcount - 1, .testLast)
  | .testLast => some (g, readcount, if readcount = 0 then .upWrt else .upMutexEnd)
  | .upWrt => some (semUp g .WRT, readcount, .upMutexEnd)
  | .upMutexEnd => some (semUp g .MUTEX, readcount, .downMutex)

/-- One step of `writer()`. -/
def writer (id : ι) (rand : ℕ) (g : Shared ι MAX) : Writer MAX → Option (Shared ι MAX × Writer MAX)
  | .top => some (g, .choose (rand % MAX / 2) fun _ => -1)
  | .choose howMany positions =>
    if howMany > 0 then
      if h : rand % MAX < MAX then
        if positions ⟨rand % MAX, h⟩ = -1 then
          some (g, .choose (howMany - 1) (Function.update positions ⟨rand % MAX, h⟩ 1))
        else some (g, .choose howMany positions)
      else none
    else some (g, .downWrt positions)
  | .downWrt positions => (downWrt id g).map (·, .loop ⟨positions, fun _ => 0⟩ 0)
  | .loop r i =>
    if h : i < MAX then
      if r.positions ⟨i, h⟩ = 1 then some (g, .testEmpty r ⟨i, h⟩) else some (g, .loop r (i + 1))
    else some (g, .upWrt r)
  | .testEmpty r i => some (g, if g.data i = -1 then .assign r i else .testLess r i)
  | .assign r i =>
    some ({ g with data := Function.update g.data i ((rand : ℤ) % 10) },
      .print { r with draws := Function.update r.draws i ((rand : ℤ) % 10) } i)
  | .testLess r i => some (g, if g.data i < 10 then .readInc r i else .print r i)
  | .readInc r i => some (g, .writeInc r i (g.data i))
  | .writeInc r i v => some ({ g with data := Function.update g.data i (v + 1) }, .print r i)
  | .print r i => some (g, .loop r (i.val + 1))
  | .upWrt r => some ({ semUp g .WRT with log := g.log ++ [.wrote id r] }, .top)

/-- The processes; `rand` is what `rand()` returns. -/
def program (ι : Type*) (MAX : ℕ) : Program ι (Shared ι MAX) (Proc MAX) ℕ := fun id g l rand =>
  match l with
  | .reader readcount pc => (reader id rand g readcount pc).map fun r => (r.1, .reader r.2.1 r.2.2)
  | .writer pc => (writer id rand g pc).map fun r => (r.1, .writer r.2)

/-- What `init_sem` leaves, over the table `T₀` that the calls of `init_shm` have left. -/
def initShared (ι : Type*) (T₀ : Fin MAX → ℤ) : Shared ι MAX := ⟨fun _ => 1, T₀, [], []⟩

/-- A process at the top of its loop, `reader()` where `isReader` says so. -/
def atTop (MAX : ℕ) (isReader : Bool) : Proc MAX := if isReader then .reader 0 .downMutex else .writer .top

/-- All runs of the given readers and writers from the table `T₀`. -/
def system {ι : Type*} [DecidableEq ι] (T₀ : Fin MAX → ℤ) (isReader : ι → Bool) :
    System (Pool ι (Shared ι MAX) (Proc MAX)) (ι × ℕ) :=
  (program ι MAX).system fun s => s.shared = initShared ι T₀ ∧ ∀ p, s.procs p = atTop MAX (isReader p)

/-! ## What a semaphore operation does -/

theorem semDown_eq_some {g g' : Shared ι MAX} {sem : Sem} :
    semDown g sem = some g' ↔ 0 < g.sem sem ∧ g' = { g with sem := Function.update g.sem sem (g.sem sem - 1) } := by
  unfold semDown
  split
  · rename_i h; simp only [Option.some.injEq, h, true_and]; exact eq_comm
  · rename_i h; simp [h]

theorem downWrt_eq_some {g g' : Shared ι MAX} {id : ι} :
    downWrt id g = some g' ↔ 0 < g.sem .WRT ∧
      g' = { g with sem := Function.update g.sem .WRT (g.sem .WRT - 1), acquired := g.acquired ++ [id] } := by
  unfold downWrt
  rw [Option.map_eq_some_iff]
  constructor
  · rintro ⟨g₁, h, rfl⟩
    obtain ⟨hp, rfl⟩ := semDown_eq_some.1 h
    exact ⟨hp, rfl⟩
  · rintro ⟨hp, rfl⟩
    exact ⟨_, semDown_eq_some.2 ⟨hp, rfl⟩, rfl⟩

end Sysopy.ReadersWriters
