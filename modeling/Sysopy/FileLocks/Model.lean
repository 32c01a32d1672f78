/-
Locks on single characters of a file (cw02/zad3): any number of processes that run main on one file, each with its
commands. An index of r, w and u is the number of a byte, and p goes through the bytes from 1 on; g and s seek to the
index less one.
-/
import Sysopy.CText.Decimal
import Sysopy.Conc.Pool
import Sysopy.Files.Locks
import Sysopy.Files.Offset

namespace Sysopy.FileLocks

open Sysopy.CText Sysopy.Conc Sysopy.Files

/-! ## Processes -/

/-- The file, and the locks on it. -/
structure Shared (ι : Type*) where
  bytes : List UInt8
  locks : LockTable ι

/-- What is typed for one turn of the loop. `memory` is what `character` holds before a read. -/
inductive Command where
  | q
  | p
  | r (index : ℤ)
  | w (index : ℤ)
  | u (index : ℤ)
  | g (index : ℤ) (memory : UInt8)
  | s (index character : ℤ)
  | unknown
  deriving DecidableEq

/-- What is printed, without the prompts. -/
inductive Line (ι : Type*) where
  /-- Locked: -/
  | locked
  /-- Index %d locked by pid %d -/
  | indexLocked (i : ℕ) (pid : ι)
  /-- Lock set -/
  | lockSet
  /-- Lock removed -/
  | lockRemoved
  /-- error -/
  | error
  /-- Character is %c -/
  | characterIs (character : UInt8)
  /-- Unknown option -/
  | unknownOption
  deriving DecidableEq

/-- A process in its loop, with the offset of `handle` and its output. `placed` is a history of the indices at which it
has set a lock and not removed it. -/
structure Session (ι : Type*) where
  file_size : ℤ
  offset : ℕ
  printed : List (Line ι)
  placed : List ℕ

/-- A process that has not opened the file, one in its loop, or one that has ended. -/
inductive Proc (ι : Type*) where
  | before
  | running (l : Session ι)
  | ended

/-- The indices at which a process has set a lock and not removed it. -/
def Proc.placed {ι : Type*} : Proc ι → List ℕ
  | .running l => l.placed
  | _ => []

/-! ## The commands -/

section Commands

variable {ι : Type*} [DecidableEq ι] (self : ι) (g : Shared ι) (l : Session ι)

/-- The offset after `lseek(handle, n, SEEK_SET)`, which fails when `n` is negative. -/
def lseek (n : ℤ) (offset : ℕ) : ℕ := if 0 ≤ n then n.toNat else offset

/-- The byte that g and s access for an index. -/
def accessed (index : ℤ) : ℕ := lseek (index - 1) l.offset

/-- The lines that p prints for the locked bytes. -/
def listLocked : List (Line ι) :=
  (List.range' 1 (l.file_size - 1).toNat).filterMap fun i =>
    (g.locks.getlk self i 1 .F_WRLCK).map fun lock => .indexLocked i lock.owner

/-- `fcntl(handle, F_SETLK, &lock)` with a lock of the given type, and what is printed; `fcntl` fails when the start is
negative. -/
def setLock (type : LockType) (index : ℤ) : Shared ι × Proc ι :=
  if 0 ≤ index then
    match g.locks.setlk self index.toNat 1 type with
    | some locks =>
      ({ g with locks := locks }, .running { l with
        printed := l.printed ++ [.lockSet]
        placed := index.toNat :: l.placed })
    | none => (g, .running { l with printed := l.printed ++ [.error] })
  else (g, .running { l with printed := l.printed ++ [.error] })

/-- The same with `F_UNLCK`, which never meets a lock in its way. -/
def unlock (index : ℤ) : Shared ι × Proc ι :=
  if 0 ≤ index then
    ({ g with locks := g.locks.unlk self index.toNat 1 }, .running { l with
      printed := l.printed ++ [.lockRemoved]
      placed := l.placed.filter fun i => decide (i ≠ index.toNat) })
  else (g, .running { l with printed := l.printed ++ [.error] })

/-- `lseek(handle, index - 1, SEEK_SET)` and a read of one byte, which may get none. -/
def getCharacter (index : ℤ) (memory : UInt8) : Shared ι × Proc ι :=
  let (data, file) := (⟨g.bytes, accessed l index⟩ : OpenFile).read 1
  (g, .running { l with
    offset := file.offset
    printed := l.printed ++ [.characterIs (data.headD memory)] })

/-- The same with a write. `scanf` stores an int at `character`, of which this byte is written; the three bytes behind
it are taken to fall on padding, as they do where gcc puts `character` at the start of a word of its own. -/
def setCharacter (index character : ℤ) : Shared ι × Proc ι :=
  let file := (⟨g.bytes, accessed l index⟩ : OpenFile).write [UInt8.ofInt character]
  ({ g with bytes := file.bytes }, .running { l with offset := file.offset })

/-- One turn of the loop. When the process ends, its locks are removed. -/
def command : Command → Shared ι × Proc ι
  | .q => ({ g with locks := g.locks.release self }, .ended)
  | .p => (g, .running { l with printed := l.printed ++ .locked :: listLocked self g l })
  | .r index => setLock self g l .F_RDLCK index
  | .w index => setLock self g l .F_WRLCK index
  | .u index => unlock self g l index
  | .g index memory => getCharacter g l index memory
  | .s index character => setCharacter g l index character
  | .unknown => (g, .running { l with printed := l.printed ++ [.unknownOption] })

end Commands

/-- The program; before its loop a process asks for the size of the file. -/
def main (ι : Type*) [DecidableEq ι] : Program ι (Shared ι) (Proc ι) Command := fun self g l c =>
  match l with
  | .before => some (g, .running ⟨toInt g.bytes.length, 0, [], []⟩)
  | .running l => some (command self g l c)
  | .ended => none

/-- All sessions on a file without locks. -/
def sessions (ι : Type*) [DecidableEq ι] : System (Pool ι (Shared ι) (Proc ι)) (ι × Command) :=
  (main ι).system fun s => s.shared.locks = [] ∧ ∀ p, s.procs p = .before

/-! ## What is locked -/

section Sessions

variable {ι : Type*} [DecidableEq ι] {self : ι} {g g' : Shared ι} {l : Session ι} {proc proc' : Proc ι} {c : Command}

/-- A process holds locks exactly on the bytes it has placed them on. -/
def Placed (g : Shared ι) (procs : ι → Proc ι) : Prop := ∀ p i, g.locks.Holds p i ↔ i ∈ (procs p).placed

/-- What a command does to the locks: it sets one, or removes one, or the process ends, or nothing of that. -/
inductive Locking (self : ι) (g : Shared ι) (proc : Proc ι) : Shared ι → Proc ι → Prop
  | set {type : LockType} {i : ℕ} {g' : Shared ι} {proc' : Proc ι}
      (set : g.locks.setlk self i 1 type = some g'.locks) (placed : proc'.placed = i :: proc.placed) :
      Locking self g proc g' proc'
  | removed {i : ℕ} {g' : Shared ι} {proc' : Proc ι} (removed : g'.locks = g.locks.unlk self i 1)
      (placed : proc'.placed = proc.placed.filter fun j => decide (j ≠ i)) : Locking self g proc g' proc'
  | ended {g' : Shared ι} {proc' : Proc ι} (released : g'.locks = g.locks.release self) (placed : proc'.placed = []) :
      Locking self g proc g' proc'
  | same {g' : Shared ι} {proc' : Proc ι} (same : g'.locks = g.locks) (placed : proc'.placed = proc.placed) :
      Locking self g proc g' proc'

theorem locking_setLock (type : LockType) (index : ℤ) :
    Locking self g (.running l) (setLock self g l type index).1 (setLock self g l type index).2 := by
  unfold setLock
  split
  · split
    · rename_i locks hset
      exact .set hset rfl
    · exact .same rfl rfl
  · exact .same rfl rfl

theorem locking_unlock (index : ℤ) :
    Locking self g (.running l) (unlock self g l index).1 (unlock self g l index).2 := by
  unfold unlock
  split
  · exact .removed rfl rfl
  · exact .same rfl rfl

theorem locking_main (h : main ι self g proc c = some (g', proc')) : Locking self g proc g' proc' := by
  cases proc with
  | before =>
    cases h
    exact .same rfl rfl
  | ended => cases h
  | running l =>
    obtain ⟨rfl, rfl⟩ := Prod.mk.inj (Option.some.inj h)
    cases c with
    | q => exact .ended rfl rfl
    | p | g | s | unknown => exact .same rfl rfl
    | r index | w index => exact locking_setLock _ index
    | u index => exact locking_unlock index

/-- The locks of the other processes stay as they are. -/
theorem Locking.holds_other (h : Locking self g proc g' proc') {q : ι} (hq : q ≠ self) (i : ℕ) :
    g'.locks.Holds q i ↔ g.locks.Holds q i := by
  cases h with
  | set hset =>
    rw [LockTable.holds_setlk hset]
    simp [hq]
  | removed hremoved =>
    rw [hremoved, LockTable.holds_unlk]
    simp [hq]
  | ended hreleased =>
    rw [hreleased, LockTable.holds_release]
    simp [hq]
  | same hsame => rw [hsame]

/-- And those of the process go with what it has placed. -/
theorem Locking.holds_self (h : Locking self g proc g' proc') (hplaced : ∀ i, g.locks.Holds self i ↔ i ∈ proc.placed)
    (i : ℕ) : g'.locks.Holds self i ↔ i ∈ proc'.placed := by
  have hbyte : ∀ j, (j ≤ i ∧ i < j + 1) ↔ i = j := fun j => by omega
  cases h with
  | set hset hnew => rw [LockTable.holds_setlk hset, hplaced, hnew, List.mem_cons, hbyte, eq_self, true_and, or_comm]
  | removed hremoved hnew =>
    rw [hremoved, LockTable.holds_unlk, hplaced, hnew, List.mem_filter, hbyte, eq_self, true_and, decide_eq_true_eq]
  | ended hreleased hnew =>
    rw [hreleased, LockTable.holds_release, hnew]
    simp
  | same hsame hnew => rw [hsame, hplaced, hnew]

theorem Placed.step {procs : ι → Proc ι} (h : Placed g procs) (hs : Locking self g (procs self) g' proc') :
    Placed g' (Function.update procs self proc') := by
  intro q i
  by_cases hq : q = self
  · rw [hq, Function.update_self]
    exact hs.holds_self (h self) i
  · rw [Function.update_of_ne hq, hs.holds_other hq]
    exact h q i

/-- In every state a process holds the locks that it has placed. -/
theorem reachable_placed {s : Pool ι (Shared ι) (Proc ι)} (h : (sessions ι).Reachable s) : Placed s.shared s.procs := by
  refine Program.invariant (I := Placed) ?_ ?_ h
  · rintro s ⟨hlocks, hprocs⟩ p i
    rw [hlocks, hprocs]
    simp [LockTable.Holds, Proc.placed]
  · exact fun g procs self c g' proc' hI hs => hI.step (locking_main hs)

end Sessions

end Sysopy.FileLocks
