/-
Record locks of fcntl.h on the bytes of one file. A process may lock bytes for reading or for writing; a request is
refused when another process holds a lock in the way, and a process never stands in its own way. So what two processes
hold on one byte are locks for reading.
-/
import Mathlib.Tactic

namespace Sysopy.Files

inductive LockType where
  | F_RDLCK
  | F_WRLCK
  deriving DecidableEq, Repr

/-- A lock of a process on a byte. -/
structure RecordLock (ι : Type*) where
  owner : ι
  byte : ℕ
  type : LockType
  deriving DecidableEq, Repr

/-- The locks on a file. -/
abbrev LockTable (ι : Type*) := List (RecordLock ι)

namespace LockTable

variable {ι : Type*} [DecidableEq ι]

/-- The lock keeps a process from locking the bytes. -/
def blocks (p : ι) (start len : ℕ) (type : LockType) (l : RecordLock ι) : Bool :=
  decide (l.owner ≠ p) && decide (start ≤ l.byte ∧ l.byte < start + len) &&
    (decide (type = .F_WRLCK) || decide (l.type = .F_WRLCK))

/-- `F_GETLK`: a lock that is in the way. -/
def getlk (p : ι) (start len : ℕ) (type : LockType) (locks : LockTable ι) : Option (RecordLock ι) :=
  locks.find? (blocks p start len type)

/-- `F_SETLK` with `F_UNLCK`. -/
def unlk (p : ι) (start len : ℕ) (locks : LockTable ι) : LockTable ι :=
  locks.filter fun l => !(decide (l.owner = p) && decide (start ≤ l.byte ∧ l.byte < start + len))

/-- `F_SETLK`; no result when it returns -1. -/
def setlk (p : ι) (start len : ℕ) (type : LockType) (locks : LockTable ι) : Option (LockTable ι) :=
  if (getlk p start len type locks).isSome then none
  else some ((List.range' start len).map (fun i => ⟨p, i, type⟩) ++ unlk p start len locks)

/-- A process that ends loses its locks. -/
def release (p : ι) (locks : LockTable ι) : LockTable ι := locks.filter fun l => decide (l.owner ≠ p)

omit [DecidableEq ι] in
/-- The process has locked the byte. -/
def Holds (locks : LockTable ι) (p : ι) (i : ℕ) : Prop := ∃ l ∈ locks, l.owner = p ∧ l.byte = i

/-- Two processes share a byte only for reading. -/
def Compatible (locks : LockTable ι) : Prop :=
  ∀ l ∈ locks, ∀ l' ∈ locks, l.owner ≠ l'.owner → l.byte = l'.byte → l.type = .F_RDLCK ∧ l'.type = .F_RDLCK

variable {locks locks' : LockTable ι} {p q : ι} {start len i : ℕ} {type : LockType} {l : RecordLock ι}

theorem blocks_iff : blocks p start len type l = true ↔
    l.owner ≠ p ∧ (start ≤ l.byte ∧ l.byte < start + len) ∧ (type = .F_WRLCK ∨ l.type = .F_WRLCK) := by
  simp only [blocks, Bool.and_eq_true, Bool.or_eq_true, decide_eq_true_eq, and_assoc]

theorem mem_unlk : l ∈ locks.unlk p start len ↔
    l ∈ locks ∧ ¬ (l.owner = p ∧ start ≤ l.byte ∧ l.byte < start + len) := by
  simp only [unlk, List.mem_filter, Bool.not_eq_true', Bool.and_eq_false_iff, decide_eq_false_iff_not]
  rw [← Classical.not_and_iff_not_or_not]

theorem mem_release : l ∈ locks.release p ↔ l ∈ locks ∧ l.owner ≠ p := by
  simp only [release, List.mem_filter, decide_eq_true_eq]

/-- A lock for writing is kept off by any lock of another process. -/
theorem exists_getlk_write : (∃ l, locks.getlk p start len .F_WRLCK = some l) ↔
    ∃ q, q ≠ p ∧ ∃ i, start ≤ i ∧ i < start + len ∧ locks.Holds q i := by
  unfold getlk
  rw [← Option.isSome_iff_exists, List.find?_isSome]
  constructor
  · rintro ⟨l, hl, hb⟩
    obtain ⟨howner, ⟨hle, hlt⟩, -⟩ := blocks_iff.1 hb
    exact ⟨l.owner, howner, l.byte, hle, hlt, l, hl, rfl, rfl⟩
  · rintro ⟨q, hq, i, hle, hlt, l, hl, rfl, rfl⟩
    exact ⟨l, hl, blocks_iff.2 ⟨hq, ⟨hle, hlt⟩, .inl rfl⟩⟩

theorem setlk_eq_some (h : locks.setlk p start len type = some locks') :
    (∀ l ∈ locks, blocks p start len type l = false) ∧
      locks' = (List.range' start len).map (fun i => ⟨p, i, type⟩) ++ locks.unlk p start len := by
  unfold setlk at h
  split at h
  · cases h
  · rename_i hnone
    cases h
    refine ⟨fun l hl => ?_, rfl⟩
    unfold getlk at hnone
    rw [List.find?_isSome] at hnone
    push Not at hnone
    exact Bool.eq_false_of_not_eq_true (hnone l hl)

theorem holds_unlk : (locks.unlk p start len).Holds q i ↔
    locks.Holds q i ∧ ¬ (q = p ∧ start ≤ i ∧ i < start + len) := by
  constructor
  · rintro ⟨l, hl, rfl, rfl⟩
    obtain ⟨hl, hnot⟩ := mem_unlk.1 hl
    exact ⟨⟨l, hl, rfl, rfl⟩, hnot⟩
  · rintro ⟨⟨l, hl, rfl, rfl⟩, hnot⟩
    exact ⟨l, mem_unlk.2 ⟨hl, hnot⟩, rfl, rfl⟩

theorem holds_release : (locks.release p).Holds q i ↔ locks.Holds q i ∧ q ≠ p := by
  constructor
  · rintro ⟨l, hl, rfl, rfl⟩
    obtain ⟨hl, hne⟩ := mem_release.1 hl
    exact ⟨⟨l, hl, rfl, rfl⟩, hne⟩
  · rintro ⟨⟨l, hl, rfl, rfl⟩, hne⟩
    exact ⟨l, mem_release.2 ⟨hl, hne⟩, rfl, rfl⟩

theorem holds_setlk (h : locks.setlk p start len type = some locks') :
    locks'.Holds q i ↔ locks.Holds q i ∨ (q = p ∧ start ≤ i ∧ i < start + len) := by
  obtain ⟨-, rfl⟩ := setlk_eq_some h
  constructor
  · rintro ⟨l, hl, rfl, rfl⟩
    rcases List.mem_append.1 hl with hl | hl
    · obtain ⟨j, hj, rfl⟩ := List.mem_map.1 hl
      exact .inr ⟨rfl, List.mem_range'_1.1 hj⟩
    · exact .inl ⟨l, (mem_unlk.1 hl).1, rfl, rfl⟩
  · intro hholds
    by_cases hnew : q = p ∧ start ≤ i ∧ i < start + len
    · obtain ⟨rfl, hrange⟩ := hnew
      exact ⟨_, List.mem_append_left _ (List.mem_map_of_mem (List.mem_range'_1.2 hrange)), rfl, rfl⟩
    · obtain ⟨l, hl, howner, hbyte⟩ := holds_unlk.2 ⟨hholds.resolve_right hnew, hnew⟩
      exact ⟨l, List.mem_append_right _ hl, howner, hbyte⟩

/-! Locks for writing exclude those of other processes. -/

omit [DecidableEq ι] in
theorem Compatible.sublist (h : locks.Compatible) (hsub : locks' ⊆ locks) : locks'.Compatible :=
  fun l hl l' hl' => h l (hsub hl) l' (hsub hl')

theorem Compatible.unlk (h : locks.Compatible) : (locks.unlk p start len).Compatible :=
  h.sublist fun _ hl => (mem_unlk.1 hl).1

theorem Compatible.release (h : locks.Compatible) : (locks.release p).Compatible :=
  h.sublist fun _ hl => (mem_release.1 hl).1

theorem Compatible.setlk (h : locks.Compatible) (hs : locks.setlk p start len type = some locks') :
    locks'.Compatible := by
  obtain ⟨hfree, rfl⟩ := setlk_eq_some hs
  -- a new lock, and one of another process
  have hnew : ∀ i ∈ List.range' start len, ∀ l ∈ locks.unlk p start len, p ≠ l.owner → i = l.byte →
      type = .F_RDLCK ∧ l.type = .F_RDLCK := by
    rintro i hi l hl hne rfl
    have hl' := hfree l (mem_unlk.1 hl).1
    have hkeep : ¬ (type = .F_WRLCK ∨ l.type = .F_WRLCK) := fun hw => by
      rw [blocks_iff.2 ⟨hne.symm, List.mem_range'_1.1 hi, hw⟩] at hl'
      cases hl'
    cases type <;> cases ht : l.type <;> simp_all
  intro l hl l' hl' hne hbyte
  rcases List.mem_append.1 hl with hl | hl <;> rcases List.mem_append.1 hl' with hl' | hl'
  · obtain ⟨i, -, rfl⟩ := List.mem_map.1 hl
    obtain ⟨j, -, rfl⟩ := List.mem_map.1 hl'
    exact absurd rfl hne
  · obtain ⟨i, hi, rfl⟩ := List.mem_map.1 hl
    exact hnew i hi l' hl' hne hbyte
  · obtain ⟨i, hi, rfl⟩ := List.mem_map.1 hl'
    exact (hnew i hi l hl hne.symm hbyte.symm).symm
  · exact h.unlk l hl l' hl' hne hbyte

end LockTable

end Sysopy.Files
