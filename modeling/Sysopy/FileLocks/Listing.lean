/-
What p lists. It looks at byte i for the index i, while g and s access byte i - 1; the lists agree only when there is
nothing to list.
-/
import Sysopy.FileLocks.Model

namespace Sysopy.FileLocks

open Sysopy.CText Sysopy.Conc Sysopy.Files

section Listing

variable {ι : Type*} [DecidableEq ι] {self : ι} {g : Shared ι} {l : Session ι} {i : ℕ}

/-- Command p prints a line for the index. -/
def Lists (self : ι) (g : Shared ι) (l : Session ι) (i : ℕ) : Prop :=
  ∃ pid, Line.indexLocked i pid ∈ listLocked self g l

/-- Another process holds a lock on the byte. -/
def LockedByOther (self : ι) (g : Shared ι) (i : ℕ) : Prop := ∃ q, q ≠ self ∧ g.locks.Holds q i

/-- The indices that p lists are those whose characters are locked by other processes. -/
def ListsRight (self : ι) (g : Shared ι) (l : Session ι) : Prop :=
  ∀ i : ℕ, 1 ≤ i → (i : ℤ) ≤ l.file_size → (Lists self g l i ↔ LockedByOther self g (accessed l i))

/-! ## The bytes -/

omit [DecidableEq ι] in
theorem accessed_of_pos (l : Session ι) (h : 1 ≤ i) : accessed l i = i - 1 := by
  unfold accessed lseek
  rw [if_pos (by omega)]
  omega

omit [DecidableEq ι] in
/-- s replaces it. -/
theorem setCharacter_bytes (hi : accessed l i < g.bytes.length) (character : ℤ) :
    (setCharacter g l i character).1.bytes = g.bytes.set (accessed l i) (UInt8.ofInt character) := by
  have hpad : g.bytes.rightpad (accessed l i) 0 = g.bytes := by
    rw [List.rightpad, Nat.sub_eq_zero_of_le hi.le, List.replicate_zero, List.append_nil]
  unfold setCharacter OpenFile.write
  simp only [hpad, List.length_singleton]
  rw [List.set_eq_take_append_cons_drop, if_pos hi, List.append_assoc, List.singleton_append]

/-- p lists the bytes before the end of the file, but not the first one, that are locked by other processes. -/
theorem lists_iff : Lists self g l i ↔ 1 ≤ i ∧ (i : ℤ) < l.file_size ∧ LockedByOther self g i := by
  have hlocked : LockedByOther self g i ↔ ∃ lock, g.locks.getlk self i 1 .F_WRLCK = some lock := by
    rw [LockTable.exists_getlk_write]
    refine exists_congr fun q => and_congr_right fun _ => ?_
    constructor
    · exact fun h => ⟨i, le_rfl, Nat.lt_succ_self i, h⟩
    · rintro ⟨j, hle, hlt, h⟩
      obtain rfl : j = i := by omega
      exact h
  rw [hlocked]
  unfold Lists listLocked
  constructor
  · rintro ⟨pid, hpid⟩
    obtain ⟨j, hj, hline⟩ := List.mem_filterMap.1 hpid
    obtain ⟨lock, hlock, heq⟩ := Option.map_eq_some_iff.1 hline
    cases heq
    rw [List.mem_range'_1] at hj
    exact ⟨hj.1, by omega, lock, hlock⟩
  · rintro ⟨hpos, hlt, lock, hlock⟩
    refine ⟨lock.owner, List.mem_filterMap.2 ⟨i, List.mem_range'_1.2 ⟨hpos, by omega⟩, ?_⟩⟩
    rw [hlock]
    rfl

/-- So an index is listed when the character behind it is locked. -/
theorem lists_iff_next : Lists self g l i ↔
    1 ≤ i ∧ (i : ℤ) < l.file_size ∧ LockedByOther self g (accessed l (i + 1 : ℕ)) := by
  rw [lists_iff, accessed_of_pos l (Nat.le_add_left 1 i), Nat.add_sub_cancel]

/-- The lists agree iff no character is locked by another process: from the last index back, none can be. -/
theorem listsRight_iff : ListsRight self g l ↔ ∀ i : ℕ, (i : ℤ) < l.file_size → ¬ LockedByOther self g i := by
  constructor
  · intro hright
    -- a lock on a character is listed, so it is also on the next one
    have hnext : ∀ i : ℕ, (i : ℤ) < l.file_size → LockedByOther self g i →
        (i + 1 : ℕ) < l.file_size ∧ LockedByOther self g (i + 1) := by
      intro i hi hlocked
      have hlist := (hright (i + 1) (by omega) (by omega)).2
      rw [accessed_of_pos l (by omega), Nat.add_sub_cancel, lists_iff] at hlist
      exact (hlist hlocked).2
    have hback : ∀ n i : ℕ, (i : ℤ) + 1 + n = l.file_size → ¬ LockedByOther self g i := by
      intro n
      induction n with
      | zero =>
        intro i hi hlocked
        obtain ⟨hlt, -⟩ := hnext i (by omega) hlocked
        omega
      | succ n ih =>
        intro i hi hlocked
        obtain ⟨-, hlocked'⟩ := hnext i (by omega) hlocked
        exact ih (i + 1) (by omega) hlocked'
    intro i hi
    exact hback (l.file_size - i - 1).toNat i (by omega)
  · intro hnone i hpos hi
    rw [accessed_of_pos l hpos, lists_iff]
    constructor
    · rintro ⟨-, hlt, hlocked⟩
      exact absurd hlocked (hnone i hlt)
    · intro hlocked
      exact absurd hlocked (hnone (i - 1) (by omega))

/-- In every state of every session p lists right iff the other processes hold locks only at indices from the size of
the file on. -/
theorem listsRight_iff_placed {s : Pool ι (Shared ι) (Proc ι)} (h : (sessions ι).Reachable s)
    (_ : s.procs self = .running l) :
    ListsRight self s.shared l ↔ ∀ q, q ≠ self → ∀ index ∈ (s.procs q).placed, l.file_size ≤ index := by
  have hplaced := reachable_placed h
  rw [listsRight_iff]
  constructor
  · intro hnone q hq index hindex
    by_contra hlt
    exact hnone index (by omega) ⟨q, hq, (hplaced q index).2 hindex⟩
  · rintro hall i hi ⟨q, hq, hholds⟩
    have hle := hall q hq i ((hplaced q i).1 hholds)
    omega

end Listing

/-! Two processes on a file of two characters. -/

def twoCharacters : Pool (Fin 2) (Shared (Fin 2)) (Proc (Fin 2)) := ⟨⟨[120, 121], []⟩, fun _ => .before⟩

theorem twoCharacters_reachable : (sessions (Fin 2)).Reachable twoCharacters := .init ⟨rfl, fun _ => rfl⟩

/-- The first process locks index 2, the last one. -/
theorem listsRight_lastLocked : ∃ s l, (sessions (Fin 2)).run twoCharacters [(0, .unknown), (1, .unknown), (0, .w 2)] =
    some s ∧ s.procs 1 = .running l ∧ ListsRight 1 s.shared l := by
  obtain ⟨s, l, hrun, hp, hsize, hplaced⟩ : ∃ s l,
      (sessions (Fin 2)).run twoCharacters [(0, .unknown), (1, .unknown), (0, .w 2)] = some s ∧
      s.procs 1 = .running l ∧ l.file_size = 2 ∧ (s.procs 0).placed = [2] :=
    ⟨_, ⟨toInt 2, 0, [], []⟩, rfl, rfl, by decide, rfl⟩
  refine ⟨s, l, hrun, hp, (listsRight_iff_placed (System.Reachable.run _ twoCharacters_reachable hrun) hp).2 ?_⟩
  intro q hq index hindex
  obtain rfl : q = 0 := by omega
  rw [hplaced, List.mem_singleton] at hindex
  omega

/-- With index 1 locked, p lists it; but the lock is on the character of index 2, which p does not list. -/
theorem firstLocked_not_right : ∃ s l, (sessions (Fin 2)).Reachable s ∧ s.procs 1 = .running l ∧
    Lists 1 s.shared l 1 ∧ ¬ LockedByOther 1 s.shared (accessed l 1) ∧
    ¬ Lists 1 s.shared l 2 ∧ LockedByOther 1 s.shared (accessed l 2) ∧ ¬ ListsRight 1 s.shared l := by
  obtain ⟨s, l, hrun, hp, hsize, hlocks⟩ : ∃ s l,
      (sessions (Fin 2)).run twoCharacters [(0, .unknown), (1, .unknown), (0, .w 1)] = some s ∧
      s.procs 1 = .running l ∧ l.file_size = 2 ∧ s.shared.locks = [⟨0, 1, .F_WRLCK⟩] :=
    ⟨_, ⟨toInt 2, 0, [], []⟩, rfl, rfl, by decide, rfl⟩
  have hlocked : ∀ i, LockedByOther 1 s.shared i ↔ i = 1 := by
    intro i
    simp [LockedByOther, LockTable.Holds, hlocks, eq_comm]
  have hfirst : accessed l 1 = 0 := accessed_of_pos l (i := 1) le_rfl
  have hsecond : accessed l 2 = 1 := accessed_of_pos l (i := 2) (by decide)
  have hnot : ¬ ListsRight 1 s.shared l := by
    rw [listsRight_iff]
    exact fun hnone => hnone 1 (by omega) ((hlocked 1).2 rfl)
  refine ⟨s, l, System.Reachable.run _ twoCharacters_reachable hrun, hp, ?_, ?_, ?_, ?_, hnot⟩
  · rw [lists_iff, hlocked, hsize]
    decide
  · rw [hfirst, hlocked]
    decide
  · rw [lists_iff, hsize]
    rintro ⟨-, hlt, -⟩
    cases hlt
  · rw [hsecond, hlocked]

end Sysopy.FileLocks
