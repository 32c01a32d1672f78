/-
What the program prints: how many children have counted in its own memory, and the sum of the times they lived, which
only the low eight bits of each reach.
-/
import Sysopy.Children.Model

namespace Sysopy.Children

open Sysopy.CText Sysopy.Conc

section Methods

variable {m : Method} {method : CStr}

theorem eq_of_methodOf (h : methodOf method.1 = some m) : method.1 = "fork".toList ∨ method.1 = "vfork".toList ∨
    method.1 = "clonefork".toList ∨ method.1 = "clonevfork".toList := by
  unfold methodOf at h
  split at h
  · rename_i heq
    exact .inl ((strcmp_eq_zero_iff method.2 (by decide)).1 heq)
  · split at h
    · rename_i heq
      exact .inr (.inl ((strcmp_eq_zero_iff method.2 (by decide)).1 heq))
    · split at h
      · rename_i heq
        exact .inr (.inr (.inl ((strcmp_eq_zero_iff method.2 (by decide)).1 heq)))
      · split at h
        · rename_i heq
          exact .inr (.inr (.inr ((strcmp_eq_zero_iff method.2 (by decide)).1 heq)))
        · cases h

/-- The names of the methods fit into the array. -/
theorem length_of_methodOf (h : methodOf method.1 = some m) : method.1.length < 16 := by
  rcases eq_of_methodOf h with h | h | h | h <;> rw [h] <;> decide

end Methods

/-! ## Exit statuses -/

/-- The statuses of children that have each lived for some time. -/
def statuses (lives : List ℤ) : ℤ := (lives.map fun l => (exitStatus l : ℤ)).sum

theorem statuses_append (lives : List ℤ) (l : ℤ) : statuses (lives ++ [l]) = statuses lives + exitStatus l := by
  simp [statuses]

/-! ## The invariant -/

/-- What the loop has kept so far, when `counted` children are not waited for that have counted. -/
structure Books (m : Method) (counted : ℕ) (s : State) : Prop where
  counter : s.memory.counter = if m.shares then (s.lives.length + counted : ℤ) else 0
  child_time : s.child_time = statuses s.lives
  lives : ∀ l ∈ s.lives, 0 ≤ l
  turns : s.lives.length ≤ s.i
  printed : s.printed = List.replicate (s.i - s.lives.length) .pidError

def FnPc.counted : FnPc → ℕ
  | .increment => 0
  | .times | .exit _ | .ended _ _ => 1

/-- A child has read the clock since it was created, and ends with the low bits of the difference. -/
def FnPc.Lived (s : State) : FnPc → Prop
  | .increment | .times => True
  | .exit t => s.born ≤ t ∧ t ≤ s.clock
  | .ended t status => (s.born ≤ t ∧ t ≤ s.clock) ∧ status = exitStatus (t - s.born)

inductive Inv (a : Args) (m : Method) (s : State) : Prop
  | start (pc : s.pc = .start) (child : s.child = none) (printed : s.printed = []) (lives : s.lives = [])
  | test (pc : s.pc = .test) (child : s.child = none) (books : Books m 0 s) (turn : s.i ≤ a.n.toNat)
      (elapsed : s.start_time + s.lives.sum ≤ s.clock)
  | stamp (pc : s.pc = .stamp) (child : s.child = none) (books : Books m 0 s) (turn : s.i < a.n.toNat)
      (elapsed : s.start_time + s.lives.sum ≤ s.clock)
  | create (pc : s.pc = .create) (child : s.child = none) (books : Books m 0 s) (turn : s.i < a.n.toNat)
      (elapsed : s.start_time + s.lives.sum ≤ s.born) (born : s.born ≤ s.clock)
      (memory : s.memory.parent_time = s.born)
  | wait (c : Child) (pc : s.pc = .wait) (child : s.child = some c) (books : Books m c.pc.counted s)
      (turn : s.i < a.n.toNat) (elapsed : s.start_time + s.lives.sum ≤ s.born) (born : s.born ≤ s.clock)
      (shares : c.memory = none ↔ m.shares = true) (memory : (c.memory.getD s.memory).parent_time = s.born)
      (lived : c.pc.Lived s)
  | report (pc : s.pc = .report) (child : s.child = none) (books : Books m 0 s) (turn : s.i = a.n.toNat)
      (elapsed : s.start_time + s.lives.sum ≤ s.clock)
  | returned (errors : ℕ) (real : ℤ) (pc : s.pc = .returned 0) (child : s.child = none)
      (turns : errors + s.lives.length = a.n.toNat) (lives : ∀ l ∈ s.lives, 0 ≤ l) (elapsed : s.lives.sum ≤ real)
      (printed : s.printed = List.replicate errors .pidError ++
        [.counter (if m.shares then s.lives.length else 0), .parent real, .children (statuses s.lives)])

section Steps

variable {a : Args} {m : Method} {s s' : State}

theorem Inv.tick (h : Inv a m s) (d : ℕ) : Inv a m { s with clock := s.clock + d } := by
  cases h with
  | start pc child printed lives => exact .start pc child printed lives
  | test pc child books turn elapsed =>
    obtain ⟨h₁, h₂, h₃, h₄, h₅⟩ := books
    exact .test pc child ⟨h₁, h₂, h₃, h₄, h₅⟩ turn (by simp only; omega)
  | stamp pc child books turn elapsed =>
    obtain ⟨h₁, h₂, h₃, h₄, h₅⟩ := books
    exact .stamp pc child ⟨h₁, h₂, h₃, h₄, h₅⟩ turn (by simp only; omega)
  | create pc child books turn elapsed born memory =>
    obtain ⟨h₁, h₂, h₃, h₄, h₅⟩ := books
    exact .create pc child ⟨h₁, h₂, h₃, h₄, h₅⟩ turn elapsed (by simp only; omega) memory
  | wait c pc child books turn elapsed born shares memory lived =>
    obtain ⟨h₁, h₂, h₃, h₄, h₅⟩ := books
    refine .wait c pc child ⟨h₁, h₂, h₃, h₄, h₅⟩ turn elapsed (by simp only; omega) shares memory ?_
    cases hc : c.pc with
    | increment | times => trivial
    | exit t =>
      rw [hc] at lived
      exact ⟨lived.1, by have := lived.2; simp only; omega⟩
    | ended t status =>
      rw [hc] at lived
      exact ⟨⟨lived.1.1, by have := lived.1.2; simp only; omega⟩, lived.2⟩
  | report pc child books turn elapsed =>
    obtain ⟨h₁, h₂, h₃, h₄, h₅⟩ := books
    exact .report pc child ⟨h₁, h₂, h₃, h₄, h₅⟩ turn (by simp only; omega)
  | returned errors real pc child turns lives elapsed printed =>
    exact .returned errors real pc child turns lives elapsed printed

/-- Where the loop goes on with the next turn. -/
theorem Books.next {m : Method} {s : State} (h : Books m 0 s) (hi : s.lives.length ≤ s.i) :
    Books m 0 { s with pc := .test, i := s.i + 1, printed := s.printed ++ [.pidError] } := by
  refine ⟨h.counter, h.child_time, h.lives, Nat.le_succ_of_le hi, ?_⟩
  simp only [h.printed]
  rw [Nat.succ_sub hi, List.replicate_succ']

theorem Inv.main (hargs : a.argc = 3) (hm : methodOf a.argv1.1 = some m) (h : Inv a m s) {created : Bool}
    (hs : stepMain a created s = some s') : Inv a m s' := by
  unfold stepMain at hs
  cases h with
  | start pc child printed lives =>
    rw [pc] at hs
    simp only [hargs, ne_eq, not_true_eq_false, if_false, if_pos (length_of_methodOf hm)] at hs
    cases hs
    refine .test rfl child ⟨?_, ?_, ?_, ?_, ?_⟩ (Nat.zero_le _) ?_
    · simp [lives]
    · simp [lives, statuses]
    · simp [lives]
    · simp [lives]
    · simp [lives, printed]
    · simp [lives]
  | test pc child books turn elapsed =>
    rw [pc] at hs
    cases hs
    obtain ⟨h₁, h₂, h₃, h₄, h₅⟩ := books
    by_cases hlt : (s.i : ℤ) < a.n
    · exact .stamp (if_pos hlt) child ⟨h₁, h₂, h₃, h₄, h₅⟩ (by simp only; omega) elapsed
    · exact .report (if_neg hlt) child ⟨h₁, h₂, h₃, h₄, h₅⟩ (by simp only; omega) elapsed
  | stamp pc child books turn elapsed =>
    rw [pc] at hs
    cases hs
    obtain ⟨h₁, h₂, h₃, h₄, h₅⟩ := books
    exact .create rfl child ⟨h₁, h₂, h₃, h₄, h₅⟩ turn elapsed le_rfl rfl
  | create pc child books turn elapsed born memory =>
    rw [pc] at hs
    simp only [hm] at hs
    cases hs
    unfold Children.create
    split
    · obtain ⟨h₁, h₂, h₃, h₄, h₅⟩ := books
      refine .wait _ rfl rfl ⟨h₁, h₂, h₃, h₄, h₅⟩ turn elapsed born ?_ ?_ trivial
      · cases m.shares <;> simp
      · cases m.shares <;> simpa using memory
    · have hle : s.start_time + s.lives.sum ≤ s.clock := elapsed.trans born
      exact .test rfl child (books.next books.turns) (Nat.succ_le_of_lt turn) hle
  | wait c pc child books turn elapsed born shares memory lived =>
    rw [pc] at hs
    simp only [child] at hs
    obtain ⟨cpc, own⟩ := c
    cases cpc with
    | increment | times | exit t => cases hs
    | ended t status =>
      cases hs
      obtain ⟨hlife, rfl⟩ : (s.born ≤ t ∧ t ≤ s.clock) ∧ status = exitStatus (t - s.born) := lived
      obtain ⟨h₁, h₂, h₃, h₄, h₅⟩ := books
      have hlength : (s.lives ++ [t - s.born]).length = s.lives.length + 1 := List.length_append
      refine .test rfl rfl ⟨?_, ?_, ?_, ?_, ?_⟩ (Nat.succ_le_of_lt turn) ?_
      · simp only [hlength, h₁, FnPc.counted]
        simp
      · simp only [statuses_append, h₂]
      · intro l hl
        rcases List.mem_append.1 hl with hl | hl
        · exact h₃ l hl
        · obtain rfl := List.mem_singleton.1 hl
          omega
      · simp only [hlength]
        omega
      · simp only [hlength, h₅]
        congr 1
        omega
      · simp only [List.sum_append, List.sum_cons, List.sum_nil]
        omega
  | report pc child books turn elapsed =>
    rw [pc] at hs
    cases hs
    obtain ⟨h₁, h₂, h₃, h₄, h₅⟩ := books
    refine .returned (s.i - s.lives.length) (s.clock - s.start_time) rfl child ?_ h₃ ?_ ?_
    · simp only
      omega
    · simp only
      omega
    · simp only [h₁, h₂, h₅]
      simp
  | returned errors real pc =>
    rw [pc] at hs
    cases hs

theorem Inv.child (h : Inv a m s) (hs : stepChild s = some s') : Inv a m s' := by
  unfold stepChild at hs
  cases h with
  | wait c pc child books turn elapsed born shares memory lived =>
    simp only [child] at hs
    obtain ⟨cpc, own⟩ := c
    obtain ⟨h₁, h₂, h₃, h₄, h₅⟩ := books
    cases cpc with
    | increment =>
      cases hs
      cases own with
      | none =>
        have hshares : m.shares = true := shares.1 rfl
        refine .wait ⟨.times, none⟩ pc rfl ⟨?_, h₂, h₃, h₄, h₅⟩ turn elapsed born shares memory trivial
        simp only [increment, h₁, hshares, if_true, FnPc.counted]
        push_cast
        ring
      | some g =>
        have hshares : m.shares = false := by simpa using shares
        refine .wait ⟨.times, some { g with counter := g.counter + 1 }⟩ pc rfl ⟨?_, h₂, h₃, h₄, h₅⟩ turn elapsed born
          (by simp [hshares]) memory trivial
        simpa [increment, hshares] using h₁
    | times =>
      cases hs
      exact .wait ⟨.exit s.clock, own⟩ pc rfl ⟨h₁, h₂, h₃, h₄, h₅⟩ turn elapsed born shares memory ⟨born, le_rfl⟩
    | exit t =>
      cases hs
      refine .wait ⟨.ended t _, own⟩ pc rfl ⟨h₁, h₂, h₃, h₄, h₅⟩ turn elapsed born shares memory ⟨lived, ?_⟩
      rw [memory]
    | ended t status => cases hs
  | start _ child | test _ child | stamp _ child | create _ child | report _ child | returned _ _ _ child =>
    simp only [child] at hs
    cases hs

/-! ## Runs -/

def FnPc.left : FnPc → ℕ
  | .increment => 3
  | .times => 2
  | .exit _ => 1
  | .ended _ _ => 0

/-- The statements that are left. -/
def left (a : Args) (s : State) : ℕ :=
  match s.pc with
  | .start => 7 * a.n.toNat + 3
  | .test => 7 * (a.n.toNat - s.i) + 2
  | .stamp => 7 * (a.n.toNat - s.i) + 1
  | .create => 7 * (a.n.toNat - s.i)
  | .wait => 7 * (a.n.toNat - s.i) - 4 + (s.child.elim 0 fun c => c.pc.left)
  | .report => 1
  | .returned _ | .overflow => 0

theorem left_stepMain (hargs : a.argc = 3) (hm : methodOf a.argv1.1 = some m) (h : Inv a m s) {created : Bool}
    (hs : stepMain a created s = some s') : left a s' + 1 ≤ left a s := by
  unfold stepMain at hs
  cases h with
  | start pc =>
    rw [pc] at hs
    simp only [hargs, ne_eq, not_true_eq_false, if_false, if_pos (length_of_methodOf hm)] at hs
    cases hs
    simp [left, pc]
  | test pc child books turn =>
    rw [pc] at hs
    cases hs
    by_cases hlt : (s.i : ℤ) < a.n
    · simp [left, pc, hlt]
    · simp [left, pc, hlt]
  | stamp pc child books turn =>
    rw [pc] at hs
    cases hs
    simp [left, pc]
  | create pc child books turn =>
    rw [pc] at hs
    simp only [hm] at hs
    cases hs
    unfold create
    split
    · simp [left, pc, FnPc.left]
      omega
    · simp [left, pc]
      omega
  | wait c pc child books turn =>
    rw [pc] at hs
    simp only [child] at hs
    obtain ⟨cpc, own⟩ := c
    cases cpc with
    | increment | times | exit t => cases hs
    | ended t status =>
      cases hs
      simp [left, pc, child, FnPc.left]
      omega
  | report pc =>
    rw [pc] at hs
    cases hs
    simp [left, pc]
  | returned errors real pc =>
    rw [pc] at hs
    cases hs

theorem left_stepChild (h : Inv a m s) (hs : stepChild s = some s') : left a s' + 1 ≤ left a s := by
  unfold stepChild at hs
  cases h with
  | wait c pc child =>
    simp only [child] at hs
    obtain ⟨cpc, own⟩ := c
    cases cpc with
    | increment =>
      cases hs
      unfold increment
      split <;> simp [left, pc, child, FnPc.left]
    | times | exit t =>
      cases hs
      simp [left, pc, child, FnPc.left]
    | ended t status => cases hs
  | start _ child | test _ child | stamp _ child | create _ child | report _ child | returned _ _ _ child =>
    simp only [child] at hs
    cases hs

theorem Inv.step (hargs : a.argc = 3) (hm : methodOf a.argv1.1 = some m) (h : Inv a m s) {act : Act}
    (hs : next a s act = some s') : Inv a m s' ∧ left a s' + (if act.statement then 1 else 0) ≤ left a s := by
  cases act with
  | tick d =>
    cases hs
    exact ⟨h.tick d, le_rfl⟩
  | main created => exact ⟨h.main hargs hm hs, left_stepMain hargs hm h hs⟩
  | child => exact ⟨h.child hs, left_stepChild h hs⟩

end Steps

/-! One child by vfork, which counts in the memory of its parent and lives for 300 ticks: 44 of them are added. -/

end Sysopy.Children
