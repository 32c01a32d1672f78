/-
A main thread that joins the threads of a pool in their order. When a thread passes on the handle of one that
main has joined, what happens is undefined: nothing, or a fault that ends the process. In a run without such a
step the process is its pool, and every run of the pool is one of the process in which main has joined nobody yet.
-/
import Sysopy.Conc.Pool

namespace Sysopy.Conc

/-- A program of `n` threads: the states it starts in, where a thread has ended, and whose handle the next step of a
thread passes on. -/
structure Joining (n : ℕ) (G L α : Type*) where
  program : Program (Fin n) G L α
  init : Pool (Fin n) G L → Prop
  finished : L → Bool
  handle : Fin n → L → Option (Fin n)

namespace Joining

/-- The threads, how many of them main has joined, and whether a fault has ended the process. -/
structure State (n : ℕ) (G L : Type*) where
  pool : Pool (Fin n) G L
  joined : ℕ
  exited : Bool

/-- A thread takes a step, main joins the next thread, or a thread faults. -/
inductive Event (n : ℕ) (α : Type*) where
  | step (p : Fin n) (a : α)
  | join
  | fault (p : Fin n)

variable {n : ℕ} {G L α : Type*} (M : Joining n G L α)

/-- The next step of a thread passes on the handle of a thread that main has joined. -/
def Stale (s : State n G L) (p : Fin n) : Prop := ∃ q ∈ M.handle p (s.pool.procs p), q.val < s.joined

instance (s : State n G L) (p : Fin n) : Decidable (M.Stale s p) :=
  inferInstanceAs (Decidable (∃ q ∈ M.handle p (s.pool.procs p), q.val < s.joined))

/-- One event, in a process that has not exited. -/
def next (s : State n G L) (e : Event n α) : Option (State n G L) :=
  if s.exited then none
  else match e with
    | .step p a => (M.program.next s.pool (p, a)).map fun pool => { s with pool := pool }
    | .join =>
      if h : s.joined < n then
        if M.finished (s.pool.procs ⟨s.joined, h⟩) then some { s with joined := s.joined + 1 } else none
      else none
    | .fault p => if M.Stale s p ∧ M.finished (s.pool.procs p) = false then some { s with exited := true } else none

/-- The threads without main. -/
def threads : System (Pool (Fin n) G L) (Fin n × α) := M.program.system M.init

/-- All runs of the process, from the moment main has created the threads. -/
def system : System (State n G L) (Event n α) :=
  ⟨fun s => M.init s.pool ∧ s.joined = 0 ∧ s.exited = false, M.next⟩

/-- No thread passes on the handle of one that main has joined. -/
def Careful (s : State n G L) : Event n α → Prop
  | .step p _ | .fault p => ¬ M.Stale s p
  | .join => True

/-- Every thread has come to an end. -/
def Ended (s : State n G L) : Prop := s.exited = true ∨ ∀ p, M.finished (s.pool.procs p) = true

section Runs

variable {M} {s s' : State n G L}

/-- Everything an event can be. -/
theorem next_cases {e : Event n α} (h : M.next s e = some s') : s.exited = false ∧
    ((∃ p a t, e = .step p a ∧ M.program.next s.pool (p, a) = some t ∧ s' = { s with pool := t }) ∨
      (∃ hlt : s.joined < n, e = .join ∧ M.finished (s.pool.procs ⟨s.joined, hlt⟩) = true ∧
        s' = { s with joined := s.joined + 1 }) ∨
      ∃ p, e = .fault p ∧ M.Stale s p ∧ M.finished (s.pool.procs p) = false ∧ s' = { s with exited := true }) := by
  unfold next at h
  split at h
  · cases h
  · rename_i hexit
    refine ⟨Bool.eq_false_iff.2 hexit, ?_⟩
    cases e with
    | step p a =>
      obtain ⟨t, ht, rfl⟩ := Option.map_eq_some_iff.1 h
      exact .inl ⟨p, a, t, rfl, ht, rfl⟩
    | join =>
      dsimp only at h
      split at h
      · rename_i hlt
        split at h
        · rename_i hdone
          cases h
          exact .inr (.inl ⟨hlt, rfl, hdone, rfl⟩)
        · cases h
      · cases h
    | fault p =>
      dsimp only at h
      split at h
      · rename_i hfault
        cases h
        exact .inr (.inr ⟨p, rfl, hfault.1, hfault.2, rfl⟩)
      · cases h

/-- The threads of a process are a pool. -/
theorem reachable_threads (h : M.system.Reachable s) : M.threads.Reachable s.pool := by
  refine h.invariant (I := fun s => M.threads.Reachable s.pool) (fun s hs => ?_) (fun s e s' _ hI hstep => ?_)
  · obtain ⟨hinit, -, -⟩ := hs
    exact .init hinit
  · obtain ⟨-, ⟨p, a, t, -, ht, rfl⟩ | ⟨_, -, -, rfl⟩ | ⟨p, -, -, -, rfl⟩⟩ := next_cases hstep
    · exact hI.next ht
    · exact hI
    · exact hI

/-- While main joins nobody, no handle is stale. -/
theorem reachableIf_of_threads {t : Pool (Fin n) G L} (h : M.threads.Reachable t) :
    M.system.ReachableIf M.Careful ⟨t, 0, false⟩ := by
  induction h with
  | init hinit => exact .init ⟨hinit, rfl, rfl⟩
  | @next t t' a _ hstep ih =>
    have hfresh : ¬ M.Stale ⟨t, 0, false⟩ a.1 := by
      rintro ⟨q, -, hq⟩
      exact Nat.not_lt_zero _ hq
    refine ih.next (a := .step a.1 a.2) hfresh ?_
    have hmap : (M.program.next t a).map (fun pool => (⟨pool, 0, false⟩ : State n G L)) = some ⟨t', 0, false⟩ := by
      rw [show M.program.next t a = some t' from hstep, Option.map_some]
    exact hmap

/-- Only a fault ends the process, and that leaves the thread where it was. -/
theorem stale_of_exited (h : M.system.Reachable s) (hexit : s.exited = true) :
    ∃ p, M.Stale s p ∧ M.finished (s.pool.procs p) = false := by
  refine h.invariant (I := fun s => s.exited = true → ∃ p, M.Stale s p ∧ M.finished (s.pool.procs p) = false)
    (fun s hs hexit => ?_) (fun s e s' _ _ hstep hexit => ?_) hexit
  · rw [hs.2.2] at hexit
    cases hexit
  · obtain ⟨hrun, ⟨p, a, t, -, ht, rfl⟩ | ⟨_, -, -, rfl⟩ | ⟨p, -, hstale, hdone, rfl⟩⟩ := next_cases hstep
    · rw [hrun] at hexit
      cases hexit
    · rw [hrun] at hexit
      cases hexit
    · exact ⟨p, hstale, hdone⟩

end Runs

end Joining

end Sysopy.Conc
