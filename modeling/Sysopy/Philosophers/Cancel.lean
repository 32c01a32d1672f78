/-
SIGINT at the table of cw09/zad1: `handler` requests the cancellation of every thread, and main joins them. A
request takes effect at a cancellation point: `usleep`, `pthread_cond_wait`, and perhaps `printf`. A thread
cancelled in the wait takes the mutex again and runs `cleanup`. The handler is taken once, as `signal` of System V
installs it; a second SIGINT would end the process.
-/
import Sysopy.Philosophers.Exclusion

namespace Sysopy.Philosophers

open Sysopy.Conc

variable {N : ℕ}

/-! ## The process -/

/-- The two calls of `usleep` in `philo`. -/
inductive Rest
  | beforeUse
  | beforePutBack
  deriving DecidableEq, Repr

/-- Where the thread of a philosopher is, with the places at which it can be cancelled. -/
inductive Place
  /-- In front of `usleep`. -/
  | usleep (r : Rest)
  /-- Inside `usleep`. -/
  | asleep (r : Rest)
  /-- In `use` or `put_back`, from their `pthread_mutex_lock` on. -/
  | inside (pc : Pc)
  | printf
  /-- Cancelled inside `pthread_cond_wait`, which waits for the mutex. -/
  | cancelledWait
  | cleanup
  | ended
  deriving DecidableEq, Repr

structure Process (N : ℕ) where
  shared : Shared N
  places : Fin N → Place
  /-- The threads whose cancellation has been requested. -/
  cancelled : Fin N → Bool
  /-- The `i` of the loop in `handler`, once SIGINT has arrived. -/
  handler : Option ℕ
  /-- The `i` of main's loop over `pthread_join`. -/
  joined : ℕ

/-- The call after a sleep. -/
def Rest.next : Rest → Pc
  | .beforeUse => .thinking
  | .beforePutBack => .eating

/-- Where `philo` is after a step of `use` or `put_back`. A `pthread_cond_wait` that begins with a request pending acts
on it. -/
def Place.after (pending : Bool) : Pc → Place
  | .eating => .printf
  | .thinking => .usleep .beforeUse
  | .blocked => if pending then .cancelledWait else .inside .blocked
  | pc => .inside pc

/-- One step of the thread of philosopher `i`. A request that arrives inside a cancellation point takes effect there
when `acts`. -/
def thread (i : Fin N) (spurious acts pending : Bool) (g : Shared N) : Place → Option (Shared N × Place)
  | .usleep r => some (g, if pending then .ended else .asleep r)
  | .asleep r => some (g, if pending ∧ acts then .ended else .inside r.next)
  | .inside pc =>
    if pc = .blocked ∧ pending ∧ acts then some (g, .cancelledWait)
    else (philo i g pc spurious).map fun r => (r.1, .after pending r.2)
  | .printf => some (g, if pending ∧ acts then .ended else .usleep .beforePutBack)
  | .cancelledWait => (lock g i).map (·, .cleanup)
  | .cleanup => some (unlock g, .ended)
  | .ended => none

/-- A step of a thread, the arrival of SIGINT, a turn of the loop in `handler`, or one of main's loop. -/
inductive Act (N : ℕ)
  | thread (i : Fin N) (spurious acts : Bool)
  | sigint
  | cancel
  | join
  deriving DecidableEq

/-- `pthread_cancel(threads[k])` -/
def pthreadCancel (s : Process N) (k : Fin N) : Process N :=
  { s with cancelled := Function.update s.cancelled k true, handler := some (k + 1) }

def next (s : Process N) : Act N → Option (Process N)
  | .thread i spurious acts =>
    (thread i spurious acts (s.cancelled i) s.shared (s.places i)).map fun r =>
      { s with shared := r.1, places := Function.update s.places i r.2 }
  | .sigint => if s.handler = none then some { s with handler := some 0 } else none
  | .cancel =>
    match s.handler with
    | some k => if h : k < N then some (pthreadCancel s ⟨k, h⟩) else none
    | none => none
  | .join =>
    if h : s.joined < N then
      if s.places ⟨s.joined, h⟩ = .ended then some { s with joined := s.joined + 1 } else none
    else none

/-- All runs of the program from the creation of the threads on. -/
def process (N : ℕ) : System (Process N) (Act N) where
  init s := s = ⟨⟨fun _ => .THINK, none, fun _ => false⟩, fun _ => .usleep .beforeUse, fun _ => false, none, 0⟩
  next := next

/-! ## What a step does -/

/-- Everything a step can be. -/
inductive Steps (s : Process N) : Process N → Prop
  | thread {i : Fin N} (spurious acts : Bool) {g : Shared N} {x : Place}
      (h : thread i spurious acts (s.cancelled i) s.shared (s.places i) = some (g, x)) :
      Steps s { s with shared := g, places := Function.update s.places i x }
  | sigint (h : s.handler = none) : Steps s { s with handler := some 0 }
  | cancel (k : Fin N) (h : s.handler = some k.val) : Steps s (pthreadCancel s k)
  | join (i : Fin N) (hi : s.joined = i) (h : s.places i = .ended) : Steps s { s with joined := s.joined + 1 }

theorem steps_of_next {s s' : Process N} {a : Act N} (h : next s a = some s') : Steps s s' := by
  cases a with
  | thread i spurious acts =>
    obtain ⟨⟨g, x⟩, hx, rfl⟩ := Option.map_eq_some_iff.1 h
    exact .thread spurious acts hx
  | sigint =>
    simp only [next] at h
    split at h
    · rename_i hnone
      cases h
      exact .sigint hnone
    · cases h
  | cancel =>
    simp only [next] at h
    split at h
    · rename_i k hk
      split at h
      · rename_i hlt
        cases h
        exact .cancel ⟨k, hlt⟩ hk
      · cases h
    · cases h
  | join =>
    simp only [next] at h
    split at h
    · rename_i hlt
      split at h
      · rename_i hended
        cases h
        exact .join ⟨s.joined, hlt⟩ rfl hended
      · cases h
    · cases h

/-! ## Cancellation takes threads away -/

/-- Where the thread is at the table without cancellation. A thread that has ended stands still outside its critical
sections. -/
def Place.Matches : Place → Pc → Prop
  | .usleep r, pc | .asleep r, pc => pc = r.next
  | .inside pc', pc => pc = pc'
  | .printf, pc => pc = .eating
  | .cancelledWait, pc => pc = .blocked
  | .cleanup, pc => pc = .useTest
  | .ended, pc => pc = .thinking ∨ pc = .eating ∨ pc = .blocked

/-- The shared variables agree but for the signals of threads that have ended. -/
structure Agree (live : Fin N → Prop) (g g' : Shared N) : Prop where
  states : g'.philoState = g.philoState
  mutex : g'.mutex = g.mutex
  signalled : ∀ i, live i → g'.signalled i = g.signalled i

/-- The process stands where a state of the table without cancellation does. -/
structure Follows (g : Shared N) (places : Fin N → Place) (t : Pool (Fin N) (Shared N) Pc) : Prop where
  agree : Agree (fun i => places i ≠ .ended) g t.shared
  places : ∀ i, (places i).Matches (t.procs i)

section Agree

variable {live live' : Fin N → Prop} {g g' h : Shared N} {i : Fin N} {pc pc' : Pc} {spurious : Bool}

theorem Agree.mono (hg : Agree live g h) (hlive : ∀ i, live' i → live i) : Agree live' g h :=
  ⟨hg.states, hg.mutex, fun i hi => hg.signalled i (hlive i hi)⟩

theorem Agree.unlock (hg : Agree live g h) : Agree live (unlock g) (unlock h) := ⟨hg.states, rfl, hg.signalled⟩

theorem Agree.changePhiloState (hg : Agree live g h) (j : Fin N) :
    Agree live (changePhiloState g j) (changePhiloState h j) := by
  unfold Philosophers.changePhiloState
  rw [hg.states]
  split
  · refine ⟨rfl, hg.mutex, fun i hi => ?_⟩
    by_cases hij : i = j
    · subst hij
      simp
    · simp only [Function.update_of_ne hij]
      exact hg.signalled i hi
  · exact hg

theorem Agree.lock (hg : Agree live g h) (hl : lock g i = some g') : ∃ h', lock h i = some h' ∧ Agree live g' h' := by
  obtain ⟨hm, rfl⟩ := lock_eq_some.1 hl
  exact ⟨_, lock_eq_some.2 ⟨hg.mutex.trans hm, rfl⟩, hg.states, rfl, hg.signalled⟩

/-- A step of a thread depends on what the shared variables agree about. -/
theorem Agree.philo (hg : Agree live g h) (hi : live i) (hp : philo i g pc spurious = some (g', pc')) :
    ∃ h', philo i h pc spurious = some (h', pc') ∧ Agree live g' h' := by
  cases pc <;> simp only [Philosophers.philo, use, putBack, Option.some.injEq, Prod.mk.injEq] at hp
  case thinking | eating =>
    obtain ⟨g₁, hl, he⟩ := Option.map_eq_some_iff.1 hp
    cases he
    obtain ⟨h', hl', hg'⟩ := hg.lock hl
    exact ⟨h', by simp only [Philosophers.philo, use, putBack, hl', Option.map_some], hg'⟩
  case blocked =>
    split at hp
    · rename_i hwake
      obtain ⟨g₁, hl, he⟩ := Option.map_eq_some_iff.1 hp
      cases he
      obtain ⟨h', hl', hg'⟩ := hg.lock hl
      rw [← hg.signalled i hi] at hwake
      exact ⟨h', by simp only [Philosophers.philo, use, if_pos hwake, hl', Option.map_some], hg'⟩
    · cases hp
  case useSet | putSet =>
    obtain ⟨rfl, rfl⟩ := hp
    exact ⟨_, rfl, by simp only [hg.states], hg.mutex, hg.signalled⟩
  case useChange | putLeft | putRight =>
    obtain ⟨rfl, rfl⟩ := hp
    exact ⟨_, rfl, hg.changePhiloState _⟩
  case useTest =>
    obtain ⟨rfl, rfl⟩ := hp
    exact ⟨h, by simp only [Philosophers.philo, use, hg.states], hg⟩
  case useWait =>
    obtain ⟨rfl, rfl⟩ := hp
    refine ⟨_, rfl, hg.states, rfl, fun j hj => ?_⟩
    by_cases hij : j = i
    · subst hij
      simp
    · simp only [Function.update_of_ne hij]
      exact hg.signalled j hj
  case usePop | putPop =>
    obtain ⟨rfl, rfl⟩ := hp
    exact ⟨_, rfl, hg.unlock⟩

end Agree

/-! ## The simulation -/

section Follows

variable {g g' h : Shared N} {places : Fin N → Place} {t : Pool (Fin N) (Shared N) Pc} {i : Fin N} {x : Place} {pc : Pc}

/-- One thread has moved on, here and at the table. -/
theorem Follows.move (hf : Follows g places t) (hg : Agree (fun j => j ≠ i ∧ places j ≠ .ended) g' h)
    (hi : x ≠ .ended → h.signalled i = g'.signalled i) (hx : x.Matches pc) :
    Follows g' (Function.update places i x) ⟨h, Function.update t.procs i pc⟩ := by
  refine ⟨⟨hg.states, hg.mutex, fun j hj => ?_⟩, fun j => ?_⟩
  · by_cases hij : j = i
    · subst hij
      rw [Function.update_self] at hj
      exact hi hj
    · rw [Function.update_of_ne hij] at hj
      exact hg.signalled j ⟨hij, hj⟩
  · by_cases hij : j = i
    · subst hij
      simpa using hx
    · simpa only [Function.update_of_ne hij] using hf.places j

/-- One thread has moved on to a place that is the same at the table. -/
theorem Follows.stay (hf : Follows g places t) (hi : places i ≠ .ended) (hx : x.Matches (t.procs i)) :
    Follows g (Function.update places i x) t := by
  have hmove := hf.move (h := t.shared) (hf.agree.mono fun j hj => hj.2) (fun _ => hf.agree.signalled i hi) hx
  rwa [Function.update_eq_self] at hmove

/-- One step of `philo`. -/
theorem Follows.philo {g' : Shared N} {pc' : Pc} {spurious : Bool} (hf : Follows g places t) (hi : places i ≠ .ended)
    (hpc : t.procs i = pc) (hp : philo i g pc spurious = some (g', pc')) (hx : x.Matches pc') :
    ∃ t', (table N).next t (i, spurious) = some t' ∧ Follows g' (Function.update places i x) t' := by
  obtain ⟨h, hp', hg⟩ := hf.agree.philo hi hp
  refine ⟨_, Program.next_eq_some.2 ⟨h, pc', by rw [hpc]; exact hp', rfl⟩, ?_⟩
  exact hf.move (hg.mono fun j hj => hj.2) (fun _ => hg.signalled i hi) hx

theorem matches_after {pending : Bool} {pc' : Pc} : (Place.after pending pc').Matches pc' := by
  cases pc' <;> cases pending <;> rfl

theorem matches_ended_next (r : Rest) : Place.ended.Matches r.next := by
  cases r
  · exact .inl rfl
  · exact .inr (.inl rfl)

/-- A thread that has run `cleanup` stands at the table in the wait again, or behind `use`. -/
theorem Follows.cleanup (hf : Follows g places t) (hx : places i = .cleanup) :
    ∃ as t', (table N).run t as = some t' ∧ Follows (unlock g) (Function.update places i .ended) t' := by
  have hpc : t.procs i = .useTest := by
    have hmatch := hf.places i
    rwa [hx] at hmatch
  have hagree : Agree (fun j => j ≠ i ∧ places j ≠ .ended) (unlock g) (unlock t.shared) :=
    hf.agree.unlock.mono fun j hj => hj.2
  by_cases hw : t.shared.philoState i = .WAIT
  · -- it waits on, as if it had woken up by itself
    have hblocked : Follows (unlock g) (Function.update places i .ended)
        ⟨{ unlock t.shared with signalled := Function.update t.shared.signalled i false },
          Function.update t.procs i .blocked⟩ := by
      refine hf.move ⟨hagree.states, rfl, fun j hj => ?_⟩ (fun hx => absurd rfl hx) (.inr (.inr rfl))
      simp only [Function.update_of_ne hj.1]
      exact hagree.signalled j hj
    refine ⟨[(i, false), (i, false)], _, ?_, hblocked⟩
    simp [System.run, table, Program.system, Program.next, Philosophers.philo, use, hpc, hw]
  · have heating : Follows (unlock g) (Function.update places i .ended)
        ⟨unlock t.shared, Function.update t.procs i .eating⟩ :=
      hf.move hagree (fun hx => absurd rfl hx) (.inr (.inl rfl))
    refine ⟨[(i, false), (i, false)], _, ?_, heating⟩
    simp [System.run, table, Program.system, Program.next, Philosophers.philo, use, hpc, hw]

/-- Every step of a thread is a run at the table. -/
theorem Follows.thread {spurious acts pending : Bool} {g' : Shared N} (hf : Follows g places t)
    (h : thread i spurious acts pending g (places i) = some (g', x)) :
    ∃ as t', (table N).run t as = some t' ∧ Follows g' (Function.update places i x) t' := by
  have hmatch := hf.places i
  have hone : ∀ {spurious : Bool} {t' : Pool (Fin N) (Shared N) Pc}, (table N).next t (i, spurious) = some t' →
      (table N).run t [(i, spurious)] = some t' := fun hn => by simp only [System.run, hn, Option.bind_some]
  have hstay : places i ≠ .ended → x.Matches (t.procs i) →
      ∃ as t', (table N).run t as = some t' ∧ Follows g (Function.update places i x) t' :=
    fun hi hx => ⟨[], t, rfl, hf.stay hi hx⟩
  cases hx : places i with
  | usleep r =>
    rw [hx] at h hmatch hstay
    obtain ⟨rfl, rfl⟩ := Prod.mk.inj (Option.some.inj h)
    refine hstay (by rintro ⟨⟩) ?_
    rw [show t.procs i = r.next from hmatch]
    split
    · exact matches_ended_next r
    · rfl
  | asleep r =>
    rw [hx] at h hmatch hstay
    obtain ⟨rfl, rfl⟩ := Prod.mk.inj (Option.some.inj h)
    refine hstay (by rintro ⟨⟩) ?_
    rw [show t.procs i = r.next from hmatch]
    split
    · exact matches_ended_next r
    · rfl
  | inside pc =>
    rw [hx] at h hmatch hstay
    simp only [Philosophers.thread] at h
    split at h
    · rename_i hblocked
      obtain ⟨rfl, rfl⟩ := Prod.mk.inj (Option.some.inj h)
      exact hstay (by rintro ⟨⟩) (hmatch.trans hblocked.1)
    · obtain ⟨⟨g₁, pc'⟩, hp, he⟩ := Option.map_eq_some_iff.1 h
      cases he
      obtain ⟨t', hn, hf'⟩ := hf.philo (by rw [hx]; rintro ⟨⟩) hmatch hp matches_after
      exact ⟨_, t', hone hn, hf'⟩
  | printf =>
    rw [hx] at h hmatch hstay
    obtain ⟨rfl, rfl⟩ := Prod.mk.inj (Option.some.inj h)
    refine hstay (by rintro ⟨⟩) ?_
    rw [show t.procs i = .eating from hmatch]
    split
    · exact .inr (.inl rfl)
    · rfl
  | cancelledWait =>
    rw [hx] at h hmatch
    obtain ⟨g₁, hl, he⟩ := Option.map_eq_some_iff.1 h
    cases he
    have hp : Philosophers.philo i g .blocked true = some (g', .useTest) := by
      simp [Philosophers.philo, use, hl]
    obtain ⟨t', hn, hf'⟩ := hf.philo (x := .cleanup) (by rw [hx]; rintro ⟨⟩) hmatch hp rfl
    exact ⟨_, t', hone hn, hf'⟩
  | cleanup =>
    rw [hx] at h
    cases h
    exact hf.cleanup hx
  | ended =>
    rw [hx] at h
    cases h

end Follows

/-- Cancellation only takes threads away from the table: every run of the process is one of the table in which the
threads that have ended stand still. -/
theorem process_simulates : (process N).Simulates (table N) fun s t => Follows s.shared s.places t where
  init s hs := by
    cases hs
    exact ⟨⟨⟨fun _ => .THINK, none, fun _ => false⟩, fun _ => .thinking⟩, ⟨rfl, fun _ => rfl⟩,
      ⟨rfl, rfl, fun _ _ => rfl⟩, fun _ => rfl⟩
  next s a s' t _ _ hf hn := by
    cases steps_of_next hn with
    | thread spurious acts h => exact hf.thread h
    | sigint _ | cancel _ _ | join _ _ _ => exact ⟨[], t, rfl, hf⟩

/-! ## What holds under cancellation -/

/-- `philo` is between its calls of `use` and `put_back`. -/
def Place.Eating (x : Place) : Prop :=
  x = .printf ∨ x = .usleep .beforePutBack ∨ x = .asleep .beforePutBack ∨ x = .inside .eating

theorem matches_eating {x : Place} {pc : Pc} (hx : x.Eating) (h : x.Matches pc) : pc = .eating := by
  rcases hx with rfl | rfl | rfl | rfl <;> exact h

section Safe

variable {s : Process N}

/-- The mutex is held by a thread in a critical section or in `cleanup`; a thread that has ended has given it back. -/
def Place.holds : Place → Bool
  | .inside pc => Philosophers.holds pc
  | .cleanup => true
  | _ => false

theorem matches_holds {x : Place} {pc : Pc} (h : x.Matches pc) : x.holds = holds pc := by
  cases x with
  | usleep r | asleep r =>
    obtain rfl : pc = r.next := h
    cases r <;> rfl
  | inside pc' =>
    obtain rfl : pc = pc' := h
    rfl
  | printf | cancelledWait | cleanup =>
    cases h
    rfl
  | ended => rcases h with rfl | rfl | rfl <;> rfl

theorem reachable_follows (hN : 2 ≤ N) (h : (process N).Reachable s) :
    ∃ t, (table N).Reachable t ∧ Follows s.shared s.places t ∧ Inv t.shared t.procs := by
  obtain ⟨t, ht, hf⟩ := process_simulates.reachable h
  exact ⟨t, ht, hf, reachable_inv hN ht⟩

theorem process_owned (hN : 2 ≤ N) (h : (process N).Reachable s) : Owned Place.holds s.places s.shared.mutex := by
  obtain ⟨t, -, hf, hI⟩ := reachable_follows hN h
  intro p
  rw [matches_holds (hf.places p), hI.mutex p, hf.agree.mutex]

/-- Whoever holds the mutex goes on. -/
theorem holder_goes_on (hN : 2 ≤ N) (h : (process N).Reachable s) {i : Fin N} (hm : s.shared.mutex = some i) :
    (s.places i).holds = true ∧ s.places i ≠ .ended := by
  have hholds := (process_owned hN h i).2 hm
  refine ⟨hholds, ?_⟩
  intro hended
  rw [hended] at hholds
  cases hholds

/-- However the threads are cancelled, no two neighbours are in EAT, a philosopher between `use` and `put_back` is, and
the mutex is held by nobody but a thread that goes on. -/
theorem cancelled_apart (hN : 2 ≤ N) (h : (process N).Reachable s) :
    (∀ i, (s.places i).Eating → s.shared.philoState i = .EAT) ∧
    (∀ i, ¬ (s.shared.philoState i = .EAT ∧ s.shared.philoState (right i) = .EAT)) ∧
    ∀ i, s.shared.mutex = some i → (s.places i).holds = true ∧ s.places i ≠ .ended := by
  obtain ⟨t, -, hf, hI⟩ := reachable_follows hN h
  rw [← hf.agree.states]
  refine ⟨fun i hi => ?_, hI.apart, fun i => holder_goes_on hN h⟩
  have hstate := hI.states i
  rwa [matches_eating hi (hf.places i)] at hstate

/-- Philosopher 0 of five has returned from `use` when the cancellation of all five begins. -/
theorem cancelled_apart_five : ∃ s, (process 5).run ⟨⟨fun _ => .THINK, none, fun _ => false⟩,
      fun _ => .usleep .beforeUse, fun _ => false, none, 0⟩
    (List.replicate 7 (.thread 0 false false) ++ [.sigint, .cancel, .thread 0 false false]) = some s ∧
    s.cancelled 0 = true ∧ s.shared.philoState 0 = .EAT := by
  refine ⟨_, rfl, rfl, ?_⟩
  exact (cancelled_apart (by decide) (System.Reachable.run (List.replicate 7 (.thread 0 false false) ++
    [.sigint, .cancel, .thread 0 false false]) (.init (S := process 5) rfl) rfl)).1 0 (.inr (.inl rfl))

end Safe

end Sysopy.Philosophers
