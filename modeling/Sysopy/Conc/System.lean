/-
Transition systems with executable steps: reachable states, finite runs, the invariant rule and
forward simulation, over arbitrary state and label types.
-/
import Mathlib.Tactic

namespace Sysopy.Conc

/-- For the numerals of `Fin 2`, the index type of two processes. -/
scoped instance neZero_two : NeZero 2 := ⟨by decide⟩

/-- A transition system: the states it may start in, and the step each label takes, if any. -/
structure System (σ α : Type*) where
  init : σ → Prop
  next : σ → α → Option σ

namespace System

variable {σ α τ β : Type*}

/-- The states reached from an initial state by finitely many steps. -/
inductive Reachable (S : System σ α) : σ → Prop
  | init {s : σ} (h : S.init s) : Reachable S s
  | next {s s' : σ} {a : α} (h : Reachable S s) (hs : S.next s a = some s') : Reachable S s'

/-- An invariant: true initially and kept by every step from a reachable state. -/
theorem Reachable.invariant {S : System σ α} {I : σ → Prop} (h0 : ∀ s, S.init s → I s)
    (hn : ∀ s a s', S.Reachable s → I s → S.next s a = some s' → I s') {s : σ} (h : S.Reachable s) : I s := by
  induction h with
  | init h => exact h0 _ h
  | next h hs ih => exact hn _ _ _ h ih hs

/-! ## Runs -/

/-- The state after a list of labels, when every one of them can step. -/
def run (S : System σ α) : σ → List α → Option σ
  | s, [] => some s
  | s, a :: as => (S.next s a).bind fun s' => S.run s' as

theorem run_append (S : System σ α) : ∀ (as bs : List α) (s : σ),
    S.run s (as ++ bs) = (S.run s as).bind fun s' => S.run s' bs
  | [], bs, s => rfl
  | a :: as, bs, s => by
    simp only [List.cons_append, run]
    cases S.next s a with
    | none => rfl
    | some s' => exact S.run_append as bs s'

theorem Reachable.run {S : System σ α} : ∀ (as : List α) {s s' : σ},
    S.Reachable s → S.run s as = some s' → S.Reachable s'
  | [], s, s', h, hr => by cases hr; exact h
  | a :: as, s, s', h, hr => by
    simp only [System.run] at hr
    obtain ⟨s₁, h₁, h₂⟩ := Option.bind_eq_some_iff.1 hr
    exact Reachable.run as (h.next h₁) h₂

/-- A reflexive and transitive relation that every step keeps is kept by every run. -/
theorem run_rel {S : System σ α} {R : σ → σ → Prop} (hrefl : ∀ s, R s s)
    (htrans : ∀ a b c, R a b → R b c → R a c)
    (hn : ∀ s a s', S.Reachable s → S.next s a = some s' → R s s') :
    ∀ (as : List α) {s s' : σ}, S.Reachable s → S.run s as = some s' → R s s'
  | [], s, s', _, hr => by cases hr; exact hrefl s
  | a :: as, s, s', h, hr => by
    simp only [System.run] at hr
    obtain ⟨s₁, h₁, h₂⟩ := Option.bind_eq_some_iff.1 hr
    exact htrans _ _ _ (hn _ _ _ h h₁) (run_rel hrefl htrans hn as (h.next h₁) h₂)

/-- Where every step keeps an invariant, and the steps that are counted use up a part of a weight that no step adds to,
the weight bounds how many of them a run has. -/
theorem run_countP {S : System σ α} {I : σ → Prop} {w : σ → ℕ} {p : α → Bool}
    (hn : ∀ s a s', I s → S.next s a = some s' → I s' ∧ w s' + (if p a then 1 else 0) ≤ w s) :
    ∀ (as : List α) {s s' : σ}, I s → S.run s as = some s' → I s' ∧ as.countP p + w s' ≤ w s
  | [], s, s', hI, hr => by cases hr; exact ⟨hI, by simp⟩
  | a :: as, s, s', hI, hr => by
    simp only [System.run] at hr
    obtain ⟨s₁, h₁, h₂⟩ := Option.bind_eq_some_iff.1 hr
    obtain ⟨hI₁, hw⟩ := hn _ _ _ hI h₁
    obtain ⟨hI', hle⟩ := run_countP hn as hI₁ h₂
    refine ⟨hI', ?_⟩
    rw [List.countP_cons]
    omega

/-- Where every step does, the weight bounds the length of the runs. -/
theorem run_length {S : System σ α} {I : σ → Prop} {w : σ → ℕ}
    (hn : ∀ s a s', I s → S.next s a = some s' → I s' ∧ w s' < w s) (as : List α) {s s' : σ} (hI : I s)
    (hr : S.run s as = some s') : I s' ∧ as.length + w s' ≤ w s := by
  have hcount := run_countP (p := fun _ => true) (fun s a s' hI h => hn s a s' hI h) as hI hr
  rwa [List.countP_true] at hcount

/-! ## Runs under a condition on their steps -/

/-- The states reached by runs all of whose steps meet a condition on the state and the label. -/
inductive ReachableIf (S : System σ α) (ok : σ → α → Prop) : σ → Prop
  | init {s : σ} (h : S.init s) : ReachableIf S ok s
  | next {s s' : σ} {a : α} (h : ReachableIf S ok s) (hok : ok s a) (hs : S.next s a = some s') : ReachableIf S ok s'

theorem ReachableIf.reachable {S : System σ α} {ok : σ → α → Prop} {s : σ} (h : S.ReachableIf ok s) :
    S.Reachable s := by
  induction h with
  | init h => exact .init h
  | next _ _ hs ih => exact ih.next hs

/-- An invariant of these runs. -/
theorem ReachableIf.invariant {S : System σ α} {ok : σ → α → Prop} {I : σ → Prop} (h0 : ∀ s, S.init s → I s)
    (hn : ∀ s a s', S.Reachable s → I s → ok s a → S.next s a = some s' → I s') {s : σ} (h : S.ReachableIf ok s) :
    I s := by
  induction h with
  | init h => exact h0 _ h
  | next h hok hs ih => exact hn _ _ _ h.reachable ih hok hs

/-- The state after a list of labels, when every one of them meets the condition and can step. -/
def runIf (S : System σ α) (ok : σ → α → Prop) [∀ s a, Decidable (ok s a)] : σ → List α → Option σ
  | s, [] => some s
  | s, a :: as => if ok s a then (S.next s a).bind fun s' => S.runIf ok s' as else none

theorem ReachableIf.runIf {S : System σ α} {ok : σ → α → Prop} [∀ s a, Decidable (ok s a)] : ∀ (as : List α) {s s' : σ},
    S.ReachableIf ok s → S.runIf ok s as = some s' → S.ReachableIf ok s'
  | [], s, s', h, hr => by cases hr; exact h
  | a :: as, s, s', h, hr => by
    simp only [System.runIf] at hr
    split at hr
    · rename_i hok
      obtain ⟨s₁, h₁, h₂⟩ := Option.bind_eq_some_iff.1 hr
      exact ReachableIf.runIf as (h.next hok h₁) h₂
    · cases hr

/-- A forward simulation of `S` by the abstract system `A`: related initial states, and every step
of `S` is matched by a run of `A` that ends related again. -/
structure Simulates (S : System σ α) (A : System τ β) (R : σ → τ → Prop) : Prop where
  init : ∀ s, S.init s → ∃ t, A.init t ∧ R s t
  next : ∀ s a s' t, S.Reachable s → A.Reachable t → R s t → S.next s a = some s' →
    ∃ bs t', A.run t bs = some t' ∧ R s' t'

/-- A simulation step by step: a run is matched by the run of the matching labels. -/
theorem run_simulates {S : System σ α} {A : System τ β} {R : σ → τ → Prop} {f : α → β}
    (hn : ∀ s a s' t, R s t → S.next s a = some s' → ∃ t', A.next t (f a) = some t' ∧ R s' t') :
    ∀ (as : List α) {s s' : σ} {t : τ}, R s t → S.run s as = some s' → ∃ t', A.run t (as.map f) = some t' ∧ R s' t'
  | [], s, s', t, hR, hr => by cases hr; exact ⟨t, rfl, hR⟩
  | a :: as, s, s', t, hR, hr => by
    simp only [System.run] at hr
    obtain ⟨s₁, h₁, h₂⟩ := Option.bind_eq_some_iff.1 hr
    obtain ⟨t₁, ht₁, hR₁⟩ := hn _ _ _ _ hR h₁
    obtain ⟨t', ht', hR'⟩ := run_simulates hn as hR₁ h₂
    refine ⟨t', ?_, hR'⟩
    rw [List.map_cons, System.run, ht₁]
    exact ht'

/-- Under a simulation every reachable state is related to a reachable abstract state. -/
theorem Simulates.reachable {S : System σ α} {A : System τ β} {R : σ → τ → Prop} (h : Simulates S A R)
    {s : σ} (hs : S.Reachable s) : ∃ t, A.Reachable t ∧ R s t := by
  induction hs with
  | init h₀ =>
    obtain ⟨t, ht, hr⟩ := h.init _ h₀
    exact ⟨t, .init ht, hr⟩
  | next hs hn ih =>
    obtain ⟨t, ht, hr⟩ := ih
    obtain ⟨bs, t', hbs, hr'⟩ := h.next _ _ _ _ hs ht hr hn
    exact ⟨t', Reachable.run bs ht hbs, hr'⟩

end System

end Sysopy.Conc
