/-
Processes with signal handlers. A process runs its main code or the newest of its handlers; a signal is pending
at a process from the call that sends it until its handler starts, is blocked while its handler runs, and is
handled before the main code goes on. Two processes that signal each other make a system.
-/
import Sysopy.Conc.System

namespace Sysopy.Conc

/-- How signals are kept and delivered: the number pending after one more is sent, and the signals that are
delivered before a given one. -/
structure Delivery (Sig : Type*) where
  post : ℕ → ℕ
  before : Sig → List Sig

/-- Standard signals: one that is pending is not queued again. -/
def Delivery.standard (Sig : Type*) : Delivery Sig := ⟨fun _ => 1, fun _ => []⟩

/-- A process: its variables, where its main code is, the handlers that run with the newest first, and how many
of each signal are pending. -/
structure Process (Sig V M F : Type*) where
  vars : V
  main : M
  frames : List (Sig × F)
  pending : Sig → ℕ

/-- A program: the steps of the main code and of the handler of a signal, each with the signal it sends, if
any. A handler that has returned has no place, and a process that has exited takes no step. -/
structure Code (Sig V M F : Type*) where
  main : V → M → Option (V × M × Option Sig)
  exited : M → Bool
  entry : F
  handler : Sig → V → F → V × Option F × Option Sig

/-- A step of a process: of its main code, of its newest handler, or the start of a handler. -/
inductive Act (Sig : Type*) where
  | main
  | handler
  | start (s : Sig)
  deriving DecidableEq

section Process

variable {Sig V M F : Type*} [DecidableEq Sig]

/-- The handler of the signal is running. -/
def Process.Blocks (p : Process Sig V M F) (s : Sig) : Prop := s ∈ p.frames.map Prod.fst

instance (p : Process Sig V M F) (s : Sig) : Decidable (p.Blocks s) := inferInstanceAs (Decidable (s ∈ _))

/-- No handler runs and no signal is pending. -/
def Process.Quiet (p : Process Sig V M F) : Prop := p.frames = [] ∧ ∀ s, p.pending s = 0

instance [Fintype Sig] (p : Process Sig V M F) : Decidable p.Quiet :=
  haveI : Decidable (p.frames = []) := decidable_of_iff (p.frames.isEmpty = true) List.isEmpty_iff
  inferInstanceAs (Decidable (_ ∧ _))

/-- A signal arrives. -/
def Process.post (D : Delivery Sig) (p : Process Sig V M F) : Option Sig → Process Sig V M F
  | none => p
  | some s => { p with pending := Function.update p.pending s (D.post (p.pending s)) }

/-- The handler of `s` may start: `s` is pending and not blocked, and no signal that goes first is. -/
def Process.MayStart (D : Delivery Sig) (p : Process Sig V M F) (s : Sig) : Prop :=
  0 < p.pending s ∧ ¬ p.Blocks s ∧ ∀ t ∈ D.before s, p.pending t = 0 ∨ p.Blocks t

instance (D : Delivery Sig) (p : Process Sig V M F) (s : Sig) : Decidable (p.MayStart D s) :=
  inferInstanceAs (Decidable (_ ∧ _ ∧ ∀ t ∈ _, _))

/-- The process after the start of a handler. -/
def Process.start (p : Process Sig V M F) (s : Sig) (entry : F) : Process Sig V M F :=
  { p with frames := (s, entry) :: p.frames, pending := Function.update p.pending s (p.pending s - 1) }

/-- One step of a process and the signal it sends. -/
def Code.step [Fintype Sig] (C : Code Sig V M F) (D : Delivery Sig) (p : Process Sig V M F) :
    Act Sig → Option (Process Sig V M F × Option Sig)
  | .main =>
    if p.Quiet then (C.main p.vars p.main).map fun r => ({ p with vars := r.1, main := r.2.1 }, r.2.2) else none
  | .handler =>
    match p.frames with
    | [] => none
    | (s, f) :: rest =>
      if C.exited p.main then none
      else
        let r := C.handler s p.vars f
        some ({ p with vars := r.1, frames := (r.2.1.map fun f' => (s, f')).toList ++ rest }, r.2.2)
  | .start s => if C.exited p.main = false ∧ p.MayStart D s then some (p.start s C.entry, none) else none

/-- The number of running handlers at some place, or the sum of another weight over them. -/
def Process.load (w : Sig × F → ℕ) (p : Process Sig V M F) : ℕ := (p.frames.map w).sum

/-- Everything a step of a process can be. -/
inductive Code.Steps [Fintype Sig] (C : Code Sig V M F) (D : Delivery Sig) (p : Process Sig V M F) :
    Act Sig → Process Sig V M F → Option Sig → Prop
  | main {v : V} {m : M} {o : Option Sig} (hq : p.Quiet) (h : C.main p.vars p.main = some (v, m, o)) :
      Steps C D p .main { p with vars := v, main := m } o
  | handler {s : Sig} {f : F} {rest : List (Sig × F)} {v : V} {f' : F} {o : Option Sig} (he : C.exited p.main = false)
      (hf : p.frames = (s, f) :: rest) (h : C.handler s p.vars f = (v, some f', o)) :
      Steps C D p .handler { p with vars := v, frames := (s, f') :: rest } o
  | ret {s : Sig} {f : F} {rest : List (Sig × F)} {v : V} {o : Option Sig} (he : C.exited p.main = false)
      (hf : p.frames = (s, f) :: rest) (h : C.handler s p.vars f = (v, none, o)) :
      Steps C D p .handler { p with vars := v, frames := rest } o
  | start {s : Sig} (he : C.exited p.main = false) (h : p.MayStart D s) :
      Steps C D p (.start s) (p.start s C.entry) none

theorem Code.step_cases [Fintype Sig] {C : Code Sig V M F} {D : Delivery Sig} {p p' : Process Sig V M F}
    {a : Act Sig} {o : Option Sig} (h : C.step D p a = some (p', o)) : C.Steps D p a p' o := by
  cases a with
  | main =>
    simp only [step] at h
    split at h
    · rename_i hq
      obtain ⟨⟨v, m, o'⟩, hm, he⟩ := Option.map_eq_some_iff.1 h
      cases he
      exact .main hq hm
    · cases h
  | handler =>
    simp only [step] at h
    split at h
    · cases h
    · rename_i s f rest hf
      split at h
      · cases h
      · rename_i he
        rw [Bool.not_eq_true] at he
        rcases hr : C.handler s p.vars f with ⟨v, f', o'⟩
        rw [hr] at h
        cases f' with
        | some f' =>
          cases h
          exact .handler he hf hr
        | none =>
          cases h
          exact .ret he hf hr
  | start s =>
    simp only [step] at h
    split at h
    · rename_i hc
      cases h
      exact .start hc.1 hc.2
    · cases h

/-! ## What arrives and what starts -/

section Lemmas

variable {D : Delivery Sig} {p : Process Sig V M F} {s t : Sig}

@[simp] theorem Process.post_vars (o : Option Sig) : (p.post D o).vars = p.vars := by cases o <;> rfl

@[simp] theorem Process.post_main (o : Option Sig) : (p.post D o).main = p.main := by cases o <;> rfl

@[simp] theorem Process.post_frames (o : Option Sig) : (p.post D o).frames = p.frames := by cases o <;> rfl

@[simp] theorem Process.post_some_self : (p.post D (some s)).pending s = D.post (p.pending s) :=
  Function.update_self ..

@[simp] theorem Process.load_post (w : Sig × F → ℕ) (o : Option Sig) : (p.post D o).load w = p.load w := by
  rw [load, post_frames, load]

omit [DecidableEq Sig] in
theorem Process.load_of_nil (w : Sig × F → ℕ) (h : p.frames = []) : p.load w = 0 := by
  rw [load, h]
  rfl

omit [DecidableEq Sig] in
theorem Process.load_of_cons (w : Sig × F → ℕ) {f : Sig × F} {rest : List (Sig × F)} (h : p.frames = f :: rest) :
    p.load w = w f + (rest.map w).sum := by
  rw [load, h, List.map_cons, List.sum_cons]

theorem Process.post_some_of_ne (h : t ≠ s) : (p.post D (some s)).pending t = p.pending t :=
  Function.update_of_ne h ..

end Lemmas

end Process

/-! ## Two processes -/

section Duo

variable {Sig V M F W N G : Type*} [DecidableEq Sig] [Fintype Sig]

/-- All interleavings of two processes, each of which signals the other. -/
def Code.duo (A : Code Sig V M F) (B : Code Sig W N G) (D : Delivery Sig)
    (init : Process Sig V M F × Process Sig W N G → Prop) :
    System (Process Sig V M F × Process Sig W N G) (Act Sig ⊕ Act Sig) where
  init := init
  next s
    | .inl a => (A.step D s.1 a).map fun r => (r.1, s.2.post D r.2)
    | .inr b => (B.step D s.2 b).map fun r => (s.1.post D r.2, r.1)

/-- The invariant rule for two processes. -/
theorem Code.duo_invariant {A : Code Sig V M F} {B : Code Sig W N G} {D : Delivery Sig}
    {init : Process Sig V M F × Process Sig W N G → Prop} {I : Process Sig V M F → Process Sig W N G → Prop}
    (h0 : ∀ p q, init (p, q) → I p q)
    (hA : ∀ p q a p' o, I p q → A.step D p a = some (p', o) → I p' (q.post D o))
    (hB : ∀ p q b q' o, I p q → B.step D q b = some (q', o) → I (p.post D o) q')
    {s : Process Sig V M F × Process Sig W N G} (h : (A.duo B D init).Reachable s) : I s.1 s.2 := by
  refine h.invariant (I := fun s => I s.1 s.2) (fun s hs => h0 _ _ hs) ?_
  rintro s (a | b) s' - hI hs
  · obtain ⟨⟨p', o⟩, hp, rfl⟩ := Option.map_eq_some_iff.1 hs
    exact hA _ _ a _ _ hI hp
  · obtain ⟨⟨q', o⟩, hq, rfl⟩ := Option.map_eq_some_iff.1 hs
    exact hB _ _ b _ _ hI hq

end Duo

end Sysopy.Conc
