/-
Programs that read a stream and write another: a transducer with what it writes for each character and at the end,
and one that is running, which may read on before it has written what it has to. What a filter will write from now on
does not depend on how its reads and writes are cut.
-/
import Mathlib.Tactic

namespace Sysopy.Conc

structure Transducer (σ α β : Type*) where
  init : σ
  step : σ → α → σ × List β
  flush : σ → List β

variable {σ α β : Type*}

namespace Transducer

/-- The state behind some input. -/
def after (T : Transducer σ α β) (a : σ) : List α → σ
  | [] => a
  | c :: l => after T (T.step a c).1 l

/-- What is written for some input that goes on. -/
def written (T : Transducer σ α β) (a : σ) : List α → List β
  | [] => []
  | c :: l => (T.step a c).2 ++ written T (T.step a c).1 l

variable (T : Transducer σ α β)

/-- What is written for all that is left of the input. -/
def output (a : σ) (l : List α) : List β := T.written a l ++ T.flush (T.after a l)

theorem output_append (l m : List α) : ∀ a, T.output a (l ++ m) = T.written a l ++ T.output (T.after a l) m := by
  induction l with
  | nil => exact fun a => rfl
  | cons c l ih =>
    intro a
    have htail := ih (T.step a c).1
    simp only [output] at htail
    simp only [output, List.cons_append, written, after, List.append_assoc, htail]

end Transducer

/-- A transducer at work: its state, what it has not written yet, and whether it has seen the end of its input. -/
structure Filter (σ β : Type*) where
  state : σ
  pending : List β
  eof : Bool

namespace Filter

variable (T : Transducer σ α β) (r : Filter σ β)

def start : Filter σ β := ⟨T.init, [], false⟩

/-- A read that has returned `l`; nothing is the end. -/
def feed (l : List α) : Filter σ β :=
  match l with
  | [] => ⟨r.state, r.pending ++ T.flush r.state, true⟩
  | _ :: _ => ⟨T.after r.state l, r.pending ++ T.written r.state l, false⟩

/-- A write of the first `n`. -/
def drop (n : ℕ) : Filter σ β := { r with pending := r.pending.drop n }

/-- All it will write, when this is all it will read. -/
def rest (l : List α) : List β := r.pending ++ if r.eof then [] else T.output r.state l

theorem start_rest (l : List α) : (start T).rest T l = T.output T.init l := rfl

variable {r}

theorem feed_rest {l m : List α} (heof : r.eof = false) (hl : l = [] → m = []) :
    (r.feed T l).rest T m = r.rest T (l ++ m) := by
  cases l with
  | nil => simp [feed, rest, heof, hl rfl, Transducer.output, Transducer.written, Transducer.after]
  | cons c l =>
    have happend := T.output_append (c :: l) m r.state
    simp only [feed, rest, heof, Bool.false_eq_true, if_false, happend, List.append_assoc]

theorem drop_rest (n : ℕ) (l : List α) : r.pending.take n ++ (r.drop n).rest T l = r.rest T l := by
  unfold drop rest
  rw [← List.append_assoc, List.take_append_drop]

theorem rest_eof (heof : r.eof = true) (l : List α) : r.rest T l = r.pending := by
  simp [rest, heof]

/-! ### How long it goes on -/

/-- The end of the input, which it has to read, and its own. -/
def left (r : Filter σ β) : ℕ := if r.eof then 1 else 2

/-- A read of the end brings it nearer to its own, and any other leaves less to read. -/
theorem feed_left (heof : r.eof = false) (l : List α) : (r.feed T l).left < r.left + l.length := by
  unfold left
  cases l with
  | nil => simp [feed, heof]
  | cons c l => simp [feed, heof]

theorem left_pos : 0 < r.left := by
  unfold left
  split <;> decide

end Filter

end Sysopy.Conc
