/-
What the pipeline of cw05/zad1 does in every order of its calls, whatever tr and fold make of their input. The
invariant says which descriptors are open at each place, and that what is on the terminal and what fold will still make
of the pipe and of the rest of tr's output is always the same text.
-/
import Sysopy.Pipeline.Model

namespace Sysopy.Pipeline

open Sysopy.Conc

variable {σ τ : Type*} {tr : Transducer σ Char Char} {fold : Transducer τ Char Char} {cap : ℕ} {input : List Char}
  {s s' : State σ τ}

/-! ## Open descriptors -/

def Parent.table : Parent σ → Descriptors
  | .start | .pipe => .terminal
  | .fork | .close => ⟨some .stdin, some .stdout, some (.readEnd .fd1), some (.writeEnd .fd1), none, none⟩
  | .dup2 => ⟨some .stdin, some .stdout, none, some (.writeEnd .fd1), none, none⟩
  | .execl | .tr _ => ⟨some .stdin, some (.writeEnd .fd1), none, some (.writeEnd .fd1), none, none⟩
  | .ended _ => .closed

def Child.table : Child τ → Descriptors
  | .unborn | .ended _ => .closed
  | .close => ⟨some .stdin, some .stdout, some (.readEnd .fd1), some (.writeEnd .fd1), none, none⟩
  | .dup2 => ⟨some .stdin, some .stdout, some (.readEnd .fd1), none, none, none⟩
  | .pipe => ⟨some (.readEnd .fd1), some .stdout, some (.readEnd .fd1), none, none, none⟩
  | .execl | .fold _ =>
    ⟨some (.readEnd .fd1), some .stdout, some (.readEnd .fd1), none, some (.readEnd .fd2), some (.writeEnd .fd2)⟩

/-- The parent has the write end open. -/
def Parent.writes : Parent σ → Bool
  | .fork | .close | .dup2 | .execl | .tr _ => true
  | _ => false

/-- The child has the read end open. -/
def Child.reads : Child τ → Bool
  | .close | .dup2 | .pipe | .execl | .fold _ => true
  | _ => false

/-- The child is on its way to fold. -/
def Child.before : Child τ → Bool
  | .close | .dup2 | .pipe | .execl => true
  | _ => false

/-- The parent has not become tr yet, or ended before. -/
def Parent.before : Parent σ → Bool
  | .tr _ | .ended _ => false
  | _ => true

/-- The child has not been created yet. -/
def Parent.alone : Parent σ → Bool
  | .start | .pipe | .fork => true
  | _ => false

theorem Parent.ended_of {p : Parent σ} (hbefore : p.before = false) (hwrites : p.writes = false) :
    ∃ e, p = .ended e := by
  cases p with
  | ended e => exact ⟨e, rfl⟩
  | tr r => cases hwrites
  | _ => cases hbefore

theorem Parent.alone_of {p : Parent σ} (hbefore : p.before = true) (hwrites : p.writes = false) : p.alone = true := by
  cases p with
  | start | pipe | fork => rfl
  | close | dup2 | execl => cases hwrites
  | _ => cases hbefore

/-! ## What is still to come -/

/-- What tr will still write into the pipe. -/
def future (tr : Transducer σ Char Char) (input : List Char) (s : State σ τ) : List Char :=
  match s.parent with
  | .tr r => r.rest tr s.streams.stdin
  | .ended _ => []
  | _ => tr.output tr.init input

/-- What tr writes in all; nothing if it is not run. -/
def trOutput (tr : Transducer σ Char Char) (input : List Char) (s : State σ τ) : List Char :=
  match s.parent with
  | .ended (.returned _) => []
  | _ => tr.output tr.init input

theorem future_of_before (hb : s.parent.before = true) :
    future tr input s = tr.output tr.init input ∧ trOutput tr input s = tr.output tr.init input := by
  unfold future trOutput
  cases hp : s.parent with
  | tr r | ended e =>
    rw [hp] at hb
    cases hb
  | _ => exact ⟨rfl, rfl⟩

/-- What the child makes of what comes through the pipe. -/
def Child.rest (fold : Transducer τ Char Char) (c : Child τ) (l : List Char) : List Char :=
  match c with
  | .fold r => r.rest fold l
  | .ended _ => []
  | _ => fold.output fold.init l

structure Inv (tr : Transducer σ Char Char) (fold : Transducer τ Char Char) (input : List Char) (s : State σ τ) :
    Prop where
  parentFds : s.parentFds = s.parent.table
  childFds : s.childFds = s.child.table
  /-- Nothing has gone through before tr runs. -/
  fresh : s.parent.before = true → s.streams = ⟨input, [], []⟩ ∧ s.child ≠ .ended .exited ∧
    ∀ r, s.child = .fold r → r = .start fold
  born : s.parent.alone = true → s.child = .unborn
  unborn : s.child = .unborn → s.parent.alone = true ∨ s.parent = .ended (.returned 0)
  /-- Without fold the terminal shows nothing. -/
  quiet : (∀ r, s.child ≠ .fold r) → s.child ≠ .ended .exited → s.streams.stdout = []
  child : ∀ e, s.child = .ended e → e = .exited ∨ e = .returned 0
  parent : ∀ e, s.parent = .ended e → e = .exited ∨ e = .returned 0 ∨ (e = .killed ∧ s.child = .ended (.returned 0))
  /-- fold has seen the end of the pipe. -/
  eof : (∃ r, s.child = .fold r ∧ r.eof = true) ∨ s.child = .ended .exited →
    (∃ e, s.parent = .ended e) ∧ s.streams.pipe = []
  flow : s.child ≠ .unborn → s.child ≠ .ended (.returned 0) →
    s.streams.stdout ++ s.child.rest fold (s.streams.pipe ++ future tr input s) =
      fold.output fold.init (trOutput tr input s)

theorem Inv.open_writeEnd (hI : Inv tr fold input s) (h : s.open (.writeEnd .fd1) = false) :
    s.parent.writes = false := by
  rw [State.open, hI.parentFds, Bool.or_eq_false_iff] at h
  obtain ⟨hparent, -⟩ := h
  cases hp : s.parent <;> rw [hp] at hparent <;> first | rfl | cases hparent

theorem Inv.open_readEnd (hI : Inv tr fold input s) (h : s.open (.readEnd .fd1) = false) : s.child.reads = false := by
  rw [State.open, hI.childFds, Bool.or_eq_false_iff] at h
  obtain ⟨-, hchild⟩ := h
  cases hc : s.child <;> rw [hc] at hchild <;> first | rfl | cases hchild

theorem init_inv : Inv tr fold input ⟨.start, .terminal, .unborn, .closed, ⟨input, [], []⟩⟩ where
  parentFds := rfl
  childFds := rfl
  fresh _ := ⟨rfl, by rintro ⟨⟩, by rintro r ⟨⟩⟩
  born _ := rfl
  unborn _ := .inl rfl
  quiet _ _ := rfl
  child := by rintro e ⟨⟩
  parent := by rintro e ⟨⟩
  eof := by
    rintro (⟨r, hr, -⟩ | hr)
    · cases hr
    · cases hr
  flow h := absurd rfl h

/-! ## Reads and writes -/

section Streams

variable {n : ℕ} {d : Descriptors} {l : List Char} {streams : Streams}

theorem read_stdin (hd : d.zero = some .stdin) (h : read n d s = some (l, streams)) : ∃ stdin,
    s.streams.stdin = l ++ stdin ∧ streams = { s.streams with stdin := stdin } ∧ (l = [] → stdin = []) := by
  rw [read, hd] at h
  obtain ⟨⟨l₁, p⟩, hread, he⟩ := Option.map_eq_some_iff.1 h
  cases he
  obtain ⟨hbytes, -, -, hend⟩ := Pipe.read_spec hread
  refine ⟨p.bytes, hbytes, rfl, fun hl => ?_⟩
  obtain ⟨hnil, -⟩ := hend hl
  exact (List.append_eq_nil_iff.1 (hbytes.symm.trans hnil)).2

theorem read_pipe (hd : d.zero = some (.readEnd .fd1)) (h : read n d s = some (l, streams)) : ∃ pipe,
    s.streams.pipe = l ++ pipe ∧ streams = { s.streams with pipe := pipe } ∧
      (l = [] → pipe = [] ∧ s.open (.writeEnd .fd1) = false) := by
  rw [read, hd] at h
  obtain ⟨⟨l₁, p⟩, hread, he⟩ := Option.map_eq_some_iff.1 h
  cases he
  obtain ⟨hbytes, -, -, hend⟩ := Pipe.read_spec hread
  refine ⟨p.bytes, hbytes, rfl, fun hl => ?_⟩
  obtain ⟨hnil, hclosed⟩ := hend hl
  exact ⟨(List.append_eq_nil_iff.1 (hbytes.symm.trans hnil)).2, by simpa using hclosed⟩

/-- Everything that a filter can do. -/
inductive FilterStep {υ : Type*} (T : Transducer υ Char Char) (cap : ℕ) (d : Descriptors) (r : Filter υ Char)
    (s : State σ τ) : Streams → Filter υ Char ⊕ Ending → Prop
  | read (n : ℕ) (l : List Char) (streams : Streams) (heof : r.eof = false) (h : read n d s = some (l, streams)) :
      FilterStep T cap d r s streams (.inl (r.feed T l))
  | write (n : ℕ) (streams : Streams) (hpos : 1 ≤ n) (hle : n ≤ r.pending.length)
      (h : write cap (r.pending.take n) d s = some (some streams)) : FilterStep T cap d r s streams (.inl (r.drop n))
  | killed (n : ℕ) (h : write cap (r.pending.take n) d s = some none) :
      FilterStep T cap d r s s.streams (.inr .killed)
  | exit (heof : r.eof = true) (h : r.pending = []) : FilterStep T cap d r s s.streams (.inr .exited)

theorem filterStep_cases {υ : Type*} {T : Transducer υ Char Char} {r : Filter υ Char} {m : Move}
    {x : Filter υ Char ⊕ Ending} (h : filterStep T cap d r s m = some (streams, x)) :
    FilterStep T cap d r s streams x := by
  cases m with
  | call ok => cases h
  | read n =>
    simp only [filterStep] at h
    split at h
    · cases h
    · rename_i heof
      obtain ⟨⟨l, streams'⟩, hread, he⟩ := Option.map_eq_some_iff.1 h
      cases he
      exact .read n l _ (Bool.eq_false_of_not_eq_true heof) hread
  | write n =>
    simp only [filterStep] at h
    split at h
    · rename_i hn
      obtain ⟨w, hwrite, he⟩ := Option.map_eq_some_iff.1 h
      cases w with
      | none =>
        cases he
        exact .killed n hwrite
      | some streams' =>
        cases he
        exact .write n _ hn.1 hn.2 hwrite
    · cases h
  | exit =>
    simp only [filterStep] at h
    split at h
    · rename_i hend
      cases h
      exact .exit hend.1 hend.2
    · cases h

end Streams

/-! ## Steps -/

/-- How many calls the parent can still make, apart from those that its streams are in for. -/
def Parent.left : Parent σ → ℕ
  | .start => 8
  | .pipe => 7
  | .fork => 6
  | .close => 5
  | .dup2 => 4
  | .execl => 3
  | .tr r => r.left
  | .ended _ => 0

def Child.left : Child τ → ℕ
  | .unborn => 7
  | .close => 6
  | .dup2 => 5
  | .pipe => 4
  | .execl => 3
  | .fold r => r.left
  | .ended _ => 0

/-- Everything that the parent can do: a call that only moves its descriptors, a fork or an execl that fails or does
not, or what tr does. -/
inductive ParentStep (tr : Transducer σ Char Char) (cap : ℕ) (s : State σ τ) : State σ τ → Prop
  | moves (p : Parent σ) (d : Descriptors) (hb : s.parent.before = true) (hb' : p.before = true)
      (halone : p.alone = s.parent.alone) (hd : d = p.table) (hleft : p.left < s.parent.left) :
      ParentStep tr cap s { s with parent := p, parentFds := d }
  | returns (hb : s.parent.before = true) : ParentStep tr cap s (s.endParent (.returned 0))
  | forks (hp : s.parent = .fork) :
      ParentStep tr cap s { s with parent := .close, child := .close, childFds := s.parentFds }
  | starts (hp : s.parent = .execl) : ParentStep tr cap s { s with parent := .tr (.start tr) }
  | goes (r : Filter σ Char) (streams : Streams) (x : Filter σ Char ⊕ Ending) (hp : s.parent = .tr r)
      (h : FilterStep tr cap s.parentFds r s streams x) : ParentStep tr cap s (s.parentAfter streams x)

theorem stepParent_cases (hfds : s.parentFds = s.parent.table) {m : Move} (h : stepParent tr 2 cap m s = some s') :
    ParentStep tr cap s s' := by
  cases hp : s.parent with
  | start =>
    cases m <;> simp only [stepParent, hp] at h <;> cases h
    exact .moves _ _ (by rw [hp]; rfl) rfl (by rw [hp]; rfl) (by rw [hfds, hp]; rfl) (by rw [hp]; simp [Parent.left])
  | pipe =>
    cases m <;> simp only [stepParent, hp] at h <;> cases h
    exact .moves _ _ (by rw [hp]; rfl) rfl (by rw [hp]; rfl) (by rw [hfds, hp]; rfl) (by rw [hp]; simp [Parent.left])
  | fork =>
    cases m with
    | call ok =>
      cases ok <;> simp only [stepParent, hp] at h <;> cases h
      · exact .returns (by rw [hp]; rfl)
      · exact .forks hp
    | _ =>
      simp only [stepParent, hp] at h
      cases h
  | close =>
    cases m <;> simp only [stepParent, hp] at h <;> cases h
    exact .moves _ _ (by rw [hp]; rfl) rfl (by rw [hp]; rfl) (by rw [hfds, hp]; rfl) (by rw [hp]; simp [Parent.left])
  | dup2 =>
    cases m <;> simp only [stepParent, hp] at h <;> cases h
    exact .moves _ _ (by rw [hp]; rfl) rfl (by rw [hp]; rfl) (by rw [hfds, hp]; rfl) (by rw [hp]; simp [Parent.left])
  | execl =>
    cases m with
    | call ok =>
      cases ok <;> simp only [stepParent, hp] at h <;> cases h
      · exact .returns (by rw [hp]; rfl)
      · exact .starts hp
    | _ =>
      simp only [stepParent, hp] at h
      cases h
  | tr r =>
    simp only [stepParent, hp] at h
    obtain ⟨⟨streams, x⟩, hstep, rfl⟩ := Option.map_eq_some_iff.1 h
    exact .goes r streams x hp (filterStep_cases hstep)
  | ended e => cases m <;> simp only [stepParent, hp] at h <;> cases h

/-- Everything that the child can do. -/
inductive ChildStep (fold : Transducer τ Char Char) (cap : ℕ) (s : State σ τ) : State σ τ → Prop
  | moves (c : Child τ) (d : Descriptors) (hb : s.child.before = true) (hb' : c.before = true) (hd : d = c.table)
      (hleft : c.left < s.child.left) : ChildStep fold cap s { s with child := c, childFds := d }
  | returns (hc : s.child = .execl) : ChildStep fold cap s (s.endChild (.returned 0))
  | starts (hc : s.child = .execl) : ChildStep fold cap s { s with child := .fold (.start fold) }
  | goes (r : Filter τ Char) (streams : Streams) (x : Filter τ Char ⊕ Ending) (hc : s.child = .fold r)
      (h : FilterStep fold cap s.childFds r s streams x) : ChildStep fold cap s (s.childAfter streams x)

theorem stepChild_cases (hfds : s.childFds = s.child.table) {m : Move} (h : stepChild fold cap m s = some s') :
    ChildStep fold cap s s' := by
  cases hc : s.child with
  | unborn => cases m <;> simp only [stepChild, hc] at h <;> cases h
  | close =>
    cases m <;> simp only [stepChild, hc] at h <;> cases h
    exact .moves _ _ (by rw [hc]; rfl) rfl (by rw [hfds, hc]; rfl) (by rw [hc]; simp [Child.left])
  | dup2 =>
    cases m <;> simp only [stepChild, hc] at h <;> cases h
    exact .moves _ _ (by rw [hc]; rfl) rfl (by rw [hfds, hc]; rfl) (by rw [hc]; simp [Child.left])
  | pipe =>
    cases m <;> simp only [stepChild, hc] at h <;> cases h
    exact .moves _ _ (by rw [hc]; rfl) rfl (by rw [hfds, hc]; rfl) (by rw [hc]; simp [Child.left])
  | execl =>
    cases m with
    | call ok =>
      cases ok <;> simp only [stepChild, hc] at h <;> cases h
      · exact .returns hc
      · exact .starts hc
    | _ =>
      simp only [stepChild, hc] at h
      cases h
  | fold r =>
    simp only [stepChild, hc] at h
    obtain ⟨⟨streams, x⟩, hstep, rfl⟩ := Option.map_eq_some_iff.1 h
    exact .goes r streams x hc (filterStep_cases hstep)
  | ended e => cases m <;> simp only [stepChild, hc] at h <;> cases h

/-! ## Every step keeps the invariant -/

section Steps

/-- What tr does goes into the pipe, and it is killed only where nobody reads that any more. -/
theorem Inv.tr_step (hI : Inv tr fold input s) {r : Filter σ Char} (hp : s.parent = .tr r) {streams : Streams}
    {x : Filter σ Char ⊕ Ending} (h : FilterStep tr cap s.parentFds r s streams x) :
    (∃ r', x = .inl r' ∧ streams.stdout = s.streams.stdout ∧
      streams.pipe ++ r'.rest tr streams.stdin = s.streams.pipe ++ r.rest tr s.streams.stdin) ∨
    (x = .inr .exited ∧ streams = s.streams ∧ r.rest tr s.streams.stdin = []) ∨
    (x = .inr .killed ∧ streams = s.streams ∧ s.child = .ended (.returned 0)) := by
  have hfds := hI.parentFds
  rw [hp] at hfds
  cases h with
  | read n l streams heof hread =>
    rw [hfds] at hread
    obtain ⟨stdin, hbytes, rfl, hend⟩ := read_stdin rfl hread
    refine .inl ⟨_, rfl, rfl, ?_⟩
    rw [Filter.feed_rest tr heof hend, hbytes]
  | write n streams hpos hle hwrite =>
    rw [hfds] at hwrite
    simp only [write, Parent.table] at hwrite
    split at hwrite
    · split at hwrite
      · cases hwrite
        refine .inl ⟨_, rfl, rfl, ?_⟩
        rw [List.append_assoc, Filter.drop_rest]
      · cases hwrite
    · cases hwrite
  | killed n hwrite =>
    rw [hfds] at hwrite
    simp only [write, Parent.table] at hwrite
    split at hwrite
    · split at hwrite <;> cases hwrite
    · rename_i hclosed
      have hreads := hI.open_readEnd (Bool.eq_false_of_not_eq_true hclosed)
      refine .inr (.inr ⟨rfl, rfl, ?_⟩)
      cases hc : s.child with
      | unborn =>
        rcases hI.unborn hc with halone | hended
        · rw [hp] at halone
          cases halone
        · rw [hp] at hended
          cases hended
      | ended e =>
        rcases hI.child e hc with rfl | rfl
        · obtain ⟨⟨e, he⟩, -⟩ := hI.eof (.inr hc)
          rw [hp] at he
          cases he
        · rfl
      | _ =>
        rw [hc] at hreads
        cases hreads
  | exit heof hnil => exact .inr (.inl ⟨rfl, rfl, (Filter.rest_eof tr heof _).trans hnil⟩)

/-- What fold does goes to the terminal; it reads the end of the pipe only when the parent has ended. -/
theorem Inv.fold_step (hI : Inv tr fold input s) {r : Filter τ Char} (hc : s.child = .fold r) {streams : Streams}
    {x : Filter τ Char ⊕ Ending} (h : FilterStep fold cap s.childFds r s streams x) :
    (∃ r', x = .inl r' ∧ streams.stdin = s.streams.stdin ∧ s.parent.before = false ∧
      (r'.eof = true → (∃ e, s.parent = .ended e) ∧ streams.pipe = []) ∧
      streams.stdout ++ r'.rest fold (streams.pipe ++ future tr input s) =
        s.streams.stdout ++ r.rest fold (s.streams.pipe ++ future tr input s)) ∨
    (x = .inr .exited ∧ streams = s.streams ∧ r.eof = true ∧ ∀ l, r.rest fold l = []) := by
  have hfds := hI.childFds
  rw [hc] at hfds
  have hended : s.parent.before = false → s.open (.writeEnd .fd1) = false → ∃ e, s.parent = .ended e :=
    fun hb hclosed => Parent.ended_of hb (hI.open_writeEnd hclosed)
  cases h with
  | read n l streams heof hread =>
    rw [hfds] at hread
    obtain ⟨pipe, hbytes, rfl, hend⟩ := read_pipe rfl hread
    have hb : s.parent.before = false := by
      rw [Bool.eq_false_iff]
      intro hb
      have hnil := (List.append_eq_nil_iff.1 ((hbytes.symm.trans (by rw [(hI.fresh hb).1]) : l ++ pipe = []))).1
      rw [hI.born (Parent.alone_of hb (hI.open_writeEnd (hend hnil).2))] at hc
      cases hc
    refine .inl ⟨_, rfl, rfl, hb, fun he => ?_, ?_⟩
    · have hnil : l = [] := by
        cases l with
        | nil => rfl
        | cons c l => cases he
      exact ⟨hended hb (hend hnil).2, (hend hnil).1⟩
    · rw [Filter.feed_rest fold heof, ← List.append_assoc, ← hbytes]
      intro hnil
      obtain ⟨hpipe, hclosed⟩ := hend hnil
      obtain ⟨e, he⟩ := hended hb hclosed
      rw [hpipe, future, he, List.nil_append]
  | write n streams hpos hle hwrite =>
    rw [hfds] at hwrite
    cases hwrite
    have hb : s.parent.before = false := by
      rw [Bool.eq_false_iff]
      intro hb
      rw [(hI.fresh hb).2.2 r hc] at hle
      exact absurd (hpos.trans hle) (by simp [Filter.start])
    refine .inl ⟨_, rfl, rfl, hb, fun he => hI.eof (.inl ⟨r, hc, he⟩), ?_⟩
    rw [List.append_assoc, Filter.drop_rest]
  | killed n hwrite =>
    rw [hfds] at hwrite
    cases hwrite
  | exit heof hnil => exact .inr ⟨rfl, rfl, heof, fun l => (Filter.rest_eof fold heof l).trans hnil⟩

/-- The parent's calls before tr, apart from fork and execl. -/
theorem Inv.parent_moves (hI : Inv tr fold input s) {p : Parent σ} {d : Descriptors} (hb : s.parent.before = true)
    (hb' : p.before = true) (halone : p.alone = s.parent.alone) (hd : d = p.table) :
    Inv tr fold input { s with parent := p, parentFds := d } := by
  obtain ⟨hstreams, hexited, hstart⟩ := hI.fresh hb
  have hnot : ∀ e, s.parent ≠ .ended e := by
    intro e he
    rw [he] at hb
    cases hb
  have hnot' : ∀ e, p ≠ .ended e := by
    rintro e rfl
    cases hb'
  refine ⟨hd, hI.childFds, fun _ => hI.fresh hb, fun h => hI.born (halone ▸ h), fun h => ?_, hI.quiet, hI.child,
    fun e he => absurd he (hnot' e), fun h => ?_, fun hborn hrun => ?_⟩
  · exact .inl (halone.trans ((hI.unborn h).resolve_right (hnot _)))
  · obtain ⟨⟨e, he⟩, -⟩ := hI.eof h
    exact absurd he (hnot e)
  · have hflow := hI.flow hborn hrun
    rw [(future_of_before hb).1, (future_of_before hb).2] at hflow
    have hmoved : future tr input { s with parent := p, parentFds := d } = tr.output tr.init input ∧
        trOutput tr input { s with parent := p, parentFds := d } = tr.output tr.init input := future_of_before hb'
    rw [hmoved.1, hmoved.2]
    exact hflow

/-- Before tr runs, fold has done nothing. -/
theorem Inv.rest_of_before (hI : Inv tr fold input s) (hb : s.parent.before = true)
    (hrun : s.child ≠ .ended (.returned 0)) (l : List Char) : s.child.rest fold l = fold.output fold.init l := by
  obtain ⟨-, hexited, hstart⟩ := hI.fresh hb
  cases hc : s.child with
  | fold r =>
    rw [hstart r hc]
    rfl
  | ended e =>
    rcases hI.child e hc with rfl | rfl
    · exact absurd hc hexited
    · exact absurd hc hrun
  | _ => rfl

/-- The parent ends in main, without having run tr. -/
theorem Inv.parent_returns (hI : Inv tr fold input s) (hb : s.parent.before = true) :
    Inv tr fold input (s.endParent (.returned 0)) := by
  obtain ⟨hstreams, hexited, hstart⟩ := hI.fresh hb
  refine ⟨rfl, hI.childFds, by rintro ⟨⟩, by rintro ⟨⟩, fun _ => .inr rfl, hI.quiet, hI.child, ?_,
    fun h => ?_, fun hborn hrun => ?_⟩
  · rintro e ⟨⟩
    exact .inr (.inl rfl)
  · rcases h with ⟨r, hr, he⟩ | he
    · rw [hstart r hr] at he
      cases he
    · exact absurd he hexited
  · simp only [State.endParent, hstreams, List.nil_append, future, trOutput]
    exact hI.rest_of_before hb hrun []

theorem Inv.born_step (hI : Inv tr fold input s) (hp : s.parent = .fork) :
    Inv tr fold input { s with parent := .close, child := .close, childFds := s.parentFds } := by
  have hfds := hI.parentFds
  have hb : s.parent.before = true := by rw [hp]; rfl
  rw [hp] at hfds
  obtain ⟨hstreams, -⟩ := hI.fresh hb
  refine ⟨hfds, hfds, fun _ => ⟨hstreams, by rintro ⟨⟩, by rintro r ⟨⟩⟩, by rintro ⟨⟩, by rintro ⟨⟩, ?_,
    by rintro e ⟨⟩, by rintro e ⟨⟩, ?_, ?_⟩
  · intro _ _
    simp only [hstreams]
  · rintro (⟨r, hr, -⟩ | hr)
    · cases hr
    · cases hr
  · intro _ _
    simp only [hstreams, List.nil_append]
    rfl

theorem Inv.tr_starts (hI : Inv tr fold input s) (hp : s.parent = .execl) :
    Inv tr fold input { s with parent := .tr (.start tr) } := by
  have hfds := hI.parentFds
  have hb : s.parent.before = true := by rw [hp]; rfl
  rw [hp] at hfds
  obtain ⟨hstreams, hexited, hstart⟩ := hI.fresh hb
  refine ⟨hfds, hI.childFds, by rintro ⟨⟩, by rintro ⟨⟩, fun h => ?_, hI.quiet, hI.child,
    by rintro e ⟨⟩, fun h => ?_, fun hborn hrun => ?_⟩
  · rcases hI.unborn h with halone | hended
    · rw [hp] at halone
      cases halone
    · rw [hp] at hended
      cases hended
  · rcases h with ⟨r, hr, he⟩ | he
    · rw [hstart r hr] at he
      cases he
    · exact absurd he hexited
  · have hflow := hI.flow hborn hrun
    rw [(future_of_before hb).1, (future_of_before hb).2] at hflow
    simp only [future, trOutput, Filter.start_rest]
    rw [hstreams] at hflow ⊢
    exact hflow

/-- tr goes on or ends. -/
theorem Inv.tr_goes (hI : Inv tr fold input s) {r : Filter σ Char} (hp : s.parent = .tr r) {streams : Streams}
    {x : Filter σ Char ⊕ Ending} (h : FilterStep tr cap s.parentFds r s streams x) :
    Inv tr fold input (s.parentAfter streams x) := by
  have hfds := hI.parentFds
  rw [hp] at hfds
  have hborn : s.child ≠ .unborn := by
    intro hc
    rcases hI.unborn hc with halone | hended
    · rw [hp] at halone
      cases halone
    · rw [hp] at hended
      cases hended
  have heof : ¬ ((∃ r, s.child = .fold r ∧ r.eof = true) ∨ s.child = .ended .exited) := by
    intro hend
    obtain ⟨⟨e, he⟩, -⟩ := hI.eof hend
    rw [hp] at he
    cases he
  have hflow := hI.flow hborn
  simp only [future, trOutput, hp] at hflow
  rcases hI.tr_step hp h with ⟨r', rfl, hstdout, hpipe⟩ | ⟨rfl, rfl, hnil⟩ | ⟨rfl, rfl, hchild⟩
  · refine ⟨hfds, hI.childFds, by rintro ⟨⟩, by rintro ⟨⟩, fun h => absurd h hborn, fun hnot hexited => ?_,
      hI.child, by rintro e ⟨⟩, fun h => absurd h heof, fun _ hrun => ?_⟩
    · exact hstdout.trans (hI.quiet hnot hexited)
    · simp only [State.parentAfter, future, trOutput, hstdout, hpipe]
      exact hflow hrun
  · refine ⟨rfl, hI.childFds, by rintro ⟨⟩, by rintro ⟨⟩, fun h => absurd h hborn, hI.quiet, hI.child, ?_,
      fun h => absurd h heof, fun _ hrun => ?_⟩
    · rintro e ⟨⟩
      exact .inl rfl
    · rw [hnil] at hflow
      exact hflow hrun
  · refine ⟨rfl, hI.childFds, by rintro ⟨⟩, by rintro ⟨⟩, fun h => absurd h hborn, hI.quiet, hI.child, ?_,
      fun h => absurd h heof, fun _ hrun => absurd hchild hrun⟩
    rintro e ⟨⟩
    exact .inr (.inr ⟨rfl, hchild⟩)

theorem Inv.parent_step (hI : Inv tr fold input s) (h : ParentStep tr cap s s') : Inv tr fold input s' := by
  cases h with
  | moves p d hb hb' halone hd hleft => exact hI.parent_moves hb hb' halone hd
  | returns hb => exact hI.parent_returns hb
  | forks hp => exact hI.born_step hp
  | starts hp => exact hI.tr_starts hp
  | goes r streams x hp h => exact hI.tr_goes hp h

/-- The child's calls before fold, apart from execl. -/
theorem Inv.child_moves (hI : Inv tr fold input s) {c : Child τ} {d : Descriptors} (hb : s.child.before = true)
    (hb' : c.before = true) (hd : d = c.table) : Inv tr fold input { s with child := c, childFds := d } := by
  have hborn : s.parent.alone ≠ true := by
    intro ha
    rw [hI.born ha] at hb
    cases hb
  have hnot : c ≠ .unborn ∧ (∀ r, c ≠ .fold r) ∧ ∀ e, c ≠ .ended e := by
    cases c <;> cases hb' <;> exact ⟨by rintro ⟨⟩, by rintro r ⟨⟩, by rintro e ⟨⟩⟩
  have hquiet : s.streams.stdout = [] ∧ s.child ≠ .unborn ∧ s.child ≠ .ended (.returned 0) := by
    cases hc : s.child <;> rw [hc] at hb <;> cases hb <;>
      exact ⟨hI.quiet (by rw [hc]; rintro r ⟨⟩) (by rw [hc]; rintro ⟨⟩), by rintro ⟨⟩, by rintro ⟨⟩⟩
  refine ⟨hI.parentFds, hd, fun h => ⟨(hI.fresh h).1, hnot.2.2 _, fun r hr => absurd hr (hnot.2.1 r)⟩,
    fun h => absurd h hborn, fun h => absurd h hnot.1, fun _ _ => hquiet.1, fun e he => absurd he (hnot.2.2 e),
    fun e he => ?_, fun h => ?_, fun _ _ => ?_⟩
  · rcases hI.parent e he with h | h | ⟨-, h⟩
    · exact .inl h
    · exact .inr (.inl h)
    · exact absurd h hquiet.2.2
  · rcases h with ⟨r, hr, -⟩ | he
    · exact absurd hr (hnot.2.1 r)
    · exact absurd he (hnot.2.2 _)
  · have hflow := hI.flow hquiet.2.1 hquiet.2.2
    have hrest : ∀ l, s.child.rest fold l = c.rest fold l := by
      intro l
      cases hc : s.child <;> rw [hc] at hb <;> cases hb <;> cases c <;> cases hb' <;> rfl
    rw [hrest] at hflow
    exact hflow

theorem Inv.fold_starts (hI : Inv tr fold input s) (hc : s.child = .execl) :
    Inv tr fold input { s with child := .fold (.start fold) } := by
  have hfds := hI.childFds
  rw [hc] at hfds
  have hborn : s.parent.alone ≠ true := by
    intro ha
    rw [hI.born ha] at hc
    cases hc
  refine ⟨hI.parentFds, hfds, fun h => ⟨(hI.fresh h).1, by rintro ⟨⟩, ?_⟩, fun h => absurd h hborn, by rintro ⟨⟩,
    fun h => absurd rfl (h _), by rintro e ⟨⟩, fun e he => ?_, ?_, fun _ _ => ?_⟩
  · rintro r ⟨⟩
    rfl
  · rcases hI.parent e he with h | h | ⟨-, h⟩
    · exact .inl h
    · exact .inr (.inl h)
    · rw [hc] at h
      cases h
  · rintro (⟨r, hr, he⟩ | he)
    · cases hr
      cases he
    · cases he
  · have hflow := hI.flow (by rw [hc]; rintro ⟨⟩) (by rw [hc]; rintro ⟨⟩)
    rw [hc] at hflow
    exact hflow

/-- The child ends in main, without having run fold. -/
theorem Inv.child_returns (hI : Inv tr fold input s) (hc : s.child = .execl) :
    Inv tr fold input (s.endChild (.returned 0)) := by
  have hborn : s.parent.alone ≠ true := by
    intro ha
    rw [hI.born ha] at hc
    cases hc
  refine ⟨hI.parentFds, rfl, fun h => ⟨(hI.fresh h).1, by rintro ⟨⟩, by rintro r ⟨⟩⟩, fun h => absurd h hborn,
    by rintro ⟨⟩, fun _ _ => hI.quiet (by rw [hc]; rintro r ⟨⟩) (by rw [hc]; rintro ⟨⟩), ?_, fun e he => ?_, ?_,
    fun _ h => absurd rfl h⟩
  · rintro e ⟨⟩
    exact .inr rfl
  · rcases hI.parent e he with h | h | ⟨h, -⟩
    · exact .inl h
    · exact .inr (.inl h)
    · exact .inr (.inr ⟨h, rfl⟩)
  · rintro (⟨r, hr, -⟩ | he)
    · cases hr
    · cases he

/-- fold goes on or ends. -/
theorem Inv.fold_goes (hI : Inv tr fold input s) {r : Filter τ Char} (hc : s.child = .fold r) {streams : Streams}
    {x : Filter τ Char ⊕ Ending} (h : FilterStep fold cap s.childFds r s streams x) :
    Inv tr fold input (s.childAfter streams x) := by
  have hfds := hI.childFds
  rw [hc] at hfds
  have hborn : s.parent.alone ≠ true := by
    intro ha
    rw [hI.born ha] at hc
    cases hc
  have hparent : ∀ e, s.parent = .ended e → e = .exited ∨ e = .returned 0 := by
    intro e he
    rcases hI.parent e he with h | h | ⟨-, h⟩
    · exact .inl h
    · exact .inr h
    · rw [hc] at h
      cases h
  have hflow := hI.flow (by rw [hc]; rintro ⟨⟩) (by rw [hc]; rintro ⟨⟩)
  rw [hc] at hflow
  rcases hI.fold_step hc h with ⟨r', rfl, hstdin, hb, heof, hout⟩ | ⟨rfl, rfl, heof, hnil⟩
  · refine ⟨hI.parentFds, hfds, fun h => ?_, fun h => absurd h hborn, by rintro ⟨⟩, fun h => absurd rfl (h r'),
      by rintro e ⟨⟩, fun e he => ?_, ?_, fun _ _ => ?_⟩
    · exact absurd (hb.symm.trans h) Bool.false_ne_true
    · exact (hparent e he).imp_right .inl
    · rintro (⟨r₁, hr, he⟩ | he)
      · cases hr
        exact heof he
      · cases he
    · simp only [State.childAfter, future, hstdin] at hout ⊢
      exact hout.trans hflow
  · refine ⟨hI.parentFds, rfl, fun h => ?_, fun h => absurd h hborn, by rintro ⟨⟩, fun _ h => absurd rfl h, ?_,
      fun e he => (hparent e he).imp_right .inl, fun _ => hI.eof (.inl ⟨r, hc, heof⟩), fun _ _ => ?_⟩
    · rw [(hI.fresh h).2.2 r hc] at heof
      cases heof
    · rintro e ⟨⟩
      exact .inl rfl
    · have hrest := hnil (s.streams.pipe ++ future tr input s)
      simp only [Child.rest] at hflow
      rw [hrest] at hflow
      exact hflow

theorem Inv.child_step (hI : Inv tr fold input s) (h : ChildStep fold cap s s') : Inv tr fold input s' := by
  cases h with
  | moves c d hb hb' hd hleft => exact hI.child_moves hb hb' hd
  | returns hc => exact hI.child_returns hc
  | starts hc => exact hI.fold_starts hc
  | goes r streams x hc h => exact hI.fold_goes hc h

end Steps

/-! ## Every run ends -/

section Length

/-- How long a run can still be: the calls left, the characters that tr has to read, those that go into the pipe and
out of it, and those that fold has to write. -/
def weight (tr : Transducer σ Char Char) (fold : Transducer τ Char Char) (input : List Char) (s : State σ τ) : ℕ :=
  s.parent.left + s.child.left + s.streams.stdin.length + 2 * (future tr input s).length + s.streams.pipe.length +
    (s.child.rest fold (s.streams.pipe ++ future tr input s)).length +
    bif s.parent.before then (fold.output fold.init []).length else 0

theorem weight_endParent (e : Ending) : weight tr fold input (s.endParent e) =
    s.child.left + s.streams.stdin.length + s.streams.pipe.length + (s.child.rest fold s.streams.pipe).length := by
  simp [weight, State.endParent, future, Parent.left, Parent.before]

theorem Inv.tr_cost (hI : Inv tr fold input s) {r r' : Filter σ Char} (hp : s.parent = .tr r) {streams : Streams}
    (h : FilterStep tr cap s.parentFds r s streams (.inl r')) :
    r'.left + streams.stdin.length + s.streams.pipe.length < r.left + s.streams.stdin.length + streams.pipe.length := by
  have hfds := hI.parentFds
  rw [hp] at hfds
  cases h with
  | read n l streams heof hread =>
    rw [hfds] at hread
    obtain ⟨stdin, hbytes, rfl, -⟩ := read_stdin rfl hread
    have hleft := Filter.feed_left tr heof l
    have hlength := congrArg List.length hbytes
    rw [List.length_append] at hlength
    dsimp only
    omega
  | write n streams hpos hle hwrite =>
    rw [hfds] at hwrite
    simp only [write, Parent.table] at hwrite
    split at hwrite
    · split at hwrite
      · cases hwrite
        have hdrop : (r.drop n).left = r.left := rfl
        simp only [List.length_append, List.length_take]
        omega
      · cases hwrite
    · cases hwrite

theorem Inv.fold_cost (hI : Inv tr fold input s) {r r' : Filter τ Char} (hc : s.child = .fold r) {streams : Streams}
    (h : FilterStep fold cap s.childFds r s streams (.inl r')) :
    r'.left + streams.pipe.length + s.streams.stdout.length <
      r.left + s.streams.pipe.length + streams.stdout.length := by
  have hfds := hI.childFds
  rw [hc] at hfds
  cases h with
  | read n l streams heof hread =>
    rw [hfds] at hread
    obtain ⟨pipe, hbytes, rfl, -⟩ := read_pipe rfl hread
    have hleft := Filter.feed_left fold heof l
    have hlength := congrArg List.length hbytes
    rw [List.length_append] at hlength
    dsimp only
    omega
  | write n streams hpos hle hwrite =>
    rw [hfds] at hwrite
    cases hwrite
    have hdrop : (r.drop n).left = r.left := rfl
    simp only [List.length_append, List.length_take]
    omega

theorem Inv.parent_weight (hI : Inv tr fold input s) (h : ParentStep tr cap s s') :
    weight tr fold input s' < weight tr fold input s := by
  cases h with
  | moves p d hb hb' halone hd hleft =>
    have hfuture : future tr input s = tr.output tr.init input := (future_of_before hb).1
    have hfuture' : future tr input { s with parent := p, parentFds := d } = tr.output tr.init input :=
      (future_of_before hb').1
    simp only [weight, hfuture, hfuture', hb, hb']
    omega
  | returns hb =>
    have hleft : 0 < s.parent.left := by
      cases hp : s.parent <;> rw [hp] at hb <;> cases hb <;> exact Nat.succ_pos _
    have hrest : (s.child.rest fold []).length ≤ (fold.output fold.init []).length := by
      by_cases hc : s.child = .ended (.returned 0)
      · rw [hc]
        exact Nat.zero_le _
      · rw [hI.rest_of_before hb hc]
    have hpipe : s.streams.pipe = [] := by rw [(hI.fresh hb).1]
    rw [weight_endParent, weight, hb, cond_true, hpipe]
    omega
  | forks hp =>
    have hb : s.parent.before = true := by rw [hp]; rfl
    have hc := hI.born (by rw [hp]; rfl)
    have hfuture : future tr input s = tr.output tr.init input := (future_of_before hb).1
    simp only [weight, hfuture, hp, hc]
    simp only [future, Parent.left, Child.left, Parent.before, Child.rest]
    omega
  | starts hp =>
    have hb : s.parent.before = true := by rw [hp]; rfl
    have hstdin : s.streams.stdin = input := by rw [(hI.fresh hb).1]
    have hfuture : future tr input s = tr.output tr.init input := (future_of_before hb).1
    have hfuture' : future tr input { s with parent := .tr (.start tr) } = tr.output tr.init input :=
      congrArg (tr.output tr.init) hstdin
    have hleft : (Filter.start tr : Filter σ Char).left = 2 := rfl
    simp only [weight, hfuture, hfuture', hp]
    simp only [Parent.left, hleft, Parent.before, cond_true, cond_false]
    omega
  | goes r streams x hp h =>
    rcases hI.tr_step hp h with ⟨r', rfl, -, hpipe⟩ | ⟨rfl, rfl, hnil⟩ | ⟨rfl, rfl, hchild⟩
    · have hcost := hI.tr_cost hp h
      have hlength := congrArg List.length hpipe
      simp only [List.length_append] at hlength
      have hfuture : future tr input s = r.rest tr s.streams.stdin := by simp only [future, hp]
      have hfuture' : future tr input (s.parentAfter streams (.inl r')) = r'.rest tr streams.stdin := rfl
      simp only [weight, hfuture, hfuture', hp]
      simp only [State.parentAfter, hpipe, Parent.left, Parent.before]
      omega
    · have hleft := r.left_pos
      have hfuture : future tr input s = [] := by simp only [future, hp, hnil]
      simp only [State.parentAfter, weight_endParent]
      simp only [weight, hfuture, hp, Parent.left, List.append_nil]
      omega
    · have hleft := r.left_pos
      have hrest : ∀ l, s.child.rest fold l = [] := by
        intro l
        rw [hchild]
        rfl
      simp only [State.parentAfter, weight_endParent]
      simp only [weight, hrest, hp, Parent.left]
      omega

theorem Inv.child_weight (hI : Inv tr fold input s) (h : ChildStep fold cap s s') :
    weight tr fold input s' < weight tr fold input s := by
  cases h with
  | moves c d hb hb' hd hleft =>
    have hrest : ∀ l, c.rest fold l = s.child.rest fold l := by
      intro l
      cases hc : s.child <;> rw [hc] at hb <;> cases hb <;> cases c <;> cases hb' <;> rfl
    have hfuture : future tr input { s with child := c, childFds := d } = future tr input s := rfl
    simp only [weight, hrest, hfuture]
    omega
  | returns hc =>
    have hfuture : future tr input (s.endChild (.returned 0)) = future tr input s := rfl
    simp only [weight, hfuture, hc]
    simp only [State.endChild, Child.left, Child.rest, List.length_nil]
    omega
  | starts hc =>
    have hfuture : future tr input { s with child := .fold (.start fold) } = future tr input s := rfl
    simp only [weight, hfuture, hc]
    have hleft : (Filter.start fold : Filter τ Char).left = 2 := rfl
    simp only [Child.left, Child.rest, hleft, Filter.start_rest]
    omega
  | goes r streams x hc h =>
    rcases hI.fold_step hc h with ⟨r', rfl, hstdin, hb, -, hout⟩ | ⟨rfl, rfl, -, hnil⟩
    · have hcost := hI.fold_cost hc h
      have hlength := congrArg List.length hout
      have hfuture : future tr input (s.childAfter streams (.inl r')) = future tr input s := by
        simp only [future, State.childAfter, hstdin]
      simp only [List.length_append] at hlength
      simp only [weight, hfuture, hc]
      simp only [State.childAfter, Child.left, Child.rest, hb, hstdin]
      omega
    · have hleft := r.left_pos
      have hfuture : future tr input (s.childAfter s.streams (.inr .exited)) = future tr input s := rfl
      simp only [weight, hfuture, hc]
      simp only [State.childAfter, State.endChild, Child.left, Child.rest, List.length_nil]
      omega

end Length

/-! ## Where a run ends -/

theorem system_step (hI : Inv tr fold input s) {a : Act} (h : (system tr fold 2 cap input).next s a = some s') :
    Inv tr fold input s' ∧ weight tr fold input s' < weight tr fold input s := by
  cases a with
  | parent m =>
    have hstep := stepParent_cases hI.parentFds h
    exact ⟨hI.parent_step hstep, hI.parent_weight hstep⟩
  | child m =>
    have hstep := stepChild_cases hI.childFds h
    exact ⟨hI.child_step hstep, hI.child_weight hstep⟩

section Stuck

theorem child_can (hb : s.child.before = true) :
    ∃ a s', (system tr fold 2 cap input).next s a = some s' := by
  refine ⟨.child (.call true), ?_⟩
  cases hc : s.child with
  | unborn | fold r | ended e =>
    rw [hc] at hb
    cases hb
  | _ =>
    simp only [system, stepChild, hc, if_true]
    exact ⟨_, rfl⟩

/-- fold waits only for a parent that goes on, and that has written nothing it has not read. -/
theorem Inv.fold_can (hI : Inv tr fold input s) {r : Filter τ Char} (hc : s.child = .fold r)
    (h : s.streams.pipe = [] → ∃ e, s.parent = .ended e) : ∃ a s', (system tr fold 2 cap input).next s a = some s' := by
  have hfds := hI.childFds
  rw [hc] at hfds
  cases heof : r.eof with
  | false =>
    have hopen : s.streams.pipe = [] → (!s.open (.writeEnd .fd1)) = true := by
      intro hnil
      obtain ⟨e, he⟩ := h hnil
      rw [State.open, hI.parentFds, hfds, he]
      rfl
    obtain ⟨p, hread⟩ := Pipe.read_one (p := ⟨s.streams.pipe, !s.open (.writeEnd .fd1)⟩) hopen
    refine ⟨.child (.read 1), ?_⟩
    simp only [system, stepChild, hc, filterStep, heof, Bool.false_eq_true, if_false, read, hfds, Child.table, hread,
      Option.map_some]
    exact ⟨_, rfl⟩
  | true =>
    by_cases hnil : r.pending = []
    · refine ⟨.child .exit, ?_⟩
      simp only [system, stepChild, hc, filterStep, heof, hnil, and_self, if_true, Option.map_some]
      exact ⟨_, rfl⟩
    · have hlength : 1 ≤ 1 ∧ 1 ≤ r.pending.length := ⟨le_rfl, List.length_pos_iff.2 hnil⟩
      refine ⟨.child (.write 1), ?_⟩
      simp only [system, stepChild, hc, filterStep, if_pos hlength, write, hfds, Child.table, Option.map_some]
      exact ⟨_, rfl⟩

/-- tr waits only for fold. -/
theorem Inv.parent_can (hI : Inv tr fold input s) (hcap : 1 ≤ cap) (hp : ∀ e, s.parent ≠ .ended e) :
    ∃ a s', (system tr fold 2 cap input).next s a = some s' := by
  have hfds := hI.parentFds
  cases hs : s.parent with
  | tr r =>
    rw [hs] at hfds
    cases heof : r.eof with
    | false =>
      obtain ⟨p, hread⟩ := Pipe.read_one (p := ⟨s.streams.stdin, true⟩) fun _ => rfl
      refine ⟨.parent (.read 1), ?_⟩
      simp only [system, stepParent, hs, filterStep, heof, Bool.false_eq_true, if_false, read, hfds, Parent.table,
        hread, Option.map_some]
      exact ⟨_, rfl⟩
    | true =>
      by_cases hnil : r.pending = []
      · refine ⟨.parent .exit, ?_⟩
        simp only [system, stepParent, hs, filterStep, heof, hnil, and_self, if_true, Option.map_some]
        exact ⟨_, rfl⟩
      · have hlength : 1 ≤ 1 ∧ 1 ≤ r.pending.length := ⟨le_rfl, List.length_pos_iff.2 hnil⟩
        by_cases hopen : s.open (.readEnd .fd1) = true
        · by_cases hroom : s.streams.pipe.length + (r.pending.take 1).length ≤ cap
          · refine ⟨.parent (.write 1), ?_⟩
            simp only [system, stepParent, hs, filterStep, if_pos hlength, write, hfds, Parent.table, hopen, if_true,
              if_pos hroom, Option.map_some]
            exact ⟨_, rfl⟩
          · -- the pipe is full, and fold can read
            have hpipe : s.streams.pipe ≠ [] := by
              intro hpipe
              rw [hpipe, List.length_take, List.length_nil] at hroom
              omega
            cases hc : s.child with
            | unborn =>
              rcases hI.unborn hc with h | h
              · rw [hs] at h
                cases h
              · exact absurd h (hp _)
            | fold r' => exact hI.fold_can hc fun h => absurd h hpipe
            | ended e =>
              rw [State.open, hI.childFds, hfds, hc] at hopen
              cases hopen
            | _ => exact child_can (by rw [hc]; rfl)
        · refine ⟨.parent (.write 1), ?_⟩
          simp only [system, stepParent, hs, filterStep, if_pos hlength, write, hfds, Parent.table, hopen,
            Bool.false_eq_true, if_false, Option.map_some]
          exact ⟨_, rfl⟩
  | ended e => exact absurd hs (hp e)
  | _ =>
    refine ⟨.parent (.call true), ?_⟩
    simp only [system, stepParent, hs, if_true]
    exact ⟨_, rfl⟩

/-- Where nothing can be done any more both processes have ended, or there is only one. -/
theorem Inv.both_ended (hI : Inv tr fold input s) (hcap : 1 ≤ cap)
    (hstuck : ∀ a, (system tr fold 2 cap input).next s a = none) :
    (∃ e, s.parent = .ended e) ∧ (s.child = .unborn ∨ ∃ e, s.child = .ended e) := by
  have hno : ¬ ∃ a s', (system tr fold 2 cap input).next s a = some s' := by
    rintro ⟨a, s', h⟩
    rw [hstuck a] at h
    cases h
  have hparent : ∃ e, s.parent = .ended e := by
    by_contra hp
    exact hno (hI.parent_can hcap fun e he => hp ⟨e, he⟩)
  refine ⟨hparent, ?_⟩
  cases hc : s.child with
  | unborn => exact .inl rfl
  | ended e => exact .inr ⟨e, rfl⟩
  | fold r => exact absurd (hI.fold_can hc fun _ => hparent) hno
  | _ => exact absurd (child_can (by rw [hc]; rfl)) hno

end Stuck

/-! ## The pipeline -/

/-- What the terminal shows in the end: nothing without a fold, and else what fold makes of all that tr has to say, or
of nothing where the parent has not become tr. -/
inductive Final (tr : Transducer σ Char Char) (fold : Transducer τ Char Char) (input : List Char) (s : State σ τ) :
    Prop
  | alone (hc : s.child = .unborn) (hp : s.parent = .ended (.returned 0)) (h : s.streams.stdout = [])
  | noFold (hc : s.child = .ended (.returned 0)) (hp : ∃ e, s.parent = .ended e) (h : s.streams.stdout = [])
  | noTr (hc : s.child = .ended .exited) (hp : s.parent = .ended (.returned 0))
      (h : s.streams.stdout = fold.output fold.init [])
  | both (hc : s.child = .ended .exited) (hp : s.parent = .ended .exited)
      (h : s.streams.stdout = fold.output fold.init (tr.output tr.init input))

theorem Inv.final (hI : Inv tr fold input s) (hp : ∃ e, s.parent = .ended e)
    (hc : s.child = .unborn ∨ ∃ e, s.child = .ended e) : Final tr fold input s := by
  rcases hc with hc | ⟨e, hc⟩
  · refine .alone hc ?_ (hI.quiet (by rw [hc]; rintro r ⟨⟩) (by rw [hc]; rintro ⟨⟩))
    rcases hI.unborn hc with h | h
    · obtain ⟨e, he⟩ := hp
      rw [he] at h
      cases h
    · exact h
  · rcases hI.child e hc with rfl | rfl
    · obtain ⟨e, hp⟩ := hp
      have hflow := hI.flow (by rw [hc]; rintro ⟨⟩) (by rw [hc]; rintro ⟨⟩)
      rw [hc, Child.rest, List.append_nil] at hflow
      rcases hI.parent e hp with rfl | rfl | ⟨rfl, h⟩
      · refine .both hc hp (hflow.trans ?_)
        rw [trOutput, hp]
      · refine .noTr hc hp (hflow.trans ?_)
        rw [trOutput, hp]
      · rw [hc] at h
        cases h
    · exact .noFold hc hp (hI.quiet (by rw [hc]; rintro r ⟨⟩) (by rw [hc]; rintro ⟨⟩))

/-- What the terminal shows is always the beginning of that. -/
theorem Inv.stdout_prefix (hI : Inv tr fold input s) :
    s.streams.stdout <+: fold.output fold.init (tr.output tr.init input) ∨
      (s.parent = .ended (.returned 0) ∧ s.streams.stdout <+: fold.output fold.init []) := by
  by_cases hc : s.child = .unborn ∨ s.child = .ended (.returned 0)
  · have hnil : s.streams.stdout = [] := by
      rcases hc with hc | hc
      · exact hI.quiet (by rw [hc]; rintro r ⟨⟩) (by rw [hc]; rintro ⟨⟩)
      · exact hI.quiet (by rw [hc]; rintro r ⟨⟩) (by rw [hc]; rintro ⟨⟩)
    rw [hnil]
    exact .inl List.nil_prefix
  · have hflow := hI.flow (fun h => hc (.inl h)) fun h => hc (.inr h)
    have hprefix := List.prefix_append s.streams.stdout
      (s.child.rest fold (s.streams.pipe ++ future tr input s))
    rw [hflow] at hprefix
    cases hp : s.parent with
    | ended e =>
      rcases hI.parent e hp with rfl | rfl | ⟨rfl, -⟩
      · rw [trOutput, hp] at hprefix
        exact .inl hprefix
      · rw [trOutput, hp] at hprefix
        exact .inr ⟨rfl, hprefix⟩
      · rw [trOutput, hp] at hprefix
        exact .inl hprefix
    | _ =>
      rw [trOutput, hp] at hprefix
      exact .inl hprefix

/-- Whatever tr and fold do with what they read, and however their calls fall: every run of the pipeline ends, with
both processes at their end, and what it prints is what fold makes of tr's output. -/
theorem pipeline_run (hcap : 1 ≤ cap) {as : List Act}
    (h : (system tr fold 2 cap input).run ⟨.start, .terminal, .unborn, .closed, ⟨input, [], []⟩⟩ as = some s) :
    as.length ≤ 15 + input.length + 2 * (tr.output tr.init input).length +
        (fold.output fold.init (tr.output tr.init input)).length + (fold.output fold.init []).length ∧
      (s.streams.stdout <+: fold.output fold.init (tr.output tr.init input) ∨
        (s.parent = .ended (.returned 0) ∧ s.streams.stdout <+: fold.output fold.init [])) ∧
      ((∀ a, (system tr fold 2 cap input).next s a = none) → Final tr fold input s) := by
  obtain ⟨hI, hlength⟩ := System.run_length (fun s a s' hI h => system_step hI h) as init_inv h
  refine ⟨?_, hI.stdout_prefix, fun hstuck => ?_⟩
  · simp only [weight, Parent.left, Child.left, future, Parent.before, Child.rest, List.length_nil, List.nil_append,
      cond_true] at hlength
    omega
  · obtain ⟨hp, hc⟩ := hI.both_ended hcap hstuck
    exact hI.final hp hc

/-- tr from lower case to upper case. -/
def toUpper : Transducer Unit Char Char := ⟨(), fun _ c => ((), [c.toUpper]), fun _ => []⟩

/-- fold at a width: a new line before the character that does not fit, columns counted from the last. -/
def foldAt (width : ℕ) : Transducer ℕ Char Char where
  init := 0
  step column c :=
    if c = '\n' then (0, [c]) else if column = width then (1, ['\n', c]) else (column + 1, [c])
  flush _ := []

/-- Three letters through a pipe of two, folded at two columns. -/
def twoColumns : List Act :=
  [.parent (.call true), .parent (.call true), .parent (.call true), .child (.call true), .child (.call true),
    .child (.call true), .child (.call true), .parent (.call true), .parent (.call true), .parent (.call true),
    .parent (.read 3), .parent (.write 1), .child (.read 1), .parent (.write 1), .parent (.read 1), .parent (.write 1),
    .parent .exit, .child (.read 1), .child (.write 2), .child (.read 1), .child (.read 1), .child (.write 2),
    .child .exit]

theorem pipeline_run_twoColumns : Final toUpper (foldAt 2) ['a', 'b', 'c']
    ⟨.ended .exited, .closed, .ended .exited, .closed, ⟨[], [], ['A', 'B', '\n', 'C']⟩⟩ := by
  have hrun : (system toUpper (foldAt 2) 2 2 ['a', 'b', 'c']).run
      ⟨.start, .terminal, .unborn, .closed, ⟨['a', 'b', 'c'], [], []⟩⟩ twoColumns =
      some ⟨.ended .exited, .closed, .ended .exited, .closed, ⟨[], [], ['A', 'B', '\n', 'C']⟩⟩ := rfl
  obtain ⟨-, -, hfinal⟩ := pipeline_run (by decide) hrun
  refine hfinal fun a => ?_
  rcases a with m | m
  · cases m <;> rfl
  · cases m <;> rfl

end Sysopy.Pipeline
