/-
Programs on a heap of doubly linked cells, as C code works on them: pointers that may be NULL, cells that are
read and written through pointers, malloc, free, and loops. A run has fuel for its loops; a program carries the
proof that more fuel never changes an outcome, so what it returns is a relation without fuel, with one rule for
each construct and an invariant rule for loops.
-/
import Mathlib.Tactic

namespace Sysopy.Memory

abbrev Addr := ℕ

/-- A pointer; `none` is NULL. -/
abbrev Ptr := Option Addr

structure Cell (V : Type) where
  prev : Ptr
  next : Ptr
  val : V

/-- The cells that are allocated. -/
abbrev Heap (V : Type) := Addr → Option (Cell V)

/-- Why a run stops: a NULL pointer or one to memory that is not allocated is followed, an array is written
behind its end, or the fuel is used up. -/
inductive Stop where
  | null
  | dangling
  | overflow
  | fuel
  deriving DecidableEq

/-- A program: what it does for each amount of fuel, where an outcome once reached stays. -/
structure Prog (V α : Type) where
  run : ℕ → Heap V → Except Stop (α × Heap V)
  mono : ∀ {n m : ℕ} {h : Heap V}, n ≤ m → run n h ≠ .error .fuel → run m h = run n h

namespace Prog

variable {V α β σ : Type}

/-- A program without loops. -/
def prim (f : Heap V → Except Stop (α × Heap V)) : Prog V α := ⟨fun _ h => f h, fun _ _ => rfl⟩

/-- The run of `p` and then of the program its value gives. -/
def bindRun (p : Prog V α) (f : α → Prog V β) (n : ℕ) (h : Heap V) : Except Stop (β × Heap V) :=
  match p.run n h with
  | .error e => .error e
  | .ok (a, h') => (f a).run n h'

theorem bindRun_ok {p : Prog V α} {f : α → Prog V β} {n : ℕ} {h h' : Heap V} {a : α} (hp : p.run n h = .ok (a, h')) :
    bindRun p f n h = (f a).run n h' := by
  simp only [bindRun, hp]

theorem bindRun_error {p : Prog V α} {f : α → Prog V β} {n : ℕ} {h : Heap V} {e : Stop} (hp : p.run n h = .error e) :
    bindRun p f n h = .error e := by
  simp only [bindRun, hp]

theorem bindRun_mono (p : Prog V α) (f : α → Prog V β) {n m : ℕ} {h : Heap V} (hnm : n ≤ m)
    (hrun : bindRun p f n h ≠ .error .fuel) : bindRun p f m h = bindRun p f n h := by
  cases hp : p.run n h with
  | error e =>
    have he : p.run n h ≠ .error .fuel := fun hf => hrun (bindRun_error hf)
    rw [bindRun_error hp, bindRun_error ((p.mono hnm he).trans hp)]
  | ok r =>
    have hok : p.run n h ≠ .error .fuel := by simp [hp]
    rw [bindRun_ok hp] at hrun ⊢
    rw [bindRun_ok ((p.mono hnm hok).trans hp), (f r.1).mono hnm hrun]

instance : Monad (Prog V) where
  pure a := prim fun h => .ok (a, h)
  bind p f := ⟨bindRun p f, fun hnm hrun => bindRun_mono p f hnm hrun⟩

/-- `while (cond) body`, where a turn takes one unit of fuel. -/
def loopRun (cond : σ → Prog V Bool) (body : σ → Prog V σ) : ℕ → σ → Heap V → Except Stop (σ × Heap V)
  | 0, _, _ => .error .fuel
  | n + 1, s, h =>
    match (cond s).run n h with
    | .error e => .error e
    | .ok (false, h') => .ok (s, h')
    | .ok (true, h') => match (body s).run n h' with
      | .error e => .error e
      | .ok (s', h'') => loopRun cond body n s' h''

theorem loopRun_mono (cond : σ → Prog V Bool) (body : σ → Prog V σ) {n m : ℕ} (hnm : n ≤ m) (s : σ) (h : Heap V)
    (hrun : loopRun cond body n s h ≠ .error .fuel) : loopRun cond body m s h = loopRun cond body n s h := by
  induction n generalizing m s h with
  | zero => exact absurd rfl hrun
  | succ n ih =>
    obtain ⟨m, rfl⟩ : ∃ k, m = k + 1 := ⟨m - 1, by omega⟩
    have hle : n ≤ m := by omega
    simp only [loopRun] at hrun ⊢
    rcases hc : (cond s).run n h with e | ⟨_ | _, h'⟩
    · rw [hc] at hrun
      rw [(cond s).mono hle (by rw [hc]; simpa using hrun), hc]
    · rw [(cond s).mono hle (by simp [hc]), hc]
    · rw [hc] at hrun
      rw [(cond s).mono hle (by simp [hc]), hc]
      dsimp only at hrun ⊢
      cases hb : (body s).run n h' with
      | error e =>
        rw [hb] at hrun
        rw [(body s).mono hle (by rw [hb]; exact hrun), hb]
      | ok r =>
        rw [hb] at hrun
        rw [(body s).mono hle (by simp [hb]), hb]
        exact ih hle _ _ hrun

def loop (cond : σ → Prog V Bool) (body : σ → Prog V σ) (s : σ) : Prog V σ :=
  ⟨fun n => loopRun cond body n s, fun hnm hrun => loopRun_mono cond body hnm s _ hrun⟩

/-- `if (c) p;` -/
def when (c : Bool) (p : Prog V Unit) : Prog V Unit := if c then p else pure ()

end Prog

open Prog

variable {V α β σ : Type}

/-! ## Reading and writing cells -/

/-- The heap after `p->next = q`. -/
def Heap.withNext (h : Heap V) : Ptr → Ptr → Heap V
  | none, _ => h
  | some a, q => Function.update h a ((h a).map fun c => { c with next := q })

/-- The heap after `p->prev = q`. -/
def Heap.withPrev (h : Heap V) : Ptr → Ptr → Heap V
  | none, _ => h
  | some a, q => Function.update h a ((h a).map fun c => { c with prev := q })

/-- The heap after the other fields of `p` are written. -/
def Heap.withVal (h : Heap V) : Ptr → V → Heap V
  | none, _ => h
  | some a, v => Function.update h a ((h a).map fun c => { c with val := v })

/-- `*p`. -/
def load (p : Ptr) : Prog V (Cell V) := prim fun h =>
  match p with
  | none => .error .null
  | some a => match h a with
    | none => .error .dangling
    | some c => .ok (c, h)

/-- A write through a pointer. -/
def store (write : Heap V → Ptr → Heap V) (p : Ptr) : Prog V Unit := prim fun h =>
  match p with
  | none => .error .null
  | some a => match h a with
    | none => .error .dangling
    | some _ => .ok ((), write h p)

def storeNext (p q : Ptr) : Prog V Unit := store (fun h p => h.withNext p q) p

def storePrev (p q : Ptr) : Prog V Unit := store (fun h p => h.withPrev p q) p

def storeVal (p : Ptr) (v : V) : Prog V Unit := store (fun h p => h.withVal p v) p

/-- `malloc`: the environment chooses the pointer, which may be NULL, and what the memory holds. -/
def malloc (new : Ptr) (junk : Cell V) : Prog V Ptr := prim fun h =>
  match new with
  | none => .ok (none, h)
  | some a => .ok (some a, Function.update h a (some junk))

def free (p : Ptr) : Prog V Unit := prim fun h =>
  match p with
  | none => .ok ((), h)
  | some a => match h a with
    | none => .error .dangling
    | some _ => .ok ((), Function.update h a none)

/-- `strcpy` into an array of `size` characters. -/
def strcpyTo (size : ℕ) (s : List Char) : Prog V (List Char) := prim fun h =>
  if s.length < size then .ok (s, h) else .error .overflow

/-! ## What a program returns -/

/-- The outcome of a program, which takes some fuel and is not the lack of it. -/
def Prog.Yields (p : Prog V α) (h : Heap V) (r : Except Stop (α × Heap V)) : Prop :=
  r ≠ .error .fuel ∧ ∃ n, p.run n h = r

/-- The program returns `a` and leaves the heap `h'`. -/
abbrev Prog.Returns (p : Prog V α) (h : Heap V) (a : α) (h' : Heap V) : Prop := p.Yields h (.ok (a, h'))

/-- The program stops. -/
abbrev Prog.Stops (p : Prog V α) (h : Heap V) (e : Stop) : Prop := p.Yields h (.error e)

namespace Prog

variable {p : Prog V α} {f : α → Prog V β} {h h₁ h₂ : Heap V} {a : α} {r : Except Stop (α × Heap V)}

theorem Yields.of_run {n : ℕ} (hr : p.run n h = r) (hfuel : r ≠ .error .fuel) : p.Yields h r := ⟨hfuel, n, hr⟩

/-- All larger amounts of fuel give the outcome. -/
theorem Yields.enough (hp : p.Yields h r) : ∃ n, ∀ m, n ≤ m → p.run m h = r := by
  obtain ⟨hfuel, n, hn⟩ := hp
  refine ⟨n, fun m hnm => ?_⟩
  rw [p.mono hnm (by rw [hn]; exact hfuel), hn]

/-- A program has one outcome. -/
theorem Yields.unique {r' : Except Stop (α × Heap V)} (hp : p.Yields h r) (hp' : p.Yields h r') : r = r' := by
  obtain ⟨n, hn⟩ := hp.enough
  obtain ⟨n', hn'⟩ := hp'.enough
  rw [← hn (max n n') (le_max_left _ _), hn' (max n n') (le_max_right _ _)]

theorem yields_prim {g : Heap V → Except Stop (α × Heap V)} (hg : g h = r) (hfuel : r ≠ .error .fuel) :
    (prim g).Yields h r :=
  ⟨hfuel, 0, hg⟩

theorem returns_prim {g : Heap V → Except Stop (α × Heap V)} (hg : g h = .ok (a, h₁)) : (prim g).Returns h a h₁ :=
  yields_prim hg (by simp)

theorem returns_pure (a : α) (h : Heap V) : (pure a : Prog V α).Returns h a h := returns_prim rfl

/-- The rule of sequence. -/
theorem Yields.bind {r : Except Stop (β × Heap V)} (hp : p.Returns h a h₁) (hf : (f a).Yields h₁ r) :
    (p >>= f).Yields h r := by
  obtain ⟨n, hn⟩ := hp.enough
  obtain ⟨m, hm⟩ := hf.enough
  refine .of_run (n := max n m) ?_ hf.1
  show bindRun p f _ h = r
  rw [bindRun_ok (hn _ (le_max_left _ _)), hm _ (le_max_right _ _)]

theorem Yields.bind_stop {e : Stop} (hp : p.Stops h e) : (p >>= f).Stops h e := by
  obtain ⟨hfuel, n, hn⟩ := hp
  exact .of_run (bindRun_error hn) (by simpa using hfuel)

theorem returns_when_true {q : Prog V Unit} {c : Bool} (hc : c = true) (hq : q.Returns h () h₁) :
    (when c q).Returns h () h₁ := by
  rwa [when, if_pos hc]

theorem returns_when_false {q : Prog V Unit} {c : Bool} (hc : c = false) : (when c q).Returns h () h := by
  rw [when, if_neg (by simp [hc])]
  exact returns_pure _ _

end Prog

section Loop

variable {cond : σ → Prog V Bool} {body : σ → Prog V σ} {s s' t : σ} {h h₁ h₂ h₃ : Heap V}

theorem returns_loop_done (hc : (cond s).Returns h false h₁) : (loop cond body s).Returns h s h₁ := by
  obtain ⟨n, hn⟩ := hc.enough
  exact .of_run (n := n + 1) (by simp only [loop, loopRun, hn n le_rfl]) (by simp)

theorem yields_loop_turn {r : Except Stop (σ × Heap V)} (hc : (cond s).Returns h true h₁)
    (hb : (body s).Returns h₁ s' h₂) (hl : (loop cond body s').Yields h₂ r) : (loop cond body s).Yields h r := by
  obtain ⟨k, hk⟩ := hc.enough
  obtain ⟨n, hn⟩ := hb.enough
  obtain ⟨m, hm⟩ := hl.enough
  refine .of_run (n := max k (max n m) + 1) ?_ hl.1
  have hrest : loopRun cond body (max k (max n m)) s' h₂ = r := hm _ (by omega)
  simp only [loop, loopRun, hk _ (le_max_left _ _), hn (max k (max n m)) (by omega), hrest]

theorem stops_loop_turn {e : Stop} (hc : (cond s).Returns h true h₁) (hb : (body s).Stops h₁ e) :
    (loop cond body s).Stops h e := by
  obtain ⟨k, hk⟩ := hc.enough
  obtain ⟨n, hn⟩ := hb.enough
  refine .of_run (n := max k n + 1) ?_ (by simpa using hb.1)
  simp only [loop, loopRun, hk _ (le_max_left _ _), hn _ (le_max_right _ _)]

/-- The invariant rule: with `k` turns left the loop goes on exactly when `k` is not zero; a turn may stop the
program when `X` holds. -/
theorem yields_loop {I : ℕ → σ → Heap V → Prop} {X : Prop} {e : Stop}
    (hdone : ∀ s h, I 0 s h → (cond s).Returns h false h)
    (hturn : ∀ k s h, I (k + 1) s h → (cond s).Returns h true h ∧
      ((∃ s' h', (body s).Returns h s' h' ∧ I k s' h') ∨ X ∧ (body s).Stops h e)) (k : ℕ) (s : σ) (h : Heap V)
    (hI : I k s h) :
    (∃ s' h', (loop cond body s).Returns h s' h' ∧ I 0 s' h') ∨ X ∧ (loop cond body s).Stops h e := by
  induction k generalizing s h with
  | zero => exact .inl ⟨s, h, returns_loop_done (hdone s h hI), hI⟩
  | succ k ih =>
    obtain ⟨hc, ⟨s₁, h₁, hb, hI₁⟩ | ⟨hX, hb⟩⟩ := hturn k s h hI
    · rcases ih s₁ h₁ hI₁ with ⟨s₂, h₂, hl, hI₂⟩ | ⟨hX, hl⟩
      · exact .inl ⟨s₂, h₂, yields_loop_turn hc hb hl, hI₂⟩
      · exact .inr ⟨hX, yields_loop_turn hc hb hl⟩
    · exact .inr ⟨hX, stops_loop_turn hc hb⟩

/-- The invariant rule for loops in which no turn stops the program. -/
theorem returns_loop {I : ℕ → σ → Heap V → Prop} (hdone : ∀ s h, I 0 s h → (cond s).Returns h false h)
    (hturn : ∀ k s h, I (k + 1) s h →
      (cond s).Returns h true h ∧ ∃ s' h', (body s).Returns h s' h' ∧ I k s' h') (k : ℕ) (s : σ) (h : Heap V)
    (hI : I k s h) : ∃ s' h', (loop cond body s).Returns h s' h' ∧ I 0 s' h' := by
  have hyields := yields_loop (X := False) (e := .fuel) hdone
    (fun k s h hI => ⟨(hturn k s h hI).1, .inl (hturn k s h hI).2⟩) k s h hI
  exact hyields.resolve_right fun hstop => hstop.1

end Loop

section Cells

variable {h : Heap V} {a : Addr} {c : Cell V}

theorem returns_load (hc : h a = some c) : (load (some a)).Returns h c h :=
  returns_prim (by simp only [hc])

theorem returns_store {write : Heap V → Ptr → Heap V} (hc : h a = some c) :
    (store write (some a)).Returns h () (write h (some a)) :=
  returns_prim (by simp only [hc])

/-- `if (p != NULL) p->prev = q;` -/
theorem returns_when_storePrev {p q : Ptr} (hp : ∀ a, p = some a → ∃ c, h a = some c) :
    (when (p ≠ none) (storePrev p q)).Returns h () (h.withPrev p q) := by
  cases p with
  | none => exact returns_when_false (by simp)
  | some a =>
    obtain ⟨c, hc⟩ := hp a rfl
    exact returns_when_true (by simp) (returns_store hc)

theorem stops_store_none {write : Heap V → Ptr → Heap V} : (store write none).Stops h .null :=
  yields_prim rfl (by simp)

theorem returns_malloc (a : Addr) (junk : Cell V) :
    (malloc (some a) junk).Returns h (some a) (Function.update h a (some junk)) :=
  returns_prim rfl

theorem returns_malloc_none (junk : Cell V) : (malloc none junk).Returns h none h := returns_prim rfl

theorem returns_free (hc : h a = some c) : (free (some a)).Returns h () (Function.update h a none) :=
  returns_prim (by simp only [hc])

theorem returns_strcpyTo {size : ℕ} {s : List Char} (hs : s.length < size) :
    (strcpyTo size s : Prog V (List Char)).Returns h s h :=
  returns_prim (if_pos hs)

theorem stops_strcpyTo {size : ℕ} {s : List Char} (hs : ¬ s.length < size) :
    (strcpyTo size s : Prog V (List Char)).Stops h .overflow :=
  yields_prim (if_neg hs) (by simp)

end Cells

end Sysopy.Memory
