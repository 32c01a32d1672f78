/-
Doubly linked lists in a heap: what it means for the cells reachable from a pointer to be one, the list of
addresses it stands for, and what relinking does to that list. A segment lies between the cell in front of it and
the one behind it, so that a list can be cut open where it is changed.
-/
import Sysopy.Memory.Prog

namespace Sysopy.Memory

variable {V : Type}

/-! ## Well-formed lists -/

/-- The cells reached by following `next`. -/
inductive Reach (h : Heap V) : Ptr → Addr → Prop
  | here (a : Addr) : Reach h (some a) a
  | next {a b : Addr} {c : Cell V} (hc : h a = some c) (hr : Reach h c.next b) : Reach h (some a) b

/-- Following `next` visits these cells and ends in NULL. -/
inductive Path (h : Heap V) : Ptr → List Addr → Prop
  | nil : Path h none []
  | cons {a : Addr} {l : List Addr} {c : Cell V} (hc : h a = some c) (hp : Path h c.next l) : Path h (some a) (a :: l)

/-- The cells reachable from `head` form a doubly linked list. -/
structure WellFormed (h : Heap V) (head : Ptr) : Prop where
  first : ∀ a c, head = some a → h a = some c → c.prev = none
  ends : ∃ l, Path h head l ∧ l.Nodup
  mirror : ∀ a b c d, Reach h head a → Reach h head b → h a = some c → h b = some d →
    (c.next = some b ↔ d.prev = some a)
  allocated : ∀ a, Reach h head a → ∃ c, h a = some c

/-! ## Segments -/

/-- Where a list of cells begins that is followed by `q`. -/
def first : List Addr → Ptr → Ptr
  | [], q => q
  | a :: _, _ => some a

/-- Where a list of cells ends that stands behind `p`. -/
def last : Ptr → List Addr → Ptr
  | p, [] => p
  | _, a :: l => last (some a) l

/-- The cells of `l` are linked to each other, the first one back to `p` and the last one on to `q`. -/
def Seg (h : Heap V) : Ptr → List Addr → Ptr → Prop
  | _, [], _ => True
  | p, a :: l, q => (∃ v, h a = some ⟨p, first l q, v⟩) ∧ Seg h (some a) l q

/-- A doubly linked list with its addresses. -/
structure DList (h : Heap V) (head : Ptr) (l : List Addr) : Prop where
  head : head = first l none
  seg : Seg h none l none
  nodup : l.Nodup

/-- The same cells with the same contents, however they are linked. -/
def SameVals (h h' : Heap V) : Prop := ∀ a, (h' a).map Cell.val = (h a).map Cell.val

section Lists

variable {l₁ l₂ : List Addr} {p q : Ptr} {a : Addr}

@[simp] theorem first_nil (q : Ptr) : first [] q = q := rfl

@[simp] theorem first_cons (a : Addr) (l : List Addr) (q : Ptr) : first (a :: l) q = some a := rfl

@[simp] theorem last_nil (p : Ptr) : last p [] = p := rfl

@[simp] theorem last_cons (p : Ptr) (a : Addr) (l : List Addr) : last p (a :: l) = last (some a) l := rfl

theorem first_append (l₁ l₂ : List Addr) (q : Ptr) : first (l₁ ++ l₂) q = first l₁ (first l₂ q) := by
  cases l₁ <;> rfl

theorem last_append (p : Ptr) (l₁ l₂ : List Addr) : last p (l₁ ++ l₂) = last (last p l₁) l₂ := by
  induction l₁ generalizing p with
  | nil => rfl
  | cons a l ih => exact ih _

@[simp] theorem last_concat (p : Ptr) (l : List Addr) (a : Addr) : last p (l ++ [a]) = some a := last_append p l [a]

end Lists

section Segments

variable {h h' : Heap V} {p q : Ptr} {l l₁ l₂ : List Addr} {a : Addr} {head : Ptr}

theorem seg_append : Seg h p (l₁ ++ l₂) q ↔ Seg h p l₁ (first l₂ q) ∧ Seg h (last p l₁) l₂ q := by
  induction l₁ generalizing p with
  | nil => simp [Seg]
  | cons a l ih =>
    simp only [List.cons_append, Seg, last_cons, ih, first_append, and_assoc]

/-- A segment does not depend on other cells. -/
theorem Seg.frame (hs : Seg h p l q) (hsame : ∀ a ∈ l, h' a = h a) : Seg h' p l q := by
  induction l generalizing p with
  | nil => trivial
  | cons a l ih =>
    obtain ⟨⟨v, hv⟩, hl⟩ := hs
    exact ⟨⟨v, (hsame a List.mem_cons_self).trans hv⟩, ih hl fun b hb => hsame b (List.mem_cons_of_mem a hb)⟩

theorem Seg.allocated (hs : Seg h p l q) (ha : a ∈ l) : ∃ c, h a = some c := by
  induction l generalizing p with
  | nil => cases ha
  | cons b l ih =>
    obtain ⟨⟨v, hv⟩, hl⟩ := hs
    rcases List.mem_cons.1 ha with rfl | ha
    · exact ⟨_, hv⟩
    · exact ih hl ha

/-- The cell in the middle. -/
theorem Seg.cell (hs : Seg h p (l₁ ++ a :: l₂) q) : ∃ v, h a = some ⟨last p l₁, first l₂ q, v⟩ := (seg_append.1 hs).2.1

/-! ### Changing the ends -/

theorem withNext_of_ne {a : Addr} (hp : p ≠ some a) : h.withNext p q a = h a := by
  cases p with
  | none => rfl
  | some b => exact Function.update_of_ne (fun hab => hp (by rw [hab])) _ _

theorem withPrev_of_ne {a : Addr} (hp : p ≠ some a) : h.withPrev p q a = h a := by
  cases p with
  | none => rfl
  | some b => exact Function.update_of_ne (fun hab => hp (by rw [hab])) _ _

theorem withNext_self {c : Cell V} (hc : h a = some c) : h.withNext (some a) q a = some { c with next := q } := by
  simp [Heap.withNext, hc]

theorem withPrev_self {c : Cell V} (hc : h a = some c) : h.withPrev (some a) q a = some { c with prev := q } := by
  simp [Heap.withPrev, hc]

theorem sameVals_withNext (h : Heap V) (p q : Ptr) : SameVals h (h.withNext p q) := by
  intro a
  by_cases hp : p = some a
  · subst hp
    cases hc : h a with
    | none => simp [Heap.withNext, hc]
    | some c => simp [Heap.withNext, hc]
  · rw [withNext_of_ne hp]

theorem sameVals_withPrev (h : Heap V) (p q : Ptr) : SameVals h (h.withPrev p q) := by
  intro a
  by_cases hp : p = some a
  · subst hp
    cases hc : h a with
    | none => simp [Heap.withPrev, hc]
    | some c => simp [Heap.withPrev, hc]
  · rw [withPrev_of_ne hp]

theorem SameVals.trans {h'' : Heap V} (h₁ : SameVals h h') (h₂ : SameVals h' h'') : SameVals h h'' :=
  fun a => (h₂ a).trans (h₁ a)

theorem SameVals.some_of_some {c : Cell V} (hv : SameVals h h') (hc : h a = some c) :
    ∃ c', h' a = some c' ∧ c'.val = c.val := by
  have hmap := hv a
  rw [hc, Option.map_some] at hmap
  exact Option.map_eq_some_iff.1 hmap

theorem last_ne_of_notMem (hp : p ≠ some a) (ha : a ∉ l) : last p l ≠ some a := by
  induction l generalizing p with
  | nil => exact hp
  | cons b l ih =>
    refine ih (fun hb => ?_) fun hm => ha (List.mem_cons_of_mem b hm)
    cases hb
    exact ha List.mem_cons_self

theorem first_ne_of_notMem (hq : q ≠ some a) (ha : a ∉ l) : first l q ≠ some a := by
  cases l with
  | nil => exact hq
  | cons b l =>
    intro hb
    cases hb
    exact ha List.mem_cons_self

/-- Linking the last cell to another one. -/
theorem Seg.withNext (hs : Seg h p l q) (hn : l.Nodup) (q' : Ptr) : Seg (h.withNext (last none l) q') p l q' := by
  induction l using List.reverseRecOn with
  | nil => trivial
  | append_singleton l a _ =>
    have hnm : a ∉ l := fun ha => (List.nodup_append.1 hn).2.2 a ha a List.mem_cons_self rfl
    rw [last_concat]
    obtain ⟨hl, ⟨v, hv⟩, -⟩ := seg_append.1 hs
    refine seg_append.2 ⟨hl.frame fun b hb => withNext_of_ne ?_, ⟨v, withNext_self hv⟩, trivial⟩
    intro hab
    cases hab
    exact hnm hb

/-- Linking the first cell back to another one. -/
theorem Seg.withPrev (hs : Seg h p l q) (hn : l.Nodup) (p' : Ptr) : Seg (h.withPrev (first l none) p') p' l q := by
  cases l with
  | nil => trivial
  | cons a l =>
    obtain ⟨⟨v, hv⟩, hl⟩ := hs
    refine ⟨⟨v, withPrev_self hv⟩, hl.frame fun b hb => withPrev_of_ne ?_⟩
    intro hab
    cases hab
    exact (List.nodup_cons.1 hn).1 hb

/-- Taking a cell out of the middle. -/
theorem Seg.unlink (hs : Seg h none (l₁ ++ a :: l₂) none) (hn : (l₁ ++ a :: l₂).Nodup) :
    Seg ((h.withNext (last none l₁) (first l₂ none)).withPrev (first l₂ none) (last none l₁)) none (l₁ ++ l₂) none := by
  obtain ⟨hs₁, -, hs₂⟩ := seg_append.1 hs
  obtain ⟨hn₁, hn₂, hdisj⟩ := List.nodup_append.1 hn
  have hdisj₂ : ∀ b ∈ l₁, ∀ c ∈ l₂, b ≠ c := fun b hb c hc => hdisj b hb c (List.mem_cons_of_mem a hc)
  refine seg_append.2 ⟨?_, ?_⟩
  · refine (hs₁.withNext hn₁ (first l₂ none)).frame fun b hb => withPrev_of_ne ?_
    exact first_ne_of_notMem (by simp) fun hm => hdisj₂ b hb b hm rfl
  · refine Seg.withPrev (hs₂.frame fun b hb => withNext_of_ne ?_) (List.nodup_cons.1 hn₂).2 (last none l₁)
    exact last_ne_of_notMem (by simp) fun hm => hdisj₂ b hm b hb rfl

/-- Putting a cell in front. -/
theorem Seg.push {c : Cell V} (hs : Seg h none l q) (hn : l.Nodup) (ha : a ∉ l) (hc : h a = some c)
    (hp : c.prev = none) :
    Seg ((h.withNext (some a) (first l q)).withPrev (first l none) (some a)) none (a :: l) q := by
  have hframe : ∀ b ∈ l, h.withNext (some a) (first l q) b = h b := fun b hb =>
    withNext_of_ne (by rintro ⟨⟩; exact ha hb)
  refine ⟨⟨c.val, ?_⟩, (hs.frame hframe).withPrev hn (some a)⟩
  rw [withPrev_of_ne (first_ne_of_notMem (by simp) ha), withNext_self hc, hp]

/-- Putting a cell behind the last one. -/
theorem Seg.append {c : Cell V} (hs : Seg h p l none) (hn : l.Nodup) (hl : last none l = last p l) (ha : a ∉ l)
    (hc : h a = some c) (hq : c.next = none) :
    Seg ((h.withNext (last none l) (some a)).withPrev (some a) (last none l)) p (l ++ [a]) none := by
  refine seg_append.2 ⟨(hs.withNext hn (some a)).frame fun b hb => ?_, ?_, trivial⟩
  · exact withPrev_of_ne (by rintro ⟨⟩; exact ha hb)
  · have hc' : h.withNext (last none l) (some a) a = some c :=
      (withNext_of_ne (last_ne_of_notMem (by simp) ha)).trans hc
    refine ⟨c.val, ?_⟩
    rw [withPrev_self hc', hl, ← hq]
    rfl

theorem last_eq_none : last none l = none ↔ l = [] := by
  induction l using List.reverseRecOn with
  | nil => simp
  | append_singleton l a _ => simp

/-- Writes to two cells do not depend on their order. -/
theorem withPrev_withNext (hp : p ≠ some a) (q q' : Ptr) :
    (h.withPrev p q).withNext (some a) q' = (h.withNext (some a) q').withPrev p q := by
  cases p with
  | none => rfl
  | some b =>
    have hab : a ≠ b := fun hab => hp (by rw [hab])
    simp only [Heap.withPrev, Heap.withNext, Function.update_of_ne hab, Function.update_of_ne hab.symm]
    exact Function.update_comm hab.symm _ _ _

/-! ### Lists and segments -/

theorem Seg.path (hs : Seg h p l none) : Path h (first l none) l := by
  induction l generalizing p with
  | nil => exact .nil
  | cons a l ih =>
    obtain ⟨⟨v, hv⟩, hl⟩ := hs
    exact .cons hv (ih hl)

theorem Path.first (hp : Path h p l) : p = first l none := by cases hp <;> rfl

theorem Path.unique (hp : Path h p l₁) (hp' : Path h p l₂) : l₁ = l₂ := by
  induction hp generalizing l₂ with
  | nil =>
    cases hp'
    rfl
  | @cons a l c hc _ ih =>
    cases hp' with
    | @cons _ l' c' hc' hl' =>
      rw [hc] at hc'
      cases hc'
      rw [ih hl']

theorem Path.reach_iff (hp : Path h p l) : Reach h p a ↔ a ∈ l := by
  induction hp with
  | nil => constructor <;> rintro ⟨⟩
  | @cons b l c hc _ ih =>
    rw [List.mem_cons, ← ih]
    constructor
    · intro hr
      cases hr with
      | here => exact .inl rfl
      | @next _ _ c' hc' hr =>
        rw [hc] at hc'
        cases hc'
        exact .inr hr
    · rintro (rfl | hr)
      · exact .here _
      · exact .next hc hr

theorem DList.head_eq_none_iff (hl : DList h head l) : head = none ↔ l = [] := by
  rw [hl.head]
  cases l <;> simp

theorem DList.reach_iff (hl : DList h head l) : Reach h head a ↔ a ∈ l := by
  rw [hl.head]
  exact hl.seg.path.reach_iff

theorem last_eq_some (hp : last none l = some a) : ∃ l', l = l' ++ [a] := by
  induction l using List.reverseRecOn with
  | nil => cases hp
  | append_singleton l b _ =>
    rw [last_concat] at hp
    cases hp
    exact ⟨l, rfl⟩

theorem DList.mirror (hl : DList h head l) {a b : Addr} {c d : Cell V} (ha : a ∈ l) (hb : b ∈ l) (hc : h a = some c)
    (hd : h b = some d) : c.next = some b ↔ d.prev = some a := by
  constructor
  · intro hnext
    -- what follows `a` in the list is `b`, and the cell of `b` points back
    obtain ⟨l₁, l₂, rfl⟩ := List.append_of_mem ha
    obtain ⟨v, hv⟩ := hl.seg.cell
    rw [hc] at hv
    cases hv
    cases l₂ with
    | nil => cases hnext
    | cons b' l₂ =>
      cases hnext
      have hs := hl.seg
      rw [List.append_cons] at hs
      obtain ⟨w, hw⟩ := hs.cell
      rw [hd, last_concat] at hw
      cases hw
      rfl
  · intro hprev
    -- what stands before `b` in the list is `a`
    obtain ⟨l₁, l₂, rfl⟩ := List.append_of_mem hb
    obtain ⟨v, hv⟩ := hl.seg.cell
    rw [hd] at hv
    cases hv
    obtain ⟨l₃, rfl⟩ := last_eq_some hprev
    have hs := hl.seg
    rw [List.append_assoc] at hs
    obtain ⟨w, hw⟩ := Seg.cell hs
    rw [hc] at hw
    cases hw
    rfl

theorem DList.wellFormed (hl : DList h head l) : WellFormed h head := by
  refine ⟨fun a c ha hc => ?_, ⟨l, hl.head ▸ hl.seg.path, hl.nodup⟩, fun a b c d ha hb hc hd => ?_, fun a ha => ?_⟩
  · cases l with
    | nil => rw [hl.head] at ha; cases ha
    | cons b l =>
      rw [hl.head] at ha
      cases ha
      obtain ⟨⟨v, hv⟩, -⟩ := hl.seg
      rw [hc] at hv
      cases hv
      rfl
  · exact hl.mirror (hl.reach_iff.1 ha) (hl.reach_iff.1 hb) hc hd
  · exact hl.seg.allocated (hl.reach_iff.1 ha)

theorem WellFormed.seg (hw : WellFormed h head) {l : List Addr} {b p : Ptr} (hp : Path h p l)
    (hr : ∀ a ∈ l, Reach h head a) (hb : ∀ a c, p = some a → h a = some c → c.prev = b) : Seg h b l none := by
  induction hp generalizing b with
  | nil => trivial
  | @cons a l c hc hl ih =>
    refine ⟨⟨c.val, ?_⟩, ih (fun a' ha' => hr a' (List.mem_cons_of_mem a ha')) fun a' c' ha' hc' => ?_⟩
    · rw [hc, ← hl.first, ← hb a c rfl hc]
    · have hm : a' ∈ l := hl.reach_iff.1 (ha' ▸ .here a')
      exact (hw.mirror a a' c c' (hr a List.mem_cons_self) (hr a' (List.mem_cons_of_mem a hm)) hc hc').1 ha'

theorem wellFormed_iff : WellFormed h head ↔ ∃ l, DList h head l := by
  constructor
  · intro hw
    obtain ⟨l, hp, hn⟩ := hw.ends
    exact ⟨l, hp.first, hw.seg hp (fun a ha => hp.reach_iff.2 ha) hw.first, hn⟩
  · rintro ⟨l, hl⟩
    exact hl.wellFormed

end Segments

end Sysopy.Memory
