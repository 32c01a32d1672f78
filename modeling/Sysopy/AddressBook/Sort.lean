/-
removeMax takes the first largest node out of a well-formed list, and sort puts these in front of each other. So
sort returns, relinks the same nodes without touching their strings, and leaves them in order, those with equal
keys in reverse.
-/
import Sysopy.AddressBook.List
import Sysopy.Sort.Selection

namespace Sysopy.AddressBook

open Sysopy.Memory Sysopy.Memory.Prog Sysopy.CText Sysopy.Sort

/-- The string of a node that it is sorted by. -/
def key (h : Heap Record) (field : Field) (a : Addr) : List Char :=
  match h a with
  | some c => (c.val.get field).val
  | none => []

/-- That string fits into `word`. -/
def Fits (h : Heap Record) (field : Field) (a : Addr) : Prop := (key h field a).length < wordSize

instance (h : Heap Record) (field : Field) (a : Addr) : Decidable (Fits h field a) :=
  inferInstanceAs (Decidable ((key h field a).length < wordSize))

/-- One of the nodes has a string that is too long. -/
def TooLong (h : Heap Record) (field : Field) (l : List Addr) : Prop := ∃ a ∈ l, ¬ Fits h field a

section Keys

variable {h h' : Heap Record} {field : Field} {l : List Addr} {a b : Addr} {c : Node}

theorem key_eq (hc : h a = some c) : key h field a = (c.val.get field).val := by simp only [key, hc]

theorem key_sameVals (hv : SameVals h h') (field : Field) : key h' field = key h field := by
  funext a
  cases hc : h a with
  | none =>
    have hnone : h' a = none := by simpa [hc] using hv a
    simp only [key, hc, hnone]
  | some c =>
    obtain ⟨c', hc', hval⟩ := hv.some_of_some hc
    rw [key_eq hc', key_eq hc, hval]

theorem TooLong.sameVals {l' : List Addr} (hlong : TooLong h' field l) (hv : SameVals h h') (hl : ∀ a ∈ l, a ∈ l') :
    TooLong h field l' := by
  obtain ⟨a, ha, hfit⟩ := hlong
  rw [Fits, key_sameVals hv field] at hfit
  exact ⟨a, hl a ha, hfit⟩

theorem nul_notMem_key (h : Heap Record) (field : Field) (a : Addr) : '\x00' ∉ key h field a := by
  unfold key
  split
  · exact (Record.get _ field).2
  · simp

theorem strcmp_key_pos : 0 < strcmp (key h field b) (key h field a) ↔ key h field a < key h field b :=
  strcmp_pos_iff (nul_notMem_key h field b) (nul_notMem_key h field a)

theorem strcmp_key_nonpos : strcmp (key h field a) (key h field b) ≤ 0 ↔ key h field a ≤ key h field b :=
  strcmp_nonpos_iff (nul_notMem_key h field a) (nul_notMem_key h field b)

end Keys

/-! ## The scan -/

section Scan

variable {h : Heap Record} {field : Field} {l l₁ l₂ rest : List Addr} {p : Ptr} {m x : Addr} {cm cx : Node}

theorem scanNode_returns (field : Field) (p : Ptr) (hx : h x = some cx) (hm : h m = some cm) (hfx : Fits h field x)
    (hfm : Fits h field m) : (scanNode field ⟨p, some m, some x⟩).Returns h
      (if 0 < strcmp (key h field x) (key h field m) then ⟨cx.prev, some x, cx.next⟩ else ⟨p, some m, cx.next⟩) h := by
  rw [Fits, key_eq hx] at hfx
  rw [Fits, key_eq hm] at hfm
  rw [key_eq hx, key_eq hm]
  refine .bind (returns_load hx) (.bind (returns_strcpyTo hfx) ?_)
  refine .bind (returns_load hm) (.bind (returns_strcpyTo hfm) ?_)
  split
  · exact returns_pure _ _
  · exact returns_pure _ _

theorem scanNode_stops (p : Ptr) (hx : h x = some cx) (hm : h m = some cm)
    (hfit : ¬ (Fits h field x ∧ Fits h field m)) :
    (scanNode field ⟨p, some m, some x⟩).Stops h .overflow := by
  rw [Fits, Fits, key_eq hx, key_eq hm] at hfit
  by_cases hfx : (cx.val.get field).val.length < wordSize
  · have hfm : ¬ (cm.val.get field).val.length < wordSize := fun hfm => hfit ⟨hfx, hfm⟩
    exact .bind (returns_load hx) (.bind (returns_strcpyTo hfx) (.bind (returns_load hm) (.bind_stop
      (stops_strcpyTo hfm))))
  · exact .bind (returns_load hx) (.bind_stop (stops_strcpyTo hfx))

/-- `max` is the first largest of the nodes before `current`, and `prev` the one in front of it. -/
structure Scanning (h : Heap Record) (field : Field) (l : List Addr) (k : ℕ) (s : Scan) (l₁ : List Addr) (m : Addr)
    (l₂ rest : List Addr) : Prop where
  split : l = l₁ ++ m :: (l₂ ++ rest)
  max : FirstMax (key h field) l₁ m l₂
  state : s = ⟨last none l₁, some m, first rest none⟩
  left : rest.length = k

/-- In its first turn `removeMax` compares the head with itself. -/
theorem scanNode_first (hs : Seg h none (m :: rest) none) (field : Field) :
    (scanNode field ⟨none, some m, some m⟩).Returns h ⟨none, some m, first rest none⟩ h ∨
      TooLong h field (m :: rest) ∧ (scanNode field ⟨none, some m, some m⟩).Stops h .overflow := by
  obtain ⟨⟨v, hv⟩, -⟩ := hs
  by_cases hm : Fits h field m
  · have hrun := scanNode_returns field none hv hv hm hm
    rw [if_neg (by rw [strcmp_key_pos]; exact lt_irrefl _)] at hrun
    exact .inl hrun
  · exact .inr ⟨⟨m, List.mem_cons_self, hm⟩, scanNode_stops none hv hv fun h => hm h.1⟩

/-- The next node is the new maximum, or it is passed over, or a string does not fit. -/
theorem Scanning.turn {k : ℕ} {s : Scan} (hs : Seg h none l none) (hI : Scanning h field l (k + 1) s l₁ m l₂ rest) :
    (∃ s' l₁' m' l₂' rest', (scanNode field s).Returns h s' h ∧ Scanning h field l k s' l₁' m' l₂' rest') ∨
      TooLong h field l ∧ (scanNode field s).Stops h .overflow := by
  obtain ⟨rfl, hmax, rfl, hleft⟩ := hI
  obtain ⟨x, rest, rfl⟩ := List.exists_cons_of_length_eq_add_one hleft
  obtain ⟨vm, hm⟩ := hs.cell
  have hs' : Seg h none ((l₁ ++ m :: l₂) ++ x :: rest) none := by simpa using hs
  obtain ⟨vx, hx⟩ := hs'.cell
  by_cases hfit : Fits h field x ∧ Fits h field m
  · left
    have hrun := scanNode_returns field (last none l₁) hx hm hfit.1 hfit.2
    split at hrun
    · rename_i hlt
      exact ⟨_, l₁ ++ m :: l₂, x, [], rest, hrun, by simp, hmax.replace (strcmp_key_pos.1 hlt), rfl,
        by simpa using hleft⟩
    · rename_i hle
      have hle' : key h field x ≤ key h field m := not_lt.1 fun hlt => hle (strcmp_key_pos.2 hlt)
      exact ⟨_, l₁, m, l₂ ++ [x], rest, hrun, by simp, hmax.keep hle', rfl, by simpa using hleft⟩
  · refine .inr ⟨?_, scanNode_stops _ hx hm hfit⟩
    rcases not_and_or.1 hfit with hfx | hfm
    · exact ⟨x, by simp, hfx⟩
    · exact ⟨m, by simp, hfm⟩

theorem scan_rest (hs : Seg h none l none) {k : ℕ} {s : Scan} (hI : Scanning h field l k s l₁ m l₂ rest) :
    (∃ l₁ m l₂, l = l₁ ++ m :: l₂ ∧ FirstMax (key h field) l₁ m l₂ ∧
      (scan field s).Returns h ⟨last none l₁, some m, none⟩ h) ∨
      TooLong h field l ∧ (scan field s).Stops h .overflow := by
  let I (k : ℕ) (s : Scan) (h' : Heap Record) : Prop := h' = h ∧ ∃ l₁ m l₂ rest, Scanning h field l k s l₁ m l₂ rest
  have hloop : (∃ s' h', (scan field s).Returns h s' h' ∧ I 0 s' h') ∨
      TooLong h field l ∧ (scan field s).Stops h .overflow := by
    refine yields_loop ?_ ?_ k s h ⟨rfl, l₁, m, l₂, rest, hI⟩
    · rintro s h' ⟨rfl, l₁, m, l₂, rest, -, -, rfl, hrest⟩
      obtain rfl := List.eq_nil_of_length_eq_zero hrest
      exact returns_pure _ _
    · rintro k s h' ⟨rfl, l₁, m, l₂, rest, hI⟩
      obtain ⟨x, rest', rfl⟩ := List.exists_cons_of_length_eq_add_one hI.left
      refine ⟨by rw [hI.state]; exact returns_pure _ _, (hI.turn hs).imp_left ?_⟩
      rintro ⟨s', l₁', m', l₂', rest', hrun, hI'⟩
      exact ⟨s', h', hrun, rfl, l₁', m', l₂', rest', hI'⟩
  refine hloop.imp_left ?_
  rintro ⟨s', h', hrun, rfl, l₁, m, l₂, rest, hsplit, hmax, rfl, hrest⟩
  obtain rfl := List.eq_nil_of_length_eq_zero hrest
  exact ⟨l₁, m, l₂, by simpa using hsplit, hmax, hrun⟩

/-- The loop of `removeMax` finds the first largest node and the one in front of it. -/
theorem scan_yields (hs : Seg h none l none) (hne : l ≠ []) (field : Field) :
    (∃ l₁ m l₂, l = l₁ ++ m :: l₂ ∧ FirstMax (key h field) l₁ m l₂ ∧
      (scan field ⟨none, first l none, first l none⟩).Returns h ⟨last none l₁, some m, none⟩ h) ∨
      TooLong h field l ∧ (scan field ⟨none, first l none, first l none⟩).Stops h .overflow := by
  obtain ⟨m₀, l₀, rfl⟩ := List.exists_cons_of_ne_nil hne
  have hI : Scanning h field (m₀ :: l₀) l₀.length ⟨none, some m₀, first l₀ none⟩ [] m₀ [] l₀ :=
    ⟨rfl, firstMax_single _ _, rfl, rfl⟩
  rcases scanNode_first hs field with hfirst | ⟨hlong, hstop⟩
  · rcases scan_rest hs hI with ⟨l₁, m, l₂, hsplit, hmax, hrun⟩ | ⟨hlong, hstop⟩
    · exact .inl ⟨l₁, m, l₂, hsplit, hmax, yields_loop_turn (returns_pure _ _) hfirst hrun⟩
    · exact .inr ⟨hlong, yields_loop_turn (returns_pure _ _) hfirst hstop⟩
  · exact .inr ⟨hlong, stops_loop_turn (returns_pure _ _) hstop⟩

end Scan

/-! ## The maximum is taken out -/

section Unlink

variable {h : Heap Record} {field : Field} {l l₁ l₂ : List Addr} {m : Addr}

/-- What `removeMax` leaves: the other nodes in a list, the maximum on its own, the strings as they were. -/
structure Unlinked (h h' : Heap Record) (l₁ : List Addr) (m : Addr) (l₂ : List Addr) : Prop where
  seg : Seg h' none (l₁ ++ l₂) none
  alone : ∃ v, h' m = some ⟨none, none, v⟩
  vals : SameVals h h'
  frame : ∀ a ∉ l₁ ++ m :: l₂, h' a = h a

theorem fixHead_returns (hs : Seg h none (l₁ ++ m :: l₂) none) :
    (fixHead (first (l₁ ++ m :: l₂) none) (last none l₁)).Returns h (first (l₁ ++ l₂) none) h := by
  unfold fixHead
  cases l₁ with
  | nil =>
    obtain ⟨v, hv⟩ := hs.cell
    exact .bind (returns_load hv) (returns_pure _ _)
  | cons a l₁ =>
    rw [if_neg (by rw [last_eq_none]; simp)]
    exact returns_pure _ _

/-- `prev` is NULL or in the list. -/
theorem last_allocated (hs : Seg h none l₁ (some m)) {a : Addr} (ha : last none l₁ = some a) : ∃ c, h a = some c := by
  obtain ⟨l', rfl⟩ := last_eq_some ha
  exact hs.allocated (by simp)

theorem fixNext_returns (hs : Seg h none (l₁ ++ m :: l₂) none) :
    (fixNext ⟨last none l₁, some m, none⟩).Returns h () (h.withNext (last none l₁) (first l₂ none)) := by
  obtain ⟨v, hv⟩ := hs.cell
  unfold fixNext
  cases hp : last none l₁ with
  | none => exact returns_when_false (by simp)
  | some a =>
    obtain ⟨c, hc⟩ := last_allocated (seg_append.1 hs).1 hp
    exact returns_when_true (by simp) (.bind (returns_load hv) (returns_store hc))

theorem fixPrev_returns {v : Record} (hs : Seg h (some m) l₂ none) (hm : h m = some ⟨last none l₁, first l₂ none, v⟩) :
    (fixPrev ⟨last none l₁, some m, none⟩).Returns h () (h.withPrev (first l₂ none) (last none l₁)) := by
  refine .bind (returns_load hm) (returns_when_storePrev fun a ha => ?_)
  cases l₂ with
  | nil => cases ha
  | cons b l₂ =>
    cases ha
    exact hs.allocated List.mem_cons_self

/-- `max->next = NULL; max->prev = NULL;` -/
theorem alone_frame (hs : Seg h none l none) (hm : m ∉ l) :
    Seg ((h.withNext (some m) none).withPrev (some m) none) none l none := by
  refine hs.frame fun a ha => ?_
  have hne : some m ≠ some a := by
    rintro ⟨⟩
    exact hm ha
  rw [withPrev_of_ne hne, withNext_of_ne hne]

theorem unlinkMax_returns (hs : Seg h none (l₁ ++ m :: l₂) none) (hn : (l₁ ++ m :: l₂).Nodup) :
    ∃ h', (unlinkMax (first (l₁ ++ m :: l₂) none) ⟨last none l₁, some m, none⟩).Returns h
      (some m, first (l₁ ++ l₂) none) h' ∧ Unlinked h h' l₁ m l₂ := by
  obtain ⟨v, hm⟩ := hs.cell
  obtain ⟨hm₁, hm₂⟩ : m ∉ l₁ ∧ m ∉ l₂ := by
    rw [List.nodup_middle, List.nodup_cons, List.mem_append] at hn
    exact not_or.1 hn.1
  -- the stores of `sort` that take `m` out, one after the other
  let h₁ := h.withNext (last none l₁) (first l₂ none)
  let h₂ := h₁.withPrev (first l₂ none) (last none l₁)
  have hcell₁ : h₁ m = some ⟨last none l₁, first l₂ none, v⟩ :=
    (withNext_of_ne (last_ne_of_notMem (by simp) hm₁)).trans hm
  have hcell₂ : h₂ m = some ⟨last none l₁, first l₂ none, v⟩ :=
    (withPrev_of_ne (first_ne_of_notMem (by simp) hm₂)).trans hcell₁
  have hcell₃ := withNext_self (q := none) hcell₂
  have hs₂ : Seg h₁ (some m) l₂ none := (seg_append.1 hs).2.2.frame fun b hb => withNext_of_ne <|
    last_ne_of_notMem (by simp) fun hb' => (List.nodup_append.1 hn).2.2 b hb' b (List.mem_cons_of_mem m hb) rfl
  refine ⟨(h₂.withNext (some m) none).withPrev (some m) none, ?_, ?_⟩
  · refine .bind (fixHead_returns hs) (.bind (fixNext_returns hs) (.bind (fixPrev_returns hs₂ hcell₁) ?_))
    exact .bind (returns_store hcell₂) (.bind (returns_store hcell₃) (returns_pure _ _))
  · refine ⟨alone_frame (hs.unlink hn) ?_, ⟨v, withPrev_self hcell₃⟩, ?_, fun a ha => ?_⟩
    · rw [List.mem_append]
      exact not_or.2 ⟨hm₁, hm₂⟩
    · exact (((sameVals_withNext _ _ _).trans (sameVals_withPrev _ _ _)).trans (sameVals_withNext _ _ _)).trans
        (sameVals_withPrev _ _ _)
    · obtain ⟨ha₁, hne, ha₂⟩ : a ∉ l₁ ∧ a ≠ m ∧ a ∉ l₂ := by simpa [not_or] using ha
      have hma : some m ≠ some a := fun h => hne (Option.some.inj h).symm
      calc ((h₂.withNext (some m) none).withPrev (some m) none) a
        _ = h₂ a := (withPrev_of_ne hma).trans (withNext_of_ne hma)
        _ = h₁ a := withPrev_of_ne (first_ne_of_notMem (by simp) ha₂)
        _ = h a := withNext_of_ne (last_ne_of_notMem (by simp) ha₁)

theorem removeMax_yields (hl : DList h (first l none) l) (hne : l ≠ []) (field : Field) :
    (∃ l₁ m l₂ h', l = l₁ ++ m :: l₂ ∧ FirstMax (key h field) l₁ m l₂ ∧
      (removeMax (first l none) field).Returns h (some m, first (l₁ ++ l₂) none) h' ∧ Unlinked h h' l₁ m l₂) ∨
      TooLong h field l ∧ (removeMax (first l none) field).Stops h .overflow := by
  rcases scan_yields hl.seg hne field with ⟨l₁, m, l₂, rfl, hmax, hscan⟩ | ⟨hlong, hstop⟩
  · obtain ⟨h', hunlink, hout⟩ := unlinkMax_returns hl.seg hl.nodup
    exact .inl ⟨l₁, m, l₂, h', rfl, hmax, .bind hscan hunlink, hout⟩
  · exact .inr ⟨hlong, .bind_stop hstop⟩

end Unlink

/-! ## The loop of sort -/

section Sorting

variable {h₀ h : Heap Record} {field : Field} {l₀ l acc : List Addr} {s : Ptr × Ptr} {k : ℕ}

/-- The nodes still in the list and those already sorted. -/
structure Split (h₀ : Heap Record) (field : Field) (l₀ : List Addr) (s : Ptr × Ptr) (h : Heap Record)
    (l acc : List Addr) : Prop where
  list : DList h s.1 l
  sorted : DList h s.2 acc
  apart : ∀ a ∈ l, a ∉ acc
  selected : Selected (key h₀ field) l₀ l acc
  vals : SameVals h₀ h
  frame : ∀ a ∉ l₀, h a = h₀ a

/-- The maximum goes in front of the sorted nodes. -/
theorem placeSorted_returns {m : Addr} {v : Record} (hacc : DList h (first acc none) acc) (hm : m ∉ acc)
    (hv : h m = some ⟨none, none, v⟩) :
    ∃ h', (placeSorted (some m) (first acc none)).Returns h (some m) h' ∧ DList h' (some m) (m :: acc) ∧
      SameVals h h' ∧ ∀ a ∉ m :: acc, h' a = h a := by
  unfold placeSorted
  have hnodup : (m :: acc).Nodup := List.nodup_cons.2 ⟨hm, hacc.nodup⟩
  cases acc with
  | nil => exact ⟨h, returns_pure _ _, ⟨rfl, ⟨⟨v, hv⟩, trivial⟩, hnodup⟩, fun _ => rfl, fun _ _ => rfl⟩
  | cons b acc =>
    obtain ⟨c, hc⟩ := hacc.seg.allocated List.mem_cons_self
    have hne : some m ≠ some b := fun hmb => hm (by rw [Option.some.inj hmb]; exact List.mem_cons_self)
    refine ⟨(h.withNext (some m) (some b)).withPrev (some b) (some m), ?_, ⟨rfl, ?_, hnodup⟩, ?_, fun a ha => ?_⟩
    · exact .bind (returns_store hv) (.bind (returns_store ((withNext_of_ne hne).trans hc)) (returns_pure _ _))
    · exact hacc.seg.push hacc.nodup hm hv rfl
    · exact (sameVals_withNext _ _ _).trans (sameVals_withPrev _ _ _)
    · obtain ⟨ham, hab, -⟩ : a ≠ m ∧ a ≠ b ∧ a ∉ acc := by simpa [not_or] using ha
      rw [withPrev_of_ne fun h => hab (Option.some.inj h).symm, withNext_of_ne fun h => ham (Option.some.inj h).symm]

theorem Split.turn (hs : Split h₀ field l₀ s h l acc) (hl : l.length = k + 1) :
    (∃ s' h' l' acc', (sortTurn field s).Returns h s' h' ∧ Split h₀ field l₀ s' h' l' acc' ∧ l'.length = k) ∨
      TooLong h₀ field l₀ ∧ (sortTurn field s).Stops h .overflow := by
  obtain ⟨head, sorted⟩ := s
  obtain ⟨hlist, hsorted, hapart, hsel, hvals, hframe⟩ := hs
  obtain rfl : head = first l none := hlist.head
  obtain rfl : sorted = first acc none := hsorted.head
  have hmem : ∀ a, a ∈ l₀ ↔ a ∈ acc ∨ a ∈ l := fun a => by rw [← hsel.perm.mem_iff, List.mem_append]
  rcases removeMax_yields hlist (by rintro rfl; cases hl) field with
    ⟨l₁, m, l₂, h₁, rfl, hmax, hremove, hseg, ⟨v, hv⟩, hvals₁, hframe₁⟩ | ⟨hlong, hstop⟩
  rotate_left
  · exact .inr ⟨hlong.sameVals hvals fun a ha => (hmem a).2 (.inr ha), .bind_stop hstop⟩
  -- the maximum is moved in front of what has been sorted
  have hm : m ∉ acc := hapart m (by simp)
  have hacc : DList h₁ (first acc none) acc :=
    ⟨rfl, hsorted.seg.frame fun a ha => hframe₁ a fun hal => hapart a hal ha, hsorted.nodup⟩
  obtain ⟨h₂, hplace, hnew, hvals₂, hframe₂⟩ := placeSorted_returns hacc hm hv
  obtain ⟨hml, hnl⟩ : m ∉ l₁ ++ l₂ ∧ (l₁ ++ l₂).Nodup := by
    rw [← List.nodup_cons, ← List.nodup_middle]
    exact hlist.nodup
  have hsub : ∀ a ∈ l₁ ++ l₂, a ∈ l₁ ++ m :: l₂ := fun a ha => by
    rcases List.mem_append.1 ha with ha | ha <;> simp [ha]
  have hout : ∀ a ∈ l₁ ++ l₂, a ∉ m :: acc := fun a ha ham => by
    rcases List.mem_cons.1 ham with rfl | haa
    · exact hml ha
    · exact hapart a (hsub a ha) haa
  refine .inl ⟨_, h₂, l₁ ++ l₂, m :: acc, .bind hremove (.bind hplace (returns_pure _ _)), ?_, ?_⟩
  rotate_left
  · rw [List.length_append, List.length_cons] at hl
    rw [List.length_append]
    omega
  refine ⟨⟨rfl, hseg.frame fun a ha => hframe₂ a (hout a ha), hnl⟩, hnew, hout, ?_, ?_, fun a ha => ?_⟩
  -- the keys are still those of the heap in which the sort began
  · rw [key_sameVals hvals field] at hmax
    exact hsel.select hmax
  · exact (hvals.trans hvals₁).trans hvals₂
  · rw [hmem, not_or] at ha
    have ham : a ∉ m :: acc := fun h => by
      rcases List.mem_cons.1 h with rfl | h
      · exact ha.2 (by simp)
      · exact ha.1 h
    rw [hframe₂ a ham, hframe₁ a ha.2, hframe a fun h => ((hmem a).1 h).elim ha.1 ha.2]

/-- The loop of `sort` moves every node. -/
theorem sortLoop_yields (hl : DList h₀ (first l₀ none) l₀) (field : Field) :
    (∃ s h acc, (sortLoop field (first l₀ none, none)).Returns h₀ s h ∧ Split h₀ field l₀ s h [] acc) ∨
      TooLong h₀ field l₀ ∧ (sortLoop field (first l₀ none, none)).Stops h₀ .overflow := by
  let I (k : ℕ) (s : Ptr × Ptr) (h : Heap Record) : Prop := ∃ l acc, Split h₀ field l₀ s h l acc ∧ l.length = k
  have hloop : (∃ s h, (sortLoop field (first l₀ none, none)).Returns h₀ s h ∧ I 0 s h) ∨
      TooLong h₀ field l₀ ∧ (sortLoop field (first l₀ none, none)).Stops h₀ .overflow := by
    refine yields_loop ?_ ?_ l₀.length _ _ ⟨l₀, [], ⟨hl, ⟨rfl, trivial, .nil⟩, by simp, selected_start _ _,
      fun _ => rfl, fun _ _ => rfl⟩, rfl⟩
    · rintro s h ⟨l, acc, hI, hk⟩
      obtain rfl := List.eq_nil_of_length_eq_zero hk
      rw [hI.list.head]
      exact returns_pure _ _
    · rintro k s h ⟨l, acc, hI, hk⟩
      have hturn := hI.turn hk
      obtain ⟨a, l, rfl⟩ := List.exists_cons_of_length_eq_add_one hk
      refine ⟨by rw [hI.list.head]; exact returns_pure _ _, hturn.imp_left ?_⟩
      rintro ⟨s', h', l', acc', hrun, hI', hk'⟩
      exact ⟨s', h', hrun, l', acc', hI', hk'⟩
  refine hloop.imp_left ?_
  rintro ⟨s, h, hrun, l, acc, hI, hk⟩
  obtain rfl := List.eq_nil_of_length_eq_zero hk
  exact ⟨s, h, acc, hrun, hI⟩

end Sorting

/-! ## Sorting -/

section Sorted

variable {h h' : Heap Record} {head : Ptr} {l l' : List Addr}

/-- `l'` has the nodes of `l`, once each and with their strings, in order by the chosen one, and those in which it
is the same in reverse. -/
structure SortedBy (h h' : Heap Record) (field : Field) (l l' : List Addr) : Prop where
  perm : l'.Perm l
  nodup : l'.Nodup
  vals : SameVals h h'
  order : l'.Pairwise fun a b => strcmp (key h' field a) (key h' field b) ≤ 0
  ties : ∀ word, l'.filter (fun a => decide (key h' field a = word)) =
    (l.filter fun a => decide (key h field a = word)).reverse

/-- `sort` on a list: it sorts, unless a string does not fit into `word`. -/
theorem sort_yields (hl : DList h head l) (field : Field) :
    (∃ head' h' l', (sort head field).Returns h head' h' ∧ DList h' head' l' ∧ SortedBy h h' field l l' ∧
      ∀ a ∉ l, h' a = h a) ∨ TooLong h field l ∧ (sort head field).Stops h .overflow := by
  obtain rfl := hl.head
  rcases sortLoop_yields hl field with ⟨s, h', l', hrun, hI⟩ | ⟨hlong, hstop⟩
  · have hkey := key_sameVals hI.vals field
    obtain ⟨hperm, hsorted, hties⟩ := hI.selected.done
    refine .inl ⟨s.2, h', l', .bind hrun (returns_pure _ _), hI.sorted, ⟨hperm, hI.sorted.nodup, hI.vals, ?_, ?_⟩,
      hI.frame⟩
    · rw [hkey]
      exact hsorted.imp strcmp_key_nonpos.2
    · rw [hkey]
      intro word
      convert hties word
  · exact .inr ⟨hlong, .bind_stop hstop⟩

/-- `sort` returns on every well-formed list whose strings fit into `word`, with NULL never followed, and leaves it
well formed and sorted. -/
theorem sort_sorts (hw : WellFormed h head) (hl : Path h head l) {field : Field} (hfits : ∀ a ∈ l, Fits h field a) :
    ∃ head' h' l', (sort head field).Returns h head' h' ∧ WellFormed h' head' ∧ Path h' head' l' ∧
      SortedBy h h' field l l' := by
  obtain ⟨l₁, hd⟩ := wellFormed_iff.1 hw
  obtain rfl : l = l₁ := hl.unique (hd.head ▸ hd.seg.path)
  rcases sort_yields hd field with ⟨head', h', l', hrun, hd', hsorted, -⟩ | ⟨⟨a, ha, hlong⟩, -⟩
  · exact ⟨head', h', l', hrun, hd'.wellFormed, hd'.head ▸ hd'.seg.path, hsorted⟩
  · exact absurd (hfits a ha) hlong

end Sorted

/-- A node with two strings. -/
def person (prev next : Ptr) (firstname lastname : CStr) : Node :=
  ⟨prev, next, ⟨firstname, lastname, ⟨[], nul_not_mem_empty⟩, ⟨[], nul_not_mem_empty⟩, ⟨[], nul_not_mem_empty⟩,
    ⟨[], nul_not_mem_empty⟩⟩⟩

/-- Two nodes with the same name, and one whose name comes first. -/
def threeNodes : Heap Record
  | 0 => some (person none (some 1) ⟨['b'], by simp⟩ ⟨['x'], by simp⟩)
  | 1 => some (person (some 0) (some 2) ⟨['b'], by simp⟩ ⟨['y'], by simp⟩)
  | 2 => some (person (some 1) none ⟨['a'], nul_not_mem_a⟩ ⟨['z'], by simp⟩)
  | _ => none

theorem threeNodes_list : DList threeNodes (some 0) [0, 1, 2] :=
  ⟨rfl, ⟨⟨_, rfl⟩, ⟨_, rfl⟩, ⟨_, rfl⟩, trivial⟩, by decide⟩

theorem sort_sorts_threeNodes : ∃ head' h' l', (sort (some 0) .firstname).Returns threeNodes head' h' ∧
    WellFormed h' head' ∧ Path h' head' l' ∧ SortedBy threeNodes h' .firstname [0, 1, 2] l' := by
  refine sort_sorts threeNodes_list.wellFormed threeNodes_list.seg.path ?_
  decide

end Sysopy.AddressBook
