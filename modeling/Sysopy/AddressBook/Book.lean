/-
What the list is for: a sequence of records. Every call makes of the records what the machine on sequences does, at
whatever addresses the nodes are, and stops where that has no result; printList prints the sequence.
-/
import Sysopy.AddressBook.Find

namespace Sysopy.AddressBook

open Sysopy.Memory Sysopy.Memory.Prog Sysopy.CText Sysopy.Conc Sysopy.Sort

/-! ## Sequences of records -/

/-- A string of the record fits into `word`. -/
def Record.Fits (field : Field) (v : Record) : Prop := (v.get field).val.length < wordSize

instance (field : Field) (v : Record) : Decidable (v.Fits field) :=
  inferInstanceAs (Decidable ((v.get field).val.length < wordSize))

/-- What a call makes of the records: insertAtTail does nothing to none of them, and there is no result where the only
record is to be removed, where malloc fails, and where a string is too long to sort by. -/
def Op.on (vs : List Record) : Op → Option (List Record)
  | .insertAtHead m v => if m.new = none then none else some (v :: vs)
  | .insertAtTail m v => if m.new = none then none else if vs.isEmpty then some [] else some (vs ++ [v])
  | .removeAtHead => if vs.length = 1 then none else some vs.tail
  | .removeAtTail => if vs.length = 1 then none else some vs.dropLast
  | .sort field =>
    if ∀ v ∈ vs, v.Fits field then some (stableSort (fun v => (v.get field).val) vs.reverse) else none
  | .deleteList => some []

/-- The machine on sequences. -/
def book : System (List Record) Op := ⟨fun vs => vs.length ≤ 1, Op.on⟩

/-- The list has these records. -/
def Book (h : Heap Record) (head : Ptr) (vs : List Record) : Prop := ∃ es, Holds h head es ∧ es.map Prod.snd = vs

/-! ## Strings that are too long -/

section TooLong

variable {h : Heap Record} {head p prev : Ptr} {l rest : List Addr} {m : Addr} {cm : Node} {field : Field}

/-- The scan comes to each node. -/
theorem scan_stops (hs : Seg h p rest none) (hm : h m = some cm) (hne : rest ≠ [])
    (hlong : TooLong h field (m :: rest)) : (scan field ⟨prev, some m, first rest none⟩).Stops h .overflow := by
  induction rest generalizing p prev m cm with
  | nil => exact absurd rfl hne
  | cons x rest ih =>
    obtain ⟨⟨v, hx⟩, hs⟩ := hs
    have hcond : (pure (some x).isSome : Prog Record Bool).Returns h true h := returns_pure _ _
    by_cases hfit : Fits h field x ∧ Fits h field m
    · obtain ⟨hfx, hfm⟩ := hfit
      have hlater : TooLong h field rest := by
        obtain ⟨a, ha, hlong⟩ := hlong
        rcases List.mem_cons.1 ha with rfl | ha
        · exact absurd hfm hlong
        · rcases List.mem_cons.1 ha with rfl | ha
          · exact absurd hfx hlong
          · exact ⟨a, ha, hlong⟩
      obtain ⟨a, ha, hfa⟩ := hlater
      have hrest : rest ≠ [] := List.ne_nil_of_mem ha
      have hturn := scanNode_returns field prev hx hm hfx hfm
      split at hturn
      · exact yields_loop_turn hcond hturn (ih hs hx hrest ⟨a, List.mem_cons_of_mem _ ha, hfa⟩)
      · exact yields_loop_turn hcond hturn (ih hs hm hrest ⟨a, List.mem_cons_of_mem _ ha, hfa⟩)
    · exact stops_loop_turn hcond (scanNode_stops prev hx hm hfit)

theorem sort_stops (hl : DList h head l) (hlong : TooLong h field l) : (sort head field).Stops h .overflow := by
  obtain rfl := hl.head
  have hne : l ≠ [] := by
    obtain ⟨a, ha, -⟩ := hlong
    exact List.ne_nil_of_mem ha
  obtain ⟨m, rest, rfl⟩ := List.exists_cons_of_ne_nil hne
  obtain ⟨v, hv⟩ := hl.seg.1
  have hscan : (scan field ⟨none, some m, first (m :: rest) none⟩).Stops h .overflow := by
    refine scan_stops hl.seg hv (List.cons_ne_nil _ _) ?_
    obtain ⟨a, ha, hfa⟩ := hlong
    exact ⟨a, List.mem_cons_of_mem _ ha, hfa⟩
  have hturn : (sortTurn field (some m, none)).Stops h .overflow := .bind_stop (.bind_stop hscan)
  exact .bind_stop (stops_loop_turn (returns_pure _ _) hturn)

end TooLong

/-! ## One call -/

section Calls

variable {h h' : Heap Record} {head head' : Ptr} {vs vs' : List Record} {es : List (Addr × Record)} {m : Malloc}
  {v : Record} {field : Field} {op : Op}

/-- The call does to the list what the machine does to its records. -/
def Follows (h : Heap Record) (head : Ptr) (vs : List Record) (op : Op) : Prop :=
  match op.on vs with
  | some vs' => ∃ head' h', (op.prog head).Returns h head' h' ∧ Book h' head' vs'
  | none => ∃ e, (op.prog head).Stops h e

theorem follows_of_returns (hon : op.on vs = some vs') (hrun : (op.prog head).Returns h head' h')
    (hb : Book h' head' vs') : Follows h head vs op := by
  unfold Follows
  rw [hon]
  exact ⟨head', h', hrun, hb⟩

theorem follows_of_stops {e : Stop} (hon : op.on vs = none) (hstop : (op.prog head).Stops h e) :
    Follows h head vs op := by
  unfold Follows
  rw [hon]
  exact ⟨e, hstop⟩

theorem follows_insertAtHead (hh : Holds h head es) (hf : m.Fresh h) (v : Record) :
    Follows h head (es.map Prod.snd) (.insertAtHead m v) := by
  cases hm : m.new with
  | none => exact follows_of_stops (if_pos hm) (.bind_stop (createNode_stops hm v))
  | some a =>
    have ha := notMem_of_fresh hh.list (hf a hm)
    obtain ⟨h', hrun, hr⟩ := insertAtHead_returns hh.list hm ha v
    refine follows_of_returns (if_neg (by simp [hm])) hrun ⟨(a, v) :: es, ⟨hr.list, fun e he => ?_⟩, rfl⟩
    refine (hr.vals e.1).trans ?_
    rcases List.mem_cons.1 he with rfl | he
    · simp [withNew_self]
    · exact (hh.withNew ha v).vals e he

theorem follows_insertAtTail (hh : Holds h head es) (hf : m.Fresh h) (v : Record) :
    Follows h head (es.map Prod.snd) (.insertAtTail m v) := by
  cases hm : m.new with
  | none => exact follows_of_stops (if_pos hm) (.bind_stop (.bind_stop (createNode_stops hm v)))
  | some a =>
    cases es with
    | nil =>
      obtain rfl := hh.head_eq_none_iff.2 rfl
      exact follows_of_returns (by simp [Op.on, hm]) (.bind (insertAtTail_returns_nil hm v) (returns_pure _ _))
        ⟨[], holds_nil _, rfl⟩
    | cons e es =>
      have ha := notMem_of_fresh hh.list (hf a hm)
      obtain ⟨h', hrun, hr⟩ := insertAtTail_returns hh.list (List.cons_ne_nil _ _) hm ha v
      exact follows_of_returns (by simp [Op.on, hm]; rfl)
        (.bind hrun (returns_pure _ _)) ⟨_, hh.append ha hr, by simp⟩

theorem follows_removeAtHead (hh : Holds h head es) : Follows h head (es.map Prod.snd) .removeAtHead := by
  rcases es with _ | ⟨e, _ | ⟨e', es⟩⟩
  · obtain rfl := hh.head_eq_none_iff.2 rfl
    exact follows_of_returns rfl (returns_pure _ _) ⟨[], holds_nil h, rfl⟩
  · exact follows_of_stops rfl (removeAtHead_stops hh.list)
  · obtain ⟨h', hrun, hr⟩ := removeAtHead_returns hh.list
    exact follows_of_returns (by simp [Op.on]) hrun ⟨e' :: es, hh.relinked hr (List.subset_cons_self _ _), rfl⟩

theorem follows_removeAtTail (hh : Holds h head es) : Follows h head (es.map Prod.snd) .removeAtTail := by
  cases es using List.reverseRecOn with
  | nil =>
    obtain rfl := hh.head_eq_none_iff.2 rfl
    exact follows_of_returns rfl (.bind (returns_pure _ _) (returns_pure _ _)) ⟨[], holds_nil h, rfl⟩
  | append_singleton es e =>
    by_cases hes : es = []
    · subst hes
      exact follows_of_stops rfl (.bind_stop (removeAtTail_stops hh.list))
    · have hl : DList h head (es.map Prod.fst ++ [e.1]) := by simpa using hh.list
      obtain ⟨h', hrun, hr⟩ := removeAtTail_returns hl (by simpa using hes)
      exact follows_of_returns (by simp [Op.on, hes]) (.bind hrun (returns_pure _ _))
        ⟨es, hh.relinked hr (List.subset_append_left _ _), rfl⟩

/-- A record's string is the key of its node. -/
theorem Holds.key (hh : Holds h head es) {e : Addr × Record} (he : e ∈ es) :
    key h field e.1 = (e.2.get field).val := by
  obtain ⟨c, hc, hval⟩ := Option.map_eq_some_iff.1 (hh.vals e he)
  rw [key_eq hc, hval]

theorem Holds.tooLong_iff (hh : Holds h head es) :
    TooLong h field (es.map Prod.fst) ↔ ¬ ∀ v ∈ es.map Prod.snd, v.Fits field := by
  have hfits : ∀ e ∈ es, Fits h field e.1 ↔ e.2.Fits field := fun e he => by rw [Fits, hh.key he, Record.Fits]
  constructor
  · rintro ⟨a, ha, hlong⟩ hall
    obtain ⟨e, he, rfl⟩ := List.mem_map.1 ha
    exact hlong ((hfits e he).2 (hall e.2 (List.mem_map_of_mem he)))
  · intro hnot
    by_contra hno
    refine hnot fun v hv => ?_
    obtain ⟨e, he, rfl⟩ := List.mem_map.1 hv
    by_contra hlong
    exact hno ⟨e.1, List.mem_map_of_mem he, fun hfit => hlong ((hfits e he).1 hfit)⟩

theorem follows_sort (hh : Holds h head es) (field : Field) : Follows h head (es.map Prod.snd) (.sort field) := by
  by_cases hall : ∀ v ∈ es.map Prod.snd, v.Fits field
  · rcases sort_yields hh.list field with ⟨head', h', l', hrun, hl', hsorted, -⟩ | ⟨hlong, -⟩
    · -- the elements are sorted as the nodes are
      have hl : l' = (stableSort (fun e => (e.2.get field).val) es.reverse).map Prod.fst := by
        rw [hsorted.reverse.eq_stableSort, ← List.map_reverse, stableSort_map]
        congr 1
        exact stableSort_congr fun e he => hh.key (List.mem_reverse.1 he)
      refine follows_of_returns (if_pos hall) hrun ⟨_, ⟨hl ▸ hl', fun e he => ?_⟩, ?_⟩
      · refine (hsorted.vals e.1).trans (hh.vals e ?_)
        simpa using (stableSort_perm _ _).mem_iff.1 he
      · rw [← List.map_reverse, stableSort_map]
    · exact absurd hall (hh.tooLong_iff.1 hlong)
  · exact follows_of_stops (if_neg hall) (sort_stops hh.list (hh.tooLong_iff.2 hall))

theorem follows_deleteList (hh : Holds h head es) : Follows h head (es.map Prod.snd) .deleteList := by
  obtain ⟨h', hrun, -⟩ := deleteList_returns hh.list
  exact follows_of_returns rfl hrun ⟨[], holds_nil h', rfl⟩

/-- Every call does. -/
theorem Book.follows (hb : Book h head vs) (ha : op.Allowed h) : Follows h head vs op := by
  obtain ⟨es, hh, rfl⟩ := hb
  cases op with
  | insertAtHead m v => exact follows_insertAtHead hh ha v
  | insertAtTail m v => exact follows_insertAtTail hh ha v
  | removeAtHead => exact follows_removeAtHead hh
  | removeAtTail => exact follows_removeAtTail hh
  | sort field => exact follows_sort hh field
  | deleteList => exact follows_deleteList hh

end Calls

/-! ## Printing -/

/-- `printf` in the loop of `printList`. -/
def printNode (v : Record) : List Char :=
  "Name: ".toList ++ v.firstname.val ++ ", Surname: ".toList ++ v.lastname.val ++ ", Birth date: ".toList ++
    v.birthdate.val ++ ", Email: ".toList ++ v.email.val ++ ", Phone: ".toList ++ v.phone.val ++ ", Address ".toList ++
    v.address.val

/-- The loop in `printList`, with the lines printed so far. -/
def printLoop : Ptr × List (List Char) → Prog Record (Ptr × List (List Char)) :=
  loop (fun s => pure s.1.isSome) fun s => do
    let node ← load s.1
    pure (node.next, s.2 ++ [printNode node.val])

/-- `printList` of the programs in cw01/zad2, with the lines that it prints behind its first one. -/
def printList (head : Ptr) : Prog Record (List (List Char)) := do
  let s ← printLoop (head, [])
  pure s.2

section Printing

variable {h : Heap Record} {head p : Ptr} {vs : List Record}

theorem printLoop_returns {es : List (Addr × Record)} (hs : Seg h p (es.map Prod.fst) none)
    (hvals : ∀ e ∈ es, (h e.1).map Cell.val = some e.2) (printed : List (List Char)) :
    (printLoop (first (es.map Prod.fst) none, printed)).Returns h (none, printed ++ es.map fun e => printNode e.2)
      h := by
  induction es generalizing p printed with
  | nil =>
    rw [List.map_nil, List.map_nil, List.append_nil]
    exact returns_loop_done (returns_pure _ _)
  | cons e es ih =>
    obtain ⟨⟨v, hv⟩, hs⟩ := hs
    obtain ⟨hval, hvals⟩ := List.forall_mem_cons.1 hvals
    obtain rfl : v = e.2 := by simpa [hv] using hval
    have hrest := ih hs hvals (printed ++ [printNode e.2])
    rw [List.append_assoc] at hrest
    exact yields_loop_turn (returns_pure _ _) (.bind (returns_load hv) (returns_pure _ _)) hrest

theorem Book.prints (hb : Book h head vs) : (printList head).Returns h (vs.map printNode) h := by
  obtain ⟨es, hh, rfl⟩ := hb
  have hloop := printLoop_returns hh.list.seg hh.vals []
  rw [← hh.list.head] at hloop
  rw [List.nil_append] at hloop
  rw [List.map_map]
  exact .bind hloop (returns_pure _ _)

end Printing

/-! ## Runs -/

section Runs

variable {s s' : State} {vs : List Record}

theorem init_book (h0 : Init s) : ∃ vs, book.init vs ∧ Book s.heap s.head vs := by
  obtain ⟨h, -, rfl | ⟨m, v, hrun⟩⟩ := h0
  · exact ⟨[], Nat.zero_le 1, [], holds_nil h, rfl⟩
  · cases hm : m.new with
    | none => exact nomatch hrun.unique (createNode_stops hm v)
    | some a =>
      obtain ⟨hhead, hheap⟩ := Prod.mk.inj (Except.ok.inj (hrun.unique (createNode_returns hm v)))
      refine ⟨[v], le_rfl, [(a, v)], ⟨?_, ?_⟩, rfl⟩
      · rw [hhead, hheap]
        exact withNew_list h a v
      · rw [hheap]
        simp [withNew_self]

theorem book_next {a : Op × ℕ} (hb : Book s.heap s.head vs) (hs : next s a = some s') :
    ∃ vs', book.next vs a.1 = some vs' ∧ Book s'.heap s'.head vs' := by
  obtain ⟨ha, hrun⟩ := returns_of_next hs
  have hfollows := hb.follows ha
  unfold Follows at hfollows
  change ∃ vs', a.1.on vs = some vs' ∧ _
  cases hon : a.1.on vs with
  | none =>
    rw [hon] at hfollows
    obtain ⟨e, hstop⟩ := hfollows
    exact nomatch hrun.unique hstop
  | some vs' =>
    rw [hon] at hfollows
    obtain ⟨head', h', hret, hb'⟩ := hfollows
    obtain ⟨hhead, hheap⟩ := Prod.mk.inj (Except.ok.inj (hrun.unique hret))
    exact ⟨vs', rfl, by rwa [hhead, hheap]⟩

/-- A call can be made where the machine can make it. -/
theorem next_of_book {op : Op} (hb : Book s.heap s.head vs) (ha : op.Allowed s.heap) :
    (∃ k s', next s (op, k) = some s') ↔ (op.on vs).isSome = true := by
  constructor
  · rintro ⟨k, s', hs⟩
    obtain ⟨vs', hon, -⟩ := book_next hb hs
    exact Option.isSome_of_eq_some hon
  · intro hsome
    obtain ⟨vs', hon⟩ := Option.isSome_iff_exists.1 hsome
    have hfollows := hb.follows ha
    unfold Follows at hfollows
    rw [hon] at hfollows
    obtain ⟨head', h', ⟨-, k, hrun⟩, -⟩ := hfollows
    refine ⟨k, ⟨h', head'⟩, ?_⟩
    unfold next
    rw [if_pos ha, hrun]

/-- A run of calls is a run of the machine. -/
theorem Book.run (hb : Book s.heap s.head vs) {as : List (Op × ℕ)} (hr : system.run s as = some s') :
    ∃ vs', book.run vs (as.map Prod.fst) = some vs' ∧ Book s'.heap s'.head vs' :=
  System.run_simulates (R := fun s vs => Book s.heap s.head vs) (fun _ _ _ _ hb hs => book_next hb hs) as hb hr

/-- In every run, from no list or from createList on, the calls make of the list what the machine makes of its records:
printList prints just these, in this order, and the next call returns iff the machine has a result for it. -/
theorem book_run (h0 : Init s) {as : List (Op × ℕ)} (hr : system.run s as = some s') :
    ∃ vs vs', book.init vs ∧ (printList s.head).Returns s.heap (vs.map printNode) s.heap ∧
      book.run vs (as.map Prod.fst) = some vs' ∧
      (printList s'.head).Returns s'.heap (vs'.map printNode) s'.heap ∧
      ∀ op : Op, op.Allowed s'.heap → ((∃ k s'', next s' (op, k) = some s'') ↔ (op.on vs').isSome = true) := by
  obtain ⟨vs, hvs, hb⟩ := init_book h0
  obtain ⟨vs', hrun, hb'⟩ := hb.run hr
  exact ⟨vs, vs', hvs, hb.prints, hrun, hb'.prints, fun op ha => next_of_book hb' ha⟩

/-- Two insertions and a removal leave one record, which cannot be removed. -/
def oneLeft : List (Op × ℕ) :=
  [(.insertAtHead (memory 0) ann, 3), (.insertAtTail (memory 1) ann, 3), (.removeAtHead, 3)]

theorem book_run_oneLeft : ∃ s, system.run noNodes oneLeft = some s ∧
    (printList s.head).Returns s.heap [printNode ann] s.heap ∧ ¬ ∃ k s', next s (.removeAtHead, k) = some s' := by
  obtain ⟨s, hrun⟩ : ∃ s, system.run noNodes oneLeft = some s := ⟨_, rfl⟩
  have hinit : Init noNodes := ⟨fun _ => none, fun _ => rfl, .inl rfl⟩
  obtain ⟨vs, vs', -, hnone, hbook, hprints, hnext⟩ := book_run hinit hrun
  have hempty : (printList none).Returns noNodes.heap [] noNodes.heap :=
    .bind (returns_loop_done (returns_pure _ _)) (returns_pure _ _)
  obtain ⟨hvs, -⟩ := Prod.mk.inj (Except.ok.inj (hempty.unique hnone))
  obtain rfl : vs = [] := List.map_eq_nil_iff.1 hvs.symm
  obtain rfl : [ann] = vs' := Option.some.inj hbook
  refine ⟨s, hrun, hprints, fun hremove => ?_⟩
  have hsome : (Op.removeAtHead.on [ann]).isSome = true := (hnext .removeAtHead trivial).1 hremove
  cases hsome

end Runs

end Sysopy.AddressBook
