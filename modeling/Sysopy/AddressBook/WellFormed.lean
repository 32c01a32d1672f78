/-
Every call on a well-formed list leaves one, or stops: because it follows NULL, as removing from a list of one node
does and an insertion when malloc fails, or, for a sort, because a string does not fit into `word`. So the list is
well formed in every run.
-/
import Sysopy.AddressBook.Sort

namespace Sysopy.AddressBook

open Sysopy.Memory Sysopy.Memory.Prog Sysopy.Conc

/-- The program returns a list, or it follows NULL. -/
def KeepsList (p : Prog Record Ptr) (h : Heap Record) : Prop :=
  (∃ head h' l, p.Returns h head h' ∧ DList h' head l) ∨ p.Stops h .null

section Calls

variable {h h' : Heap Record} {head p q : Ptr} {l l' : List Addr} {a : Addr} {m : Malloc} {v : Record}

theorem list_nil (h : Heap Record) : DList h none [] := ⟨rfl, trivial, .nil⟩

/-! ## Insertion -/

/-- The heap with a new node. -/
def withNew (h : Heap Record) (a : Addr) (v : Record) : Heap Record := Function.update h a (some ⟨none, none, v⟩)

theorem withNew_self (h : Heap Record) (a : Addr) (v : Record) : withNew h a v a = some ⟨none, none, v⟩ :=
  Function.update_self ..

theorem createNode_returns (hm : m.new = some a) (v : Record) :
    (createNode m v).Returns h (some a) (withNew h a v) := by
  obtain ⟨_, junk⟩ := m
  subst hm
  have hheap : (((Heap.withNext (Function.update h a (some junk)) (some a) none).withPrev (some a) none).withVal
      (some a) v) = withNew h a v := by
    simp [Heap.withNext, Heap.withPrev, Heap.withVal, withNew]
  refine .bind (returns_malloc a junk) (.bind (returns_store (Function.update_self ..)) ?_)
  refine .bind (returns_store (withNext_self (Function.update_self ..))) ?_
  rw [← hheap]
  exact .bind (returns_store (withPrev_self (withNext_self (Function.update_self ..)))) (returns_pure _ _)

theorem createNode_stops (hm : m.new = none) (v : Record) : (createNode m v).Stops h .null := by
  obtain ⟨_, junk⟩ := m
  subst hm
  exact .bind (returns_malloc_none junk) (.bind_stop stops_store_none)

theorem notMem_of_fresh (hl : DList h head l) (ha : h a = none) : a ∉ l := by
  intro hm
  obtain ⟨c, hc⟩ := hl.seg.allocated hm
  rw [ha] at hc
  cases hc

/-- The list is as it was after an allocation. -/
theorem list_withNew (hl : DList h head l) (ha : a ∉ l) (v : Record) : DList (withNew h a v) head l := by
  refine ⟨hl.head, hl.seg.frame fun b hm => Function.update_of_ne ?_ _ _, hl.nodup⟩
  rintro rfl
  exact ha hm

theorem withNew_list (h : Heap Record) (a : Addr) (v : Record) : DList (withNew h a v) (some a) [a] :=
  ⟨rfl, ⟨⟨v, withNew_self h a v⟩, trivial⟩, List.nodup_singleton a⟩

/-- What a call leaves that takes no node's record away: a list of these nodes. -/
structure Relinked (h h' : Heap Record) (head : Ptr) (l : List Addr) : Prop where
  list : DList h' head l
  vals : SameVals h h'

theorem insertAtHead_returns (hl : DList h head l) (hm : m.new = some a) (ha : a ∉ l) (v : Record) :
    ∃ h', (insertAtHead head m v).Returns h (some a) h' ∧ Relinked (withNew h a v) h' (some a) (a :: l) := by
  have hnew := list_withNew hl ha v
  have hcell := withNew_self h a v
  obtain rfl := hl.head
  cases l with
  | nil =>
    exact ⟨_, .bind (createNode_returns hm v) (returns_pure _ _), withNew_list h a v, fun _ => rfl⟩
  | cons b l =>
    obtain ⟨c, hc⟩ := hnew.seg.allocated List.mem_cons_self
    have hne : some b ≠ some a := fun hba => ha (by rw [← Option.some.inj hba]; exact List.mem_cons_self)
    refine ⟨_, .bind (createNode_returns hm v) (.bind (returns_store hc) (.bind
      (returns_store ((withPrev_of_ne hne).trans hcell)) (returns_pure _ _))), ⟨rfl, ?_, ?_⟩, ?_⟩
    · rw [withPrev_withNext hne]
      exact hnew.seg.push hl.nodup ha hcell rfl
    · exact List.nodup_cons.2 ⟨ha, hl.nodup⟩
    · exact (sameVals_withPrev _ _ _).trans (sameVals_withNext _ _ _)

/-- `while(tail->next != NULL) tail = tail->next;` stops at the last node. -/
theorem findTail_returns (hs : Seg h p (a :: l) none) : (findTail (some a)).Returns h (last p (a :: l)) h := by
  induction l generalizing p a with
  | nil =>
    obtain ⟨⟨v, hv⟩, -⟩ := hs
    exact returns_loop_done (.bind (returns_load hv) (returns_pure _ _))
  | cons b l ih =>
    obtain ⟨⟨v, hv⟩, hl⟩ := hs
    refine yields_loop_turn (.bind (returns_load hv) (returns_pure _ _)) (.bind (returns_load hv) (returns_pure _ _)) ?_
    exact ih hl

theorem last_allocated_of_seg (hs : Seg h p (a :: l) q) : ∃ b c, last p (a :: l) = some b ∧ h b = some c := by
  induction l generalizing p a with
  | nil =>
    obtain ⟨⟨v, hv⟩, -⟩ := hs
    exact ⟨a, _, rfl, hv⟩
  | cons b l ih => exact ih hs.2

theorem insertAtTail_returns (hl : DList h head l) (hne : l ≠ []) (hm : m.new = some a) (ha : a ∉ l) (v : Record) :
    ∃ h', (insertAtTail head m v).Returns h () h' ∧ Relinked (withNew h a v) h' head (l ++ [a]) := by
  obtain rfl := hl.head
  obtain ⟨b, l, rfl⟩ := List.exists_cons_of_ne_nil hne
  have hnew := list_withNew hl ha v
  have hcell := withNew_self h a v
  obtain ⟨t, c, ht, hc⟩ := last_allocated_of_seg hnew.seg
  -- the new node is not the tail, so the first of the two stores leaves it alone
  have hta : some t ≠ some a := ht ▸ last_ne_of_notMem (by simp) ha
  have hlink : (do storeNext (last none (b :: l)) (some a); storePrev (some a) (last none (b :: l)) :
      Prog Record Unit).Returns (withNew h a v) ()
      (((withNew h a v).withNext (last none (b :: l)) (some a)).withPrev (some a) (last none (b :: l))) := by
    rw [ht]
    exact .bind (returns_store hc) (returns_store ((withNext_of_ne hta).trans hcell))
  have hrun : (insertAtTail (some b) m v).Returns h () _ :=
    .bind (createNode_returns hm v) (.bind (findTail_returns hnew.seg) hlink)
  refine ⟨_, hrun, ⟨rfl, hnew.seg.append hl.nodup rfl ha hcell rfl, ?_⟩, ?_⟩
  · refine List.nodup_append.2 ⟨hl.nodup, List.nodup_singleton a, fun x hx y hy => ?_⟩
    rintro rfl
    exact ha (List.mem_singleton.1 hy ▸ hx)
  · exact (sameVals_withNext _ _ _).trans (sameVals_withPrev _ _ _)

/-- On an empty list only the parameter is set: nothing leads to the new node. -/
theorem insertAtTail_returns_nil (hm : m.new = some a) (v : Record) :
    (insertAtTail none m v).Returns h () (withNew h a v) :=
  .bind (createNode_returns hm v) (returns_pure _ _)

/-! ## Removal -/

theorem removeAtHead_returns {b : Addr} (hl : DList h head (a :: b :: l)) :
    ∃ h', (removeAtHead head).Returns h (some b) h' ∧ Relinked h h' (some b) (b :: l) := by
  obtain rfl := hl.head
  obtain ⟨⟨v, hv⟩, hs⟩ := hl.seg
  obtain ⟨c, hc⟩ := hs.allocated List.mem_cons_self
  obtain ⟨hnm, hn⟩ := List.nodup_cons.1 hl.nodup
  have hne : some b ≠ some a := fun hba => hnm (by rw [← Option.some.inj hba]; exact List.mem_cons_self)
  exact ⟨_, .bind (returns_load hv) (.bind (returns_store hc)
    (.bind (returns_load ((withPrev_of_ne hne).trans hv)) (returns_pure _ _))), ⟨rfl, hs.withPrev hn none, hn⟩,
    sameVals_withPrev _ _ _⟩

/-- The only node has none behind it. -/
theorem removeAtHead_stops (hl : DList h head [a]) : (removeAtHead head).Stops h .null := by
  obtain rfl := hl.head
  obtain ⟨⟨v, hv⟩, -⟩ := hl.seg
  exact .bind (returns_load hv) (.bind_stop stops_store_none)

theorem removeAtTail_returns (hl : DList h head (l ++ [a])) (hne : l ≠ []) :
    ∃ h', (removeAtTail head).Returns h () h' ∧ Relinked h h' head l := by
  obtain rfl := hl.head
  obtain ⟨b, l, rfl⟩ := List.exists_cons_of_ne_nil hne
  obtain ⟨v, hv⟩ := hl.seg.cell
  obtain ⟨t, c, ht, hc⟩ := last_allocated_of_seg (seg_append.1 hl.seg).1
  have hfind : (findTail (some b)).Returns h (some a) h := by
    rw [← last_concat none (b :: l) a]
    exact findTail_returns hl.seg
  have hn := (List.nodup_append.1 hl.nodup).1
  have hlink : (storeNext (last none (b :: l)) none : Prog Record Unit).Returns h ()
      (h.withNext (last none (b :: l)) none) := by
    rw [ht]
    exact returns_store hc
  exact ⟨_, .bind hfind (.bind (returns_load hv) hlink), ⟨rfl, (seg_append.1 hl.seg).1.withNext hn none, hn⟩,
    sameVals_withNext _ _ _⟩

/-- The only node has none in front of it. -/
theorem removeAtTail_stops (hl : DList h head [a]) : (removeAtTail head).Stops h .null := by
  obtain rfl := hl.head
  obtain ⟨⟨v, hv⟩, -⟩ := hl.seg
  exact .bind (findTail_returns hl.seg) (.bind (returns_load hv) stops_store_none)

/-- The loop of `deleteList` frees node after node, and these only. -/
theorem deleteList_returns (hl : DList h head l) :
    ∃ h', (deleteList head).Returns h none h' ∧ (∀ a ∈ l, h' a = none) ∧ ∀ a ∉ l, h' a = h a := by
  let I (k : ℕ) (current : Ptr) (h₁ : Heap Record) : Prop :=
    ∃ p l₁ l₂, l = l₁ ++ l₂ ∧ current = first l₂ none ∧ Seg h₁ p l₂ none ∧ l₂.length = k ∧
      (∀ a ∈ l₁, h₁ a = none) ∧ ∀ a ∉ l, h₁ a = h a
  obtain ⟨s, h', hrun, p, l₁, l₂, rfl, -, -, hk, hfreed, hframe⟩ :
      ∃ s h', (loop (fun current => pure current.isSome)
        (fun current => do let node ← load current; free current; pure node.next) head).Returns h s h' ∧ I 0 s h' := by
    refine returns_loop ?_ ?_ l.length head h ⟨none, [], l, rfl, hl.head, hl.seg, rfl, by simp, fun _ _ => rfl⟩
    · rintro s h₁ ⟨p, l₁, l₂, -, rfl, -, hk, -⟩
      obtain rfl := List.eq_nil_of_length_eq_zero hk
      exact returns_pure _ _
    · rintro k s h₁ ⟨p, l₁, l₂, rfl, rfl, hs, hk, hfreed, hframe⟩
      obtain ⟨a, l₂, rfl⟩ := List.exists_cons_of_length_eq_add_one hk
      obtain ⟨⟨v, hv⟩, hs⟩ := hs
      obtain ⟨hnm, -⟩ := List.nodup_cons.1 (List.nodup_append.1 hl.nodup).2.1
      refine ⟨returns_pure _ _, _, _, .bind (returns_load hv) (.bind (returns_free hv) (returns_pure _ _)), some a,
        l₁ ++ [a], l₂, by simp, rfl, hs.frame fun b hm => Function.update_of_ne (by rintro rfl; exact hnm hm) _ _,
        by simpa using hk, fun b hb => ?_, fun b hb => ?_⟩
      · by_cases hba : b = a
        · rw [hba, Function.update_self]
        · rw [Function.update_of_ne hba]
          exact hfreed b (by simpa [hba] using hb)
      · rw [Function.update_of_ne (by rintro rfl; simp at hb)]
        exact hframe b hb
  obtain rfl := List.eq_nil_of_length_eq_zero hk
  exact ⟨h', .bind hrun (returns_pure _ _), by simpa using hfreed, by simpa using hframe⟩

/-! ## Every call -/

/-- A list of one node, or of more and taken from the end. -/
theorem eq_nil_or_singleton_or (l : List Addr) :
    l = [] ∨ (∃ a, l = [a]) ∨ ∃ l' a, l = l' ++ [a] ∧ l' ≠ [] := by
  cases l using List.reverseRecOn with
  | nil => exact .inl rfl
  | append_singleton l a =>
    by_cases hl : l = []
    · exact .inr (.inl ⟨a, by rw [hl]; rfl⟩)
    · exact .inr (.inr ⟨l, a, rfl, hl⟩)

theorem insertAtHead_list (hl : DList h head l) (hf : m.Fresh h) (v : Record) :
    KeepsList (insertAtHead head m v) h := by
  cases hm : m.new with
  | none => exact .inr (.bind_stop (createNode_stops hm v))
  | some a =>
    obtain ⟨h', hrun, hl', -⟩ := insertAtHead_returns hl hm (notMem_of_fresh hl (hf a hm)) v
    exact .inl ⟨_, h', _, hrun, hl'⟩

theorem insertAtTail_list (hl : DList h head l) (hf : m.Fresh h) (v : Record) :
    KeepsList (do insertAtTail head m v; pure head) h := by
  cases hm : m.new with
  | none => exact .inr (.bind_stop (.bind_stop (createNode_stops hm v)))
  | some a =>
    have ha := notMem_of_fresh hl (hf a hm)
    by_cases hne : l = []
    · obtain rfl := hl.head_eq_none_iff.2 hne
      exact .inl ⟨none, _, [], .bind (insertAtTail_returns_nil hm v) (returns_pure _ _), list_nil _⟩
    · obtain ⟨h', hrun, hl', -⟩ := insertAtTail_returns hl hne hm ha v
      exact .inl ⟨head, h', _, .bind hrun (returns_pure _ _), hl'⟩

theorem removeAtHead_list (hl : DList h head l) : KeepsList (removeAtHead head) h := by
  rcases l with _ | ⟨a, _ | ⟨b, l⟩⟩
  · obtain rfl := hl.head
    exact .inl ⟨none, h, [], returns_pure _ _, hl⟩
  · exact .inr (removeAtHead_stops hl)
  · obtain ⟨h', hrun, hl', -⟩ := removeAtHead_returns hl
    exact .inl ⟨_, h', _, hrun, hl'⟩

theorem removeAtTail_list (hl : DList h head l) : KeepsList (do removeAtTail head; pure head) h := by
  rcases eq_nil_or_singleton_or l with rfl | ⟨a, rfl⟩ | ⟨l, a, rfl, hne⟩
  · obtain rfl := hl.head
    exact .inl ⟨none, h, [], .bind (returns_pure _ _) (returns_pure _ _), hl⟩
  · exact .inr (.bind_stop (removeAtTail_stops hl))
  · obtain ⟨h', hrun, hl', -⟩ := removeAtTail_returns hl hne
    exact .inl ⟨head, h', l, .bind hrun (returns_pure _ _), hl'⟩

theorem deleteList_list (hl : DList h head l) : KeepsList (deleteList head) h := by
  obtain ⟨h', hrun, -⟩ := deleteList_returns hl
  exact .inl ⟨none, h', [], hrun, list_nil h'⟩

theorem prog_list (hl : DList h head l) {op : Op} (ha : op.Allowed h) :
    KeepsList (op.prog head) h ∨ ∃ field, op = .sort field ∧ TooLong h field l ∧ (op.prog head).Stops h .overflow := by
  cases op with
  | insertAtHead m v => exact .inl (insertAtHead_list hl ha v)
  | insertAtTail m v => exact .inl (insertAtTail_list hl ha v)
  | removeAtHead => exact .inl (removeAtHead_list hl)
  | removeAtTail => exact .inl (removeAtTail_list hl)
  | sort field =>
    rcases sort_yields hl field with ⟨head', h', l', hrun, hl', -⟩ | hstop
    · exact .inl (.inl ⟨head', h', l', hrun, hl'⟩)
    · exact .inr ⟨field, rfl, hstop⟩
  | deleteList => exact .inl (deleteList_list hl)

end Calls

/-! ## Runs -/

section Runs

variable {s s' : State}

theorem init_list (h0 : Init s) : ∃ l, DList s.heap s.head l := by
  obtain ⟨h, -, rfl | ⟨m, v, hrun⟩⟩ := h0
  · exact ⟨[], list_nil h⟩
  · cases hm : m.new with
    | none => exact nomatch hrun.unique (createNode_stops hm v)
    | some a =>
      obtain ⟨hhead, hheap⟩ := Prod.mk.inj (Except.ok.inj (hrun.unique (createNode_returns hm v)))
      rw [hhead, hheap]
      exact ⟨[a], withNew_list h a v⟩

/-- The state after a call is what its program returns. -/
theorem returns_of_next {a : Op × ℕ} (hs : next s a = some s') :
    a.1.Allowed s.heap ∧ (a.1.prog s.head).Returns s.heap s'.head s'.heap := by
  unfold next at hs
  split at hs
  · rename_i ha
    refine ⟨ha, ?_⟩
    cases hrun : (a.1.prog s.head).run a.2 s.heap with
    | error e => simp [hrun] at hs
    | ok r =>
      simp only [hrun, Option.some.injEq] at hs
      subst hs
      exact .of_run hrun (by simp)
  · cases hs

theorem next_list {a : Op × ℕ} (hl : ∃ l, DList s.heap s.head l) (hs : next s a = some s') :
    ∃ l, DList s'.heap s'.head l := by
  obtain ⟨l, hl⟩ := hl
  obtain ⟨ha, hrun⟩ := returns_of_next hs
  rcases prog_list hl ha with (⟨head', h', l', hret, hl'⟩ | hstop) | ⟨field, -, -, hstop⟩
  · obtain ⟨hhead, hheap⟩ := Prod.mk.inj (Except.ok.inj (hrun.unique hret))
    exact ⟨l', hhead ▸ hheap ▸ hl'⟩
  · exact nomatch hrun.unique hstop
  · exact nomatch hrun.unique hstop

theorem reachable_list (h : system.Reachable s) : ∃ l, DList s.heap s.head l :=
  h.invariant (I := fun s => ∃ l, DList s.heap s.head l) (fun _ h0 => init_list h0) fun _ _ _ _ hl hs => next_list hl hs

/-- In every run the list is well formed; and the next call returns, or it follows NULL, or it is a sort by strings
of which one does not fit into `word`. -/
theorem list_wellFormed (h : system.Reachable s) : WellFormed s.heap s.head ∧ ∀ op : Op, op.Allowed s.heap →
    (∃ head h', (op.prog s.head).Returns s.heap head h') ∨ (op.prog s.head).Stops s.heap .null ∨
      ∃ field a, op = .sort field ∧ Reach s.heap s.head a ∧ ¬ Fits s.heap field a := by
  obtain ⟨l, hl⟩ := reachable_list h
  refine ⟨hl.wellFormed, fun op ha => ?_⟩
  rcases prog_list hl ha with (⟨head, h', l', hret, -⟩ | hstop) | ⟨field, hop, ⟨a, ham, hlong⟩, -⟩
  · exact .inl ⟨head, h', hret⟩
  · exact .inr (.inl hstop)
  · exact .inr (.inr ⟨field, a, hop, hl.reach_iff.2 ham, hlong⟩)

end Runs

def ann : Record := (person none none ⟨['A', 'n', 'n'], by simp⟩ ⟨['L', 'e', 'e'], by simp⟩).val

/-- Two insertions, a sort and a removal. -/
def someCalls : List (Op × ℕ) :=
  [(.insertAtHead ⟨some 0, ⟨none, none, ann⟩⟩ ann, 3), (.insertAtTail ⟨some 1, ⟨none, none, ann⟩⟩ ann, 3),
    (.sort .lastname, 5), (.removeAtHead, 3)]

theorem list_wellFormed_someCalls : ∃ s, system.run ⟨fun _ => none, none⟩ someCalls = some s ∧ s.head = some 0 ∧
    WellFormed s.heap s.head := by
  obtain ⟨s, hrun, hhead⟩ : ∃ s, system.run ⟨fun _ => none, none⟩ someCalls = some s ∧ s.head = some 0 :=
    ⟨_, rfl, rfl⟩
  have hinit : Init ⟨fun _ => none, none⟩ := ⟨fun _ => none, fun _ => rfl, .inl rfl⟩
  exact ⟨s, hrun, hhead, (list_wellFormed (System.Reachable.run (S := system) someCalls (.init hinit) hrun)).1⟩

end Sysopy.AddressBook
