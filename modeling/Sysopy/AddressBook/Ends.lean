/-
The three calls at the ends of the list: insertAtTail, removeAtHead and removeAtTail. Each does what its name says,
with the other elements as they were, except where head and tail meet: insertAtTail on an empty list sets only its
parameter, and the removals follow the NULL next to the only node.
-/
import Sysopy.AddressBook.WellFormed

namespace Sysopy.AddressBook

open Sysopy.Memory Sysopy.Memory.Prog Sysopy.Conc

/-- The elements of a list in their order: the nodes with their records. -/
structure Holds (h : Heap Record) (head : Ptr) (es : List (Addr × Record)) : Prop where
  list : DList h head (es.map Prod.fst)
  vals : ∀ e ∈ es, (h e.1).map Cell.val = some e.2

section Elements

variable {h h' : Heap Record} {head head' : Ptr} {l : List Addr} {es es' : List (Addr × Record)} {a : Addr}
  {v : Record}

theorem elements_of_allocated (hl : ∀ a ∈ l, ∃ c, h a = some c) :
    ∃ es : List (Addr × Record), es.map Prod.fst = l ∧ ∀ e ∈ es, (h e.1).map Cell.val = some e.2 := by
  induction l with
  | nil => exact ⟨[], rfl, by simp⟩
  | cons a l ih =>
    obtain ⟨c, hc⟩ := hl a List.mem_cons_self
    obtain ⟨es, rfl, hvals⟩ := ih fun b hb => hl b (List.mem_cons_of_mem a hb)
    refine ⟨(a, c.val) :: es, rfl, List.forall_mem_cons.2 ⟨?_, hvals⟩⟩
    rw [hc, Option.map_some]

theorem holds_of_list (hl : DList h head l) : ∃ es, es.map Prod.fst = l ∧ Holds h head es := by
  obtain ⟨es, rfl, hvals⟩ := elements_of_allocated fun a ha => hl.seg.allocated ha
  exact ⟨es, rfl, hl, hvals⟩

theorem holds_nil (h : Heap Record) : Holds h none [] := ⟨list_nil h, by simp⟩

theorem Holds.head_eq_none_iff (hh : Holds h head es) : head = none ↔ es = [] :=
  hh.list.head_eq_none_iff.trans List.map_eq_nil_iff

/-- Nodes that are linked in another way have the records they had. -/
theorem Holds.relinked (hh : Holds h head es) (hr : Relinked h h' head' (es'.map Prod.fst)) (hsub : es' ⊆ es) :
    Holds h' head' es' :=
  ⟨hr.list, fun e he => (hr.vals e.1).trans (hh.vals e (hsub he))⟩

theorem Holds.withNew (hh : Holds h head es) (ha : a ∉ es.map Prod.fst) (v : Record) :
    Holds (withNew h a v) head es := by
  refine ⟨list_withNew hh.list ha v, fun e he => ?_⟩
  have hne : e.1 ≠ a := fun hea => ha (hea ▸ List.mem_map_of_mem he)
  rw [AddressBook.withNew, Function.update_of_ne hne]
  exact hh.vals e he

/-- A new node behind the others. -/
theorem Holds.append (hh : Holds h head es) (ha : a ∉ es.map Prod.fst)
    (hr : Relinked (AddressBook.withNew h a v) h' head' (es.map Prod.fst ++ [a])) :
    Holds h' head' (es ++ [(a, v)]) := by
  refine ⟨by simpa using hr.list, fun e he => (hr.vals e.1).trans ?_⟩
  rcases List.mem_append.1 he with he | he
  · exact (hh.withNew ha v).vals e he
  · obtain rfl := List.mem_singleton.1 he
    simp [withNew_self]

end Elements

/-! ## What the calls are for -/

/-- A call at one of the ends. -/
inductive EndCall where
  | insertAtTail (m : Malloc) (v : Record)
  | removeAtHead
  | removeAtTail

def EndCall.op : EndCall → Op
  | .insertAtTail m v => .insertAtTail m v
  | .removeAtHead => .removeAtHead
  | .removeAtTail => .removeAtTail

/-- The new record is the last element, or the first or the last one is gone. -/
def EndCall.Result (es es' : List (Addr × Record)) : EndCall → Prop
  | .insertAtTail _ v => ∃ a, es' = es ++ [(a, v)]
  | .removeAtHead => es' = es.tail
  | .removeAtTail => es' = es.dropLast

/-- The call returns, so that it has not followed NULL, and the caller's list is the one it is for. -/
def EndCall.Right (c : EndCall) (s : State) (es : List (Addr × Record)) : Prop :=
  ∃ head h' es', (c.op.prog s.head).Returns s.heap head h' ∧ Holds h' head es' ∧ c.Result es es'

/-- There is a node to append to, and memory; a node that is removed is not the only one. -/
def EndCall.Room (es : List (Addr × Record)) : EndCall → Prop
  | .insertAtTail m _ => m.new ≠ none ∧ es ≠ []
  | .removeAtHead | .removeAtTail => es.length ≠ 1

section Calls

variable {s : State} {es : List (Addr × Record)} {m : Malloc} {v : Record}

theorem insertAtTail_right_iff (hh : Holds s.heap s.head es) (hf : m.Fresh s.heap) (v : Record) :
    (EndCall.insertAtTail m v).Right s es ↔ m.new ≠ none ∧ es ≠ [] := by
  constructor
  · rintro ⟨head, h', es', hrun, hh', a, rfl⟩
    refine ⟨fun hm => ?_, ?_⟩
    · exact nomatch hrun.unique (.bind_stop (.bind_stop (createNode_stops hm v)))
    · rintro rfl
      -- the caller still has NULL
      cases hm : m.new with
      | none => exact nomatch hrun.unique (.bind_stop (.bind_stop (createNode_stops hm v)))
      | some b =>
        have hnil : ((EndCall.insertAtTail m v).op.prog none).Returns s.heap none (withNew s.heap b v) :=
          .bind (insertAtTail_returns_nil hm v) (returns_pure _ _)
        rw [hh.head_eq_none_iff.2 rfl] at hrun
        obtain ⟨rfl, rfl⟩ := Prod.mk.inj (Except.ok.inj (hrun.unique hnil))
        exact absurd (hh'.head_eq_none_iff.1 rfl) (by simp)
  · rintro ⟨hm, hne⟩
    obtain ⟨a, hm⟩ := Option.ne_none_iff_exists'.1 hm
    have ha := notMem_of_fresh hh.list (hf a hm)
    obtain ⟨h', hrun, hr⟩ := insertAtTail_returns hh.list (by simpa using hne) hm ha v
    exact ⟨s.head, h', _, .bind hrun (returns_pure _ _), hh.append ha hr, a, rfl⟩

theorem removeAtHead_right_iff (hh : Holds s.heap s.head es) :
    EndCall.removeAtHead.Right s es ↔ es.length ≠ 1 := by
  constructor
  · rintro ⟨head, h', es', hrun, -⟩ hone
    obtain ⟨e, rfl⟩ := List.length_eq_one_iff.1 hone
    exact nomatch hrun.unique (removeAtHead_stops hh.list)
  · intro hne
    rcases es with _ | ⟨e, _ | ⟨e', es⟩⟩
    · refine ⟨none, s.heap, [], ?_, holds_nil _, rfl⟩
      rw [hh.head_eq_none_iff.2 rfl]
      exact returns_pure _ _
    · exact absurd rfl hne
    · obtain ⟨h', hrun, hr⟩ := removeAtHead_returns hh.list
      exact ⟨_, h', e' :: es, hrun, hh.relinked hr (List.subset_cons_self _ _), rfl⟩

theorem removeAtTail_right_iff (hh : Holds s.heap s.head es) :
    EndCall.removeAtTail.Right s es ↔ es.length ≠ 1 := by
  constructor
  · rintro ⟨head, h', es', hrun, -⟩ hone
    obtain ⟨e, rfl⟩ := List.length_eq_one_iff.1 hone
    exact nomatch hrun.unique (.bind_stop (removeAtTail_stops hh.list))
  · intro hne
    cases es using List.reverseRecOn with
    | nil =>
      refine ⟨none, s.heap, [], ?_, holds_nil _, rfl⟩
      rw [hh.head_eq_none_iff.2 rfl]
      exact .bind (returns_pure _ _) (returns_pure _ _)
    | append_singleton es e =>
      have hes : es ≠ [] := fun h => hne (by simp [h])
      have hl : DList s.heap s.head (es.map Prod.fst ++ [e.1]) := by simpa using hh.list
      obtain ⟨h', hrun, hr⟩ := removeAtTail_returns hl (by simpa using hes)
      exact ⟨s.head, h', es, .bind hrun (returns_pure _ _), hh.relinked hr (List.subset_append_left _ _),
        List.dropLast_concat.symm⟩

theorem right_iff_room (hh : Holds s.heap s.head es) {c : EndCall} (ha : c.op.Allowed s.heap) :
    c.Right s es ↔ c.Room es := by
  cases c with
  | insertAtTail m v => exact insertAtTail_right_iff hh ha v
  | removeAtHead => exact removeAtHead_right_iff hh
  | removeAtTail => exact removeAtTail_right_iff hh

/-- In every reachable state the three calls do what they are for exactly when the list has nodes to append to, and
when the node to be removed is not the only one. -/
theorem ends_right_iff (hs : system.Reachable s) : ∃ es, Holds s.heap s.head es ∧
    ∀ c : EndCall, c.op.Allowed s.heap → (c.Right s es ↔ c.Room es) := by
  obtain ⟨l, hl⟩ := reachable_list hs
  obtain ⟨es, -, hh⟩ := holds_of_list hl
  exact ⟨es, hh, fun c ha => right_iff_room hh ha⟩

end Calls

/-! ## Where the ends meet -/

/-- Nothing is allocated. -/
def noNodes : State := ⟨fun _ => none, none⟩

/-- What createList leaves. -/
def oneNode : State := ⟨withNew (fun _ => none) 0 ann, some 0⟩

/-- Memory at an address. -/
def memory (a : Addr) : Malloc := ⟨some a, ⟨none, none, ann⟩⟩

theorem noNodes_reachable : system.Reachable noNodes := .init ⟨fun _ => none, fun _ => rfl, .inl rfl⟩

theorem oneNode_reachable : system.Reachable oneNode :=
  .init ⟨fun _ => none, fun _ => rfl, .inr ⟨memory 0, ann, createNode_returns rfl ann⟩⟩

def bea : Record := (person none none ⟨['B', 'e', 'a'], by simp⟩ ⟨['R', 'a', 'y'], by simp⟩).val

/-- A second node in front of it. -/
def twoInserted : List (Op × ℕ) := [(.insertAtHead (memory 1) bea, 3)]

/-- The last of two nodes is removed. -/
theorem ends_right_iff_twoNodes : ∃ s es, system.run oneNode twoInserted = some s ∧ Holds s.heap s.head es ∧
    es.map Prod.fst = [1, 0] ∧ EndCall.removeAtTail.Right s es := by
  obtain ⟨s, hrun, hpath⟩ : ∃ s, system.run oneNode twoInserted = some s ∧ Path s.heap s.head [1, 0] :=
    ⟨_, rfl, .cons rfl (.cons rfl .nil)⟩
  obtain ⟨es, hh, hright⟩ := ends_right_iff (System.Reachable.run twoInserted oneNode_reachable hrun)
  have hes : es.map Prod.fst = [1, 0] := hpath.unique (hh.list.head ▸ hh.list.seg.path) |>.symm
  refine ⟨s, es, hrun, hh, hes, (hright .removeAtTail trivial).2 fun hone => ?_⟩
  have hlen := congrArg List.length hes
  rw [List.length_map, hone] at hlen
  cases hlen

/-- Nothing is appended to the empty list, and from a list of one node nothing is removed. -/
theorem ends_meet :
    (system.Reachable noNodes ∧ Holds noNodes.heap noNodes.head [] ∧
      (EndCall.insertAtTail (memory 0) ann).op.Allowed noNodes.heap ∧
      ¬ (EndCall.insertAtTail (memory 0) ann).Right noNodes []) ∧
    system.Reachable oneNode ∧ Holds oneNode.heap oneNode.head [(0, ann)] ∧
      (removeAtHead oneNode.head).Stops oneNode.heap .null ∧ (removeAtTail oneNode.head).Stops oneNode.heap .null := by
  have hfresh : (memory 0).Fresh noNodes.heap := fun _ _ => rfl
  have hone : DList oneNode.heap oneNode.head [0] := withNew_list _ 0 ann
  have hvals : ∀ e ∈ [(0, ann)], (oneNode.heap e.1).map Cell.val = some e.2 := by
    intro e he
    obtain rfl := List.mem_singleton.1 he
    rfl
  refine ⟨⟨noNodes_reachable, holds_nil _, hfresh, fun hright => ?_⟩, oneNode_reachable, ⟨hone, hvals⟩, ?_, ?_⟩
  · exact ((insertAtTail_right_iff (holds_nil _) hfresh ann).1 hright).2 rfl
  · exact removeAtHead_stops hone
  · exact removeAtTail_stops hone

end Sysopy.AddressBook
