/-
Which nodes are allocated. Insertion, sort and deleteList keep them the nodes of the list. The removals do not free
what they unlink, and insertAtTail on an empty list leaves its node to nobody; so the nodes are all freed in the
end in the runs without these calls.
-/
import Sysopy.AddressBook.Ends

namespace Sysopy.AddressBook

open Sysopy.Memory Sysopy.Memory.Prog Sysopy.Conc

/-- The nodes that are allocated and not yet freed are those that head leads to. -/
def Owned (s : State) : Prop := ∀ a, s.heap a ≠ none ↔ Reach s.heap s.head a

/-- A call in the life of a list: one that is given the list, or createList, whose list the caller then has. -/
inductive Call where
  | createList (m : Malloc) (v : Record)
  | use (op : Op)

def Call.prog (head : Ptr) : Call → Prog Record Ptr
  | .createList m v => AddressBook.createList m v
  | .use op => op.prog head

def Call.Allowed (h : Heap Record) : Call → Prop
  | .createList m _ => m.Fresh h
  | .use op => op.Allowed h

/-- One call, when it returns. -/
def callNext (s : State) (a : Call × ℕ) : Option State :=
  match a.1 with
  | .createList m v =>
    if m.Fresh s.heap then
      match (createList m v).run a.2 s.heap with
      | .ok (head, heap) => some ⟨heap, head⟩
      | .error _ => none
    else none
  | .use op => next s (op, a.2)

/-- All runs from when nothing is allocated. -/
def lifetime : System State (Call × ℕ) := ⟨fun s => s.head = none ∧ ∀ a, s.heap a = none, callNext⟩

/-- createList and a removal find no node, and insertAtTail finds one. -/
def Keeps (s : State) (a : Call × ℕ) : Prop :=
  match a.1 with
  | .createList _ _ | .use .removeAtHead | .use .removeAtTail => s.head = none
  | .use (.insertAtTail _ _) => s.head ≠ none
  | .use (.insertAtHead _ _) | .use (.sort _) | .use .deleteList => True

instance (s : State) : (a : Call × ℕ) → Decidable (Keeps s a)
  | (.createList _ _, _) | (.use .removeAtHead, _) | (.use .removeAtTail, _) =>
    inferInstanceAs (Decidable (s.head = none))
  | (.use (.insertAtTail _ _), _) => inferInstanceAs (Decidable (s.head ≠ none))
  | (.use (.insertAtHead _ _), _) | (.use (.sort _), _) | (.use .deleteList, _) => inferInstanceAs (Decidable True)

/-- The allocated nodes. -/
def Live (h : Heap Record) (l : List Addr) : Prop := ∀ a, h a ≠ none ↔ a ∈ l

section Live

variable {h h' : Heap Record} {head : Ptr} {l l' : List Addr} {a : Addr} {v : Record}

theorem owned_iff_live {s : State} (hl : DList s.heap s.head l) : Owned s ↔ Live s.heap l :=
  forall_congr' fun _ => by rw [hl.reach_iff]

theorem Live.sameVals (hlive : Live h l) (hv : SameVals h h') : Live h' l := by
  intro a
  have hmap := congrArg Option.isSome (hv a)
  rw [Option.isSome_map, Option.isSome_map] at hmap
  rw [← hlive a, ← Option.isSome_iff_ne_none, ← Option.isSome_iff_ne_none, hmap]

theorem Live.of_mem_iff (hlive : Live h l) (hmem : ∀ a, a ∈ l ↔ a ∈ l') : Live h l' := fun a =>
  (hlive a).trans (hmem a)

theorem Live.withNew (hlive : Live h l) (a : Addr) (v : Record) : Live (withNew h a v) (a :: l) := by
  intro b
  by_cases hba : b = a
  · rw [hba, withNew_self]
    simp
  · rw [AddressBook.withNew, Function.update_of_ne hba, hlive b, List.mem_cons, or_iff_right hba]

/-- When the nodes of the list are freed there are none. -/
theorem live_nil_of_freed (hlive : Live h l) (hfreed : (∀ a ∈ l, h' a = none) ∧ ∀ a ∉ l, h' a = h a) :
    Live h' [] := by
  intro a
  by_cases ha : a ∈ l
  · simp [hfreed.1 a ha]
  · rw [hfreed.2 a ha, hlive a]
    simp [ha]

/-- The same nodes are not those of another list. -/
theorem Live.not_of_notMem (hlive : Live h l) (ha : a ∈ l) (hna : a ∉ l') : ¬ Live h l' := fun hlive' =>
  hna ((hlive' a).1 ((hlive a).2 ha))

end Live

/-! ## One call -/

section Calls

variable {s s' : State} {h : Heap Record} {head : Ptr} {l l' : List Addr} {m : Malloc} {v : Record}

/-- What a call leaves, judged by the list it leaves. -/
theorem owned_iff_of_returns {p : Prog Record Ptr} (hrun : p.Returns s.heap s'.head s'.heap)
    (hret : p.Returns s.heap head h) (hl : DList h head l) : Owned s' ↔ Live h l := by
  obtain ⟨hhead, hheap⟩ := Prod.mk.inj (Except.ok.inj (hrun.unique hret))
  rw [← hhead, ← hheap] at hl
  rw [← hheap]
  exact owned_iff_live hl

/-- A call that makes a node and returns has got memory for it. -/
theorem new_of_returns {p : Prog Record Ptr} (hrun : p.Returns s.heap s'.head s'.heap)
    (hstop : m.new = none → p.Stops s.heap .null) : ∃ a, m.new = some a :=
  Option.ne_none_iff_exists'.1 fun hm => nomatch hrun.unique (hstop hm)

/-- The list that the caller had is lost. -/
theorem owned_createList_iff (hl : DList s.heap s.head l) (hlive : Live s.heap l) (hf : m.Fresh s.heap)
    (hrun : (createList m v).Returns s.heap s'.head s'.heap) : Owned s' ↔ s.head = none := by
  obtain ⟨a, hm⟩ := new_of_returns hrun fun hm => createNode_stops hm v
  have hnew := hlive.withNew a v
  rw [owned_iff_of_returns hrun (createNode_returns hm v) (withNew_list _ a v), hl.head_eq_none_iff]
  cases l with
  | nil => exact iff_of_true hnew rfl
  | cons b l =>
    have hba : b ∉ [a] := fun hb => notMem_of_fresh hl (hf a hm) (List.mem_singleton.1 hb ▸ List.mem_cons_self)
    exact iff_of_false (hnew.not_of_notMem (by simp) hba) nofun

theorem owned_insertAtHead (hl : DList s.heap s.head l) (hlive : Live s.heap l) (hf : m.Fresh s.heap)
    (hrun : ((Op.insertAtHead m v).prog s.head).Returns s.heap s'.head s'.heap) : Owned s' := by
  obtain ⟨a, hm⟩ := new_of_returns hrun fun hm => .bind_stop (createNode_stops hm v)
  obtain ⟨h', hret, hl', hv⟩ := insertAtHead_returns hl hm (notMem_of_fresh hl (hf a hm)) v
  exact (owned_iff_of_returns hrun hret hl').2 ((hlive.withNew a v).sameVals hv)

theorem owned_insertAtTail_iff (hl : DList s.heap s.head l) (hlive : Live s.heap l) (hf : m.Fresh s.heap)
    (hrun : ((Op.insertAtTail m v).prog s.head).Returns s.heap s'.head s'.heap) : Owned s' ↔ s.head ≠ none := by
  obtain ⟨a, hm⟩ := new_of_returns hrun fun hm => .bind_stop (.bind_stop (createNode_stops hm v))
  have hnew := hlive.withNew a v
  rw [Ne, hl.head_eq_none_iff]
  by_cases hne : l = []
  · -- the new node is allocated, and the list is still empty
    subst hne
    have hret : ((Op.insertAtTail m v).prog s.head).Returns s.heap none (withNew s.heap a v) := by
      rw [hl.head_eq_none_iff.2 rfl]
      exact .bind (insertAtTail_returns_nil hm v) (returns_pure _ _)
    rw [owned_iff_of_returns hrun hret (list_nil _)]
    exact iff_of_false (hnew.not_of_notMem List.mem_cons_self (by simp)) (by simp)
  · obtain ⟨h', hret, hl', hv⟩ := insertAtTail_returns hl hne hm (notMem_of_fresh hl (hf a hm)) v
    rw [owned_iff_of_returns hrun (.bind hret (returns_pure _ _)) hl']
    exact iff_of_true ((hnew.sameVals hv).of_mem_iff fun b => by simp [or_comm]) hne

/-- What is removed stays allocated. -/
theorem owned_removeAtHead_iff (hl : DList s.heap s.head l) (hlive : Live s.heap l)
    (hrun : (Op.removeAtHead.prog s.head).Returns s.heap s'.head s'.heap) : Owned s' ↔ s.head = none := by
  rw [hl.head_eq_none_iff]
  rcases l with _ | ⟨a, _ | ⟨b, l⟩⟩
  · have hret : (Op.removeAtHead.prog s.head).Returns s.heap none s.heap := by
      rw [hl.head_eq_none_iff.2 rfl]
      exact returns_pure _ _
    rw [owned_iff_of_returns hrun hret (list_nil _)]
    exact iff_of_true hlive rfl
  · exact nomatch hrun.unique (removeAtHead_stops hl)
  · obtain ⟨h', hret, hl', hv⟩ := removeAtHead_returns hl
    rw [owned_iff_of_returns hrun hret hl']
    refine iff_of_false ?_ (by simp)
    exact (hlive.sameVals hv).not_of_notMem List.mem_cons_self (List.nodup_cons.1 hl.nodup).1

theorem owned_removeAtTail_iff (hl : DList s.heap s.head l) (hlive : Live s.heap l)
    (hrun : (Op.removeAtTail.prog s.head).Returns s.heap s'.head s'.heap) : Owned s' ↔ s.head = none := by
  rw [hl.head_eq_none_iff]
  rcases eq_nil_or_singleton_or l with rfl | ⟨a, rfl⟩ | ⟨l, a, rfl, hne⟩
  · have hret : (Op.removeAtTail.prog s.head).Returns s.heap none s.heap := by
      rw [hl.head_eq_none_iff.2 rfl]
      exact .bind (returns_pure _ _) (returns_pure _ _)
    rw [owned_iff_of_returns hrun hret (list_nil _)]
    exact iff_of_true hlive rfl
  · exact nomatch hrun.unique (.bind_stop (removeAtTail_stops hl))
  · obtain ⟨h', hret, hl', hv⟩ := removeAtTail_returns hl hne
    rw [owned_iff_of_returns hrun (.bind hret (returns_pure _ _)) hl']
    have hal : a ∉ l := fun hal => (List.nodup_append.1 hl.nodup).2.2 a hal a List.mem_cons_self rfl
    exact iff_of_false ((hlive.sameVals hv).not_of_notMem (by simp) hal) (by simp)

theorem owned_sort {field : Field} (hl : DList s.heap s.head l) (hlive : Live s.heap l)
    (hrun : ((Op.sort field).prog s.head).Returns s.heap s'.head s'.heap) : Owned s' := by
  rcases sort_yields hl field with ⟨head', h', l', hret, hl', hsorted, -⟩ | ⟨-, hstop⟩
  · rw [owned_iff_of_returns hrun hret hl']
    exact (hlive.sameVals hsorted.vals).of_mem_iff fun a => hsorted.perm.mem_iff.symm
  · exact nomatch hrun.unique hstop

theorem owned_deleteList (hl : DList s.heap s.head l) (hlive : Live s.heap l)
    (hrun : (Op.deleteList.prog s.head).Returns s.heap s'.head s'.heap) : Owned s' := by
  obtain ⟨h', hret, hfreed⟩ := deleteList_returns hl
  exact (owned_iff_of_returns hrun hret (list_nil _)).2 (live_nil_of_freed hlive hfreed)

/-- A call as the program it is. -/
theorem returns_of_callNext {a : Call × ℕ} (hs : callNext s a = some s') :
    a.1.Allowed s.heap ∧ (a.1.prog s.head).Returns s.heap s'.head s'.heap := by
  obtain ⟨c, k⟩ := a
  cases c with
  | use op => exact returns_of_next hs
  | createList m v =>
    simp only [callNext] at hs
    split at hs
    · rename_i hf
      refine ⟨hf, ?_⟩
      split at hs
      · rename_i hrun
        cases hs
        exact .of_run hrun (by simp)
      · cases hs
    · cases hs

/-- The calls that keep the allocated nodes those of the list are exactly the ones without the defects. -/
theorem owned_callNext_iff {a : Call × ℕ} (hl : DList s.heap s.head l) (hlive : Live s.heap l)
    (hs : callNext s a = some s') : Owned s' ↔ Keeps s a := by
  obtain ⟨c, k⟩ := a
  obtain ⟨ha, hrun⟩ := returns_of_callNext hs
  cases c with
  | createList m v => exact owned_createList_iff hl hlive ha hrun
  | use op =>
    cases op with
    | insertAtHead m v => exact iff_of_true (owned_insertAtHead hl hlive ha hrun) trivial
    | insertAtTail m v => exact owned_insertAtTail_iff hl hlive ha hrun
    | removeAtHead => exact owned_removeAtHead_iff hl hlive hrun
    | removeAtTail => exact owned_removeAtTail_iff hl hlive hrun
    | sort field => exact iff_of_true (owned_sort hl hlive hrun) trivial
    | deleteList => exact iff_of_true (owned_deleteList hl hlive hrun) trivial

/-- A call leaves a list, or it stops without having followed a pointer to memory that is not allocated. -/
theorem call_list (hl : DList h head l) {c : Call} (ha : c.Allowed h) :
    (∃ head' h' l', (c.prog head).Returns h head' h' ∧ DList h' head' l') ∨
      ∃ e, e ≠ .dangling ∧ (c.prog head).Stops h e := by
  cases c with
  | createList m v =>
    cases hm : m.new with
    | none => exact .inr ⟨.null, nofun, createNode_stops hm v⟩
    | some a => exact .inl ⟨_, _, [a], createNode_returns hm v, withNew_list h a v⟩
  | use op =>
    rcases prog_list hl ha with (hkeeps | hnull) | ⟨field, -, -, hlong⟩
    · exact .inl hkeeps
    · exact .inr ⟨.null, nofun, hnull⟩
    · exact .inr ⟨.overflow, nofun, hlong⟩

end Calls

/-! ## Runs -/

section Runs

variable {s : State}

theorem lifetime_list (hs : lifetime.Reachable s) : ∃ l, DList s.heap s.head l := by
  refine hs.invariant (I := fun s => ∃ l, DList s.heap s.head l) ?_ ?_
  · rintro s ⟨hhead, -⟩
    rw [hhead]
    exact ⟨[], list_nil _⟩
  · rintro s a s' - ⟨l, hl⟩ hn
    obtain ⟨ha, hrun⟩ := returns_of_callNext hn
    rcases call_list hl ha with ⟨head', h', l', hret, hl'⟩ | ⟨e, -, hstop⟩
    · obtain ⟨hhead, hheap⟩ := Prod.mk.inj (Except.ok.inj (hrun.unique hret))
      exact ⟨l', hhead ▸ hheap ▸ hl'⟩
    · exact nomatch hrun.unique hstop

theorem owned_of_reachableIf (hs : lifetime.ReachableIf Keeps s) : Owned s := by
  refine hs.invariant (I := Owned) ?_ ?_
  · rintro s ⟨hhead, hempty⟩
    intro a
    rw [hempty a, hhead]
    exact iff_of_false (fun h => h rfl) nofun
  · intro s a s' hs ho hk hn
    obtain ⟨l, hl⟩ := lifetime_list hs
    exact (owned_callNext_iff hl ((owned_iff_live hl).1 ho) hn).2 hk

/-- No call frees a node that is not allocated. -/
theorem not_dangling (hs : lifetime.Reachable s) {c : Call} (ha : c.Allowed s.heap) :
    ¬ (c.prog s.head).Stops s.heap .dangling := by
  intro hstop
  obtain ⟨l, hl⟩ := lifetime_list hs
  rcases call_list hl ha with ⟨head', h', l', hret, -⟩ | ⟨e, he, hstop'⟩
  · exact nomatch hstop.unique hret
  · exact he (Except.error.inj (hstop'.unique hstop))

/-- In the runs without these calls the allocated nodes are always those of the list, no node is freed when it is not
allocated, and deleteList frees the rest. -/
theorem nothing_leaks (hs : lifetime.ReachableIf Keeps s) : Owned s ∧
    (∀ c : Call, c.Allowed s.heap → ¬ (c.prog s.head).Stops s.heap .dangling) ∧
    ∃ h', (deleteList s.head).Returns s.heap none h' ∧ ∀ a, h' a = none := by
  obtain ⟨l, hl⟩ := lifetime_list hs.reachable
  have ho := owned_of_reachableIf hs
  obtain ⟨h', hret, hfreed⟩ := deleteList_returns hl
  refine ⟨ho, fun c ha => not_dangling hs.reachable ha, h', hret, fun a => ?_⟩
  have hnone := live_nil_of_freed ((owned_iff_live hl).1 ho) hfreed a
  simpa using hnone

end Runs

/-- A list that is made, used and deleted, and another one. -/
def keepingCalls : List (Call × ℕ) :=
  [(.createList (memory 0) ann, 1), (.use (.insertAtHead (memory 1) ann), 3), (.use (.insertAtTail (memory 2) ann), 3),
    (.use (.sort .lastname), 6), (.use .deleteList, 4), (.createList (memory 1) ann, 1)]

theorem nothing_leaks_keepingCalls : ∃ s, lifetime.runIf Keeps noNodes keepingCalls = some s ∧ s.head = some 1 ∧
    Owned s ∧ (∀ c : Call, c.Allowed s.heap → ¬ (c.prog s.head).Stops s.heap .dangling) ∧
    ∃ h', (deleteList s.head).Returns s.heap none h' ∧ ∀ a, h' a = none := by
  have hinit : lifetime.ReachableIf Keeps noNodes := .init ⟨rfl, fun _ => rfl⟩
  obtain ⟨s, hrun, hhead⟩ : ∃ s, lifetime.runIf Keeps noNodes keepingCalls = some s ∧ s.head = some 1 := ⟨_, rfl, rfl⟩
  exact ⟨s, hrun, hhead, nothing_leaks (System.ReachableIf.runIf (S := lifetime) keepingCalls hinit hrun)⟩

/-- Two nodes, of which one is removed. -/
def removingCalls : List (Call × ℕ) :=
  [(.createList (memory 0) ann, 1), (.use (.insertAtHead (memory 1) ann), 3), (.use .removeAtHead, 3)]

/-- The node that was removed is still there after deleteList. -/
theorem removed_node_leaks : ∃ s h', lifetime.Reachable s ∧ lifetime.run noNodes removingCalls = some s ∧
    s.heap 1 ≠ none ∧ ¬ Reach s.heap s.head 1 ∧ (deleteList s.head).Returns s.heap none h' ∧ h' 1 ≠ none := by
  obtain ⟨s, hrun, hlive, hl⟩ : ∃ s, lifetime.run noNodes removingCalls = some s ∧ s.heap 1 ≠ none ∧
      DList s.heap s.head [0] := ⟨_, rfl, nofun, rfl, ⟨⟨_, rfl⟩, trivial⟩, List.nodup_singleton 0⟩
  obtain ⟨h', hret, -, hframe⟩ := deleteList_returns hl
  refine ⟨s, h', .run removingCalls (.init ⟨rfl, fun _ => rfl⟩) hrun, hrun, hlive, ?_, hret, ?_⟩
  · rw [hl.reach_iff]
    simp
  · rwa [hframe 1 (by simp)]

end Sysopy.AddressBook
