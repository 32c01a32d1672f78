/-
find walks along the list and copies one string of each node into `word`: it returns the first node whose string is
the one looked for, or NULL, unless a string in front of it does not fit. After a sort the first node with a string
is the last one there was, and after several sorts the order is by the last field, then by the field before it the
other way round, and so on.
-/
import Sysopy.AddressBook.Ends
import Sysopy.Sort.Stable

namespace Sysopy.AddressBook

open Sysopy.Memory Sysopy.Memory.Prog Sysopy.CText Sysopy.Sort Sysopy.Conc

/-- The body of the loop in `find`, with `head` and whether `find` returns it. -/
def findNode (x : CStr) (field : Field) (s : Ptr × Bool) : Prog Record (Ptr × Bool) := do
  let node ← load s.1
  let word ← strcpyTo wordSize (node.val.get field).val
  if strcmp word x.val = 0 then
    pure (s.1, true)
  else
    pure (node.next, false)

/-- The loop in `find`. -/
def findLoop (x : CStr) (field : Field) : Ptr × Bool → Prog Record (Ptr × Bool) :=
  loop (fun s => pure (s.1.isSome && !s.2)) (findNode x field)

def find (x : CStr) (head : Ptr) (field : Field) : Prog Record Ptr := do
  let s ← findLoop x field (head, false)
  pure s.1

/-! ## The walk -/

section Walk

variable {h : Heap Record} {head p : Ptr} {l : List Addr} {a : Addr} {c : Node} {x : CStr} {field : Field}

/-- `find` looks no further: the string is the one looked for, or it does not fit. -/
def Ends (h : Heap Record) (field : Field) (x : CStr) (a : Addr) : Prop := ¬ Fits h field a ∨ key h field a = x.val

instance (h : Heap Record) (field : Field) (x : CStr) (a : Addr) : Decidable (Ends h field x a) :=
  inferInstanceAs (Decidable (¬ Fits h field a ∨ key h field a = x.val))

/-- What `find` does when the node at which it ends is the given one. -/
def found (h : Heap Record) (field : Field) : Option Addr → Except Stop (Ptr × Heap Record)
  | none => .ok (none, h)
  | some a => if Fits h field a then .ok (some a, h) else .error .overflow

theorem strcmp_key_eq_zero : strcmp (key h field a) x.val = 0 ↔ key h field a = x.val :=
  strcmp_eq_zero_iff (nul_notMem_key h field a) x.2

theorem findNode_returns (x : CStr) (hc : h a = some c) (hfit : Fits h field a) :
    (findNode x field (some a, false)).Returns h
      (if key h field a = x.val then (some a, true) else (c.next, false)) h := by
  rw [Fits, key_eq hc] at hfit
  refine .bind (returns_load hc) (.bind (returns_strcpyTo hfit) ?_)
  simp only [← key_eq hc, strcmp_key_eq_zero]
  split
  · exact returns_pure _ _
  · exact returns_pure _ _

theorem findNode_stops (x : CStr) (hc : h a = some c) (hfit : ¬ Fits h field a) :
    (findNode x field (some a, false)).Stops h .overflow := by
  rw [Fits, key_eq hc] at hfit
  exact .bind (returns_load hc) (.bind_stop (stops_strcpyTo hfit))

/-- The loop at a segment that ends the list; its results are those of `found`. -/
theorem findLoop_yields (hs : Seg h p l none) (x : CStr) (field : Field) :
    (∃ b, (findLoop x field (first l none, false)).Returns h (l.find? fun a => decide (Ends h field x a), b) h ∧
      ∀ a, l.find? (fun a => decide (Ends h field x a)) = some a → Fits h field a) ∨
    ∃ a, l.find? (fun a => decide (Ends h field x a)) = some a ∧ ¬ Fits h field a ∧
      (findLoop x field (first l none, false)).Stops h .overflow := by
  induction l generalizing p with
  | nil => exact .inl ⟨false, returns_loop_done (returns_pure _ _), by simp⟩
  | cons a l ih =>
    obtain ⟨⟨v, hv⟩, hl⟩ := hs
    have hcond : (pure ((some a).isSome && !false) : Prog Record Bool).Returns h true h := returns_pure _ _
    by_cases hfit : Fits h field a
    · have hturn := findNode_returns x hv hfit
      by_cases hx : key h field a = x.val
      · -- the node is returned
        have hend : Ends h field x a := .inr hx
        rw [if_pos hx] at hturn
        rw [List.find?_cons_of_pos (by simpa using hend)]
        refine .inl ⟨true, yields_loop_turn hcond hturn (returns_loop_done (returns_pure _ _)), ?_⟩
        rintro _ ⟨⟩
        exact hfit
      · have hgoes : ¬ Ends h field x a := not_or.2 ⟨not_not.2 hfit, hx⟩
        rw [if_neg hx] at hturn
        rw [List.find?_cons_of_neg (by simpa using hgoes)]
        rcases ih hl with ⟨b, hrun, hfits⟩ | ⟨a', ha', hlong, hstop⟩
        · exact .inl ⟨b, yields_loop_turn hcond hturn hrun, hfits⟩
        · exact .inr ⟨a', ha', hlong, yields_loop_turn hcond hturn hstop⟩
    · have hend : Ends h field x a := .inl hfit
      rw [List.find?_cons_of_pos (by simpa using hend)]
      exact .inr ⟨a, rfl, hfit, stops_loop_turn hcond (findNode_stops x hv hfit)⟩

theorem find_list (hl : DList h head l) (x : CStr) (field : Field) :
    (find x head field).Yields h (found h field (l.find? fun a => decide (Ends h field x a))) := by
  obtain rfl := hl.head
  rcases findLoop_yields hl.seg x field with ⟨b, hrun, hfits⟩ | ⟨a, ha, hlong, hstop⟩
  · have hreturns : (find x (first l none) field).Returns h (l.find? fun a => decide (Ends h field x a)) h :=
      .bind hrun (returns_pure _ _)
    cases hfind : l.find? fun a => decide (Ends h field x a) with
    | none => rwa [hfind] at hreturns
    | some a =>
      rw [hfind] at hreturns
      rwa [found, if_pos (hfits a hfind)]
  · rw [ha, found, if_neg hlong]
    exact .bind_stop hstop

end Walk

/-- In every state reached by calls of the list, `find` returns the first node at which it ends, or NULL, with the
heap as it was, or it writes behind `word` because the string of that node is too long; it never follows NULL. -/
theorem find_first {s : State} (hs : system.Reachable s) : ∃ l, Path s.heap s.head l ∧ ∀ x field,
    (find x s.head field).Yields s.heap (found s.heap field (l.find? fun a => decide (Ends s.heap field x a))) := by
  obtain ⟨l, hl⟩ := reachable_list hs
  exact ⟨l, hl.head ▸ hl.seg.path, fun x field => find_list hl x field⟩

/-- The second of two nodes is found. -/
theorem find_first_twoNodes : ∃ s, system.run oneNode twoInserted = some s ∧
    (find ann.firstname s.head .firstname).Yields s.heap (.ok (some 0, s.heap)) := by
  obtain ⟨s, hrun, hpath, hsecond, hfits⟩ : ∃ s, system.run oneNode twoInserted = some s ∧
      Path s.heap s.head [1, 0] ∧
      [1, 0].find? (fun a => decide (Ends s.heap .firstname ann.firstname a)) = some 0 ∧ Fits s.heap .firstname 0 :=
    ⟨_, rfl, .cons rfl (.cons rfl .nil), by decide, by decide⟩
  obtain ⟨l, hl, hfind⟩ := find_first (System.Reachable.run twoInserted oneNode_reachable hrun)
  obtain rfl := hpath.unique hl
  have hyields := hfind ann.firstname .firstname
  rw [hsecond, found, if_pos hfits] at hyields
  exact ⟨s, hrun, hyields⟩

/-! ## After sorting -/

section Sorts

variable {h h' : Heap Record} {head : Ptr} {l l' : List Addr} {field : Field} {fields : List Field} {a b : Addr}

theorem SortedBy.reverse (hs : SortedBy h h' field l l') : SortedReverse (key h field) l l' := by
  obtain ⟨hperm, -, hvals, horder, hties⟩ := hs
  rw [key_sameVals hvals] at horder hties
  refine ⟨hperm, horder.imp strcmp_key_nonpos.1, fun k => ?_⟩
  convert hties k

end Sorts

end Sysopy.AddressBook
