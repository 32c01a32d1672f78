/-
Mailboxes: first-in first-out queues by key, whose messages carry their sender as history, what all messages
of a queue say, and the mail of one sender in a queue.
-/
import Mathlib.Tactic

namespace Sysopy.Conc

/-- A message in a queue, with the client that sent it, or none for the server. -/
structure Envelope (ι M : Type*) where
  sender : Option ι
  msg : M

/-- The queues that exist, by key. -/
abbrev Mailboxes (κ ι M : Type*) := κ → Option (List (Envelope ι M))

variable {κ ι M : Type*}

/-! ## Taking a message -/

/-- The first message of a queue, if there is one. -/
def Mailboxes.take [DecidableEq κ] (b : Mailboxes κ ι M) (k : κ) : Option (Envelope ι M × Mailboxes κ ι M) :=
  match b k with
  | some (e :: l) => some (e, Function.update b k (some l))
  | _ => none

theorem Mailboxes.take_eq_some [DecidableEq κ] {b b' : Mailboxes κ ι M} {k : κ} {e : Envelope ι M} :
    b.take k = some (e, b') ↔ ∃ l, b k = some (e :: l) ∧ b' = Function.update b k (some l) := by
  unfold Mailboxes.take
  split
  · rename_i e' l h
    simp only [h, Option.some.injEq, Prod.mk.injEq, List.cons.injEq]
    constructor
    · rintro ⟨rfl, rfl⟩; exact ⟨l, ⟨rfl, rfl⟩, rfl⟩
    · rintro ⟨_, ⟨rfl, rfl⟩, rfl⟩; exact ⟨rfl, rfl⟩
  · rename_i h
    simp only [reduceCtorEq, false_iff]
    rintro ⟨l, hl, -⟩
    exact h _ _ hl

/-! ## What all messages say -/

section All

variable {b : Mailboxes κ ι M} {R : κ → M → Prop} {k : κ} {e : Envelope ι M} {l : List (Envelope ι M)}

/-- Every message says what the messages of its queue have to say. -/
def Mailboxes.All (R : κ → M → Prop) (b : Mailboxes κ ι M) : Prop := ∀ k, ∀ e ∈ (b k).getD [], R k e.msg

theorem Mailboxes.All.mem (h : b.All R) (hb : b k = some l) : ∀ e ∈ l, R k e.msg := by
  have hk := h k
  rwa [hb] at hk

variable [DecidableEq κ]

theorem Mailboxes.All.update (h : b.All R) (hl : ∀ e ∈ l, R k e.msg) :
    Mailboxes.All R (Function.update b k (some l)) := by
  intro k' e he
  by_cases hk : k' = k
  · subst hk
    rw [Function.update_self] at he
    exact hl e he
  · rw [Function.update_of_ne hk] at he
    exact h k' e he

theorem Mailboxes.All.take (h : b.All R) (hb : b k = some (e :: l)) :
    R k e.msg ∧ Mailboxes.All R (Function.update b k (some l)) := by
  obtain ⟨he, hl⟩ := List.forall_mem_cons.1 (h.mem hb)
  exact ⟨he, h.update hl⟩

theorem Mailboxes.All.send (h : b.All R) (hb : b k = some l) (he : R k e.msg) :
    Mailboxes.All R (Function.update b k (some (l ++ [e]))) :=
  h.update (List.forall_mem_append.2 ⟨h.mem hb, List.forall_mem_singleton.2 he⟩)

end All

/-! ## The mail of one client -/

section Mail

variable [DecidableEq ι] {l l' : List (Envelope ι M)} {e : Envelope ι M} {c d : ι}

/-- The messages of a client, in order. -/
def mailOf (l : List (Envelope ι M)) (c : ι) : List M := (l.filter fun e => decide (e.sender = some c)).map Envelope.msg

@[simp] theorem mailOf_nil : mailOf ([] : List (Envelope ι M)) c = [] := rfl

@[simp] theorem mailOf_append : mailOf (l ++ l') c = mailOf l c ++ mailOf l' c := by
  simp [mailOf, List.filter_append]

theorem mailOf_cons_self (h : e.sender = some c) : mailOf (e :: l) c = e.msg :: mailOf l c := by
  simp [mailOf, h]

theorem mailOf_cons_of_ne (h : e.sender = some c) (hd : d ≠ c) : mailOf (e :: l) d = mailOf l d := by
  simp [mailOf, h, Ne.symm hd]

/-- Mail of one client only is no mail of another. -/
theorem mailOf_eq_nil (h : ∀ e ∈ l, e.sender = some c) (hd : d ≠ c) : mailOf l d = [] := by
  have hf : (l.filter fun e => decide (e.sender = some d)) = [] :=
    List.filter_eq_nil_iff.2 fun e he => by simp [h e he, Ne.symm hd]
  simp [mailOf, hf]

theorem length_mailOf : (mailOf l c).length = (l.map Envelope.sender).count (some c) := by
  unfold mailOf
  rw [List.length_map, ← List.countP_eq_length_filter, List.count, List.countP_map]
  exact List.countP_congr fun e _ => by simp

/-- A queue in which every client has at most one message, and one client none, is shorter than the number
of clients. -/
theorem length_lt_card [Fintype ι] (hs : ∀ e ∈ l, ∃ c, e.sender = some c) (h1 : ∀ c, (mailOf l c).length ≤ 1)
    (h0 : mailOf l c = []) : l.length < Fintype.card ι := by
  have hcount : ∀ c, (l.map Envelope.sender).count (some c) ≤ 1 := fun c => length_mailOf (l := l) ▸ h1 c
  have hnone : none ∉ l.map Envelope.sender := by
    intro h
    obtain ⟨e, he, hn⟩ := List.mem_map.1 h
    obtain ⟨c, hc⟩ := hs e he
    rw [hn] at hc
    cases hc
  have hc : some c ∉ l.map Envelope.sender := by
    rw [← List.count_eq_zero, ← length_mailOf, h0]
    rfl
  have hnodup : (none :: some c :: l.map Envelope.sender).Nodup := by
    refine List.nodup_cons.2 ⟨by simpa using hnone, List.nodup_cons.2 ⟨hc, List.nodup_iff_count_le_one.2 fun a => ?_⟩⟩
    cases a with
    | none => rw [List.count_eq_zero.2 hnone]; omega
    | some a => exact hcount a
  have := hnodup.length_le_card
  simp only [List.length_cons, List.length_map, Fintype.card_option] at this
  omega

end Mail

end Sysopy.Conc
