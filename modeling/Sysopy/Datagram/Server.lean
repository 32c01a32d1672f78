/-
The datagram chat server (cw10/zad1): the table of clients and `handle`. The call that receives a datagram is
not in the source; the datagram, its socket and the sender's address are inputs. So is the clock: `clock k` is
what the call number `k` of `time(NULL)` returns, and the server counts its calls. MAXCLIENTS is a parameter.
-/
import Sysopy.CText.Compare

namespace Sysopy.Datagram

open Sysopy.CText

def NAMESIZE : ℕ := 50

def EXPIRATION : ℤ := 100

/-- A name that fits into `char[NAMESIZE]` with its NUL. -/
abbrev Name := { s : CStr // s.1.length < NAMESIZE }

/-- The characters of a name. -/
def Name.chars (n : Name) : List Char := n.1.1

/-- `struct msg`; the text up to its NUL. -/
structure Msg where
  name : Name
  text : List Char

/-- What a call of `handle` is about: the socket, the sender's address and the datagram. -/
structure Packet where
  sockfd : ℤ
  theirAddr : Buffer
  buf : Msg

/-- `client_names[i]`, `client_addr[i]`, `client_regtime[i]` and `client_sockfd[i]`. -/
structure Slot where
  name : Name
  addr : Buffer
  regtime : ℤ
  sockfd : ℤ

/-- `client_regtime[i]-time(NULL)>-EXPIRATION` -/
def Slot.live (s : Slot) (time : ℤ) : Prop := s.regtime - time > -EXPIRATION

instance (s : Slot) (time : ℤ) : Decidable (s.live time) := inferInstanceAs (Decidable (_ > _))

structure Server (MAXCLIENTS : ℕ) where
  slots : Fin MAXCLIENTS → Slot
  /-- The calls of `time(NULL)` so far. -/
  calls : ℕ

variable {MAXCLIENTS : ℕ}

/-- The globals as main leaves them: all zero, and each `client_regtime` -1. -/
def initial (MAXCLIENTS : ℕ) : Server MAXCLIENTS := ⟨fun _ => ⟨⟨⟨[], by simp⟩, by decide⟩, [], -1, 0⟩, 0⟩

/-! ## handle -/

section Handle

variable (clock : ℕ → ℤ) (slots : Fin MAXCLIENTS → Slot)

/-- The loop that looks for the sender: the slot it stops at, if any, and the calls of `time` after it. -/
def findClient (name : Name) : List (Fin MAXCLIENTS) → ℕ → Option (Fin MAXCLIENTS) × ℕ
  | [], n => (none, n)
  | i :: is, n =>
    if (slots i).regtime ≠ -1 ∧ strcmp name.chars (slots i).name.chars = 0 then
      if (slots i).live (clock n) then (some i, n + 1) else findClient name is (n + 1)
    else findClient name is n

/-- The loop that looks for a slot to register in. -/
def freeSlot : List (Fin MAXCLIENTS) → ℕ → Option (Fin MAXCLIENTS) × ℕ
  | [], n => (none, n)
  | i :: is, n => if (slots i).live (clock n) then freeSlot is (n + 1) else (some i, n + 1)

/-- The loop over the other clients: the text and the calls of `time` after it. -/
def broadcast (i : Fin MAXCLIENTS) : List (Fin MAXCLIENTS) → ℕ → List Char → List Char × ℕ
  | [], n, text => (text, n)
  | j :: js, n, text =>
    if j ≠ i then broadcast i js (n + 1) (if (slots j).live (clock n) then "ok".toList else text)
    else broadcast i js n text

end Handle

/-- `strcpy(buf.name,"Server")` -/
def reply (text : List Char) : Msg := ⟨⟨⟨"Server".toList, by decide⟩, by decide⟩, text⟩

/-- The slot in which `handle` finds the sender of a datagram, and the calls of `time` after that. -/
def lookup (clock : ℕ → ℤ) (s : Server MAXCLIENTS) (d : Packet) : Option (Fin MAXCLIENTS) × ℕ :=
  findClient clock s.slots d.buf.name (List.finRange MAXCLIENTS) s.calls

/-- `handle`: the table after the call, and `buf`. -/
def handle (clock : ℕ → ℤ) (s : Server MAXCLIENTS) (d : Packet) : Server MAXCLIENTS × Msg :=
  match lookup clock s d with
  | (found, n) =>
    if strcmp d.buf.text "reg".toList = 0 then
      match found with
      | some i =>
        (⟨Function.update s.slots i { s.slots i with regtime := clock n }, n + 1⟩, reply "Renewed.".toList)
      | none =>
        match freeSlot clock s.slots (List.finRange MAXCLIENTS) n with
        | (some i, m) =>
          (⟨Function.update s.slots i ⟨d.buf.name, d.theirAddr, clock m, d.sockfd⟩, m + 1⟩,
            reply "Registered.".toList)
        | (none, m) => (⟨s.slots, m⟩, reply "No client slots available.".toList)
    else
      match found with
      | some i =>
        match broadcast clock s.slots i (List.finRange MAXCLIENTS) n d.buf.text with
        | (text, m) => (⟨s.slots, m⟩, reply text)
      | none => (⟨s.slots, n⟩, reply "send reg to register".toList)

/-- The server after the datagrams `ds`. -/
def serve (MAXCLIENTS : ℕ) (clock : ℕ → ℤ) (ds : List Packet) : Server MAXCLIENTS :=
  ds.foldl (fun s d => (handle clock s d).1) (initial MAXCLIENTS)

/-! ## The loops -/

section Loops

variable {clock : ℕ → ℤ} {slots : Fin MAXCLIENTS → Slot}

theorem findClient_le (clock : ℕ → ℤ) (slots : Fin MAXCLIENTS → Slot) (name : Name) (is : List (Fin MAXCLIENTS))
    (n : ℕ) :
    n ≤ (findClient clock slots name is n).2 := by
  induction is generalizing n with
  | nil => exact le_rfl
  | cons i is ih =>
    unfold findClient
    split
    · split
      · exact Nat.le_succ n
      · exact Nat.le_of_succ_le (ih (n + 1))
    · exact ih n

/-- The slot found has the name, and it was live at the last call of `time`. -/
theorem findClient_some {name : Name} {is : List (Fin MAXCLIENTS)} {n m : ℕ} {i : Fin MAXCLIENTS}
    (h : findClient clock slots name is n = (some i, m)) :
    strcmp name.chars (slots i).name.chars = 0 ∧ ∃ k, n ≤ k ∧ m = k + 1 ∧ (slots i).live (clock k) := by
  induction is generalizing n with
  | nil => cases h
  | cons j is ih =>
    unfold findClient at h
    split at h
    · rename_i hname
      split at h
      · rename_i hlive
        cases h
        exact ⟨hname.2, n, le_rfl, rfl, hlive⟩
      · obtain ⟨hn, k, hk, hm⟩ := ih h
        exact ⟨hn, k, Nat.le_of_succ_le hk, hm⟩
    · exact ih h

/-- When no slot is found, each slot with the name was free or had expired at a call of `time`. -/
theorem findClient_none {name : Name} {is : List (Fin MAXCLIENTS)} {n m : ℕ}
    (h : findClient clock slots name is n = (none, m)) {i : Fin MAXCLIENTS} (hi : i ∈ is)
    (hr : (slots i).regtime ≠ -1) (hname : strcmp name.chars (slots i).name.chars = 0) :
    ∃ k, n ≤ k ∧ k < m ∧ ¬ (slots i).live (clock k) := by
  induction is generalizing n with
  | nil => cases hi
  | cons j is ih =>
    have hle := findClient_le clock slots name is (n + 1)
    unfold findClient at h
    rcases List.mem_cons.1 hi with rfl | hi
    · rw [if_pos ⟨hr, hname⟩] at h
      split at h
      · cases h
      · rename_i hlive
        rw [h] at hle
        exact ⟨n, le_rfl, hle, hlive⟩
    · split at h
      · split at h
        · cases h
        · obtain ⟨k, hk, hm⟩ := ih h hi
          exact ⟨k, Nat.le_of_succ_le hk, hm⟩
      · exact ih h hi

theorem freeSlot_le (clock : ℕ → ℤ) (slots : Fin MAXCLIENTS → Slot) (is : List (Fin MAXCLIENTS)) (n : ℕ) :
    n ≤ (freeSlot clock slots is n).2 := by
  induction is generalizing n with
  | nil => exact le_rfl
  | cons i is ih =>
    unfold freeSlot
    split
    · exact Nat.le_of_succ_le (ih (n + 1))
    · exact Nat.le_succ n

/-- The slot taken was not live at the last call of `time`. -/
theorem freeSlot_some {is : List (Fin MAXCLIENTS)} {n m : ℕ} {i : Fin MAXCLIENTS}
    (h : freeSlot clock slots is n = (some i, m)) : ∃ k, n ≤ k ∧ k < m ∧ ¬ (slots i).live (clock k) := by
  induction is generalizing n with
  | nil => cases h
  | cons j is ih =>
    unfold freeSlot at h
    split at h
    · obtain ⟨k, hk, hm⟩ := ih h
      exact ⟨k, Nat.le_of_succ_le hk, hm⟩
    · rename_i hlive
      cases h
      exact ⟨n, le_rfl, Nat.lt_succ_self n, hlive⟩

/-- No slot is taken exactly when each one is live at the call of `time` that it is tested with. -/
theorem freeSlot_eq_none {is : List (Fin MAXCLIENTS)} {n : ℕ} :
    (freeSlot clock slots is n).1 = none ↔ ∀ (k : ℕ) (hk : k < is.length), (slots is[k]).live (clock (n + k)) := by
  induction is generalizing n with
  | nil => simp [freeSlot]
  | cons i is ih =>
    unfold freeSlot
    split
    · rename_i hlive
      rw [ih]
      constructor
      · intro h k hk
        cases k with
        | zero => exact hlive
        | succ k =>
          have := h k (Nat.lt_of_succ_lt_succ hk)
          rwa [Nat.add_assoc, Nat.add_comm 1 k] at this
      · intro h k hk
        rw [Nat.add_assoc, Nat.add_comm 1 k]
        exact h (k + 1) (Nat.succ_lt_succ hk)
    · rename_i hlive
      simp only [reduceCtorEq, false_iff]
      exact fun h => hlive (h 0 (Nat.succ_pos _))

theorem broadcast_le (clock : ℕ → ℤ) (slots : Fin MAXCLIENTS → Slot) (i : Fin MAXCLIENTS) (js : List (Fin MAXCLIENTS))
    (n : ℕ) (text : List Char) :
    n ≤ (broadcast clock slots i js n text).2 := by
  induction js generalizing n text with
  | nil => exact le_rfl
  | cons j js ih =>
    unfold broadcast
    split
    · exact Nat.le_of_succ_le (ih (n + 1) _)
    · exact ih n text

end Loops

end Sysopy.Datagram
