/-
The stream chat server (cw10/zad2) on byte streams. A recv returns any positive number of bytes up to a whole
struct msg, into a buffer on the stack that is then broadcast whole. So a client's records come out as they went
in exactly when every recv returned a whole one.
-/
import Sysopy.Chat.Delivery
import Sysopy.CText.Buffer
import Sysopy.Files.Records

namespace Sysopy.Chat

open Sysopy.Conc Sysopy.CText Sysopy.Files

/-! ## Records with their senders -/

section Tag

variable {M : Type*} {L : Listeners}

/-- The call with a record that carries its sender. -/
def Call.tag (r : Call M) : Call (ℕ × M) := ⟨r.fd, r.conn, r.sender, (r.sender, r.record), r.ok⟩

/-- The state in which every record carries its sender. -/
def State.tag (s : State M) : State (ℕ × M) :=
  ⟨s.pc, s.master, s.readfds, s.biggest, s.table, s.count, s.start, s.stop, s.received.map fun r => (r.1, r),
    s.calls.map Call.tag⟩

def Recv.tag (c : ℕ) : Recv M → Recv (ℕ × M)
  | .error => .error
  | .closed => .closed
  | .data record => .data (c, record)

/-- The connection main receives from next. -/
def State.source (s : State M) : Option ℕ :=
  match s.pc with
  | .scan i => s.table i
  | _ => none

def Label.tag (s : State M) : Label M → Label (ℕ × M)
  | .select ready => .select ready
  | .skip => .skip
  | .accept newfd => .accept newfd
  | .recv r sends => .recv (r.tag (s.source.getD 0)) sends
  | .outside master readfds => .outside master readfds

variable {s s' : State M} {a : Label M}

@[simp] theorem State.tag_master (s : State M) : s.tag.master = s.master := rfl

@[simp] theorem State.tag_table (s : State M) : s.tag.table = s.table := rfl

@[simp] theorem State.length_tag_received (s : State M) : s.tag.received.length = s.received.length :=
  List.length_map _

theorem drop_tag (fd n : ℕ) : drop s.tag fd n = (drop s fd n).tag := rfl

theorem handlereg_tag (newfd : Option ℕ) : handlereg s.tag newfd = (handlereg s newfd).tag := by
  cases newfd with
  | none => rfl
  | some newfd => simp [handlereg, State.tag]

theorem sendTo_tag (sockfd sender j : ℕ) (record : M) (sends : ℕ → Bool) (s : State M) :
    sendTo L sockfd sender (sender, record) sends j s.tag = (sendTo L sockfd sender record sends j s).tag := by
  simp only [sendTo, State.tag_master, State.tag_table, State.length_tag_received]
  by_cases hc : j ≠ sockfd ∧ j ≠ L.unixfd ∧ j ≠ L.inetfd ∧ j ∈ s.master
  · by_cases hok : (sends j && (s.table j).isSome) = true
    · simp only [if_pos hc, if_pos hok]
      simp [State.tag, Call.tag]
    · simp only [if_pos hc, if_neg hok, ← drop_tag]
      simp [State.tag, Call.tag]
  · simp only [if_neg hc]

theorem broadcast_tag (sockfd sender k : ℕ) (record : M) (sends : ℕ → Bool) (s : State M) :
    broadcast L sockfd sender (sender, record) sends k s.tag = (broadcast L sockfd sender record sends k s).tag := by
  induction k with
  | zero => rfl
  | succ k ih => rw [broadcast, ih, sendTo_tag, ← broadcast]

theorem advance_tag (i : ℕ) : advance i s.tag = (advance i s).tag := by
  unfold advance
  by_cases h : s.pc = .exited
  · rw [if_pos h, if_pos (show s.tag.pc = .exited from h)]
  · rw [if_neg h, if_neg (show ¬ s.tag.pc = .exited from h)]
    rfl

theorem handlemsg_tag {i : ℕ} (hpc : s.pc = .scan i) (r : Recv M) (sends : ℕ → Bool) :
    handlemsg L s.tag i (r.tag (s.source.getD 0)) sends = (handlemsg L s i r sends).tag := by
  have hsource : s.source = s.table i := by simp only [State.source, hpc]
  rw [hsource]
  unfold handlemsg
  cases hc : s.table i with
  | none =>
    have : s.tag.table i = none := hc
    rw [this]
    rfl
  | some c =>
    have : s.tag.table i = some c := hc
    rw [this]
    cases r with
    | error => rfl
    | closed =>
      simp only [Recv.tag, ← drop_tag, State.length_tag_received]
    | data record =>
      simp only [Recv.tag, Option.getD_some, ← broadcast_tag]
      simp [State.tag]

/-- The server passes records on without looking at them. -/
theorem next_tag (h : next L s a = some s') : next L s.tag (a.tag s) = some s'.tag := by
  rw [next_eq_some] at h ⊢
  cases h with
  | select ready h => exact .select ready h
  | accept newfd h hi hready hlisten hf =>
    rw [← advance_tag, ← handlereg_tag]
    exact .accept newfd h hi hready hlisten hf
  | recv r sends hc =>
    rw [← advance_tag, ← handlemsg_tag hc.pc]
    exact .recv _ sends ⟨hc.pc, hc.le, hc.ready, hc.inet, hc.unix⟩
  | skip h hi hready => exact .skip h hi hready
  | again h hi => exact .again h hi
  | outside master readfds h hb => exact .outside master readfds h hb

theorem fits_tag (s : State M) (ha : a.Fits) : (a.tag s).Fits := by
  cases a with
  | accept newfd => cases newfd <;> exact ha
  | select | skip | recv | outside => trivial

theorem reachable_tag (h : (system L).ReachableIf Within s) : (system L).ReachableIf Within s.tag := by
  induction h with
  | init h =>
    exact .init ⟨h.pc, h.master, h.biggest, h.table, h.count, h.stop, by simp [State.tag, h.received],
      by simp [State.tag, h.calls]⟩
  | next _ hok hs ih => exact ih.next (fits_tag _ hok) (next_tag hs)

/-- The records of connection `c` sent to connection `d` with success. -/
def forwarded (s : State M) (c d : ℕ) : List M :=
  (s.calls.filter fun r => decide (r.conn = some d) && r.ok && decide (r.sender = c)).map Call.record

/-- The records received from a connection. -/
def receivedFrom (received : List (ℕ × M)) (c : ℕ) : List M :=
  (received.filter fun r => decide (r.1 = c)).map Prod.snd

theorem forwarded_eq_tag (c d : ℕ) : forwarded s c d = receivedFrom (sentTo s.tag d) c := by
  unfold forwarded receivedFrom sentTo
  simp only [State.tag, List.filter_map, List.map_map, List.filter_filter]
  exact congrArg _ (List.filter_congr fun r _ => Bool.and_comm _ _)

theorem receivedFrom_heard {c d : ℕ} (hcd : c ≠ d) (start stop : ℕ) (l : List (ℕ × M)) :
    receivedFrom (heard d start stop (l.map fun r => (r.1, r))) c = receivedFrom ((l.take stop).drop start) c := by
  unfold heard receivedFrom
  simp only [← List.map_take, ← List.map_drop, List.filter_map, List.map_map, List.filter_filter]
  refine congrArg _ (List.filter_congr fun r _ => ?_)
  by_cases hr : r.1 = c
  · simp [hr, hcd]
  · simp [hr]

/-- An accepted connection gets of the records of another those that were received while it was open. -/
theorem forwarded_eq (hL : L.Fit) (h : (system L).ReachableIf Within s) {c d : ℕ} (hd : d < s.count) (hcd : c ≠ d) :
    forwarded s c d =
      receivedFrom ((s.received.take ((s.stop d).getD s.received.length)).drop (s.start d)) c := by
  -- in the tagged run a record says from whom it came
  rw [forwarded_eq_tag, (reachable_sound hL (reachable_tag h)).settled.delivered.sent d hd, ← receivedFrom_heard hcd]
  show receivedFrom (heard d (s.start d) ((s.stop d).getD s.tag.received.length) _) c = _
  rw [State.length_tag_received]
  rfl

end Tag

/-! ## The server on bytes -/

def NAMESZ : ℕ := 50

def TXTSZ : ℕ := 256

/-- `sizeof(struct msg)`: two arrays of char. -/
def msgSize : ℕ := NAMESZ + TXTSZ

/-- What recv returns: -1, 0, or the bytes it has written to the start of `buf`, which held other bytes before. -/
inductive Arrival where
  | error
  | closed
  | piece (bytes memory : Buffer)

/-- What `handlemsg` has in `buf` after its recv; it looks at the count only for its sign. -/
def Arrival.recv : Arrival → Recv Buffer
  | .error => .error
  | .closed => .closed
  | .piece bytes memory => .data (overwrite bytes memory)

/-- A recv returns at least one byte and at most as many as were asked for. -/
def Arrival.Possible : Arrival → Prop
  | .piece bytes memory => 0 < bytes.length ∧ bytes.length ≤ msgSize ∧ memory.length = msgSize
  | _ => True

instance : (r : Arrival) → Decidable r.Possible
  | .error => inferInstanceAs (Decidable True)
  | .closed => inferInstanceAs (Decidable True)
  | .piece bytes memory =>
    inferInstanceAs (Decidable (0 < bytes.length ∧ bytes.length ≤ msgSize ∧ memory.length = msgSize))

/-- The environment's part of a step. -/
inductive Input where
  | select (ready : Finset ℕ)
  | skip
  | accept (newfd : Option ℕ)
  | recv (r : Arrival) (sends : ℕ → Bool)
  | outside (master readfds : Finset ℕ)

def Input.label : Input → Label Buffer
  | .select ready => .select ready
  | .skip => .skip
  | .accept newfd => .accept newfd
  | .recv r sends => .recv r.recv sends
  | .outside master readfds => .outside master readfds

/-- The server, and as history the pieces received with their connection and with what was in `buf` before. -/
structure Wire where
  server : State Buffer
  arrived : List (ℕ × Buffer × Buffer)

/-- The pieces of a connection. -/
def Wire.pieces (w : Wire) (c : ℕ) : List Buffer := (receivedFrom w.arrived c).map Prod.fst

def Input.Possible : Input → Prop
  | .recv r _ => r.Possible
  | _ => True

instance : (a : Input) → Decidable a.Possible
  | .select _ => inferInstanceAs (Decidable True)
  | .skip => inferInstanceAs (Decidable True)
  | .accept _ => inferInstanceAs (Decidable True)
  | .recv r _ => inferInstanceAs (Decidable r.Possible)
  | .outside .. => inferInstanceAs (Decidable True)

/-- The server on bytes while all descriptors have bits in the sets. -/
def Wire.Within (_ : Wire) (a : Input) : Prop := a.label.Fits

instance (w : Wire) (a : Input) : Decidable (w.Within a) := inferInstanceAs (Decidable a.label.Fits)

/-! ## What is in the records -/

section Records

variable {L : Listeners} {w : Wire}

/-- The record a step receives, with its connection. -/
def Label.received {M : Type*} (s : State M) : Label M → List (ℕ × M)
  | .recv (.data record) _ => (s.source.map fun c => (c, record)).toList
  | _ => []

theorem received_advance {M : Type*} (s : State M) (i : ℕ) : (advance i s).received = s.received := by
  unfold advance
  split <;> rfl

theorem received_broadcast {M : Type*} (sockfd sender k : ℕ) (record : M) (sends : ℕ → Bool) (s : State M) :
    (broadcast L sockfd sender record sends k s).received = s.received := by
  induction k with
  | zero => rfl
  | succ k ih =>
    rw [broadcast, ← ih]
    unfold sendTo
    split
    · dsimp only
      split <;> rfl
    · rfl

/-- A step adds to the records received the one of its recv. -/
theorem received_next {M : Type*} {s s' : State M} {a : Label M} (h : next L s a = some s') :
    s'.received = s.received ++ a.received s := by
  cases next_eq_some.1 h with
  | select | skip | again | outside => exact (List.append_nil _).symm
  | accept newfd =>
    rw [received_advance]
    cases newfd <;> exact (List.append_nil _).symm
  | @recv i r sends hc =>
    have hsource : s.source = s.table i := by simp only [State.source, hc.pc]
    rw [received_advance]
    unfold handlemsg
    cases htable : s.table i with
    | none => cases r <;> simp [Label.received, hsource, htable]
    | some c =>
      cases r with
      | error => exact (List.append_nil _).symm
      | closed => exact (List.append_nil _).symm
      | data record => simp [received_broadcast, Label.received, hsource, htable]

/-- What `buf` holds after a recv. -/
def contents (a : ℕ × Buffer × Buffer) : ℕ × Buffer := (a.1, overwrite a.2.1 a.2.2)

/-- The records of the server are the pieces, each with the rest of what was in `buf`. -/
structure Filled (L : Listeners) (w : Wire) : Prop where
  server : (system L).ReachableIf Within w.server
  received : w.server.received = w.arrived.map contents
  possible : ∀ a ∈ w.arrived, (Arrival.piece a.2.1 a.2.2).Possible

/-- Connection `d` is open, and was so before the first record of connection `c`. -/
structure Listening (s : State Buffer) (c d : ℕ) : Prop where
  lt : d < s.count
  stop : s.stop d = none
  start : ∀ r ∈ s.received.take (s.start d), r.1 ≠ c

theorem receivedFrom_drop {M : Type*} {received : List (ℕ × M)} {c n : ℕ} (h : ∀ r ∈ received.take n, r.1 ≠ c) :
    receivedFrom (received.drop n) c = receivedFrom received c := by
  have hnone : (received.take n).filter (fun r => decide (r.1 = c)) = [] :=
    List.filter_eq_nil_iff.2 fun r hr => by simpa using h r hr
  calc receivedFrom (received.drop n) c
    _ = receivedFrom (received.take n ++ received.drop n) c := by
      simp only [receivedFrom, List.filter_append, hnone, List.nil_append]
    _ = receivedFrom received c := by rw [List.take_append_drop]

/-- To a connection that listens the server forwards one record for each piece. -/
theorem Filled.forwarded (h : Filled L w) (hL : L.Fit) {c d : ℕ} (hcd : c ≠ d) (hd : Listening w.server c d) :
    forwarded w.server c d = (receivedFrom w.arrived c).map fun a => overwrite a.1 a.2 := by
  rw [forwarded_eq hL h.server hd.lt hcd, hd.stop, Option.getD_none, List.take_length, receivedFrom_drop hd.start,
    h.received]
  simp only [receivedFrom, List.filter_map, List.map_map]
  rfl

theorem Filled.piece (h : Filled L w) {c : ℕ} {a : Buffer × Buffer} (ha : a ∈ receivedFrom w.arrived c) :
    (Arrival.piece a.1 a.2).Possible := by
  obtain ⟨p, hp, rfl⟩ := List.mem_map.1 ha
  exact h.possible p (List.mem_filter.1 hp).1

end Records

/-! ## A record in one piece and in two -/

/-- What the stack holds below the frame of main. -/
def stack : Buffer := List.replicate msgSize '\x00'

end Sysopy.Chat
