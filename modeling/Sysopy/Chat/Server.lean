/-
The stream chat server (cw10/zad2): main's select loop with `handlereg` and `handlemsg`. The descriptors and
the results of select, accept, recv and send are inputs; a recv that returns data returns one whole record
and a send moves one whole record or fails. A handler call is one step. As history the state numbers the
accepted connections, says when each was accepted and closed, and keeps the records received and the calls
of send. The sets of descriptors have FD_SETSIZE bits; what an access behind them does is undefined.
-/
import Sysopy.Conc.System

namespace Sysopy.Chat

open Sysopy.Conc

/-! ## The state -/

/-- The number of bits of an fd_set. -/
def FD_SETSIZE : ℕ := 1024

/-- The two listening sockets. -/
structure Listeners where
  inetfd : ℕ
  unixfd : ℕ
  ne : inetfd ≠ unixfd

/-- Where main is: at its select, at the test of descriptor `i` in the loop over `readfds`, or out. -/
inductive Pc where
  | select
  | scan (i : ℕ)
  | exited
  deriving DecidableEq

/-- A call of send: the descriptor and its connection, the connection the record came from, and whether it
succeeded. -/
structure Call (M : Type*) where
  fd : ℕ
  conn : Option ℕ
  sender : ℕ
  record : M
  ok : Bool

/-- Of `master` and `readfds` the descriptors whose bits are set. A bit from FD_SETSIZE on is in the memory behind. -/
structure State (M : Type*) where
  pc : Pc
  master : Finset ℕ
  readfds : Finset ℕ
  biggest : ℕ
  /-- The connection an accepted and still open descriptor belongs to. -/
  table : ℕ → Option ℕ
  /-- History: the number of connections accepted. -/
  count : ℕ
  /-- History: how many records had been received when a connection was accepted, -/
  start : ℕ → ℕ
  /-- and when it was closed, without the record whose send failed. -/
  stop : ℕ → Option ℕ
  /-- History: the records received, with their connection. -/
  received : List (ℕ × M)
  /-- History: the calls of send. -/
  calls : List (Call M)

/-- What recv returns: -1, 0, or a record. -/
inductive Recv (M : Type*) where
  | error
  | closed
  | data (record : M)

variable {M : Type*}

/-! ## The handlers -/

/-- `handlereg`: the new descriptor joins `master`, wherever its bit is; a failing accept ends the server. -/
def handlereg (s : State M) : Option ℕ → State M
  | none => { s with pc := .exited }
  | some newfd =>
    { s with
      master := insert newfd s.master
      biggest := if newfd > s.biggest then newfd else s.biggest
      table := Function.update s.table newfd (some s.count)
      count := s.count + 1
      start := Function.update s.start s.count s.received.length }

/-- `close(fd); FD_CLR(fd, &master)`: the connection has been sent what was received before record `n`. -/
def drop (s : State M) (fd n : ℕ) : State M :=
  { s with
    master := s.master.erase fd
    table := Function.update s.table fd none
    stop := match s.table fd with
      | some c => Function.update s.stop c (some n)
      | none => s.stop }

/-- The body of the loop in `handlemsg`: the record to descriptor `j`. A send on a descriptor that is not
open fails. -/
def sendTo (L : Listeners) (sockfd sender : ℕ) (record : M) (sends : ℕ → Bool) (j : ℕ) (s : State M) : State M :=
  if j ≠ sockfd ∧ j ≠ L.unixfd ∧ j ≠ L.inetfd ∧ j ∈ s.master then
    let ok := sends j && (s.table j).isSome
    let s' := { s with calls := s.calls ++ [⟨j, s.table j, sender, record, ok⟩] }
    if ok then s' else drop s' j (s.received.length - 1)
  else s

/-- The first `k` turns of that loop. -/
def broadcast (L : Listeners) (sockfd sender : ℕ) (record : M) (sends : ℕ → Bool) : ℕ → State M → State M
  | 0, s => s
  | k + 1, s => sendTo L sockfd sender record sends k (broadcast L sockfd sender record sends k s)

/-- `handlemsg`: a recv on a descriptor that is not open fails, and a failing recv ends the server. -/
def handlemsg (L : Listeners) (s : State M) (sockfd : ℕ) (r : Recv M) (sends : ℕ → Bool) : State M :=
  match s.table sockfd, r with
  | none, _ => { s with pc := .exited }
  | some _, .error => { s with pc := .exited }
  | some _, .closed => drop s sockfd s.received.length
  | some c, .data record =>
    broadcast L sockfd c record sends (s.biggest + 1) { s with received := s.received ++ [(c, record)] }

/-! ## The select loop -/

/-- The environment's part of a step: the descriptors that are ready, the result of an accept, or those of
a recv and of the sends that follow it; or what an access outside of the sets has left in them. -/
inductive Label (M : Type*) where
  | select (ready : Finset ℕ)
  | skip
  | accept (newfd : Option ℕ)
  | recv (r : Recv M) (sends : ℕ → Bool)
  | outside (master readfds : Finset ℕ)

/-- After a handler main goes on with the next descriptor, unless the server has ended. -/
def advance (i : ℕ) (s : State M) : State M := if s.pc = .exited then s else { s with pc := .scan (i + 1) }

/-- accept returns a descriptor that is not open. -/
def Fresh (L : Listeners) (s : State M) (newfd : Option ℕ) : Prop :=
  ∀ fd ∈ newfd, fd ≠ L.inetfd ∧ fd ≠ L.unixfd ∧ s.table fd = none

instance (L : Listeners) (s : State M) (newfd : Option ℕ) : Decidable (Fresh L s newfd) :=
  inferInstanceAs (Decidable (∀ fd ∈ newfd, _))

/-- One step of main: select leaves in `readfds` some members of `master`; then each descriptor up to
`biggest` that is in `readfds` gets its handler. -/
def main (L : Listeners) (s : State M) (a : Label M) : Option (State M) :=
  match s.pc, a with
  | .select, .select ready => some { s with pc := .scan 0, readfds := s.master ∩ ready }
  | .scan i, a =>
    if i ≤ s.biggest then
      if i ∈ s.readfds then
        if i = L.inetfd ∨ i = L.unixfd then
          match a with
          | .accept newfd => if Fresh L s newfd then some (advance i (handlereg s newfd)) else none
          | _ => none
        else match a with
          | .recv r sends => some (advance i (handlemsg L s i r sends))
          | _ => none
      else match a with
        | .skip => some { s with pc := .scan (i + 1) }
        | _ => none
    else match a with
      | .skip => some { s with pc := .select }
      | _ => none
  | _, _ => none

/-- One step of main, or what else comes of it when FD_SET, FD_ISSET and select go up to a descriptor without a bit in
the sets: undefined, so any bits may be found in them. -/
def next (L : Listeners) (s : State M) : Label M → Option (State M)
  | .outside master readfds =>
    if s.pc ≠ .exited ∧ FD_SETSIZE ≤ s.biggest then some { s with master := master, readfds := readfds } else none
  | a => main L s a

/-- main in front of its loop. -/
structure Init (L : Listeners) (s : State M) : Prop where
  pc : s.pc = .select
  master : s.master = {L.inetfd, L.unixfd}
  biggest : s.biggest = if L.inetfd > L.unixfd then L.inetfd else L.unixfd
  table : ∀ fd, s.table fd = none
  count : s.count = 0
  stop : ∀ c, s.stop c = none
  received : s.received = []
  calls : s.calls = []

/-- All runs of the server. -/
def system (L : Listeners) : System (State M) (Label M) := ⟨Init L, next L⟩

/-- The listening sockets have bits in the sets, -/
def Listeners.Fit (L : Listeners) : Prop := L.inetfd < FD_SETSIZE ∧ L.unixfd < FD_SETSIZE

instance (L : Listeners) : Decidable L.Fit := inferInstanceAs (Decidable (_ ∧ _))

/-- and so does a descriptor that accept returns. -/
def Label.Fits : Label M → Prop
  | .accept (some newfd) => newfd < FD_SETSIZE
  | _ => True

instance : (a : Label M) → Decidable a.Fits
  | .accept (some newfd) => inferInstanceAs (Decidable (newfd < FD_SETSIZE))
  | .accept none | .select _ | .skip | .recv .. | .outside .. => inferInstanceAs (Decidable True)

/-- The server while all descriptors have bits in the sets. -/
def Within (_ : State M) (a : Label M) : Prop := a.Fits

instance (s : State M) (a : Label M) : Decidable (Within s a) := inferInstanceAs (Decidable a.Fits)

/-! ## What a step does -/

/-- main calls `handlemsg(i)` next. -/
structure Calls (L : Listeners) (s : State M) (i : ℕ) : Prop where
  pc : s.pc = .scan i
  le : i ≤ s.biggest
  ready : i ∈ s.readfds
  inet : i ≠ L.inetfd
  unix : i ≠ L.unixfd

/-- Everything a step of main can be. -/
inductive Steps (L : Listeners) (s : State M) : Label M → State M → Prop
  | select (ready : Finset ℕ) (h : s.pc = .select) :
      Steps L s (.select ready) { s with pc := .scan 0, readfds := s.master ∩ ready }
  | accept {i : ℕ} (newfd : Option ℕ) (h : s.pc = .scan i) (hi : i ≤ s.biggest) (hready : i ∈ s.readfds)
      (hlisten : i = L.inetfd ∨ i = L.unixfd) (hf : Fresh L s newfd) :
      Steps L s (.accept newfd) (advance i (handlereg s newfd))
  | recv {i : ℕ} (r : Recv M) (sends : ℕ → Bool) (h : Calls L s i) :
      Steps L s (.recv r sends) (advance i (handlemsg L s i r sends))
  | skip {i : ℕ} (h : s.pc = .scan i) (hi : i ≤ s.biggest) (hready : i ∉ s.readfds) :
      Steps L s .skip { s with pc := .scan (i + 1) }
  | again {i : ℕ} (h : s.pc = .scan i) (hi : ¬ i ≤ s.biggest) : Steps L s .skip { s with pc := .select }
  | outside (master readfds : Finset ℕ) (h : s.pc ≠ .exited) (hb : FD_SETSIZE ≤ s.biggest) :
      Steps L s (.outside master readfds) { s with master := master, readfds := readfds }

theorem steps_of_main {L : Listeners} {s s' : State M} {a : Label M} (h : main L s a = some s') : Steps L s a s' := by
  unfold main at h
  split at h
  · rename_i ready hpc
    cases h
    exact .select ready hpc
  · rename_i i hpc
    split at h
    · rename_i hle
      split at h
      · rename_i hready
        split at h
        · rename_i hlisten
          split at h
          · split at h
            · rename_i hfresh
              cases h
              exact .accept _ hpc hle hready hlisten hfresh
            · cases h
          · cases h
        · rename_i hclient
          push Not at hclient
          split at h
          · cases h
            exact .recv _ _ ⟨hpc, hle, hready, hclient.1, hclient.2⟩
          · cases h
      · rename_i hready
        split at h
        · cases h
          exact .skip hpc hle hready
        · cases h
    · rename_i hle
      split at h
      · cases h
        exact .again hpc hle
      · cases h
  · cases h

theorem next_eq_some {L : Listeners} {s s' : State M} {a : Label M} : next L s a = some s' ↔ Steps L s a s' := by
  constructor
  · intro h
    cases a with
    | outside master readfds =>
      simp only [next] at h
      split at h
      · rename_i hb
        cases h
        exact .outside master readfds hb.1 hb.2
      · cases h
    | _ => exact steps_of_main h
  · rintro (⟨ready, h⟩ | ⟨newfd, h, hi, hready, hlisten, hf⟩ | ⟨r, sends, hc⟩ | ⟨h, hi, hready⟩ | ⟨h, hi⟩ |
      ⟨_, _, h, hb⟩)
    · simp only [next, main, h]
    · simp only [next, main, h, if_pos hi, if_pos hready, if_pos hlisten, if_pos hf]
    · simp only [next, main, hc.pc, if_pos hc.le, if_pos hc.ready, hc.inet, hc.unix, or_self, if_false]
    · simp only [next, main, h, if_pos hi, if_neg hready]
    · simp only [next, main, h, if_neg hi]
    · exact if_pos ⟨h, hb⟩

/-! ## What a connection should and does get -/

/-- The records of the others among those received from number `start` up to number `stop`. -/
def heard (c start stop : ℕ) (received : List (ℕ × M)) : List M :=
  (((received.take stop).drop start).filter fun r => decide (r.1 ≠ c)).map Prod.snd

/-- The records sent to a connection with success. -/
def sentTo (s : State M) (c : ℕ) : List M :=
  (s.calls.filter fun r => decide (r.conn = some c) && r.ok).map Call.record

end Sysopy.Chat
