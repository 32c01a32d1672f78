/-
The indices at which the servers of the prime service access `client_queues` and `client_names`, arrays of 100
elements. The index of a registration is a counter, and those of requests and reports come back from the clients.
With clients that send only ids they could have been given, every access is inside the array as long as no more
than 100 registrations are handled, and not one registration longer.
-/
import Sysopy.PrimeQueue.PosixTurns
import Sysopy.PrimeQueue.SysVTurns

namespace Sysopy.PrimeQueue

open Sysopy.Conc Sysopy.CText

variable {ι : Type*}

/-- An index of `client_queues` or `client_names`. -/
def InArray (i : ℤ) : Prop := 0 ≤ i ∧ i < 100

/-! ## Ids that come back -/

/-- The server's state, the indices at which it has accessed the array, and how many registrations it has handled. -/
structure Seen (σ : Type*) where
  state : σ
  accesses : List ℤ
  registrations : ℕ

/-- A step of the server, or the clients change the queues, to anything. -/
inductive Move (κ ι M : Type*) where
  | server (rand : Rand) (stack : ℤ × ℤ × ℤ)
  | clients (qs : Mailboxes κ ι M)

/-- After `n` registrations: the ids given are below `n`, and just the indices below `n` have been accessed. -/
structure Handed (given : List (Option ι × ℤ)) (accesses : List ℤ) (n : ℕ) : Prop where
  given_lt : ∀ r ∈ given, 0 ≤ r.2 ∧ r.2 < n
  accesses_lt : ∀ i ∈ accesses, 0 ≤ i ∧ i < n
  written : ∀ k < n, (k : ℤ) ∈ accesses

section Handed

variable {given : List (Option ι × ℤ)} {accesses : List ℤ} {n : ℕ}

theorem handed_nil : Handed ([] : List (Option ι × ℤ)) [] 0 := ⟨by simp, by simp, by simp⟩

/-- The next id is given, and its place is written. -/
theorem Handed.give (h : Handed given accesses n) (sender : Option ι) :
    Handed (given ++ [(sender, (n : ℤ))]) (accesses ++ [(n : ℤ)]) (n + 1) := by
  refine ⟨?_, ?_, fun k hk => ?_⟩
  · rw [List.forall_mem_append, List.forall_mem_singleton]
    exact ⟨fun r hr => by have := h.given_lt r hr; omega, by simp⟩
  · rw [List.forall_mem_append, List.forall_mem_singleton]
    exact ⟨fun i hi => by have := h.accesses_lt i hi; omega, by omega⟩
  · rw [List.mem_append, List.mem_singleton]
    rcases Nat.lt_succ_iff_lt_or_eq.1 hk with hk | rfl
    · exact .inl (h.written k hk)
    · exact .inr rfl

/-- An id that was given comes back. -/
theorem Handed.read (h : Handed given accesses n) {r : Option ι × ℤ} (hr : r ∈ given) :
    Handed given (accesses ++ [r.2]) n := by
  refine ⟨h.given_lt, ?_, fun k hk => List.mem_append_left _ (h.written k hk)⟩
  rw [List.forall_mem_append, List.forall_mem_singleton]
  exact ⟨h.accesses_lt, h.given_lt r hr⟩

theorem Handed.inArray_iff (h : Handed given accesses n) : (∀ i ∈ accesses, InArray i) ↔ n ≤ 100 := by
  constructor
  · intro hin
    by_contra hn
    have hlast := hin 100 (h.written 100 (by omega))
    exact absurd hlast.2 (by decide)
  · intro hn i hi
    have hlt := h.accesses_lt i hi
    exact ⟨hlt.1, by omega⟩

end Handed

/-! ## System V queues -/

namespace SysV

/-- The index at which the server's next step accesses `client_queues`, if it does. -/
def access (v : Server ι) (stack : ℤ × ℤ × ℤ) : Option ℤ :=
  match v.pc with
  | .handle _ =>
    if v.buf.type = 1 then some v.clientId
    else if v.buf.type = 2 then some (atoi v.buf.value)
    else if v.buf.type = 3 then some (scanTriple ' ' v.buf.value stack).1
    else none
  | _ => none

/-- The server's next step handles a registration. -/
def registers (v : Server ι) : Bool :=
  match v.pc with
  | .handle _ => v.buf.type = 1
  | _ => false

/-- At a receive or a send the server accesses nothing. -/
theorem quiet_of_not_handle {v : Server ι} (hpc : ∀ sender, v.pc ≠ .handle sender) (stack : ℤ × ℤ × ℤ) :
    access v stack = none ∧ registers v = false := by
  unfold access registers
  split
  · rename_i sender h
    exact absurd h (hpc sender)
  · exact ⟨rfl, rfl⟩

/-- A request or report of a client carries an id that was given. -/
def Carries (given : List (Option ι × ℤ)) (m : Message) : Prop :=
  (m.type = 2 → ∃ r ∈ given, atoi m.value = r.2) ∧
    (m.type = 3 → ∃ r ∈ given, ∀ stack, (scanTriple ' ' m.value stack).1 = r.2)

section Step

variable (I : Ids ι) (cap : ℕ)

def nextSeen (w : Seen (State ι)) : Move ℤ ι Message → Option (Seen (State ι))
  | .server rand stack => (server I cap w.state rand stack).map fun s =>
    { state := s
      accesses := w.accesses ++ (access w.state.server stack).toList
      registrations := w.registrations + (registers w.state.server).toNat }
  | .clients qs => some { w with state := { w.state with queues := qs } }

/-- The server's main loop among clients that may do anything. -/
def seen : System (Seen (State ι)) (Move ℤ ι Message) where
  init w := w.state.server.pc = .poll ∧ w.state.server.clientId = 0 ∧ w.state.given = [] ∧ w.accesses = [] ∧
    w.registrations = 0
  next := nextSeen I cap

/-- The message that the server takes carries an id that was given. -/
def Honest (w : Seen (State ι)) : Move ℤ ι Message → Prop
  | .server .. => w.state.server.pc = .poll →
    ∀ e l, w.state.queues I.server = some (e :: l) → Carries w.state.given e.msg
  | .clients _ => True

end Step

section Invariant

variable {w w' : Seen (State ι)}

structure Counted (w : Seen (State ι)) : Prop where
  handed : Handed w.state.given w.accesses w.registrations
  clientId : w.state.server.clientId = w.registrations
  carries : ∀ sender, w.state.server.pc = .handle sender → Carries w.state.given w.state.server.buf

/-- The server handles a message. -/
theorem Counted.handles (hC : Counted w) {sender : Option ι} (rand : Rand) (stack : ℤ × ℤ × ℤ)
    (hpc : w.state.server.pc = .handle sender) :
    Counted ⟨handleServer w.state sender rand stack, w.accesses ++ (access w.state.server stack).toList,
      w.registrations + (registers w.state.server).toNat⟩ := by
  obtain ⟨hhanded, hid, hcarries⟩ := hC
  obtain ⟨hrequest, hreport⟩ := hcarries sender hpc
  unfold handleServer access registers
  simp only [hpc]
  split_ifs with h1 h2 h3
  · refine ⟨?_, ?_, (by rintro _ ⟨⟩)⟩
    · simpa [giveId, hid, h1] using hhanded.give sender
    · simp [giveId, hid, h1]
  · obtain ⟨r, hr, hatoi⟩ := hrequest h2
    refine ⟨?_, by simpa [drawNumber, h1] using hid, (by rintro _ ⟨⟩)⟩
    simpa [drawNumber, hatoi, h1] using hhanded.read hr
  · obtain ⟨r, hr, hscan⟩ := hreport h3
    refine ⟨?_, by simpa [acknowledge, h1] using hid, (by rintro _ ⟨⟩)⟩
    simpa [acknowledge, hscan stack, h1] using hhanded.read hr
  · exact ⟨by simpa [h1] using hhanded, by simpa [h1] using hid, (by rintro _ ⟨⟩)⟩

/-- The server is at a receive or a send. -/
theorem Counted.still (hC : Counted w) {s : State ι} (stack : ℤ × ℤ × ℤ)
    (hpc : ∀ sender, w.state.server.pc ≠ .handle sender) (hgiven : s.given = w.state.given)
    (hid : s.server.clientId = w.state.server.clientId)
    (hcarries : ∀ sender, s.server.pc = .handle sender → Carries s.given s.server.buf) :
    Counted ⟨s, w.accesses ++ (access w.state.server stack).toList,
      w.registrations + (registers w.state.server).toNat⟩ := by
  obtain ⟨haccess, hregisters⟩ := quiet_of_not_handle hpc stack
  rw [haccess, hregisters]
  refine ⟨?_, ?_, hcarries⟩
  · simpa [hgiven] using hC.handed
  · simpa [hid] using hC.clientId

variable {I : Ids ι} {cap : ℕ}

/-! One registration after the other. -/

/-- A step of the server in one of these runs. -/
theorem server_seen {rand : Rand} {stack : ℤ × ℤ × ℤ} {s : State ι} (hw : (seen I cap).ReachableIf (Honest I) w)
    (hok : Honest I w (.server rand stack)) (h : server I cap w.state rand stack = some s) :
    (seen I cap).ReachableIf (Honest I) ⟨s, w.accesses ++ (access w.state.server stack).toList,
      w.registrations + (registers w.state.server).toNat⟩ := by
  refine hw.next (a := .server rand stack) hok ?_
  show (SysV.server I cap w.state rand stack).map _ = _
  rw [h]
  rfl

/-- A client with queue `q` registers, and the server gives it an id. -/
theorem registration_handled {q : ℤ} (hq : InInt q) (hcap : 0 < cap) (hw : (seen I cap).ReachableIf (Honest I) w)
    (hpc : w.state.server.pc = .poll) : ∃ w', (seen I cap).ReachableIf (Honest I) w' ∧ w'.state.server.pc = .poll ∧
      w'.registrations = w.registrations + 1 := by
  let qs : Queues ι := Function.update (fun _ => some []) I.server (some [⟨none, ⟨1, printInt q⟩⟩])
  have h1 : (seen I cap).ReachableIf (Honest I) { w with state := { w.state with queues := qs } } :=
    hw.next (a := .clients qs) trivial rfl
  obtain ⟨s2, hs2, hpc2, hbuf2, hqueue2⟩ : ∃ s2, server I cap { w.state with queues := qs } 0 (0, 0, 0) = some s2 ∧
      s2.server.pc = .handle none ∧ s2.server.buf = ⟨1, printInt q⟩ ∧ s2.queues q = some [] := by
    simp only [SysV.server, hpc, msgrcv, Mailboxes.take, qs, Function.update_self]
    refine ⟨_, rfl, rfl, rfl, ?_⟩
    by_cases h : q = I.server <;> simp [h]
  have h2 := server_seen h1 (fun _ e l hl => ?_) hs2
  · obtain ⟨s3, hs3, hpc3, hqueue3⟩ : ∃ s3, server I cap s2 0 (0, 0, 0) = some s3 ∧
        s3.server.pc = .send none q .id ∧ s3.queues q = some [] := by
      refine ⟨giveId s2 none, ?_, ?_, hqueue2⟩
      · simp [SysV.server, handleServer, hpc2, hbuf2]
      · simp [giveId, hbuf2, atoi_printInt hq]
    have h3 := server_seen h2 (fun h => absurd (hpc2.symm.trans h) (by rintro ⟨⟩)) hs3
    obtain ⟨s4, hs4, hpc4⟩ : ∃ s4, server I cap s3 0 (0, 0, 0) = some s4 ∧ s4.server.pc = .poll := by
      simp [SysV.server, hpc3, msgsnd, hqueue3, hcap]
    have h4 := server_seen h3 (fun h => absurd (hpc3.symm.trans h) (by rintro ⟨⟩)) hs4
    refine ⟨_, h4, hpc4, ?_⟩
    simp [registers, hpc, hpc2, hbuf2, hpc3]
  · simp only [qs, Function.update_self, Option.some.injEq, List.cons.injEq] at hl
    obtain ⟨rfl, -⟩ := hl
    exact ⟨(by rintro ⟨⟩), (by rintro ⟨⟩)⟩

variable (I) in
/-- Any number of registrations may come. -/
theorem exists_registrations {q : ℤ} (hq : InInt q) (hcap : 0 < cap) (s : State ι) (hpc : s.server.pc = .poll)
    (hid : s.server.clientId = 0) (hgiven : s.given = []) (n : ℕ) : ∃ w, (seen I cap).ReachableIf (Honest I) w ∧
      w.state.server.pc = .poll ∧ w.registrations = n := by
  induction n with
  | zero => exact ⟨⟨s, [], 0⟩, .init ⟨hpc, hid, hgiven, rfl, rfl⟩, hpc, rfl⟩
  | succ n ih =>
    obtain ⟨w, hw, hpc, rfl⟩ := ih
    exact registration_handled hq hcap hw hpc

variable [DecidableEq ι]

theorem Counted.server (hC : Counted w) {rand : Rand} {stack : ℤ × ℤ × ℤ} {s : State ι}
    (hhonest : Honest I w (.server rand stack)) (h : server I cap w.state rand stack = some s) :
    Counted ⟨s, w.accesses ++ (access w.state.server stack).toList,
      w.registrations + (registers w.state.server).toNat⟩ := by
  by_cases hhandle : ∃ sender, w.state.server.pc = .handle sender
  · obtain ⟨sender, hpc⟩ := hhandle
    simp only [SysV.server, hpc, Option.some.injEq] at h
    rw [← h]
    exact hC.handles rand stack hpc
  · have hnot : ∀ sender, w.state.server.pc ≠ .handle sender := fun sender h => hhandle ⟨sender, h⟩
    rcases server_cases h with rfl | ⟨e, l, hpc, hl, rfl⟩ | ⟨sender, hpc, -⟩ | ⟨sender, q, r, l, -, -, rfl⟩ |
      ⟨sender, q, r, -, -, rfl⟩
    · exact hC.still stack hnot rfl rfl hC.carries
    · exact hC.still stack hnot rfl rfl fun _ _ => hhonest hpc e l hl
    · exact absurd hpc (hnot sender)
    · exact hC.still stack hnot rfl rfl nofun
    · refine hC.still stack hnot rfl rfl fun sender h => ?_
      dsimp only at h
      split at h <;> cases h

theorem reachable_counted (h : (seen I cap).ReachableIf (Honest I) w) : Counted w := by
  refine h.invariant (I := Counted) (fun w h0 => ?_) fun w a w' _ hC hok hs => ?_
  · obtain ⟨hpc, hid, hgiven, haccesses, hregistrations⟩ := h0
    refine ⟨?_, by rw [hid, hregistrations]; rfl, by rw [hpc]; exact fun _ => nofun⟩
    rw [hgiven, haccesses, hregistrations]
    exact handed_nil
  · cases a with
    | server rand stack =>
      obtain ⟨s, hserver, rfl⟩ := Option.map_eq_some_iff.1 hs
      exact hC.server hok hserver
    | clients qs =>
      cases hs
      exact ⟨hC.handed, hC.clientId, hC.carries⟩

end Invariant

end SysV

/-! ## POSIX queues -/

namespace Posix

/-- The index at which the server's next step accesses `client_names`, if it does. -/
def access (v : Server ι) (stack : ℤ × ℤ × ℤ) : Option ℤ :=
  match v.pc with
  | .handle _ =>
    if byte0 v.buf = '\x01' then some v.clientId
    else if byte0 v.buf = '\x02' then some (atoi (cString v.buf.tail))
    else if byte0 v.buf = '\x03' then some (scanTriple ',' (cString v.buf.tail) stack).1
    else none
  | _ => none

/-- The server's next step handles a registration. -/
def registers (v : Server ι) : Bool :=
  match v.pc with
  | .handle _ => byte0 v.buf = '\x01'
  | _ => false

/-- At a receive or a send the server accesses nothing. -/
theorem quiet_of_not_handle {v : Server ι} (hpc : ∀ sender, v.pc ≠ .handle sender) (stack : ℤ × ℤ × ℤ) :
    access v stack = none ∧ registers v = false := by
  unfold access registers
  split
  · rename_i sender h
    exact absurd h (hpc sender)
  · exact ⟨rfl, rfl⟩

/-- A message of a client has a type, and a request or report carries an id that was given. -/
structure Carries (given : List (Option ι × ℤ)) (m : List Char) : Prop where
  typed : m ≠ []
  request : byte0 m = '\x02' → ∃ r ∈ given, atoi (cString m.tail) = r.2
  report : byte0 m = '\x03' → ∃ r ∈ given, ∀ stack, (scanTriple ',' (cString m.tail) stack).1 = r.2

def nextSeen (w : Seen (State ι)) : Move (List Char) ι (List Char) → Option (Seen (State ι))
  | .server rand stack => (server w.state rand stack).map fun s =>
    { state := s
      accesses := w.accesses ++ (access w.state.server stack).toList
      registrations := w.registrations + (registers w.state.server).toNat }
  | .clients qs => some { w with state := { w.state with queues := qs } }

/-- The server's main, from its draining loop on, among clients that may do anything. -/
def seen : System (Seen (State ι)) (Move (List Char) ι (List Char)) where
  init w := w.state.server.pc = .drain ∧ w.state.server.clientId = 0 ∧ w.state.given = [] ∧ w.accesses = [] ∧
    w.registrations = 0
  next := nextSeen

/-- The message that the main loop takes carries an id that was given. -/
def Honest (w : Seen (State ι)) : Move (List Char) ι (List Char) → Prop
  | .server .. => w.state.server.pc = .poll →
    ∀ e l, w.state.queues serverName = some (e :: l) → Carries w.state.given e.msg
  | .clients _ => True

section Invariant

variable {w w' : Seen (State ι)}

structure Counted (w : Seen (State ι)) : Prop where
  handed : Handed w.state.given w.accesses w.registrations
  /-- The counter is raised when an id has been sent. -/
  clientId : w.state.server.pc ≠ .exited → w.state.server.clientId + w.state.server.pc.chosen = w.registrations
  carries : ∀ sender, w.state.server.pc = .handle sender → Carries w.state.given w.state.server.buf
  drained : w.state.server.pc = .drain → w.state.given = []
  /-- Only before the first id there are bytes of other messages in the buffer. -/
  cleared : w.state.server.pc = .poll → w.state.given = [] ∨ w.state.server.buf = []

/-- A message lies over what is in the buffer. -/
theorem Carries.overwrite {given : List (Option ι × ℤ)} {m : List Char} (h : Carries given m) {b : Buffer}
    (hb : given = [] ∨ b = []) : Carries given (overwrite m b) := by
  rcases hb with rfl | rfl
  · obtain ⟨htyped, hrequest, hreport⟩ := h
    obtain ⟨c, m, rfl⟩ := List.exists_cons_of_ne_nil htyped
    -- no id has been given, so the message is neither a request nor a report
    refine ⟨nofun, fun h2 => ?_, fun h3 => ?_⟩
    · obtain ⟨r, hr, -⟩ := hrequest h2
      cases hr
    · obtain ⟨r, hr, -⟩ := hreport h3
      cases hr
  · rwa [overwrite_nil]

/-- The server handles a message. -/
theorem Counted.handles (hC : Counted w) {sender : Option ι} (rand : Rand) (stack : ℤ × ℤ × ℤ)
    (hpc : w.state.server.pc = .handle sender) :
    Counted ⟨handleServer w.state sender rand stack, w.accesses ++ (access w.state.server stack).toList,
      w.registrations + (registers w.state.server).toNat⟩ := by
  have hid : w.state.server.clientId = w.registrations := by
    simpa [hpc, ServerPc.chosen] using hC.clientId (by rw [hpc]; rintro ⟨⟩)
  have hhanded := hC.handed
  obtain ⟨-, hrequest, hreport⟩ := hC.carries sender hpc
  unfold handleServer access registers
  simp only [hpc]
  split_ifs with h1 h2 h3
  · refine ⟨?_, fun _ => ?_, (by rintro _ ⟨⟩), (by rintro ⟨⟩), (by rintro ⟨⟩)⟩
    · simpa [giveId, hid, h1] using hhanded.give sender
    · simp [giveId, ServerPc.chosen, hid, h1]
  · obtain ⟨r, hr, hatoi⟩ := hrequest h2
    refine ⟨?_, fun _ => by simpa [drawNumber, ServerPc.chosen, h1] using hid, (by rintro _ ⟨⟩),
      (by rintro ⟨⟩), (by rintro ⟨⟩)⟩
    simpa [drawNumber, hatoi, h1] using hhanded.read hr
  · obtain ⟨r, hr, hscan⟩ := hreport h3
    refine ⟨?_, fun _ => by simpa [acknowledge, ServerPc.chosen, h1] using hid, (by rintro _ ⟨⟩),
      (by rintro ⟨⟩), (by rintro ⟨⟩)⟩
    simpa [acknowledge, hscan stack, h1] using hhanded.read hr
  · exact ⟨by simpa [h1] using hhanded, fun _ => by simpa [h1, ServerPc.chosen] using hid, (by rintro _ ⟨⟩),
      (by rintro ⟨⟩), fun _ => .inr rfl⟩

/-- The server is at a receive or a send. -/
theorem Counted.still (hC : Counted w) {s : State ι} (stack : ℤ × ℤ × ℤ)
    (hpc : ∀ sender, w.state.server.pc ≠ .handle sender) (hgiven : s.given = w.state.given)
    (hid : s.server.pc ≠ .exited → s.server.clientId + s.server.pc.chosen = w.registrations)
    (hcarries : ∀ sender, s.server.pc = .handle sender → Carries s.given s.server.buf)
    (hdrained : s.server.pc = .drain → s.given = [])
    (hcleared : s.server.pc = .poll → s.given = [] ∨ s.server.buf = []) :
    Counted ⟨s, w.accesses ++ (access w.state.server stack).toList,
      w.registrations + (registers w.state.server).toNat⟩ := by
  obtain ⟨haccess, hregisters⟩ := quiet_of_not_handle hpc stack
  rw [haccess, hregisters]
  refine ⟨?_, hid, hcarries, hdrained, hcleared⟩
  simpa [hgiven] using hC.handed

/-- The server sends an answer: an id that has been sent is counted. -/
theorem Counted.answers (hC : Counted w) {sender : Option ι} {q : Option (List Char)} {r : Reply}
    (stack : ℤ × ℤ × ℤ) (hpc : w.state.server.pc = .send sender q r) :
    Counted ⟨answer w.state q r, w.accesses ++ (access w.state.server stack).toList,
      w.registrations + (registers w.state.server).toNat⟩ := by
  have hnot : ∀ sender, w.state.server.pc ≠ .handle sender := by rw [hpc]; rintro _ ⟨⟩
  have hid : w.state.server.clientId + w.state.server.pc.chosen = w.registrations :=
    hC.clientId (by rw [hpc]; rintro ⟨⟩)
  rw [hpc] at hid
  rcases answer_cases w.state q r with ⟨qs, -, h⟩ | ⟨-, rfl, h⟩ | ⟨-, -, h⟩ <;> rw [h]
  · refine hC.still stack hnot rfl (fun _ => ?_) (by rintro _ ⟨⟩) (by rintro ⟨⟩) fun _ => .inr rfl
    cases r <;> simpa [ServerPc.chosen] using hid
  · exact hC.still stack hnot rfl (fun _ => hid) (by rintro _ ⟨⟩) (by rintro ⟨⟩) fun _ => .inr rfl
  · exact hC.still stack hnot rfl (fun h => absurd rfl h) (by rintro _ ⟨⟩) (by rintro ⟨⟩) (by rintro ⟨⟩)

theorem Counted.server (hC : Counted w) {rand : Rand} {stack : ℤ × ℤ × ℤ} {s : State ι}
    (hhonest : Honest w (.server rand stack)) (h : server w.state rand stack = some s) :
    Counted ⟨s, w.accesses ++ (access w.state.server stack).toList,
      w.registrations + (registers w.state.server).toNat⟩ := by
  have hid := hC.clientId
  rcases server_cases h with ⟨e, l, hpc, -, rfl⟩ | ⟨hpc, -, rfl⟩ | ⟨e, l, hpc, hl, rfl⟩ | ⟨hpc, -, rfl⟩ |
    ⟨sender, hpc, rfl⟩ | ⟨sender, q, r, hpc, rfl⟩
  · have hnot : ∀ sender, w.state.server.pc ≠ .handle sender := by rw [hpc]; exact fun _ => nofun
    refine hC.still stack hnot rfl hid (fun sender hp => absurd hp (hnot sender)) hC.drained fun hp => ?_
    exact absurd (hpc.symm.trans hp) nofun
  · have hnot : ∀ sender, w.state.server.pc ≠ .handle sender := by rw [hpc]; exact fun _ => nofun
    rw [hpc] at hid
    exact hC.still stack hnot rfl (fun _ => hid nofun) nofun nofun fun _ => .inl (hC.drained hpc)
  · have hnot : ∀ sender, w.state.server.pc ≠ .handle sender := by rw [hpc]; exact fun _ => nofun
    rw [hpc] at hid
    exact hC.still stack hnot rfl (fun _ => hid nofun)
      (fun _ _ => (hhonest hpc e l hl).overwrite (hC.cleared hpc)) nofun nofun
  · have hnot : ∀ sender, w.state.server.pc ≠ .handle sender := by rw [hpc]; exact fun _ => nofun
    refine hC.still stack hnot rfl hid (fun sender hp => ?_) (fun hp => ?_) fun _ => .inr rfl
    · exact absurd (hpc.symm.trans hp) nofun
    · exact absurd (hpc.symm.trans hp) nofun
  · exact hC.handles rand stack hpc
  · exact hC.answers stack hpc

theorem reachable_counted (h : seen.ReachableIf Honest w) : Counted w := by
  refine h.invariant (I := Counted) (fun w h0 => ?_) fun w a w' _ hC hok hs => ?_
  · obtain ⟨hpc, hid, hgiven, haccesses, hregistrations⟩ := h0
    refine ⟨?_, fun _ => by simp [hpc, hid, hregistrations, ServerPc.chosen], by rw [hpc]; rintro _ ⟨⟩,
      fun _ => hgiven, by rw [hpc]; rintro ⟨⟩⟩
    rw [hgiven, haccesses, hregistrations]
    exact handed_nil
  · cases a with
    | server rand stack =>
      obtain ⟨s, hserver, rfl⟩ := Option.map_eq_some_iff.1 hs
      exact hC.server hok hserver
    | clients qs =>
      cases hs
      exact ⟨hC.handed, hC.clientId, hC.carries, hC.drained, hC.cleared⟩

end Invariant

end Posix

/-! ## Both servers -/

/-- With both servers and any clients whose requests and reports carry ids that were given: all accesses to
`client_queues` and to `client_names` are inside the array iff no more than 100 registrations have been handled. -/
theorem accesses_inArray_iff [DecidableEq ι] :
    (∀ (I : SysV.Ids ι) (cap : ℕ) w, (SysV.seen I cap).ReachableIf (SysV.Honest I) w →
      ((∀ i ∈ w.accesses, InArray i) ↔ w.registrations ≤ 100)) ∧
    ∀ w : Seen (Posix.State ι), Posix.seen.ReachableIf Posix.Honest w →
      ((∀ i ∈ w.accesses, InArray i) ↔ w.registrations ≤ 100) :=
  ⟨fun _ _ _ h => (SysV.reachable_counted h).handed.inArray_iff,
    fun _ h => (Posix.reachable_counted h).handed.inArray_iff⟩

/-- Two registrations. -/
theorem accesses_inArray_iff_two : ∃ w, (SysV.seen SysV.twoIds 409).ReachableIf (SysV.Honest SysV.twoIds) w ∧
    w.registrations = 2 ∧ ∀ i ∈ w.accesses, InArray i := by
  obtain ⟨w, hw, -, htwo⟩ := SysV.exists_registrations SysV.twoIds (show InInt 1 by decide) (show 0 < 409 by decide)
    SysV.twoDrained rfl rfl rfl 2
  exact ⟨w, hw, htwo, (accesses_inArray_iff.1 SysV.twoIds 409 w hw).2 (by omega)⟩

/-- The 101st registration is kept at index 100. -/
theorem hundred_first_outside : ∃ w, (SysV.seen SysV.twoIds 409).ReachableIf (SysV.Honest SysV.twoIds) w ∧
    w.registrations = 101 ∧ ¬ ∀ i ∈ w.accesses, InArray i := by
  obtain ⟨w, hw, -, hmany⟩ := SysV.exists_registrations SysV.twoIds (show InInt 1 by decide) (show 0 < 409 by decide)
    SysV.twoDrained rfl rfl rfl 101
  refine ⟨w, hw, hmany, fun hin => ?_⟩
  have hle := (SysV.reachable_counted hw).handed.inArray_iff.1 hin
  omega

end Sysopy.PrimeQueue
