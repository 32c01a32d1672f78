/-
The prime service over POSIX queues (cw06/zad2): the server, from the loop that drains its queue, and any
number of clients. Each mq_open, mq_receive and mq_send is one step together with what the process computes
before the next one. A queue holds at most ten messages and no call blocks: a send on a full queue, or on
a descriptor that is -1, fails and has no effect. A message is a sequence of bytes; clients send theirs
without the NUL.
-/
import Sysopy.Conc.System
import Sysopy.Conc.Mailbox
import Sysopy.CText.Buffer
import Sysopy.PrimeQueue.Prime

namespace Sysopy.PrimeQueue.Posix

open Sysopy.Conc Sysopy.CText

/-! ## Queues -/

/-- The queues that exist, by name; a message is its bytes. -/
abbrev Queues (ι : Type*) := Mailboxes (List Char) ι (List Char)

/-- `attr.mq_maxmsg`. -/
def mqMaxmsg : ℕ := 10

/-- "/server". -/
def serverName : List Char := ['/', 's', 'e', 'r', 'v', 'e', 'r']

/-- The names of the clients' queues: different, and strings that fit in `client_name`. -/
structure Names (ι : Type*) where
  name : ι → List Char
  name_injective : Function.Injective name
  name_ne_server : ∀ c, name c ≠ serverName
  nul_not_mem : ∀ c, '\x00' ∉ name c
  length_lt : ∀ c, (name c).length < 32

variable {ι : Type*}

/-- `mq_open` without `O_CREAT`: a descriptor of the queue, none for -1. -/
def mqOpen (qs : Queues ι) (q : List Char) : Option (List Char) := if (qs q).isSome then some q else none

/-- `mq_receive`: the first message, none for -1. -/
def mqReceive (qs : Queues ι) (q : List Char) : Option (Envelope ι (List Char) × Queues ι) := qs.take q

/-- `mq_send` on a descriptor, none for -1. -/
def mqSend (qs : Queues ι) (d : Option (List Char)) (e : Envelope ι (List Char)) : Option (Queues ι) :=
  d.bind fun q => (qs q).bind fun l =>
    if l.length < mqMaxmsg then some (Function.update qs q (some (l ++ [e]))) else none

/-! ## The processes -/

/-- The branch of the server's main loop whose answer is about to be sent. -/
inductive Reply where
  | id
  | number
  | ack
  deriving DecidableEq

/-- Where the server is: draining its queue, at the mq_receive of its main loop, at the tests on `buf[0]`
(with the sender of the message), at the mq_send of a branch to a descriptor, or out of its loop. -/
inductive ServerPc (ι : Type*) where
  | drain
  | poll
  | handle (sender : Option ι)
  | send (sender : Option ι) (clientQueue : Option (List Char)) (reply : Reply)
  | exited

structure Server (ι : Type*) where
  pc : ServerPc ι
  buf : Buffer
  /-- `client_names`, by index. -/
  clientNames : ℤ → List Char
  /-- `client_id`. -/
  clientId : ℤ

inductive ClientPc where
  | start
  | register
  | poll
  | handle
  | send
  | exited
  deriving DecidableEq

structure Client where
  pc : ClientPc
  buf : Buffer
  clientId : ℤ

structure State (ι : Type*) where
  queues : Queues ι
  server : Server ι
  clients : ι → Client
  /-- The lines the server printed: number and client id. -/
  out : List (ℤ × ℤ)
  /-- History: the ids chosen for a registration, with its sender. -/
  given : List (Option ι × ℤ)

section Step

variable [DecidableEq ι] (N : Names ι)

/-- The branch for a registration: the name of the client's queue is kept under the next id. -/
def giveId (s : State ι) (sender : Option ι) : State ι :=
  let v := s.server
  let clientName := cString v.buf.tail
  { s with
    server := { v with
      pc := .send sender (mqOpen s.queues clientName) .id
      buf := strcpy1 (printInt v.clientId) (setByte0 '\x01' v.buf)
      clientNames := Function.update v.clientNames v.clientId clientName }
    given := s.given ++ [(sender, v.clientId)] }

/-- The branch for a request: a number for the client of that id. -/
def drawNumber (s : State ι) (sender : Option ι) (rand : Rand) : State ι :=
  let v := s.server
  let clientId := atoi (cString v.buf.tail)
  { s with
    server := { v with
      pc := .send sender (mqOpen s.queues (v.clientNames clientId)) .number
      buf := setByte0 '\x02' (strcpy1 (printInt rand.val) v.buf) } }

/-- The branch for a report; `stack` is what its uninitialised locals hold. -/
def acknowledge (s : State ι) (sender : Option ι) (stack : ℤ × ℤ × ℤ) : State ι :=
  let v := s.server
  let (clientId, number, isNumPrime) := scanTriple ',' (cString v.buf.tail) stack
  { s with
    server := { v with
      pc := .send sender (mqOpen s.queues (v.clientNames clientId)) .ack
      buf := setByte0 '\x03' v.buf }
    out := if isNumPrime ≠ 0 then s.out ++ [(number, clientId)] else s.out }

/-- The tests on `buf[0]` in the server. -/
def handleServer (s : State ι) (sender : Option ι) (rand : Rand) (stack : ℤ × ℤ × ℤ) : State ι :=
  if byte0 s.server.buf = '\x01' then giveId s sender
  else if byte0 s.server.buf = '\x02' then drawNumber s sender rand
  else if byte0 s.server.buf = '\x03' then acknowledge s sender stack
  else { s with server := { s.server with pc := .poll, buf := [] } }

/-- The `mq_send` of a branch: the first two leave the main loop when it fails. -/
def answer (s : State ι) (clientQueue : Option (List Char)) (reply : Reply) : State ι :=
  let v := s.server
  match mqSend s.queues clientQueue ⟨none, cString v.buf ++ ['\x00']⟩ with
  | some qs =>
    { s with
      queues := qs
      server := { v with
        pc := .poll, buf := [], clientId := if reply = .id then v.clientId + 1 else v.clientId } }
  | none =>
    if reply = .ack then { s with server := { v with pc := .poll, buf := [] } }
    else { s with server := { v with pc := .exited } }

/-- One step of the server's main. -/
def server (s : State ι) (rand : Rand) (stack : ℤ × ℤ × ℤ) : Option (State ι) :=
  let v := s.server
  match v.pc with
  | .drain =>
    match mqReceive s.queues serverName with
    | some (e, qs) => some { s with queues := qs, server := { v with buf := overwrite e.msg v.buf } }
    | none => some { s with server := { v with pc := .poll } }
  | .poll =>
    match mqReceive s.queues serverName with
    | some (e, qs) => some
      { s with queues := qs, server := { v with pc := .handle e.sender, buf := overwrite e.msg v.buf } }
    | none => some { s with server := { v with buf := [] } }
  | .handle sender => some (handleServer s sender rand stack)
  | .send _ q reply => some (answer s q reply)
  | .exited => none

/-- The tests on `buf[0]` in a client. -/
def handleClient (v : Client) : Client :=
  if byte0 v.buf = '\x01' then
    { v with pc := .send, clientId := atoi (cString v.buf.tail), buf := setByte0 '\x02' v.buf }
  else if byte0 v.buf = '\x02' then
    let number := atoi (cString v.buf.tail)
    -- `snprintf` keeps 31 characters
    let msg := (printTriple ',' v.clientId number (isPrime number)).take 31
    { v with pc := .send, buf := setByte0 '\x03' (strcpy1 msg v.buf) }
  else if byte0 v.buf = '\x03' then
    { v with pc := .send, buf := setByte0 '\x02' (strcpy1 (printInt v.clientId) v.buf) }
  else { v with pc := .poll, buf := [] }

/-- One step of a client's main, when `name` is what each client has in `client_name` and there is room for another
queue at its `mq_open` with `O_CREAT`. -/
def clientOf (name : ι → List Char) (s : State ι) (c : ι) : Option (State ι) :=
  let v := s.clients c
  match v.pc with
  | .start => some
    { s with
      queues := Function.update s.queues (name c) (some ((s.queues (name c)).getD []))
      clients := Function.update s.clients c
        { v with pc := .register, buf := strcpy1 (name c) (setByte0 '\x01' v.buf) } }
  | .register =>
    match mqSend s.queues (some serverName) ⟨some c, cString v.buf⟩ with
    | some qs => some { s with queues := qs, clients := Function.update s.clients c { v with pc := .poll } }
    | none => some { s with clients := Function.update s.clients c { v with pc := .exited } }
  | .poll =>
    match mqReceive s.queues (name c) with
    | some (e, qs) => some
      { s with
        queues := qs
        clients := Function.update s.clients c { v with pc := .handle, buf := overwrite e.msg v.buf } }
    | none => some { s with clients := Function.update s.clients c { v with buf := [] } }
  | .handle => some { s with clients := Function.update s.clients c (handleClient v) }
  | .send =>
    -- the result of this mq_send is not used
    some
      { s with
        queues := (mqSend s.queues (some serverName) ⟨some c, cString v.buf⟩).getD s.queues
        clients := Function.update s.clients c { v with pc := .poll, buf := [] } }
  | .exited => none

/-- One step of a client's main. -/
def client (s : State ι) (c : ι) : Option (State ι) := clientOf N.name s c

/-- Who moves next, and what the server draws and finds on its stack when it does. -/
inductive Label (ι : Type*) where
  | server (rand : Rand) (stack : ℤ × ℤ × ℤ)
  | client (c : ι)

def next (s : State ι) : Label ι → Option (State ι)
  | .server rand stack => server s rand stack
  | .client c => client N s c

/-- The server's queue is empty, its buffers are still zero and no client has started. The server is in its
draining loop, or already past it. -/
structure Init (draining : Bool) (s : State ι) : Prop where
  serverQueue : s.queues serverName = some []
  clientQueue : ∀ c, s.queues (N.name c) = none
  pc : s.server.pc = if draining then .drain else .poll
  buf : s.server.buf = []
  clientId : s.server.clientId = 0
  client : ∀ c, (s.clients c).pc = .start
  given : s.given = []

/-- All interleavings of the server and its clients. -/
def system (draining : Bool) : System (State ι) (Label ι) := ⟨Init N draining, next N⟩

end Step

/-- The state before anything happened. -/
def initState (ι : Type*) (draining : Bool) : State ι where
  queues q := if q = serverName then some [] else none
  server := ⟨if draining then .drain else .poll, [], fun _ => [], 0⟩
  clients _ := ⟨.start, [], 0⟩
  out := []
  given := []

theorem initState_init (N : Names ι) (draining : Bool) : Init N draining (initState ι draining) where
  serverQueue := by simp [initState]
  clientQueue c := by simp [initState, N.name_ne_server]
  pc := rfl
  buf := rfl
  clientId := rfl
  client _ := rfl
  given := rfl

/-! ## What a call can do -/

section Calls

variable {qs : Queues ι} {q : List Char}

theorem mqSend_eq_some {qs' : Queues ι} {d : Option (List Char)} {e : Envelope ι (List Char)} :
    mqSend qs d e = some qs' ↔ ∃ q l, d = some q ∧ qs q = some l ∧ l.length < mqMaxmsg ∧
      qs' = Function.update qs q (some (l ++ [e])) := by
  unfold mqSend
  constructor
  · intro h
    obtain ⟨q, hd, h⟩ := Option.bind_eq_some_iff.1 h
    obtain ⟨l, hl, h⟩ := Option.bind_eq_some_iff.1 h
    split at h
    · rename_i hlt
      exact ⟨q, l, hd, hl, hlt, (Option.some.inj h).symm⟩
    · cases h
  · rintro ⟨q, l, rfl, hl, hlt, rfl⟩
    simp [hl, hlt]

/-- A send on a queue that is not full appends the message. -/
theorem mqSend_of_lt {l : List (Envelope ι (List Char))} (hq : qs q = some l) (hl : l.length < mqMaxmsg)
    (e : Envelope ι (List Char)) : mqSend qs (some q) e = some (Function.update qs q (some (l ++ [e]))) := by
  simp [mqSend, hq, hl]

/-- A send on a full queue fails. -/
theorem mqSend_of_full {l : List (Envelope ι (List Char))} (hq : qs q = some l) (hl : mqMaxmsg ≤ l.length)
    (e : Envelope ι (List Char)) : mqSend qs (some q) e = none := by
  simp [mqSend, hq, Nat.not_lt.2 hl]

theorem mqReceive_eq_none (h : mqReceive qs q = none) : (qs q).getD [] = [] := by
  unfold mqReceive Mailboxes.take at h
  split at h
  · cases h
  · rename_i hno
    cases hq : qs q with
    | none => rfl
    | some l =>
      cases l with
      | nil => rfl
      | cons e l => exact absurd hq (hno e l)

end Calls

/-! ## What a step can do -/

section Cases

variable {s s' : State ι}

theorem server_cases {rand : Rand} {stack : ℤ × ℤ × ℤ} (h : server s rand stack = some s') :
    (∃ e l, s.server.pc = .drain ∧ s.queues serverName = some (e :: l) ∧
      s' = { s with
        queues := Function.update s.queues serverName (some l)
        server := { s.server with buf := overwrite e.msg s.server.buf } }) ∨
    (s.server.pc = .drain ∧ (s.queues serverName).getD [] = [] ∧
      s' = { s with server := { s.server with pc := .poll } }) ∨
    (∃ e l, s.server.pc = .poll ∧ s.queues serverName = some (e :: l) ∧
      s' = { s with
        queues := Function.update s.queues serverName (some l)
        server := { s.server with pc := .handle e.sender, buf := overwrite e.msg s.server.buf } }) ∨
    (s.server.pc = .poll ∧ (s.queues serverName).getD [] = [] ∧
      s' = { s with server := { s.server with buf := [] } }) ∨
    (∃ sender, s.server.pc = .handle sender ∧ s' = handleServer s sender rand stack) ∨
    (∃ sender q r, s.server.pc = .send sender q r ∧ s' = answer s q r) := by
  unfold server at h
  dsimp only at h
  split at h
  · rename_i hpc
    split at h
    · rename_i e qs hr
      obtain ⟨l, hl, rfl⟩ := Mailboxes.take_eq_some.1 hr
      exact .inl ⟨e, l, hpc, hl, (Option.some.inj h).symm⟩
    · rename_i hr
      exact .inr (.inl ⟨hpc, mqReceive_eq_none hr, (Option.some.inj h).symm⟩)
  · rename_i hpc
    split at h
    · rename_i e qs hr
      obtain ⟨l, hl, rfl⟩ := Mailboxes.take_eq_some.1 hr
      exact .inr (.inr (.inl ⟨e, l, hpc, hl, (Option.some.inj h).symm⟩))
    · rename_i hr
      exact .inr (.inr (.inr (.inl ⟨hpc, mqReceive_eq_none hr, (Option.some.inj h).symm⟩)))
  · rename_i sender hpc
    exact .inr (.inr (.inr (.inr (.inl ⟨sender, hpc, (Option.some.inj h).symm⟩))))
  · rename_i sender q r hpc
    exact .inr (.inr (.inr (.inr (.inr ⟨sender, q, r, hpc, (Option.some.inj h).symm⟩))))
  · cases h

theorem answer_cases (s : State ι) (q : Option (List Char)) (r : Reply) :
    (∃ qs, mqSend s.queues q ⟨none, cString s.server.buf ++ ['\x00']⟩ = some qs ∧
      answer s q r = { s with
        queues := qs
        server := { s.server with
          pc := .poll, buf := [], clientId := if r = .id then s.server.clientId + 1 else s.server.clientId } }) ∨
    (mqSend s.queues q ⟨none, cString s.server.buf ++ ['\x00']⟩ = none ∧ r = .ack ∧
      answer s q r = { s with server := { s.server with pc := .poll, buf := [] } }) ∨
    (mqSend s.queues q ⟨none, cString s.server.buf ++ ['\x00']⟩ = none ∧ r ≠ .ack ∧
      answer s q r = { s with server := { s.server with pc := .exited } }) := by
  cases h : mqSend s.queues q ⟨none, cString s.server.buf ++ ['\x00']⟩ with
  | some qs => exact .inl ⟨qs, rfl, by simp only [answer, h]⟩
  | none =>
    by_cases hr : r = .ack
    · exact .inr (.inl ⟨rfl, hr, by simp only [answer, h, hr, if_true]⟩)
    · exact .inr (.inr ⟨rfl, hr, by simp only [answer, h, hr, if_false]⟩)

theorem clientOf_cases [DecidableEq ι] {name : ι → List Char} {c : ι} (h : clientOf name s c = some s') :
    ((s.clients c).pc = .start ∧
      s' = { s with
        queues := Function.update s.queues (name c) (some ((s.queues (name c)).getD []))
        clients := Function.update s.clients c
          { s.clients c with pc := .register, buf := strcpy1 (name c) (setByte0 '\x01' (s.clients c).buf) } }) ∨
    (∃ l b, ((s.clients c).pc = .register ∨ (s.clients c).pc = .send) ∧ s.queues serverName = some l ∧
      l.length < mqMaxmsg ∧
      s' = { s with
        queues := Function.update s.queues serverName (some (l ++ [⟨some c, cString (s.clients c).buf⟩]))
        clients := Function.update s.clients c { s.clients c with pc := .poll, buf := b } }) ∨
    (∃ pc b, ((s.clients c).pc = .register ∧ pc = .exited ∨ (s.clients c).pc = .send ∧ pc = .poll) ∧
      mqSend s.queues (some serverName) ⟨some c, cString (s.clients c).buf⟩ = none ∧
      s' = { s with clients := Function.update s.clients c { s.clients c with pc := pc, buf := b } }) ∨
    (∃ e l, (s.clients c).pc = .poll ∧ s.queues (name c) = some (e :: l) ∧
      s' = { s with
        queues := Function.update s.queues (name c) (some l)
        clients := Function.update s.clients c
          { s.clients c with pc := .handle, buf := overwrite e.msg (s.clients c).buf } }) ∨
    ((s.clients c).pc = .poll ∧ (s.queues (name c)).getD [] = [] ∧
      s' = { s with clients := Function.update s.clients c { s.clients c with buf := [] } }) ∨
    ((s.clients c).pc = .handle ∧
      s' = { s with clients := Function.update s.clients c (handleClient (s.clients c)) }) := by
  unfold clientOf at h
  dsimp only at h
  split at h
  · rename_i hpc
    exact .inl ⟨hpc, (Option.some.inj h).symm⟩
  · rename_i hpc
    split at h
    · rename_i qs hsend
      obtain ⟨q, l, hq, hl, hlt, rfl⟩ := mqSend_eq_some.1 hsend
      cases hq
      exact .inr (.inl ⟨l, _, .inl hpc, hl, hlt, (Option.some.inj h).symm⟩)
    · rename_i hsend
      exact .inr (.inr (.inl ⟨_, _, .inl ⟨hpc, rfl⟩, hsend, (Option.some.inj h).symm⟩))
  · rename_i hpc
    split at h
    · rename_i e qs hr
      obtain ⟨l, hl, rfl⟩ := Mailboxes.take_eq_some.1 hr
      exact .inr (.inr (.inr (.inl ⟨e, l, hpc, hl, (Option.some.inj h).symm⟩)))
    · rename_i hr
      exact .inr (.inr (.inr (.inr (.inl ⟨hpc, mqReceive_eq_none hr, (Option.some.inj h).symm⟩))))
  · rename_i hpc
    exact .inr (.inr (.inr (.inr (.inr ⟨hpc, (Option.some.inj h).symm⟩))))
  · rename_i hpc
    cases hsend : mqSend s.queues (some serverName) ⟨some c, cString (s.clients c).buf⟩ with
    | some qs =>
      obtain ⟨q, l, hq, hl, hlt, rfl⟩ := mqSend_eq_some.1 hsend
      cases hq
      rw [hsend] at h
      -- the client looks at `mq_send` for its registration only, so here nothing but the queue differs
      exact .inr (.inl ⟨l, _, .inr hpc, hl, hlt, (Option.some.inj h).symm⟩)
    | none =>
      rw [hsend] at h
      exact .inr (.inr (.inl ⟨_, _, .inr ⟨hpc, rfl⟩, rfl, (Option.some.inj h).symm⟩))
  · cases h

end Cases

/-! ## The messages about a client -/

section Messages

variable [DecidableEq ι] (N : Names ι) (s : State ι) (c : ι)

/-- The messages of the client in the server's queue. -/
def inServerQueue : List (List Char) := mailOf ((s.queues serverName).getD []) c

/-- The message of the client that the server handles, or answers to a descriptor. -/
def atServer : Option (Option (Option (List Char) × Reply) × Buffer) :=
  match s.server.pc with
  | .handle sender => if sender = some c then some (none, s.server.buf) else none
  | .send sender q reply => if sender = some c then some (some (q, reply), s.server.buf) else none
  | _ => none

/-- The messages in the client's own queue. -/
def inOwnQueue : List (List Char) := ((s.queues (N.name c)).getD []).map Envelope.msg

/-- The message the client itself handles or answers. -/
def atClient : Option Buffer :=
  match (s.clients c).pc with
  | .handle | .send => some (s.clients c).buf
  | _ => none

/-- How many messages of the client exist. -/
def messageCount : ℕ :=
  (inServerQueue s c).length + (atServer s c).toList.length + (inOwnQueue N s c).length + (atClient s c).toList.length

/-- The client has sent its registration. -/
def Registered : Prop := (s.clients c).pc = .poll ∨ (s.clients c).pc = .handle ∨ (s.clients c).pc = .send

end Messages

end Sysopy.PrimeQueue.Posix
