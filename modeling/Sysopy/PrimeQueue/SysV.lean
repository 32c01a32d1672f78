/-
The prime service over System V queues (cw06/zad1): the server's main loop and any number of clients.
Each msgget, msgrcv and msgsnd is one step, and so is what a process computes between two of them;
one buffer serves both directions. The kernel keeps the queues by identifier; `msgsnd` blocks while a
queue is full and fails when there is none. Messages carry, as history, who sent them, and the state
records the ids given, the numbers sent and the reports handled.
-/
import Sysopy.Conc.System
import Sysopy.Conc.Mailbox
import Sysopy.CText.Decimal
import Sysopy.PrimeQueue.Prime

namespace Sysopy.PrimeQueue.SysV

open Sysopy.Conc Sysopy.CText

/-! ## Messages and queues -/

/-- `struct buffer`; the value is the string up to its NUL. -/
structure Message where
  type : ℤ
  value : List Char
  deriving DecidableEq

/-- The queues that exist, by identifier. -/
abbrev Queues (ι : Type*) := Mailboxes ℤ ι Message

/-- The identifiers msgget returns: the server's queue, and a private queue for each client. -/
structure Ids (ι : Type*) where
  server : ℤ
  client : ι → ℤ
  client_injective : Function.Injective client
  client_ne_server : ∀ c, client c ≠ server
  client_inInt : ∀ c, InInt (client c)

variable {ι : Type*}

/-- `msgrcv(q, &buf, sizeof buf, 0, IPC_NOWAIT)`: the first message, or none for -1. -/
def msgrcv (qs : Queues ι) (q : ℤ) : Option (Envelope ι Message × Queues ι) := qs.take q

/-- What a msgsnd that does not block returns. -/
inductive Sent (ι : Type*) where
  | ok (qs : Queues ι)
  | failed

/-- `msgsnd(q, &buf, sizeof buf, 0)`, where `cap` messages make a queue full; no result while it blocks. -/
def msgsnd (cap : ℕ) (qs : Queues ι) (q : ℤ) (e : Envelope ι Message) : Option (Sent ι) :=
  match qs q with
  | none => some .failed
  | some l => if l.length < cap then some (.ok (Function.update qs q (some (l ++ [e])))) else none

/-! ## The processes -/

/-- What the server is about to send: an id, a number it drew, or an acknowledgement. -/
inductive Reply where
  | id
  | number (n : ℤ)
  | ack
  deriving DecidableEq

/-- Where the server is: at its msgrcv, at the tests on `buf.type` (with the sender of the message it
handles), at the msgsnd of that branch to a queue, or out of its loop. -/
inductive ServerPc (ι : Type*) where
  | poll
  | handle (sender : Option ι)
  | send (sender : Option ι) (clientQueue : ℤ) (reply : Reply)
  | exited

structure Server (ι : Type*) where
  pc : ServerPc ι
  buf : Message
  /-- `client_queues`, by index. -/
  clientQueues : ℤ → ℤ
  /-- `client_id`. -/
  clientId : ℤ

inductive ClientPc where
  | start
  | register
  | poll
  | handle
  | send
  | exited
  deriving DecidableEq

structure Client where
  pc : ClientPc
  buf : Message
  clientId : ℤ

structure State (ι : Type*) where
  queues : Queues ι
  server : Server ι
  clients : ι → Client
  /-- The lines the server printed: number and client id. -/
  out : List (ℤ × ℤ)
  /-- History: the ids handed out, with the sender of the registration. -/
  given : List (Option ι × ℤ)
  /-- History: the numbers sent to a queue. -/
  sent : ℤ → List ℤ
  /-- History: the reports handled, with their sender, as `sscanf` read them. -/
  reports : List (Option ι × ℤ × ℤ × ℤ)

section Step

variable [DecidableEq ι] (I : Ids ι) (cap : ℕ)

/-- The history after an answer to a queue. -/
def noteSent (sent : ℤ → List ℤ) (q : ℤ) : Reply → ℤ → List ℤ
  | .number n => Function.update sent q (sent q ++ [n])
  | _ => sent

/-- The branch for a registration: the next id. -/
def giveId (s : State ι) (sender : Option ι) : State ι :=
  let v := s.server
  let clientQueue := atoi v.buf.value
  { s with
    server :=
      { pc := .send sender clientQueue .id
        buf := ⟨1, printInt v.clientId⟩
        clientQueues := Function.update v.clientQueues v.clientId clientQueue
        clientId := v.clientId + 1 }
    given := s.given ++ [(sender, v.clientId)] }

/-- The branch for a request: a number drawn for the client of that id. -/
def drawNumber (s : State ι) (sender : Option ι) (rand : Rand) : State ι :=
  let v := s.server
  let clientId := atoi v.buf.value
  { s with
    server := { v with
      pc := .send sender (v.clientQueues clientId) (.number rand.val), buf := ⟨2, printInt rand.val⟩ } }

/-- The branch for a report; `stack` is what its uninitialised locals hold. -/
def acknowledge (s : State ι) (sender : Option ι) (stack : ℤ × ℤ × ℤ) : State ι :=
  let v := s.server
  let (clientId, number, isNumPrime) := scanTriple ' ' v.buf.value stack
  { s with
    server := { v with pc := .send sender (v.clientQueues clientId) .ack, buf := ⟨3, v.buf.value⟩ }
    out := if isNumPrime ≠ 0 then s.out ++ [(number, clientId)] else s.out
    reports := s.reports ++ [(sender, clientId, number, isNumPrime)] }

/-- The tests on `buf.type` in the server. -/
def handleServer (s : State ι) (sender : Option ι) (rand : Rand) (stack : ℤ × ℤ × ℤ) : State ι :=
  if s.server.buf.type = 1 then giveId s sender
  else if s.server.buf.type = 2 then drawNumber s sender rand
  else if s.server.buf.type = 3 then acknowledge s sender stack
  else { s with server := { s.server with pc := .poll } }

/-- One step of the server's main loop. -/
def server (s : State ι) (rand : Rand) (stack : ℤ × ℤ × ℤ) : Option (State ι) :=
  match s.server.pc with
  | .poll =>
    match msgrcv s.queues I.server with
    | some (e, qs) => some { s with queues := qs, server := { s.server with pc := .handle e.sender, buf := e.msg } }
    | none => some s
  | .handle sender => some (handleServer s sender rand stack)
  | .send _ q reply =>
    match msgsnd cap s.queues q ⟨none, s.server.buf⟩ with
    | some (.ok qs) => some
      { s with
        queues := qs
        server := { s.server with pc := .poll }
        sent := noteSent s.sent q reply }
    | some .failed =>
      -- only a registration's reply is checked
      some { s with server := { s.server with pc := if reply = .id then .exited else .poll } }
    | none => none
  | .exited => none

/-- The tests on `buf.type` in a client. -/
def handleClient (v : Client) : Client :=
  if v.buf.type = 1 then
    { v with pc := .send, clientId := atoi v.buf.value, buf := ⟨2, v.buf.value⟩ }
  else if v.buf.type = 2 then
    let number := atoi v.buf.value
    { v with pc := .send, buf := ⟨3, printTriple ' ' v.clientId number (isPrime number)⟩ }
  else if v.buf.type = 3 then
    { v with pc := .send, buf := ⟨2, printInt v.clientId⟩ }
  else { v with pc := .poll }

/-- One step of a client's main. -/
def client (s : State ι) (c : ι) : Option (State ι) :=
  let v := s.clients c
  match v.pc with
  | .start => some
    { s with
      queues := Function.update s.queues (I.client c) (some [])
      clients := Function.update s.clients c { v with pc := .register, buf := ⟨1, printInt (I.client c)⟩ } }
  | .register =>
    match msgsnd cap s.queues I.server ⟨some c, v.buf⟩ with
    | some (.ok qs) => some { s with queues := qs, clients := Function.update s.clients c { v with pc := .poll } }
    | some .failed => some { s with clients := Function.update s.clients c { v with pc := .exited } }
    | none => none
  | .poll =>
    match msgrcv s.queues (I.client c) with
    | some (e, qs) => some
      { s with queues := qs, clients := Function.update s.clients c { v with pc := .handle, buf := e.msg } }
    | none => some s
  | .handle => some { s with clients := Function.update s.clients c (handleClient v) }
  | .send =>
    match msgsnd cap s.queues I.server ⟨some c, v.buf⟩ with
    | some (.ok qs) => some { s with queues := qs, clients := Function.update s.clients c { v with pc := .poll } }
    | some .failed => some { s with clients := Function.update s.clients c { v with pc := .poll } }
    | none => none
  | .exited => none

/-- Who moves next, and what the server draws and finds on its stack when it does. -/
inductive Label (ι : Type*) where
  | server (rand : Rand) (stack : ℤ × ℤ × ℤ)
  | client (c : ι)

def next (s : State ι) : Label ι → Option (State ι)
  | .server rand stack => server I cap s rand stack
  | .client c => client I cap s c

/-- The server at the top of its main loop with its queue drained, and no client started. -/
structure Init (s : State ι) : Prop where
  serverQueue : s.queues I.server = some []
  clientQueue : ∀ c, s.queues (I.client c) = none
  pc : s.server.pc = .poll
  clientId : s.server.clientId = 0
  client : ∀ c, (s.clients c).pc = .start
  given : s.given = []
  sent : ∀ q, s.sent q = []
  reports : s.reports = []

/-- All interleavings of the server and its clients; `cap` messages make a queue full. -/
def system : System (State ι) (Label ι) := ⟨Init I, next I cap⟩

end Step

/-! ## What a step can do -/

section Cases

variable {I : Ids ι} {cap : ℕ} {s s' : State ι} {qs qs' : Queues ι} {q : ℤ} {e : Envelope ι Message}

theorem msgsnd_eq_ok : msgsnd cap qs q e = some (.ok qs') ↔
    ∃ l, qs q = some l ∧ l.length < cap ∧ qs' = Function.update qs q (some (l ++ [e])) := by
  unfold msgsnd
  split
  · simp [*]
  · rename_i l h
    split <;> simp [*, eq_comm]

theorem msgsnd_eq_failed : msgsnd cap qs q e = some .failed ↔ qs q = none := by
  unfold msgsnd
  split
  · simp [*]
  · split <;> simp [*]

theorem server_cases [DecidableEq ι] {rand : Rand} {stack : ℤ × ℤ × ℤ} (h : server I cap s rand stack = some s') :
    (s' = s) ∨
    (∃ e l, s.server.pc = .poll ∧ s.queues I.server = some (e :: l) ∧
      s' = { s with
        queues := Function.update s.queues I.server (some l)
        server := { s.server with pc := .handle e.sender, buf := e.msg } }) ∨
    (∃ sender, s.server.pc = .handle sender ∧ s' = handleServer s sender rand stack) ∨
    (∃ sender q r l, s.server.pc = .send sender q r ∧ s.queues q = some l ∧
      s' = { s with
        queues := Function.update s.queues q (some (l ++ [⟨none, s.server.buf⟩]))
        server := { s.server with pc := .poll }
        sent := noteSent s.sent q r }) ∨
    (∃ sender q r, s.server.pc = .send sender q r ∧ s.queues q = none ∧
      s' = { s with server := { s.server with pc := if r = .id then .exited else .poll } }) := by
  unfold server at h
  split at h
  · split at h
    · rename_i hpc _ e qs hr
      obtain ⟨l, hl, rfl⟩ := Mailboxes.take_eq_some.1 hr
      exact .inr (.inl ⟨e, l, hpc, hl, (Option.some.inj h).symm⟩)
    · exact .inl (Option.some.inj h).symm
  · rename_i sender hpc
    exact .inr (.inr (.inl ⟨sender, hpc, (Option.some.inj h).symm⟩))
  · rename_i sender q r hpc
    split at h
    · rename_i qs hs
      obtain ⟨l, hl, -, rfl⟩ := msgsnd_eq_ok.1 hs
      exact .inr (.inr (.inr (.inl ⟨sender, q, r, l, hpc, hl, (Option.some.inj h).symm⟩)))
    · rename_i hs
      exact .inr (.inr (.inr (.inr ⟨sender, q, r, hpc, msgsnd_eq_failed.1 hs, (Option.some.inj h).symm⟩)))
    · cases h
  · cases h

theorem client_cases [DecidableEq ι] {c : ι} (h : client I cap s c = some s') :
    (s' = s) ∨
    ((s.clients c).pc = .start ∧
      s' = { s with
        queues := Function.update s.queues (I.client c) (some [])
        clients := Function.update s.clients c
          { s.clients c with pc := .register, buf := ⟨1, printInt (I.client c)⟩ } }) ∨
    (∃ l, ((s.clients c).pc = .register ∨ (s.clients c).pc = .send) ∧ s.queues I.server = some l ∧
      s' = { s with
        queues := Function.update s.queues I.server (some (l ++ [⟨some c, (s.clients c).buf⟩]))
        clients := Function.update s.clients c { s.clients c with pc := .poll } }) ∨
    (∃ e l, (s.clients c).pc = .poll ∧ s.queues (I.client c) = some (e :: l) ∧
      s' = { s with
        queues := Function.update s.queues (I.client c) (some l)
        clients := Function.update s.clients c { s.clients c with pc := .handle, buf := e.msg } }) ∨
    ((s.clients c).pc = .handle ∧
      s' = { s with clients := Function.update s.clients c (handleClient (s.clients c)) }) ∨
    (s.queues I.server = none ∧
      ∃ pc, s' = { s with clients := Function.update s.clients c { s.clients c with pc := pc } }) := by
  unfold client at h
  dsimp only at h
  split at h
  · rename_i hpc
    exact .inr (.inl ⟨hpc, (Option.some.inj h).symm⟩)
  · rename_i hpc
    split at h
    · rename_i qs hs
      obtain ⟨l, hl, -, rfl⟩ := msgsnd_eq_ok.1 hs
      exact .inr (.inr (.inl ⟨l, .inl hpc, hl, (Option.some.inj h).symm⟩))
    · rename_i hs
      exact .inr (.inr (.inr (.inr (.inr ⟨msgsnd_eq_failed.1 hs, _, (Option.some.inj h).symm⟩))))
    · cases h
  · rename_i hpc
    split at h
    · rename_i e qs hr
      obtain ⟨l, hl, rfl⟩ := Mailboxes.take_eq_some.1 hr
      exact .inr (.inr (.inr (.inl ⟨e, l, hpc, hl, (Option.some.inj h).symm⟩)))
    · exact .inl (Option.some.inj h).symm
  · rename_i hpc
    exact .inr (.inr (.inr (.inr (.inl ⟨hpc, (Option.some.inj h).symm⟩))))
  · rename_i hpc
    split at h
    · rename_i qs hs
      obtain ⟨l, hl, -, rfl⟩ := msgsnd_eq_ok.1 hs
      exact .inr (.inr (.inl ⟨l, .inr hpc, hl, (Option.some.inj h).symm⟩))
    · rename_i hs
      exact .inr (.inr (.inr (.inr (.inr ⟨msgsnd_eq_failed.1 hs, _, (Option.some.inj h).symm⟩))))
    · cases h
  · cases h

end Cases

/-! ## The messages about a client -/

section Messages

variable [DecidableEq ι] (I : Ids ι) (s : State ι) (c : ι)

/-- The messages of the client in the server's queue. -/
def inServerQueue : List Message := mailOf ((s.queues I.server).getD []) c

/-- The message of the client that the server handles, or answers to a queue with a reply. -/
def atServer : Option (Option (ℤ × Reply) × Message) :=
  match s.server.pc with
  | .handle sender => if sender = some c then some (none, s.server.buf) else none
  | .send sender q reply => if sender = some c then some (some (q, reply), s.server.buf) else none
  | _ => none

/-- The messages in the client's own queue. -/
def inOwnQueue : List Message := ((s.queues (I.client c)).getD []).map Envelope.msg

/-- The message the client itself handles or answers. -/
def atClient : Option Message :=
  match (s.clients c).pc with
  | .handle | .send => some (s.clients c).buf
  | _ => none

/-- How many messages of the client exist. -/
def messageCount : ℕ :=
  (inServerQueue I s c).length + (atServer s c).toList.length + (inOwnQueue I s c).length + (atClient s c).toList.length

/-- The client has sent its registration. -/
def Registered : Prop := (s.clients c).pc ≠ .start ∧ (s.clients c).pc ≠ .register

/-- The reports of the client that the server handled, as it read them: id, number, is_num_prime. -/
def reportsOf : List (ℤ × ℤ × ℤ) := (s.reports.filter fun r => decide (r.1 = some c)).map Prod.snd

end Messages

end Sysopy.PrimeQueue.SysV
