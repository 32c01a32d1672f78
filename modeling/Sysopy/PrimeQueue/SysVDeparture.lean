/-
The System V prime service from its draining loop on (cw06/zad1), when a client's `msgget` may fail and clients may
leave through their `signalHandler`. As long as the server receives no registration of a client without a queue, and
nobody leaves to whom it owes an id, it goes through the turns of `SysVTurns`: a client whose registration was drained,
and one that has no queue or has left, look to it like clients that take no further step. A number or an
acknowledgement for a client that has left is just not delivered.
-/
import Sysopy.PrimeQueue.SysVTurns

namespace Sysopy.PrimeQueue.SysV

open Sysopy.Conc Sysopy.CText

/-! ## The service with departures -/

/-- Who moves next: the server, a client, a client whose `msgget` fails, or a client that gets its signal. -/
inductive Event (ι : Type*) where
  | step (a : Label ι)
  | refused (c : ι)
  | leave (c : ι)

/-- The service, with the server in its draining loop or its main loop. -/
structure Service (ι : Type*) where
  state : State ι
  draining : Bool

section Step

variable {ι : Type*} [DecidableEq ι] (I : Ids ι) (cap : ℕ)

/-- One msgrcv of the draining loop; the main loop begins when it finds nothing. -/
def drain (s : State ι) : Service ι :=
  match msgrcv s.queues I.server with
  | some (e, qs) => ⟨{ s with queues := qs, server := { s.server with buf := e.msg } }, true⟩
  | none => ⟨s, false⟩

/-- The client's `msgget` fails, as there is no room for another queue. Its result is not used: the client goes on to
its registration, with -1 for `client_queue`. -/
def refused (s : State ι) (c : ι) : State ι :=
  { s with
    clients := Function.update s.clients c { s.clients c with pc := .register, buf := ⟨1, printInt (-1)⟩ } }

/-- `client_queue`: a global variable, so 0 until the client has created its queue. -/
def clientQueue (s : State ι) (c : ι) : ℤ := if (s.clients c).pc = .start then 0 else I.client c

/-- `signalHandler` of a client: its queue is removed, so that nobody can send to it, and it exits. -/
def signalHandler (s : State ι) (c : ι) : State ι :=
  { s with
    queues := Function.update s.queues (clientQueue I s c) none
    clients := Function.update s.clients c { s.clients c with pc := .exited } }

def nextEvent (w : Service ι) : Event ι → Option (Service ι)
  | .step (.server rand stack) =>
    if w.draining then some (drain I w.state)
    else (server I cap w.state rand stack).map fun s => { w with state := s }
  | .step (.client c) => (client I cap w.state c).map fun s => { w with state := s }
  | .refused c => if (w.state.clients c).pc = .start then some { w with state := refused w.state c } else none
  | .leave c =>
    if (w.state.clients c).pc = .exited then none else some { w with state := signalHandler I w.state c }

/-- The server has created its queue, and no client has started. -/
structure Started (w : Service ι) : Prop where
  state : Init I w.state
  draining : w.draining = true

/-- All interleavings of the server, its clients and their departures. -/
def departures : System (Service ι) (Event ι) := ⟨Started I, nextEvent I cap⟩

end Step

/-! ## What may go wrong -/

section Conditions

variable {ι : Type*} (I : Ids ι)

/-- The server handles or answers a registration of the client. -/
def ServerPc.owes (b : Message) (c : ι) : ServerPc ι → Prop
  | .handle sender => sender = some c ∧ b.type = 1
  | .send sender _ r => sender = some c ∧ r = .id
  | _ => False

/-- The registration of the client is unanswered: the server owes it an id. -/
def Due (s : State ι) (c : ι) : Prop :=
  (∃ e ∈ (s.queues I.server).getD [], e.sender = some c ∧ e.msg.type = 1) ∨ s.server.pc.owes s.server.buf c

/-- A client does not leave while its registration is unanswered; what is drained is never answered. And a client
that has no queue yet does not remove somebody else's. -/
def Undisturbed (w : Service ι) : Event ι → Prop
  | .step _ | .refused _ => True
  | .leave c => ((w.state.clients c).pc = .start → w.state.queues 0 = none) ∧ (w.draining = true ∨ ¬ Due I w.state c)

variable [DecidableEq ι]

instance (b : Message) (c : ι) : ∀ pc : ServerPc ι, Decidable (pc.owes b c)
  | .handle _ => inferInstanceAs (Decidable (_ ∧ _))
  | .send _ _ _ => inferInstanceAs (Decidable (_ ∧ _))
  | .poll | .exited => inferInstanceAs (Decidable False)

instance (s : State ι) (c : ι) : Decidable (Due I s c) := inferInstanceAs (Decidable (_ ∨ _))

instance (w : Service ι) : ∀ a : Event ι, Decidable (Undisturbed I w a)
  | .step _ | .refused _ => inferInstanceAs (Decidable True)
  | .leave _ => inferInstanceAs (Decidable ((_ → _) ∧ (_ ∨ _)))

/-- A registration that is going to be answered comes from a client that has its queue. -/
def Answerable (w : Service ι) : Event ι → Prop
  | .step (.client c) =>
    (w.state.clients c).pc = .register → w.state.queues (I.client c) = none → w.draining = true
  | _ => True

instance (w : Service ι) : ∀ a : Event ι, Decidable (Answerable I w a)
  | .step (.client _) => inferInstanceAs (Decidable (_ → _ → _))
  | .step (.server _ _) | .refused _ | .leave _ => inferInstanceAs (Decidable True)

end Conditions

/-! ## How the turns go on -/

section Shadow

variable {ι : Type*} {I : Ids ι} {cap : ℕ} {w w' : Service ι} {s s' t t' : State ι} {c d : ι}

/-- The client has left, or has no queue to receive from. -/
def Gone (I : Ids ι) (s : State ι) (c : ι) : Prop :=
  ((s.clients c).pc = .register ∨ (s.clients c).pc = .poll ∨ (s.clients c).pc = .exited) ∧ s.queues (I.client c) = none

/-- The server's queue in the service and in the turns. -/
inductive ServerRel (I : Ids ι) (w : Service ι) (t : State ι) : Prop
  | draining (hs : w.draining = true) (hpc : w.state.server.pc = .poll) (hq : ∃ l, w.state.queues I.server = some l)
    (hq' : t.queues I.server = some [])
  | serving (hs : w.draining = false) (hq : w.state.queues I.server = t.queues I.server)

/-- A client in the service and in the turns: it takes part in them, its message is gone, or it is. -/
inductive ClientRel (I : Ids ι) (s t : State ι) (c : ι) : Prop
  | same (hc : s.clients c = t.clients c) (hq : s.queues (I.client c) = t.queues (I.client c))
  | lost (hs : (s.clients c).pc = .poll) (ht : (t.clients c).pc = .register ∨ (t.clients c).pc = .send)
    (hq : s.queues (I.client c) = t.queues (I.client c))
  | gone (hl : Gone I s c) (hd : ¬ Due I t c)

/-- A state of the service beside a state of the turns. -/
structure Shadow (I : Ids ι) (w : Service ι) (t : State ι) : Prop where
  server : ServerRel I w t
  given : w.state.given = t.given
  pc : w.state.server.pc = t.server.pc
  buf : w.state.server.pc ≠ .poll → w.state.server.buf = t.server.buf
  clientQueues : w.state.server.clientQueues = t.server.clientQueues
  clientId : w.state.server.clientId = t.server.clientId
  client : ∀ c, ClientRel I w.state t c

theorem ClientRel.frame (h : ClientRel I s t d) (hs : s'.clients d = s.clients d)
    (hsq : s'.queues (I.client d) = s.queues (I.client d)) (ht : t'.clients d = t.clients d)
    (htq : t'.queues (I.client d) = t.queues (I.client d)) (hdue : Due I t' d → Due I t d) : ClientRel I s' t' d := by
  cases h
  case same hc hq => exact .same (by rw [hs, ht, hc]) (by rw [hsq, htq, hq])
  case lost hs' ht' hq => exact .lost (by rwa [hs]) (by rwa [ht]) (by rw [hsq, htq, hq])
  case gone hl hd => exact .gone ⟨by rw [hs]; exact hl.1, by rw [hsq]; exact hl.2⟩ (mt hdue hd)

theorem started_shadow (h : Started I w) : Shadow I w w.state :=
  ⟨.draining h.draining h.state.pc ⟨[], h.state.serverQueue⟩ h.state.serverQueue, rfl, rfl, fun _ => rfl, rfl, rfl,
    fun _ => .same rfl rfl⟩

/-! ## The server's steps -/

/-- A msgrcv of the draining loop. -/
theorem Shadow.drains (h : Shadow I w t) (hdrain : w.draining = true) : Shadow I (drain I w.state) t := by
  have hsrv := h.server
  cases hsrv
  case draining hs hpc hq hq' =>
    obtain ⟨l, hl⟩ := hq
    have hclient : ∀ (d : ι) (l : List (Envelope ι Message)) (b : Message),
        ClientRel I { w.state with
          queues := Function.update w.state.queues I.server (some l)
          server := { w.state.server with buf := b } } t d := fun d l b => by
      exact (h.client d).frame rfl (by simp [I.client_ne_server]) rfl rfl id
    cases l with
    | nil =>
      have hnone : drain I w.state = ⟨w.state, false⟩ := by simp [drain, msgrcv, Mailboxes.take, hl]
      rw [hnone]
      exact ⟨.serving rfl (hl.trans hq'.symm), h.given, h.pc, h.buf, h.clientQueues, h.clientId, h.client⟩
    | cons e l =>
      have hsome : drain I w.state = ⟨{ w.state with
          queues := Function.update w.state.queues I.server (some l)
          server := { w.state.server with buf := e.msg } }, true⟩ := by
        simp [drain, msgrcv, Mailboxes.take, hl]
      rw [hsome]
      exact ⟨.draining rfl hpc ⟨l, by simp⟩ hq', h.given, h.pc, fun hp => absurd hpc hp, h.clientQueues, h.clientId,
        fun d => hclient d l e.msg⟩
  case serving hs hq => rw [hdrain] at hs; cases hs

/-- Away from its receive the server is the same in the service and in the turns. -/
theorem Shadow.server_eq (h : Shadow I w t) (hpc : w.state.server.pc ≠ .poll) : w.state.server = t.server := by
  have hbuf := h.buf hpc
  cases hs : w.state.server
  cases ht : t.server
  have h1 := h.pc
  have h2 := h.clientQueues
  have h3 := h.clientId
  simp_all

/-- Away from its receive the server is in its main loop. -/
theorem Shadow.serving (h : Shadow I w t) (hpc : w.state.server.pc ≠ .poll) :
    w.draining = false ∧ w.state.queues I.server = t.queues I.server := by
  have hsrv := h.server
  cases hsrv
  case draining _ hpc' _ _ => exact absurd hpc' hpc
  case serving hs hq => exact ⟨hs, hq⟩

/-- The tests on `buf.type` look at the server only. -/
theorem handleServer_same (hs : s.server = t.server) (hg : s.given = t.given) (sender : Option ι) (rand : Rand)
    (stack : ℤ × ℤ × ℤ) :
    (handleServer s sender rand stack).server = (handleServer t sender rand stack).server ∧
      (handleServer s sender rand stack).given = (handleServer t sender rand stack).given ∧
      (handleServer s sender rand stack).queues = s.queues ∧ (handleServer t sender rand stack).queues = t.queues ∧
      (handleServer s sender rand stack).clients = s.clients ∧
      (handleServer t sender rand stack).clients = t.clients := by
  unfold handleServer giveId drawNumber acknowledge
  simp only [hs, hg]
  split_ifs <;> exact ⟨rfl, rfl, rfl, rfl, rfl, rfl⟩

/-- An id is answered to a registration only. -/
theorem owes_handleServer {sender : Option ι} (rand : Rand) (stack : ℤ × ℤ × ℤ) (hpc : t.server.pc = .handle sender)
    (h : (handleServer t sender rand stack).server.pc.owes (handleServer t sender rand stack).server.buf d) :
    t.server.pc.owes t.server.buf d := by
  rw [hpc]
  unfold handleServer at h
  split_ifs at h with h1 h2 h3
  · exact ⟨h.1, h1⟩
  · exact absurd h.2 nofun
  · exact absurd h.2 nofun
  · cases h

variable [DecidableEq ι] [Fintype ι]

/-- An answer in the turns: the client's queue is there, and empty. -/
theorem Inv.answering (hI : Inv I t) {sender : Option ι} {q : ℤ} {r : Reply} (hpc : t.server.pc = .send sender q r) :
    ∃ c, sender = some c ∧ q = I.client c ∧ t.queues (I.client c) = some [] := by
  obtain ⟨c, rfl⟩ := hI.sender sender (by simp [hpc, ServerPc.sender])
  obtain ⟨-, ⟨rfl, -⟩, -, ho⟩ :=
    (hI.phase c).of_served (x := (some (q, r), t.server.buf)) (by simp [view, atServer, hpc])
  exact ⟨c, rfl, rfl, queue_eq_nil ho⟩

/-- The server answers in the turns; in the service the answer is delivered, or is for a client that has left. -/
theorem Shadow.answers (hI : Inv I t) (h : Shadow I w t) {sender : Option ι} {q : ℤ} {r : Reply} {qs : Queues ι}
    (sent : ℤ → List ℤ) (hpc : w.state.server.pc = .send sender q r)
    (hqs : (∃ l, w.state.queues q = some l ∧
        qs = Function.update w.state.queues q (some (l ++ [⟨none, w.state.server.buf⟩]))) ∨
      w.state.queues q = none ∧ qs = w.state.queues) :
    ∃ t', Inv I t' ∧ (w.state.queues q = none → r ≠ .id) ∧ Shadow I { w with
      state := { w.state with queues := qs, server := { w.state.server with pc := .poll }, sent := sent } } t' := by
  have hnot : w.state.server.pc ≠ .poll := by rw [hpc]; exact nofun
  obtain ⟨hserving, hq⟩ := h.serving hnot
  have hserver := h.server_eq hnot
  have htpc : t.server.pc = .send sender q r := by rw [← hserver, hpc]
  obtain ⟨c, rfl, rfl, hempty⟩ := hI.answering htpc
  have hne : I.server ≠ I.client c := (I.client_ne_server c).symm
  have hcd : ∀ d, d ≠ c → I.client d ≠ I.client c := fun d hd h => hd (I.client_injective h)
  have hdue : ∀ (qs' : Queues ι) (sent' : ℤ → List ℤ) d, qs' I.server = t.queues I.server →
      Due I { t with queues := qs', server := { t.server with pc := .poll }, sent := sent' } d → Due I t d := by
    rintro qs' sent' d hqs' (hmail | howes)
    · exact .inl (by simpa [hqs'] using hmail)
    · cases howes
  refine ⟨_, hI.serverSends htpc hempty, ?_⟩
  rcases hqs with ⟨l, hl, rfl⟩ | ⟨hnone, rfl⟩
  · -- the client's queue is there
    have hq' : w.state.queues (I.client c) = t.queues (I.client c) := by
      cases h.client c
      case same _ hq' => exact hq'
      case lost _ _ hq' => exact hq'
      case gone hleft _ => rw [hleft.2] at hl; cases hl
    obtain rfl : l = [] := Option.some.inj ((hl.symm.trans hq').trans hempty)
    refine ⟨fun hnone => (by rw [hl] at hnone; cases hnone), .serving hserving (by simp [hne, hq]), h.given, rfl,
      fun hp => absurd rfl hp, h.clientQueues, h.clientId, fun d => ?_⟩
    by_cases hd : d = c
    · subst hd
      cases h.client d
      case same hc _ => exact .same hc (by simp [hserver])
      case lost hs' ht' _ => exact .lost hs' ht' (by simp [hserver])
      case gone hleft _ => rw [hleft.2] at hl; cases hl
    · exact (h.client d).frame rfl (by simp [hcd d hd]) rfl (by simp [hcd d hd]) (hdue _ _ d (by simp [hne]))
  · -- the client has left, with a request or a report only at the server
    obtain ⟨hleft, hnotdue⟩ : Gone I w.state c ∧ ¬ Due I t c := by
      cases h.client c
      case same _ hq' => rw [hq', hempty] at hnone; cases hnone
      case lost _ _ hq' => rw [hq', hempty] at hnone; cases hnone
      case gone hleft hnotdue => exact ⟨hleft, hnotdue⟩
    refine ⟨fun _ hr => hnotdue (.inr (by rw [htpc]; exact ⟨rfl, hr⟩)), .serving hserving (by simp [hne, hq]), h.given,
      rfl, fun hp => absurd rfl hp, h.clientQueues, h.clientId, fun d => ?_⟩
    by_cases hd : d = c
    · subst hd
      exact .gone hleft (mt (hdue _ _ d (by simp [hne])) hnotdue)
    · exact (h.client d).frame rfl rfl rfl (by simp [hcd d hd]) (hdue _ _ d (by simp [hne]))

theorem Shadow.step_server (hI : Inv I t) (hn : Fintype.card ι ≤ 100) (h : Shadow I w t) (hmain : w.draining = false)
    {rand : Rand} {stack : ℤ × ℤ × ℤ} (hs : SysV.server I cap w.state rand stack = some s) :
    ∃ t', Inv I t' ∧ Shadow I { w with state := s } t' := by
  rcases server_cases hs with rfl | ⟨e, l, hpc, hl, rfl⟩ | ⟨sender, hpc, rfl⟩ | ⟨sender, q, r, l, hpc, hl, rfl⟩ |
    ⟨sender, q, r, hpc, hl, rfl⟩
  · exact ⟨t, hI, h⟩
  · -- a message is taken
    have hsrv := h.server
    cases hsrv
    case draining hs' _ _ _ => rw [hmain] at hs'; cases hs'
    case serving _ hq =>
      have htl : t.queues I.server = some (e :: l) := by rw [← hq, hl]
      refine ⟨_, hI.serverTakes (by rw [← h.pc, hpc]) htl, .serving hmain (by simp), h.given, rfl, fun _ => rfl,
        h.clientQueues, h.clientId, fun d => ?_⟩
      refine (h.client d).frame rfl (by simp [I.client_ne_server]) rfl (by simp [I.client_ne_server]) ?_
      rintro (⟨x, hx, hsender, htype⟩ | ⟨hsender, htype⟩)
      · exact .inl ⟨x, by rw [htl]; exact List.mem_cons_of_mem _ (by simpa using hx), hsender, htype⟩
      · exact .inl ⟨e, by rw [htl]; exact List.mem_cons_self, hsender, htype⟩
  · -- a message is handled
    have hnot : w.state.server.pc ≠ .poll := by rw [hpc]; exact nofun
    obtain ⟨-, hq⟩ := h.serving hnot
    have hserver := h.server_eq hnot
    have htpc : t.server.pc = .handle sender := by rw [← hserver, hpc]
    obtain ⟨hsame, hgiven, hsq, htq, hsc, htc⟩ := handleServer_same hserver h.given sender rand stack
    refine ⟨_, hI.serverHandles hn rand stack htpc, .serving hmain ?_, hgiven, by rw [hsame], fun _ => by rw [hsame],
      by rw [hsame], by rw [hsame], fun d => ?_⟩
    · simp only [hsq, htq, hq]
    · refine (h.client d).frame (by rw [hsc]) (by rw [hsq]) (by rw [htc]) (by rw [htq]) ?_
      rintro (hmail | howes)
      · exact .inl (by rwa [htq] at hmail)
      · exact .inr (owes_handleServer rand stack htpc howes)
  · obtain ⟨t', hI', -, h'⟩ := h.answers hI _ hpc (.inl ⟨l, hl, rfl⟩)
    exact ⟨t', hI', h'⟩
  · obtain ⟨t', hI', hr, h'⟩ := h.answers hI w.state.sent hpc (.inr ⟨hl, rfl⟩)
    refine ⟨t', hI', ?_⟩
    simpa [hr hl] using h'

/-! ## The clients' steps -/

section Clients

omit [DecidableEq ι] [Fintype ι]

/-- A client is in the turns, or its message is gone, or it has left or has no queue. -/
theorem Shadow.moving (h : Shadow I w t) (c : ι) :
    (w.state.queues (I.client c) = t.queues (I.client c) ∧ (w.state.clients c = t.clients c ∨
      (w.state.clients c).pc = .poll ∧ ((t.clients c).pc = .register ∨ (t.clients c).pc = .send))) ∨
    (Gone I w.state c ∧ ¬ Due I t c) := by
  cases h.client c
  case same hc hq => exact .inl ⟨hq, .inl hc⟩
  case lost hs ht hq => exact .inl ⟨hq, .inr ⟨hs, ht⟩⟩
  case gone hl hd => exact .inr ⟨hl, hd⟩

/-- A step of one client, in the service and in the turns, or in the service only. -/
theorem Shadow.clientMove (h : Shadow I w t) {a b : Queues ι} {f g : ι → Client}
    (hqueue : (a I.server = w.state.queues I.server ∧ b I.server = t.queues I.server) ∨
      (w.draining = true ∧ (∃ l, a I.server = some l) ∧ b I.server = t.queues I.server) ∨
      (w.draining = false ∧ a I.server = b I.server))
    (hnew : ∀ e ∈ (b I.server).getD [], e ∈ (t.queues I.server).getD [] ∨ e.sender = some c)
    (hother : ∀ d, d ≠ c → f d = w.state.clients d ∧ a (I.client d) = w.state.queues (I.client d) ∧
      g d = t.clients d ∧ b (I.client d) = t.queues (I.client d))
    (hclient : ClientRel I { w.state with queues := a, clients := f } { t with queues := b, clients := g } c) :
    Shadow I { w with state := { w.state with queues := a, clients := f } } { t with queues := b, clients := g } := by
  have hserver : ServerRel I { w with state := { w.state with queues := a, clients := f } }
      { t with queues := b, clients := g } := by
    have hsrv := h.server
    rcases hqueue with ⟨ha, hb⟩ | ⟨hdrain, hl, hb⟩ | ⟨hmain, hab⟩
    · cases hsrv
      case draining hs hpc hq hq' => exact .draining hs hpc (by simpa [ha] using hq) (hb.trans hq')
      case serving hs hq => exact .serving hs (ha.trans (hq.trans hb.symm))
    · cases hsrv
      case draining hs hpc _ hq' => exact .draining hs hpc hl (hb.trans hq')
      case serving hs _ => rw [hdrain] at hs; cases hs
    · exact .serving hmain hab
  refine ⟨hserver, h.given, h.pc, h.buf, h.clientQueues, h.clientId, fun d => ?_⟩
  by_cases hd : d = c
  · rw [hd]
    exact hclient
  · obtain ⟨hs, hsq, ht, htq⟩ := hother d hd
    refine (h.client d).frame hs hsq ht htq ?_
    rintro (⟨e, he, hsender, htype⟩ | howes)
    · refine .inl ⟨e, (hnew e he).resolve_right fun hc => ?_, hsender, htype⟩
      rw [hsender] at hc
      exact hd (Option.some.inj hc)
    · exact .inr howes

/-- A client takes the same step in the service and in the turns, and touches no queue but its own. -/
theorem Shadow.ownMove [DecidableEq ι] (h : Shadow I w t) {l l' : Option (List (Envelope ι Message))} {v v' : Client}
    (hl : l = l') (hv : v = v') :
    Shadow I { w with state := { w.state with
        queues := Function.update w.state.queues (I.client c) l, clients := Function.update w.state.clients c v } }
      { t with queues := Function.update t.queues (I.client c) l', clients := Function.update t.clients c v' } := by
  subst hl hv
  have hne : I.server ≠ I.client c := (I.client_ne_server c).symm
  have hcd : ∀ d, d ≠ c → I.client d ≠ I.client c := fun d hd h => hd (I.client_injective h)
  refine h.clientMove (c := c) (.inl ⟨?_, ?_⟩) (fun e he => .inl ?_) (fun d hd => ?_) (.same ?_ ?_)
  · simp [hne]
  · simp [hne]
  · simpa [hne] using he
  · simp [hd, hcd d hd]
  · simp
  · simp

/-- A client that has no queue afterwards moves in the service, and takes no step in the turns. -/
theorem Shadow.goneMove [DecidableEq ι] (h : Shadow I w t) (hdue : ¬ Due I t c) {a : Queues ι} {v : Client}
    (hv : v.pc = .register ∨ v.pc = .poll ∨ v.pc = .exited) (hown : a (I.client c) = none)
    (hqueue : a I.server = w.state.queues I.server ∨ w.draining = true ∧ ∃ l, a I.server = some l)
    (hother : ∀ d, d ≠ c → a (I.client d) = w.state.queues (I.client d)) :
    Shadow I { w with state := { w.state with queues := a, clients := Function.update w.state.clients c v } } t := by
  refine h.clientMove (b := t.queues) (g := t.clients) ?_ (fun e he => .inl he) (fun d hd => ?_)
    (.gone ⟨by simpa using hv, hown⟩ hdue)
  · exact hqueue.imp (fun hq => ⟨hq, rfl⟩) fun ⟨hdrain, hl⟩ => .inl ⟨hdrain, hl, rfl⟩
  · simp [hd, hother d hd]

/-- A client without a queue registers while the server drains its queue, and receives nothing. -/
theorem Shadow.step_gone [DecidableEq ι] (h : Shadow I w t) (hserver : w.state.queues I.server ≠ none)
    (hgone : Gone I w.state c) (hdue : ¬ Due I t c) (hans : Answerable I w (.step (.client c)))
    (hs : SysV.client I cap w.state c = some s) : Shadow I { w with state := s } t := by
  obtain ⟨hpcs, hnone⟩ := hgone
  rcases client_cases hs with rfl | ⟨hpc, rfl⟩ | ⟨l, hpc, hl, rfl⟩ | ⟨e, l, hpc, hl, rfl⟩ | ⟨hpc, rfl⟩ | ⟨hl, -⟩
  · exact h
  · simp [hpc] at hpcs
  · have hreg : (w.state.clients c).pc = .register := hpc.resolve_right fun hsend => by simp [hsend] at hpcs
    refine h.goneMove hdue (.inr (.inl rfl)) ?_ (.inr ⟨hans hreg hnone, _, Function.update_self ..⟩) fun d _ => ?_
    · simpa [I.client_ne_server] using hnone
    · simp [I.client_ne_server]
  · rw [hnone] at hl
    cases hl
  · simp [hpc] at hpcs
  · exact absurd hl hserver

end Clients

/-- The server's queue is there. -/
theorem Shadow.serverQueue (hI : Inv I t) (h : Shadow I w t) : w.state.queues I.server ≠ none := by
  intro hnone
  have hsrv := h.server
  cases hsrv
  case draining _ _ hq _ =>
    obtain ⟨l, hl⟩ := hq
    rw [hnone] at hl
    cases hl
  case serving _ hq =>
    obtain ⟨l, hl, -⟩ := hI.serverQueue
    rw [← hq, hnone] at hl
    cases hl

theorem Shadow.step_client (hI : Inv I t) (hn : Fintype.card ι ≤ 100) (h : Shadow I w t)
    (hans : Answerable I w (.step (.client c))) (hs : SysV.client I cap w.state c = some s) :
    ∃ t', Inv I t' ∧ Shadow I { w with state := s } t' := by
  rcases h.moving c with ⟨hown, hclient⟩ | ⟨hgone, hdue⟩
  swap
  · exact ⟨t, hI, h.step_gone (h.serverQueue hI) hgone hdue hans hs⟩
  rcases client_cases hs with rfl | ⟨hpc, rfl⟩ | ⟨l, hpc, hl, rfl⟩ | ⟨e, l, hpc, hl, rfl⟩ | ⟨hpc, rfl⟩ | ⟨hl, -⟩
  · exact ⟨t, hI, h⟩
  · -- the client creates its queue
    have hc : w.state.clients c = t.clients c :=
      hclient.resolve_right fun h => absurd (hpc.symm.trans h.1) (by decide)
    exact ⟨_, hI.clientStarts (c := c) (by rw [← hc, hpc]), h.ownMove rfl (by rw [hc])⟩
  · -- the client sends
    have hc : w.state.clients c = t.clients c := hclient.resolve_right fun h => by
      rcases hpc with hpc | hpc <;> exact absurd (hpc.symm.trans h.1) (by decide)
    have hsrv := h.server
    cases hsrv
    case draining hdrain _ _ _ =>
      -- the message will be drained
      refine ⟨t, hI, h.clientMove (b := t.queues) (g := t.clients) (c := c) (.inr (.inl ⟨hdrain,
        ⟨l ++ [⟨some c, (w.state.clients c).buf⟩], ?_⟩, rfl⟩)) (fun e he => .inl he) (fun d hd => ?_)
        (.lost ?_ (hc ▸ hpc) ?_)⟩
      · simp
      · simp [hd, I.client_ne_server]
      · simp
      · simpa [I.client_ne_server] using hown
    case serving hmain hq =>
      refine ⟨_, hI.clientSends (hq ▸ hl) (hc ▸ hpc), h.clientMove (c := c) (.inr (.inr ⟨hmain, ?_⟩))
        (fun e he => ?_) (fun d hd => ?_) (.same ?_ ?_)⟩
      · simp [hc]
      · simp only [Function.update_self, Option.getD_some, List.mem_append, List.mem_singleton] at he
        rw [← hq, hl]
        exact he.imp_right fun he => by rw [he]
      · simp [hd, I.client_ne_server]
      · simp [hc]
      · simpa [I.client_ne_server] using hown
  · -- the client takes a message
    rcases hclient with hc | ⟨-, hpc'⟩
    · exact ⟨_, hI.clientTakes (hown ▸ hl), h.ownMove rfl (by rw [hc])⟩
    · obtain ⟨-, -, -, ho⟩ := hI.sending hpc'
      rw [hown, queue_eq_nil ho] at hl
      cases hl
  · -- the client handles a message
    have hc : w.state.clients c = t.clients c :=
      hclient.resolve_right fun h => absurd (hpc.symm.trans h.1) (by decide)
    refine ⟨_, hI.clientHandles hn (hc ▸ hpc), h.clientMove (a := w.state.queues) (b := t.queues) (c := c)
      (.inl ⟨rfl, rfl⟩) (fun e he => .inl he) (fun d hd => ?_) (.same ?_ hown)⟩
    · simp [hd]
    · simp [hc]
  · exact absurd hl (h.serverQueue hI)

/-! ## Clients without a queue, and departures -/

omit [DecidableEq ι] [Fintype ι] in
/-- What the server owes in the turns it owes in the service. -/
theorem Shadow.due (h : Shadow I w t) (hdue : Due I t c) : w.draining = false ∧ Due I w.state c := by
  have hsrv := h.server
  cases hsrv
  case draining _ hpc _ hq' =>
    rcases hdue with ⟨e, he, -⟩ | howes
    · rw [hq'] at he
      cases he
    · rw [← h.pc, hpc] at howes
      cases howes
  case serving hmain hq =>
    refine ⟨hmain, ?_⟩
    rcases hdue with hmail | howes
    · exact .inl (by rwa [hq])
    · have hpc : w.state.server.pc ≠ .poll := by
        intro hpc
        rw [← h.pc, hpc] at howes
        cases howes
      exact .inr (by rwa [h.server_eq hpc])

/-- Before a client has started it has no queue. -/
theorem Inv.no_queue (hI : Inv I t) (hpc : (t.clients c).pc = .start) : t.queues (I.client c) = none := by
  have hstage : (turns (I.client c)).stage (view I t c).client = .fresh := by simp [turns, view, hpc, ClientPc.stage]
  cases hI.phase c
  case fresh _ _ _ _ ho => simpa [view] using ho
  all_goals simp_all

/-- The server owes nothing to a client that has not started. -/
theorem Inv.not_due (hI : Inv I t) (hpc : (t.clients c).pc = .start) : ¬ Due I t c := by
  obtain ⟨-, hmail, hserved⟩ := (hI.phase c).of_fresh (by simp [turns, view, hpc, ClientPc.stage])
  rintro (⟨e, he, hsender, -⟩ | howes)
  · have hin : e.msg ∈ inServerQueue I t c := by
      simp only [inServerQueue, mailOf, List.mem_map, List.mem_filter]
      exact ⟨e, ⟨he, by simp [hsender]⟩, rfl⟩
    rw [show inServerQueue I t c = [] from hmail] at hin
    cases hin
  · have hnone : atServer t c = none := hserved
    unfold atServer at hnone
    unfold ServerPc.owes at howes
    split at howes <;> simp_all

/-- A client that has not started has no queue, and the server owes it nothing. -/
theorem Shadow.of_start (hI : Inv I t) (h : Shadow I w t) (hpc : (w.state.clients c).pc = .start) :
    w.state.queues (I.client c) = none ∧ ¬ Due I t c := by
  cases h.client c
  case same hc hq => exact ⟨by rw [hq, hI.no_queue (hc ▸ hpc)], hI.not_due (hc ▸ hpc)⟩
  case lost hs _ _ => exact absurd (hpc.symm.trans hs) (by decide)
  case gone hl hd => exact ⟨hl.2, hd⟩

/-- A client's queue is refused. -/
theorem Shadow.step_refused (hI : Inv I t) (h : Shadow I w t) (hpc : (w.state.clients c).pc = .start) :
    Shadow I { w with state := refused w.state c } t := by
  obtain ⟨hq, hdue⟩ := h.of_start hI hpc
  exact h.goneMove (a := w.state.queues) hdue (.inl rfl) hq (.inl rfl) fun _ _ => rfl

/-- The queues when a client leaves that is not about to remove somebody else's: its own is gone. -/
theorem Shadow.without (hI : Inv I t) (h : Shadow I w t)
    (hzero : (w.state.clients c).pc = .start → w.state.queues 0 = none) :
    Function.update w.state.queues (clientQueue I w.state c) none =
      Function.update w.state.queues (I.client c) none := by
  unfold clientQueue
  split
  · rename_i hpc
    have hown := (h.of_start hI hpc).1
    -- neither queue 0 nor its own is there, so that removing them changes nothing
    rw [Function.update_eq_self_iff.2 (hzero hpc).symm, Function.update_eq_self_iff.2 hown.symm]
  · rfl

/-- A client to whom the server owes nothing leaves. -/
theorem Shadow.step_leave (hI : Inv I t) (h : Shadow I w t) (hok : Undisturbed I w (.leave c)) :
    Shadow I { w with state := signalHandler I w.state c } t := by
  obtain ⟨hzero, hdue⟩ := hok
  have hqueues : (signalHandler I w.state c).queues = Function.update w.state.queues (I.client c) none :=
    h.without hI hzero
  have hne : I.server ≠ I.client c := (I.client_ne_server c).symm
  have hgone : Gone I (signalHandler I w.state c) c := ⟨by simp [signalHandler], by simp [hqueues]⟩
  have hnot : ¬ Due I t c := by
    intro h'
    obtain ⟨hmain, hdue'⟩ := h.due h'
    rcases hdue with hdrain | hdue
    · rw [hmain] at hdrain
      cases hdrain
    · exact hdue hdue'
  have hother : ∀ d, d ≠ c → (signalHandler I w.state c).clients d = w.state.clients d ∧
      (signalHandler I w.state c).queues (I.client d) = w.state.queues (I.client d) := fun d hd => by
    have hcd : I.client d ≠ I.client c := fun h => hd (I.client_injective h)
    exact ⟨by simp [signalHandler, hd], by simp [hqueues, hcd]⟩
  have hserver : ServerRel I { w with state := signalHandler I w.state c } t := by
    have hsame : (signalHandler I w.state c).queues I.server = w.state.queues I.server := by simp [hqueues, hne]
    have hsrv := h.server
    cases hsrv
    case draining hs hpc hq hq' => exact .draining hs hpc (by simpa [hsame] using hq) hq'
    case serving hs hq => exact .serving hs (hsame.trans hq)
  refine ⟨hserver, h.given, h.pc, h.buf, h.clientQueues, h.clientId, fun d => ?_⟩
  by_cases hd : d = c
  · rw [hd]
    exact .gone hgone hnot
  · exact (h.client d).frame (hother d hd).1 (hother d hd).2 rfl rfl id

/-! ## Every run -/

theorem Shadow.step (hI : Inv I t) (hn : Fintype.card ι ≤ 100) (h : Shadow I w t) {a : Event ι}
    (hok : Undisturbed I w a) (hans : Answerable I w a) (hs : nextEvent I cap w a = some w') :
    ∃ t', Inv I t' ∧ Shadow I w' t' := by
  rcases a with (⟨rand, stack⟩ | c) | c | c
  · simp only [nextEvent] at hs
    split at hs
    · rename_i hdrain
      cases hs
      exact ⟨t, hI, h.drains hdrain⟩
    · rename_i hmain
      obtain ⟨s, hserver, rfl⟩ := Option.map_eq_some_iff.1 hs
      exact h.step_server hI hn (by simpa using hmain) hserver
  · obtain ⟨s, hclient, rfl⟩ := Option.map_eq_some_iff.1 hs
    exact h.step_client hI hn hans hclient
  · simp only [nextEvent, Option.ite_none_right_eq_some, Option.some.injEq] at hs
    obtain ⟨hpc, rfl⟩ := hs
    exact ⟨t, hI, h.step_refused hI hpc⟩
  · simp only [nextEvent] at hs
    split at hs
    · cases hs
    · cases hs
      exact ⟨t, hI, h.step_leave hI hok⟩

theorem reachable_shadow (hn : Fintype.card ι ≤ 100)
    (h : (departures I cap).ReachableIf (fun w a => Undisturbed I w a ∧ Answerable I w a) w) :
    ∃ t, Inv I t ∧ Shadow I w t := by
  refine h.invariant (I := fun w => ∃ t, Inv I t ∧ Shadow I w t) (fun w h0 => ?_) fun w a w' _ hI hok hs => ?_
  · exact ⟨w.state, init_inv h0.state, started_shadow h0⟩
  · obtain ⟨t, hI, hst⟩ := hI
    exact hst.step hI hn hok.1 hok.2 hs

/-- The server stays in its loops. -/
theorem reachable_running (hn : Fintype.card ι ≤ 100)
    (h : (departures I cap).ReachableIf (fun w a => Undisturbed I w a ∧ Answerable I w a) w) :
    w.state.server.pc ≠ .exited := by
  obtain ⟨t, hI, hst⟩ := reachable_shadow hn h
  rw [hst.pc]
  exact hI.running

end Shadow

end Sysopy.PrimeQueue.SysV
