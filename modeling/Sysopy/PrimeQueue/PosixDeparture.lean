/-
The POSIX prime service from its draining loop on (cw06/zad2), when sends may fail, a client's `mq_open` may fail and
clients may leave through their `signalHandler`. As long as the server reads what its clients sent, receives no
registration of a client without a queue, and nobody leaves to whom it owes an id or a number, it goes through the
turns of `PosixTurns`: a client whose message was drained or lost, and one that has no queue or has left, look to it
like clients that take no further step.
-/
import Sysopy.PrimeQueue.PosixTurns

namespace Sysopy.PrimeQueue.Posix

open Sysopy.Conc Sysopy.CText

/-! ## The service with departures -/

/-- Who moves next: the server, a client, a client whose `mq_open` fails, or a client that gets its signal. -/
inductive Event (ι : Type*) where
  | step (a : Label ι)
  | refused (c : ι)
  | leave (c : ι)

section Step

variable {ι : Type*} [DecidableEq ι] (name : ι → List Char)

def nextOf (s : State ι) : Label ι → Option (State ι)
  | .server rand stack => server s rand stack
  | .client c => clientOf name s c

/-- The client's `mq_open` with `O_CREAT` fails, as there is no room for another queue. Its result is not used: the
client goes on to its registration, and later receives from -1. -/
def refused (s : State ι) (c : ι) : State ι :=
  { s with
    clients := Function.update s.clients c
      { s.clients c with pc := .register, buf := strcpy1 (name c) (setByte0 '\x01' (s.clients c).buf) } }

/-- `signalHandler` of a client: its queue is unlinked, so that nobody can open it or send to it, and it exits. -/
def signalHandler (s : State ι) (c : ι) : State ι :=
  { s with
    queues := Function.update s.queues (name c) none
    clients := Function.update s.clients c { s.clients c with pc := .exited } }

def nextEvent (s : State ι) : Event ι → Option (State ι)
  | .step a => nextOf name s a
  | .refused c => if (s.clients c).pc = .start ∧ s.queues (name c) = none then some (refused name s c) else none
  | .leave c => if (s.clients c).pc = .exited then none else some (signalHandler name s c)

/-- The server starts, with anything in its queue, before the clients do. -/
structure Started (s : State ι) : Prop where
  serverQueue : ∃ l, s.queues serverName = some l
  clientQueue : ∀ c, s.queues (name c) = none
  pc : s.server.pc = .drain
  buf : s.server.buf = []
  clientId : s.server.clientId = 0
  client : ∀ c, (s.clients c).pc = .start
  given : s.given = []

/-- All interleavings of the server, its clients and their departures. -/
def departures : System (State ι) (Event ι) := ⟨Started name, nextEvent name⟩

end Step

/-! ## What may go wrong -/

section Conditions

variable {ι : Type*}

def ServerPc.draining : ServerPc ι → Bool
  | .drain => true
  | _ => false

def ServerPc.polling : ServerPc ι → Bool
  | .poll => true
  | _ => false

/-- The message that the main loop receives next, if there is one, finds a zero byte behind its end in `buf`. -/
def Clean (s : State ι) : Prop :=
  s.server.pc.polling = true →
    ∀ e ∈ ((s.queues serverName).getD []).head?, s.server.buf.getD e.msg.length '\x00' = '\x00'

instance (s : State ι) : Decidable (Clean s) := inferInstanceAs (Decidable (_ → _))

/-- The server handles or answers a registration or a request of the client. -/
def ServerPc.owes (b : Buffer) (c : ι) : ServerPc ι → Prop
  | .handle sender => sender = some c ∧ byte0 b ≠ '\x03'
  | .send sender _ r => sender = some c ∧ r ≠ .ack
  | _ => False

/-- A registration or a request of the client is unanswered: the server owes it an id or a number. -/
def Due (s : State ι) (c : ι) : Prop :=
  (∃ e ∈ (s.queues serverName).getD [], e.sender = some c ∧ byte0 e.msg ≠ '\x03') ∨ s.server.pc.owes s.server.buf c

variable [DecidableEq ι]

instance (b : Buffer) (c : ι) : ∀ pc : ServerPc ι, Decidable (pc.owes b c)
  | .handle _ => inferInstanceAs (Decidable (_ ∧ _))
  | .send _ _ _ => inferInstanceAs (Decidable (_ ∧ _))
  | .drain | .poll | .exited => inferInstanceAs (Decidable False)

instance (s : State ι) (c : ι) : Decidable (Due s c) := inferInstanceAs (Decidable (_ ∨ _))

/-- The server reads what was sent to it, and a client does not leave while its registration or request is
unanswered; what is drained is never answered. -/
def Undisturbed (s : State ι) : Event ι → Prop
  | .step (.server _ _) => Clean s
  | .step (.client _) | .refused _ => True
  | .leave c => s.server.pc.draining = true ∨ ¬ Due s c

instance (s : State ι) : ∀ a : Event ι, Decidable (Undisturbed s a)
  | .step (.server _ _) => inferInstanceAs (Decidable (Clean s))
  | .step (.client _) | .refused _ => inferInstanceAs (Decidable True)
  | .leave _ => inferInstanceAs (Decidable (_ ∨ _))

/-- A registration that is going to be answered comes from a client that has its queue. -/
def Answerable (name : ι → List Char) (s : State ι) : Event ι → Prop
  | .step (.client c) => (s.clients c).pc = .register → s.queues (name c) = none →
      s.server.pc.draining = true ∨ mqMaxmsg ≤ ((s.queues serverName).getD []).length
  | _ => True

instance (name : ι → List Char) (s : State ι) : ∀ a : Event ι, Decidable (Answerable name s a)
  | .step (.client _) => inferInstanceAs (Decidable (_ → _ → _))
  | .step (.server _ _) | .refused _ | .leave _ => inferInstanceAs (Decidable True)

end Conditions

/-! ## How the turns go on -/

/-- Two buffers with the same first byte and the same string behind it. -/
def SameText (b b' : Buffer) : Prop := byte0 b = byte0 b' ∧ cString b.tail = cString b'.tail

theorem SameText.cString_eq {b b' : Buffer} (h : SameText b b') : cString b = cString b' := by
  have hsplit : ∀ b : Buffer, cString b = if byte0 b = '\x00' then [] else byte0 b :: cString b.tail := by
    intro b
    cases b with
    | nil => rfl
    | cons c b =>
      by_cases hc : c = '\x00'
      · simp [hc, cString]
      · simp [hc, cString_cons hc]
  rw [hsplit b, hsplit b', h.1, h.2]

section Shadow

variable {ι : Type*} {N : Names ι} {s s' t t' : State ι} {c d : ι}

/-- The client has left, or has no queue to receive from. -/
def Gone (N : Names ι) (s : State ι) (c : ι) : Prop :=
  ((s.clients c).pc = .register ∨ (s.clients c).pc = .poll ∨ (s.clients c).pc = .exited) ∧ s.queues (N.name c) = none

/-- The server in the service and in the turns. -/
inductive ServerRel (N : Names ι) (s t : State ι) : Prop
  | draining (hs : s.server.pc = .drain) (ht : t.server.pc = .poll) (hq : ∃ l, s.queues serverName = some l)
    (hq' : t.queues serverName = some [])
  | polling (hs : s.server.pc = .poll) (ht : t.server.pc = .poll) (hq : s.queues serverName = t.queues serverName)
  | handling (c : ι) (hs : s.server.pc = .handle (some c)) (ht : t.server.pc = .handle (some c))
    (hb : SameText s.server.buf t.server.buf) (hq : s.queues serverName = t.queues serverName)
  | sending (c : ι) (q q' : Option (List Char)) (r : Reply) (hs : s.server.pc = .send (some c) q r)
    (ht : t.server.pc = .send (some c) q' r) (hb : SameText s.server.buf t.server.buf)
    (hq : s.queues serverName = t.queues serverName) (hd : q = q' ∨ q = none ∧ Gone N s c)

/-- A client in the service and in the turns: it takes part in them, its message is gone, or it is. -/
inductive ClientRel (N : Names ι) (s t : State ι) (c : ι) : Prop
  | same (hc : s.clients c = t.clients c) (hq : s.queues (N.name c) = t.queues (N.name c))
  | lost (hs : (s.clients c).pc = .poll ∨ (s.clients c).pc = .exited)
    (ht : (t.clients c).pc = .register ∨ (t.clients c).pc = .send) (hq : s.queues (N.name c) = t.queues (N.name c))
  | gone (hl : Gone N s c) (hd : ¬ Due t c)

/-- A state of the service beside a state of the turns. -/
structure Shadow (N : Names ι) (s t : State ι) : Prop where
  server : ServerRel N s t
  given : s.given = t.given
  clientNames : s.server.clientNames = t.server.clientNames
  clientId : s.server.clientId = t.server.clientId
  client : ∀ c, ClientRel N s t c

theorem ClientRel.frame (h : ClientRel N s t d) (hs : s'.clients d = s.clients d)
    (hsq : s'.queues (N.name d) = s.queues (N.name d)) (ht : t'.clients d = t.clients d)
    (htq : t'.queues (N.name d) = t.queues (N.name d)) (hdue : Due t' d → Due t d) : ClientRel N s' t' d := by
  cases h
  case same hc hq => exact .same (by rw [hs, ht, hc]) (by rw [hsq, htq, hq])
  case lost hs' ht' hq => exact .lost (by rwa [hs]) (by rwa [ht]) (by rw [hsq, htq, hq])
  case gone hl hd => exact .gone ⟨by rw [hs]; exact hl.1, by rw [hsq]; exact hl.2⟩ (mt hdue hd)

theorem ServerRel.running (h : ServerRel N s t) : s.server.pc ≠ .exited := by
  cases h <;> simp_all

/-- A step of which the server takes no notice, except that its queue may have grown. -/
theorem ServerRel.frame (h : ServerRel N s t) (hs : s'.server = s.server) (ht : t'.server = t.server)
    (hqueue : (s'.queues serverName = s.queues serverName ∧ t'.queues serverName = t.queues serverName) ∨
      (s.server.pc = .drain ∧ (∃ l, s'.queues serverName = some l) ∧ t'.queues serverName = t.queues serverName) ∨
      (s.server.pc ≠ .drain ∧ s'.queues serverName = t'.queues serverName))
    (hgone : ∀ c, Gone N s c → Gone N s' c) : ServerRel N s' t' := by
  have hsame : s.server.pc ≠ .drain → s.queues serverName = t.queues serverName →
      s'.queues serverName = t'.queues serverName := by
    intro hpc hq
    rcases hqueue with ⟨hsq, htq⟩ | ⟨hdrain, -⟩ | ⟨-, hq'⟩
    · rw [hsq, htq, hq]
    · exact absurd hdrain hpc
    · exact hq'
  cases h
  case draining hs' ht' hq hq' =>
    obtain ⟨hl, htq⟩ : (∃ l, s'.queues serverName = some l) ∧ t'.queues serverName = t.queues serverName := by
      rcases hqueue with ⟨hsq, htq⟩ | ⟨-, hl, htq⟩ | ⟨hpc, -⟩
      · exact ⟨by rwa [hsq], htq⟩
      · exact ⟨hl, htq⟩
      · exact absurd hs' hpc
    exact .draining (by rw [hs, hs']) (by rw [ht, ht']) hl (by rw [htq, hq'])
  case polling hs' ht' hq =>
    exact .polling (by rw [hs, hs']) (by rw [ht, ht']) (hsame (by rw [hs']; exact nofun) hq)
  case handling c hs' ht' hb hq =>
    exact .handling c (by rw [hs, hs']) (by rw [ht, ht']) (by rwa [hs, ht]) (hsame (by rw [hs']; exact nofun) hq)
  case sending c q q' r hs' ht' hb hq hd =>
    exact .sending c q q' r (by rw [hs, hs']) (by rw [ht, ht']) (by rwa [hs, ht]) (hsame (by rw [hs']; exact nofun) hq)
      (hd.imp_right fun ⟨h, hl⟩ => ⟨h, hgone c hl⟩)

theorem started_shadow (h : Started N.name s) : ∃ t, Init N false t ∧ Shadow N s t := by
  refine ⟨{ s with
    queues := Function.update s.queues serverName (some [])
    server := { s.server with pc := .poll } }, ?_, ?_⟩
  · refine ⟨by simp, fun c => ?_, rfl, h.buf, h.clientId, h.client, h.given⟩
    simpa [N.name_ne_server] using h.clientQueue c
  · exact ⟨.draining h.pc rfl h.serverQueue (by simp), rfl, rfl, rfl, fun c => .same rfl (by simp [N.name_ne_server])⟩

/-! ## The server's steps -/

/-- What the tests on `buf[0]` do depends on the texts in the buffer and the tables only. -/
theorem handleServer_same (hb : SameText s.server.buf t.server.buf) (hn : s.server.clientNames = t.server.clientNames)
    (hi : s.server.clientId = t.server.clientId) (hg : s.given = t.given) (sender : Option ι) (rand : Rand)
    (stack : ℤ × ℤ × ℤ) :
    let s' := handleServer s sender rand stack
    let t' := handleServer t sender rand stack
    (s'.queues = s.queues ∧ t'.queues = t.queues ∧ s'.clients = s.clients ∧ t'.clients = t.clients) ∧
      (s'.given = t'.given ∧ s'.server.clientNames = t'.server.clientNames ∧ s'.server.clientId = t'.server.clientId) ∧
      SameText s'.server.buf t'.server.buf ∧
      ((∃ p r, s'.server.pc = .send sender (mqOpen s.queues p) r ∧ t'.server.pc = .send sender (mqOpen t.queues p) r ∧
        (byte0 t.server.buf = '\x03' → r = .ack)) ∨ s'.server.pc = .poll ∧ t'.server.pc = .poll) := by
  obtain ⟨hbyte, htext⟩ := hb
  intro s' t'
  unfold s' t' handleServer
  simp only [hbyte]
  split_ifs with h1 h2 h3
  · refine ⟨⟨rfl, rfl, rfl, rfl⟩, ⟨?_, ?_, hi⟩, ⟨?_, ?_⟩, .inl ⟨cString t.server.buf.tail, .id, ?_, rfl, fun h => ?_⟩⟩
    · simp [giveId, hg, hi]
    · simp [giveId, hn, hi, htext]
    · simp [giveId, strcpy1, setByte0]
    · simp only [giveId, cString_tail_strcpy1 (nul_not_mem_printInt _), hi]
    · simp [giveId, htext]
    · rw [h1] at h; exact absurd h (by decide)
  · refine ⟨⟨rfl, rfl, rfl, rfl⟩, ⟨hg, hn, hi⟩, ⟨rfl, ?_⟩,
      .inl ⟨t.server.clientNames (atoi (cString t.server.buf.tail)), .number, ?_, rfl, fun h => ?_⟩⟩
    · have htail : ∀ b : Buffer, (setByte0 '\x02' b).tail = b.tail := fun b => rfl
      simp only [drawNumber, htail, cString_tail_strcpy1 (nul_not_mem_printInt _)]
    · simp [drawNumber, htext, hn]
    · rw [h2] at h; exact absurd h (by decide)
  · refine ⟨⟨rfl, rfl, rfl, rfl⟩, ⟨hg, hn, hi⟩, ⟨rfl, htext⟩,
      .inl ⟨t.server.clientNames (scanTriple ',' (cString t.server.buf.tail) stack).1, .ack, ?_, rfl, fun _ => rfl⟩⟩
    simp [acknowledge, htext, hn]
  · exact ⟨⟨rfl, rfl, rfl, rfl⟩, ⟨hg, hn, hi⟩, ⟨rfl, rfl⟩, .inr ⟨rfl, rfl⟩⟩

/-- A client's message is a byte and a string. -/
theorem FromClient.eq_cons {name : List Char} {k : ℤ} {h : Option ℤ} {m : List Char} (hm : FromClient name k h m)
    (hname : '\x00' ∉ name) : ∃ b v, m = b :: v ∧ '\x00' ∉ v := by
  cases hm
  case registration => exact ⟨_, _, rfl, hname⟩
  case request => exact ⟨_, _, rfl, nul_not_mem_printInt k⟩
  case report n hn => exact ⟨_, _, rfl, nul_not_mem_printTriple (by decide) _ _ _⟩

/-- A message that finds a zero byte behind its end reads as in a zeroed buffer. -/
theorem sameText_overwrite {m : List Char} {v : Char} {r : List Char} (hm : m = v :: r) (hr : '\x00' ∉ r) {b : Buffer}
    (hb : b.getD m.length '\x00' = '\x00') : SameText (overwrite m b) (overwrite m []) := by
  subst hm
  refine ⟨rfl, ?_⟩
  rw [(cString_tail_overwrite hr b).2 hb, (cString_tail_overwrite hr []).2 rfl]

variable [DecidableEq ι] [Fintype ι]

/-- The first message in the server's queue is a client's. -/
theorem Inv.head (hI : Inv N t) {e : Envelope ι (List Char)} {l : List (Envelope ι (List Char))}
    (hl : t.queues serverName = some (e :: l)) :
    ∃ c, e.sender = some c ∧ FromClient (N.name c) (t.clients c).clientId (idOf t.given c) e.msg := by
  obtain ⟨l', hl', hsend⟩ := hI.serverQueue
  obtain rfl : l' = e :: l := Option.some.inj (hl'.symm.trans hl)
  obtain ⟨c, hc⟩ := hsend e List.mem_cons_self
  have hmail : inServerQueue t c = e.msg :: mailOf l c := by
    simp only [inServerQueue, hl, Option.getD_some, mailOf_cons_self hc]
  obtain ⟨-, hm, -⟩ := (hI.phase c).of_queued (m := e.msg) (by simp [view, hmail])
  exact ⟨c, hc, hm⟩

theorem Shadow.serverTakes (hI : Inv N t) (h : Shadow N s t) (hclean : Clean s) {e : Envelope ι (List Char)}
    {l : List (Envelope ι (List Char))} (hpc : s.server.pc = .poll) (hl : s.queues serverName = some (e :: l)) :
    ∃ t', Inv N t' ∧ Shadow N { s with
      queues := Function.update s.queues serverName (some l)
      server := { s.server with pc := .handle e.sender, buf := overwrite e.msg s.server.buf } } t' := by
  have hsrv := h.server
  cases hsrv
  case polling hs ht hq =>
    have htl : t.queues serverName = some (e :: l) := by rw [← hq, hl]
    obtain ⟨c, hc, hm⟩ := hI.head htl
    obtain ⟨v, r, hvr, hr⟩ := hm.eq_cons (N.nul_not_mem c)
    refine ⟨_, hI.serverTakes ht htl, ?_, h.given, h.clientNames, h.clientId, fun d => ?_⟩
    · refine .handling c (by simp [hc]) (by simp [hc]) ?_ (by simp)
      rw [hI.buf ht]
      exact sameText_overwrite hvr hr (hclean (by rw [hpc]; rfl) e (by rw [hl]; rfl))
    · refine (h.client d).frame rfl (by simp [N.name_ne_server]) rfl (by simp [N.name_ne_server]) ?_
      rintro (⟨x, hx, hsender, hbyte⟩ | ⟨hsender, hbyte⟩)
      · exact .inl ⟨x, by rw [htl]; exact List.mem_cons_of_mem _ (by simpa using hx), hsender, hbyte⟩
      · refine .inl ⟨e, by rw [htl]; exact List.mem_cons_self, hsender, ?_⟩
        rwa [hI.buf ht, overwrite_nil] at hbyte
  all_goals simp_all

theorem Shadow.serverIdles (hI : Inv N t) (h : Shadow N s t) (hpc : s.server.pc = .poll) :
    ∃ t', Inv N t' ∧ Shadow N { s with server := { s.server with buf := [] } } t' := by
  have hsrv := h.server
  cases hsrv
  case polling hs ht hq =>
    refine ⟨_, hI.serverIdles ht, .polling hs ht hq, h.given, h.clientNames, h.clientId, fun d => ?_⟩
    refine (h.client d).frame rfl rfl rfl rfl (Or.imp_right fun howes => ?_)
    simp [ServerPc.owes, ht] at howes
  all_goals simp_all

theorem Shadow.serverHandles (hI : Inv N t) (hn : Fintype.card ι ≤ 100) (h : Shadow N s t) {sender : Option ι}
    (rand : Rand) (stack : ℤ × ℤ × ℤ) (hpc : s.server.pc = .handle sender) :
    ∃ t', Inv N t' ∧ Shadow N (handleServer s sender rand stack) t' := by
  have hsrv := h.server
  cases hsrv
  case handling c hs ht hb hq =>
    obtain rfl : sender = some c := by simpa [hs] using hpc.symm
    have hI' := hI.serverHandles hn rand stack ht
    obtain ⟨⟨hsq, htq, hsc, htc⟩, ⟨hg, hnames, hid⟩, hb', hend⟩ :=
      handleServer_same hb h.clientNames h.clientId h.given (some c) rand stack
    refine ⟨_, hI', ?_, hg, hnames, hid, fun d => ?_⟩
    · rcases hend with ⟨p, r, hs', ht', -⟩ | ⟨hs', ht'⟩
      · refine .sending c _ _ r hs' ht' hb' (by rw [hsq, htq, hq]) ?_
        -- the turns have the client's queue open
        obtain ⟨-, ⟨hopen, -⟩, -⟩ := (hI'.phase c).of_served
          (x := (some (mqOpen t.queues p, r), (handleServer t (some c) rand stack).server.buf))
          (by simp [view, atServer, ht'])
        obtain ⟨hsome, rfl⟩ : (t.queues p).isSome ∧ p = N.name c := by simpa [mqOpen] using hopen
        cases h.client c
        case same _ hq' => exact .inl (by simp only [mqOpen, hq'])
        case lost _ _ hq' => exact .inl (by simp only [mqOpen, hq'])
        case gone hl _ => exact .inr ⟨by simp [mqOpen, hl.2], by rw [hsc]; exact hl.1, by rw [hsq]; exact hl.2⟩
      · exact .polling hs' ht' (by rw [hsq, htq, hq])
    · refine (h.client d).frame (by rw [hsc]) (by rw [hsq]) (by rw [htc]) (by rw [htq]) ?_
      rintro (hmail | howes)
      · exact .inl (by rwa [htq] at hmail)
      · refine .inr ?_
        rcases hend with ⟨p, r, -, ht', hack⟩ | ⟨-, ht'⟩
        · rw [ht'] at howes
          rw [ht]
          exact ⟨howes.1, mt hack howes.2⟩
        · rw [ht'] at howes
          cases howes
  all_goals simp_all

/-- An answer in the turns: the client's queue is there, and empty. -/
theorem Inv.answering (hI : Inv N t) {q : Option (List Char)} {r : Reply} (hpc : t.server.pc = .send (some c) q r) :
    q = some (N.name c) ∧ t.queues (N.name c) = some [] ∧
      answer t q r = { t with
        queues := Function.update t.queues (N.name c) (some [⟨none, cString t.server.buf ++ ['\x00']⟩])
        server := { t.server with
          pc := .poll, buf := [], clientId := if r = .id then t.server.clientId + 1 else t.server.clientId } } := by
  obtain ⟨-, ⟨rfl, -⟩, -, ho⟩ :=
    (hI.phase c).of_served (x := (some (q, r), t.server.buf)) (by simp [view, atServer, hpc])
  have hempty := queue_eq_nil ho
  refine ⟨rfl, hempty, ?_⟩
  simp only [answer, mqSend_of_lt hempty (by simp [mqMaxmsg]), List.nil_append]

/-- An answer reaches its client, or is an acknowledgement to one that has left. -/
theorem Shadow.serverSends (hI : Inv N t) (h : Shadow N s t) {sender : Option ι} {q : Option (List Char)} {r : Reply}
    (hpc : s.server.pc = .send sender q r) : ∃ t', Inv N t' ∧ Shadow N (answer s q r) t' := by
  have hsrv := h.server
  cases hsrv
  case sending c p q' r' hs ht hb hq hd =>
    obtain ⟨rfl, rfl, rfl⟩ : sender = some c ∧ q = p ∧ r = r' := by simpa [hs] using hpc.symm
    obtain ⟨rfl, hempty, hanswer⟩ := hI.answering ht
    have hI' := hI.serverSends ht
    have hne : serverName ≠ N.name c := (N.name_ne_server c).symm
    have hcd : ∀ d, d ≠ c → N.name d ≠ N.name c := fun d hd h => hd (N.name_injective h)
    have hdue : ∀ d, Due (answer t (some (N.name c)) r) d → Due t d := by
      rintro d (hmail | howes)
      · exact .inl (by simpa [hanswer, hne] using hmail)
      · rw [hanswer] at howes
        cases howes
    by_cases hqueue : s.queues (N.name c) = some []
    · -- the client's queue is there
      obtain rfl : q = some (N.name c) := hd.resolve_right fun ⟨_, hl⟩ => by rw [hl.2] at hqueue; cases hqueue
      have hsend : answer s (some (N.name c)) r = { s with
          queues := Function.update s.queues (N.name c) (some [⟨none, cString t.server.buf ++ ['\x00']⟩])
          server := { s.server with
            pc := .poll, buf := [], clientId := if r = .id then s.server.clientId + 1 else s.server.clientId } } := by
        simp only [answer, mqSend_of_lt hqueue (by simp [mqMaxmsg]), List.nil_append, hb.cString_eq]
      refine ⟨_, hI', ?_⟩
      rw [hsend]
      refine ⟨.polling rfl (by rw [hanswer]) (by simp [hanswer, hne, hq]), by rw [hanswer]; exact h.given,
        by rw [hanswer]; exact h.clientNames, by simp [hanswer, h.clientId], fun d => ?_⟩
      by_cases hdc : d = c
      · subst hdc
        cases h.client d
        case same hc _ => exact .same (by rw [hanswer]; exact hc) (by simp [hanswer])
        case lost hs' ht' _ => exact .lost hs' (by rw [hanswer]; exact ht') (by simp [hanswer])
        case gone hl _ => rw [hl.2] at hqueue; cases hqueue
      · exact (h.client d).frame rfl (by simp [hcd d hdc]) (by rw [hanswer]) (by simp [hanswer, hcd d hdc]) (hdue d)
    · -- the client has left, with a report only in the server's queue
      obtain ⟨hl, hnot⟩ : Gone N s c ∧ ¬ Due t c := by
        cases h.client c
        case same _ hq' => exact absurd (hq'.trans hempty) hqueue
        case lost _ _ hq' => exact absurd (hq'.trans hempty) hqueue
        case gone hl hnot => exact ⟨hl, hnot⟩
      obtain rfl : r = .ack := by
        by_contra hr
        exact hnot (.inr (by rw [ht]; exact ⟨rfl, hr⟩))
      have hfail : mqSend s.queues q ⟨none, cString s.server.buf ++ ['\x00']⟩ = none := by
        rcases hd with rfl | ⟨rfl, -⟩
        · simp [mqSend, hl.2]
        · rfl
      have hsend : answer s q .ack = { s with server := { s.server with pc := .poll, buf := [] } } := by
        simp only [answer, hfail, if_true]
      refine ⟨_, hI', ?_⟩
      rw [hsend]
      refine ⟨.polling rfl (by rw [hanswer]) (by simp [hanswer, hne, hq]), by rw [hanswer]; exact h.given,
        by rw [hanswer]; exact h.clientNames, by simp [hanswer, h.clientId], fun d => ?_⟩
      by_cases hdc : d = c
      · subst hdc
        exact .gone hl (mt (hdue d) hnot)
      · exact (h.client d).frame rfl rfl (by rw [hanswer]) (by simp [hanswer, hcd d hdc]) (hdue d)
  all_goals simp_all

theorem Shadow.step_server (hI : Inv N t) (hn : Fintype.card ι ≤ 100) (h : Shadow N s t) (hclean : Clean s)
    {rand : Rand} {stack : ℤ × ℤ × ℤ} (hs : Posix.server s rand stack = some s') : ∃ t', Inv N t' ∧ Shadow N s' t' := by
  rcases server_cases hs with ⟨e, l, hpc, hl, rfl⟩ | ⟨hpc, hl, rfl⟩ | ⟨e, l, hpc, hl, rfl⟩ | ⟨hpc, -, rfl⟩ |
    ⟨sender, hpc, rfl⟩ | ⟨sender, q, r, hpc, rfl⟩
  · -- a message is drained
    have hsrv := h.server
    cases hsrv
    case draining hs' ht hq hq' =>
      refine ⟨t, hI, .draining hs' ht ⟨l, by simp⟩ hq', h.given, h.clientNames, h.clientId, fun d => ?_⟩
      exact (h.client d).frame rfl (by simp [N.name_ne_server]) rfl rfl id
    all_goals simp_all
  · -- the queue is drained
    have hsrv := h.server
    cases hsrv
    case draining hs' ht hq hq' =>
      obtain ⟨l, hl'⟩ := hq
      obtain rfl : l = [] := by simpa [hl'] using hl
      exact ⟨t, hI, .polling rfl ht (hl'.trans hq'.symm), h.given, h.clientNames, h.clientId,
        fun d => (h.client d).frame rfl rfl rfl rfl id⟩
    all_goals simp_all
  · exact h.serverTakes hI hclean hpc hl
  · exact h.serverIdles hI hpc
  · exact h.serverHandles hI hn rand stack hpc
  · exact h.serverSends hI hpc

/-! ## The clients' steps -/

section Clients

omit [DecidableEq ι] [Fintype ι]

/-- A client that moves is in the turns, or its message is gone, or it has no queue. -/
theorem Shadow.moving (h : Shadow N s t) (hpc : (s.clients c).pc ≠ .exited) :
    (s.queues (N.name c) = t.queues (N.name c) ∧ (s.clients c = t.clients c ∨
      (s.clients c).pc = .poll ∧ ((t.clients c).pc = .register ∨ (t.clients c).pc = .send))) ∨
    (Gone N s c ∧ ¬ Due t c) := by
  cases h.client c
  case same hc hq => exact .inl ⟨hq, .inl hc⟩
  case lost hs ht hq => exact .inl ⟨hq, .inr ⟨hs.resolve_right hpc, ht⟩⟩
  case gone hl hd => exact .inr ⟨hl, hd⟩

/-- A step of one client, in the service and in the turns, or in the service only. -/
theorem Shadow.clientMove (h : Shadow N s t) {a b : Queues ι} {f g : ι → Client}
    (hgone : Gone N s c → Gone N { s with queues := a, clients := f } c)
    (hqueue : (a serverName = s.queues serverName ∧ b serverName = t.queues serverName) ∨
      (s.server.pc = .drain ∧ (∃ l, a serverName = some l) ∧ b serverName = t.queues serverName) ∨
      (s.server.pc ≠ .drain ∧ a serverName = b serverName))
    (hnew : ∀ e ∈ (b serverName).getD [], e ∈ (t.queues serverName).getD [] ∨ e.sender = some c)
    (hother : ∀ d, d ≠ c → f d = s.clients d ∧ a (N.name d) = s.queues (N.name d) ∧ g d = t.clients d ∧
      b (N.name d) = t.queues (N.name d))
    (hclient : ClientRel N { s with queues := a, clients := f } { t with queues := b, clients := g } c) :
    Shadow N { s with queues := a, clients := f } { t with queues := b, clients := g } := by
  refine ⟨h.server.frame rfl rfl hqueue fun d hl => ?_, h.given, h.clientNames, h.clientId, fun d => ?_⟩
  · by_cases hd : d = c
    · subst hd
      exact hgone hl
    · obtain ⟨hs, hsq, -⟩ := hother d hd
      exact ⟨by simpa only [hs] using hl.1, by simpa only [hsq] using hl.2⟩
  · by_cases hd : d = c
    · rw [hd]
      exact hclient
    · obtain ⟨hs, hsq, ht, htq⟩ := hother d hd
      refine (h.client d).frame hs hsq ht htq ?_
      rintro (⟨e, he, hsender, hbyte⟩ | howes)
      · refine .inl ⟨e, (hnew e he).resolve_right fun hc => ?_, hsender, hbyte⟩
        rw [hsender] at hc
        exact hd (Option.some.inj hc)
      · exact .inr howes

/-- A client takes the same step in the service and in the turns, and touches no queue but its own. -/
theorem Shadow.ownMove [DecidableEq ι] (h : Shadow N s t)
    {l l' : Option (List (Envelope ι (List Char)))} {v v' : Client}
    (hgone : Gone N s c → (v.pc = .register ∨ v.pc = .poll ∨ v.pc = .exited) ∧ l = none)
    (hl : l = l') (hv : v = v') :
    Shadow N { s with queues := Function.update s.queues (N.name c) l, clients := Function.update s.clients c v }
      { t with queues := Function.update t.queues (N.name c) l', clients := Function.update t.clients c v' } := by
  subst hl hv
  have hne : serverName ≠ N.name c := (N.name_ne_server c).symm
  have hcd : ∀ d, d ≠ c → N.name d ≠ N.name c := fun d hd h => hd (N.name_injective h)
  refine h.clientMove (c := c) (fun hg => ⟨?_, ?_⟩) (.inl ⟨?_, ?_⟩) (fun e he => .inl ?_) (fun d hd => ?_) (.same ?_ ?_)
  · simpa using (hgone hg).1
  · simpa using (hgone hg).2
  · simp [hne]
  · simp [hne]
  · simpa [hne] using he
  · simp [hd, hcd d hd]
  · simp
  · simp

/-- A client takes the same step in the service and in the turns, and touches no queue. -/
theorem Shadow.localMove [DecidableEq ι] (h : Shadow N s t) {v v' : Client}
    (hgone : Gone N s c → v.pc = .register ∨ v.pc = .poll ∨ v.pc = .exited)
    (hown : s.queues (N.name c) = t.queues (N.name c)) (hv : v = v') :
    Shadow N { s with clients := Function.update s.clients c v }
      { t with clients := Function.update t.clients c v' } := by
  have hmove := h.ownMove (fun hg => ⟨hgone hg, hg.2⟩) hown hv
  simpa only [Function.update_eq_self] using hmove

/-- A client that has no queue afterwards moves in the service, and takes no step in the turns. -/
theorem Shadow.goneMove [DecidableEq ι] (h : Shadow N s t) (hdue : ¬ Due t c) {a : Queues ι} {v : Client}
    (hv : v.pc = .register ∨ v.pc = .poll ∨ v.pc = .exited) (hown : a (N.name c) = none)
    (hqueue : a serverName = s.queues serverName ∨ s.server.pc = .drain ∧ ∃ l, a serverName = some l)
    (hother : ∀ d, d ≠ c → a (N.name d) = s.queues (N.name d)) :
    Shadow N { s with queues := a, clients := Function.update s.clients c v } t := by
  have hgone : Gone N { s with queues := a, clients := Function.update s.clients c v } c := ⟨by simpa using hv, hown⟩
  refine h.clientMove (b := t.queues) (g := t.clients) (fun _ => hgone) ?_ (fun e he => .inl he) (fun d hd => ?_)
    (.gone hgone hdue)
  · exact hqueue.imp (fun hq => ⟨hq, rfl⟩) fun ⟨hdrain, hl⟩ => .inl ⟨hdrain, hl, rfl⟩
  · simp [hd, hother d hd]

theorem ServerPc.eq_drain {pc : ServerPc ι} (h : pc.draining = true) : pc = .drain := by
  cases pc <;> first | rfl | cases h

/-- A client without a queue registers while the server drains its queue or finds it full, and receives nothing. -/
theorem Shadow.step_gone [DecidableEq ι] (h : Shadow N s t) (hgone : Gone N s c) (hdue : ¬ Due t c)
    (hans : Answerable N.name s (.step (.client c))) (hs : clientOf N.name s c = some s') : Shadow N s' t := by
  obtain ⟨hpcs, hnone⟩ := hgone
  rcases clientOf_cases hs with ⟨hpc, rfl⟩ | ⟨l, b, hpc, hl, hlt, rfl⟩ | ⟨pc, b, hpc, hfull, rfl⟩ |
    ⟨e, l, hpc, hl, rfl⟩ | ⟨hpc, hl, rfl⟩ | ⟨hpc, rfl⟩
  · simp [hpc] at hpcs
  · have hreg : (s.clients c).pc = .register := hpc.resolve_right fun hsend => by simp [hsend] at hpcs
    have hdrain : s.server.pc.draining = true :=
      (hans hreg hnone).resolve_right (by rw [hl, Option.getD_some]; omega)
    refine h.goneMove hdue (.inr (.inl rfl)) ?_ (.inr ⟨ServerPc.eq_drain hdrain, _, Function.update_self ..⟩)
      fun d _ => ?_
    · simpa [N.name_ne_server] using hnone
    · simp [N.name_ne_server]
  · refine h.goneMove (a := s.queues) hdue ?_ hnone (.inl rfl) fun d _ => rfl
    rcases hpc with ⟨-, rfl⟩ | ⟨-, rfl⟩
    · exact .inr (.inr rfl)
    · exact .inr (.inl rfl)
  · rw [hnone] at hl
    cases hl
  · exact h.goneMove (a := s.queues) hdue hpcs hnone (.inl rfl) fun d _ => rfl
  · simp [hpc] at hpcs

end Clients

/-- A client sends: the message will be drained, or it is sent in the turns too. -/
theorem Shadow.sends (hI : Inv N t) (h : Shadow N s t) (hown : s.queues (N.name c) = t.queues (N.name c))
    (hc : s.clients c = t.clients c) (hpc : (s.clients c).pc = .register ∨ (s.clients c).pc = .send)
    {l : List (Envelope ι (List Char))} (hl : s.queues serverName = some l) (b : Buffer) :
    ∃ t', Inv N t' ∧ Shadow N { s with
      queues := Function.update s.queues serverName (some (l ++ [⟨some c, cString (s.clients c).buf⟩]))
      clients := Function.update s.clients c { s.clients c with pc := .poll, buf := b } } t' := by
  by_cases hdrain : s.server.pc = .drain
  · -- the message will be drained
    refine ⟨t, hI, h.clientMove (b := t.queues) (g := t.clients) (c := c) (fun hg => ⟨?_, ?_⟩) (.inr (.inl ⟨hdrain,
      ⟨l ++ [⟨some c, cString (s.clients c).buf⟩], ?_⟩, rfl⟩)) (fun e he => .inl he) (fun d hd => ?_)
      (.lost ?_ (hc ▸ hpc) ?_)⟩
    · simp
    · simpa [N.name_ne_server] using hg.2
    · simp
    · simp [hd, N.name_ne_server]
    · simp
    · simpa [N.name_ne_server] using hown
  · have hq : s.queues serverName = t.queues serverName := by
      cases h.server <;> simp_all
    obtain ⟨hm, hmail, hserved, ho⟩ := hI.sending (hc ▸ hpc)
    refine ⟨_, hI.clientSends (hq ▸ hl) hm hmail hserved ho b, h.clientMove (c := c) (fun hg => ⟨?_, ?_⟩)
      (.inr (.inr ⟨hdrain, ?_⟩)) (fun e he => ?_) (fun d hd => ?_) (.same ?_ ?_)⟩
    · simp
    · simpa [N.name_ne_server] using hg.2
    · simp [hc]
    · simp only [Function.update_self, Option.getD_some, List.mem_append, List.mem_singleton] at he
      rw [← hq, hl]
      exact he.imp_right fun he => by rw [he]
    · simp [hd, N.name_ne_server]
    · simp [hc]
    · simpa [N.name_ne_server] using hown

theorem Shadow.step_client (hI : Inv N t) (hn : Fintype.card ι ≤ 100) (h : Shadow N s t)
    (hans : Answerable N.name s (.step (.client c))) (hs : clientOf N.name s c = some s') :
    ∃ t', Inv N t' ∧ Shadow N s' t' := by
  have hlive : (s.clients c).pc ≠ .exited := by
    intro hpc
    simp [clientOf, hpc] at hs
  rcases h.moving hlive with ⟨hown, hclient⟩ | ⟨hgone, hdue⟩
  swap
  · exact ⟨t, hI, h.step_gone hgone hdue hans hs⟩
  rcases clientOf_cases hs with ⟨hpc, rfl⟩ | ⟨l, b, hpc, hl, hlt, rfl⟩ | ⟨pc, b, hpc, hfull, rfl⟩ |
    ⟨e, l, hpc, hl, rfl⟩ | ⟨hpc, hl, rfl⟩ | ⟨hpc, rfl⟩
  · -- the client creates its queue
    have hc : s.clients c = t.clients c := hclient.resolve_right fun h => absurd (hpc.symm.trans h.1) (by decide)
    exact ⟨_, hI.clientStarts (c := c) (by rw [← hc, hpc]),
      h.ownMove (fun hg => by simp [Gone, hpc] at hg) (by rw [hown]) (by rw [hc])⟩
  · -- the client sends
    have hc : s.clients c = t.clients c := hclient.resolve_right fun h => by
      rcases hpc with hpc | hpc <;> exact absurd (hpc.symm.trans h.1) (by decide)
    exact h.sends hI hown hc hpc hl b
  · -- the client's message is lost
    have hc : s.clients c = t.clients c := hclient.resolve_right fun h => by
      rcases hpc with ⟨hpc, -⟩ | ⟨hpc, -⟩ <;> exact absurd (hpc.symm.trans h.1) (by decide)
    refine ⟨t, hI, h.clientMove (a := s.queues) (b := t.queues) (g := t.clients) (c := c) (fun hg => ⟨?_, hg.2⟩)
      (.inl ⟨rfl, rfl⟩) (fun e he => .inl he) (fun d hd => ?_) (.lost ?_ (hc ▸ hpc.imp And.left And.left) hown)⟩
    · rcases hpc with ⟨-, rfl⟩ | ⟨-, rfl⟩ <;> simp
    · simp [hd]
    · rcases hpc with ⟨-, rfl⟩ | ⟨-, rfl⟩ <;> simp
  · -- the client takes a message
    rcases hclient with hc | ⟨-, hpc'⟩
    · exact ⟨_, hI.clientTakes (hown ▸ hl), h.ownMove (fun hg => by simp [Gone, hl] at hg) rfl (by rw [hc])⟩
    · obtain ⟨-, -, -, ho⟩ := hI.sending hpc'
      rw [hown, queue_eq_nil ho] at hl
      cases hl
  · -- the client finds its queue empty
    rcases hclient with hc | ⟨-, hpc'⟩
    · exact ⟨_, hI.clientIdles (hc ▸ hpc), h.localMove (fun hg => hg.1) hown (by rw [hc])⟩
    · refine ⟨t, hI, h.clientMove (a := s.queues) (b := t.queues) (g := t.clients) (c := c)
        (fun hg => ⟨by simpa using hg.1, hg.2⟩) (.inl ⟨rfl, rfl⟩) (fun e he => .inl he) (fun d hd => ?_)
        (.lost ?_ hpc' hown)⟩
      · simp [hd]
      · simp [hpc]
  · -- the client handles a message
    have hc : s.clients c = t.clients c := hclient.resolve_right fun h => absurd (hpc.symm.trans h.1) (by decide)
    exact ⟨_, hI.clientHandles hn (hc ▸ hpc), h.localMove (fun hg => by simp [Gone, hpc] at hg) hown (by rw [hc])⟩

/-! ## Clients without a queue, and departures -/

/-- The server owes nothing to a client that has not started. -/
theorem Inv.not_due (hI : Inv N t) (hpc : (t.clients c).pc = .start) : ¬ Due t c := by
  obtain ⟨-, hmail, hserved⟩ := (hI.phase c).of_fresh (by simp [turns, view, hpc, ClientPc.stage])
  rintro (⟨e, he, hsender, -⟩ | howes)
  · have hin : e.msg ∈ inServerQueue t c := by
      simp only [inServerQueue, mailOf, List.mem_map, List.mem_filter]
      exact ⟨e, ⟨he, by simp [hsender]⟩, rfl⟩
    rw [show inServerQueue t c = [] from hmail] at hin
    cases hin
  · have hnone : atServer t c = none := hserved
    unfold atServer at hnone
    unfold ServerPc.owes at howes
    split at howes <;> simp_all

/-- A client's queue is refused. -/
theorem Shadow.step_refused (hI : Inv N t) (h : Shadow N s t) (hpc : (s.clients c).pc = .start)
    (hq : s.queues (N.name c) = none) : Shadow N (refused N.name s c) t := by
  have hdue : ¬ Due t c := by
    cases h.client c
    case same hc _ => exact hI.not_due (hc ▸ hpc)
    case lost hs _ _ => simp [hpc] at hs
    case gone _ hd => exact hd
  exact h.goneMove (a := s.queues) hdue (.inl rfl) hq (.inl rfl) fun _ _ => rfl

omit [DecidableEq ι] [Fintype ι] in
/-- What the server owes in the turns it owes in the service. -/
theorem Shadow.due (h : Shadow N s t) (hdue : Due t c) : s.server.pc.draining = false ∧ Due s c := by
  have hsrv := h.server
  unfold Due at hdue ⊢
  cases hsrv
  case draining hs ht hq hq' =>
    rw [hq', ht] at hdue
    rcases hdue with ⟨e, he, -⟩ | howes
    · cases he
    · cases howes
  case polling hs ht hq =>
    rw [ht] at hdue
    rw [hs, hq]
    exact ⟨rfl, hdue⟩
  case handling d hs ht hb hq =>
    rw [ht] at hdue
    rw [hs, hq]
    refine ⟨rfl, hdue.imp_right fun ⟨hd, hbyte⟩ => ⟨hd, ?_⟩⟩
    rwa [hb.1]
  case sending d q q' r hs ht hb hq hd =>
    rw [ht] at hdue
    rw [hs, hq]
    exact ⟨rfl, hdue⟩

omit [Fintype ι] in
/-- A client to whom the server owes nothing leaves. -/
theorem Shadow.step_leave (h : Shadow N s t) (hok : s.server.pc.draining = true ∨ ¬ Due s c) :
    Shadow N (signalHandler N.name s c) t := by
  have hne : serverName ≠ N.name c := (N.name_ne_server c).symm
  have hgone : Gone N (signalHandler N.name s c) c := ⟨by simp [signalHandler], by simp [signalHandler]⟩
  have hnot : ¬ Due t c := by
    intro hdue
    obtain ⟨hdrain, hdue'⟩ := h.due hdue
    rcases hok with hok | hok
    · rw [hdrain] at hok
      cases hok
    · exact hok hdue'
  have hother : ∀ d, d ≠ c → (signalHandler N.name s c).clients d = s.clients d ∧
      (signalHandler N.name s c).queues (N.name d) = s.queues (N.name d) := fun d hd => by
    have hcd : N.name d ≠ N.name c := fun h => hd (N.name_injective h)
    simp [signalHandler, hd, hcd]
  refine ⟨h.server.frame rfl rfl (.inl ⟨by simp [signalHandler, hne], rfl⟩) fun d hl => ?_, h.given, h.clientNames,
    h.clientId, fun d => ?_⟩
  · by_cases hd : d = c
    · rw [hd]
      exact hgone
    · exact ⟨by rw [(hother d hd).1]; exact hl.1, by rw [(hother d hd).2]; exact hl.2⟩
  · by_cases hd : d = c
    · rw [hd]
      exact .gone hgone hnot
    · exact (h.client d).frame (hother d hd).1 (hother d hd).2 rfl rfl id

/-! ## Every run -/

theorem Shadow.step (hI : Inv N t) (hn : Fintype.card ι ≤ 100) (h : Shadow N s t) {a : Event ι} (hok : Undisturbed s a)
    (hans : Answerable N.name s a) (hs : nextEvent N.name s a = some s') : ∃ t', Inv N t' ∧ Shadow N s' t' := by
  rcases a with (⟨rand, stack⟩ | c) | c | c
  · exact h.step_server hI hn hok hs
  · exact h.step_client hI hn hans hs
  · simp only [nextEvent, Option.ite_none_right_eq_some, Option.some.injEq] at hs
    obtain ⟨⟨hpc, hq⟩, rfl⟩ := hs
    exact ⟨t, hI, h.step_refused hI hpc hq⟩
  · simp only [nextEvent] at hs
    split at hs
    · cases hs
    · cases hs
      exact ⟨t, hI, h.step_leave hok⟩

theorem reachable_shadow (hn : Fintype.card ι ≤ 100)
    (h : (departures N.name).ReachableIf (fun s a => Undisturbed s a ∧ Answerable N.name s a) s) :
    ∃ t, Inv N t ∧ Shadow N s t := by
  refine h.invariant (I := fun s => ∃ t, Inv N t ∧ Shadow N s t) (fun s h0 => ?_) fun s a s' _ hI hok hs => ?_
  · obtain ⟨t, ht, hst⟩ := started_shadow h0
    exact ⟨t, init_inv ht, hst⟩
  · obtain ⟨t, hI, hst⟩ := hI
    exact hst.step hI hn hok.1 hok.2 hs

/-- The server stays in its loops. -/
theorem reachable_running (hn : Fintype.card ι ≤ 100)
    (h : (departures N.name).ReachableIf (fun s a => Undisturbed s a ∧ Answerable N.name s a) s) :
    s.server.pc ≠ .exited := by
  obtain ⟨t, -, hst⟩ := reachable_shadow hn h
  exact hst.server.running

end Shadow

end Sysopy.PrimeQueue.Posix
