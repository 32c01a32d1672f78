/-
The turns of the POSIX prime service when there are at most ten clients: as long as every client has one
message, a client that sends finds at most nine messages in the server's queue, so that no send fails and
every client keeps its one message.
-/
import Sysopy.Conc.Registry
import Sysopy.Conc.Turn
import Sysopy.PrimeQueue.Posix

namespace Sysopy.PrimeQueue.Posix

open Sysopy.Conc Sysopy.CText

variable {ι : Type*}

/-! ## The phases of a client -/

/-- A message from the client with queue `name` and id `k`; the history is the id it was given. -/
inductive FromClient (name : List Char) (k : ℤ) : Option ℤ → List Char → Prop
  | registration : FromClient name k none ('\x01' :: name)
  | request : FromClient name k (some k) ('\x02' :: printInt k)
  | report (n : ℤ) (hn : InInt n) : FromClient name k (some k) ('\x03' :: printTriple ',' k n (isPrime n))

/-- The string of a message to the client whose `client_id` is `k`. -/
inductive ToClient (k : ℤ) : Option ℤ → List Char → Prop
  | id (i : ℤ) : ToClient k (some i) ('\x01' :: printInt i)
  | number (n : ℤ) (hn : InInt n) : ToClient k (some k) ('\x02' :: printInt n)
  | ack (value : List Char) (hv : '\x00' ∉ value) : ToClient k (some k) ('\x03' :: value)

def ClientPc.stage : ClientPc → Stage
  | .start | .exited => .fresh
  | .register => .ready
  | .poll => .idle
  | .handle | .send => .busy

/-- The turns of a client with queue `name`: what its message says in each place. -/
def turns (name : List Char) : Turns (List Char) (Option (Option (List Char) × Reply) × Buffer) Client (Option ℤ) where
  stage v := v.pc.stage
  fresh v h := v.pc = .start ∧ h = none
  ready v h := cString v.buf = '\x01' :: name ∧ h = none
  queued v h m := FromClient name v.clientId h m
  served v h
    | (none, b) => FromClient name v.clientId h b
    | (some (q, _), b) => q = some name ∧ ToClient v.clientId h (cString b)
  own v h m := ∃ s, m = s ++ ['\x00'] ∧ ToClient v.clientId h s
  busy v h := v.pc = .handle ∧ ToClient v.clientId h (byte0 v.buf :: cString v.buf.tail) ∨
    v.pc = .send ∧ FromClient name v.clientId h (cString v.buf)

def view [DecidableEq ι] (N : Names ι) (s : State ι) (c : ι) :
    Holdings (List Char) (Option (Option (List Char) × Reply) × Buffer) Client (Option ℤ) :=
  ⟨inServerQueue s c, atServer s c, (s.queues (N.name c)).map (List.map Envelope.msg), s.clients c, idOf s.given c⟩

/-! What the tests on `buf[0]` find. -/

section Types

variable {name : List Char} {k : ℤ} {h : Option ℤ} {m : List Char}

theorem FromClient.byte0_one (hm : FromClient name k h m) (ht : byte0 m = '\x01') : m.tail = name ∧ h = none := by
  cases hm
  case registration => exact ⟨rfl, rfl⟩
  all_goals simp at ht

theorem FromClient.byte0_two (hm : FromClient name k h m) (ht : byte0 m = '\x02') :
    m.tail = printInt k ∧ h = some k := by
  cases hm
  case request => exact ⟨rfl, rfl⟩
  all_goals simp at ht

theorem FromClient.byte0_three (hm : FromClient name k h m) (ht : byte0 m = '\x03') :
    h = some k ∧ ∃ n, InInt n ∧ m.tail = printTriple ',' k n (isPrime n) := by
  cases hm
  case report n hn => exact ⟨rfl, n, hn, rfl⟩
  all_goals simp at ht

theorem FromClient.byte0 (hm : FromClient name k h m) : byte0 m = '\x01' ∨ byte0 m = '\x02' ∨ byte0 m = '\x03' := by
  cases hm
  · exact .inl rfl
  · exact .inr (.inl rfl)
  · exact .inr (.inr rfl)

end Types

/-- A message to a client is a byte and a string. -/
theorem ToClient.eq_cons {k : ℤ} {h : Option ℤ} {m : List Char} (hm : ToClient k h m) :
    ∃ t s, m = t :: s ∧ '\x00' ∉ s := by
  cases hm
  case id i => exact ⟨_, _, rfl, nul_not_mem_printInt i⟩
  case number n hn => exact ⟨_, _, rfl, nul_not_mem_printInt n⟩
  case ack value hv => exact ⟨_, _, rfl, hv⟩

/-- An empty queue of a client, seen through its view. -/
theorem queue_eq_nil [DecidableEq ι] {N : Names ι} {s : State ι} {c : ι} (h : (view N s c).own = some []) :
    s.queues (N.name c) = some [] := by
  simpa [view] using h

/-! ## The invariant -/

section Invariant

variable [DecidableEq ι] [Fintype ι] {N : Names ι} {s s' : State ι} {c d : ι}

/-- The client whose message the server handles or answers. -/
def ServerPc.sender : ServerPc ι → Option (Option ι)
  | .handle c => some c
  | .send c _ _ => some c
  | _ => none

/-- The server has chosen an id and not counted it yet. -/
def ServerPc.chosen : ServerPc ι → ℤ
  | .send _ _ .id => 1
  | _ => 0

structure Inv (N : Names ι) (s : State ι) : Prop where
  /-- The server's queue holds messages of clients only, and so does the server. -/
  serverQueue : ∃ l, s.queues serverName = some l ∧ ∀ e ∈ l, ∃ c, e.sender = some c
  sender : ∀ c ∈ s.server.pc.sender, ∃ c', c = some c'
  running : s.server.pc ≠ .drain ∧ s.server.pc ≠ .exited
  buf : s.server.pc = .poll → s.server.buf = []
  registry : Registry s.given (s.server.clientId + s.server.pc.chosen)
  /-- The ids lead to the queue of their client. -/
  table : ∀ c k, idOf s.given c = some k → s.server.clientNames k = N.name c
  phase : ∀ c, (turns (N.name c)).Phase (view N s c)

theorem init_inv (h : Init N false s) : Inv N s where
  serverQueue := ⟨[], h.serverQueue, by simp⟩
  sender := by simp [h.pc, ServerPc.sender]
  running := by simp [h.pc]
  buf _ := h.buf
  registry := by
    rw [h.given, h.clientId, h.pc]
    exact registry_nil
  table := by simp [h.given, idOf_nil]
  phase c := by
    have hpc := h.client c
    refine .fresh ?_ ⟨hpc, ?_⟩ ?_ ?_ ?_
    · simp [turns, view, hpc, ClientPc.stage]
    · simp [view, h.given, idOf_nil]
    · simp [view, inServerQueue, h.serverQueue]
    · simp [view, atServer, h.pc]
    · simp [view, h.clientQueue]

/-- A step that leaves the server's table alone and concerns one client. -/
theorem Inv.move (hI : Inv N s) (hq : ∃ l, s'.queues serverName = some l ∧ ∀ e ∈ l, ∃ c, e.sender = some c)
    (hsender : ∀ c ∈ s'.server.pc.sender, ∃ c', c = some c')
    (hrun : s'.server.pc ≠ .drain ∧ s'.server.pc ≠ .exited) (hbuf : s'.server.pc = .poll → s'.server.buf = [])
    (hids : s'.given = s.given) (htab : s'.server.clientNames = s.server.clientNames)
    (hid : s'.server.clientId + s'.server.pc.chosen = s.server.clientId + s.server.pc.chosen)
    (hother : ∀ d, d ≠ c → view N s' d = view N s d) (hphase : (turns (N.name c)).Phase (view N s' c)) : Inv N s' where
  serverQueue := hq
  sender := hsender
  running := hrun
  buf := hbuf
  registry := by rw [hids, hid]; exact hI.registry
  table := by rw [hids, htab]; exact hI.table
  phase d := by
    by_cases hd : d = c
    · rw [hd]; exact hphase
    · rw [hother d hd]; exact hI.phase d

/-! ## The server's steps -/

/-- The server takes a message: its buffer then holds just that message. -/
theorem Inv.serverTakes (hI : Inv N s) {e : Envelope ι (List Char)} {l : List (Envelope ι (List Char))}
    (hpc : s.server.pc = .poll) (hl : s.queues serverName = some (e :: l)) :
    Inv N { s with
      queues := Function.update s.queues serverName (some l)
      server := { s.server with pc := .handle e.sender, buf := overwrite e.msg s.server.buf } } := by
  obtain ⟨l', hl', hsend⟩ := hI.serverQueue
  obtain rfl : l' = e :: l := Option.some.inj (hl'.symm.trans hl)
  obtain ⟨c, hc⟩ := hsend e List.mem_cons_self
  have hmail : inServerQueue s c = e.msg :: mailOf l c := by
    simp only [inServerQueue, hl, Option.getD_some, mailOf_cons_self hc]
  obtain ⟨hs, hm, hq, hv, ho⟩ := (hI.phase c).of_queued (m := e.msg) (by simp [view, hmail])
  rw [hI.buf hpc, overwrite_nil]
  refine hI.move (c := c) ⟨l, by simp, fun e' he' => hsend e' (List.mem_cons_of_mem _ he')⟩ ?_ (by simp)
    (by simp) rfl rfl ?_ (fun d hd => Holdings.ext ?_ ?_ ?_ rfl rfl) (.served (none, e.msg) hs hm ?_ ?_ ?_)
  · simp [ServerPc.sender, hc]
  · simp [ServerPc.chosen, hpc]
  · simp [view, inServerQueue, hl, mailOf_cons_of_ne hc hd]
  · simp [view, atServer, hpc, hc, Ne.symm hd]
  · simp [view, N.name_ne_server]
  · have hnil : mailOf l c = [] := by simpa [view, hmail] using hq
    simp [view, inServerQueue, hnil]
  · simp [view, atServer, hc]
  · simpa [view, N.name_ne_server] using ho

/-- The server chooses the next id for a registration. -/
theorem Inv.giveId (hI : Inv N s) (hpc : s.server.pc = .handle (some c))
    (hs : (turns (N.name c)).stage (s.clients c) = .idle) (hq : inServerQueue s c = [])
    (ho : (view N s c).own = some []) (hid : idOf s.given c = none) (hval : s.server.buf.tail = N.name c) :
    Inv N (giveId s (some c)) := by
  have hname : cString s.server.buf.tail = N.name c := by rw [hval, cString_eq_self (N.nul_not_mem c)]
  have hopen : mqOpen s.queues (N.name c) = some (N.name c) := by simp [mqOpen, queue_eq_nil ho]
  have hids : idOf (Posix.giveId s (some c)).given = Function.update (idOf s.given) c (some s.server.clientId) :=
    idOf_append hid _
  have hreg : Registry s.given s.server.clientId := by simpa [hpc, ServerPc.chosen] using hI.registry
  refine ⟨hI.serverQueue, by simp [Posix.giveId, ServerPc.sender], by simp [Posix.giveId], by simp [Posix.giveId],
    hreg.give hid, fun d k hk => ?_, fun d => ?_⟩
  · simp only [Posix.giveId, hname]
    exact hreg.table_give hid hI.table d k hk
  · by_cases hd : d = c
    · subst hd
      refine .served (some (some (N.name d), .id), strcpy1 (printInt s.server.clientId) (setByte0 '\x01' s.server.buf))
        hs ⟨rfl, ?_⟩ hq ?_ ho
      · rw [cString_strcpy1_setByte0 (by decide) (nul_not_mem_printInt _), view, hids, Function.update_self]
        exact .id _
      · simp [view, Posix.giveId, atServer, hname, hopen]
    · have hv' : view N (Posix.giveId s (some c)) d = view N s d := by
        refine Holdings.ext rfl ?_ rfl rfl ?_
        · simp [view, atServer, Posix.giveId, hpc, Ne.symm hd]
        · simp only [view, hids, Function.update_of_ne hd]
      rw [hv']
      exact hI.phase d

/-- The server draws a number for a request. -/
theorem Inv.drawNumber (hI : Inv N s) (hn : Fintype.card ι ≤ 100) (rand : Rand)
    (hpc : s.server.pc = .handle (some c)) (hs : (turns (N.name c)).stage (s.clients c) = .idle)
    (hq : inServerQueue s c = []) (ho : (view N s c).own = some [])
    (hid : idOf s.given c = some (s.clients c).clientId) (hval : s.server.buf.tail = printInt (s.clients c).clientId) :
    Inv N (drawNumber s (some c) rand) := by
  have hk := hI.registry.lt_card hid
  have hatoi : atoi (cString s.server.buf.tail) = (s.clients c).clientId := by
    rw [hval, cString_eq_self (nul_not_mem_printInt _), atoi_printInt ⟨by omega, by omega⟩]
  have hname : s.server.clientNames (s.clients c).clientId = N.name c := hI.table c _ hid
  have hopen : mqOpen s.queues (N.name c) = some (N.name c) := by simp [mqOpen, queue_eq_nil ho]
  have hrand := rand.isLt
  refine hI.move (c := c) hI.serverQueue ?_ ?_ ?_ rfl rfl ?_ (fun d hd => Holdings.ext rfl ?_ rfl rfl rfl)
    (.served (some (some (N.name c), .number), setByte0 '\x02' (strcpy1 (printInt rand.val) s.server.buf)) hs
      ⟨rfl, ?_⟩ hq ?_ ho)
  · simp [Posix.drawNumber, ServerPc.sender]
  · simp [Posix.drawNumber]
  · simp [Posix.drawNumber]
  · simp [Posix.drawNumber, hpc, ServerPc.chosen]
  · simp [view, atServer, Posix.drawNumber, hpc, Ne.symm hd]
  · have hid' : (view N (Posix.drawNumber s (some c) rand) c).history = some (s.clients c).clientId := hid
    rw [cString_setByte0_strcpy1 (by decide) (nul_not_mem_printInt _), hid']
    exact .number _ ⟨by omega, by omega⟩
  · simp [view, Posix.drawNumber, atServer, hatoi, hname, hopen]

/-- The server acknowledges a report. -/
theorem Inv.acknowledge (hI : Inv N s) (hn : Fintype.card ι ≤ 100) (stack : ℤ × ℤ × ℤ)
    (hpc : s.server.pc = .handle (some c)) (hs : (turns (N.name c)).stage (s.clients c) = .idle)
    (hq : inServerQueue s c = []) (ho : (view N s c).own = some [])
    (hid : idOf s.given c = some (s.clients c).clientId) {n : ℤ} (hnum : InInt n)
    (hval : s.server.buf.tail = printTriple ',' (s.clients c).clientId n (isPrime n)) :
    Inv N (acknowledge s (some c) stack) := by
  have hk := hI.registry.lt_card hid
  have hscan : scanTriple ',' (cString s.server.buf.tail) stack = ((s.clients c).clientId, n, isPrime n) := by
    rw [hval, cString_eq_self (nul_not_mem_printTriple (by decide) _ _ _),
      scanTriple_printTriple (by decide) ⟨by omega, by omega⟩ hnum (isPrime_inInt n)]
  have hname : s.server.clientNames (s.clients c).clientId = N.name c := hI.table c _ hid
  have hopen : mqOpen s.queues (N.name c) = some (N.name c) := by simp [mqOpen, queue_eq_nil ho]
  refine hI.move (c := c) hI.serverQueue ?_ ?_ ?_ rfl rfl ?_ (fun d hd => Holdings.ext rfl ?_ rfl rfl rfl)
    (.served (some (some (N.name c), .ack), setByte0 '\x03' s.server.buf) hs ⟨rfl, ?_⟩ hq ?_ ho)
  · simp [Posix.acknowledge, ServerPc.sender]
  · simp [Posix.acknowledge]
  · simp [Posix.acknowledge]
  · simp [Posix.acknowledge, hpc, ServerPc.chosen]
  · simp [view, atServer, Posix.acknowledge, hpc, Ne.symm hd]
  · have hid' : (view N (Posix.acknowledge s (some c) stack) c).history = some (s.clients c).clientId := hid
    rw [cString_setByte0 (by decide), hid']
    exact .ack _ (not_mem_cString _)
  · simp [view, Posix.acknowledge, atServer, hscan, hname, hopen]

/-- The server handles a message. -/
theorem Inv.serverHandles (hI : Inv N s) (hn : Fintype.card ι ≤ 100) {sender : Option ι} (rand : Rand)
    (stack : ℤ × ℤ × ℤ) (hpc : s.server.pc = .handle sender) : Inv N (handleServer s sender rand stack) := by
  obtain ⟨c, rfl⟩ := hI.sender sender (by simp [hpc, ServerPc.sender])
  obtain ⟨hs, hm, hq, ho⟩ := (hI.phase c).of_served (x := (none, s.server.buf)) (by simp [view, atServer, hpc])
  replace hm : FromClient (N.name c) (s.clients c).clientId (idOf s.given c) s.server.buf := hm
  unfold handleServer
  split_ifs with h1 h2 h3
  · obtain ⟨hval, hid⟩ := hm.byte0_one h1
    exact hI.giveId hpc hs hq ho hid hval
  · obtain ⟨hval, hid⟩ := hm.byte0_two h2
    exact hI.drawNumber hn rand hpc hs hq ho hid hval
  · obtain ⟨hid, n, hnum, hval⟩ := hm.byte0_three h3
    exact hI.acknowledge hn stack hpc hs hq ho hid hnum hval
  · have := hm.byte0
    tauto

/-- The server delivers an answer: the client's queue is empty, so the send succeeds. -/
theorem Inv.serverSends (hI : Inv N s) {sender : Option ι} {q : Option (List Char)} {r : Reply}
    (hpc : s.server.pc = .send sender q r) : Inv N (answer s q r) := by
  obtain ⟨c, rfl⟩ := hI.sender sender (by simp [hpc, ServerPc.sender])
  obtain ⟨hs, ⟨rfl, hm⟩, hq, ho⟩ :=
    (hI.phase c).of_served (x := (some (q, r), s.server.buf)) (by simp [view, atServer, hpc])
  have hne : serverName ≠ N.name c := (N.name_ne_server c).symm
  have hsend := mqSend_of_lt (queue_eq_nil ho) (by simp [mqMaxmsg]) ⟨none, cString s.server.buf ++ ['\x00']⟩
  simp only [answer, hsend]
  refine hI.move (c := c) ?_ (by simp [ServerPc.sender]) (by simp) (by simp) rfl rfl ?_
    (fun d hd => Holdings.ext ?_ ?_ ?_ rfl rfl) (.own (cString s.server.buf ++ ['\x00']) hs ⟨_, rfl, hm⟩ ?_ rfl ?_)
  · obtain ⟨l, hl, hs⟩ := hI.serverQueue
    exact ⟨l, by simpa [hne] using hl, hs⟩
  · cases r <;> simp [hpc, ServerPc.chosen]
  · simp [view, inServerQueue, hne]
  · simp [view, atServer, hpc, Ne.symm hd]
  · have hcd : N.name d ≠ N.name c := fun h => hd (N.name_injective h)
    simp [view, hcd]
  · simpa [view, inServerQueue, hne] using hq
  · simp [view]

/-- The server finds its queue empty. -/
theorem Inv.serverIdles (hI : Inv N s) (hpc : s.server.pc = .poll) :
    Inv N { s with server := { s.server with buf := [] } } := by
  refine ⟨hI.serverQueue, hI.sender, hI.running, fun _ => rfl, hI.registry, hI.table, fun c => ?_⟩
  have hv : view N { s with server := { s.server with buf := [] } } c = view N s c :=
    Holdings.ext rfl (by simp [view, atServer, hpc]) rfl rfl rfl
  rw [hv]
  exact hI.phase c

/-! ## The clients' steps -/

/-- A step of one client: the server's queue gains at most a message of that client, and no other queue
of a client changes. -/
theorem Inv.clientMove (hI : Inv N s) {qs : Queues ι} {v : Client} (new : List (Envelope ι (List Char)))
    (hnew : ∀ e ∈ new, e.sender = some c)
    (hserver : ∀ l, s.queues serverName = some l → qs serverName = some (l ++ new))
    (hown : ∀ d, d ≠ c → qs (N.name d) = s.queues (N.name d))
    (hphase : (turns (N.name c)).Phase (view N { s with queues := qs, clients := Function.update s.clients c v } c)) :
    Inv N { s with queues := qs, clients := Function.update s.clients c v } := by
  obtain ⟨l, hl, hs⟩ := hI.serverQueue
  refine hI.move (c := c) ⟨_, hserver l hl, fun e he => ?_⟩ hI.sender hI.running hI.buf rfl rfl rfl (fun d hd => ?_)
    hphase
  · rcases List.mem_append.1 he with he | he
    · exact hs e he
    · exact ⟨c, hnew e he⟩
  · refine Holdings.ext ?_ rfl ?_ (Function.update_of_ne hd ..) rfl
    · simp [view, inServerQueue, hserver l hl, hl, mailOf_eq_nil hnew hd]
    · simp only [view, hown d hd]

/-- A client creates its queue and prepares its registration. -/
theorem Inv.clientStarts (hI : Inv N s) (hpc : (s.clients c).pc = .start) :
    Inv N { s with
      queues := Function.update s.queues (N.name c) (some ((s.queues (N.name c)).getD []))
      clients := Function.update s.clients c
        { s.clients c with pc := .register, buf := strcpy1 (N.name c) (setByte0 '\x01' (s.clients c).buf) } } := by
  have hp := hI.phase c
  obtain ⟨⟨-, hh⟩, hq, hv⟩ := hp.of_fresh (by simp [turns, view, hpc, ClientPc.stage])
  have hnone : s.queues (N.name c) = none := by
    cases hp
    case fresh ho => simpa [view] using ho
    all_goals simp_all [turns, view, ClientPc.stage]
  have hne : serverName ≠ N.name c := (N.name_ne_server c).symm
  refine hI.clientMove [] (by simp) (fun l hl => ?_) (fun d hd => ?_) (.ready ?_ ⟨?_, hh⟩ ?_ hv ?_)
  · rw [Function.update_of_ne hne, hl, List.append_nil]
  · exact Function.update_of_ne (fun h => hd (N.name_injective h)) ..
  · simp [turns, view, ClientPc.stage]
  · simp [view, cString_strcpy1_setByte0 (show '\x01' ≠ '\x00' by decide) (N.nul_not_mem c)]
  · simpa [view, inServerQueue, hne] using hq
  · simp [view, hnone]

/-- With at most ten clients the server's queue has room for the message of a client that has none in it. -/
theorem Inv.room (hI : Inv N s) (hn : Fintype.card ι ≤ 10) (hq : inServerQueue s c = [])
    (e : Envelope ι (List Char)) : mqSend s.queues (some serverName) e ≠ none := by
  obtain ⟨l, hl, hs⟩ := hI.serverQueue
  have hmail : ∀ d, inServerQueue s d = mailOf l d := fun d => by simp [inServerQueue, hl]
  have hlt : l.length < Fintype.card ι :=
    length_lt_card hs (fun d => hmail d ▸ (hI.phase d).length_queued) (hmail c ▸ hq)
  rw [mqSend_of_lt hl (by unfold mqMaxmsg; omega)]
  exact Option.some_ne_none _

/-- A client's send, with the buffer it leaves behind. -/
theorem Inv.clientSends (hI : Inv N s) {l : List (Envelope ι (List Char))} (hl : s.queues serverName = some l)
    (hm : FromClient (N.name c) (s.clients c).clientId (idOf s.given c) (cString (s.clients c).buf))
    (hq : inServerQueue s c = []) (hv : atServer s c = none) (ho : (view N s c).own = some []) (b : Buffer) :
    Inv N { s with
      queues := Function.update s.queues serverName (some (l ++ [⟨some c, cString (s.clients c).buf⟩]))
      clients := Function.update s.clients c { s.clients c with pc := .poll, buf := b } } := by
  refine hI.clientMove [⟨some c, cString (s.clients c).buf⟩] (by simp) (fun l' hl' => ?_) (fun d hd => ?_)
    (.queued (cString (s.clients c).buf) ?_ ?_ ?_ hv ?_)
  · obtain rfl : l' = l := Option.some.inj (hl'.symm.trans hl)
    simp
  · exact Function.update_of_ne (N.name_ne_server d) ..
  · simp [turns, view, ClientPc.stage]
  · simpa [turns, view] using hm
  · have hnil : mailOf l c = [] := by simpa [inServerQueue, hl] using hq
    simp [view, inServerQueue, hnil, mailOf_cons_self]
  · simpa [view, N.name_ne_server] using ho

/-- A client takes the message in its queue. -/
theorem Inv.clientTakes (hI : Inv N s) {e : Envelope ι (List Char)} {l : List (Envelope ι (List Char))}
    (hl : s.queues (N.name c) = some (e :: l)) :
    Inv N { s with
      queues := Function.update s.queues (N.name c) (some l)
      clients := Function.update s.clients c
        { s.clients c with pc := .handle, buf := overwrite e.msg (s.clients c).buf } } := by
  obtain ⟨-, ⟨m, he, hm⟩, hnil, hq, hv⟩ :=
    (hI.phase c).of_own (m := e.msg) (l := l.map Envelope.msg) (by simp [view, hl])
  obtain rfl : l = [] := by simpa using hnil
  obtain ⟨t, v, rfl, hnul⟩ := hm.eq_cons
  have hne : serverName ≠ N.name c := (N.name_ne_server c).symm
  refine hI.clientMove [] (by simp) (fun l hl => ?_) (fun d hd => ?_) (.busy ?_ (.inl ⟨?_, ?_⟩) ?_ hv ?_)
  · rw [Function.update_of_ne hne, hl, List.append_nil]
  · exact Function.update_of_ne (fun h => hd (N.name_injective h)) ..
  · simp [turns, view, ClientPc.stage]
  · simp [view]
  · simp only [view, Function.update_self, he, split_overwrite hnul]
    exact hm
  · simpa [view, inServerQueue, hne] using hq
  · simp [view]

/-- What a client makes of the server's message: the next message to the server. -/
theorem handleClient_spec {v : Client} (name : List Char) {h : Option ℤ}
    (hm : ToClient v.clientId h (byte0 v.buf :: cString v.buf.tail)) (hid : ∀ k, h = some k → InInt k) :
    (handleClient v).pc = .send ∧ FromClient name (handleClient v).clientId h (cString (handleClient v).buf) := by
  generalize ht : byte0 v.buf = t at hm
  generalize hs : cString v.buf.tail = str at hm
  cases hm
  case id i =>
    have hi : atoi (printInt i) = i := atoi_printInt (hid i rfl)
    simp only [handleClient, ht, if_true, hs, hi, cString_setByte0 (show '\x02' ≠ '\x00' by decide)]
    exact ⟨trivial, .request⟩
  case number n hn =>
    have hlen : (printTriple ',' v.clientId n (isPrime n)).length ≤ 31 :=
      (length_printTriple_le ',' (hid _ rfl) hn (isPrime_eq n)).trans (by decide)
    simp only [handleClient, ht, if_true, hs, atoi_printInt hn, show ¬ '\x02' = '\x01' by decide, if_false,
      List.take_of_length_le hlen,
      cString_setByte0_strcpy1 (show '\x03' ≠ '\x00' by decide)
        (nul_not_mem_printTriple (show ',' ≠ '\x00' by decide) _ _ _)]
    exact ⟨trivial, .report n hn⟩
  case ack hv =>
    simp only [handleClient, ht, if_true, show ¬ '\x03' = '\x01' by decide, show ¬ '\x03' = '\x02' by decide, if_false,
      cString_setByte0_strcpy1 (show '\x02' ≠ '\x00' by decide) (nul_not_mem_printInt _)]
    exact ⟨trivial, .request⟩

/-- A client handles the server's message. -/
theorem Inv.clientHandles (hI : Inv N s) (hn : Fintype.card ι ≤ 100) (hpc : (s.clients c).pc = .handle) :
    Inv N { s with clients := Function.update s.clients c (handleClient (s.clients c)) } := by
  obtain ⟨⟨-, hm⟩ | ⟨h, -⟩, hq, hv, ho⟩ := (hI.phase c).of_busy (by simp [turns, view, hpc, ClientPc.stage])
  · have hid : ∀ k, idOf s.given c = some k → InInt k := fun k hk => by
      have := hI.registry.lt_card hk
      exact ⟨by omega, by omega⟩
    obtain ⟨hpc', hm'⟩ := handleClient_spec (v := s.clients c) (N.name c) hm hid
    refine hI.clientMove [] (by simp) (fun l hl => by rw [hl, List.append_nil]) (fun d _ => rfl)
      (.busy ?_ (.inr ?_) hq hv ho)
    · simp [turns, view, hpc', ClientPc.stage]
    · simpa [view] using ⟨hpc', hm'⟩
  · exact absurd (hpc.symm.trans h) (by decide)

/-- A client finds its queue empty. -/
theorem Inv.clientIdles (hI : Inv N s) (hpc : (s.clients c).pc = .poll) :
    Inv N { s with clients := Function.update s.clients c { s.clients c with buf := [] } } := by
  have hstage : (turns (N.name c)).stage (view N s c).client = .idle := by simp [turns, view, hpc, ClientPc.stage]
  refine hI.clientMove [] (by simp) (fun l hl => by rw [hl, List.append_nil]) (fun d _ => rfl) ?_
  have hs : (turns (N.name c)).stage (Function.update s.clients c { s.clients c with buf := [] } c) = .idle := by
    simp [turns, hpc, ClientPc.stage]
  -- without a message the client's buffer does not matter
  cases hI.phase c
  case queued m _ h hq hv ho => exact .queued m hs (by simpa [turns, view] using h) hq hv ho
  case served x _ h hq hv ho =>
    refine .served x hs ?_ hq hv ho
    rcases x with ⟨_ | ⟨q, r⟩, b⟩ <;> simpa [turns, view] using h
  case own m _ h hq hv ho => exact .own m hs (by simpa [turns, view] using h) hq hv ho
  all_goals
    rename_i h _ _ _ _
    exact absurd (h.symm.trans hstage) (by decide)

/-! ## Every run -/

/-- What a client is about to send, and that it has no other message. -/
theorem Inv.sending (hI : Inv N s) (hpc : (s.clients c).pc = .register ∨ (s.clients c).pc = .send) :
    FromClient (N.name c) (s.clients c).clientId (idOf s.given c) (cString (s.clients c).buf) ∧
      inServerQueue s c = [] ∧ atServer s c = none ∧ (view N s c).own = some [] := by
  rcases hpc with hpc | hpc
  · obtain ⟨⟨hb, hh⟩, h⟩ := (hI.phase c).of_ready (by simp [turns, view, hpc, ClientPc.stage])
    replace hb : cString (s.clients c).buf = '\x01' :: N.name c := hb
    replace hh : idOf s.given c = none := hh
    refine ⟨?_, h⟩
    rw [hb, hh]
    exact .registration
  · obtain ⟨⟨h, -⟩ | ⟨-, h⟩, h'⟩ := (hI.phase c).of_busy (by simp [turns, view, hpc, ClientPc.stage])
    · exact absurd (hpc.symm.trans h) (by decide)
    · exact ⟨h, h'⟩

theorem inv_step (hn : Fintype.card ι ≤ 10) (a : Label ι) (hI : Inv N s) (h : (system N false).next s a = some s') :
    Inv N s' := by
  have hn' : Fintype.card ι ≤ 100 := hn.trans (by decide)
  cases a with
  | server rand stack =>
    rcases server_cases h with ⟨e, l, hpc, -⟩ | ⟨hpc, -⟩ | ⟨e, l, hpc, hl, rfl⟩ | ⟨hpc, -, rfl⟩ | ⟨sender, hpc, rfl⟩ |
      ⟨sender, q, r, hpc, rfl⟩
    · exact absurd hpc hI.running.1
    · exact absurd hpc hI.running.1
    · exact hI.serverTakes hpc hl
    · exact hI.serverIdles hpc
    · exact hI.serverHandles hn' rand stack hpc
    · exact hI.serverSends hpc
  | client c =>
    rcases clientOf_cases h with ⟨hpc, rfl⟩ | ⟨l, b, hpc, hl, -, rfl⟩ | ⟨pc, b, hpc, hfull, -⟩ | ⟨e, l, -, hl, rfl⟩ |
      ⟨hpc, -, rfl⟩ | ⟨hpc, rfl⟩
    · exact hI.clientStarts hpc
    · obtain ⟨hm, hq, hv, ho⟩ := hI.sending hpc
      exact hI.clientSends hl hm hq hv ho b
    · obtain ⟨-, hq, -⟩ := hI.sending (hpc.imp And.left And.left)
      exact absurd hfull (hI.room hn hq _)
    · exact hI.clientTakes hl
    · exact hI.clientIdles hpc
    · exact hI.clientHandles hn' hpc

theorem reachable_inv (hn : Fintype.card ι ≤ 10) (h : (system N false).Reachable s) : Inv N s :=
  h.invariant (I := Inv N) (fun _ => init_inv) fun _ a _ _ hI hs => inv_step hn a hI hs

/-- With at most ten clients every registered client has one message. -/
theorem messageCount_eq_one (hn : Fintype.card ι ≤ 10) (h : (system N false).Reachable s) (hc : Registered s c) :
    messageCount N s c = 1 := by
  have hp := (reachable_inv hn h).phase c
  have hstage : (turns (N.name c)).stage (view N s c).client = .idle ∨
      (turns (N.name c)).stage (view N s c).client = .busy := by
    rcases hc with hc | hc | hc <;> simp [turns, view, hc, ClientPc.stage]
  have hown : (inOwnQueue N s c).length = ((view N s c).own.getD []).length := by
    simp only [view, inOwnQueue]
    cases s.queues (N.name c) <;> simp
  have hclient : (atClient s c).toList.length =
      if (turns (N.name c)).stage (view N s c).client = .busy then 1 else 0 := by
    cases h : (s.clients c).pc <;> simp [view, atClient, turns, h, ClientPc.stage]
  have hcount : messageCount N s c = (turns (N.name c)).count (view N s c) := by
    unfold messageCount Turns.count
    rw [hown, hclient]
    rfl
  rw [hcount]
  refine hp.count ?_ ?_ <;> rcases hstage with h | h <;> rw [h] <;> decide

end Invariant

end Sysopy.PrimeQueue.Posix
