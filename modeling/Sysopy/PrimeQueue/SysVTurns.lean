/-
The turns of the System V prime service: every client goes through one cycle of phases with exactly one
message (registration, id, then request, number, report, acknowledgement), and what its message says
follows from the phase. The server's table and its last branch are right because of that.
-/
import Sysopy.Conc.Registry
import Sysopy.Conc.Turn
import Sysopy.PrimeQueue.SysV

namespace Sysopy.PrimeQueue.SysV

open Sysopy.Conc Sysopy.CText

variable {ι : Type*}

/-! ## What the system holds about one client -/

/-- The history of a client: its id, the numbers sent to its queue and its reports. -/
@[ext] structure Dialog where
  id : Option ℤ
  sent : List ℤ
  reports : List (ℤ × ℤ × ℤ)

/-- The history once a reply is delivered. -/
def Dialog.after (h : Dialog) : Reply → Dialog
  | .number n => { h with sent := h.sent ++ [n] }
  | _ => h

def dialog [DecidableEq ι] (I : Ids ι) (s : State ι) (c : ι) : Dialog :=
  ⟨idOf s.given c, s.sent (I.client c), reportsOf s c⟩

def view [DecidableEq ι] (I : Ids ι) (s : State ι) (c : ι) :
    Holdings Message (Option (ℤ × Reply) × Message) Client Dialog :=
  ⟨inServerQueue I s c, atServer s c, (s.queues (I.client c)).map (List.map Envelope.msg), s.clients c, dialog I s c⟩

/-! ## The phases of a client -/

/-- A message from the client with queue `q` and id `k`, after that history. -/
inductive FromClient (q k : ℤ) : Dialog → Message → Prop
  | registration : FromClient q k ⟨none, [], []⟩ ⟨1, printInt q⟩
  | request (l : List (ℤ × ℤ × ℤ)) : FromClient q k ⟨some k, l.map fun r => r.2.1, l⟩ ⟨2, printInt k⟩
  | report (l : List (ℤ × ℤ × ℤ)) (n : ℤ) (hn : InInt n) :
    FromClient q k ⟨some k, (l.map fun r => r.2.1) ++ [n], l⟩ ⟨3, printTriple ' ' k n (isPrime n)⟩

/-- A message to the client whose `client_id` is `k`, after that history. -/
inductive ToClient (k : ℤ) : Dialog → Message → Prop
  | id (i : ℤ) : ToClient k ⟨some i, [], []⟩ ⟨1, printInt i⟩
  | number (l : List (ℤ × ℤ × ℤ)) (n : ℤ) (hn : InInt n) :
    ToClient k ⟨some k, (l.map fun r => r.2.1) ++ [n], l⟩ ⟨2, printInt n⟩
  | ack (l : List (ℤ × ℤ × ℤ)) (value : List Char) : ToClient k ⟨some k, l.map fun r => r.2.1, l⟩ ⟨3, value⟩

/-- A reply the server is about to send, after the history so far. -/
inductive Answer (k : ℤ) : Dialog → Reply → Message → Prop
  | id (i : ℤ) : Answer k ⟨some i, [], []⟩ .id ⟨1, printInt i⟩
  | number (l : List (ℤ × ℤ × ℤ)) (n : ℤ) (hn : InInt n) :
    Answer k ⟨some k, l.map fun r => r.2.1, l⟩ (.number n) ⟨2, printInt n⟩
  | ack (l : List (ℤ × ℤ × ℤ)) (value : List Char) : Answer k ⟨some k, l.map fun r => r.2.1, l⟩ .ack ⟨3, value⟩

theorem Answer.delivered {k : ℤ} {h : Dialog} {r : Reply} {m : Message} (hm : Answer k h r m) :
    ToClient k (h.after r) m := by
  cases hm
  case id i => exact .id i
  case number l n hn => exact .number l n hn
  case ack l value => exact .ack l value

def ClientPc.stage : ClientPc → Stage
  | .start | .exited => .fresh
  | .register => .ready
  | .poll => .idle
  | .handle | .send => .busy

/-- The turns of a client with queue `q`: what its message says in each place. -/
def turns (q : ℤ) : Turns Message (Option (ℤ × Reply) × Message) Client Dialog where
  stage v := v.pc.stage
  fresh v h := v.pc = .start ∧ h = ⟨none, [], []⟩
  ready v h := v.buf = ⟨1, printInt q⟩ ∧ h = ⟨none, [], []⟩
  queued v h m := FromClient q v.clientId h m
  served v h
    | (none, m) => FromClient q v.clientId h m
    | (some (p, r), m) => p = q ∧ Answer v.clientId h r m
  own v h m := ToClient v.clientId h m
  busy v h := v.pc = .handle ∧ ToClient v.clientId h v.buf ∨
    v.pc = .send ∧ FromClient q v.clientId h v.buf ∧ h.id = some v.clientId

/-! What the tests on `buf.type` find. -/

section Types

variable {q k : ℤ} {h : Dialog} {m : Message}

theorem FromClient.type_one (hm : FromClient q k h m) (ht : m.type = 1) :
    m.value = printInt q ∧ h = ⟨none, [], []⟩ := by
  cases hm
  case registration => exact ⟨rfl, rfl⟩
  all_goals simp at ht

theorem FromClient.type_two (hm : FromClient q k h m) (ht : m.type = 2) :
    m.value = printInt k ∧ ∃ l, h = ⟨some k, l.map fun r => r.2.1, l⟩ := by
  cases hm
  case request l => exact ⟨rfl, l, rfl⟩
  all_goals simp at ht

theorem FromClient.type_three (hm : FromClient q k h m) (ht : m.type = 3) :
    ∃ l n, InInt n ∧ m.value = printTriple ' ' k n (isPrime n) ∧ h = ⟨some k, (l.map fun r => r.2.1) ++ [n], l⟩ := by
  cases hm
  case report l n hn => exact ⟨l, n, hn, rfl, rfl⟩
  all_goals simp at ht

theorem ToClient.type_one (hm : ToClient k h m) (ht : m.type = 1) : ∃ i, h.id = some i ∧ m.value = printInt i := by
  cases hm
  case id i => exact ⟨i, rfl, rfl⟩
  all_goals simp at ht

theorem FromClient.type (hm : FromClient q k h m) : m.type = 1 ∨ m.type = 2 ∨ m.type = 3 := by
  cases hm
  · exact .inl rfl
  · exact .inr (.inl rfl)
  · exact .inr (.inr rfl)

end Types

/-! In every phase the reports are about the first numbers sent. -/

theorem FromClient.reports_first {q k : ℤ} {h : Dialog} {m : Message} (hm : FromClient q k h m) :
    (h.reports.map fun r => r.2.1) <+: h.sent := by
  cases hm
  case registration => exact List.prefix_rfl
  case request l => exact List.prefix_rfl
  case report l n hn => exact List.prefix_append _ _

theorem ToClient.reports_first {k : ℤ} {h : Dialog} {m : Message} (hm : ToClient k h m) :
    (h.reports.map fun r => r.2.1) <+: h.sent := by
  cases hm
  case id i => exact List.prefix_rfl
  case number l n hn => exact List.prefix_append _ _
  case ack l value => exact List.prefix_rfl

theorem Answer.reports_first {k : ℤ} {h : Dialog} {r : Reply} {m : Message} (hm : Answer k h r m) :
    (h.reports.map fun r => r.2.1) <+: h.sent := by
  cases hm <;> exact List.prefix_rfl

/-- The numbers reported are the first ones of those sent, in their order. -/
theorem reports_first {q : ℤ} {v : Holdings Message (Option (ℤ × Reply) × Message) Client Dialog}
    (h : (turns q).Phase v) : (v.history.reports.map fun r => r.2.1) <+: v.history.sent := by
  cases h
  case fresh h _ _ _ =>
    rw [h.2]
    exact List.prefix_rfl
  case ready h _ _ _ =>
    rw [h.2]
    exact List.prefix_rfl
  case queued h _ _ _ => exact FromClient.reports_first h
  case served x _ h _ _ _ =>
    rcases x with ⟨_ | ⟨p, r⟩, m⟩
    · exact FromClient.reports_first h
    · exact Answer.reports_first h.2
  case own h _ _ _ => exact ToClient.reports_first h
  case busy h _ _ _ =>
    rcases h with ⟨-, h⟩ | ⟨-, h, -⟩
    · exact h.reports_first
    · exact h.reports_first

/-- An empty queue of a client, seen through its view. -/
theorem queue_eq_nil [DecidableEq ι] {I : Ids ι} {s : State ι} {c : ι} (h : (view I s c).own = some []) :
    s.queues (I.client c) = some [] := by
  simpa [view] using h

theorem messageCount_eq [DecidableEq ι] {I : Ids ι} {s : State ι} {c : ι} :
    messageCount I s c = (turns (I.client c)).count (view I s c) := by
  have hown : (inOwnQueue I s c).length = ((view I s c).own.getD []).length := by
    simp only [view, inOwnQueue]
    cases s.queues (I.client c) <;> simp
  have hclient : (atClient s c).toList.length =
      if (turns (I.client c)).stage (view I s c).client = .busy then 1 else 0 := by
    cases h : (s.clients c).pc <;> simp [view, atClient, turns, h, ClientPc.stage]
  unfold messageCount Turns.count
  rw [hown, hclient]
  rfl

/-! ## The invariant -/

section Invariant

variable [DecidableEq ι] [Fintype ι] {I : Ids ι} {cap : ℕ} {s s' : State ι} {c d : ι}

/-- The client whose message the server handles or answers. -/
def ServerPc.sender : ServerPc ι → Option (Option ι)
  | .handle c => some c
  | .send c _ _ => some c
  | _ => none

structure Inv (I : Ids ι) (s : State ι) : Prop where
  /-- The server's queue holds messages of clients only, and so does the server. -/
  serverQueue : ∃ l, s.queues I.server = some l ∧ ∀ e ∈ l, ∃ c, e.sender = some c
  sender : ∀ c ∈ s.server.pc.sender, ∃ c', c = some c'
  running : s.server.pc ≠ .exited
  registry : Registry s.given s.server.clientId
  /-- The ids lead to the queue of their client. -/
  table : ∀ c k, idOf s.given c = some k → s.server.clientQueues k = I.client c
  phase : ∀ c, (turns (I.client c)).Phase (view I s c)

theorem init_inv (h : Init I s) : Inv I s where
  serverQueue := ⟨[], h.serverQueue, by simp⟩
  sender := by simp [h.pc, ServerPc.sender]
  running := by simp [h.pc]
  registry := by rw [h.given, h.clientId]; exact registry_nil
  table := by simp [h.given, idOf_nil]
  phase c := by
    have hpc := h.client c
    refine .fresh ?_ ⟨hpc, ?_⟩ ?_ ?_ ?_
    · simp [turns, view, hpc, ClientPc.stage]
    · simp [view, dialog, reportsOf, h.given, idOf_nil, h.sent, h.reports]
    · simp [view, inServerQueue, h.serverQueue]
    · simp [view, atServer, h.pc]
    · simp [view, h.clientQueue]

/-- A step that leaves the server's table alone and concerns one client. -/
theorem Inv.move (hI : Inv I s) (hq : ∃ l, s'.queues I.server = some l ∧ ∀ e ∈ l, ∃ c, e.sender = some c)
    (hsender : ∀ c ∈ s'.server.pc.sender, ∃ c', c = some c') (hrun : s'.server.pc ≠ .exited)
    (hids : s'.given = s.given) (htab : s'.server.clientQueues = s.server.clientQueues)
    (hid : s'.server.clientId = s.server.clientId) (hother : ∀ d, d ≠ c → view I s' d = view I s d)
    (hphase : (turns (I.client c)).Phase (view I s' c)) : Inv I s' where
  serverQueue := hq
  sender := hsender
  running := hrun
  registry := by rw [hids, hid]; exact hI.registry
  table := by rw [hids, htab]; exact hI.table
  phase d := by
    by_cases hd : d = c
    · rw [hd]; exact hphase
    · rw [hother d hd]; exact hI.phase d

/-! ## The server's steps -/

/-- The server takes a message. -/
theorem Inv.serverTakes (hI : Inv I s) {e : Envelope ι Message} {l : List (Envelope ι Message)}
    (hpc : s.server.pc = .poll) (hl : s.queues I.server = some (e :: l)) :
    Inv I { s with
      queues := Function.update s.queues I.server (some l)
      server := { s.server with pc := .handle e.sender, buf := e.msg } } := by
  obtain ⟨l', hl', hsend⟩ := hI.serverQueue
  obtain rfl : l' = e :: l := Option.some.inj (hl'.symm.trans hl)
  obtain ⟨c, hc⟩ := hsend e List.mem_cons_self
  have hmail : inServerQueue I s c = e.msg :: mailOf l c := by
    simp only [inServerQueue, hl, Option.getD_some, mailOf_cons_self hc]
  obtain ⟨hs, hm, hq, hv, ho⟩ := (hI.phase c).of_queued (m := e.msg) (by simp [view, hmail])
  refine hI.move (c := c) ⟨l, Function.update_self .., fun e' he' => hsend e' (List.mem_cons_of_mem _ he')⟩ ?_ (by simp)
    rfl rfl rfl (fun d hd => ?_) (.served (none, e.msg) hs hm ?_ ?_ ?_)
  · simp [ServerPc.sender, hc]
  · have hd' : inServerQueue I s d = mailOf l d := by simp [inServerQueue, hl, mailOf_cons_of_ne hc hd]
    refine Holdings.ext ?_ ?_ ?_ rfl rfl
    · simp [view, inServerQueue, hl, mailOf_cons_of_ne hc hd]
    · simp [view, atServer, hpc, hc, Ne.symm hd]
    · simp [view, I.client_ne_server]
  · have hnil : mailOf l c = [] := by simpa [view, hmail] using hq
    simp [view, inServerQueue, hnil]
  · simp [view, atServer, hc]
  · simpa [view, I.client_ne_server] using ho

/-- The server gives the next id to a registration. -/
theorem Inv.giveId (hI : Inv I s) (hpc : s.server.pc = .handle (some c))
    (hs : (turns (I.client c)).stage (s.clients c) = .idle) (hq : inServerQueue I s c = [])
    (ho : (view I s c).own = some []) (hh : dialog I s c = ⟨none, [], []⟩)
    (hval : s.server.buf.value = printInt (I.client c)) : Inv I (giveId s (some c)) := by
  have hatoi : atoi s.server.buf.value = I.client c := by rw [hval, atoi_printInt (I.client_inInt c)]
  obtain ⟨hid, hsent, hrep⟩ : idOf s.given c = none ∧ s.sent (I.client c) = [] ∧ reportsOf s c = [] := by
    simpa [dialog] using hh
  have hids : idOf (SysV.giveId s (some c)).given = Function.update (idOf s.given) c (some s.server.clientId) :=
    idOf_append hid _
  refine ⟨hI.serverQueue, by simp [SysV.giveId, ServerPc.sender], by simp [SysV.giveId], hI.registry.give hid,
    fun d k hk => ?_, fun d => ?_⟩
  · simp only [SysV.giveId, hatoi]
    exact hI.registry.table_give hid hI.table d k hk
  · by_cases hd : d = c
    · subst hd
      have hh' : dialog I (SysV.giveId s (some d)) d = ⟨some s.server.clientId, [], []⟩ :=
        Dialog.ext (by simp only [dialog, hids, Function.update_self]) hsent hrep
      refine .served (some (I.client d, .id), ⟨1, printInt s.server.clientId⟩) hs ⟨rfl, ?_⟩ hq ?_ ho
      · rw [view, hh']
        exact .id _
      · simp [view, SysV.giveId, atServer, hatoi]
    · have hv' : view I (SysV.giveId s (some c)) d = view I s d := by
        refine Holdings.ext rfl ?_ rfl rfl (Dialog.ext ?_ rfl rfl)
        · simp [view, atServer, SysV.giveId, hpc, Ne.symm hd]
        · simp only [view, dialog, hids, Function.update_of_ne hd]
      rw [hv']
      exact hI.phase d

/-- The server draws a number for a request. -/
theorem Inv.drawNumber (hI : Inv I s) (hn : Fintype.card ι ≤ 100) {l : List (ℤ × ℤ × ℤ)} (rand : Rand)
    (hpc : s.server.pc = .handle (some c)) (hs : (turns (I.client c)).stage (s.clients c) = .idle)
    (hq : inServerQueue I s c = []) (ho : (view I s c).own = some [])
    (hh : dialog I s c = ⟨some (s.clients c).clientId, l.map fun r => r.2.1, l⟩)
    (hval : s.server.buf.value = printInt (s.clients c).clientId) : Inv I (drawNumber s (some c) rand) := by
  have hid : idOf s.given c = some (s.clients c).clientId := congrArg Dialog.id hh
  have hk := hI.registry.lt_card hid
  have hatoi : atoi s.server.buf.value = (s.clients c).clientId := by rw [hval, atoi_printInt ⟨by omega, by omega⟩]
  have hqueue : s.server.clientQueues (s.clients c).clientId = I.client c := hI.table c _ hid
  have hrand := rand.isLt
  refine hI.move (c := c) hI.serverQueue ?_ ?_ rfl rfl rfl (fun d hd => Holdings.ext rfl ?_ rfl rfl rfl)
    (.served (some (I.client c, .number rand.val), ⟨2, printInt rand.val⟩) hs ⟨rfl, ?_⟩ hq ?_ ho)
  · simp [SysV.drawNumber, ServerPc.sender]
  · simp [SysV.drawNumber]
  · simp [view, atServer, SysV.drawNumber, hpc, Ne.symm hd]
  · have hh' : dialog I (SysV.drawNumber s (some c) rand) c = dialog I s c := rfl
    rw [view, hh', hh]
    exact .number l _ ⟨by omega, by omega⟩
  · simp [view, SysV.drawNumber, atServer, hatoi, hqueue]

/-- What `sscanf` reads in a report. -/
theorem scan_report {k n : ℤ} (hk : InInt k) (hn : InInt n) {value : List Char}
    (hval : value = printTriple ' ' k n (isPrime n)) (stack : ℤ × ℤ × ℤ) :
    scanTriple ' ' value stack = (k, n, isPrime n) := by
  rw [hval, scanTriple_printTriple (by decide) hk hn (isPrime_inInt n)]

/-- The server acknowledges a report. -/
theorem Inv.acknowledge (hI : Inv I s) (hn : Fintype.card ι ≤ 100) {n : ℤ} {l : List (ℤ × ℤ × ℤ)}
    (stack : ℤ × ℤ × ℤ) (hpc : s.server.pc = .handle (some c)) (hnum : InInt n)
    (hs : (turns (I.client c)).stage (s.clients c) = .idle) (hq : inServerQueue I s c = [])
    (ho : (view I s c).own = some [])
    (hh : dialog I s c = ⟨some (s.clients c).clientId, (l.map fun r => r.2.1) ++ [n], l⟩)
    (hval : s.server.buf.value = printTriple ' ' (s.clients c).clientId n (isPrime n)) :
    Inv I (acknowledge s (some c) stack) := by
  obtain ⟨hid, hsent, hrep⟩ : idOf s.given c = some (s.clients c).clientId ∧
      s.sent (I.client c) = (l.map fun r => r.2.1) ++ [n] ∧ reportsOf s c = l := by simpa [dialog] using hh
  have hk := hI.registry.lt_card hid
  -- the report is read back as it was printed, so it is counted for the number sent last
  have hscan := scan_report ⟨by omega, by omega⟩ hnum hval stack
  have hqueue : s.server.clientQueues (s.clients c).clientId = I.client c := hI.table c _ hid
  refine hI.move (c := c) hI.serverQueue ?_ ?_ rfl rfl rfl (fun d hd => Holdings.ext rfl ?_ rfl rfl ?_)
    (.served (some (I.client c, .ack), ⟨3, s.server.buf.value⟩) hs ⟨rfl, ?_⟩ hq ?_ ho)
  · simp [SysV.acknowledge, ServerPc.sender]
  · simp [SysV.acknowledge]
  · simp [view, atServer, SysV.acknowledge, hpc, Ne.symm hd]
  · simp [view, dialog, reportsOf, SysV.acknowledge, Ne.symm hd, List.filter_append]
  · have hh' : dialog I (SysV.acknowledge s (some c) stack) c = ⟨some (s.clients c).clientId,
        (l ++ [((s.clients c).clientId, n, isPrime n)]).map fun r => r.2.1,
        l ++ [((s.clients c).clientId, n, isPrime n)]⟩ := by
      refine Dialog.ext hid ?_ ?_
      · rw [List.map_append]
        exact hsent
      · rw [← hrep]
        simp [dialog, reportsOf, SysV.acknowledge, hscan, List.filter_append]
    rw [view, hh']
    exact .ack _ _
  · simp [view, SysV.acknowledge, atServer, hscan, hqueue]

/-- The server handles a message. -/
theorem Inv.serverHandles (hI : Inv I s) (hn : Fintype.card ι ≤ 100) {sender : Option ι} (rand : Rand)
    (stack : ℤ × ℤ × ℤ) (hpc : s.server.pc = .handle sender) : Inv I (handleServer s sender rand stack) := by
  obtain ⟨c, rfl⟩ := hI.sender sender (by simp [hpc, ServerPc.sender])
  obtain ⟨hs, hm, hq, ho⟩ := (hI.phase c).of_served (x := (none, s.server.buf)) (by simp [view, atServer, hpc])
  replace hm : FromClient (I.client c) (s.clients c).clientId (dialog I s c) s.server.buf := hm
  unfold handleServer
  split_ifs with h1 h2 h3
  · obtain ⟨hval, hh⟩ := hm.type_one h1
    exact hI.giveId hpc hs hq ho hh hval
  · obtain ⟨hval, l, hh⟩ := hm.type_two h2
    exact hI.drawNumber hn rand hpc hs hq ho hh hval
  · obtain ⟨l, n, hnum, hval, hh⟩ := hm.type_three h3
    exact hI.acknowledge hn stack hpc hnum hs hq ho hh hval
  · have := hm.type
    omega

/-- The server delivers an answer. -/
theorem Inv.serverSends (hI : Inv I s) {sender : Option ι} {q : ℤ} {r : Reply} {l : List (Envelope ι Message)}
    (hpc : s.server.pc = .send sender q r) (hl : s.queues q = some l) :
    Inv I { s with
      queues := Function.update s.queues q (some (l ++ [⟨none, s.server.buf⟩]))
      server := { s.server with pc := .poll }
      sent := noteSent s.sent q r } := by
  obtain ⟨c, rfl⟩ := hI.sender sender (by simp [hpc, ServerPc.sender])
  obtain ⟨hs, ⟨rfl, hm⟩, hq, ho⟩ :=
    (hI.phase c).of_served (x := (some (q, r), s.server.buf)) (by simp [view, atServer, hpc])
  -- the client has taken everything before, so the answer is the only message in its queue
  obtain rfl : l = [] := Option.some.inj (hl.symm.trans (queue_eq_nil ho))
  have hne : I.server ≠ I.client c := (I.client_ne_server c).symm
  refine hI.move (c := c) ?_ (by simp [ServerPc.sender]) (by simp) rfl rfl rfl (fun d hd => ?_)
    (.own s.server.buf hs ?_ ?_ rfl ?_)
  · obtain ⟨l, hl, hs⟩ := hI.serverQueue
    exact ⟨l, by rw [← hl]; exact Function.update_of_ne hne .., hs⟩
  · have hcd : I.client d ≠ I.client c := fun h => hd (I.client_injective h)
    have hsent : noteSent s.sent (I.client c) r (I.client d) = s.sent (I.client d) := by
      cases r <;> simp [noteSent, hcd]
    refine Holdings.ext ?_ ?_ ?_ rfl (Dialog.ext rfl hsent rfl)
    · simp [view, inServerQueue, hne]
    · simp [view, atServer, hpc, Ne.symm hd]
    · simp [view, hcd]
  · have hh' : dialog I { s with
        queues := Function.update s.queues (I.client c) (some ([] ++ [⟨none, s.server.buf⟩]))
        server := { s.server with pc := .poll }
        sent := noteSent s.sent (I.client c) r } c = (dialog I s c).after r := by
      cases r
      case number n => exact Dialog.ext rfl (Function.update_self ..) rfl
      all_goals rfl
    rw [view, hh']
    exact hm.delivered
  · simpa [view, inServerQueue, hne] using hq
  · simp [view]

/-- An answer finds its queue. -/
theorem Inv.queue_exists (hI : Inv I s) {sender : Option ι} {q : ℤ} {r : Reply}
    (hpc : s.server.pc = .send sender q r) : s.queues q ≠ none := by
  obtain ⟨c, rfl⟩ := hI.sender sender (by simp [hpc, ServerPc.sender])
  obtain ⟨-, ⟨rfl, -⟩, -, ho⟩ :=
    (hI.phase c).of_served (x := (some (q, r), s.server.buf)) (by simp [view, atServer, hpc])
  rw [queue_eq_nil ho]
  exact Option.some_ne_none _

/-! ## The clients' steps -/

/-- A step of one client: the server's queue gains at most a message of that client, and no other queue
of a client changes. -/
theorem Inv.clientMove (hI : Inv I s) {qs : Queues ι} {v : Client} (new : List (Envelope ι Message))
    (hnew : ∀ e ∈ new, e.sender = some c)
    (hserver : ∀ l, s.queues I.server = some l → qs I.server = some (l ++ new))
    (hown : ∀ d, d ≠ c → qs (I.client d) = s.queues (I.client d))
    (hphase : (turns (I.client c)).Phase
      (view I { s with queues := qs, clients := Function.update s.clients c v } c)) :
    Inv I { s with queues := qs, clients := Function.update s.clients c v } := by
  obtain ⟨l, hl, hs⟩ := hI.serverQueue
  refine hI.move (c := c) ⟨_, hserver l hl, fun e he => ?_⟩ hI.sender hI.running rfl rfl rfl (fun d hd => ?_) hphase
  · rcases List.mem_append.1 he with he | he
    · exact hs e he
    · exact ⟨c, hnew e he⟩
  · refine Holdings.ext ?_ rfl ?_ (Function.update_of_ne hd ..) rfl
    · simp [view, inServerQueue, hserver l hl, hl, mailOf_eq_nil hnew hd]
    · simp only [view, hown d hd]

/-- A client creates its queue and prepares its registration. -/
theorem Inv.clientStarts (hI : Inv I s) (hpc : (s.clients c).pc = .start) :
    Inv I { s with
      queues := Function.update s.queues (I.client c) (some [])
      clients := Function.update s.clients c
        { s.clients c with pc := .register, buf := ⟨1, printInt (I.client c)⟩ } } := by
  obtain ⟨⟨-, hh⟩, hq, hv⟩ := (hI.phase c).of_fresh (by simp [turns, view, hpc, ClientPc.stage])
  have hne : I.server ≠ I.client c := (I.client_ne_server c).symm
  refine hI.clientMove [] (by simp) (fun l hl => ?_) (fun d hd => ?_) (.ready ?_ ⟨?_, hh⟩ ?_ hv ?_)
  · rw [Function.update_of_ne hne, hl, List.append_nil]
  · exact Function.update_of_ne (fun h => hd (I.client_injective h)) ..
  · simp [turns, view, ClientPc.stage]
  · simp [view]
  · simpa [view, inServerQueue, hne] using hq
  · simp [view]

/-- What a client is about to send, and that it has no other message. -/
theorem Inv.sending (hI : Inv I s) (hpc : (s.clients c).pc = .register ∨ (s.clients c).pc = .send) :
    FromClient (I.client c) (s.clients c).clientId (dialog I s c) (s.clients c).buf ∧
      (view I s c).queued = [] ∧ (view I s c).served = none ∧ (view I s c).own = some [] := by
  rcases hpc with hpc | hpc
  · obtain ⟨⟨hb, hh⟩, h⟩ := (hI.phase c).of_ready (by simp [turns, view, hpc, ClientPc.stage])
    refine ⟨?_, h⟩
    rw [show (s.clients c).buf = _ from hb, show dialog I s c = _ from hh]
    exact .registration
  · obtain ⟨⟨h, -⟩ | ⟨-, h, -⟩, h'⟩ := (hI.phase c).of_busy (by simp [turns, view, hpc, ClientPc.stage])
    · exact absurd (hpc.symm.trans h) (by decide)
    · exact ⟨h, h'⟩

/-- A client sends its buffer to the server. -/
theorem Inv.clientSends (hI : Inv I s) {l : List (Envelope ι Message)} (hl : s.queues I.server = some l)
    (hpc : (s.clients c).pc = .register ∨ (s.clients c).pc = .send) :
    Inv I { s with
      queues := Function.update s.queues I.server (some (l ++ [⟨some c, (s.clients c).buf⟩]))
      clients := Function.update s.clients c { s.clients c with pc := .poll } } := by
  obtain ⟨hm, hq, hv, ho⟩ := hI.sending hpc
  refine hI.clientMove [⟨some c, (s.clients c).buf⟩] (by simp) (fun l' hl' => ?_) (fun d hd => ?_)
    (.queued (s.clients c).buf ?_ ?_ ?_ hv ?_)
  · obtain rfl : l' = l := Option.some.inj (hl'.symm.trans hl)
    exact Function.update_self ..
  · exact Function.update_of_ne (I.client_ne_server d) ..
  · simp [turns, view, ClientPc.stage]
  · simpa [turns, view, dialog, reportsOf] using hm
  · have hnil : mailOf l c = [] := by simpa [view, inServerQueue, hl] using hq
    simp [view, inServerQueue, hnil, mailOf_cons_self]
  · simpa [view, I.client_ne_server] using ho

/-- A client takes the message in its queue. -/
theorem Inv.clientTakes (hI : Inv I s) {e : Envelope ι Message} {l : List (Envelope ι Message)}
    (hl : s.queues (I.client c) = some (e :: l)) :
    Inv I { s with
      queues := Function.update s.queues (I.client c) (some l)
      clients := Function.update s.clients c { s.clients c with pc := .handle, buf := e.msg } } := by
  obtain ⟨-, hm, hnil, hq, hv⟩ :=
    (hI.phase c).of_own (m := e.msg) (l := l.map Envelope.msg) (by simp [view, hl])
  obtain rfl : l = [] := by simpa using hnil
  have hne : I.server ≠ I.client c := (I.client_ne_server c).symm
  refine hI.clientMove [] (by simp) (fun l hl => ?_) (fun d hd => ?_) (.busy ?_ (.inl ⟨?_, ?_⟩) ?_ hv ?_)
  · rw [Function.update_of_ne hne, hl, List.append_nil]
  · exact Function.update_of_ne (fun h => hd (I.client_injective h)) ..
  · simp [turns, view, ClientPc.stage]
  · simp [view]
  · simpa [turns, view, dialog, reportsOf] using hm
  · simpa [view, inServerQueue, hne] using hq
  · simp [view]

/-- What a client makes of the server's message: the next message to the server. -/
theorem handleClient_spec {v : Client} {q : ℤ} {h : Dialog} (hm : ToClient v.clientId h v.buf)
    (hid : ∀ k, h.id = some k → InInt k) :
    (handleClient v).pc = .send ∧ FromClient q (handleClient v).clientId h (handleClient v).buf ∧
      h.id = some (handleClient v).clientId := by
  obtain ⟨pc, b, k⟩ := v
  cases hm
  case id i =>
    have hi : atoi (printInt i) = i := atoi_printInt (hid i rfl)
    simp only [handleClient, if_true, hi]
    exact ⟨trivial, .request [], trivial⟩
  case number l n hn =>
    simp only [handleClient, if_true, atoi_printInt hn, show ¬ (2 : ℤ) = 1 by decide, if_false]
    exact ⟨trivial, .report l n hn, trivial⟩
  case ack l value =>
    simp only [handleClient, if_true, show ¬ (3 : ℤ) = 1 by decide, show ¬ (3 : ℤ) = 2 by decide, if_false]
    exact ⟨trivial, .request l, trivial⟩

/-- A client handles the server's message. -/
theorem Inv.clientHandles (hI : Inv I s) (hn : Fintype.card ι ≤ 100) (hpc : (s.clients c).pc = .handle) :
    Inv I { s with clients := Function.update s.clients c (handleClient (s.clients c)) } := by
  obtain ⟨⟨-, hm⟩ | ⟨h, -⟩, hq, hv, ho⟩ := (hI.phase c).of_busy (by simp [turns, view, hpc, ClientPc.stage])
  · have hid : ∀ k, (dialog I s c).id = some k → InInt k := fun k hk => by
      have := hI.registry.lt_card (c := c) (k := k) hk
      exact ⟨by omega, by omega⟩
    obtain ⟨hpc', hm', hid⟩ := handleClient_spec (v := s.clients c) (q := I.client c) hm hid
    refine hI.clientMove [] (by simp) (fun l hl => by rw [hl, List.append_nil]) (fun d _ => rfl)
      (.busy ?_ (.inr ?_) hq hv ho)
    · simp [turns, view, hpc', ClientPc.stage]
    · simpa [view, dialog, reportsOf] using ⟨hpc', hm', hid⟩
  · exact absurd (hpc.symm.trans h) (by decide)

/-! ## Every run -/

theorem inv_step (hn : Fintype.card ι ≤ 100) (a : Label ι) (hI : Inv I s) (h : (system I cap).next s a = some s') :
    Inv I s' := by
  cases a with
  | server rand stack =>
    rcases server_cases h with rfl | ⟨e, l, hpc, hl, rfl⟩ | ⟨sender, hpc, rfl⟩ | ⟨sender, q, r, l, hpc, hl, rfl⟩ |
      ⟨sender, q, r, hpc, hl, rfl⟩
    · exact hI
    · exact hI.serverTakes hpc hl
    · exact hI.serverHandles hn rand stack hpc
    · exact hI.serverSends hpc hl
    · exact absurd hl (hI.queue_exists hpc)
  | client c =>
    rcases client_cases h with rfl | ⟨hpc, rfl⟩ | ⟨l, hpc, hl, rfl⟩ | ⟨e, l, -, hl, rfl⟩ | ⟨hpc, rfl⟩ | ⟨hl, -⟩
    · exact hI
    · exact hI.clientStarts hpc
    · exact hI.clientSends hl hpc
    · exact hI.clientTakes hl
    · exact hI.clientHandles hn hpc
    · obtain ⟨l, hl', -⟩ := hI.serverQueue
      rw [hl] at hl'
      cases hl'

theorem reachable_inv (hn : Fintype.card ι ≤ 100) (h : (system I cap).Reachable s) : Inv I s :=
  h.invariant (I := Inv I) (fun _ => init_inv) fun _ a _ _ hI hs => inv_step hn a hI hs

/-! ## The service -/

/-- After its registration a client has one message. -/
theorem Inv.messageCount (hI : Inv I s) (hc : Registered s c) : messageCount I s c = 1 := by
  rw [messageCount_eq]
  have hp := hI.phase c
  refine hp.count (fun hs => hc.1 (hp.of_fresh hs).1.1) fun hs => hc.2 ?_
  replace hs : (s.clients c).pc.stage = .ready := hs
  cases h : (s.clients c).pc <;> simp_all [ClientPc.stage]

/-- What the service guarantees at every moment. -/
structure Orderly (I : Ids ι) (s : State ι) : Prop where
  /-- The ids handed out are distinct, one for each client, and `client_queues[id]` is the queue of the
  client given `id`, and of no other. -/
  ids_distinct : (s.given.map Prod.snd).Nodup
  ids_given : ∀ r ∈ s.given, ∃ c, r.1 = some c ∧ ∀ d, idOf s.given d = some r.2 ↔ d = c
  ids_table : ∀ c k, idOf s.given c = some k → 0 ≤ k ∧ k < 100 ∧ s.server.clientQueues k = I.client c
  /-- A client is told its own id, and knows it from then on. -/
  ids_told : ∀ c m, m ∈ inOwnQueue I s c ∨ (s.clients c).pc = .handle ∧ m = (s.clients c).buf → m.type = 1 →
    idOf s.given c = some (atoi m.value)
  ids_known : ∀ c, (s.clients c).pc = .send → idOf s.given c = some (s.clients c).clientId
  /-- Every registered client has exactly one message. -/
  one_message : ∀ c, Registered s c → messageCount I s c = 1
  /-- A report that the server handles carries the id of its sender, the last number sent to that client
  and whether it is prime. -/
  report : ∀ sender, s.server.pc = .handle sender → s.server.buf.type = 3 → ∃ c k n,
    sender = some c ∧ idOf s.given c = some k ∧ (s.sent (I.client c)).getLast? = some n ∧
      ∀ stack, scanTriple ' ' s.server.buf.value stack = (k, n, isPrime n)
  /-- The numbers reported by a client are the first ones of those sent to it, each once. -/
  reports_once : ∀ c, ((reportsOf s c).map fun r => r.2.1) <+: s.sent (I.client c)

/-- The messages that reach a client are the server's answers to it. -/
theorem Inv.toClient (hI : Inv I s) {m : Message}
    (hm : m ∈ inOwnQueue I s c ∨ (s.clients c).pc = .handle ∧ m = (s.clients c).buf) :
    ToClient (s.clients c).clientId (dialog I s c) m := by
  rcases hm with hm | ⟨hpc, rfl⟩
  · cases hq : s.queues (I.client c) with
    | none => simp [inOwnQueue, hq] at hm
    | some l =>
      cases l with
      | nil => simp [inOwnQueue, hq] at hm
      | cons e l =>
        obtain ⟨-, h, hnil, -⟩ := (hI.phase c).of_own (m := e.msg) (l := l.map Envelope.msg) (by simp [view, hq])
        obtain rfl : m = e.msg := by simpa [inOwnQueue, hq, hnil] using hm
        exact h
  · obtain ⟨⟨-, h⟩ | ⟨h, -⟩, -⟩ := (hI.phase c).of_busy (by simp [turns, view, hpc, ClientPc.stage])
    · exact h
    · exact absurd (hpc.symm.trans h) (by decide)

/-- In every state the server and at most 100 clients reach, whatever the order of their steps. -/
theorem orderly (hn : Fintype.card ι ≤ 100) (h : (system I cap).Reachable s) : Orderly I s := by
  have hI := reachable_inv hn h
  refine ⟨hI.registry.nodup, fun r hr => ?_, fun c k hc => ?_, fun c m hm ht => ?_, fun c hpc => ?_,
    fun c => hI.messageCount, fun sender hpc ht => ?_, fun c => reports_first (hI.phase c)⟩
  · obtain ⟨c, hc, hk⟩ := hI.registry.owner r hr
    refine ⟨c, hc, fun d => ⟨fun hd => ?_, fun hd => hd ▸ hk⟩⟩
    have hdc : I.client d = I.client c := (hI.table d r.2 hd).symm.trans (hI.table c r.2 hk)
    exact I.client_injective hdc
  · have := hI.registry.lt_card hc
    exact ⟨by omega, by omega, hI.table c k hc⟩
  · obtain ⟨i, hid, hval⟩ := (hI.toClient hm).type_one ht
    have hids : idOf s.given c = some i := hid
    have hi := hI.registry.lt_card hids
    rw [hids, hval, atoi_printInt ⟨by omega, by omega⟩]
  · obtain ⟨⟨h, -⟩ | ⟨-, -, h⟩, -⟩ := (hI.phase c).of_busy (by simp [turns, view, hpc, ClientPc.stage])
    · exact absurd (hpc.symm.trans h) (by decide)
    · exact h
  · obtain ⟨c, rfl⟩ := hI.sender sender (by simp [hpc, ServerPc.sender])
    obtain ⟨-, hm, -⟩ := (hI.phase c).of_served (x := (none, s.server.buf)) (by simp [view, atServer, hpc])
    obtain ⟨l, n, hnum, hval, hh⟩ := FromClient.type_three hm ht
    obtain ⟨hid, hsent, -⟩ : idOf s.given c = some (s.clients c).clientId ∧
        s.sent (I.client c) = (l.map fun r => r.2.1) ++ [n] ∧ reportsOf s c = l := by simpa [dialog, view] using hh
    have hk := hI.registry.lt_card hid
    exact ⟨c, _, n, rfl, hid, by rw [hsent]; simp, scan_report ⟨by omega, by omega⟩ hnum hval⟩

/-- Two clients with the queues 1 and 2 beside the server's queue 0. -/
def twoIds : Ids (Fin 2) where
  server := 0
  client c := c.val + 1
  client_injective c d h := by
    have : (c.val : ℤ) = d.val := by simpa using h
    exact Fin.ext (by exact_mod_cast this)
  client_ne_server c := by omega
  client_inInt c := by
    have := c.isLt
    exact ⟨by omega, by omega⟩

/-- The server drained and no client started; buffers and `client_queues` hold anything. -/
def twoDrained : State (Fin 2) where
  queues q := if q = 0 then some [] else none
  server := ⟨.poll, ⟨0, []⟩, fun _ => 0, 0⟩
  clients _ := ⟨.start, ⟨0, []⟩, 0⟩
  out := []
  given := []
  sent _ := []
  reports := []

theorem twoDrained_init : Init twoIds twoDrained :=
  ⟨rfl, by decide, rfl, rfl, fun _ => rfl, rfl, fun _ => rfl, rfl⟩

/-- The first client registers and reports on the number 7; the second one registers in between. -/
def sevenRun : List (Label (Fin 2)) :=
  let s : Label (Fin 2) := .server 7 (0, 0, 0)
  [.client 0, .client 0, s, s, s, .client 0, .client 1, .client 1, .client 0, .client 0, s, s, s, s, s, s,
    .client 0, .client 0, .client 0, s]

theorem orderly_seven : ∃ s, (system twoIds 409).run twoDrained sevenRun = some s ∧ Orderly twoIds s ∧
    s.server.buf = ⟨3, ['0', ' ', '7', ' ', '1']⟩ ∧ (s.sent 1).getLast? = some 7 := by
  refine ⟨_, rfl, ?_, rfl, rfl⟩
  exact orderly (by decide) (System.Reachable.run (S := system twoIds 409) sevenRun (.init twoDrained_init) rfl)

end Invariant

end Sysopy.PrimeQueue.SysV
