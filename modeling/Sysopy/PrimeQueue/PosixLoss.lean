/-
How a client of the POSIX prime service loses its turn. Eleven clients that hold their id can all send a
request before the server takes one: the eleventh finds ten messages in the server's queue, its send fails
and its message is gone. And a registration sent before the server has drained its queue is drained too.
-/
import Sysopy.PrimeQueue.PosixTurns

namespace Sysopy.PrimeQueue.Posix

open Sysopy.Conc Sysopy.CText

variable {ι : Type*} [DecidableEq ι] {N : Names ι} {draining : Bool} {s : State ι} {c : ι}

/-! ## Single steps -/

theorem server_step (h : (system N draining).Reachable s) {s' : State ι} (hs : server s 0 (0, 0, 0) = some s') :
    (system N draining).Reachable s' :=
  h.next (a := .server 0 (0, 0, 0)) hs

theorem client_step (h : (system N draining).Reachable s) {s' : State ι} (hs : client N s c = some s') :
    (system N draining).Reachable s' :=
  h.next (a := .client c) hs

/-- A client that has not started creates its queue and sends its registration. -/
theorem client_registers (h : (system N draining).Reachable s) (hpc : (s.clients c).pc = .start)
    (hnone : s.queues (N.name c) = none) (hq : s.queues serverName = some []) :
    ∃ s', (system N draining).Reachable s' ∧ s'.server = s.server ∧ s'.given = s.given ∧
      s'.queues = Function.update (Function.update s.queues (N.name c) (some [])) serverName
        (some [⟨some c, '\x01' :: N.name c⟩]) ∧
      (s'.clients c).pc = .poll ∧ ∀ d, d ≠ c → s'.clients d = s.clients d := by
  have hne : serverName ≠ N.name c := (N.name_ne_server c).symm
  have hstr : cString (strcpy1 (N.name c) (setByte0 '\x01' (s.clients c).buf)) = '\x01' :: N.name c :=
    cString_strcpy1_setByte0 (by decide) (N.nul_not_mem c) _
  have e₁ : client N s c = some { s with
      queues := Function.update s.queues (N.name c) (some [])
      clients := Function.update s.clients c
        { s.clients c with pc := .register, buf := strcpy1 (N.name c) (setByte0 '\x01' (s.clients c).buf) } } := by
    simp [client, clientOf, hpc, hnone]
  have h₁ := client_step h e₁
  have hsend : mqSend (Function.update s.queues (N.name c) (some [])) (some serverName) ⟨some c, '\x01' :: N.name c⟩ =
      some (Function.update (Function.update s.queues (N.name c) (some [])) serverName
        (some [⟨some c, '\x01' :: N.name c⟩])) :=
    mqSend_of_lt (l := []) (by simp [hne, hq]) (by simp [mqMaxmsg]) _
  refine ⟨_, client_step h₁ (c := c) (by simp only [client, clientOf, Function.update_self, hstr, hsend]; rfl), ?_⟩
  refine ⟨rfl, rfl, rfl, by simp, fun d hd => ?_⟩
  simp [hd]

/-- The server takes a registration, chooses an id and sends it. -/
theorem server_answers (h : (system N draining).Reachable s) (hpc : s.server.pc = .poll) (hbuf : s.server.buf = [])
    (hq : s.queues serverName = some [⟨some c, '\x01' :: N.name c⟩]) (ho : s.queues (N.name c) = some []) :
    ∃ s', (system N draining).Reachable s' ∧ s'.server.pc = .poll ∧ s'.server.buf = [] ∧ s'.clients = s.clients ∧
      ∃ m, s'.queues = Function.update (Function.update s.queues serverName (some [])) (N.name c)
        (some [⟨none, '\x01' :: m⟩]) := by
  have hne : N.name c ≠ serverName := N.name_ne_server c
  -- the message is the buffer
  have e₁ : server s 0 (0, 0, 0) = some { s with
      queues := Function.update s.queues serverName (some [])
      server := { s.server with pc := .handle (some c), buf := '\x01' :: N.name c } } := by
    simp [server, hpc, hbuf, mqReceive, Mailboxes.take, hq, overwrite]
  have h₁ := server_step h e₁
  have hopen : mqOpen (Function.update s.queues serverName (some [])) (N.name c) = some (N.name c) := by
    simp [mqOpen, hne, ho]
  have hname : cString (N.name c) = N.name c := cString_eq_self (N.nul_not_mem c)
  obtain ⟨b, hb, e₂⟩ : ∃ b, cString b = '\x01' :: printInt s.server.clientId ∧
      server { s with
        queues := Function.update s.queues serverName (some [])
        server := { s.server with pc := .handle (some c), buf := '\x01' :: N.name c } } 0 (0, 0, 0) = some { s with
        queues := Function.update s.queues serverName (some [])
        server := { s.server with
          pc := .send (some c) (some (N.name c)) .id
          buf := b
          clientNames := Function.update s.server.clientNames s.server.clientId (N.name c) }
        given := s.given ++ [(some c, s.server.clientId)] } := by
    refine ⟨_, cString_strcpy1_setByte0 (by decide) (nul_not_mem_printInt _) ('\x01' :: N.name c), ?_⟩
    simp only [server, handleServer, giveId, byte0_cons, if_true, List.tail_cons, hname, hopen]
  have h₂ := server_step h₁ e₂
  have hempty : Function.update s.queues serverName (some []) (N.name c) = some [] := by simp [hne, ho]
  have hsend := mqSend_of_lt hempty (by simp [mqMaxmsg]) ⟨none, '\x01' :: (printInt s.server.clientId ++ ['\x00'])⟩
  refine ⟨_, server_step h₂ (by simp only [server, answer, hb, List.cons_append, hsend]; rfl), ?_⟩
  exact ⟨rfl, rfl, rfl, _, rfl⟩

/-- A client that holds its id takes it and sends a request, which is lost if the server's queue is full. -/
theorem client_requests {l : List (Envelope ι (List Char))} {m : List Char} (h : (system N draining).Reachable s)
    (hpc : (s.clients c).pc = .poll) (ho : s.queues (N.name c) = some [⟨none, '\x01' :: m⟩])
    (hq : s.queues serverName = some l) :
    ∃ s' m', (system N draining).Reachable s' ∧ s'.server = s.server ∧
      s'.queues = Function.update (Function.update s.queues (N.name c) (some [])) serverName
        (some (if l.length < mqMaxmsg then l ++ [⟨some c, m'⟩] else l)) ∧
      (s'.clients c).pc = .poll ∧ ∀ d, d ≠ c → s'.clients d = s.clients d := by
  have hne : serverName ≠ N.name c := (N.name_ne_server c).symm
  have e₁ : client N s c = some { s with
      queues := Function.update s.queues (N.name c) (some [])
      clients := Function.update s.clients c
        { s.clients c with pc := .handle, buf := overwrite ('\x01' :: m) (s.clients c).buf } } := by
    simp [client, clientOf, hpc, mqReceive, Mailboxes.take, ho]
  -- first the id is received, then it is handled, and then the request is sent
  have h₁ := client_step h e₁
  have hbyte : byte0 (overwrite ('\x01' :: m) (s.clients c).buf) = '\x01' := rfl
  obtain ⟨v, hv, e₂⟩ : ∃ v : Client, v.pc = .send ∧ client N { s with
      queues := Function.update s.queues (N.name c) (some [])
      clients := Function.update s.clients c
        { s.clients c with pc := .handle, buf := overwrite ('\x01' :: m) (s.clients c).buf } } c = some { s with
      queues := Function.update s.queues (N.name c) (some [])
      clients := Function.update s.clients c v } := by
    refine ⟨handleClient ⟨.handle, overwrite ('\x01' :: m) (s.clients c).buf, (s.clients c).clientId⟩, ?_, ?_⟩
    · simp only [handleClient, hbyte, if_true]
    · simp only [client, clientOf, Function.update_self, Function.update_idem]
  have h₂ := client_step h₁ e₂
  have hsend : (mqSend (Function.update s.queues (N.name c) (some [])) (some serverName) ⟨some c, cString v.buf⟩).getD
      (Function.update s.queues (N.name c) (some [])) =
      Function.update (Function.update s.queues (N.name c) (some [])) serverName
        (some (if l.length < mqMaxmsg then l ++ [⟨some c, cString v.buf⟩] else l)) := by
    have hl : Function.update s.queues (N.name c) (some []) serverName = some l := by simp [hne, hq]
    split
    · rename_i hlt
      rw [mqSend_of_lt hl hlt, Option.getD_some]
    · rename_i hge
      rw [mqSend_of_full hl (Nat.le_of_not_lt hge), Option.getD_none, ← hl, Function.update_eq_self]
  refine ⟨_, cString v.buf,
    client_step h₂ (c := c) (by simp only [client, clientOf, Function.update_self, hv, hsend]; rfl), ?_⟩
  refine ⟨rfl, rfl, by simp, fun d hd => ?_⟩
  simp [hd]

/-! ## Every client gets its id -/

/-- The clients in the list hold the server's answer to their registration and the others have not started;
the server has nothing to do. -/
structure Answered (N : Names ι) (l : List ι) (s : State ι) : Prop where
  pc : s.server.pc = .poll
  buf : s.server.buf = []
  serverQueue : s.queues serverName = some []
  client : ∀ c ∈ l, (s.clients c).pc = .poll ∧ ∃ m, s.queues (N.name c) = some [⟨none, '\x01' :: m⟩]
  other : ∀ c, c ∉ l → (s.clients c).pc = .start ∧ s.queues (N.name c) = none

/-- One more client registers and is answered. -/
theorem Answered.register {l : List ι} (ha : Answered N l s) (h : (system N draining).Reachable s) (hc : c ∉ l) :
    ∃ s', (system N draining).Reachable s' ∧ Answered N (c :: l) s' := by
  obtain ⟨hpc, hnone⟩ := ha.other c hc
  have hne : serverName ≠ N.name c := (N.name_ne_server c).symm
  obtain ⟨s₁, h₁, hsrv, -, hqs, hpc₁, hother⟩ := client_registers h hpc hnone ha.serverQueue
  obtain ⟨s₂, h₂, hpc₂, hbuf₂, hcl, m, hqs₂⟩ := server_answers h₁ (by rw [hsrv, ha.pc]) (by rw [hsrv, ha.buf])
    (by rw [hqs, Function.update_self]) (by simp [hqs, hne.symm])
  have hqueue : ∀ d, d ≠ c → s₂.queues (N.name d) = s.queues (N.name d) := fun d hd => by
    have hdc : N.name d ≠ N.name c := fun h => hd (N.name_injective h)
    simp [hqs₂, hqs, hdc, N.name_ne_server]
  refine ⟨s₂, h₂, hpc₂, hbuf₂, ?_, fun d hd => ?_, fun d hd => ?_⟩
  · simp [hqs₂, hne]
  · by_cases hdc : d = c
    · subst hdc
      exact ⟨by rw [hcl, hpc₁], m, by rw [hqs₂, Function.update_self]⟩
    · rw [hcl, hother d hdc, hqueue d hdc]
      exact ha.client d ((List.mem_cons.1 hd).resolve_left hdc)
  · obtain ⟨hdc, hdl⟩ : d ≠ c ∧ d ∉ l := by simpa using hd
    rw [hcl, hother d hdc, hqueue d hdc]
    exact ha.other d hdl

theorem exists_answered (N : Names ι) : ∀ l : List ι, l.Nodup →
    ∃ s, (system N false).Reachable s ∧ Answered N l s
  | [], _ => by
    have hi := initState_init N false
    exact ⟨_, .init hi, hi.pc, hi.buf, hi.serverQueue, by simp, fun c _ => ⟨hi.client c, hi.clientQueue c⟩⟩
  | c :: l, h => by
    obtain ⟨hc, hl⟩ := List.nodup_cons.1 h
    obtain ⟨s, hs, ha⟩ := exists_answered N l hl
    exact ha.register hs hc

/-! ## Every client sends its request -/

/-- The requests of the clients in `done` are in the server's queue; those in `todo` hold their id. -/
structure Requesting (N : Names ι) (done todo : List ι) (s : State ι) : Prop where
  pc : s.server.pc = .poll
  serverQueue : ∃ l, s.queues serverName = some l ∧ l.map Envelope.sender = done.map some
  client : ∀ c ∈ todo, (s.clients c).pc = .poll ∧ ∃ m, s.queues (N.name c) = some [⟨none, '\x01' :: m⟩]

/-- As long as the server's queue is not full one more request gets into it. -/
theorem Requesting.request {done todo : List ι} (hr : Requesting N done (c :: todo) s)
    (h : (system N draining).Reachable s) (hlt : done.length < mqMaxmsg) (hc : c ∉ todo) :
    ∃ s', (system N draining).Reachable s' ∧ Requesting N (done ++ [c]) todo s' := by
  obtain ⟨l, hl, hsenders⟩ := hr.serverQueue
  obtain ⟨hpc, m, ho⟩ := hr.client c List.mem_cons_self
  have hlen : l.length = done.length := by simpa using congrArg List.length hsenders
  obtain ⟨s', m', h', hsrv, hqs, -, hother⟩ := client_requests h hpc ho hl
  rw [hlen, if_pos hlt] at hqs
  refine ⟨s', h', by rw [hsrv, hr.pc], ⟨_, by rw [hqs, Function.update_self], by simp [hsenders]⟩, fun d hd => ?_⟩
  have hdc : d ≠ c := by rintro rfl; exact hc hd
  have hname : N.name d ≠ N.name c := fun h => hdc (N.name_injective h)
  rw [hother d hdc, hqs, Function.update_of_ne (N.name_ne_server d), Function.update_of_ne hname]
  exact hr.client d (List.mem_cons_of_mem _ hd)

/-- A registered client without a message. -/
def Lost (N : Names ι) (s : State ι) : Prop := ∃ c, Registered s c ∧ messageCount N s c = 0

/-- The next request finds the queue full and is lost. -/
theorem Requesting.lose {done todo : List ι} (hr : Requesting N done (c :: todo) s)
    (h : (system N draining).Reachable s) (hge : mqMaxmsg ≤ done.length) (hc : c ∉ done) :
    ∃ s', (system N draining).Reachable s' ∧ Lost N s' := by
  obtain ⟨l, hl, hsenders⟩ := hr.serverQueue
  obtain ⟨hpc, m, ho⟩ := hr.client c List.mem_cons_self
  have hlen : l.length = done.length := by simpa using congrArg List.length hsenders
  obtain ⟨s', m', h', hsrv, hqs, hpc', -⟩ := client_requests h hpc ho hl
  rw [hlen, if_neg (Nat.not_lt.2 hge)] at hqs
  refine ⟨s', h', c, .inl hpc', ?_⟩
  have hmail : (mailOf l c).length = 0 := by
    rw [length_mailOf, hsenders, List.count_eq_zero]
    simpa using hc
  have h1 : (inServerQueue s' c).length = 0 := by simpa [inServerQueue, hqs] using hmail
  have h2 : atServer s' c = none := by simp [atServer, hsrv, hr.pc]
  have h3 : inOwnQueue N s' c = [] := by simp [inOwnQueue, hqs, N.name_ne_server]
  have h4 : atClient s' c = none := by simp [atClient, hpc']
  simp [messageCount, h1, h2, h3, h4]

/-- When all the others send before the server takes a message, more than ten clients lose a request. -/
theorem Requesting.exists_lost : ∀ (todo done : List ι) (s : State ι), Requesting N done todo s →
    (system N draining).Reachable s → (done ++ todo).Nodup → done.length ≤ mqMaxmsg →
    mqMaxmsg < (done ++ todo).length → ∃ s', (system N draining).Reachable s' ∧ Lost N s'
  | [], done, s, _, _, _, hle, hlt => by
    rw [List.append_nil] at hlt
    omega
  | c :: todo, done, s, hr, h, hnd, hle, hlt => by
    obtain ⟨hdone, htodo, hdisj⟩ := List.nodup_append.1 hnd
    by_cases hfull : mqMaxmsg ≤ done.length
    · exact hr.lose h hfull fun hc => hdisj c hc c List.mem_cons_self rfl
    · obtain ⟨s', h', hr'⟩ := hr.request h (Nat.not_le.1 hfull) (List.nodup_cons.1 htodo).1
      refine exists_lost todo (done ++ [c]) s' hr' h' ?_ ?_ ?_
      · rwa [List.append_assoc, List.singleton_append]
      · rw [List.length_append, List.length_singleton]
        omega
      · rwa [List.append_assoc, List.singleton_append]

theorem exists_lost_of_many [Fintype ι] (N : Names ι) (hn : 10 < Fintype.card ι) :
    ∃ s, (system N false).Reachable s ∧ Lost N s := by
  have hnd : (Finset.univ : Finset ι).toList.Nodup := Finset.nodup_toList _
  have hlen : (Finset.univ : Finset ι).toList.length = Fintype.card ι := Finset.length_toList _
  obtain ⟨s, hs, ha⟩ := exists_answered N _ hnd
  refine Requesting.exists_lost _ [] s ⟨ha.pc, ⟨[], ha.serverQueue, rfl⟩, ha.client⟩ hs hnd ?_ ?_
  · exact Nat.zero_le _
  · rw [List.nil_append, hlen]
    exact hn

/-! ## Draining -/

/-- A registration sent while the server drains its queue is drained. -/
theorem exists_lost_of_draining (N : Names ι) (c : ι) : ∃ s, (system N true).Reachable s ∧ Lost N s := by
  have hne : N.name c ≠ serverName := N.name_ne_server c
  have hi := initState_init N true
  obtain ⟨s, hs, hsrv, -, hqs, hpc, -⟩ :=
    client_registers (.init hi) (hi.client c) (hi.clientQueue c) hi.serverQueue
  have hq : s.queues serverName = some [⟨some c, '\x01' :: N.name c⟩] := by rw [hqs, Function.update_self]
  have ho : s.queues (N.name c) = some [] := by simp [hqs, hne]
  have hdrain : s.server.pc = .drain := by rw [hsrv]; rfl
  have e : server s 0 (0, 0, 0) = some { s with
      queues := Function.update s.queues serverName (some [])
      server := { s.server with buf := overwrite ('\x01' :: N.name c) s.server.buf } } := by
    simp [server, hdrain, mqReceive, Mailboxes.take, hq]
  refine ⟨_, server_step hs e, c, .inl hpc, ?_⟩
  simp [messageCount, inServerQueue, atServer, inOwnQueue, atClient, hdrain, hpc, hne, ho]

/-! ## When no message is lost -/

/-- Every registered client has exactly one message in every reachable state, exactly when there are at most
ten clients and none of them meets the server while it drains its queue. -/
theorem one_message_iff [Fintype ι] (N : Names ι) (draining : Bool) :
    (∀ s, (system N draining).Reachable s → ∀ c, Registered s c → messageCount N s c = 1) ↔
      Fintype.card ι ≤ 10 ∧ (draining = true → IsEmpty ι) := by
  constructor
  · intro h
    have hno : ¬ ∃ s, (system N draining).Reachable s ∧ Lost N s := by
      rintro ⟨s, hs, c, hc, h0⟩
      rw [h s hs c hc] at h0
      cases h0
    cases draining with
    | false =>
      refine ⟨?_, fun h => by cases h⟩
      by_contra hn
      exact hno (exists_lost_of_many N (Nat.lt_of_not_le hn))
    | true =>
      have hempty : IsEmpty ι := ⟨fun c => hno (exists_lost_of_draining N c)⟩
      exact ⟨by rw [Fintype.card_eq_zero]; omega, fun _ => hempty⟩
  · rintro ⟨hn, hd⟩ s hs c hc
    cases draining with
    | false => exact messageCount_eq_one hn hs hc
    | true => exact ((hd rfl).false c).elim

/-- Eleven clients with the queues /0 to /10. -/
def elevenNames : Names (Fin 11) where
  name c := '/' :: printInt c.val
  name_injective c d h := by
    have hcd : (c.val : ℤ) = d.val := by
      have hc : atoi (printInt (c.val : ℤ)) = c.val := atoi_printInt ⟨by omega, by omega⟩
      have hd : atoi (printInt (d.val : ℤ)) = d.val := atoi_printInt ⟨by omega, by omega⟩
      rw [← hc, ← hd, (List.cons.inj h).2]
    exact Fin.ext (by exact_mod_cast hcd)
  name_ne_server c := by revert c; decide
  nul_not_mem c := by revert c; decide
  length_lt c := by revert c; decide

/-- Eleven clients past the draining of the server's queue: one can lose its message. -/
theorem eleven_lose : ¬ ∀ s, (system elevenNames false).Reachable s →
    ∀ c, Registered s c → messageCount elevenNames s c = 1 := by
  intro h
  obtain ⟨s, hs, c, hc, h0⟩ : ∃ s, (system elevenNames false).Reachable s ∧ Lost elevenNames s :=
    exists_lost_of_many elevenNames (by decide)
  rw [h s hs c hc] at h0
  cases h0

end Sysopy.PrimeQueue.Posix
