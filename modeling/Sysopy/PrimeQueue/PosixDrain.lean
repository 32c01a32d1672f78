/-
What the server of the POSIX prime service reads at `buf + 1` (cw06/zad2). It drains its persistent queue into
the buffer it then serves from, and that buffer is cleared only at the end of an iteration of the main loop: just
the message received in the first iteration can be followed by bytes of a drained one, and it is when the last
drained message that reaches behind its end has no NUL there.
-/
import Sysopy.PrimeQueue.Posix

namespace Sysopy.PrimeQueue.Posix

open Sysopy.Conc Sysopy.CText

/-! ## The service and what its server has received -/

structure Watched (ι : Type*) where
  state : State ι
  /-- History: what the draining loop received. -/
  drained : List (List Char)
  /-- History: how many iterations of the main loop have begun. -/
  iterations : ℕ
  /-- History: what the main loop received last. -/
  message : List Char

/-- A client is about to send what it has in `buf`. -/
def Client.Sending (v : Client) : Prop := v.pc = .register ∨ v.pc = .send

section Step

variable {ι : Type*} [DecidableEq ι] (name : ι → List Char)

/-- The history after the mq_receive of the server, if it is at one. -/
def note (w : Watched ι) : Watched ι :=
  match w.state.server.pc, mqReceive w.state.queues serverName with
  | .drain, some (e, _) => { w with drained := w.drained ++ [e.msg] }
  | .poll, some (e, _) => { w with iterations := w.iterations + 1, message := e.msg }
  | .poll, none => { w with iterations := w.iterations + 1 }
  | _, _ => w

def nextWatched (w : Watched ι) : Label ι → Option (Watched ι)
  | .server rand stack => (server w.state rand stack).map fun s => { note w with state := s }
  | .client c => (clientOf name w.state c).map fun s => { w with state := s }

/-- The server starts with whatever its persistent queue holds. The clients are anywhere in their programs, so
that they may be about to send any string but the empty one. -/
structure Restarted (w : Watched ι) : Prop where
  serverQueue : ∃ l, w.state.queues serverName = some l
  pc : w.state.server.pc = .drain
  buf : w.state.server.buf = []
  sending : ∀ c, (w.state.clients c).Sending → byte0 (w.state.clients c).buf ≠ '\x00'
  drained : w.drained = []
  iterations : w.iterations = 0

/-- All interleavings of the server and the clients, the clients having any names. -/
def restarted : System (Watched ι) (Label ι) := ⟨Restarted, nextWatched name⟩

end Step

/-! ## What a step does to the server's queue -/

section Queues

variable {ι : Type*} {qs qs' : Queues ι} {e x : Envelope ι (List Char)} {q : List Char}

/-- A send adds at most its own message. -/
theorem mem_mqSend {d : Option (List Char)} (h : mqSend qs d e = some qs') (hx : x ∈ (qs' q).getD []) :
    x ∈ (qs q).getD [] ∨ x = e := by
  obtain ⟨p, l, rfl, hl, -, rfl⟩ := mqSend_eq_some.1 h
  by_cases hq : q = p
  · subst hq
    rw [Function.update_self, Option.getD_some, List.mem_append, List.mem_singleton] at hx
    rwa [hl]
  · rw [Function.update_of_ne hq] at hx
    exact .inl hx

/-- A receive takes its message away and no other. -/
theorem mem_mqReceive {p : List Char} (h : mqReceive qs p = some (e, qs')) (hx : x ∈ (qs' q).getD []) :
    x ∈ (qs q).getD [] := by
  obtain ⟨l, hl, rfl⟩ := Mailboxes.take_eq_some.1 h
  by_cases hq : q = p
  · subst hq
    rw [Function.update_self, Option.getD_some] at hx
    rw [hl]
    exact List.mem_cons_of_mem _ hx
  · rwa [Function.update_of_ne hq] at hx

theorem mem_of_mqReceive {p : List Char} (h : mqReceive qs p = some (e, qs')) : e ∈ (qs p).getD [] := by
  obtain ⟨l, hl, -⟩ := Mailboxes.take_eq_some.1 h
  rw [hl]
  exact List.mem_cons_self

end Queues

/-! ## The bytes under a message -/

/-- What the draining loop leaves in `buf` until the main loop clears it. -/
def leftover (drained : List (List Char)) : ℕ → Buffer
  | 0 => drained.foldl (fun b m => overwrite m b) []
  | _ + 1 => []

/-- A byte and a string: what `strlen` bytes of a buffer are that does not start with a NUL. -/
def Sent (m : List Char) : Prop := ∃ t s, m = t :: s ∧ '\x00' ∉ s

theorem sent_cString {b : Buffer} (h : byte0 b ≠ '\x00') : Sent (cString b) := by
  cases b with
  | nil => exact absurd rfl h
  | cons c b =>
    rw [cString_cons (by simpa using h)]
    exact ⟨c, cString b, rfl, not_mem_cString b⟩

/-- What the server reads of a message depends on one byte of what was in `buf` before. -/
theorem Sent.read_iff {m : List Char} (h : Sent m) (b : Buffer) :
    cString (overwrite m b).tail = m.tail ↔ b.getD m.length '\x00' = '\x00' := by
  obtain ⟨t, s, rfl, hs⟩ := h
  exact cString_tail_overwrite hs b

section Invariant

variable {ι : Type*} {w w' : Watched ι}

structure Reads (w : Watched ι) : Prop where
  /-- Past the draining loop the queue holds, of the clients, what they have sent since. -/
  queued : w.state.server.pc ≠ .drain →
    ∀ e ∈ (w.state.queues serverName).getD [], ∀ c, e.sender = some c → Sent e.msg
  sending : ∀ c, (w.state.clients c).Sending → byte0 (w.state.clients c).buf ≠ '\x00'
  draining : w.state.server.pc = .drain → w.iterations = 0
  buf : w.state.server.pc = .drain ∨ w.state.server.pc = .poll → w.state.server.buf = leftover w.drained w.iterations
  handled : ∀ c, w.state.server.pc = .handle (some c) →
    Sent w.message ∧ w.state.server.buf = overwrite w.message (leftover w.drained (w.iterations - 1))
  begun : w.state.server.pc ≠ .drain → w.state.server.pc ≠ .poll → 0 < w.iterations

theorem restarted_reads (h : Restarted w) : Reads w where
  queued hpc := absurd h.pc hpc
  sending := h.sending
  draining _ := h.iterations
  buf _ := by rw [h.buf, h.drained, h.iterations]; rfl
  handled c hpc := by rw [h.pc] at hpc; cases hpc
  begun hpc := absurd h.pc hpc

/-! ## The server's steps -/

/-- The tests on `buf[0]` lead to a send, or to the end of the iteration. -/
theorem handleServer_spec (s : State ι) (sender : Option ι) (rand : Rand) (stack : ℤ × ℤ × ℤ) :
    (handleServer s sender rand stack).queues = s.queues ∧ (handleServer s sender rand stack).clients = s.clients ∧
      ((∃ q r, (handleServer s sender rand stack).server.pc = .send sender q r) ∨
        (handleServer s sender rand stack).server.pc = .poll ∧ (handleServer s sender rand stack).server.buf = []) := by
  unfold handleServer
  split_ifs
  · exact ⟨rfl, rfl, .inl ⟨_, _, rfl⟩⟩
  · exact ⟨rfl, rfl, .inl ⟨_, _, rfl⟩⟩
  · exact ⟨rfl, rfl, .inl ⟨_, _, rfl⟩⟩
  · exact ⟨rfl, rfl, .inr ⟨rfl, rfl⟩⟩

/-- A send of the server ends the iteration or the loop. -/
theorem answer_spec (s : State ι) (q : Option (List Char)) (r : Reply) :
    (∀ p, ∀ e ∈ ((answer s q r).queues p).getD [], e ∈ (s.queues p).getD [] ∨ e.sender = none) ∧
      (answer s q r).clients = s.clients ∧
      ((answer s q r).server.pc = .poll ∧ (answer s q r).server.buf = [] ∨ (answer s q r).server.pc = .exited) := by
  rcases answer_cases s q r with ⟨qs, hsend, h⟩ | ⟨-, -, h⟩ | ⟨-, -, h⟩ <;> rw [h]
  · exact ⟨fun p e he => (mem_mqSend hsend he).imp_right (by rintro rfl; rfl), rfl, .inl ⟨rfl, rfl⟩⟩
  · exact ⟨fun p e he => .inl he, rfl, .inl ⟨rfl, rfl⟩⟩
  · exact ⟨fun p e he => .inl he, rfl, .inr rfl⟩

/-- Between two receives of the main loop. -/
theorem Reads.busy {s : State ι} (hI : Reads w) (hdrain : w.state.server.pc ≠ .drain)
    (hpoll : w.state.server.pc ≠ .poll)
    (hqueue : ∀ e ∈ (s.queues serverName).getD [], e ∈ (w.state.queues serverName).getD [] ∨ e.sender = none)
    (hclients : s.clients = w.state.clients)
    (hpc : (∃ c q r, s.server.pc = .send c q r) ∨ s.server.pc = .poll ∧ s.server.buf = [] ∨ s.server.pc = .exited) :
    Reads { w with state := s } := by
  have hbegun := hI.begun hdrain hpoll
  have hnot : s.server.pc ≠ .drain ∧ ∀ c, s.server.pc ≠ .handle (some c) := by
    rcases hpc with ⟨c, q, r, h⟩ | ⟨h, -⟩ | h <;> rw [h] <;> exact ⟨nofun, fun _ => nofun⟩
  refine ⟨fun _ e he c hc => ?_, ?_, fun h => absurd h hnot.1, ?_, fun c h => absurd h (hnot.2 c), fun _ _ => hbegun⟩
  · rcases hqueue e he with he | he
    · exact hI.queued hdrain e he c hc
    · rw [hc] at he
      cases he
  · rw [hclients]
    exact hI.sending
  · obtain ⟨n, hn⟩ := Nat.exists_eq_succ_of_ne_zero hbegun.ne'
    rintro (h | h)
    · exact absurd h hnot.1
    · rcases hpc with ⟨c, q, r, h'⟩ | ⟨-, hbuf⟩ | h'
      · rw [h'] at h; cases h
      · rw [hbuf, hn]; rfl
      · rw [h'] at h; cases h

theorem Reads.server {rand : Rand} {stack : ℤ × ℤ × ℤ} {s : State ι} (hI : Reads w)
    (h : server w.state rand stack = some s) : Reads { note w with state := s } := by
  unfold Posix.server at h
  cases hpc : w.state.server.pc with
  | drain =>
    have hzero := hI.draining hpc
    have hbuf := hI.buf (.inl hpc)
    simp only [hpc] at h
    cases hr : mqReceive w.state.queues serverName with
    | some p =>
      obtain ⟨e, qs⟩ := p
      rw [hr] at h
      cases h
      -- a drained message is added to those that have left bytes in `buf`
      refine ⟨fun h => absurd rfl h, hI.sending, fun _ => ?_, fun _ => ?_, fun c => nofun, fun h => absurd rfl h⟩
      · simpa [note, hpc, hr] using hzero
      · simp only [note, hpc, hr]
        rw [hbuf, hzero, leftover, leftover, List.foldl_append]
        rfl
    | none =>
      rw [hr] at h
      cases h
      -- the queue is empty, so whatever is in it later has been sent since
      refine ⟨fun _ e he => ?_, hI.sending, nofun, fun _ => ?_, fun c => nofun, fun _ h => absurd rfl h⟩
      · rw [mqReceive_eq_none hr] at he
        cases he
      · simpa only [note, hpc, hr] using hbuf
  | poll =>
    have hdrain : w.state.server.pc ≠ .drain := by rw [hpc]; exact nofun
    simp only [hpc] at h
    cases hr : mqReceive w.state.queues serverName with
    | some p =>
      obtain ⟨e, qs⟩ := p
      rw [hr] at h
      cases h
      -- the message lies over what `buf` held at this receive
      refine ⟨fun _ x hx => hI.queued hdrain x (mem_mqReceive hr hx), hI.sending, nofun, nofun, fun c hc => ?_, ?_⟩
      · have hsender : e.sender = some c := by simpa using hc
        simp only [note, hpc, hr, Nat.add_sub_cancel]
        exact ⟨hI.queued hdrain e (mem_of_mqReceive hr) c hsender, by rw [hI.buf (.inr hpc)]⟩
      · intro _ _
        simp [note, hpc, hr]
    | none =>
      rw [hr] at h
      cases h
      -- nothing received: `memset` ends the iteration
      refine ⟨fun _ => hI.queued hdrain, hI.sending, nofun, fun _ => ?_, fun c => nofun, fun _ h => absurd rfl h⟩
      simp only [note, hpc, hr]
      rfl
  | handle sender =>
    have hnote : note w = w := by simp [note, hpc]
    simp only [hpc] at h
    cases h
    obtain ⟨hq, hc, hend⟩ := handleServer_spec w.state sender rand stack
    rw [hnote]
    refine hI.busy (by rw [hpc]; exact nofun) (by rw [hpc]; exact nofun) (fun e he => .inl ?_) hc ?_
    · rwa [hq] at he
    · exact hend.imp (fun ⟨q, r, h⟩ => ⟨_, q, r, h⟩) .inl
  | send sender q r =>
    have hnote : note w = w := by simp [note, hpc]
    simp only [hpc] at h
    cases h
    obtain ⟨hq, hc, hend⟩ := answer_spec w.state q r
    rw [hnote]
    exact hI.busy (by rw [hpc]; exact nofun) (by rw [hpc]; exact nofun) (hq serverName) hc (.inr hend)
  | exited =>
    simp only [hpc] at h
    cases h

/-! ## The clients' steps -/

/-- What a client is about to send starts with the byte it set. -/
theorem handleClient_sending {v : Client} (h : (handleClient v).Sending) : byte0 (handleClient v).buf ≠ '\x00' := by
  unfold handleClient at h ⊢
  split_ifs at h ⊢
  · exact nofun
  · exact nofun
  · exact nofun
  · rcases h with h | h <;> cases h

variable [DecidableEq ι] {name : ι → List Char} {s s' : State ι} {c : ι}

/-- A step of a client leaves the server alone and adds at most the client's own message to a queue. -/
theorem clientOf_spec (h : clientOf name s c = some s') :
    s'.server = s.server ∧
      (∀ q, ∀ e ∈ (s'.queues q).getD [], e ∈ (s.queues q).getD [] ∨
        (s.clients c).Sending ∧ e = ⟨some c, cString (s.clients c).buf⟩) ∧
      ∃ v, s'.clients = Function.update s.clients c v ∧ (v.Sending → byte0 v.buf ≠ '\x00') := by
  have hquiet : ∀ v : Client, v.pc = .poll ∨ v.pc = .handle ∨ v.pc = .exited → v.Sending → byte0 v.buf ≠ '\x00' := by
    rintro v (h | h | h) (h' | h') <;> rw [h] at h' <;> cases h'
  rcases clientOf_cases h with ⟨-, rfl⟩ | ⟨l, b, hpc, hl, -, rfl⟩ | ⟨pc, b, hpc, -, rfl⟩ | ⟨e, l, -, hl, rfl⟩ |
    ⟨hpc, -, rfl⟩ | ⟨-, rfl⟩
  · refine ⟨rfl, fun q e he => .inl ?_, _, rfl, fun _ => ?_⟩
    · by_cases hq : q = name c
      · subst hq
        simpa using he
      · simpa [hq] using he
    · simp [strcpy1, setByte0]
  · refine ⟨rfl, fun q e he => ?_, _, rfl, hquiet _ (.inl rfl)⟩
    by_cases hq : q = serverName
    · subst hq
      simp only [Function.update_self, Option.getD_some, List.mem_append, List.mem_singleton] at he
      exact he.imp (fun he => by rwa [hl]) fun he => ⟨hpc, he⟩
    · exact .inl (by simpa [hq] using he)
  · refine ⟨rfl, fun q e he => .inl he, _, rfl, hquiet _ ?_⟩
    exact hpc.elim (fun h => .inr (.inr h.2)) fun h => .inl h.2
  · refine ⟨rfl, fun q x hx => .inl ?_, _, rfl, hquiet _ (.inr (.inl rfl))⟩
    by_cases hq : q = name c
    · subst hq
      simp only [Function.update_self, Option.getD_some] at hx
      rw [hl]
      exact List.mem_cons_of_mem _ hx
    · simpa [hq] using hx
  · exact ⟨rfl, fun q e he => .inl he, _, rfl, hquiet _ (.inl hpc)⟩
  · exact ⟨rfl, fun q e he => .inl he, _, rfl, handleClient_sending⟩

theorem Reads.client (hI : Reads w) (h : clientOf name w.state c = some s) : Reads { w with state := s } := by
  obtain ⟨hserver, hqueue, v, hclients, hself⟩ := clientOf_spec h
  refine ⟨fun hpc e he d hd => ?_, fun d => ?_, ?_, ?_, ?_, ?_⟩
  · simp only [hserver] at hpc
    rcases hqueue serverName e he with he | ⟨hsending, rfl⟩
    · exact hI.queued hpc e he d hd
    · exact sent_cString (hI.sending c hsending)
  · simp only [hclients]
    by_cases hd : d = c
    · subst hd
      rw [Function.update_self]
      exact hself
    · rw [Function.update_of_ne hd]
      exact hI.sending d
  all_goals simp only [hserver]
  · exact hI.draining
  · exact hI.buf
  · exact hI.handled
  · exact hI.begun

theorem reachable_reads (h : (restarted name).Reachable w) : Reads w := by
  refine h.invariant (I := Reads) (fun _ => restarted_reads) fun w a w' _ hI hs => ?_
  cases a with
  | server rand stack =>
    obtain ⟨s, hserver, rfl⟩ := Option.map_eq_some_iff.1 hs
    exact hI.server hserver
  | client c =>
    obtain ⟨s, hclient, rfl⟩ := Option.map_eq_some_iff.1 hs
    exact hI.client hclient

end Invariant

/-- The service on a fresh queue, from its draining loop on, is among these runs. -/
theorem restarted_simulates {ι : Type*} [DecidableEq ι] (N : Names ι) :
    System.Simulates (system N true) (restarted N.name) fun s w => w.state = s where
  init s h := by
    refine ⟨⟨s, [], 0, []⟩, ⟨⟨[], h.serverQueue⟩, h.pc, h.buf, fun c hc => ?_, rfl, rfl⟩, rfl⟩
    rcases hc with hc | hc <;> exact absurd (hc.symm.trans (h.client c)) nofun
  next s a s' w _ _ hw hs := by
    subst hw
    cases a with
    | server rand stack =>
      have hs' : server w.state rand stack = some s' := hs
      exact ⟨[.server rand stack], { note w with state := s' }, by simp [System.run, restarted, nextWatched, hs'], rfl⟩
    | client c =>
      have hs' : clientOf N.name w.state c = some s' := hs
      exact ⟨[.client c], { w with state := s' }, by simp [System.run, restarted, nextWatched, hs'], rfl⟩

/-! ## What the server reads -/

/-- The server reads a client's message as the client put it there iff it is not the first message it serves from
the queue, or the last drained message that reaches behind its end has a NUL there. -/
theorem reads_message_iff {ι : Type*} [DecidableEq ι] {name : ι → List Char} {w : Watched ι} {c : ι}
    (h : (restarted name).Reachable w) (hpc : w.state.server.pc = .handle (some c)) :
    cString w.state.server.buf.tail = w.message.tail ↔
      w.iterations ≠ 1 ∨ lastByteAt w.drained w.message.length = '\x00' := by
  have hI := reachable_reads h
  obtain ⟨hsent, hbuf⟩ := hI.handled c hpc
  have hbegun := hI.begun (by rw [hpc]; exact nofun) (by rw [hpc]; exact nofun)
  rw [hbuf, hsent.read_iff]
  obtain ⟨n, hn⟩ := Nat.exists_eq_succ_of_ne_zero hbegun.ne'
  cases n with
  | zero =>
    have hfirst : leftover w.drained (w.iterations - 1) = w.drained.foldl (fun b m => overwrite m b) [] := by
      rw [hn]
      rfl
    rw [hfirst, getD_foldl_overwrite]
    simp [hn]
  | succ n =>
    have hcleared : leftover w.drained (w.iterations - 1) = [] := by
      rw [hn]
      rfl
    rw [hcleared]
    simp [hn]

/-- "/1804289383" and "/846930886", the clients' names. -/
def twoNames : Fin 2 → List Char := ![['/', '1', '8', '0', '4', '2', '8', '9', '3', '8', '3'],
  ['/', '8', '4', '6', '9', '3', '0', '8', '8', '6']]

/-- The queue still holds the registration of an earlier client; two new ones start with the server. -/
def keptRegistration : Watched (Fin 2) where
  state :=
    { queues := Function.update (fun _ => none) serverName (some [⟨none, '\x01' :: twoNames 0⟩])
      server := ⟨.drain, [], fun _ => [], 0⟩
      clients := fun _ => ⟨.start, [], 0⟩
      out := []
      given := [] }
  drained := []
  iterations := 0
  message := []

theorem keptRegistration_restarted : Restarted keptRegistration where
  serverQueue := ⟨_, rfl⟩
  pc := rfl
  buf := rfl
  sending c h := by rcases h with h | h <;> cases h
  drained := rfl
  iterations := rfl

/-- The server drains its queue and finds it empty once more before it takes a registration. -/
def later : List (Label (Fin 2)) :=
  [.server 0 (0, 0, 0), .server 0 (0, 0, 0), .server 0 (0, 0, 0), .client 1, .client 1, .server 0 (0, 0, 0)]

theorem reads_message_iff_later : ∃ w, (restarted twoNames).run keptRegistration later = some w ∧
    w.state.server.pc = .handle (some 1) ∧ w.message = '\x01' :: twoNames 1 ∧
    (cString w.state.server.buf.tail = w.message.tail ↔
      w.iterations ≠ 1 ∨ lastByteAt w.drained w.message.length = '\x00') := by
  obtain ⟨w, hw, hpc, hm⟩ : ∃ w, (restarted twoNames).run keptRegistration later = some w ∧
    w.state.server.pc = .handle (some 1) ∧ w.message = '\x01' :: twoNames 1 := ⟨_, rfl, rfl, rfl⟩
  exact ⟨w, hw, hpc, hm, reads_message_iff (System.Reachable.run later (.init keptRegistration_restarted) hw) hpc⟩

/-- A registration arrives between the end of the draining loop and the first receive of the main loop. -/
def between : List (Label (Fin 2)) :=
  [.server 0 (0, 0, 0), .server 0 (0, 0, 0), .client 1, .client 1, .server 0 (0, 0, 0)]

/-- The server then reads "/8469308863". -/
theorem between_misread : ¬ ∀ w c, (restarted twoNames).Reachable w → w.state.server.pc = .handle (some c) →
    cString w.state.server.buf.tail = w.message.tail := by
  intro h
  obtain ⟨w, hw, hpc, hm, hread⟩ : ∃ w, (restarted twoNames).run keptRegistration between = some w ∧
    w.state.server.pc = .handle (some 1) ∧ w.message = '\x01' :: twoNames 1 ∧
    cString w.state.server.buf.tail = twoNames 1 ++ ['3'] := ⟨_, rfl, rfl, rfl, rfl⟩
  have hsame := h w 1 (System.Reachable.run between (.init keptRegistration_restarted) hw) hpc
  rw [hread, hm] at hsame
  exact absurd hsame (by decide)

end Sysopy.PrimeQueue.Posix
