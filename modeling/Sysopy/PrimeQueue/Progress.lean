/-
The prime service of cw06/zad1 never comes to a standstill: as long as a client is registered, the server or a client
has more to do than to look into an empty queue, since a client whose own queue is empty is the one that the server
answers.
-/
import Sysopy.PrimeQueue.SysVTurns

namespace Sysopy.PrimeQueue.SysV

open Sysopy.Conc Sysopy.CText

section Progress

variable {ι : Type*} [DecidableEq ι] {I : Ids ι} {cap : ℕ} {s : State ι} {c : ι}

/-- A step that takes its process on: not one that finds its queue empty. -/
def Advances (I : Ids ι) (cap : ℕ) (s : State ι) : Prop :=
  (∃ rand stack s', next I cap s (.server rand stack) = some s' ∧ s'.server.pc ≠ s.server.pc) ∨
    ∃ c s', next I cap s (.client c) = some s' ∧ (s'.clients c).pc ≠ (s.clients c).pc

omit [DecidableEq ι] in
theorem handleServer_pc (s : State ι) (sender : Option ι) (rand : Rand) (stack : ℤ × ℤ × ℤ) (sender' : Option ι) :
    (handleServer s sender rand stack).server.pc ≠ .handle sender' := by
  unfold handleServer
  split_ifs <;> rintro ⟨⟩

/-- The server handles what it has taken. -/
theorem advances_handle {sender : Option ι} (hpc : s.server.pc = .handle sender) : Advances I cap s := by
  refine .inl ⟨0, (0, 0, 0), _, by simp only [next, server, hpc]; rfl, ?_⟩
  rw [hpc]
  exact handleServer_pc s sender 0 (0, 0, 0) sender

/-- A message waits for the server. -/
theorem advances_take {e : Envelope ι Message} {l : List (Envelope ι Message)} (hpc : s.server.pc = .poll)
    (hl : s.queues I.server = some (e :: l)) : Advances I cap s := by
  have htake : msgrcv s.queues I.server = some (e, Function.update s.queues I.server (some l)) :=
    Mailboxes.take_eq_some.2 ⟨l, hl, rfl⟩
  refine .inl ⟨0, (0, 0, 0), _, by simp only [next, server, hpc, htake]; rfl, ?_⟩
  rw [hpc]
  rintro ⟨⟩

/-- A step of a client that takes it to another place. -/
theorem advances_client {s' : State ι} (hs : client I cap s c = some s') (hpc : (s'.clients c).pc ≠ (s.clients c).pc) :
    Advances I cap s :=
  .inr ⟨c, s', hs, hpc⟩

variable [Fintype ι]

/-- The queue that the server answers to is empty. -/
theorem advances_send (hI : Inv I s) (hcap : 1 ≤ cap) {sender : Option ι} {q : ℤ} {r : Reply}
    (hpc : s.server.pc = .send sender q r) : Advances I cap s := by
  obtain ⟨c, rfl⟩ := hI.sender sender (by simp [hpc, ServerPc.sender])
  obtain ⟨-, ⟨rfl, -⟩, -, ho⟩ :=
    (hI.phase c).of_served (x := (some (q, r), s.server.buf)) (by simp [view, atServer, hpc])
  have hsend : msgsnd cap s.queues (I.client c) ⟨none, s.server.buf⟩ =
      some (.ok (Function.update s.queues (I.client c) (some ([] ++ [⟨none, s.server.buf⟩])))) :=
    msgsnd_eq_ok.2 ⟨[], queue_eq_nil ho, hcap, rfl⟩
  refine .inl ⟨0, (0, 0, 0), _, by simp only [next, server, hpc, hsend]; rfl, ?_⟩
  rw [hpc]
  rintro ⟨⟩

/-- The server has nothing to do: then the client has, since its one message is in its own queue or with it. -/
theorem advances_registered (hI : Inv I s) (hcap : 1 ≤ cap) (hc : Registered s c) (hpc : s.server.pc = .poll)
    (hl : s.queues I.server = some []) : Advances I cap s := by
  have hp := hI.phase c
  have hserved : (view I s c).served = none := by simp [view, atServer, hpc]
  have hqueued : (view I s c).queued = [] := by simp [view, inServerQueue, hl, mailOf]
  cases hv : (s.clients c).pc with
  | start => exact absurd hv hc.1
  | register => exact absurd hv hc.2
  | exited =>
    have hfresh := hp.of_fresh (by simp [turns, view, hv, ClientPc.stage])
    exact absurd (hv.symm.trans hfresh.1.1) (by decide)
  | poll =>
    -- only the phase with a message in its own queue is left
    obtain ⟨e, l, hown⟩ : ∃ e l, s.queues (I.client c) = some (e :: l) := by
      cases hp with
      | fresh hs | ready hs | busy hs => simp [turns, view, hv, ClientPc.stage] at hs
      | queued m hs h hq =>
        rw [hqueued] at hq
        cases hq
      | served x hs h hq hx =>
        rw [hserved] at hx
        cases hx
      | own m hs h hq hx ho =>
        obtain ⟨l, hl', hm⟩ := Option.map_eq_some_iff.1 ho
        cases l with
        | nil => cases hm
        | cons e l => exact ⟨e, l, hl'⟩
    have htake : msgrcv s.queues (I.client c) = some (e, Function.update s.queues (I.client c) (some l)) :=
      Mailboxes.take_eq_some.2 ⟨l, hown, rfl⟩
    refine advances_client (c := c) (by simp only [client, hv, htake]; rfl) ?_
    simp [hv]
  | handle =>
    refine advances_client (c := c) (by simp only [client, hv]; rfl) ?_
    simp only [hv, Function.update_self]
    unfold handleClient
    split_ifs <;> rintro ⟨⟩
  | send =>
    have hsend : msgsnd cap s.queues I.server ⟨some c, (s.clients c).buf⟩ =
        some (.ok (Function.update s.queues I.server (some ([] ++ [⟨some c, (s.clients c).buf⟩])))) :=
      msgsnd_eq_ok.2 ⟨[], hl, hcap, rfl⟩
    refine advances_client (c := c) (by simp only [client, hv, hsend]; rfl) ?_
    simp [hv]

/-- In every state that the server and at most 100 clients reach, whatever the size of the queues, somebody has more to
do than to look into an empty queue, as long as a client is registered. -/
theorem always_advances (hn : Fintype.card ι ≤ 100) (hcap : 1 ≤ cap) (h : (system I cap).Reachable s)
    (hc : Registered s c) : Advances I cap s := by
  have hI := reachable_inv hn h
  cases hpc : s.server.pc with
  | handle sender => exact advances_handle hpc
  | send sender q r => exact advances_send hI hcap hpc
  | exited => exact absurd hpc hI.running
  | poll =>
    obtain ⟨l, hl, -⟩ := hI.serverQueue
    cases l with
    | nil => exact advances_registered hI hcap hc hpc hl
    | cons e l => exact advances_take hpc hl

/-- With queues of one message, and the first client registered. -/
theorem always_advances_registered : ∃ s, (system twoIds 1).run twoDrained [.client 0, .client 0] = some s ∧
    Advances twoIds 1 s := by
  obtain ⟨s, hrun, hpc⟩ : ∃ s, (system twoIds 1).run twoDrained [.client 0, .client 0] = some s ∧
      (s.clients 0).pc = .poll := ⟨_, rfl, rfl⟩
  have hreach := System.Reachable.run (S := system twoIds 1) _ (.init twoDrained_init) hrun
  refine ⟨s, hrun, always_advances (by decide) le_rfl hreach (c := 0) ?_⟩
  constructor <;> rw [hpc] <;> decide

end Progress

end Sysopy.PrimeQueue.SysV
