/-
The counts of the bursts (cw04/zad2/zad2a and zad2c): whatever way the signals are kept, each process that has
left its while loop has counted what reached it, at least one signal and no more than were sent. With real-time
signals that is all of them.
-/
import Sysopy.Signals.Burst

namespace Sysopy.Signals.Burst

open Sysopy.Conc

/-! ## The invariant -/

/-- How many SIGUSR1 the sender has sent. -/
def sent (n : ℕ) : SenderPc → ℕ
  | .test i | .kill i => i
  | _ => n

/-- The sender has sent its SIGUSR2. -/
def finished : SenderPc → Bool
  | .loop | .printSent | .print | .returned => true
  | _ => false

/-- The sender has left its while loop. -/
def senderOut : SenderPc → Bool
  | .printSent | .print | .returned => true
  | _ => false

/-- How many SIGUSR1 the receiver has sent back. -/
def returned (v : ReceiverVars) : ReceiverPc → ℕ
  | .loop => 0
  | .test i | .kill i => i
  | _ => v.received

/-- The receiver has sent its SIGUSR2. -/
def answered : ReceiverPc → Bool
  | .print | .returned => true
  | _ => false

/-- What the loop variable of the sender is. -/
def SenderPc.InBounds (n : ℕ) : SenderPc → Prop
  | .test i => i ≤ n
  | .kill i => i < n
  | _ => True

/-- What the loop variable of the receiver is. -/
def ReceiverPc.InBounds (v : ReceiverVars) : ReceiverPc → Prop
  | .test i => i ≤ v.received
  | .kill i => i < v.received
  | _ => True

structure Counts (D : Delivery Signal) (n : ℕ) (p : Sender) (q : Receiver) : Prop where
  there : Counter.Toward D receiverCounter (sent n p.main) (finished p.main = true) q (q.main ≠ .loop)
  back : Counter.Toward D senderCounter (returned q.vars q.main) (answered q.main = true) p (senderOut p.main = true)
  sender : p.main.InBounds n
  receiver : q.main.InBounds q.vars
  pid : q.vars.received = 0 ∨ q.vars.pid = some .sender ∨ ∃ f ∈ q.frames, f.2 = .setPid

section Steps

variable {D : Delivery Signal} {n : ℕ} {p p' : Sender} {q q' : Receiver} {a : Act Signal} {o : Option Signal}

/-- Behind its while loop the receiver has counted something, and what it has counted stays. -/
theorem Counts.received (hI : Counts D n p q) (hq : q.main ≠ .loop) : Arrived D n q.vars.received := by
  have hfin := (hI.there.settled hq).2
  have hsent : sent n p.main = n := by
    cases hm : p.main <;> rw [hm] at hfin <;> first | rfl | cases hfin
  exact hsent ▸ hI.there.received hq

/-- The sender's main code takes a step. -/
theorem Counts.senderMain (hD : D.Sound) (hI : Counts D n p q) (hq : p.Quiet) {v : SenderVars} {m : SenderPc}
    (h : Burst.senderMain n p.vars p.main = some (v, m, o)) :
    Counts D n { p with vars := v, main := m } (q.post D o) := by
  obtain ⟨hthere, hback, hbound, hreceiver, hpid⟩ := hI
  have hstep : (Burst.sender n).Steps D p .main { p with vars := v, main := m } o := .main hq h
  have hback' := fun hout : senderOut m = true → _ => hback.step (senderCounter_of n) hstep hout
  -- what is left is the way to the receiver, and that a sender past its loop has been told to stop
  suffices hmain : Counter.Toward D receiverCounter (sent n m) (finished m = true) (q.post D o) (q.main ≠ .loop) ∧
      m.InBounds n ∧ (senderOut m = true → senderOut p.main = true ∨ p.Quiet ∧ senderCounter.loop p.vars = 0) by
    obtain ⟨h1, h2, h3⟩ := hmain
    refine ⟨by rwa [Process.post_main], ?_, h2, ?_, ?_⟩
    · rw [Process.post_main, Process.post_vars]
      exact hback' h3
    · rwa [Process.post_main, Process.post_vars]
    · rwa [Process.post_vars, Process.post_frames]
  cases hm : p.main with
  | test i =>
    rw [hm] at h hthere hbound
    cases h
    by_cases hi : i < n
    · rw [if_pos hi]
      exact ⟨hthere.sendNone id, hi, nofun⟩
    · rw [if_neg hi]
      obtain rfl : i = n := le_antisymm hbound (not_lt.1 hi)
      exact ⟨hthere.sendNone nofun, trivial, nofun⟩
  | kill i =>
    rw [hm] at h hthere hbound
    cases h
    exact ⟨hthere.sendCount receiverCounter_of hD nofun, hbound, nofun⟩
  | killLoop =>
    rw [hm] at h hthere
    cases h
    exact ⟨hthere.sendStop receiverCounter_of nofun rfl, trivial, nofun⟩
  | loop =>
    rw [hm] at h hthere
    cases h
    by_cases hloop : p.vars.loop = 0
    · rw [if_neg (not_not.2 hloop)]
      exact ⟨hthere.sendNone id, trivial, fun _ => .inr ⟨hq, hloop⟩⟩
    · rw [if_pos hloop]
      exact ⟨hthere.sendNone id, trivial, nofun⟩
  | printSent | print =>
    rw [hm] at h hthere
    cases h
    exact ⟨hthere.sendNone id, trivial, fun _ => .inl rfl⟩
  | returned =>
    rw [hm] at h
    cases h

theorem Counts.sender_step (hD : D.Sound) (hI : Counts D n p q) (h : (Burst.sender n).Steps D p a p' o) :
    Counts D n p' (q.post D o) := by
  by_cases ha : a = .main
  · cases h with
    | main hq h => exact hI.senderMain hD hq h
    | _ => cases ha
  · obtain ⟨hm, rfl⟩ := (senderCounter_of n).main_eq h ha
    refine ⟨by rw [hm]; exact hI.there, ?_, by rw [hm]; exact hI.sender, hI.receiver, hI.pid⟩
    exact hI.back.step (senderCounter_of n) h fun ho => .inl (by rwa [hm] at ho)

/-- Where the receiver sends, `pid` names the sender. -/
theorem Counts.pid_eq (hI : Counts D n p q) (hq : q.Quiet) (hr : 0 < q.vars.received) :
    q.vars.pid = some .sender := by
  rcases hI.pid with h | h | ⟨f, hf, -⟩
  · omega
  · exact h
  · rw [hq.1] at hf
    cases hf

/-- The receiver's main code takes a step. -/
theorem Counts.receiverMain (hD : D.Sound) (hn : 1 ≤ n) (hI : Counts D n p q) (hq : q.Quiet) {v : ReceiverVars}
    {m : ReceiverPc} (h : Burst.receiverMain q.vars q.main = some (v, m, o)) :
    Counts D n (p.post D o) { q with vars := v, main := m } := by
  have hpid := hI.pid_eq hq
  have hreceived := hI.received
  obtain ⟨hthere, hback, hsender, hbound, hpid'⟩ := hI
  have hstep : Burst.receiver.Steps D q .main { q with vars := v, main := m } o := .main hq h
  obtain rfl := receiverMain_vars h
  -- the same with the roles exchanged, where the count to send is what has been received
  suffices hmain : Counter.Toward D senderCounter (returned q.vars m) (answered m = true) (p.post D o)
      (senderOut p.main = true) ∧ m.InBounds q.vars ∧
        (m ≠ .loop → q.main ≠ .loop ∨ q.Quiet ∧ receiverCounter.loop q.vars = 0) by
    obtain ⟨h1, h2, h3⟩ := hmain
    refine ⟨?_, by rwa [Process.post_main], by rwa [Process.post_main], h2, hpid'⟩
    rw [Process.post_main]
    exact hthere.step receiverCounter_of hstep h3
  cases hm : q.main with
  | loop =>
    rw [hm] at h hback
    cases h
    by_cases hloop : q.vars.loop = 0
    · rw [if_neg (not_not.2 hloop)]
      exact ⟨hback.sendNone (by rintro ⟨⟩), Nat.zero_le _, fun _ => .inr ⟨hq, hloop⟩⟩
    · rw [if_pos hloop]
      exact ⟨hback.sendNone id, trivial, fun h => absurd rfl h⟩
  | test i =>
    rw [hm] at h hback hbound
    cases h
    by_cases hi : i < q.vars.received
    · rw [if_pos hi]
      exact ⟨hback.sendNone id, hi, fun _ => .inl (by rintro ⟨⟩)⟩
    · rw [if_neg hi]
      obtain rfl : i = q.vars.received := le_antisymm hbound (not_lt.1 hi)
      exact ⟨hback.sendNone (by rintro ⟨⟩), trivial, fun _ => .inl (by rintro ⟨⟩)⟩
  | kill i =>
    rw [hm] at h hback hbound
    -- `pid` has been set by a handler, so the signal goes to the sender
    have hset := hpid ((Nat.zero_le i).trans_lt hbound)
    simp only [Burst.receiverMain, Handshake.kill, hset, if_true] at h
    cases h
    exact ⟨hback.sendCount (senderCounter_of n) hD (by rintro ⟨⟩), hbound, fun _ => .inl (by rintro ⟨⟩)⟩
  | killLoop =>
    -- at least one signal has been counted behind the loop, so `pid` is set here too
    have hset := hpid ((hreceived (by rw [hm]; rintro ⟨⟩)).pos hn)
    rw [hm] at h hback
    simp only [Burst.receiverMain, Handshake.kill, hset, if_true] at h
    cases h
    exact ⟨hback.sendStop (senderCounter_of n) (by rintro ⟨⟩) rfl, trivial, fun _ => .inl (by rintro ⟨⟩)⟩
  | print =>
    rw [hm] at h hback
    cases h
    exact ⟨hback.sendNone id, trivial, fun _ => .inl (by rintro ⟨⟩)⟩
  | returned =>
    rw [hm] at h
    cases h

/-- The handlers of the receiver set `pid` after they have counted. -/
theorem pid_step (h : Burst.receiver.Steps D q a q' o) (ha : a ≠ .main)
    (hpid : q.vars.received = 0 ∨ q.vars.pid = some .sender ∨ ∃ f ∈ q.frames, f.2 = .setPid) :
    q'.vars.received = 0 ∨ q'.vars.pid = some .sender ∨ ∃ f ∈ q'.frames, f.2 = .setPid := by
  cases h with
  | main => exact absurd rfl ha
  | @handler s f rest v f' o he hf h =>
    rw [hf] at hpid
    have hrest : ∀ g : Signal × ReceiverHandler, (∃ f ∈ g :: rest, f.2 = .setPid) → g.2 ≠ .setPid →
        ∃ f ∈ (s, f') :: rest, f.2 = .setPid := fun g ⟨f, hf, hs⟩ hg => by
      rcases List.mem_cons.1 hf with rfl | hf
      · exact absurd hs hg
      · exact ⟨f, List.mem_cons_of_mem _ hf, hs⟩
    cases f with
    | entry =>
      cases s with
      | SIGUSR1 =>
        cases h
        exact .inr (.inr ⟨_, List.mem_cons_self, rfl⟩)
      | SIGUSR2 =>
        cases h
        exact hpid.imp_right fun h => h.imp_right fun h => hrest (.SIGUSR2, .entry) h nofun
    | setPid =>
      cases h
      exact .inr (.inl rfl)
    | print =>
      cases h
      exact hpid.imp_right fun h => h.imp_right fun h => hrest (s, .print) h nofun
    | ret => cases h
  | @ret s f rest v o he hf h =>
    rw [hf] at hpid
    cases f with
    | ret =>
      cases h
      refine hpid.imp_right fun h => h.imp_right fun ⟨f, hf, hs⟩ => ?_
      rcases List.mem_cons.1 hf with rfl | hf
      · cases hs
      · exact ⟨f, hf, hs⟩
    | entry => cases s <;> cases h
    | setPid | print => cases h
  | start he h =>
    exact hpid.imp_right fun h => h.imp_right fun ⟨f, hf, hs⟩ => ⟨f, List.mem_cons_of_mem _ hf, hs⟩

/-- Behind its while loop the receiver counts no more. -/
theorem Counts.stays (hI : Counts D n p q) (h : Burst.receiver.Steps D q a q' o) (hq : q.main ≠ .loop) :
    q'.main ≠ .loop ∧ q'.vars.received = q.vars.received := by
  refine ⟨?_, (receiverCounter_of.settled h (hI.there.settled hq).1).2⟩
  by_cases ha : a = .main
  · cases h with
    | main _ hm => exact receiverMain_ne_loop hm hq
    | _ => cases ha
  · rwa [(receiverCounter_of.main_eq h ha).1]

theorem Counts.receiver_step (hD : D.Sound) (hn : 1 ≤ n) (hI : Counts D n p q) (h : Burst.receiver.Steps D q a q' o) :
    Counts D n (p.post D o) q' := by
  by_cases ha : a = .main
  · cases h with
    | main hq h => exact hI.receiverMain hD hn hq h
    | _ => cases ha
  · obtain ⟨hm, rfl⟩ := receiverCounter_of.main_eq h ha
    have hthere : Counter.Toward D receiverCounter (sent n p.main) (finished p.main = true) q' (q'.main ≠ .loop) :=
      hI.there.step receiverCounter_of h fun ho => .inl (by rwa [hm] at ho)
    by_cases hq : q.main = .loop
    · have hback := hI.back
      rw [hq] at hback
      refine ⟨hthere, ?_, hI.sender, ?_, pid_step h ha hI.pid⟩
      · rw [hm, hq]
        exact hback
      · rw [hm, hq]
        trivial
    · -- nothing is left to be counted
      have hr := (hI.stays h hq).2
      refine ⟨hthere, ?_, hI.sender, ?_, pid_step h ha hI.pid⟩
      · have hreturned : returned q'.vars q'.main = returned q.vars q.main := by
          rw [hm]
          unfold returned
          rw [hr]
        rw [hreturned, hm]
        exact hI.back
      · have hbound := hI.receiver
        rw [hm]
        unfold ReceiverPc.InBounds at *
        rwa [hr]

end Steps

/-! ## Runs -/

section Runs

variable {D : Delivery Signal} {n : ℕ} {s s' : Sender × Receiver}

theorem start_not_told : ¬ senderCounter.Told senderStart ∧ ¬ receiverCounter.Told receiverStart := by
  constructor <;> rintro (h | h | h) <;> cases h

theorem start_counts (D : Delivery Signal) (n : ℕ) : Counts D n senderStart receiverStart where
  there := ⟨.zero D, fun h => (start_not_told.2 h).elim, fun h => absurd rfl h⟩
  back := ⟨.zero D, fun h => (start_not_told.1 h).elim, nofun⟩
  sender := Nat.zero_le n
  receiver := trivial
  pid := .inl rfl

theorem reachable_counts (hD : D.Sound) (hn : 1 ≤ n) (h : (burst D n).Reachable s) : Counts D n s.1 s.2 := by
  refine Code.duo_invariant (fun p q hs => ?_) (fun p q a p' o hI hs => hI.sender_step hD (Code.step_cases hs))
    (fun p q a q' o hI hs => hI.receiver_step hD hn (Code.step_cases hs)) h
  obtain ⟨rfl, rfl⟩ := Prod.mk.inj hs
  exact start_counts D n

/-- At its last printf the sender has counted what came back, as far as it was kept. -/
theorem Counts.sender_received {p : Sender} {q : Receiver} (hI : Counts D n p q) (hm : p.main = .print) :
    q.main ≠ .loop ∧ Arrived D q.vars.received p.vars.received := by
  have hout : senderOut p.main = true := by rw [hm]; rfl
  have hans := (hI.back.settled hout).2
  have hreceived := hI.back.received hout
  cases hq : q.main <;> rw [hq] at hans hreceived <;> first | exact ⟨nofun, hreceived⟩ | cases hans

/-- What the receiver has counted when it leaves its while loop stays, whatever is done afterwards. -/
theorem received_stays (hD : D.Sound) (hn : 1 ≤ n) (h : (burst D n).Reachable s) (hq : s.2.main ≠ .loop)
    (as : List (Act Signal ⊕ Act Signal)) (hr : (burst D n).run s as = some s') :
    s'.2.vars.received = s.2.vars.received := by
  let R : Sender × Receiver → Sender × Receiver → Prop := fun s s' =>
    s.2.main ≠ .loop → s'.2.main ≠ .loop ∧ s'.2.vars.received = s.2.vars.received
  refine (System.run_rel (R := R) (fun s hq => ⟨hq, rfl⟩) (fun a b c hab hbc hq => ?_) ?_ as h hr hq).2
  · obtain ⟨hb, hb'⟩ := hab hq
    obtain ⟨hc, hc'⟩ := hbc hb
    exact ⟨hc, hc'.trans hb'⟩
  · rintro s (a | a) s' hs hnext hq
    · obtain ⟨⟨p', o⟩, -, rfl⟩ := Option.map_eq_some_iff.1 hnext
      exact ⟨by rwa [Process.post_main], by rw [Process.post_vars]⟩
    · obtain ⟨⟨q', o⟩, hstep, rfl⟩ := Option.map_eq_some_iff.1 hnext
      exact (reachable_counts hD hn hs).stays (Code.step_cases hstep) hq

end Runs

/-! ## The two versions -/

/-- With real-time signals, in every run: from the end of its while loop on the receiver has counted all signals,
and so has the sender at its last printf. -/
theorem realtime_counts {n : ℕ} (hn : 1 ≤ n) {s : Sender × Receiver} (h : (burst realtime n).Reachable s) :
    (s.2.main ≠ .loop → s.2.vars.received = n) ∧ (s.1.main = .print → s.1.vars.received = n) := by
  have hI := reachable_counts realtime_sound hn h
  have hreceiver : s.2.main ≠ .loop → s.2.vars.received = n := fun hq => (hI.received hq).eq realtime_lossless
  refine ⟨hreceiver, fun hm => ?_⟩
  obtain ⟨hq, hback⟩ := hI.sender_received hm
  rw [hback.eq realtime_lossless, hreceiver hq]

/-- Two real-time signals: both are counted, and both come back. -/
def twoRealtime : List (Act Signal ⊕ Act Signal) :=
  List.flatten [List.replicate 6 (.inl .main), [.inr (.start .SIGUSR1)], List.replicate 4 (.inr .handler),
    [.inr (.start .SIGUSR1)], List.replicate 4 (.inr .handler), [.inr (.start .SIGUSR2)],
    List.replicate 2 (.inr .handler), List.replicate 7 (.inr .main), [.inl (.start .SIGUSR1), .inl .handler],
    [.inl .handler, .inl (.start .SIGUSR1), .inl .handler, .inl .handler, .inl (.start .SIGUSR2)],
    List.replicate 2 (.inl .handler), List.replicate 2 (.inl .main)]

theorem realtime_counts_two : ∃ s, (burst realtime 2).run (senderStart, receiverStart) twoRealtime = some s ∧
    s.2.vars.received = 2 ∧ s.1.main = .print ∧ s.1.vars.received = 2 := by
  obtain ⟨s, hs, h1, h2⟩ : ∃ s, (burst realtime 2).run (senderStart, receiverStart) twoRealtime = some s ∧
    s.1.main = .print ∧ s.2.main = .print := ⟨_, rfl, rfl, rfl⟩
  have hc := realtime_counts (by decide) (System.Reachable.run twoRealtime (.init rfl) hs)
  exact ⟨s, hs, hc.1 (by rw [h2]; nofun), h1, hc.2 h1⟩

/-- With standard signals, in every run: when it leaves its while loop the receiver has counted at least one
signal and no more than were sent, and that stays; at its last printf the sender has counted at least one and no
more than the receiver. -/
theorem plain_counts {n : ℕ} (hn : 1 ≤ n) {s : Sender × Receiver} (h : (burst plain n).Reachable s) :
    (s.2.main ≠ .loop → (1 ≤ s.2.vars.received ∧ s.2.vars.received ≤ n) ∧
      ∀ as s', (burst plain n).run s as = some s' → s'.2.vars.received = s.2.vars.received) ∧
    (s.1.main = .print → 1 ≤ s.1.vars.received ∧ s.1.vars.received ≤ s.2.vars.received) := by
  have hI := reachable_counts plain_sound hn h
  refine ⟨fun hq => ⟨⟨(hI.received hq).pos hn, (hI.received hq).le⟩, fun as s' => ?_⟩, fun hm => ?_⟩
  · exact received_stays plain_sound hn h hq as
  · obtain ⟨hq, hback⟩ := hI.sender_received hm
    exact ⟨hback.pos ((hI.received hq).pos hn), hback.le⟩

/-- Two standard signals of which the second finds the first pending. -/
def twoPlain : List (Act Signal ⊕ Act Signal) :=
  List.flatten [List.replicate 6 (.inl .main), [.inr (.start .SIGUSR1)], List.replicate 4 (.inr .handler),
    [.inr (.start .SIGUSR2)], List.replicate 2 (.inr .handler), List.replicate 5 (.inr .main),
    [.inl (.start .SIGUSR1)], List.replicate 2 (.inl .handler), [.inl (.start .SIGUSR2)],
    List.replicate 2 (.inl .handler), List.replicate 2 (.inl .main)]

theorem plain_counts_two : ∃ s, (burst plain 2).run (senderStart, receiverStart) twoPlain = some s ∧
    (1 ≤ s.2.vars.received ∧ s.2.vars.received ≤ 2) ∧ s.1.main = .print ∧ 1 ≤ s.1.vars.received := by
  obtain ⟨s, hs, h1, h2⟩ : ∃ s, (burst plain 2).run (senderStart, receiverStart) twoPlain = some s ∧
    s.1.main = .print ∧ s.2.main = .print := ⟨_, rfl, rfl, rfl⟩
  have hc := plain_counts (by decide) (System.Reachable.run twoPlain (.init rfl) hs)
  exact ⟨s, hs, (hc.1 (by rw [h2]; nofun)).1, h1, (hc.2 h1).1⟩

end Sysopy.Signals.Burst
