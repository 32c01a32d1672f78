/-
When the handshake (cw04/zad2/zad2b) hangs. The sender sets `wait` only after its kill, so an answer that its
handler takes in between is forgotten, and the sender spins with nothing left on its way. As long as no handler
of SIGUSR1 starts there the sender never spins in vain; and whenever one does the sender can end up so.
-/
import Sysopy.Signals.HandshakeCounts

namespace Sysopy.Signals.Handshake

open Sysopy.Conc

/-- The sender spins in `while(wait)`, no SIGUSR1 is pending, no handler runs, and the receiver is in its
`while(loop)`. -/
def Hangs (s : Sender × Receiver) : Prop :=
  (∃ i, s.1.main = .spin i) ∧ s.1.vars.wait = 1 ∧ s.1.pending .SIGUSR1 = 0 ∧ s.2.pending .SIGUSR1 = 0 ∧
    s.1.frames = [] ∧ s.2.frames = [] ∧ s.2.main = .loop

/-- The step does not start the sender's handler of SIGUSR1 between `kill(pid, SIGUSR1)` and `wait = 1`. -/
def Timely (s : Sender × Receiver) (a : Act Signal ⊕ Act Signal) : Prop :=
  a = .inl (.start .SIGUSR1) → ∀ i, s.1.main ≠ .setWait i

def SenderPc.beforeWait : SenderPc → Bool
  | .setWait _ => true
  | _ => false

theorem SenderPc.beforeWait_eq_false {m : SenderPc} : m.beforeWait = false ↔ ∀ i, m ≠ .setWait i := by
  cases m <;> simp [beforeWait]

instance (s : Sender × Receiver) (a : Act Signal ⊕ Act Signal) : Decidable (Timely s a) :=
  decidable_of_iff (a = .inl (.start .SIGUSR1) → s.1.main.beforeWait = false)
    (imp_congr_right fun _ => SenderPc.beforeWait_eq_false)

/-! ## Without a handler in between -/

/-- Before `wait = 1` the answer has not been counted, and while the sender spins on 1 it has not been counted
or its handler is about to clear `wait`. -/
def Awaits (p : Sender) : SenderPc → Prop
  | .setWait i => p.vars.received = i ∧ p.load (uncounted .entry) = 0
  | .spin i => p.vars.wait ≠ 0 → p.vars.received = i ∨ ∃ f ∈ p.frames, f.2 = .clearWait
  | _ => True

section Steps

variable {n : ℕ} {p p' : Sender} {q : Receiver} {a : Act Signal} {o : Option Signal}

theorem awaits_main (hI : Counts n p q) (hA : Awaits p p.main) (hq : p.Quiet) {v : SenderVars} {m : SenderPc}
    (h : Handshake.senderMain n p.vars p.main = some (v, m, o)) : Awaits { p with vars := v, main := m } m := by
  have hmain := hI.main
  cases hm : p.main with
  | test i =>
    rw [hm] at h
    cases h
    split <;> trivial
  | kill i =>
    rw [hm] at h hmain
    cases h
    exact ⟨hmain.2, Process.load_of_nil _ hq.1⟩
  | setWait i =>
    rw [hm] at h hA
    cases h
    exact fun _ => .inl hA.1
  | spin i =>
    rw [hm] at h hA
    cases h
    by_cases hwait : p.vars.wait ≠ 0
    · rw [if_pos hwait]
      exact hA
    · rw [if_neg hwait]
      trivial
  | loop =>
    rw [hm] at h
    cases h
    split <;> trivial
  | killLoop | print =>
    rw [hm] at h
    cases h
    trivial
  | returned =>
    rw [hm] at h
    cases h

/-- A step of a handler that neither counts nor loses the handler that clears `wait`. -/
theorem Awaits.keep {m : SenderPc} (hA : Awaits p m) {v : SenderVars} {frames : List (Signal × SenderHandler)}
    {pending : Signal → ℕ} (hv : v.received = p.vars.received) (hwait : v.wait ≠ 0 → p.vars.wait ≠ 0)
    (hload : (frames.map (uncounted .entry)).sum ≤ p.load (uncounted .entry))
    (hclear : v.wait ≠ 0 → ∀ f ∈ p.frames, f.2 = .clearWait → f ∈ frames) : Awaits ⟨v, p.main, frames, pending⟩ m := by
  cases m with
  | setWait i =>
    refine ⟨hv.trans hA.1, ?_⟩
    have := hA.2
    show (frames.map (uncounted .entry)).sum = 0
    omega
  | spin i =>
    intro hw
    rcases hA (hwait hw) with h | ⟨f, hf, hc⟩
    · exact .inl (hv.trans h)
    · exact .inr ⟨f, hclear hw f hf hc, hc⟩
  | _ => trivial

theorem awaits_step (hI : Counts n p q) (hA : Awaits p p.main) (hok : Timely (p, q) (.inl a))
    (h : (sender n).Steps (.standard Signal) p a p' o) : Awaits p' p'.main := by
  cases h with
  | main hq h => exact awaits_main hI hA hq h
  | @handler s f rest v f' o he hf h =>
    have hload := Process.load_of_cons (uncounted SenderHandler.entry) hf
    cases f with
    | entry =>
      by_cases hs : s = .SIGUSR1
      · subst hs
        cases h
        rw [show uncounted SenderHandler.entry (.SIGUSR1, .entry) = 1 from rfl] at hload
        dsimp only
        cases hm : p.main with
        | setWait i =>
          rw [hm] at hA
          -- no handler that has not counted is running between the kill and the setting of `wait`
          have := hA.2
          omega
        | spin i => exact fun _ => .inr ⟨_, List.mem_cons_self, rfl⟩
        | _ => trivial
      · simp only [sender, Handshake.senderHandler, if_neg hs] at h
        cases h
        refine hA.keep rfl id ?_ fun _ g hg hc => ?_
        · rw [hload]
          simp [uncounted]
        · rw [hf] at hg
          rcases List.mem_cons.1 hg with rfl | hg
          · cases hc
          · exact List.mem_cons_of_mem _ hg
    | clearWait =>
      cases h
      -- `wait` is cleared, and the sender no longer awaits anything
      refine hA.keep rfl (fun h => absurd rfl h) ?_ fun h => absurd rfl h
      rw [hload]
      simp [uncounted]
    | ret => cases h
  | @ret s f rest v o he hf h =>
    have hload := Process.load_of_cons (uncounted SenderHandler.entry) hf
    obtain ⟨rfl, rfl⟩ := senderHandler_ret h
    refine hA.keep rfl id (by omega) fun _ g hg hc => ?_
    rw [hf] at hg
    rcases List.mem_cons.1 hg with rfl | hg
    · cases hc
    · exact hg
  | @start s he h =>
    by_cases hs : s = .SIGUSR1
    · subst hs
      -- the signal does not come in just before `wait` is set
      have hset := hok rfl
      show Awaits _ p.main
      cases hm : p.main with
      | setWait i => exact absurd hm (hset i)
      | spin i =>
        rw [hm] at hA
        intro hw
        rcases hA hw with hw | ⟨f, hf, hc⟩
        · exact .inl hw
        · exact .inr ⟨f, List.mem_cons_of_mem _ hf, hc⟩
      | _ => trivial
    · refine hA.keep rfl id ?_ fun _ g hg _ => List.mem_cons_of_mem _ hg
      simp [uncounted, hs, Process.load]

end Steps

/-- A sender that awaits an answer does not hang: the answer is on its way. -/
theorem Counts.not_hangs {n : ℕ} {s : Sender × Receiver} (hI : Counts n s.1 s.2) (hA : Awaits s.1 s.1.main) :
    ¬ Hangs s := by
  rintro ⟨⟨i, hm⟩, hwait, hp, hq, hpf, hqf, -⟩
  rw [hm] at hA
  have hreceived : s.1.vars.received = i := by
    rcases hA (by omega) with h | ⟨f, hf, -⟩
    · exact h
    · rw [hpf] at hf
      cases hf
  have hthere := hI.there
  have hback := hI.back
  rw [hm, hq, Process.load_of_nil _ hqf] at hthere
  rw [hp, Process.load_of_nil _ hpf, Process.load_of_nil _ hqf] at hback
  have hsent : sent n (.spin i) = i + 1 := rfl
  omega

theorem awaits_of_timely {n : ℕ} {s : Sender × Receiver} (h : (handshake n).ReachableIf Timely s) :
    Awaits s.1 s.1.main := by
  refine h.invariant (I := fun s => Awaits s.1 s.1.main) (fun s hs => ?_) fun s a s' hr hA hok hs => ?_
  · cases hs
    trivial
  · have hI := reachable_counts hr
    cases a with
    | inl a =>
      obtain ⟨⟨p', o⟩, hp, rfl⟩ := Option.map_eq_some_iff.1 hs
      exact awaits_step hI hA hok (Code.step_cases hp)
    | inr b =>
      obtain ⟨⟨q', o⟩, hq, rfl⟩ := Option.map_eq_some_iff.1 hs
      show Awaits (s.1.post _ o) (s.1.post _ o).main
      rw [Process.post_main]
      cases hm : s.1.main with
      | setWait i | spin i =>
        rw [hm] at hA
        simpa only [Awaits, Process.post_vars, Process.post_frames, Process.load_post] using hA
      | _ => trivial

/-! ## With a handler in between -/

/-- While the receiver is in its loop it has sent no SIGUSR2. -/
def Unended (p : Sender) (q : Receiver) : Prop :=
  q.main = .loop → p.pending .SIGUSR2 = 0 ∧ ∀ f ∈ p.frames, f.1 ≠ .SIGUSR2

section Unended

variable {n : ℕ} {p p' : Sender} {q q' : Receiver} {a : Act Signal} {o : Option Signal}

theorem Unended.sender_step (hU : Unended p q) (h : (sender n).Steps (.standard Signal) p a p' o) :
    Unended p' (q.post (.standard Signal) o) := by
  intro hm
  rw [Process.post_main] at hm
  obtain ⟨hpending, hframes⟩ := hU hm
  cases h with
  | main hq h => exact ⟨hpending, hframes⟩
  | @handler s f rest v f' o he hf h =>
    rw [hf] at hframes
    refine ⟨hpending, fun g hg => ?_⟩
    rcases List.mem_cons.1 hg with rfl | hg
    · exact hframes (s, f) List.mem_cons_self
    · exact hframes g (List.mem_cons_of_mem _ hg)
  | @ret s f rest v o he hf h =>
    rw [hf] at hframes
    exact ⟨hpending, fun g hg => hframes g (List.mem_cons_of_mem _ hg)⟩
  | @start s he h =>
    have hs : s ≠ .SIGUSR2 := by
      rintro rfl
      have := h.1
      omega
    refine ⟨?_, fun g hg => ?_⟩
    · show Function.update p.pending s _ .SIGUSR2 = 0
      rw [Function.update_of_ne (Ne.symm hs), hpending]
    · rcases List.mem_cons.1 hg with rfl | hg
      · exact hs
      · exact hframes g hg

/-- In its loop the receiver sends no SIGUSR2. -/
theorem send_of_loop (h : receiver.Steps (.standard Signal) q a q' o) (hm : q'.main = .loop) :
    q.main = .loop ∧ o ≠ some .SIGUSR2 := by
  cases h with
  | main hq h =>
    cases hq' : q.main <;> rw [hq'] at h <;> cases h
    · exact ⟨rfl, nofun⟩
    · cases hm
    · cases hm
  | handler he hf h | ret he hf h =>
    refine ⟨hm, ?_⟩
    rintro rfl
    cases (receiverHandler_sends h).1
  | start he h => exact ⟨hm, nofun⟩

theorem Unended.receiver_step (hU : Unended p q) (h : receiver.Steps (.standard Signal) q a q' o) :
    Unended (p.post (.standard Signal) o) q' := by
  intro hm
  obtain ⟨hloop, ho⟩ := send_of_loop h hm
  obtain ⟨hpending, hframes⟩ := hU hloop
  refine ⟨?_, by rwa [Process.post_frames]⟩
  cases o with
  | none => exact hpending
  | some s =>
    rw [Process.post_some_of_ne fun h => ho (congrArg some h.symm), hpending]

theorem reachable_unended {s : Sender × Receiver} (h : (handshake n).Reachable s) : Unended s.1 s.2 := by
  refine Code.duo_invariant (fun p q hs => ?_) (fun p q a p' o hU hs => hU.sender_step (Code.step_cases hs))
    (fun p q a q' o hU hs => hU.receiver_step (Code.step_cases hs)) h
  obtain ⟨rfl, rfl⟩ := Prod.mk.inj hs
  exact fun _ => ⟨rfl, nofun⟩

end Unended

section Late

variable {n i : ℕ} {p : Sender} {q : Receiver}

/-- What is on its way when a handler of SIGUSR1 may start between the kill and `wait = 1`: the answer, which is
pending, and nothing else. -/
theorem late_shape (hI : Counts n p q) (hU : Unended p q) (hm : p.main = .setWait i)
    (hstart : p.MayStart (.standard Signal) .SIGUSR1) :
    p.frames = [] ∧ p.pending .SIGUSR1 = 1 ∧ p.pending .SIGUSR2 = 0 ∧ q.main = .loop ∧ q.pending .SIGUSR1 = 0 ∧
      ∀ f ∈ q.frames, f.2 = .ret := by
  have hthere := hI.there
  have hback := hI.back
  have hmain := hI.main
  have hpos := hstart.1
  rw [hm] at hthere hmain
  have hle : i ≤ p.vars.received := hmain.2
  have hsent : sent n (.setWait i) = i + 1 := rfl
  have hfin : finished p.main = false := by rw [hm]; rfl
  have hloop : q.main = .loop := by
    by_contra hc
    exact (hI.unfinished hfin).1 (hI.left hc)
  obtain ⟨hpending, hframes⟩ := hU hloop
  refine ⟨List.eq_nil_iff_forall_not_mem.2 fun f hf => ?_, by omega, hpending, hloop, by omega, fun f hf => ?_⟩
  · -- a handler of the sender would be one of SIGUSR1
    have hs : f.1 = .SIGUSR1 := by
      have := hframes f hf
      rcases f with ⟨s, x⟩
      cases s
      · rfl
      · exact absurd rfl this
    exact hstart.2.1 (hs ▸ List.mem_map_of_mem hf)
  · have h1 : uncounted ReceiverHandler.entry f = 0 := by
      have := List.single_le_sum (fun _ _ => Nat.zero_le _) _
        (List.mem_map_of_mem (f := uncounted ReceiverHandler.entry) hf)
      simp only [Process.load] at hthere
      omega
    have h2 : owes f = 0 := by
      have := List.single_le_sum (fun _ _ => Nat.zero_le _) _ (List.mem_map_of_mem (f := owes) hf)
      simp only [Process.load] at hback
      omega
    have hs := (hI.unfinished hfin).2.2 f hf
    rcases f with ⟨s, x⟩
    cases s with
    | SIGUSR1 =>
      cases x with
      | entry => exact absurd h1 (by decide)
      | ret => rfl
      | _ => exact absurd h2 (by decide)
    | SIGUSR2 => exact absurd rfl hs

/-- Handlers that have only to return do so. -/
theorem run_returns (n : ℕ) (p : Sender) (v : ReceiverVars) (pending : Signal → ℕ)
    (frames : List (Signal × ReceiverHandler)) (hf : ∀ f ∈ frames, f.2 = .ret) :
    (handshake n).run (p, ⟨v, .loop, frames, pending⟩)
      (List.replicate frames.length (.inr .handler)) = some (p, ⟨v, .loop, [], pending⟩) := by
  induction frames with
  | nil => rfl
  | cons f rest ih =>
    obtain ⟨s, x⟩ := f
    obtain rfl : x = .ret := hf (s, x) List.mem_cons_self
    exact ih fun g hg => hf g (List.mem_cons_of_mem _ hg)

/-- The sender takes the answer, sets `wait` and spins. -/
theorem run_late (n i : ℕ) (v : SenderVars) (q : Receiver) {pending : Signal → ℕ} (h1 : pending .SIGUSR1 = 0)
    (h2 : pending .SIGUSR2 = 0) :
    (handshake n).run (⟨v, .setWait i, [(.SIGUSR1, .entry)], pending⟩, q)
      [.inl .handler, .inl .handler, .inl .handler, .inl .main] =
      some (⟨⟨v.received + 1, v.loop, 1⟩, .spin i, [], pending⟩, q) := by
  have hquiet : (⟨⟨v.received + 1, v.loop, 0⟩, .setWait i, [], pending⟩ : Sender).Quiet :=
    ⟨rfl, fun s => by cases s <;> assumption⟩
  have hmain : (handshake n).next (⟨⟨v.received + 1, v.loop, 0⟩, .setWait i, [], pending⟩, q) (.inl .main) =
      some (⟨⟨v.received + 1, v.loop, 1⟩, .spin i, [], pending⟩, q) := by
    simp only [handshake, Code.duo, Code.step, if_pos hquiet]
    rfl
  show ((handshake n).next (⟨⟨v.received + 1, v.loop, 0⟩, .setWait i, [], pending⟩, q) (.inl .main)).bind _ = _
  rw [hmain]
  rfl

/-- After such a start the sender can hang. -/
theorem late_hangs {s s' : Sender × Receiver} {a : Act Signal ⊕ Act Signal} (h : (handshake n).Reachable s)
    (hlate : ¬ Timely s a) (hs : (handshake n).next s a = some s') :
    ∃ as t, (handshake n).run s' as = some t ∧ Hangs t := by
  simp only [Timely, not_forall, not_not] at hlate
  obtain ⟨rfl, i, hm⟩ := hlate
  obtain ⟨⟨p', o⟩, hp, rfl⟩ := Option.map_eq_some_iff.1 hs
  have hstep := Code.step_cases hp
  cases hstep with
  | start he hstart =>
    obtain ⟨hframes, h1, h2, hloop, hq, hret⟩ := late_shape (reachable_counts h) (reachable_unended h) hm hstart
    rcases s with ⟨⟨v, m, frames, pending⟩, ⟨w, m', frames', pending'⟩⟩
    dsimp only at hm hframes h1 h2 hloop hq hret
    subst hm hframes hloop
    have hfree : Function.update pending .SIGUSR1 (pending .SIGUSR1 - 1) .SIGUSR1 = 0 := by
      rw [Function.update_self, h1]
    have hlate := run_late n i v ⟨w, .loop, frames', pending'⟩ hfree (by rw [Function.update_of_ne (by decide), h2])
    have hrun : (handshake n).run (⟨v, .setWait i, [(.SIGUSR1, .entry)],
        Function.update pending .SIGUSR1 (pending .SIGUSR1 - 1)⟩, ⟨w, .loop, frames', pending'⟩)
        ([.inl .handler, .inl .handler, .inl .handler, .inl .main] ++ List.replicate frames'.length (.inr .handler)) =
        some (⟨⟨v.received + 1, v.loop, 1⟩, .spin i, [], Function.update pending .SIGUSR1 (pending .SIGUSR1 - 1)⟩,
          ⟨w, .loop, [], pending'⟩) := by
      rw [System.run_append, hlate]
      exact run_returns n _ w pending' frames' hret
    exact ⟨_, _, hrun, ⟨i, rfl⟩, rfl, hfree, hq, rfl, rfl, rfl⟩

end Late

/-! ## The hang -/

/-- In every run in which no handler of SIGUSR1 starts between the sender's kill and its `wait = 1`, for any
number of signals, the sender does not hang. In every other run it can: from the state after such a start
the two get to where it does. -/
theorem hangs_only_late {n : ℕ} : (∀ s, (handshake n).ReachableIf Timely s → ¬ Hangs s) ∧
    ∀ s a s', (handshake n).Reachable s → ¬ Timely s a → (handshake n).next s a = some s' →
      ∃ as t, (handshake n).run s' as = some t ∧ Hangs t :=
  ⟨fun _ h => (reachable_counts h.reachable).not_hangs (awaits_of_timely h),
    fun _ _ _ h hlate hs => late_hangs h hlate hs⟩

/-- The first of two signals has come back, the sender has sent the second and spins, and it does not hang. -/
theorem hangs_only_late_twoSignals : ∃ s,
    (handshake 2).run (senderStart, receiverStart) (round ++ List.replicate 3 (.inl .main)) = some s ∧
    s.1.main = .spin 1 ∧ s.1.vars = ⟨1, 1, 1⟩ ∧ ¬ Hangs s := by
  obtain ⟨s, hs, hrun, hm, hv⟩ : ∃ s,
    (handshake 2).runIf Timely (senderStart, receiverStart) (round ++ List.replicate 3 (.inl .main)) = some s ∧
    (handshake 2).run (senderStart, receiverStart) (round ++ List.replicate 3 (.inl .main)) = some s ∧
    s.1.main = .spin 1 ∧ s.1.vars = ⟨1, 1, 1⟩ := ⟨_, rfl, rfl, rfl, rfl⟩
  exact ⟨s, hrun, hm, hv, hangs_only_late.1 s (System.ReachableIf.runIf _ (.init rfl) hs)⟩

/-- One signal; the answer comes before `wait = 1`. -/
def earlyAnswer : List (Act Signal ⊕ Act Signal) :=
  List.flatten [[.inl .main, .inl .main, .inr (.start .SIGUSR1)], List.replicate 5 (.inr .handler),
    [.inl (.start .SIGUSR1)], List.replicate 3 (.inl .handler), [.inl .main]]

theorem earlyAnswer_hangs : ¬ ∀ n ≥ 1, ∀ s, (handshake n).Reachable s → ¬ Hangs s := by
  intro h
  obtain ⟨s, hs, hhang⟩ : ∃ s, (handshake 1).run (senderStart, receiverStart) earlyAnswer = some s ∧ Hangs s :=
    ⟨_, rfl, ⟨0, rfl⟩, rfl, rfl, rfl, rfl, rfl, rfl⟩
  exact h 1 le_rfl s (System.Reachable.run earlyAnswer (.init rfl) hs) hhang

end Sysopy.Signals.Handshake
