/-
The counts of the handshake (cw04/zad2/zad2b) agree: of every SIGUSR1 the sender has sent, the receiver has
counted it, or it is pending there or about to be counted, and of those the receiver has counted the same holds
on the way back. At most one is on its way, so none is lost to a pending one.
-/
import Sysopy.Signals.Handshake

namespace Sysopy.Signals.Handshake

open Sysopy.Conc

/-! ## The invariant -/

/-- How many SIGUSR1 the sender has sent. -/
def sent (n : ℕ) : SenderPc → ℕ
  | .test i | .kill i => i
  | .setWait i | .spin i => i + 1
  | _ => n

/-- The sender has sent its SIGUSR2. -/
def finished : SenderPc → Bool
  | .loop | .print | .returned => true
  | _ => false

/-- A handler of a process has a SIGUSR1 that it has not counted yet. -/
def uncounted {F : Type} [DecidableEq F] (entry : F) (f : Signal × F) : ℕ := if f = (.SIGUSR1, entry) then 1 else 0

/-- A handler of the receiver has counted a SIGUSR1 and not yet sent one back. -/
def owes : Signal × ReceiverHandler → ℕ
  | (_, .setPid) | (_, .print) | (_, .kill) => 1
  | _ => 0

/-- What the sender's main code knows. -/
def MainOK (n : ℕ) (v : SenderVars) : SenderPc → Prop
  | .test i => i ≤ n ∧ v.received = i
  | .kill i => i < n ∧ v.received = i
  | .setWait i => i < n ∧ i ≤ v.received
  | .spin i => i < n ∧ i ≤ v.received ∧ (v.wait = 0 → v.received = i + 1)
  | _ => v.received = n

structure Counts (n : ℕ) (p : Sender) (q : Receiver) : Prop where
  there : q.vars.received + q.pending .SIGUSR1 + q.load (uncounted .entry) = sent n p.main
  back : p.vars.received + p.pending .SIGUSR1 + p.load (uncounted .entry) + q.load owes = q.vars.received
  main : MainOK n p.vars p.main
  clear : ∀ f ∈ p.frames, f.2 = .clearWait → p.vars.received = sent n p.main
  unfinished : finished p.main = false → q.vars.loop ≠ 0 ∧ q.pending .SIGUSR2 = 0 ∧ ∀ f ∈ q.frames, f.1 ≠ .SIGUSR2
  left : q.main ≠ .loop → q.vars.loop = 0
  pid : ∀ f ∈ q.frames, f.2 = .print ∨ f.2 = .kill → q.vars.pid = some .sender

section Steps

variable {n : ℕ} {p p' : Sender} {q q' : Receiver} {a : Act Signal} {o : Option Signal}

/-- At most one SIGUSR1 is on its way. -/
theorem MainOK.sent_le {v : SenderVars} {m : SenderPc} (h : MainOK n v m) : sent n m ≤ v.received + 1 := by
  cases m <;> simp only [MainOK, sent] at h ⊢ <;> omega

/-- The sender counts a SIGUSR1 that has come back. -/
theorem MainOK.count {v : SenderVars} {m : SenderPc} (h : MainOK n v m) (hs : v.received + 1 = sent n m) :
    MainOK n { v with received := v.received + 1 } m := by
  cases m <;> simp only [MainOK, sent] at h hs ⊢ <;> omega

/-- The sender's handler clears `wait` after it has counted. -/
theorem MainOK.clear {v : SenderVars} {m : SenderPc} (h : MainOK n v m) (hs : v.received = sent n m) :
    MainOK n { v with wait := 0 } m := by
  cases m <;> simp only [MainOK, sent] at h hs ⊢ <;> omega

theorem MainOK.endLoop {v : SenderVars} {m : SenderPc} (h : MainOK n v m) : MainOK n { v with loop := 0 } m := by
  cases m <;> exact h

/-- The sender's main code takes a step. -/
theorem Counts.senderMain (hI : Counts n p q) (hq : p.Quiet) {v : SenderVars} {m : SenderPc}
    (h : Handshake.senderMain n p.vars p.main = some (v, m, o)) :
    Counts n { p with vars := v, main := m } (q.post (.standard Signal) o) := by
  obtain ⟨hthere, hback, hmain, -, hunfinished, hleft, hpid⟩ := hI
  rcases p with ⟨v₀, m₀, frames, pending⟩
  obtain ⟨rfl, hpending⟩ := hq
  dsimp only at hpending h hmain hunfinished hthere hback
  rw [hpending, Process.load_of_nil _ rfl] at hback
  have hclear : ∀ {P : Prop}, ∀ f ∈ ([] : List (Signal × SenderHandler)), f.2 = .clearWait → P :=
    fun f hf => by cases hf
  have hback' : ∀ (o : Option Signal) (v : SenderVars) (m : SenderPc), v.received = v₀.received →
      v.received + pending .SIGUSR1 + Process.load (uncounted SenderHandler.entry) (⟨v, m, [], pending⟩ : Sender) +
        (q.post (.standard Signal) o).load owes = (q.post (.standard Signal) o).vars.received := by
    intro o v m hv
    rw [hv, hpending, Process.load_of_nil _ rfl, Process.load_post, Process.post_vars]
    exact hback
  cases m₀ with
  | test i =>
    cases h
    by_cases hi : i < n
    · rw [if_pos hi]
      exact ⟨hthere, hback' none _ _ rfl, ⟨hi, hmain.2⟩, hclear, hunfinished, hleft, hpid⟩
    · rw [if_neg hi]
      obtain rfl : i = n := by have := hmain.1; omega
      exact ⟨hthere, hback' none _ _ rfl, hmain.2, hclear, hunfinished, hleft, hpid⟩
  | kill i =>
    cases h
    -- everything sent so far has come back, so nothing is pending at the receiver
    have hreceived := hmain.2
    refine ⟨?_, hback' _ _ _ rfl, ⟨hmain.1, hreceived.ge⟩, hclear, fun hf => ?_, ?_, ?_⟩
    · simp only [Process.post_vars, Process.post_some_self, Process.load_post, Delivery.standard, sent] at hthere ⊢
      omega
    · obtain ⟨hloop, hpend, hframes⟩ := hunfinished rfl
      refine ⟨hloop, ?_, hframes⟩
      rw [Process.post_some_of_ne (by decide), hpend]
    · exact hleft
    · exact hpid
  | setWait i =>
    cases h
    exact ⟨hthere, hback' none _ _ rfl, ⟨hmain.1, hmain.2, fun h => by cases h⟩, hclear, hunfinished, hleft, hpid⟩
  | spin i =>
    cases h
    by_cases hwait : v.wait = 0
    · rw [if_neg (not_not.2 hwait)]
      exact ⟨hthere, hback' none _ _ rfl, ⟨hmain.1, hmain.2.2 hwait⟩, hclear, hunfinished, hleft, hpid⟩
    · rw [if_pos hwait]
      exact ⟨hthere, hback' none _ _ rfl, hmain, hclear, hunfinished, hleft, hpid⟩
  | killLoop =>
    cases h
    refine ⟨?_, hback' _ _ _ rfl, hmain, hclear, nofun, hleft, hpid⟩
    rw [Process.post_some_of_ne (by decide), Process.load_post]
    exact hthere
  | loop =>
    cases h
    by_cases hloop : v.loop = 0
    · rw [if_neg (not_not.2 hloop)]
      exact ⟨hthere, hback' none _ _ rfl, hmain, hclear, nofun, hleft, hpid⟩
    · rw [if_pos hloop]
      exact ⟨hthere, hback' none _ _ rfl, hmain, hclear, nofun, hleft, hpid⟩
  | print =>
    cases h
    exact ⟨hthere, hback' none _ _ rfl, hmain, hclear, nofun, hleft, hpid⟩
  | returned => cases h

/-- A step of the sender's handler. -/
theorem Counts.senderHandler (hI : Counts n p q) {v : SenderVars} {frames : List (Signal × SenderHandler)}
    {pending : Signal → ℕ} (hback : v.received + pending .SIGUSR1 + (frames.map (uncounted .entry)).sum =
      p.vars.received + p.pending .SIGUSR1 + p.load (uncounted .entry)) (hmain : MainOK n v p.main)
    (hclear : ∀ f ∈ frames, f.2 = .clearWait → v.received = sent n p.main) :
    Counts n ⟨v, p.main, frames, pending⟩ q :=
  ⟨hI.there, hI.back ▸ congrArg (· + q.load owes) hback, hmain, hclear, hI.unfinished, hI.left, hI.pid⟩

theorem Counts.sender_step (hI : Counts n p q) (h : (sender n).Steps (.standard Signal) p a p' o) :
    Counts n p' (q.post (.standard Signal) o) := by
  have hback := hI.back
  have hthere := hI.there
  have hle := hI.main.sent_le
  cases h with
  | main hq h => exact hI.senderMain hq h
  | @handler s f rest v f' o he hf h =>
    have hload := Process.load_of_cons (uncounted SenderHandler.entry) hf
    have hrest : ∀ g ∈ rest, g.2 = .clearWait → p.vars.received = sent n p.main := fun g hg =>
      hI.clear g (by rw [hf]; exact List.mem_cons_of_mem _ hg)
    cases f with
    | entry =>
      by_cases hs : s = .SIGUSR1
      · subst hs
        cases h
        rw [hload, show uncounted SenderHandler.entry (.SIGUSR1, .entry) = 1 from rfl] at hback
        -- of the signals sent to and fro at most one is on its way, and this is it
        have hsent : p.vars.received + 1 = sent n p.main := by omega
        refine hI.senderHandler ?_ (hI.main.count hsent) fun g _ _ => hsent
        rw [hload, List.map_cons, List.sum_cons]
        show p.vars.received + 1 + _ + (0 + _) = _ + _ + (1 + _)
        omega
      · simp only [sender, Handshake.senderHandler, if_neg hs] at h
        cases h
        refine hI.senderHandler ?_ hI.main.endLoop fun g hg hc => ?_
        · rw [hload, List.map_cons, List.sum_cons]
          simp [uncounted, hs]
        · rcases List.mem_cons.1 hg with rfl | hg
          · cases hc
          · exact hrest g hg hc
    | clearWait =>
      cases h
      -- this handler has counted its signal already
      have hsent := hI.clear (s, .clearWait) (by rw [hf]; exact List.mem_cons_self) rfl
      refine hI.senderHandler ?_ (hI.main.clear hsent) fun g _ _ => hsent
      rw [hload, List.map_cons, List.sum_cons]
      simp [uncounted]
    | ret => cases h
  | @ret s f rest v o he hf h =>
    have hload := Process.load_of_cons (uncounted SenderHandler.entry) hf
    obtain rfl : o = none := senderHandler_sends h
    obtain ⟨rfl, rfl⟩ := senderHandler_ret h
    refine hI.senderHandler ?_ hI.main fun g hg hc => hI.clear g (by rw [hf]; exact List.mem_cons_of_mem _ hg) hc
    rw [hload]
    simp [uncounted]
  | @start s he h =>
    refine hI.senderHandler ?_ hI.main fun g hg hc => ?_
    · have hpos := h.1
      rw [List.map_cons, List.sum_cons]
      by_cases hs : s = .SIGUSR1
      · subst hs
        rw [Function.update_self, show uncounted SenderHandler.entry (.SIGUSR1, (sender n).entry) = 1 from rfl]
        show _ + _ + (1 + p.load _) = _
        omega
      · rw [Function.update_of_ne (Ne.symm hs)]
        simp [uncounted, hs, Process.load]
    · rcases List.mem_cons.1 hg with rfl | hg
      · cases hc
      · exact hI.clear g hg hc

/-- The receiver's main code takes a step. -/
theorem Counts.receiverMain (hI : Counts n p q) {v : ReceiverVars} {m : ReceiverPc}
    (h : Handshake.receiverMain q.vars q.main = some (v, m, o)) :
    Counts n (p.post (.standard Signal) o) { q with vars := v, main := m } := by
  obtain ⟨hthere, hback, hmain, hclear, hunfinished, hleft, hpid⟩ := hI
  rcases q with ⟨v₀, m₀, frames, pending⟩
  dsimp only at h
  cases m₀ with
  | loop =>
    cases h
    refine ⟨hthere, hback, hmain, hclear, hunfinished, fun hm => ?_, hpid⟩
    by_contra hloop
    exact hm (if_pos hloop)
  | killLoop =>
    cases h
    unfold kill
    split
    · refine ⟨hthere, ?_, hmain, hclear, hunfinished, fun _ => hleft nofun, hpid⟩
      rw [Process.post_some_of_ne (by decide), Process.load_post]
      exact hback
    · exact ⟨hthere, hback, hmain, hclear, hunfinished, fun _ => hleft nofun, hpid⟩
  | print =>
    cases h
    exact ⟨hthere, hback, hmain, hclear, hunfinished, fun _ => hleft nofun, hpid⟩
  | returned => cases h

/-- A step of the receiver's handler that sends nothing. -/
theorem Counts.receiverHandler (hI : Counts n p q) {v : ReceiverVars} {frames : List (Signal × ReceiverHandler)}
    {pending : Signal → ℕ} (hthere : v.received + pending .SIGUSR1 + (frames.map (uncounted .entry)).sum =
      q.vars.received + q.pending .SIGUSR1 + q.load (uncounted .entry))
    (hback : v.received + q.load owes = q.vars.received + (frames.map owes).sum)
    (hunfinished : finished p.main = false → v.loop ≠ 0 ∧ pending .SIGUSR2 = 0 ∧ ∀ f ∈ frames, f.1 ≠ .SIGUSR2)
    (hloop : v.loop = q.vars.loop ∨ v.loop = 0)
    (hpid : ∀ f ∈ frames, f.2 = .print ∨ f.2 = .kill → v.pid = some .sender) :
    Counts n p ⟨v, q.main, frames, pending⟩ := by
  refine ⟨hthere.trans hI.there, ?_, hI.main, hI.clear, hunfinished, fun hm => ?_, hpid⟩
  · have := hI.back
    show _ + _ + _ + (frames.map owes).sum = v.received
    omega
  · rcases hloop with h | h
    · exact h.trans (hI.left hm)
    · exact h

variable {s : Signal} {f : ReceiverHandler} {rest : List (Signal × ReceiverHandler)} {v : ReceiverVars}

/-- A statement of the receiver's handler. -/
theorem Counts.receiverHandles (hI : Counts n p q) {f' : ReceiverHandler} (hf : q.frames = (s, f) :: rest)
    (h : receiver.handler s q.vars f = (v, some f', o)) :
    Counts n (p.post (.standard Signal) o) { q with vars := v, frames := (s, f') :: rest } := by
  have hthere := hI.there
  have hback := hI.back
  have hload := Process.load_of_cons (uncounted ReceiverHandler.entry) hf
  have howes := Process.load_of_cons owes hf
  have hmem : ∀ g ∈ rest, g ∈ q.frames := fun g hg => by rw [hf]; exact List.mem_cons_of_mem _ hg
  have hhead : (s, f) ∈ q.frames := by rw [hf]; exact List.mem_cons_self
  -- the signals of the running handlers stay the same
  have hunfinished : ∀ v' : ReceiverVars, v'.loop = q.vars.loop → finished p.main = false →
      v'.loop ≠ 0 ∧ q.pending .SIGUSR2 = 0 ∧ ∀ g ∈ (s, f') :: rest, g.1 ≠ .SIGUSR2 := fun v' hv hfin => by
    obtain ⟨h1, h2, h3⟩ := hI.unfinished hfin
    refine ⟨hv ▸ h1, h2, fun g hg => ?_⟩
    rcases List.mem_cons.1 hg with rfl | hg
    · exact h3 (s, f) hhead
    · exact h3 g (hmem g hg)
  have hpid : ∀ v' : ReceiverVars, v'.pid = q.vars.pid → ((f' = .print ∨ f' = .kill) → v'.pid = some .sender) →
      ∀ g ∈ (s, f') :: rest, g.2 = .print ∨ g.2 = .kill → v'.pid = some .sender := fun v' hv hnew g hg hc => by
    rcases List.mem_cons.1 hg with rfl | hg
    · exact hnew hc
    · exact hv.trans (hI.pid g (hmem g hg) hc)
  cases f with
  | entry =>
    by_cases hs : s = .SIGUSR1
    · subst hs
      cases h
      refine hI.receiverHandler ?_ ?_ (hunfinished _ rfl) (.inl rfl)
        (hpid _ rfl fun hc => by rcases hc with h | h <;> cases h)
      · rw [hload, List.map_cons, List.sum_cons]
        show q.vars.received + 1 + _ + (0 + _) = _ + _ + (1 + _)
        omega
      · rw [howes, List.map_cons, List.sum_cons]
        show q.vars.received + 1 + (0 + _) = _ + (1 + _)
        omega
    · simp only [receiver, Handshake.receiverHandler, if_neg hs] at h
      cases h
      have hs2 : s = .SIGUSR2 := by cases s <;> simp_all
      refine hI.receiverHandler ?_ ?_ (fun hfin => ?_) (.inr rfl)
        (hpid _ rfl fun hc => by rcases hc with h | h <;> cases h)
      · rw [hload, List.map_cons, List.sum_cons]
        simp [uncounted, hs]
      · rw [howes, List.map_cons, List.sum_cons]
        rfl
      · exact absurd hs2 ((hI.unfinished hfin).2.2 _ hhead)
  | setPid =>
    cases h
    refine hI.receiverHandler ?_ ?_ (hunfinished _ rfl) (.inl rfl) fun _ _ _ => rfl
    · rw [hload, List.map_cons, List.sum_cons]
      simp [uncounted]
    · rw [howes, List.map_cons, List.sum_cons]
      rfl
  | print =>
    cases h
    refine hI.receiverHandler ?_ ?_ (hunfinished _ rfl) (.inl rfl)
      (hpid _ rfl fun _ => hI.pid _ hhead (.inl rfl))
    · rw [hload, List.map_cons, List.sum_cons]
      simp [uncounted]
    · rw [howes, List.map_cons, List.sum_cons]
      rfl
  | kill =>
    have hset := hI.pid _ hhead (.inr rfl)
    simp only [receiver, Handshake.receiverHandler, kill, hset, if_true] at h
    cases h
    -- this one is on its way, so none is pending at the sender
    have hle := hI.main.sent_le
    rw [howes, show owes (s, .kill) = 1 from rfl] at hback
    refine ⟨?_, ?_, hI.main, hI.clear, hunfinished _ rfl, hI.left,
      hpid _ rfl fun hc => by rcases hc with h | h <;> cases h⟩
    · rw [Process.load_of_cons _ rfl, Process.post_main, ← hthere, hload]
      simp [uncounted]
    · rw [Process.load_of_cons owes rfl, Process.post_some_self, Process.load_post, Process.post_vars]
      show p.vars.received + 1 + _ + (0 + _) = q.vars.received
      omega
  | ret => cases h

/-- The receiver's handler returns. -/
theorem Counts.receiverReturns (hI : Counts n p q) (hf : q.frames = (s, f) :: rest)
    (h : receiver.handler s q.vars f = (v, none, o)) :
    Counts n (p.post (.standard Signal) o) { q with vars := v, frames := rest } := by
  have hload := Process.load_of_cons (uncounted ReceiverHandler.entry) hf
  have howes := Process.load_of_cons owes hf
  have hmem : ∀ g ∈ rest, g ∈ q.frames := fun g hg => by rw [hf]; exact List.mem_cons_of_mem _ hg
  obtain ⟨rfl, rfl, rfl⟩ := receiverHandler_ret h
  refine hI.receiverHandler ?_ ?_ (fun hfin => ?_) (.inl rfl) fun g hg => hI.pid g (hmem g hg)
  · rw [hload]
    simp [uncounted]
  · rw [howes]
    simp [owes]
  · obtain ⟨h1, h2, h3⟩ := hI.unfinished hfin
    exact ⟨h1, h2, fun g hg => h3 g (hmem g hg)⟩

/-- A handler of the receiver starts. -/
theorem Counts.receiverStarts (hI : Counts n p q) (h : q.MayStart (.standard Signal) s) :
    Counts n p (q.start s receiver.entry) := by
  have hpos := h.1
  refine hI.receiverHandler ?_ ?_ (fun hfin => ?_) (.inl rfl) fun g hg hc => ?_
  · rw [List.map_cons, List.sum_cons]
    by_cases hs : s = .SIGUSR1
    · subst hs
      rw [Function.update_self, show uncounted ReceiverHandler.entry (.SIGUSR1, receiver.entry) = 1 from rfl]
      show _ + _ + (1 + q.load _) = _
      omega
    · rw [Function.update_of_ne (Ne.symm hs)]
      simp [uncounted, hs, Process.load]
  · rw [List.map_cons, List.sum_cons]
    show _ = _ + (0 + q.load owes)
    omega
  · obtain ⟨h1, h2, h3⟩ := hI.unfinished hfin
    have hs : s ≠ .SIGUSR2 := by
      rintro rfl
      omega
    refine ⟨h1, ?_, fun g hg => ?_⟩
    · rw [Function.update_of_ne (Ne.symm hs), h2]
    · rcases List.mem_cons.1 hg with rfl | hg
      · exact hs
      · exact h3 g hg
  · rcases List.mem_cons.1 hg with rfl | hg
    · rcases hc with h | h <;> cases h
    · exact hI.pid g hg hc

theorem Counts.receiver_step (hI : Counts n p q) (h : receiver.Steps (.standard Signal) q a q' o) :
    Counts n (p.post (.standard Signal) o) q' := by
  cases h with
  | main hq h => exact hI.receiverMain h
  | handler he hf h => exact hI.receiverHandles hf h
  | ret he hf h => exact hI.receiverReturns hf h
  | start he h => exact hI.receiverStarts h

end Steps

/-! ## Runs -/

theorem start_counts (n : ℕ) : Counts n senderStart receiverStart :=
  ⟨rfl, rfl, ⟨Nat.zero_le _, rfl⟩, nofun, fun _ => ⟨by decide, rfl, nofun⟩, fun h => absurd rfl h, nofun⟩

theorem reachable_counts {n : ℕ} {s : Sender × Receiver} (h : (handshake n).Reachable s) : Counts n s.1 s.2 := by
  refine Code.duo_invariant (fun p q hs => ?_) (fun p q a p' o hI hs => hI.sender_step (Code.step_cases hs))
    (fun p q a q' o hI hs => hI.receiver_step (Code.step_cases hs)) h
  obtain ⟨rfl, rfl⟩ := Prod.mk.inj hs
  exact start_counts n

section Results

variable {n : ℕ} {p p' : Sender} {q q' : Receiver} {a : Act Signal}

/-- The sender sends a SIGUSR1 when everything it sent has come back. -/
theorem Counts.receiver_free (hI : Counts n p q) (h : (sender n).Steps (.standard Signal) p a p' (some .SIGUSR1)) :
    q.pending .SIGUSR1 = 0 := by
  have hthere := hI.there
  have hback := hI.back
  have hmain := hI.main
  cases h with
  | main hq h =>
    cases hm : p.main with
    | kill i =>
      rw [hm] at hthere hmain
      have hreceived : p.vars.received = i := hmain.2
      have hsent : sent n (.kill i) = i := rfl
      omega
    | _ =>
      rw [hm] at h
      cases h
  | handler he hf h | ret he hf h => cases senderHandler_sends h

/-- The receiver sends one while the sender misses one. -/
theorem Counts.sender_free (hI : Counts n p q) (h : receiver.Steps (.standard Signal) q a q' (some .SIGUSR1)) :
    p.pending .SIGUSR1 = 0 := by
  have hle := hI.main.sent_le
  have hthere := hI.there
  have hback := hI.back
  cases h with
  | main hq h =>
    cases hm : q.main with
    | killLoop =>
      rw [hm] at h
      simp only [receiver, Handshake.receiverMain, kill] at h
      split at h <;> cases h
    | _ =>
      rw [hm] at h
      cases h
  | @handler s f rest v f' _ he hf h =>
    obtain ⟨-, rfl⟩ := receiverHandler_sends h
    rw [Process.load_of_cons owes hf, show owes (s, .kill) = 1 from rfl] at hback
    omega
  | ret he hf h => cases (receiverHandler_ret h).2.2

/-- Behind its while loop the receiver has counted everything. -/
theorem Counts.receiver_all (hI : Counts n p q) (h : q.main ≠ .loop) : q.vars.received = n := by
  have hthere := hI.there
  have hback := hI.back
  have hmain := hI.main
  have hfin : finished p.main = true := by
    by_contra hc
    exact (hI.unfinished (Bool.not_eq_true _ ▸ hc)).1 (hI.left h)
  have hsent : p.vars.received = n ∧ sent n p.main = n := by
    cases hm : p.main <;> rw [hm] at hfin hmain <;> first | exact ⟨hmain, rfl⟩ | cases hfin
  omega

end Results

/-- In every run of the handshake, for any number of signals: at its last printf each process has counted all
of them, and whoever sends a SIGUSR1 finds none pending at the other. -/
theorem counts_agree {n : ℕ} {s : Sender × Receiver} (h : (handshake n).Reachable s) :
    (s.1.main = .print → s.1.vars.received = n) ∧
    (s.2.main = .print → s.2.vars.received = n) ∧
    (∀ a p, (sender n).step (.standard Signal) s.1 a = some (p, some .SIGUSR1) → s.2.pending .SIGUSR1 = 0) ∧
    (∀ a q, receiver.step (.standard Signal) s.2 a = some (q, some .SIGUSR1) → s.1.pending .SIGUSR1 = 0) := by
  have hI := reachable_counts h
  refine ⟨fun hm => ?_, fun hm => hI.receiver_all (by rw [hm]; nofun),
    fun a p hs => hI.receiver_free (Code.step_cases hs), fun a q hs => hI.sender_free (Code.step_cases hs)⟩
  have hmain := hI.main
  rwa [hm] at hmain

/-- A signal, there and back. -/
def round : List (Act Signal ⊕ Act Signal) :=
  List.flatten [[.inl .main, .inl .main, .inl .main, .inr (.start .SIGUSR1)], List.replicate 5 (.inr .handler),
    [.inl (.start .SIGUSR1)], List.replicate 3 (.inl .handler), [.inl .main]]

/-- Two signals, and the end. -/
def twoSignals : List (Act Signal ⊕ Act Signal) :=
  List.flatten [round, round, List.replicate 2 (.inl .main), [.inr (.start .SIGUSR2)], List.replicate 2 (.inr .handler),
    [.inr .main, .inr .main], [.inl (.start .SIGUSR2)], List.replicate 2 (.inl .handler), [.inl .main]]

theorem counts_agree_twoSignals : ∃ s, (handshake 2).run (senderStart, receiverStart) twoSignals = some s ∧
    (s.1.main = .print ∧ s.1.vars.received = 2) ∧ s.2.main = .print ∧ s.2.vars.received = 2 := by
  obtain ⟨s, hs, h1, h2⟩ : ∃ s, (handshake 2).run (senderStart, receiverStart) twoSignals = some s ∧
    s.1.main = .print ∧ s.2.main = .print := ⟨_, rfl, rfl, rfl⟩
  have hc := counts_agree (System.Reachable.run twoSignals (.init rfl) hs)
  exact ⟨s, hs, ⟨h1, hc.1 h1⟩, h2, hc.2.1 h2⟩

end Sysopy.Signals.Handshake
