/-
All that the server of cw06/zad1 prints: for each client the primes, as the clients see them, among the numbers that it
was sent, in the order they were sent in and under its own id. Only the last number may still be on its way.
-/
import Sysopy.PrimeQueue.SysVTurns

namespace Sysopy.PrimeQueue.SysV

open Sysopy.Conc Sysopy.CText

variable {ι : Type*}

/-! ## One number at a time -/

theorem FromClient.length_sent {q k : ℤ} {h : Dialog} {m : Message} (hm : FromClient q k h m) :
    h.sent.length ≤ h.reports.length + 1 := by
  cases hm <;> simp

theorem ToClient.length_sent {k : ℤ} {h : Dialog} {m : Message} (hm : ToClient k h m) :
    h.sent.length ≤ h.reports.length + 1 := by
  cases hm <;> simp

theorem Answer.length_sent {k : ℤ} {h : Dialog} {r : Reply} {m : Message} (hm : Answer k h r m) :
    h.sent.length ≤ h.reports.length + 1 := by
  cases hm <;> simp

/-- In every phase at most one number is not reported. -/
theorem length_sent {q : ℤ} {v : Holdings Message (Option (ℤ × Reply) × Message) Client Dialog}
    (h : (turns q).Phase v) : v.history.sent.length ≤ v.history.reports.length + 1 := by
  cases h
  case fresh h _ _ _ =>
    rw [h.2]
    exact Nat.zero_le _
  case ready h _ _ _ =>
    rw [h.2]
    exact Nat.zero_le _
  case queued h _ _ _ => exact FromClient.length_sent h
  case served x _ h _ _ _ =>
    rcases x with ⟨_ | ⟨p, r⟩, m⟩
    · exact FromClient.length_sent h
    · exact Answer.length_sent h.2
  case own h _ _ _ => exact ToClient.length_sent h
  case busy h _ _ _ =>
    rcases h with ⟨-, h⟩ | ⟨-, h, -⟩
    · exact h.length_sent
    · exact h.length_sent

/-! ## Lines and reports -/

/-- The line that a report has the server print, if any. -/
def lineOf (r : Option ι × ℤ × ℤ × ℤ) : Option (ℤ × ℤ) := if r.2.2.2 ≠ 0 then some (r.2.2.1, r.2.1) else none

/-- The server has printed the lines of the reports, and these carry the ids of their senders. -/
structure Printed [DecidableEq ι] (s : State ι) : Prop where
  out : s.out = s.reports.filterMap lineOf
  reports : ∀ r ∈ s.reports, ∃ c, r.1 = some c ∧ idOf s.given c = some r.2.1 ∧ r.2.2.2 = isPrime r.2.2.1

section Steps

variable [DecidableEq ι] [Fintype ι] {I : Ids ι} {cap : ℕ} {s s' : State ι} {c : ι}

omit [Fintype ι] in
theorem Printed.frame (h : Printed s) (hout : s'.out = s.out) (hreports : s'.reports = s.reports)
    (hgiven : ∀ c k, idOf s.given c = some k → idOf s'.given c = some k) : Printed s' := by
  refine ⟨by rw [hout, hreports, h.out], fun r hr => ?_⟩
  rw [hreports] at hr
  obtain ⟨c, hc, hid, hprime⟩ := h.reports r hr
  exact ⟨c, hc, hgiven c _ hid, hprime⟩

omit [Fintype ι] in
/-- A report is handled. -/
theorem Printed.acknowledge (h : Printed s) {k n : ℤ} {stack : ℤ × ℤ × ℤ} (hid : idOf s.given c = some k)
    (hscan : scanTriple ' ' s.server.buf.value stack = (k, n, isPrime n)) :
    Printed (acknowledge s (some c) stack) := by
  unfold SysV.acknowledge
  simp only [hscan]
  refine ⟨?_, fun r hr => ?_⟩
  · simp only [List.filterMap_append, List.filterMap_cons, List.filterMap_nil, lineOf, h.out]
    split <;> simp
  · rcases List.mem_append.1 hr with hr | hr
    · exact h.reports r hr
    · obtain rfl := List.mem_singleton.1 hr
      exact ⟨c, rfl, hid, rfl⟩

/-- The server handles a message. -/
theorem Printed.serverHandles (h : Printed s) (hI : Inv I s) (hn : Fintype.card ι ≤ 100) {sender : Option ι}
    (rand : Rand) (stack : ℤ × ℤ × ℤ) (hpc : s.server.pc = .handle sender) :
    Printed (handleServer s sender rand stack) := by
  obtain ⟨c, rfl⟩ := hI.sender sender (by simp [hpc, ServerPc.sender])
  obtain ⟨-, hm, -⟩ := (hI.phase c).of_served (x := (none, s.server.buf)) (by simp [view, atServer, hpc])
  replace hm : FromClient (I.client c) (s.clients c).clientId (dialog I s c) s.server.buf := hm
  unfold handleServer
  split_ifs with h1 h2 h3
  · obtain ⟨-, hh⟩ := hm.type_one h1
    have hnone : idOf s.given c = none := congrArg Dialog.id hh
    refine h.frame rfl rfl fun d k hk => ?_
    have hdc : d ≠ c := by
      rintro rfl
      rw [hnone] at hk
      cases hk
    simp only [giveId, idOf_append hnone, Function.update_of_ne hdc, hk]
  · exact h.frame rfl rfl fun _ _ hk => hk
  · obtain ⟨l, n, hnum, hval, hh⟩ := hm.type_three h3
    have hid : idOf s.given c = some (s.clients c).clientId := congrArg Dialog.id hh
    have hk := hI.registry.lt_card hid
    exact h.acknowledge hid (scan_report ⟨by omega, by omega⟩ hnum hval stack)
  · exact h.frame rfl rfl fun _ _ hk => hk

theorem Printed.step (h : Printed s) (hI : Inv I s) (hn : Fintype.card ι ≤ 100) (a : Label ι)
    (hs : (system I cap).next s a = some s') : Printed s' := by
  cases a with
  | server rand stack =>
    rcases server_cases hs with rfl | ⟨e, l, -, -, rfl⟩ | ⟨sender, hpc, rfl⟩ | ⟨sender, q, r, l, -, -, rfl⟩ |
      ⟨sender, q, r, -, -, rfl⟩
    · exact h
    · exact h.frame rfl rfl fun _ _ hk => hk
    · exact h.serverHandles hI hn rand stack hpc
    · exact h.frame rfl rfl fun _ _ hk => hk
    · exact h.frame rfl rfl fun _ _ hk => hk
  | client c =>
    rcases client_cases hs with rfl | ⟨-, rfl⟩ | ⟨l, -, -, rfl⟩ | ⟨e, l, -, -, rfl⟩ | ⟨-, rfl⟩ | ⟨-, pc, rfl⟩
    · exact h
    all_goals exact h.frame rfl rfl fun _ _ hk => hk

/-! ## What is printed for a client -/

/-- Two clients have different ids. -/
theorem Inv.id_injective (hI : Inv I s) {d : ι} {k : ℤ} (hc : idOf s.given c = some k) (hd : idOf s.given d = some k) :
    c = d :=
  I.client_injective ((hI.table c k hc).symm.trans (hI.table d k hd))

/-- The lines with a client's id are those of its reports. -/
theorem Printed.filter_out (h : Printed s) (hI : Inv I s) {k : ℤ} (hid : idOf s.given c = some k) :
    s.out.filter (fun line => decide (line.2 = k)) =
      (((reportsOf s c).map fun r => r.2.1).filter fun n => decide (isPrime n = 1)).map fun n => (n, k) := by
  have hlines : ∀ reports : List (Option ι × ℤ × ℤ × ℤ),
      (∀ r ∈ reports, ∃ c, r.1 = some c ∧ idOf s.given c = some r.2.1 ∧ r.2.2.2 = isPrime r.2.2.1) →
      (reports.filterMap lineOf).filter (fun line => decide (line.2 = k)) =
        ((((reports.filter fun r => decide (r.1 = some c)).map Prod.snd).map fun r => r.2.1).filter
          fun n => decide (isPrime n = 1)).map fun n => (n, k) := by
    intro reports hreports
    induction reports with
    | nil => rfl
    | cons r reports ih =>
      obtain ⟨⟨d, hd, hdk, hprime⟩, hothers⟩ := List.forall_mem_cons.1 hreports
      obtain ⟨sender, i, n, p⟩ := r
      obtain rfl : sender = some d := hd
      obtain rfl : p = isPrime n := hprime
      have hsame : d = c ↔ i = k := by
        constructor
        · rintro rfl
          exact Option.some.inj (hdk.symm.trans hid)
        · rintro rfl
          exact hI.id_injective hdk hid
      have htail := ih hothers
      rcases isPrime_eq n with hzero | hone
      · by_cases hdc : d = c <;> simp [lineOf, hzero, hdc, htail]
      · by_cases hdc : d = c
        · obtain rfl : i = k := hsame.1 hdc
          simp [lineOf, hone, hdc, htail]
        · have hik : i ≠ k := fun hik => hdc (hsame.2 hik)
          simp [lineOf, hone, hdc, hik, htail]
  rw [h.out, hlines s.reports h.reports]
  rfl

/-- The service from its main loop on, before it has printed anything. -/
def silent (I : Ids ι) (cap : ℕ) : System (State ι) (Label ι) := ⟨fun s => Init I s ∧ s.out = [], next I cap⟩

theorem reachable_printed (hn : Fintype.card ι ≤ 100) (h : (silent I cap).Reachable s) : Inv I s ∧ Printed s := by
  refine h.invariant (I := fun s => Inv I s ∧ Printed s) ?_ fun s a s' _ hI hs => ?_
  · rintro s ⟨h0, hout⟩
    exact ⟨init_inv h0, by rw [hout, h0.reports]; rfl, by simp [h0.reports]⟩
  · exact ⟨inv_step hn a hI.1 hs, hI.2.step hI.1 hn a hs⟩

/-- Whatever the order of their steps, the lines that the server has printed for a client are the numbers that
`is_prime` calls prime among the first ones that it was sent, which are all but the last at least; and there are no
lines but those for clients. -/
theorem lines_of_client (hn : Fintype.card ι ≤ 100) (h : (silent I cap).Reachable s) :
    (∀ line ∈ s.out, ∃ c, idOf s.given c = some line.2) ∧ ∀ c k, idOf s.given c = some k →
      ∃ reported, reported <+: s.sent (I.client c) ∧ (s.sent (I.client c)).length ≤ reported.length + 1 ∧
        s.out.filter (fun line => decide (line.2 = k)) =
          (reported.filter fun n => decide (isPrime n = 1)).map fun n => (n, k) := by
  obtain ⟨hI, hP⟩ := reachable_printed hn h
  constructor
  · intro line hline
    rw [hP.out] at hline
    obtain ⟨r, hr, hlineOf⟩ := List.mem_filterMap.1 hline
    obtain ⟨c, -, hid, -⟩ := hP.reports r hr
    refine ⟨c, ?_⟩
    unfold lineOf at hlineOf
    split at hlineOf
    · cases hlineOf
      exact hid
    · cases hlineOf
  · intro c k hid
    refine ⟨(reportsOf s c).map fun r => r.2.1, reports_first (hI.phase c), ?_, hP.filter_out hI hid⟩
    rw [List.length_map]
    exact length_sent (hI.phase c)

/-- The first client reports on the number 7. -/
theorem lines_of_client_seven : ∃ s reported, (silent twoIds 409).run twoDrained
      (sevenRun ++ [.server 7 (0, 0, 0)]) = some s ∧ idOf s.given 0 = some 0 ∧ s.out = [(7, 0)] ∧
    reported <+: s.sent (twoIds.client 0) ∧
    s.out.filter (fun line => decide (line.2 = 0)) =
      (reported.filter fun n => decide (isPrime n = 1)).map fun n => (n, 0) := by
  obtain ⟨s, hrun, hid, hout⟩ : ∃ s, (silent twoIds 409).run twoDrained (sevenRun ++ [.server 7 (0, 0, 0)]) = some s ∧
      idOf s.given 0 = some 0 ∧ s.out = [(7, 0)] := ⟨_, rfl, rfl, rfl⟩
  have hreach : (silent twoIds 409).Reachable s := System.Reachable.run _ (.init ⟨twoDrained_init, rfl⟩) hrun
  obtain ⟨reported, hprefix, -, hlines⟩ := (lines_of_client (by decide) hreach).2 0 0 hid
  exact ⟨s, reported, hrun, hid, hout, hprefix, hlines⟩

end Steps

end Sysopy.PrimeQueue.SysV
