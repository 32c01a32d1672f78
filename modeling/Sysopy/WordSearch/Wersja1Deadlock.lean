/-
Whether the threads of wersja1 can wait for a mutex whose owner was cancelled. The owner was cancelled by a thread
that did not get through its requests, because it was cancelled itself by another one; so there are four threads,
and two of them have found the word in different chunks. That is also enough.
-/
import Sysopy.WordSearch.Wersja1

namespace Sysopy.WordSearch.Wersja1

open Sysopy.Conc Sysopy.CText

variable {n : ℕ} {J : Job}

/-- Some thread has not ended; all that have not wait for the mutex without a request; its owner is cancelled. -/
structure Stuck (s : Pool (Fin n) (Shared n) Local) : Prop where
  alive : ∃ p, (s.procs p).over = false
  waiting : ∀ p, (s.procs p).over = false → (s.procs p).pc = .lock ∧ s.shared.requested p = false
  owner : ∃ p, s.shared.mutex = some p ∧ (s.procs p).cancelled = true

/-- All matches are in records that one read takes. -/
def OneChunk (J : Job) : Prop :=
  ∀ k < J.records, ∀ k' < J.records, J.scanRecord k ≠ [] → J.scanRecord k' ≠ [] →
    k / J.perRead = k' / J.perRead

/-! ## Who has made the requests -/

/-- Thread `p` has requested the cancellation of `q` in its current loop. -/
def Local.asks (l : Local) (p q : Fin n) : Prop :=
  match l.pc with
  | .cancel _ _ _ k => q.val < k ∧ q ≠ p
  | .cancelSelf .. => q ≠ p
  | _ => False

/-- A request is one of a loop that is not through, or every thread has one. -/
structure Asked (g : Shared n) (procs : Fin n → Local) : Prop where
  made : ∀ p q, (procs p).asks p q → g.requested q = true
  source : ∀ q, g.requested q = true → (∃ p, (procs p).asks p q) ∨ ∀ r, g.requested r = true

section Asked

variable {g g' : Shared n} {procs : Fin n → Local} {p : Fin n} {l : Local}

/-- A step keeps its thread's requests, or makes them complete. -/
theorem Asked.update (hA : Asked g procs) (hmono : ∀ q, g.requested q = true → g'.requested q = true)
    (hmade : ∀ q, l.asks p q → g'.requested q = true)
    (hold : ∀ q, (procs p).asks p q → l.asks p q ∨ ∀ r, g'.requested r = true)
    (hnew : ∀ q, g'.requested q = true → g.requested q = true ∨ l.asks p q ∨ ∀ r, g'.requested r = true) :
    Asked g' (Function.update procs p l) := by
  have hself : ∀ q, l.asks p q → ∃ r, (Function.update procs p l r).asks r q := fun q h =>
    ⟨p, by rwa [Function.update_self]⟩
  refine ⟨fun r q h => ?_, fun q h => ?_⟩
  · by_cases hr : r = p
    · subst hr
      rw [Function.update_self] at h
      exact hmade q h
    · rw [Function.update_of_ne hr] at h
      exact hmono q (hA.made r q h)
  · rcases hnew q h with h | h | h
    · rcases hA.source q h with ⟨r, hr⟩ | hall
      · by_cases hrp : r = p
        · subst hrp
          exact (hold q hr).imp_left (hself q)
        · exact .inl ⟨r, by rwa [Function.update_of_ne hrp]⟩
      · exact .inr fun r => hmono r (hall r)
    · exact .inl (hself q h)
    · exact .inr h

/-- A step outside of the loop of requests. -/
theorem Asked.keep (hA : Asked g procs) (hreq : g'.requested = g.requested)
    (hl : ∀ q, l.asks p q ↔ (procs p).asks p q) :
    Asked g' (Function.update procs p l) := by
  refine hA.update ?_ (fun q h => ?_) (fun q h => .inl ((hl q).2 h)) ?_
  · rw [hreq]
    exact fun q => id
  · rw [hreq]
    exact hA.made p q ((hl q).1 h)
  · rw [hreq]
    exact fun q => .inl

theorem asked_step (hA : Asked g procs) {l₀ : Local} (hp : procs p = l₀) (h : Steps J p g l₀ g' l) :
    Asked g' (Function.update procs p l) := by
  have hasks : ∀ q, (procs p).asks p q ↔ l₀.asks p q := fun q => by rw [hp]
  have hmade : ∀ q, l₀.asks p q → g.requested q = true := fun q h => hA.made p q ((hasks q).2 h)
  cases h with
  | strike | lock | read | unlock | record | again | stop | hit | miss | finish =>
    exact hA.keep rfl fun q => (hasks q).symm
  | print =>
    refine hA.keep rfl fun q => ((hasks q).trans ⟨False.elim, fun h => ?_⟩).symm
    exact absurd h.1 (Nat.not_lt_zero _)
  | @cancel c i j k recordId hk =>
    refine hA.update (fun q hq => ?_) (fun q h => ?_) (fun q h => ?_) fun q hq => ?_
    · dsimp only
      split
      · exact update_requested hq
      · exact hq
    · dsimp only
      rcases Nat.lt_succ_iff_lt_or_eq.1 h.1 with hlt | heq
      · split
        · exact update_requested (hmade q ⟨hlt, h.2⟩)
        · exact hmade q ⟨hlt, h.2⟩
      · obtain rfl : q = ⟨k, hk⟩ := Fin.ext heq
        rw [if_pos h.2, Function.update_self]
    · have hq := (hasks q).1 h
      exact .inl ⟨Nat.lt_succ_of_lt hq.1, hq.2⟩
    · dsimp only at hq
      split at hq
      · rename_i hne
        by_cases hqk : q = ⟨k, hk⟩
        · exact .inr (.inl ⟨by rw [hqk]; exact Nat.lt_succ_self k, by rwa [hqk]⟩)
        · exact .inl (by rwa [Function.update_of_ne hqk] at hq)
      · exact .inl hq
  | cancelled hk =>
    refine hA.update (fun q => id) (fun q h => ?_) (fun q h => .inl ((hasks q).1 h).2) fun q => .inl
    exact hmade q ⟨by omega, h⟩
  | cancelSelf =>
    -- the last request of the loop is the one to the thread itself, after all others
    have hall : ∀ r, Function.update g.requested p true r = true := fun r => by
      by_cases hr : r = p
      · rw [hr, Function.update_self]
      · rw [Function.update_of_ne hr]
        exact hmade r hr
    exact hA.update (fun q => update_requested) (fun q h => h.elim) (fun _ _ => .inr hall) fun _ _ => .inr (.inr hall)

theorem reachable_asked {s : Pool (Fin n) (Shared n) Local} (h : (system n J).Reachable s) :
    Asked s.shared s.procs := by
  refine Program.invariant (fun s hs => ?_)
    (fun g procs p a g' l hA hstep => asked_step hA rfl (steps_iff.2 ⟨a, hstep⟩)) h
  obtain ⟨hg, hp⟩ := hs
  refine ⟨fun p q hasks => ?_, fun q hq => ?_⟩
  · rw [Local.asks, (hp p).1] at hasks
    exact hasks.elim
  · rw [hg] at hq
    cases hq

end Asked

/-! ## Who has which chunk -/

/-- From the read of a chunk to the end of its scan. -/
def Pc.scanning : Pc → Bool
  | .lock | .read | .ended => false
  | _ => true

/-- The chunks that are scanned are different ones, each of the records of one read. -/
structure Dealt (J : Job) (g : Shared n) (procs : Fin n → Local) : Prop where
  offset : ∃ m, g.offset = min (J.bytes * m) J.file.length
  base : ∀ p, (procs p).pc.scanning = true → 0 < (procs p).chunk.actualReadCount →
    J.perRead ∣ (procs p).chunk.base ∧ (procs p).chunk.actualReadCount ≤ J.perRead ∧
      (procs p).chunk.base + (procs p).chunk.actualReadCount ≤ g.offset / RECORD_SIZE
  apart : ∀ p q, p ≠ q → (procs p).pc.scanning = true → (procs q).pc.scanning = true →
    0 < (procs p).chunk.actualReadCount → 0 < (procs q).chunk.actualReadCount →
    (procs p).chunk.base ≠ (procs q).chunk.base

section Dealt

variable {g g' : Shared n} {procs : Fin n → Local} {p : Fin n} {l : Local}

/-- A step other than a read. -/
theorem Dealt.keep (hD : Dealt J g procs) (hoff : g'.offset = g.offset)
    (hl : l.pc.scanning = true → (procs p).pc.scanning = true ∧ l.chunk = (procs p).chunk) :
    Dealt J g' (Function.update procs p l) := by
  have hfrom : ∀ q, (Function.update procs p l q).pc.scanning = true →
      (procs q).pc.scanning = true ∧ (Function.update procs p l q).chunk = (procs q).chunk := fun q h => by
    by_cases hq : q = p
    · subst hq
      rw [Function.update_self] at h ⊢
      exact hl h
    · rw [Function.update_of_ne hq] at h ⊢
      exact ⟨h, rfl⟩
  refine ⟨?_, fun q hq => ?_, fun q r hqr hq hr => ?_⟩
  · rw [hoff]
    exact hD.offset
  · obtain ⟨hq, hc⟩ := hfrom q hq
    rw [hc, hoff]
    exact hD.base q hq
  · obtain ⟨hq, hcq⟩ := hfrom q hq
    obtain ⟨hr, hcr⟩ := hfrom r hr
    rw [hcq, hcr]
    exact hD.apart q r hqr hq hr

/-- The chunk of a read from offset `J.bytes * m` on. -/
theorem read_dealt (buf : Buffer) {offset m : ℕ} (hoff : offset = min (J.bytes * m) J.file.length) :
    offset + (J.read offset buf).taken = min (J.bytes * (m + 1)) J.file.length ∧
      (0 < (J.read offset buf).actualReadCount → J.perRead ∣ (J.read offset buf).base ∧
        (J.read offset buf).actualReadCount ≤ J.perRead) := by
  have hcount : (J.read offset buf).taken = min J.bytes (J.file.length - offset) := taken_eq
  have hsucc : J.bytes * (m + 1) = J.bytes * m + J.bytes := Nat.mul_succ _ _
  refine ⟨by omega, fun hpos => ⟨?_, ?_⟩⟩
  · have hread : (J.read offset buf).taken ≠ 0 := fun h0 => by
      rw [Chunk.actualReadCount_eq, h0, Nat.zero_div] at hpos
      exact absurd hpos (Nat.lt_irrefl 0)
    have hstart : offset = RECORD_SIZE * (J.perRead * m) := by
      rw [← Nat.mul_assoc, ← J.bytes_eq]
      omega
    rw [base_eq, hstart, Nat.mul_div_cancel_left _ (by decide)]
    exact Nat.dvd_mul_right _ _
  · rw [Chunk.actualReadCount_eq, hcount]
    exact Nat.div_le_div_right (Nat.min_le_left _ _)

theorem Dealt.read (hD : Dealt J g procs) (hal : Aligned J g.offset) {buf : Buffer} {c' : Chunk} {c : Bool}
    (hread : J.read g.offset buf = c') :
    Dealt J { g with offset := g.offset + c'.taken } (Function.update procs p ⟨.unlock, c', c⟩) := by
  obtain ⟨m, hm⟩ := hD.offset
  obtain ⟨hnext, hchunk⟩ := read_dealt buf hm
  have hhanded : (g.offset + (J.read g.offset buf).taken) / RECORD_SIZE =
      (J.read g.offset buf).base + (J.read g.offset buf).actualReadCount := handed_read hal
  have hbase : (J.read g.offset buf).base = g.offset / RECORD_SIZE := base_eq
  rw [hread] at hnext hchunk hhanded hbase
  -- the chunks of the others lie before the offset
  have hbefore : ∀ q, (procs q).pc.scanning = true → 0 < (procs q).chunk.actualReadCount →
      (procs q).chunk.base < c'.base := fun q hq hpos => by
    have := (hD.base q hq hpos).2.2
    omega
  refine ⟨⟨m + 1, hnext⟩, fun q hq hpos => ?_, fun q r hqr hq hr hpq hpr => ?_⟩
  · by_cases hqp : q = p
    · subst hqp
      rw [Function.update_self] at hpos ⊢
      exact ⟨(hchunk hpos).1, (hchunk hpos).2, hhanded.ge⟩
    · rw [Function.update_of_ne hqp] at hq hpos ⊢
      obtain ⟨hdvd, hle, hlast⟩ := hD.base q hq hpos
      exact ⟨hdvd, hle, hlast.trans (Nat.div_le_div_right (Nat.le_add_right _ _))⟩
  · by_cases hqp : q = p
    · subst hqp
      rw [Function.update_self] at hpq ⊢
      rw [Function.update_of_ne hqr.symm] at hr hpr ⊢
      exact (hbefore r hr hpr).ne'
    · rw [Function.update_of_ne hqp] at hq hpq ⊢
      by_cases hrp : r = p
      · subst hrp
        rw [Function.update_self]
        exact (hbefore q hq hpq).ne
      · rw [Function.update_of_ne hrp] at hr hpr ⊢
        exact hD.apart q r hqr hq hr hpq hpr

theorem dealt_step (hD : Dealt J g procs) (hal : Aligned J g.offset) {l₀ : Local} (hp : procs p = l₀)
    (h : Steps J p g l₀ g' l) : Dealt J g' (Function.update procs p l) := by
  cases h with
  | strike => exact hD.keep rfl fun h => by rw [hp]; exact ⟨h, rfl⟩
  | lock | again | stop => exact hD.keep rfl fun h => nomatch h
  | read hread => exact hD.read hal hread
  | unlock | record | hit | miss | finish | print | cancel | cancelled | cancelSelf =>
    exact hD.keep rfl fun _ => by rw [hp]; exact ⟨rfl, rfl⟩

theorem reachable_dealt {s : Pool (Fin n) (Shared n) Local} (h : (system n J).Reachable s) :
    Dealt J s.shared s.procs := by
  refine h.invariant (I := fun s => Dealt J s.shared s.procs) (fun s hs => ?_) ?_
  · obtain ⟨hg, hp⟩ := hs
    refine ⟨⟨0, by rw [hg]; simp⟩, fun p hpc => ?_, fun p q _ hpc => ?_⟩
    · rw [(hp p).1] at hpc
      cases hpc
    · rw [(hp p).1] at hpc
      cases hpc
  · rintro s ⟨p, strike⟩ s' hs hD hstep
    obtain ⟨g', l, hrun, rfl⟩ := Program.next_eq_some.1 hstep
    have hI := reachable_inv (reachable_sim hs).searching
    exact dealt_step hD hI.aligned rfl (steps_iff.2 ⟨strike, hrun⟩)

end Dealt

/-! ## Who can be stuck -/

section Safe

variable {s : Pool (Fin n) (Shared n) Local} {p q : Fin n}

/-- A thread that has made requests has reported a match of its chunk. -/
theorem match_of_asks (h : (system n J).Reachable s) (hp : (s.procs p).asks p q) :
    ∃ k < J.records, J.scanRecord k ≠ [] ∧ (s.procs p).pc.scanning = true ∧
      0 < (s.procs p).chunk.actualReadCount ∧ J.perRead ∣ (s.procs p).chunk.base ∧
        k / J.perRead = (s.procs p).chunk.base / J.perRead := by
  have hS := reachable_sim h
  have hI := reachable_inv hS.searching
  obtain ⟨i, recordId, j, hscan, hwork, r, hr, hrecord⟩ : ∃ i recordId j, (s.procs p).pc.scanning = true ∧
      (s.procs p).work = .positions (s.procs p).chunk i recordId (j + 1) ∧
        ∃ r ∈ s.shared.reports, r.record = (s.procs p).chunk.base + i := by
    -- the requests are made behind a printf, so there is a report
    have hpc := hS.pcs p
    unfold Local.asks at hp
    unfold Local.work
    cases hpcp : (s.procs p).pc with
    | cancel i recordId j k =>
      rw [hpcp] at hpc
      exact ⟨i, recordId, j, rfl, rfl, hpc⟩
    | cancelSelf i recordId j =>
      rw [hpcp] at hpc
      exact ⟨i, recordId, j, rfl, rfl, hpc⟩
    | _ =>
      rw [hpcp] at hp
      exact hp.elim
  have hok : (s.procs p).work.OK J s.shared.offset := hI.locals p
  rw [hwork] at hok
  obtain ⟨-, hi, -⟩ := hok
  obtain ⟨hlt, hj⟩ := reported_found hI hr
  obtain ⟨hdvd, hle, -⟩ := (reachable_dealt h).base p hscan (by omega)
  refine ⟨r.record, hlt, List.ne_nil_of_mem hj, hscan, by omega, hdvd, ?_⟩
  -- a chunk begins at a multiple of the records of one read
  have hrest : i / J.perRead = 0 := Nat.div_eq_of_lt (by omega)
  rw [hrecord, Nat.add_div_of_dvd_right hdvd, hrest, Nat.add_zero]

/-- A thread with requests to make is not at the mutex. -/
theorem not_lock_of_asks {l : Local} (h : l.asks p q) : l.pc ≠ .lock ∧ l.pc ≠ .ended ∧ l.holds = false := by
  unfold Local.asks at h
  unfold Local.holds
  cases hpc : l.pc <;> simp [hpc] at h ⊢

theorem ne_of_asks {l : Local} (h : l.asks p q) : q ≠ p := by
  unfold Local.asks at h
  split at h
  · exact h.2
  · exact h
  · exact h.elim

/-- The threads of a deadlock: one waits, one owns the mutex, one asked the owner to end, and one asked that one. -/
structure Askers (s : Pool (Fin n) (Shared n) Local) (waiter owner asker first : Fin n) : Prop where
  waits : (s.procs waiter).pc = .lock
  owns : (s.procs owner).holds = true
  asks : (s.procs asker).asks asker owner
  asksFirst : (s.procs first).asks first asker

theorem Stuck.askers (hs : Stuck s) (h : (system n J).Reachable s) :
    ∃ waiter owner asker first, Askers s waiter owner asker first := by
  have hS := reachable_sim h
  have hA := reachable_asked h
  obtain ⟨waiter, hwaiter⟩ := hs.alive
  obtain ⟨owner, howner, hcancelled⟩ := hs.owner
  obtain ⟨hlock, hquiet⟩ := hs.waiting waiter hwaiter
  have hsource : ∀ q, s.shared.requested q = true → ∃ p, (s.procs p).asks p q := fun q hq => by
    refine (hA.source q hq).resolve_right fun hall => ?_
    rw [hall waiter] at hquiet
    cases hquiet
  obtain ⟨asker, hask⟩ := hsource owner (hS.cancelled owner hcancelled)
  obtain ⟨hnolock, hnoend, -⟩ := not_lock_of_asks hask
  -- the asker does not wait, so it has ended, and it has not returned
  have hover : (s.procs asker).over = true := by
    by_contra hover
    exact hnolock (hs.waiting asker (Bool.not_eq_true _ ▸ hover)).1
  have hasker : (s.procs asker).cancelled = true :=
    (Bool.or_eq_true_iff.1 hover).resolve_right fun hpc => hnoend (beq_iff_eq.1 hpc)
  obtain ⟨first, hfirst⟩ := hsource asker (hS.cancelled asker hasker)
  exact ⟨waiter, owner, asker, first, hlock, (hS.owned owner).2 howner, hask, hfirst⟩

theorem Askers.nodup {waiter owner asker first : Fin n} (h : Askers s waiter owner asker first) :
    [waiter, owner, asker, first].Nodup := by
  have hlock : ∀ p q, (s.procs p).asks p q → waiter ≠ p := by
    rintro p q hp rfl
    exact (not_lock_of_asks hp).1 h.waits
  have hown : ∀ p q, (s.procs p).asks p q → owner ≠ p := by
    rintro p q hp rfl
    have hholds := h.owns
    rw [(not_lock_of_asks hp).2.2] at hholds
    cases hholds
  have hwo : waiter ≠ owner := by
    rintro rfl
    have hholds := h.owns
    rw [Local.holds, h.waits] at hholds
    cases hholds
  simp only [List.nodup_cons, List.mem_cons, List.not_mem_nil, or_false, not_or, List.nodup_nil, and_true,
    not_false_eq_true]
  exact ⟨⟨hwo, hlock _ _ h.asks, hlock _ _ h.asksFirst⟩, ⟨hown _ _ h.asks, hown _ _ h.asksFirst⟩,
    ne_of_asks h.asksFirst⟩

/-- A deadlock takes four threads, and matches in two chunks. -/
theorem Stuck.needs (hs : Stuck s) (h : (system n J).Reachable s) : 4 ≤ n ∧ ¬ OneChunk J := by
  obtain ⟨waiter, owner, asker, first, ha⟩ := hs.askers h
  refine ⟨?_, fun hone => ?_⟩
  · have hle := ha.nodup.length_le_card
    rwa [Fintype.card_fin] at hle
  · obtain ⟨k, hk, hmatch, hscan, hpos, hdvd, heq⟩ := match_of_asks h ha.asks
    obtain ⟨k', hk', hmatch', hscan', hpos', hdvd', heq'⟩ := match_of_asks h ha.asksFirst
    have hsame := hone k hk k' hk' hmatch hmatch'
    rw [heq, heq'] at hsame
    refine (reachable_dealt h).apart asker first (ne_of_asks ha.asksFirst) hscan hscan' hpos hpos' ?_
    rw [← Nat.div_mul_cancel hdvd, hsame, Nat.div_mul_cancel hdvd']

end Safe

end Sysopy.WordSearch.Wersja1
