/-
The snapshot of the select loop of the stream chat server (cw10/zad2): `readfds` is taken before the pass, and a
failing send removes a client from `master` in the middle of it. Beside the server runs a record of the ready
descriptors that were closed so before main came to them; these are the calls of `handlemsg` on a closed
descriptor, which end the server.
-/
import Sysopy.Chat.Delivery

namespace Sysopy.Chat

open Sysopy.Conc

variable {M : Type*} {L : Listeners}

/-- The ready descriptors to which a send has failed since the select and before main came to them, and that
no accept has given out again. -/
def lostAfter (L : Listeners) (s : State M) (lost : Finset ℕ) : Label M → Finset ℕ
  | .select _ => ∅
  | .accept (some newfd) => lost.erase newfd
  | .recv (.data _) sends =>
    match s.pc with
    | .scan i => lost ∪ s.readfds.filter fun j => i < j ∧ j ≠ L.unixfd ∧ j ≠ L.inetfd ∧ sends j = false
    | _ => lost
  | _ => lost

/-- The server with this record. -/
def watched (L : Listeners) : System (State M × Finset ℕ) (Label M) where
  init s := Init L s.1 ∧ s.2 = ∅
  next s a := (Chat.next L s.1 a).map fun s' => (s', lostAfter L s.1 s.2 a)

/-- The record only watches. -/
theorem watched_of_reachable {s : State M} (h : (system L).ReachableIf Within s) :
    ∃ lost, (watched L).ReachableIf (fun s => Within s.1) (s, lost) := by
  induction h with
  | init h => exact ⟨∅, .init ⟨h, rfl⟩⟩
  | @next s s' a _ hok hs ih =>
    obtain ⟨lost, hl⟩ := ih
    exact ⟨lostAfter L s lost a, hl.next hok (Option.map_eq_some_iff.2 ⟨s', hs, rfl⟩)⟩

/-! ## Who is left in master -/

section Master

variable (L : Listeners) (sockfd sender : ℕ) (record : M) (sends : ℕ → Bool) {s : State M} {j k : ℕ}

/-- A turn of the broadcast touches only the entries of its own descriptor. -/
theorem sendTo_of_ne (s : State M) (h : j ≠ k) :
    (j ∈ (sendTo L sockfd sender record sends k s).master ↔ j ∈ s.master) ∧
      (sendTo L sockfd sender record sends k s).table j = s.table j := by
  unfold sendTo
  split
  · dsimp only
    split
    · exact ⟨Iff.rfl, rfl⟩
    · simp [drop, h]
  · exact ⟨Iff.rfl, rfl⟩

theorem broadcast_of_le (h : k ≤ j) : (j ∈ (broadcast L sockfd sender record sends k s).master ↔ j ∈ s.master) ∧
    (broadcast L sockfd sender record sends k s).table j = s.table j := by
  induction k with
  | zero => exact ⟨Iff.rfl, rfl⟩
  | succ k ih =>
    obtain ⟨h1, h2⟩ := ih (by omega)
    obtain ⟨h3, h4⟩ := sendTo_of_ne L sockfd sender record sends (broadcast L sockfd sender record sends k s)
      (show j ≠ k by omega)
    exact ⟨h3.trans h1, h4.trans h2⟩

/-- A broadcast leaves a client in `master` unless the send to it fails. -/
theorem mem_broadcast (hj : j < k) (hsock : j ≠ sockfd) (hunix : j ≠ L.unixfd) (hinet : j ≠ L.inetfd)
    (hopen : j ∈ s.master → ∃ c, s.table j = some c) :
    j ∈ (broadcast L sockfd sender record sends k s).master ↔ j ∈ s.master ∧ sends j = true := by
  induction k with
  | zero => omega
  | succ k ih =>
    rcases Nat.lt_succ_iff_lt_or_eq.1 hj with hlt | rfl
    · rw [← ih hlt]
      exact (sendTo_of_ne L sockfd sender record sends _ (Nat.ne_of_lt hlt)).1
    · -- its own turn
      obtain ⟨hmem, htable⟩ := broadcast_of_le L sockfd sender record sends (s := s) (le_refl j)
      simp only [broadcast, sendTo, hmem, htable]
      by_cases hin : j ∈ s.master
      · obtain ⟨c, hc⟩ := hopen hin
        rw [if_pos ⟨hsock, hunix, hinet, hin⟩]
        cases hsend : sends j <;> simp [drop, hc, hin, hmem]
      · rw [if_neg fun h => hin h.2.2.2, hmem]
        simp [hin]

theorem sendTo_frame (s : State M) : (sendTo L sockfd sender record sends k s).pc = s.pc ∧
    (sendTo L sockfd sender record sends k s).readfds = s.readfds := by
  unfold sendTo
  split
  · dsimp only
    split <;> exact ⟨rfl, rfl⟩
  · exact ⟨rfl, rfl⟩

theorem broadcast_frame : (broadcast L sockfd sender record sends k s).pc = s.pc ∧
    (broadcast L sockfd sender record sends k s).readfds = s.readfds := by
  induction k with
  | zero => exact ⟨rfl, rfl⟩
  | succ k ih =>
    obtain ⟨hpc, hready⟩ := sendTo_frame L sockfd sender record sends (k := k)
      (broadcast L sockfd sender record sends k s)
    exact ⟨hpc.trans ih.1, hready.trans ih.2⟩

end Master

/-! ## The record is right -/

/-- Of the ready clients that main has still to come to, `master` holds those that are not lost. -/
structure Watch (L : Listeners) (s : State M) (lost : Finset ℕ) : Prop where
  sound : Sound L s
  left : ∀ i, s.pc = .scan i → ∀ j ∈ s.readfds, i ≤ j → j ≠ L.inetfd → j ≠ L.unixfd → (j ∈ s.master ↔ j ∉ lost)

section Watch

variable {s s' : State M} {lost : Finset ℕ} {a : Label M} {i : ℕ}

theorem advance_pc {k : ℕ} (h : (advance i s).pc = .scan k) : s.pc ≠ .exited ∧ k = i + 1 := by
  unfold advance at h
  split at h
  · rename_i he
    rw [he] at h
    cases h
  · rename_i he
    cases h
    exact ⟨he, rfl⟩

theorem advance_frame : (advance i s).readfds = s.readfds ∧ (advance i s).master = s.master := by
  unfold advance
  split <;> exact ⟨rfl, rfl⟩

/-- An open client of `master` has a connection. -/
theorem Settled.exists_conn (hI : Settled L s) (hm : i ∈ s.master) (hinet : i ≠ L.inetfd) (hunix : i ≠ L.unixfd) :
    ∃ c, s.table i = some c := by
  rcases (hI.master i).1 hm with h | h | h
  · exact absurd h hinet
  · exact absurd h hunix
  · exact h

theorem Watch.handlemsg (hW : Watch L s lost) (hc : Calls L s i) (r : Recv M) (sends : ℕ → Bool) {k : ℕ}
    (hk : (advance i (handlemsg L s i r sends)).pc = .scan k) :
    ∀ j ∈ (advance i (handlemsg L s i r sends)).readfds, k ≤ j → j ≠ L.inetfd → j ≠ L.unixfd →
      (j ∈ (advance i (handlemsg L s i r sends)).master ↔ j ∉ lostAfter L s lost (.recv r sends)) := by
  intro j hj hle hinet hunix
  obtain ⟨halive, rfl⟩ := advance_pc hk
  rw [advance_frame.2]
  rw [advance_frame.1] at hj
  have hij : i < j := hle
  have hne : j ≠ i := Nat.ne_of_gt hij
  cases hcon : s.table i with
  | none => exact absurd (by simp [Chat.handlemsg, hcon]) halive
  | some c =>
    cases r with
    | error => exact absurd (by simp [Chat.handlemsg, hcon]) halive
    | closed =>
      simp only [Chat.handlemsg, hcon] at hj ⊢
      have := hW.left i hc.pc j hj (Nat.le_of_lt hij) hinet hunix
      simpa [drop, hne, lostAfter] using this
    | data record =>
      simp only [Chat.handlemsg, hcon] at hj ⊢
      rw [(broadcast_frame L i c record sends).2] at hj
      have hleft := hW.left i hc.pc j hj (Nat.le_of_lt hij) hinet hunix
      have hlost : lostAfter L s lost (.recv (.data record) sends) =
          lost ∪ s.readfds.filter fun j => i < j ∧ j ≠ L.unixfd ∧ j ≠ L.inetfd ∧ sends j = false := by
        simp only [lostAfter, hc.pc]
      rw [hlost, Finset.mem_union, Finset.mem_filter]
      -- the broadcast goes over the descriptors up to `biggest`
      by_cases hb : j < s.biggest + 1
      · have hopen : j ∈ s.master → ∃ c, s.table j = some c := fun hm => hW.sound.settled.exists_conn hm hinet hunix
        refine (mem_broadcast (s := { s with received := s.received ++ [(c, record)] }) L i c record sends hb hne hunix
          hinet hopen).trans ?_
        rw [hleft]
        cases hsend : sends j <;> simp [hj, hij, hinet, hunix]
      · -- a descriptor beyond `biggest` is not in `master`
        have hout : j ∉ s.master := fun hm => hb (Nat.lt_succ_of_le (hW.sound.settled.biggest j hm))
        refine (broadcast_of_le (s := { s with received := s.received ++ [(c, record)] }) L i c record sends
          (Nat.le_of_not_lt hb)).1.trans ?_
        have hin : j ∈ lost := by_contra fun hl => hout (hleft.2 hl)
        simp [hout, hin]

theorem Watch.next (hW : Watch L s lost) (ha : a.Fits) (h : Chat.next L s a = some s') :
    Watch L s' (lostAfter L s lost a) := by
  refine ⟨hW.sound.next ha h, fun k hk j hj hle hinet hunix => ?_⟩
  cases next_eq_some.1 h with
  | select ready hpc =>
    have := (Finset.mem_inter.1 hj).1
    simp [lostAfter, this]
  | @accept i newfd hpc hi hready hlisten hf =>
    obtain ⟨halive, rfl⟩ := advance_pc hk
    rw [advance_frame.1] at hj
    rw [advance_frame.2]
    cases newfd with
    | none => exact absurd rfl halive
    | some newfd =>
      have hold := hW.left i hpc j hj (by omega) hinet hunix
      -- an accept gives out a closed descriptor, which may have been ready in this pass
      by_cases hnew : j = newfd
      · subst hnew
        simp [handlereg, lostAfter]
      · simpa [handlereg, lostAfter, hnew] using hold
  | recv r sends hc => exact hW.handlemsg hc r sends hk j hj hle hinet hunix
  | @skip i hpc hi hready =>
    cases hk
    exact hW.left i hpc j hj (by omega) hinet hunix
  | again hpc hi => cases hk
  | outside _ _ _ hb => exact absurd hb (Nat.not_le.2 hW.sound.biggest)

theorem reachable_watch {s : State M × Finset ℕ} (hL : L.Fit)
    (h : (watched L).ReachableIf (fun s => Within s.1) s) : Watch L s.1 s.2 := by
  refine h.invariant (I := fun s => Watch L s.1 s.2) ?_ ?_
  · rintro s ⟨hinit, -⟩
    refine ⟨init_sound hL hinit, fun i hi => ?_⟩
    rw [hinit.pc] at hi
    cases hi
  · rintro s a s' - hW hok hs
    obtain ⟨t, ht, rfl⟩ := Option.map_eq_some_iff.1 hs
    exact hW.next hok ht

end Watch

/-- In every run whose descriptors all have bits in the sets, whenever main is about to call `handlemsg(i)`: descriptor
`i` is open and in `master` exactly when no send to it has failed since the select, or an accept has given it out
again since; and then the call does not end the server unless recv fails by itself, while otherwise it always does. -/
theorem handlemsg_open_iff {s : State M × Finset ℕ} (hL : L.Fit)
    (h : (watched L).ReachableIf (fun s => Within s.1) s) {i : ℕ} (hc : Calls L s.1 i) :
    ((i ∈ s.1.master ∧ ∃ c, s.1.table i = some c) ↔ i ∉ s.2) ∧
    (i ∉ s.2 → ∀ r sends, r ≠ .error → (handlemsg L s.1 i r sends).pc ≠ .exited) ∧
    (i ∈ s.2 → ∀ r sends, (handlemsg L s.1 i r sends).pc = .exited) := by
  have hW := reachable_watch hL h
  have hleft := hW.left i hc.pc i hc.ready le_rfl hc.inet hc.unix
  have hconn : i ∈ s.1.master → ∃ c, s.1.table i = some c := fun hm => hW.sound.settled.exists_conn hm hc.inet hc.unix
  refine ⟨⟨fun hm => hleft.1 hm.1, fun hl => ⟨hleft.2 hl, hconn (hleft.2 hl)⟩⟩, fun hl r sends hr he => ?_,
    fun hl r sends => ?_⟩
  · obtain ⟨c, hcon⟩ := hconn (hleft.2 hl)
    cases r with
    | error => exact hr rfl
    | closed =>
      simp only [handlemsg, hcon, drop, hc.pc] at he
      cases he
    | data record =>
      simp only [handlemsg, hcon] at he
      rw [(broadcast_frame L i c record sends).1, hc.pc] at he
      cases he
  · have hclosed : s.1.table i = none := by
      cases hcon : s.1.table i with
      | none => rfl
      | some c => exact absurd hl (hleft.1 ((hW.sound.settled.master i).2 (.inr (.inr ⟨c, hcon⟩))))
    simp [handlemsg, hclosed]

/-! ## Two clients ready together -/

def sockets : Listeners := ⟨3, 4, by decide⟩

/-- Clients on 5 and 6 are accepted and are ready in one pass. -/
def twoReady : List (Label ℕ) :=
  [.select {3}, .skip, .skip, .skip, .accept (some 5), .skip, .skip, .skip,
   .select {3}, .skip, .skip, .skip, .accept (some 6), .skip, .skip, .skip, .skip,
   .select {5, 6}, .skip, .skip, .skip, .skip, .skip]

/-- The record of the first reaches the second, whose turn is next. -/
theorem handlemsg_open_iff_twoReady : ∃ s, (watched sockets).runIf (fun s => Within s.1) (start sockets, ∅)
    (twoReady ++ [.recv (.data 42) fun _ => true]) = some s ∧ Calls sockets s.1 6 ∧ 6 ∈ s.1.master := by
  obtain ⟨s, hs, hc, hl⟩ : ∃ s, (watched sockets).runIf (fun s => Within s.1) (start sockets, ∅)
      (twoReady ++ [.recv (.data 42) fun _ => true]) = some s ∧ Calls sockets s.1 6 ∧ 6 ∉ s.2 :=
    ⟨_, rfl, ⟨rfl, by decide, by decide, by decide, by decide⟩, by decide⟩
  have hreach := System.ReachableIf.runIf (S := watched sockets) _ (.init ⟨start_init _, rfl⟩) hs
  exact ⟨s, hs, hc, ((handlemsg_open_iff (by decide) hreach hc).1.2 hl).1⟩

/-- When the send to the second fails, main still comes to it in the same pass. -/
theorem twoReady_dropped : ¬ ∀ (L : Listeners) (s : State ℕ), (system L).Reachable s → ∀ i, Calls L s i →
    i ∈ s.master ∧ ∃ c, s.table i = some c := by
  intro h
  obtain ⟨s, hs, hc, hm⟩ : ∃ s, (system sockets).run (start sockets)
      (twoReady ++ [.recv (.data 42) fun j => j != 6]) = some s ∧ Calls sockets s 6 ∧ 6 ∉ s.master :=
    ⟨_, rfl, ⟨rfl, by decide, by decide, by decide, by decide⟩, by decide⟩
  exact hm (h _ s (System.Reachable.run (S := system sockets) _ (.init (start_init _)) hs) 6 hc).1

end Sysopy.Chat
