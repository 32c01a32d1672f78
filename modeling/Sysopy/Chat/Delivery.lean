/-
Delivery in the stream chat server while all descriptors have bits in the sets: `master` is the listening sockets and
the open connections, and every connection has been sent, in order and once, the records of the others that were
received while it was open.
During a broadcast the descriptors already passed are one record ahead of the rest; that is the invariant of
its loop.
-/
import Sysopy.Chat.Server

namespace Sysopy.Chat

open Sysopy.Conc

variable {M : Type*} {L : Listeners}

/-! ## Windows of the received records -/

section Heard

variable {c start stop : ℕ} {l : List (ℕ × M)} {r : ℕ × M}

theorem heard_empty (h : stop ≤ start) : heard c start stop l = [] := by
  unfold heard
  rw [List.drop_eq_nil_of_le (by rw [List.length_take]; omega)]
  rfl

/-- A window that is over does not see what is received later. -/
theorem heard_append (h : stop ≤ l.length) : heard c start stop (l ++ [r]) = heard c start stop l := by
  unfold heard
  rw [List.take_append_of_le_length h]

/-- An open window gets the next record, unless it comes from its own connection. -/
theorem heard_succ (h : start ≤ l.length) : heard c start (l.length + 1) (l ++ [r]) =
    heard c start l.length l ++ if r.1 ≠ c then [r.2] else [] := by
  unfold heard
  rw [List.take_of_length_le (by simp), List.take_of_length_le le_rfl, List.drop_append_of_le_length h]
  split <;> simp [List.filter_append, *]

end Heard

/-! ## The invariant -/

/-- The state of the descriptors and connections when descriptor `fd` has been sent the first `due fd` of
the records received. -/
structure Inv (L : Listeners) (due : ℕ → ℕ) (s : State M) : Prop where
  master : ∀ fd, fd ∈ s.master ↔ fd = L.inetfd ∨ fd = L.unixfd ∨ ∃ c, s.table fd = some c
  listening : s.table L.inetfd = none ∧ s.table L.unixfd = none
  biggest : ∀ fd ∈ s.master, fd ≤ s.biggest
  /-- An open descriptor belongs to one connection that is not closed, and such a connection has one. -/
  opened : ∀ fd c, s.table fd = some c → c < s.count ∧ s.stop c = none
  unique : ∀ fd fd' c, s.table fd = some c → s.table fd' = some c → fd = fd'
  has_fd : ∀ c, c < s.count → s.stop c = none → ∃ fd, s.table fd = some c
  start_le : ∀ fd c, s.table fd = some c → s.start c ≤ due fd
  stop_le : ∀ c n, s.stop c = some n → c < s.count ∧ n ≤ s.received.length
  sent_open : ∀ fd c, s.table fd = some c → sentTo s c = heard c (s.start c) (due fd) s.received
  sent_closed : ∀ c n, s.stop c = some n → sentTo s c = heard c (s.start c) n s.received
  sent_new : ∀ c, s.count ≤ c → sentTo s c = []
  /-- No call of send goes to a listening socket or to the sender. -/
  calls : ∀ r ∈ s.calls, r.fd ≠ L.inetfd ∧ r.fd ≠ L.unixfd ∧ r.conn ≠ some r.sender

/-- Between two handlers every descriptor has been sent everything. -/
def Settled (L : Listeners) (s : State M) : Prop := Inv L (fun _ => s.received.length) s

theorem init_settled {s : State M} (h : Init L s) : Settled L s := by
  constructor
  · intro fd
    simp [h.master, h.table]
  · exact ⟨h.table _, h.table _⟩
  · intro fd hfd
    rw [h.master, Finset.mem_insert, Finset.mem_singleton] at hfd
    rw [h.biggest]
    split <;> omega
  · intro fd c hc
    rw [h.table] at hc
    cases hc
  · intro fd fd' c hc
    rw [h.table] at hc
    cases hc
  · intro c hc
    rw [h.count] at hc
    omega
  · intro fd c hc
    rw [h.table] at hc
    cases hc
  · intro c n hn
    rw [h.stop] at hn
    cases hn
  · intro fd c hc
    rw [h.table] at hc
    cases hc
  · intro c n hn
    rw [h.stop] at hn
    cases hn
  · intro c _
    simp [sentTo, h.calls]
  · simp [h.calls]

/-! ## Connections come and go -/

section Handlers

variable {s : State M} {due due' : ℕ → ℕ}

/-- What is due matters only for open descriptors. -/
theorem Inv.congr_due (hI : Inv L due s) (h : ∀ fd c, s.table fd = some c → due' fd = due fd) : Inv L due' s := by
  refine ⟨hI.master, hI.listening, hI.biggest, hI.opened, hI.unique, hI.has_fd, fun fd c hc => ?_, hI.stop_le,
    fun fd c hc => ?_, hI.sent_closed, hI.sent_new, hI.calls⟩
  · rw [h fd c hc]
    exact hI.start_le fd c hc
  · rw [h fd c hc]
    exact hI.sent_open fd c hc

/-- main's position is no part of the invariant. -/
theorem Inv.with_pc (hI : Inv L due s) (pc : Pc) : Inv L due { s with pc := pc } :=
  ⟨hI.master, hI.listening, hI.biggest, hI.opened, hI.unique, hI.has_fd, hI.start_le, hI.stop_le, hI.sent_open,
    hI.sent_closed, hI.sent_new, hI.calls⟩

/-- A connection that is not accepted yet is not closed. -/
theorem Inv.stop_new (hI : Inv L due s) : s.stop s.count = none := by
  cases h : s.stop s.count with
  | none => rfl
  | some n => exact absurd (hI.stop_le _ n h).1 (Nat.lt_irrefl _)

/-- A new connection starts with an empty window. -/
theorem Settled.handlereg (hI : Settled L s) {newfd : Option ℕ} (hf : Fresh L s newfd) :
    Settled L (handlereg s newfd) := by
  cases newfd with
  | none => exact Inv.with_pc hI _
  | some newfd =>
    obtain ⟨hinet, hunix, hfree⟩ := hf newfd rfl
    -- an open descriptor is the new one with the new connection, or an old one
    have htab : ∀ fd c, Function.update s.table newfd (some s.count) fd = some c →
        fd = newfd ∧ c = s.count ∨ fd ≠ newfd ∧ s.table fd = some c ∧ c ≠ s.count := by
      intro fd c hc
      by_cases hfd : fd = newfd
      · subst hfd
        rw [Function.update_self] at hc
        exact .inl ⟨rfl, (Option.some.inj hc).symm⟩
      · rw [Function.update_of_ne hfd] at hc
        have := (hI.opened fd c hc).1
        exact .inr ⟨hfd, hc, by omega⟩
    constructor
    · intro fd
      simp only [Chat.handlereg, Finset.mem_insert, hI.master]
      by_cases hfd : fd = newfd
      · simp [hfd]
      · simp [hfd]
    · simpa only [Chat.handlereg, Function.update_of_ne (Ne.symm hinet), Function.update_of_ne (Ne.symm hunix)]
        using hI.listening
    · intro fd hfd
      simp only [Chat.handlereg, Finset.mem_insert] at hfd ⊢
      rcases hfd with rfl | hfd
      · split <;> omega
      · have := hI.biggest fd hfd
        split <;> omega
    · intro fd c hc
      rcases htab fd c hc with ⟨-, rfl⟩ | ⟨-, hc, -⟩
      · exact ⟨Nat.lt_succ_self _, hI.stop_new⟩
      · exact ⟨Nat.lt_succ_of_lt (hI.opened fd c hc).1, (hI.opened fd c hc).2⟩
    · intro fd fd' c hc hc'
      rcases htab fd c hc with ⟨rfl, rfl⟩ | ⟨-, hc, hne⟩
      · rcases htab fd' _ hc' with ⟨rfl, -⟩ | ⟨-, -, hne⟩
        · rfl
        · exact absurd rfl hne
      · rcases htab fd' c hc' with ⟨-, rfl⟩ | ⟨-, hc', -⟩
        · exact absurd rfl hne
        · exact hI.unique fd fd' c hc hc'
    · intro c hlt hstop
      by_cases hc : c = s.count
      · exact ⟨newfd, by simp [Chat.handlereg, hc]⟩
      · have hlt' : c < s.count := by
          have : c < s.count + 1 := hlt
          omega
        obtain ⟨fd, hfd⟩ := hI.has_fd c hlt' hstop
        have hne : fd ≠ newfd := by
          rintro rfl
          rw [hfree] at hfd
          cases hfd
        exact ⟨fd, by simpa only [Chat.handlereg, Function.update_of_ne hne] using hfd⟩
    · intro fd c hc
      rcases htab fd c hc with ⟨-, rfl⟩ | ⟨-, hc, hne⟩
      · simp [Chat.handlereg]
      · simpa only [Chat.handlereg, Function.update_of_ne hne] using hI.start_le fd c hc
    · intro c n hn
      obtain ⟨hlt, hle⟩ := hI.stop_le c n hn
      exact ⟨Nat.lt_succ_of_lt hlt, hle⟩
    · intro fd c hc
      rcases htab fd c hc with ⟨-, rfl⟩ | ⟨-, hc, hne⟩
      · simp only [Chat.handlereg, Function.update_self]
        rw [heard_empty le_rfl]
        exact hI.sent_new _ le_rfl
      · show sentTo s c = heard c (Function.update s.start s.count s.received.length c) _ _
        rw [Function.update_of_ne hne]
        exact hI.sent_open fd c hc
    · intro c n hn
      have hne : c ≠ s.count := by
        have := (hI.stop_le c n hn).1
        omega
      show sentTo s c = heard c (Function.update s.start s.count s.received.length c) _ _
      rw [Function.update_of_ne hne]
      exact hI.sent_closed c n hn
    · intro c hc
      have hle : s.count ≤ c := by
        have : s.count + 1 ≤ c := hc
        omega
      exact hI.sent_new c hle
    · exact hI.calls

/-- A descriptor is closed after it has been sent everything due. -/
theorem Inv.drop (hI : Inv L due s) {fd c : ℕ} (hc : s.table fd = some c) (hn : due fd ≤ s.received.length) :
    Inv L due (drop s fd (due fd)) := by
  have hdrop : Chat.drop s fd (due fd) = { s with
      master := s.master.erase fd
      table := Function.update s.table fd none
      stop := Function.update s.stop c (some (due fd)) } := by
    simp only [Chat.drop, hc]
  have hinet : L.inetfd ≠ fd := by
    rintro rfl
    rw [hI.listening.1] at hc
    cases hc
  have hunix : L.unixfd ≠ fd := by
    rintro rfl
    rw [hI.listening.2] at hc
    cases hc
  -- the connections that stay open are others
  have htab : ∀ g d, Function.update s.table fd none g = some d → g ≠ fd ∧ s.table g = some d ∧ d ≠ c := by
    intro g d hd
    have hg : g ≠ fd := by
      rintro rfl
      simp at hd
    rw [Function.update_of_ne hg] at hd
    refine ⟨hg, hd, ?_⟩
    rintro rfl
    exact hg (hI.unique g fd d hd hc)
  -- a connection is closed now, or was before
  have hclosed : ∀ d n, Function.update s.stop c (some (due fd)) d = some n →
      d = c ∧ n = due fd ∨ s.stop d = some n := by
    intro d n hn
    by_cases hd : d = c
    · subst hd
      rw [Function.update_self] at hn
      exact .inl ⟨rfl, (Option.some.inj hn).symm⟩
    · rw [Function.update_of_ne hd] at hn
      exact .inr hn
  rw [hdrop]
  constructor
  · intro g
    by_cases hg : g = fd
    · subst hg
      simp [Ne.symm hinet, Ne.symm hunix]
    · simp only [Finset.mem_erase, Function.update_of_ne hg, hI.master g]
      simp [hg]
  · simpa only [Function.update_of_ne hinet, Function.update_of_ne hunix] using hI.listening
  · intro g hg
    exact hI.biggest g (Finset.mem_of_mem_erase hg)
  · intro g d hd
    obtain ⟨-, hd, hne⟩ := htab g d hd
    simpa only [Function.update_of_ne hne] using hI.opened g d hd
  · intro g g' d hd hd'
    exact hI.unique g g' d (htab g d hd).2.1 (htab g' d hd').2.1
  · intro d hlt hstop
    change Function.update s.stop c (some (due fd)) d = none at hstop
    have hne : d ≠ c := by
      rintro rfl
      simp at hstop
    rw [Function.update_of_ne hne] at hstop
    obtain ⟨g, hg⟩ := hI.has_fd d hlt hstop
    have hgf : g ≠ fd := by
      rintro rfl
      rw [hc] at hg
      exact hne (Option.some.inj hg).symm
    exact ⟨g, by simpa only [Function.update_of_ne hgf] using hg⟩
  · intro g d hd
    exact hI.start_le g d (htab g d hd).2.1
  · intro d n hstop
    rcases hclosed d n hstop with ⟨rfl, rfl⟩ | hstop
    · exact ⟨(hI.opened fd d hc).1, hn⟩
    · exact hI.stop_le d n hstop
  · intro g d hd
    exact hI.sent_open g d (htab g d hd).2.1
  · intro d n hstop
    rcases hclosed d n hstop with ⟨rfl, rfl⟩ | hstop
    · exact hI.sent_open fd d hc
    · exact hI.sent_closed d n hstop
  · exact hI.sent_new
  · exact hI.calls

end Handlers

/-! ## The loop of a broadcast -/

section Broadcast

variable {s : State M} {due : ℕ → ℕ} {sockfd sender c j n k : ℕ} {record : M} {ok : Bool}

theorem sentTo_call (r : Call M) : sentTo { s with calls := s.calls ++ [r] } c =
    sentTo s c ++ if r.conn = some c ∧ r.ok then [r.record] else [] := by
  by_cases hr : r.conn = some c ∧ r.ok
  · simp [sentTo, List.filter_append, hr]
  · simp [sentTo, List.filter_append, hr]

/-- A descriptor whose connection has been sent its records up to number `n` is passed. -/
theorem Inv.pass (hI : Inv L due s) (h : ∀ d, s.table j = some d → s.start d ≤ n ∧
    sentTo s d = heard d (s.start d) n s.received) : Inv L (Function.update due j n) s := by
  refine ⟨hI.master, hI.listening, hI.biggest, hI.opened, hI.unique, hI.has_fd, fun fd d hd => ?_, hI.stop_le,
    fun fd d hd => ?_, hI.sent_closed, hI.sent_new, hI.calls⟩
  · by_cases hfd : fd = j
    · subst hfd
      simpa using (h d hd).1
    · rw [Function.update_of_ne hfd]
      exact hI.start_le fd d hd
  · by_cases hfd : fd = j
    · subst hfd
      simpa using (h d hd).2
    · rw [Function.update_of_ne hfd]
      exact hI.sent_open fd d hd

/-- A call of send to an open descriptor, that moves its connection on to record number `n`. -/
theorem Inv.call (hI : Inv L due s) (hc : s.table j = some c) (hne : c ≠ sender) (hle : s.start c ≤ n)
    (hheard : heard c (s.start c) n s.received =
      heard c (s.start c) (due j) s.received ++ if ok then [record] else []) :
    Inv L (Function.update due j n) { s with calls := s.calls ++ [⟨j, some c, sender, record, ok⟩] } := by
  -- the call is counted for the connection behind `j` and for no other
  have hother : ∀ d, d ≠ c → sentTo { s with calls := s.calls ++ [⟨j, some c, sender, record, ok⟩] } d =
      sentTo s d := by
    intro d hd
    rw [sentTo_call]
    simp [Ne.symm hd]
  constructor
  · exact hI.master
  · exact hI.listening
  · exact hI.biggest
  · exact hI.opened
  · exact hI.unique
  · exact hI.has_fd
  · intro fd d hd
    by_cases hfd : fd = j
    · subst hfd
      obtain rfl : c = d := Option.some.inj (hc.symm.trans hd)
      simpa using hle
    · rw [Function.update_of_ne hfd]
      exact hI.start_le fd d hd
  · exact hI.stop_le
  · intro fd d hd
    by_cases hfd : fd = j
    · subst hfd
      obtain rfl : c = d := Option.some.inj (hc.symm.trans hd)
      rw [sentTo_call, Function.update_self, hheard, hI.sent_open fd c hc]
      simp
    · have hdc : d ≠ c := by
        rintro rfl
        exact hfd (hI.unique fd j d hd hc)
      rw [hother d hdc, Function.update_of_ne hfd]
      exact hI.sent_open fd d hd
  · intro d m hm
    have hdc : d ≠ c := by
      rintro rfl
      rw [(hI.opened j d hc).2] at hm
      cases hm
    rw [hother d hdc]
    exact hI.sent_closed d m hm
  · intro d hd
    have hdc : d ≠ c := by
      rintro rfl
      exact absurd (hI.opened j d hc).1 (Nat.not_lt.2 hd)
    rw [hother d hdc]
    exact hI.sent_new d hd
  · intro r hr
    rcases List.mem_append.1 hr with hr | hr
    · exact hI.calls r hr
    · obtain rfl := List.mem_singleton.1 hr
      -- the new call is on a connection, not on a listening socket, and not to the sender
      refine ⟨?_, ?_, fun h => hne (Option.some.inj h)⟩
      · rintro rfl
        exact absurd (hI.listening.1.symm.trans hc) (by simp)
      · rintro rfl
        exact absurd (hI.listening.2.symm.trans hc) (by simp)

/-- After `k` turns of the loop the descriptors below `k` are one record ahead. -/
def dueAt (n k fd : ℕ) : ℕ := if fd < k then n + 1 else n

theorem dueAt_succ : dueAt n (k + 1) = Function.update (dueAt n k) k (n + 1) := by
  funext fd
  by_cases hfd : fd = k
  · simp [dueAt, hfd]
  · rw [Function.update_of_ne hfd]
    have : fd < k + 1 ↔ fd < k := by omega
    simp only [dueAt, this]

theorem dueAt_self : dueAt n k k = n := if_neg (Nat.lt_irrefl k)

/-- The loop after `k` turns, when `old` had been received before the record. -/
structure Passing (L : Listeners) (sockfd c : ℕ) (record : M) (old : List (ℕ × M)) (b k : ℕ) (s : State M) :
    Prop where
  inv : Inv L (dueAt old.length k) s
  sender : s.table sockfd = some c
  received : s.received = old ++ [(c, record)]
  biggest : s.biggest = b

/-- The record is received: nobody has been sent it. -/
theorem Settled.passing (hI : Settled L s) (hc : s.table sockfd = some c) :
    Passing L sockfd c record s.received s.biggest 0 { s with received := s.received ++ [(c, record)] } := by
  refine ⟨⟨hI.master, hI.listening, hI.biggest, hI.opened, hI.unique, hI.has_fd, hI.start_le, ?_, ?_, ?_,
    hI.sent_new, hI.calls⟩, hc, rfl, rfl⟩
  · intro d m hm
    have := hI.stop_le d m hm
    exact ⟨this.1, by simp only [List.length_append]; omega⟩
  · intro fd d hd
    exact (hI.sent_open fd d hd).trans (heard_append le_rfl).symm
  · intro d m hm
    exact (hI.sent_closed d m hm).trans (heard_append (hI.stop_le d m hm).2).symm

/-- One turn of the loop. -/
theorem Passing.sendTo {old : List (ℕ × M)} {b : ℕ} (h : Passing L sockfd c record old b k s)
    (sends : ℕ → Bool) : Passing L sockfd c record old b (k + 1) (sendTo L sockfd c record sends k s) := by
  have hnext : ∀ d, s.table k = some d → heard d (s.start d) (old.length + 1) s.received =
      heard d (s.start d) (dueAt old.length k k) s.received ++ if c ≠ d then [record] else [] := by
    intro d hd
    have hle : s.start d ≤ old.length := by simpa only [dueAt_self] using h.inv.start_le k d hd
    rw [h.received, heard_succ hle, dueAt_self, heard_append le_rfl]
  have hstart : ∀ d, s.table k = some d → s.start d ≤ old.length + 1 := by
    intro d hd
    have := h.inv.start_le k d hd
    rw [dueAt_self] at this
    omega
  unfold Chat.sendTo
  split
  · rename_i hcond
    obtain ⟨hne, hunix, hinet, hmem⟩ := hcond
    obtain ⟨d, hd⟩ : ∃ d, s.table k = some d := by simpa [hinet, hunix] using (h.inv.master k).1 hmem
    have hcd : d ≠ c := by
      rintro rfl
      exact hne (h.inv.unique k sockfd d hd h.sender)
    simp only [hd, Option.isSome_some, Bool.and_true]
    cases hsend : sends k with
    | true =>
      refine ⟨?_, h.sender, h.received, h.biggest⟩
      rw [dueAt_succ]
      refine h.inv.call hd hcd (hstart d hd) ?_
      rw [hnext d hd, if_pos (Ne.symm hcd)]
      rfl
    | false =>
      -- the failing send moves nothing, and the connection is closed without this record
      have hinv : Inv L (Function.update (dueAt old.length k) k (dueAt old.length k k))
          { s with calls := s.calls ++ [⟨k, some d, c, record, false⟩] } :=
        h.inv.call hd hcd (h.inv.start_le k d hd) (by simp)
      rw [Function.update_eq_self] at hinv
      have hn : s.received.length - 1 = dueAt old.length k k := by
        rw [h.received, dueAt_self, List.length_append]
        rfl
      have hdrop := hinv.drop hd (by rw [← hn]; exact Nat.sub_le _ _)
      rw [← hn] at hdrop
      simp only [Bool.false_eq_true, if_false]
      refine ⟨?_, ?_, h.received, h.biggest⟩
      · refine Inv.congr_due hdrop fun fd e he => ?_
        have hfd : fd ≠ k := by
          rintro rfl
          simp [Chat.drop] at he
        rw [dueAt_succ, Function.update_of_ne hfd]
      · simp only [Chat.drop, Function.update_of_ne (Ne.symm hne)]
        exact h.sender
  · rename_i hcond
    refine ⟨?_, h.sender, h.received, h.biggest⟩
    rw [dueAt_succ]
    refine h.inv.pass fun d hd => ⟨hstart d hd, ?_⟩
    -- an open descriptor that is passed over is the sender's own
    have hmem : k ∈ s.master := (h.inv.master k).2 (.inr (.inr ⟨d, hd⟩))
    have hsock : k = sockfd := by
      by_contra hne
      refine hcond ⟨hne, ?_, ?_, hmem⟩
      · rintro rfl
        exact absurd (h.inv.listening.2.symm.trans hd) (by simp)
      · rintro rfl
        exact absurd (h.inv.listening.1.symm.trans hd) (by simp)
    subst hsock
    obtain rfl : c = d := Option.some.inj (h.sender.symm.trans hd)
    rw [hnext c hd, h.inv.sent_open k c hd]
    simp

/-- The loop up to its `k`-th turn. -/
theorem Passing.broadcast {old : List (ℕ × M)} {b : ℕ} (h : Passing L sockfd c record old b 0 s)
    (sends : ℕ → Bool) : Passing L sockfd c record old b k (broadcast L sockfd c record sends k s) := by
  induction k with
  | zero => exact h
  | succ k ih => exact ih.sendTo sends

/-- The loop runs up to `biggest`, so in the end nobody is behind. -/
theorem Passing.settled {old : List (ℕ × M)} {b : ℕ} (h : Passing L sockfd c record old b (b + 1) s) :
    Settled L s := by
  refine h.inv.congr_due fun fd d hd => ?_
  have hle := h.inv.biggest fd ((h.inv.master fd).2 (.inr (.inr ⟨d, hd⟩)))
  rw [h.biggest] at hle
  rw [h.received, dueAt, if_pos (by omega), List.length_append]
  rfl

end Broadcast

/-! ## Runs of the server -/

section Runs

variable {s s' : State M} {a : Label M}

theorem Settled.handlemsg (hI : Settled L s) (sockfd : ℕ) (r : Recv M) (sends : ℕ → Bool) :
    Settled L (handlemsg L s sockfd r sends) := by
  unfold Chat.handlemsg
  cases hc : s.table sockfd with
  | none => exact Inv.with_pc hI _
  | some c =>
    cases r with
    | error => exact Inv.with_pc hI _
    | closed => exact Inv.drop hI hc le_rfl
    | data record => exact (hI.passing hc).broadcast sends |>.settled

theorem Settled.advance (hI : Settled L s) (i : ℕ) : Settled L (advance i s) := by
  unfold Chat.advance
  split
  · exact hI
  · exact Inv.with_pc hI _

/-- A step moves main on, or one handler has run; no access goes outside of the sets. -/
theorem Settled.next (hI : Settled L s) (hb : s.biggest < FD_SETSIZE) (h : Chat.next L s a = some s') :
    Settled L s' := by
  cases next_eq_some.1 h with
  | select | skip | again =>
    exact ⟨hI.master, hI.listening, hI.biggest, hI.opened, hI.unique, hI.has_fd, hI.start_le, hI.stop_le,
      hI.sent_open, hI.sent_closed, hI.sent_new, hI.calls⟩
  | @accept i newfd _ _ _ _ hfresh => exact (hI.handlereg hfresh).advance i
  | @recv i r sends _ => exact (hI.handlemsg i r sends).advance i
  | outside _ _ _ hle => exact absurd hle (Nat.not_le.2 hb)

theorem biggest_advance (s : State M) (i : ℕ) : (advance i s).biggest = s.biggest := by
  unfold advance
  split <;> rfl

theorem biggest_broadcast (sockfd sender k : ℕ) (record : M) (sends : ℕ → Bool) (s : State M) :
    (broadcast L sockfd sender record sends k s).biggest = s.biggest := by
  induction k with
  | zero => rfl
  | succ k ih =>
    rw [broadcast, ← ih]
    unfold sendTo
    split
    · dsimp only
      split <;> rfl
    · rfl

/-- Only an accept moves `biggest`, and at most to its descriptor. -/
theorem biggest_next (h : Chat.next L s a = some s') (ha : a.Fits) (hb : s.biggest < FD_SETSIZE) :
    s'.biggest < FD_SETSIZE := by
  cases next_eq_some.1 h with
  | select | skip | again | outside => exact hb
  | accept newfd =>
    rw [biggest_advance]
    cases newfd with
    | none => exact hb
    | some newfd =>
      simp only [Chat.handlereg]
      split
      · exact ha
      · exact hb
  | @recv i r sends =>
    rw [biggest_advance]
    unfold Chat.handlemsg
    cases s.table i with
    | none => exact hb
    | some c =>
      cases r with
      | error | closed => exact hb
      | data record =>
        rw [biggest_broadcast]
        exact hb

/-- The server with all descriptors in the sets. -/
structure Sound (L : Listeners) (s : State M) : Prop where
  settled : Settled L s
  biggest : s.biggest < FD_SETSIZE

theorem Sound.next (hS : Sound L s) (ha : a.Fits) (h : Chat.next L s a = some s') : Sound L s' :=
  ⟨hS.settled.next hS.biggest h, biggest_next h ha hS.biggest⟩

theorem init_sound (hL : L.Fit) (h : Init L s) : Sound L s := by
  refine ⟨init_settled h, ?_⟩
  rw [h.biggest]
  split
  · exact hL.1
  · exact hL.2

theorem reachable_sound (hL : L.Fit) (h : (system (M := M) L).ReachableIf Within s) : Sound L s :=
  h.invariant (I := Sound L) (fun _ hinit => init_sound hL hinit) fun _ _ _ _ hS hok hstep => hS.next hok hstep

end Runs

/-! ## Delivery -/

/-- What holds between two handlers: `master` and the open connections agree, and every connection, open or
closed, has got the records of the others received while it was open, no more and no less. -/
structure Delivered (L : Listeners) (s : State M) : Prop where
  master : ∀ fd, fd ∈ s.master ↔ fd = L.inetfd ∨ fd = L.unixfd ∨ ∃ c, s.table fd = some c
  biggest : ∀ fd ∈ s.master, fd ≤ s.biggest
  opened : ∀ c < s.count, s.stop c = none ↔ ∃! fd, s.table fd = some c
  sent : ∀ c < s.count, sentTo s c = heard c (s.start c) ((s.stop c).getD s.received.length) s.received
  calls : ∀ r ∈ s.calls, r.fd ≠ L.inetfd ∧ r.fd ≠ L.unixfd ∧ r.conn ≠ some r.sender

theorem Settled.delivered {s : State M} (hI : Settled L s) : Delivered L s := by
  refine ⟨hI.master, hI.biggest, fun c hlt => ?_, fun c hlt => ?_, hI.calls⟩
  · constructor
    · intro hstop
      obtain ⟨fd, hfd⟩ := hI.has_fd c hlt hstop
      exact ⟨fd, hfd, fun fd' hfd' => hI.unique fd' fd c hfd' hfd⟩
    · rintro ⟨fd, hfd, -⟩
      exact (hI.opened fd c hfd).2
  · cases hstop : s.stop c with
    | none =>
      obtain ⟨fd, hfd⟩ := hI.has_fd c hlt hstop
      exact hI.sent_open fd c hfd
    | some n => exact hI.sent_closed c n hstop

/-- In every run of the server whose descriptors all have bits in the sets, whatever connects, sends, disconnects or
fails, `master` is exact and the delivery is: every record of the others, in order, once. -/
theorem every_record_once {s : State M} (hL : L.Fit) (h : (system (M := M) L).ReachableIf Within s) : Delivered L s :=
  (reachable_sound hL h).settled.delivered

/-- main in front of its loop, with the two sockets. -/
def start (L : Listeners) : State M where
  pc := .select
  master := {L.inetfd, L.unixfd}
  readfds := ∅
  biggest := if L.inetfd > L.unixfd then L.inetfd else L.unixfd
  table := fun _ => none
  count := 0
  start := fun _ => 0
  stop := fun _ => none
  received := []
  calls := []

theorem start_init (L : Listeners) : Init L (start (M := M) L) :=
  ⟨rfl, rfl, rfl, fun _ => rfl, rfl, fun _ => rfl, rfl, rfl⟩

/-- Three clients on 5, 6 and 7; a record from 5, which 6 gets and 7 does not. -/
def threeClients : List (Label ℕ) :=
  [.select {3}, .skip, .skip, .skip, .accept (some 5), .skip, .skip, .skip,
   .select {3}, .skip, .skip, .skip, .accept (some 6), .skip, .skip, .skip, .skip,
   .select {4}, .skip, .skip, .skip, .skip, .accept (some 7), .skip, .skip, .skip, .skip,
   .select {5}, .skip, .skip, .skip, .skip, .skip, .recv (.data 42) fun j => j != 7]

theorem every_record_once_threeClients :
    ∃ s, (system ⟨3, 4, by decide⟩).runIf Within (start ⟨3, 4, by decide⟩) threeClients = some s ∧
      sentTo s 1 = [42] ∧ sentTo s 2 = [] ∧ Delivered ⟨3, 4, by decide⟩ s := by
  refine ⟨_, rfl, rfl, rfl, ?_⟩
  exact every_record_once (by decide) (System.ReachableIf.runIf threeClients (.init (start_init _)) rfl)

/-- A client gets descriptor 1024. The next select goes over 1025 bits; where `master` lies behind `readfds` it clears
the first 64 bits of it, those of the listening sockets too. -/
def farClient : List (Label ℕ) := [.select {3}, .skip, .skip, .skip, .accept (some 1024), .outside {1024} ∅]

theorem farClient_not_delivered : ¬ ∀ (L : Listeners) (s : State ℕ), (system L).Reachable s → Delivered L s := by
  intro h
  obtain ⟨s, hs, hmaster⟩ : ∃ s, (system ⟨3, 4, by decide⟩).run (start ⟨3, 4, by decide⟩) farClient = some s ∧
      s.master = {1024} := ⟨_, rfl, rfl⟩
  have hall := h _ s (System.Reachable.run (S := system _) farClient (.init (start_init _)) hs)
  have hlost := (hall.master 3).2 (.inl rfl)
  rw [hmaster] at hlost
  exact absurd hlost (by decide)

end Sysopy.Chat
