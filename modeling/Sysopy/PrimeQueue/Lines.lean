/-
The lines that the servers of the prime service print. A number keeps its value on the way from the server that
draws it to a client and back in the client's report, so that a line is printed iff the client's test passes: the
lines are about the primes as long as no number below 2 is drawn.
-/
import Sysopy.PrimeQueue.Posix
import Sysopy.PrimeQueue.SysVTurns

namespace Sysopy.PrimeQueue

open Sysopy.Conc Sysopy.CText

variable {ι : Type*}

/-- What is printed about a number that is at least 2 and reported with the result of the test. -/
theorem line_of_isPrime {n : ℕ} (h2 : 2 ≤ n) (k : ℤ) (out : List (ℤ × ℤ)) :
    (if isPrime n ≠ 0 then out ++ [((n : ℤ), k)] else out) = if n.Prime then out ++ [((n : ℤ), k)] else out := by
  have hright := (isPrime_right_iff n).2 h2
  have hone : isPrime n ≠ 0 ↔ isPrime n = 1 := by
    rcases isPrime_eq n with h | h <;> simp [h]
  simp only [hone, hright]

/-- It is a line about a prime, or nothing. -/
theorem line_cases {n : ℕ} {k : ℤ} {out out' : List (ℤ × ℤ)}
    (h : out' = if n.Prime then out ++ [((n : ℤ), k)] else out) :
    out' = out ∨ ∃ (n : ℕ) (k : ℤ), n.Prime ∧ out' = out ++ [((n : ℤ), k)] := by
  by_cases hp : n.Prime
  · rw [if_pos hp] at h
    exact .inr ⟨n, k, hp, h⟩
  · rw [if_neg hp] at h
    exact .inl h

/-! ## System V queues -/

namespace SysV

/-- A message that says it is a report is one, about a number of that kind. -/
def IsReport (P : ℕ → Prop) (m : Message) : Prop :=
  m.type = 3 → ∃ (k : ℤ) (n : ℕ), InInt k ∧ InInt n ∧ P n ∧ m.value = printTriple ' ' k n (isPrime n)

/-- A message that says it is a number is one of that kind. -/
def IsNumber (P : ℕ → Prop) (m : Message) : Prop := m.type = 2 → ∃ n : ℕ, InInt n ∧ P n ∧ m.value = printInt n

/-- What a client is about to send, and what it has been sent. -/
structure Client.Carries (P : ℕ → Prop) (v : Client) : Prop where
  id : InInt v.clientId
  sending : v.pc = .register ∨ v.pc = .send → IsReport P v.buf
  taken : v.pc = .handle → IsNumber P v.buf

theorem Client.carries_of {P : ℕ → Prop} {v : Client} (hid : InInt v.clientId) (h : v.pc = .start ∨ v.pc = .poll) :
    v.Carries P := by
  refine ⟨hid, ?_, ?_⟩ <;> rcases h with h | h <;> simp [h]

/-- Only numbers of a kind are on their way. -/
structure Carried (I : Ids ι) (P : ℕ → Prop) (s : State ι) : Prop where
  serverQueue : s.queues I.server ≠ none
  queues : s.queues.All fun q m => (q = I.server → IsReport P m) ∧ ((∃ c, q = I.client c) → IsNumber P m)
  handled : ∀ sender, s.server.pc = .handle sender → IsReport P s.server.buf
  answered : ∀ sender q r, s.server.pc = .send sender q r → IsReport P s.server.buf ∧ IsNumber P s.server.buf
  clients : ∀ c, (s.clients c).Carries P

/-- `rand()` returns a number of that kind. -/
def Label.Draws (P : ℕ → Prop) : Label ι → Prop
  | .server rand _ => P rand.val
  | .client _ => True

instance (P : ℕ → Prop) [DecidablePred P] : DecidablePred (Label.Draws (ι := ι) P)
  | .server rand _ => inferInstanceAs (Decidable (P rand.val))
  | .client _ => inferInstanceAs (Decidable True)

section Step

variable {I : Ids ι} {P : ℕ → Prop} {s s' : State ι}

theorem init_carried (h : Init I s) (hids : ∀ c, InInt (s.clients c).clientId) : Carried I P s where
  serverQueue := by simp [h.serverQueue]
  queues q e he := by
    constructor
    · rintro rfl
      simp [h.serverQueue] at he
    · rintro ⟨c, rfl⟩
      simp [h.clientQueue c] at he
  handled sender hpc := by rw [h.pc] at hpc; cases hpc
  answered sender q r hpc := by rw [h.pc] at hpc; cases hpc
  clients c := Client.carries_of (hids c) (.inl (h.client c))

/-- What the tests on `buf.type` lead to keeps the numbers: one is drawn, and a report is sent back as it is. -/
theorem Carried.handleServer (hC : Carried I P s) {sender : Option ι} {rand : Rand} (hP : P rand.val)
    (stack : ℤ × ℤ × ℤ) (hpc : s.server.pc = .handle sender) : Carried I P (handleServer s sender rand stack) := by
  unfold SysV.handleServer
  split_ifs with h1 h2 h3
  · exact ⟨hC.serverQueue, hC.queues, nofun, fun _ _ _ _ => ⟨nofun, nofun⟩, hC.clients⟩
  · refine ⟨hC.serverQueue, hC.queues, nofun, fun _ _ _ _ => ⟨nofun, fun _ => ?_⟩, hC.clients⟩
    exact ⟨rand.val, inInt_rand rand, hP, rfl⟩
  · refine ⟨hC.serverQueue, hC.queues, nofun, fun _ _ _ _ => ⟨fun _ => ?_, nofun⟩, hC.clients⟩
    exact hC.handled sender hpc h3
  · exact ⟨hC.serverQueue, hC.queues, nofun, nofun, hC.clients⟩

/-- A client's report is about the number it was sent. -/
theorem handleClient_carries {v : Client} (hid : InInt v.clientId) (h : IsNumber P v.buf) :
    (handleClient v).Carries P := by
  unfold handleClient
  split_ifs with h1 h2 h3
  · exact ⟨inInt_atoi _, fun _ => nofun, nofun⟩
  · obtain ⟨n, hn, hP, hval⟩ := h h2
    have hatoi : atoi v.buf.value = n := by rw [hval, atoi_printInt hn]
    exact ⟨hid, fun _ _ => ⟨v.clientId, n, hid, hn, hP, by simp only [hatoi]⟩, nofun⟩
  · exact ⟨hid, fun _ => nofun, nofun⟩
  · exact Client.carries_of hid (.inr rfl)

theorem queue_update {qs : Queues ι} {q : ℤ} {l : List (Envelope ι Message)} (h : qs I.server ≠ none) :
    Function.update qs q (some l) I.server ≠ none := by
  by_cases hq : I.server = q
  · rw [hq, Function.update_self]
    exact nofun
  · rwa [Function.update_of_ne hq]

/-- What is printed for a report. -/
theorem acknowledge_out {k : ℤ} {n : ℕ} (hk : InInt k) (hn : InInt n) (h2 : 2 ≤ n)
    (hval : s.server.buf.value = printTriple ' ' k n (isPrime n)) (sender : Option ι) (stack : ℤ × ℤ × ℤ) :
    (acknowledge s sender stack).out = if n.Prime then s.out ++ [((n : ℤ), k)] else s.out := by
  have hscan := scanTriple_printTriple (c := ' ') (by decide) hk hn (isPrime_inInt n) stack
  unfold acknowledge
  simp only [hval, hscan]
  exact line_of_isPrime h2 _ s.out

variable [DecidableEq ι] {cap : ℕ} {c : ι}

theorem Carried.server (hC : Carried I P s) {rand : Rand} (hP : P rand.val) {stack : ℤ × ℤ × ℤ}
    (h : server I cap s rand stack = some s') : Carried I P s' := by
  have hserver := hC.serverQueue
  rcases server_cases h with rfl | ⟨e, l, -, hl, rfl⟩ | ⟨sender, hpc, rfl⟩ | ⟨sender, q, r, l, hpc, hl, rfl⟩ |
    ⟨sender, q, r, hpc, -, rfl⟩
  · exact hC
  · obtain ⟨he, hqueues⟩ := hC.queues.take hl
    exact ⟨queue_update hserver, hqueues, fun _ _ => he.1 rfl, nofun, hC.clients⟩
  · exact hC.handleServer hP stack hpc
  · obtain ⟨hreport, hnumber⟩ := hC.answered sender q r hpc
    refine ⟨queue_update hserver, hC.queues.send hl ?_, nofun, nofun, hC.clients⟩
    exact ⟨fun _ => hreport, fun _ => hnumber⟩
  · refine ⟨hserver, hC.queues, ?_, ?_, hC.clients⟩ <;> · dsimp only; split <;> exact nofun

/-- A step of a client moves this client and the queues. -/
theorem Carried.move (hC : Carried I P s) {qs : Queues ι} {v : Client} (hserver : qs I.server ≠ none)
    (hqs : qs.All fun q m => (q = I.server → IsReport P m) ∧ ((∃ c, q = I.client c) → IsNumber P m))
    (hv : v.Carries P) : Carried I P { s with queues := qs, clients := Function.update s.clients c v } := by
  refine ⟨hserver, hqs, hC.handled, hC.answered, ?_⟩
  exact (Function.forall_update_iff _ fun _ v => Client.Carries P v).2 ⟨hv, fun d _ => hC.clients d⟩

theorem Carried.client (hC : Carried I P s) (h : client I cap s c = some s') : Carried I P s' := by
  have hserver := hC.serverQueue
  obtain ⟨hid, hsending, htaken⟩ := hC.clients c
  rcases client_cases h with rfl | ⟨-, rfl⟩ | ⟨l, hpc, hl, rfl⟩ | ⟨e, l, -, hl, rfl⟩ | ⟨hpc, rfl⟩ | ⟨hnone, -⟩
  · exact hC
  · exact hC.move (queue_update hserver) (hC.queues.update (by simp)) ⟨hid, fun _ => nofun, nofun⟩
  · refine hC.move (queue_update hserver) (hC.queues.send hl ⟨fun _ => hsending hpc, ?_⟩)
      (Client.carries_of hid (.inr rfl))
    rintro ⟨d, hd⟩
    exact absurd hd.symm (I.client_ne_server d)
  · obtain ⟨he, hqueues⟩ := hC.queues.take hl
    refine hC.move (queue_update hserver) hqueues ⟨hid, ?_, fun _ => he.2 ⟨c, rfl⟩⟩
    rintro (h | h) <;> cases h
  · exact hC.move hserver hC.queues (handleClient_carries hid (htaken hpc))
  · exact absurd hnone hserver

/-- The service with ints in the clients' variables `client_id`. -/
def typed (I : Ids ι) (cap : ℕ) : System (State ι) (Label ι) :=
  ⟨fun s => Init I s ∧ ∀ c, InInt (s.clients c).clientId, next I cap⟩

/-- Only numbers of the kind that is drawn are on their way. -/
theorem reachable_carried (h : (typed I cap).ReachableIf (fun _ a => a.Draws P) s) : Carried I P s := by
  refine h.invariant (I := Carried I P) (fun s h0 => ?_) fun s a s' _ hC hok hs => ?_
  · obtain ⟨h0, hids⟩ := h0
    exact init_carried h0 hids
  · cases a with
    | server rand stack => exact hC.server hok hs
    | client c => exact hC.client hs

theorem out_of_client (h : client I cap s c = some s') : s'.out = s.out := by
  rcases client_cases h with rfl | ⟨-, rfl⟩ | ⟨l, -, -, rfl⟩ | ⟨e, l, -, -, rfl⟩ | ⟨-, rfl⟩ | ⟨-, pc, rfl⟩ <;> rfl

/-- The server prints lines about primes only, and one for every report about a prime. -/
structure PrintsPrimes (I : Ids ι) (cap : ℕ) (s : State ι) : Prop where
  lines : ∀ a s', next I cap s a = some s' →
    s'.out = s.out ∨ ∃ (n : ℕ) (k : ℤ), n.Prime ∧ s'.out = s.out ++ [((n : ℤ), k)]
  missed : ∀ sender, s.server.pc = .handle sender → s.server.buf.type = 3 → ∃ (k : ℤ) (n : ℕ),
    s.server.buf.value = printTriple ' ' k n (isPrime n) ∧ ∀ rand stack,
      (handleServer s sender rand stack).out = if n.Prime then s.out ++ [((n : ℤ), k)] else s.out

theorem Carried.printsPrimes (hC : Carried I (2 ≤ ·) s) : PrintsPrimes I cap s := by
  have hreport : ∀ sender, s.server.pc = .handle sender → s.server.buf.type = 3 → ∃ (k : ℤ) (n : ℕ),
      s.server.buf.value = printTriple ' ' k n (isPrime n) ∧ ∀ rand stack,
        (SysV.handleServer s sender rand stack).out =
          if n.Prime then s.out ++ [((n : ℤ), k)] else s.out := by
    intro sender hpc ht
    obtain ⟨k, n, hk, hn, h2, hval⟩ := hC.handled sender hpc ht
    refine ⟨k, n, hval, fun rand stack => ?_⟩
    simp only [SysV.handleServer, ht]
    exact acknowledge_out hk hn h2 hval sender stack
  refine ⟨fun a s' hs => ?_, hreport⟩
  cases a with
  | client c => exact .inl (out_of_client hs)
  | server rand stack =>
    rcases server_cases hs with rfl | ⟨e, l, -, -, rfl⟩ | ⟨sender, hpc, rfl⟩ | ⟨sender, q, r, l, -, -, rfl⟩ |
      ⟨sender, q, r, -, -, rfl⟩
    · exact .inl rfl
    · exact .inl rfl
    · by_cases ht : s.server.buf.type = 3
      · obtain ⟨k, n, -, hout⟩ := hreport sender hpc ht
        exact line_cases (hout rand stack)
      · left
        unfold SysV.handleServer
        split_ifs <;> rfl
    · exact .inl rfl
    · exact .inl rfl

end Step

end SysV

/-! ## POSIX queues -/

namespace Posix

/-- A buffer that says it holds a report holds one, about a number of that kind. -/
def IsReport (P : ℕ → Prop) (b : Buffer) : Prop :=
  byte0 b = '\x03' → ∃ (k : ℤ) (n : ℕ), InInt k ∧ InInt n ∧ P n ∧ cString b.tail = printTriple ',' k n (isPrime n)

/-- A buffer that says it holds a number holds one of that kind. -/
def IsNumber (P : ℕ → Prop) (b : Buffer) : Prop :=
  byte0 b = '\x02' → ∃ n : ℕ, InInt n ∧ P n ∧ cString b.tail = printInt n

/-- What a client is about to send, and what it has been sent. -/
structure Client.Carries (P : ℕ → Prop) (v : Client) : Prop where
  id : InInt v.clientId
  sending : v.pc = .register ∨ v.pc = .send → byte0 v.buf ≠ '\x00' ∧ IsReport P v.buf
  taken : v.pc = .handle → IsNumber P v.buf

/-- A message that ends in a NUL holds a number of a kind, if it says so. -/
def Numbers (P : ℕ → Prop) (m : List Char) : Prop :=
  ∃ c s, '\x00' ∉ s ∧ m = c :: s ++ ['\x00'] ∧ IsNumber P (c :: s)

/-- Only numbers of a kind are on their way, and the server receives into a cleared buffer. -/
structure Carried (N : Names ι) (P : ℕ → Prop) (s : State ι) : Prop where
  queues : s.queues.All fun q m => (q = serverName → IsReport P m) ∧ ((∃ c, q = N.name c) → Numbers P m)
  running : s.server.pc ≠ .drain
  cleared : s.server.pc = .poll → s.server.buf = []
  handled : ∀ sender, s.server.pc = .handle sender → IsReport P s.server.buf
  answered : ∀ sender q r, s.server.pc = .send sender q r →
    byte0 s.server.buf ≠ '\x00' ∧ IsReport P s.server.buf ∧ IsNumber P s.server.buf
  clients : ∀ c, (s.clients c).Carries P

/-- `rand()` returns a number of that kind. -/
def Label.Draws (P : ℕ → Prop) : Label ι → Prop
  | .server rand _ => P rand.val
  | .client _ => True

instance (P : ℕ → Prop) [DecidablePred P] : DecidablePred (Label.Draws (ι := ι) P)
  | .server rand _ => inferInstanceAs (Decidable (P rand.val))
  | .client _ => inferInstanceAs (Decidable True)

section Step

variable {N : Names ι} {P : ℕ → Prop} {s s' : State ι} {b : Buffer}

/-! What is sent of a buffer. -/

theorem cString_split (h : byte0 b ≠ '\x00') : cString b = byte0 b :: cString b.tail := by
  cases b with
  | nil => exact absurd rfl h
  | cons c b => exact cString_cons h b

theorem IsReport.cString (h : IsReport P b) (hb : byte0 b ≠ '\x00') (r : Buffer) (hr : r = [] ∨ r = ['\x00']) :
    IsReport P (cString b ++ r) := by
  have hsame : CText.cString (CText.cString b.tail ++ r) = CText.cString b.tail := by
    rcases hr with rfl | rfl
    · rw [List.append_nil]
      exact cString_eq_self (not_mem_cString b.tail)
    · exact cString_append_nul (not_mem_cString b.tail) []
  rw [cString_split hb]
  intro h3
  rw [List.cons_append, List.tail_cons, hsame]
  exact h h3

theorem IsNumber.numbers (h : IsNumber P b) (hb : byte0 b ≠ '\x00') : Numbers P (cString b ++ ['\x00']) := by
  refine ⟨byte0 b, CText.cString b.tail, not_mem_cString _, by rw [cString_split hb], fun h2 => ?_⟩
  rw [List.tail_cons, cString_eq_self (not_mem_cString b.tail)]
  exact h h2

/-- What is received into a buffer. -/
theorem Numbers.overwrite {m : List Char} (h : Numbers P m) (b : Buffer) : IsNumber P (overwrite m b) := by
  obtain ⟨c, s, hs, rfl, hnumber⟩ := h
  obtain ⟨hbyte, htext⟩ := List.cons.inj (split_overwrite (c := c) hs b)
  intro h2
  rw [hbyte] at h2
  rw [htext]
  have hself := hnumber h2
  rwa [List.tail_cons, cString_eq_self hs] at hself

theorem Client.carries_of {v : Client} (hid : InInt v.clientId) (h : v.pc = .start ∨ v.pc = .poll ∨ v.pc = .exited) :
    v.Carries P := by
  refine ⟨hid, ?_, ?_⟩ <;> rcases h with h | h | h <;> simp [h]

/-- A client's report is about the number it was sent. -/
theorem handleClient_carries {v : Client} (hid : InInt v.clientId) (h : IsNumber P v.buf) :
    (handleClient v).Carries P := by
  unfold handleClient
  split_ifs with h1 h2 h3
  · exact ⟨inInt_atoi _, fun _ => ⟨nofun, nofun⟩, nofun⟩
  · obtain ⟨n, hn, hP, hval⟩ := h h2
    have hatoi : atoi (cString v.buf.tail) = n := by rw [hval, atoi_printInt hn]
    have hlen := length_printTriple_le ',' hid hn (isPrime_eq n)
    have hmsg : (printTriple ',' v.clientId n (isPrime n)).take 31 = printTriple ',' v.clientId n (isPrime n) :=
      List.take_of_length_le (by omega)
    refine ⟨hid, fun _ => ⟨nofun, fun _ => ⟨v.clientId, n, hid, hn, hP, ?_⟩⟩, nofun⟩
    simp only [hatoi, hmsg]
    exact cString_tail_strcpy1 (nul_not_mem_printTriple (by decide) _ _ _) _
  · exact ⟨hid, fun _ => ⟨nofun, nofun⟩, nofun⟩
  · exact Client.carries_of hid (.inr (.inl rfl))

theorem init_carried (h : Init N false s) (hids : ∀ c, InInt (s.clients c).clientId) : Carried N P s where
  queues q e he := by
    constructor
    · rintro rfl
      simp [h.serverQueue] at he
    · rintro ⟨c, rfl⟩
      simp [h.clientQueue c] at he
  running := by simp [h.pc]
  cleared _ := h.buf
  handled sender hpc := by rw [h.pc] at hpc; cases hpc
  answered sender q r hpc := by rw [h.pc] at hpc; cases hpc
  clients c := Client.carries_of (hids c) (.inl (h.client c))

theorem Carried.handleServer (hC : Carried N P s) {sender : Option ι} {rand : Rand} (hP : P rand.val)
    (stack : ℤ × ℤ × ℤ) (hpc : s.server.pc = .handle sender) : Carried N P (handleServer s sender rand stack) := by
  unfold Posix.handleServer
  split_ifs with h1 h2 h3
  · exact ⟨hC.queues, nofun, nofun, nofun, fun _ _ _ _ => ⟨nofun, nofun, nofun⟩, hC.clients⟩
  · refine ⟨hC.queues, nofun, nofun, nofun, fun _ _ _ _ => ⟨nofun, nofun, fun _ => ?_⟩, hC.clients⟩
    exact ⟨rand.val, inInt_rand rand, hP, cString_tail_strcpy1 (nul_not_mem_printInt _) _⟩
  · refine ⟨hC.queues, nofun, nofun, nofun, fun _ _ _ _ => ⟨nofun, fun _ => ?_, nofun⟩, hC.clients⟩
    exact hC.handled sender hpc h3
  · exact ⟨hC.queues, nofun, fun _ => rfl, nofun, nofun, hC.clients⟩

theorem Carried.answer (hC : Carried N P s) {sender : Option ι} {q : Option (List Char)} {r : Reply}
    (hpc : s.server.pc = .send sender q r) : Carried N P (answer s q r) := by
  obtain ⟨hbyte, hreport, hnumber⟩ := hC.answered sender q r hpc
  rcases answer_cases s q r with ⟨qs, hsend, h⟩ | ⟨-, -, h⟩ | ⟨-, -, h⟩ <;> rw [h]
  · obtain ⟨q, l, -, hl, -, rfl⟩ := mqSend_eq_some.1 hsend
    refine ⟨hC.queues.send hl ⟨fun _ => ?_, fun _ => ?_⟩, nofun, fun _ => rfl, nofun, nofun, hC.clients⟩
    · exact hreport.cString hbyte _ (.inr rfl)
    · exact hnumber.numbers hbyte
  · exact ⟨hC.queues, nofun, fun _ => rfl, nofun, nofun, hC.clients⟩
  · exact ⟨hC.queues, nofun, nofun, nofun, nofun, hC.clients⟩

theorem Carried.server (hC : Carried N P s) {rand : Rand} (hP : P rand.val) {stack : ℤ × ℤ × ℤ}
    (h : server s rand stack = some s') : Carried N P s' := by
  rcases server_cases h with ⟨e, l, hpc, -, -⟩ | ⟨hpc, -, -⟩ | ⟨e, l, hpc, hl, rfl⟩ | ⟨hpc, -, rfl⟩ |
    ⟨sender, hpc, rfl⟩ | ⟨sender, q, r, hpc, rfl⟩
  · exact absurd hpc hC.running
  · exact absurd hpc hC.running
  · obtain ⟨he, hqueues⟩ := hC.queues.take hl
    refine ⟨hqueues, nofun, nofun, fun _ _ => ?_, nofun, hC.clients⟩
    rw [hC.cleared hpc, overwrite_nil]
    exact he.1 rfl
  · refine ⟨hC.queues, hC.running, fun _ => rfl, fun _ h => ?_, fun _ _ _ h => ?_, hC.clients⟩
    · exact absurd (hpc.symm.trans h) nofun
    · exact absurd (hpc.symm.trans h) nofun
  · exact hC.handleServer hP stack hpc
  · exact hC.answer hpc

/-- What is printed for a report. -/
theorem acknowledge_out {k : ℤ} {n : ℕ} (hk : InInt k) (hn : InInt n) (h2 : 2 ≤ n)
    (hval : cString s.server.buf.tail = printTriple ',' k n (isPrime n)) (sender : Option ι) (stack : ℤ × ℤ × ℤ) :
    (acknowledge s sender stack).out = if n.Prime then s.out ++ [((n : ℤ), k)] else s.out := by
  have hscan := scanTriple_printTriple (c := ',') (by decide) hk hn (isPrime_inInt n) stack
  unfold acknowledge
  simp only [hval, hscan]
  exact line_of_isPrime h2 _ s.out

theorem out_of_answer (s : State ι) (q : Option (List Char)) (r : Reply) : (answer s q r).out = s.out := by
  rcases answer_cases s q r with ⟨qs, -, h⟩ | ⟨-, -, h⟩ | ⟨-, -, h⟩ <;> rw [h]

variable [DecidableEq ι] {c : ι}

/-- A step of a client moves this client and the queues. -/
theorem Carried.move (hC : Carried N P s) {qs : Queues ι} {v : Client}
    (hqs : qs.All fun q m => (q = serverName → IsReport P m) ∧ ((∃ c, q = N.name c) → Numbers P m))
    (hv : v.Carries P) : Carried N P { s with queues := qs, clients := Function.update s.clients c v } := by
  refine ⟨hqs, hC.running, hC.cleared, hC.handled, hC.answered, ?_⟩
  exact (Function.forall_update_iff _ fun _ v => Client.Carries P v).2 ⟨hv, fun d _ => hC.clients d⟩

theorem Carried.client (hC : Carried N P s) (h : client N s c = some s') : Carried N P s' := by
  obtain ⟨hid, hsending, htaken⟩ := hC.clients c
  rcases clientOf_cases h with ⟨-, rfl⟩ | ⟨l, b, hpc, hl, -, rfl⟩ | ⟨pc, b, hpc, -, rfl⟩ | ⟨e, l, -, hl, rfl⟩ |
    ⟨hpc, -, rfl⟩ | ⟨hpc, rfl⟩
  · exact hC.move (hC.queues.update (hC.queues (N.name c))) ⟨hid, fun _ => ⟨nofun, nofun⟩, nofun⟩
  · obtain ⟨hbyte, hreport⟩ := hsending hpc
    refine hC.move (hC.queues.send hl ⟨fun _ => ?_, ?_⟩) (Client.carries_of hid (.inr (.inl rfl)))
    · have hself := hreport.cString hbyte [] (.inl rfl)
      rwa [List.append_nil] at hself
    · rintro ⟨d, hd⟩
      exact absurd hd.symm (N.name_ne_server d)
  · refine hC.move hC.queues (Client.carries_of hid ?_)
    rcases hpc with ⟨-, rfl⟩ | ⟨-, rfl⟩
    · exact .inr (.inr rfl)
    · exact .inr (.inl rfl)
  · obtain ⟨he, hqueues⟩ := hC.queues.take hl
    refine hC.move hqueues ⟨hid, ?_, fun _ => (he.2 ⟨c, rfl⟩).overwrite _⟩
    rintro (h | h) <;> cases h
  · exact hC.move hC.queues (Client.carries_of hid (.inr (.inl hpc)))
  · exact hC.move hC.queues (handleClient_carries hid (htaken hpc))

/-- The service from its main loop on, with ints in the clients' variables `client_id`. -/
def typed (N : Names ι) : System (State ι) (Label ι) :=
  ⟨fun s => Init N false s ∧ ∀ c, InInt (s.clients c).clientId, next N⟩

/-- Only numbers of the kind that is drawn are on their way. -/
theorem reachable_carried (h : (typed N).ReachableIf (fun _ a => a.Draws P) s) : Carried N P s := by
  refine h.invariant (I := Carried N P) (fun s h0 => ?_) fun s a s' _ hC hok hs => ?_
  · obtain ⟨h0, hids⟩ := h0
    exact init_carried h0 hids
  · cases a with
    | server rand stack => exact hC.server hok hs
    | client c => exact hC.client hs

theorem out_of_client (h : client N s c = some s') : s'.out = s.out := by
  rcases clientOf_cases h with ⟨-, rfl⟩ | ⟨l, b, -, -, -, rfl⟩ | ⟨pc, b, -, -, rfl⟩ | ⟨e, l, -, -, rfl⟩ |
    ⟨-, -, rfl⟩ | ⟨-, rfl⟩ <;> rfl

/-- The server prints lines about primes only, and one for every report about a prime. -/
structure PrintsPrimes (N : Names ι) (s : State ι) : Prop where
  lines : ∀ a s', next N s a = some s' →
    s'.out = s.out ∨ ∃ (n : ℕ) (k : ℤ), n.Prime ∧ s'.out = s.out ++ [((n : ℤ), k)]
  missed : ∀ sender, s.server.pc = .handle sender → byte0 s.server.buf = '\x03' → ∃ (k : ℤ) (n : ℕ),
    cString s.server.buf.tail = printTriple ',' k n (isPrime n) ∧ ∀ rand stack,
      (handleServer s sender rand stack).out = if n.Prime then s.out ++ [((n : ℤ), k)] else s.out

theorem Carried.printsPrimes (hC : Carried N (2 ≤ ·) s) : PrintsPrimes N s := by
  have hreport : ∀ sender, s.server.pc = .handle sender → byte0 s.server.buf = '\x03' → ∃ (k : ℤ) (n : ℕ),
      cString s.server.buf.tail = printTriple ',' k n (isPrime n) ∧ ∀ rand stack,
        (Posix.handleServer s sender rand stack).out = if n.Prime then s.out ++ [((n : ℤ), k)] else s.out := by
    intro sender hpc ht
    obtain ⟨k, n, hk, hn, h2, hval⟩ := hC.handled sender hpc ht
    refine ⟨k, n, hval, fun rand stack => ?_⟩
    simp only [Posix.handleServer, ht]
    exact acknowledge_out hk hn h2 hval sender stack
  refine ⟨fun a s' hs => ?_, hreport⟩
  cases a with
  | client c => exact .inl (out_of_client hs)
  | server rand stack =>
    rcases server_cases hs with ⟨e, l, -, -, rfl⟩ | ⟨-, -, rfl⟩ | ⟨e, l, -, -, rfl⟩ | ⟨-, -, rfl⟩ |
      ⟨sender, hpc, rfl⟩ | ⟨sender, q, r, -, rfl⟩
    · exact .inl rfl
    · exact .inl rfl
    · exact .inl rfl
    · exact .inl rfl
    · by_cases ht : byte0 s.server.buf = '\x03'
      · obtain ⟨k, n, -, hout⟩ := hreport sender hpc ht
        exact line_cases (hout rand stack)
      · left
        unfold Posix.handleServer
        split_ifs <;> rfl
    · exact .inl (out_of_answer s q r)

end Step

end Posix

/-! ## Both services -/

/-- `is_prime` is right about a number that `rand()` returns iff it is at least 2. When only such numbers are drawn,
both servers print the lines about primes and no others. -/
theorem lines_right_iff [DecidableEq ι] :
    (∀ number : Rand, (isPrime number.val = 1 ↔ number.val.Prime) ↔ 2 ≤ number.val) ∧
    (∀ (I : SysV.Ids ι) (cap : ℕ) (s : SysV.State ι), (SysV.typed I cap).ReachableIf (fun _ a => a.Draws (2 ≤ ·)) s →
      SysV.PrintsPrimes I cap s) ∧
    ∀ (N : Posix.Names ι) (s : Posix.State ι), (Posix.typed N).ReachableIf (fun _ a => a.Draws (2 ≤ ·)) s →
      Posix.PrintsPrimes N s :=
  ⟨fun number => isPrime_right_iff number.val, fun _ _ _ h => (SysV.reachable_carried h).printsPrimes,
    fun _ _ h => (Posix.reachable_carried h).printsPrimes⟩

/-- A client reports on 7. -/
theorem lines_right_iff_seven : ∃ s, (SysV.typed SysV.twoIds 409).runIf (fun _ a => a.Draws (2 ≤ ·)) SysV.twoDrained
    SysV.sevenRun = some s ∧ SysV.PrintsPrimes SysV.twoIds 409 s ∧ s.server.buf = ⟨3, ['0', ' ', '7', ' ', '1']⟩ := by
  have hinit : (SysV.typed SysV.twoIds 409).ReachableIf (fun _ a => a.Draws (2 ≤ ·)) SysV.twoDrained :=
    .init ⟨SysV.twoDrained_init, by decide⟩
  obtain ⟨s, hrun, hbuf⟩ : ∃ s, (SysV.typed SysV.twoIds 409).runIf (fun _ a => a.Draws (2 ≤ ·)) SysV.twoDrained
    SysV.sevenRun = some s ∧ s.server.buf = ⟨3, ['0', ' ', '7', ' ', '1']⟩ := ⟨_, rfl, rfl⟩
  exact ⟨s, hrun, lines_right_iff.2.1 _ _ s (System.ReachableIf.runIf SysV.sevenRun hinit hrun), hbuf⟩

/-- The server draws 1 for the first client and handles the report on it. -/
def oneRun : List (SysV.Label (Fin 2)) :=
  let s : SysV.Label (Fin 2) := .server 1 (0, 0, 0)
  let c : SysV.Label (Fin 2) := .client 0
  [c, c, s, s, s, c, c, c, s, s, s, c, c, c, s, s]

/-- It prints the 1 as a prime. -/
theorem one_printed : isPrime 1 = 1 ∧ ¬ Nat.Prime 1 ∧
    ∃ s, (SysV.system SysV.twoIds 409).run SysV.twoDrained oneRun = some s ∧ s.out = [(1, 0)] :=
  ⟨rfl, Nat.not_prime_one, _, rfl, rfl⟩

end Sysopy.PrimeQueue
