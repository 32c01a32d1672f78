/-
Who receives what the POSIX prime service sends (cw06/zad2). Each client makes up the name of its queue from the
first number its seed gives, and opens the queue without O_EXCL. When the names differ, what is sent for an id is
received by the client given that id; when two clients have one name, one of them can take the other's messages.
-/
import Sysopy.PrimeQueue.PosixDeparture

namespace Sysopy.PrimeQueue.Posix

open Sysopy.Conc Sysopy.CText

/-! ## The names -/

/-- `client_name`, when `rnd seed` is the first `rand()` after `srand(seed)`. -/
def clientName (rnd : ℕ → Rand) (seed : ℕ) : List Char := '/' :: printInt (rnd seed).val

theorem clientName_eq_iff {rnd : ℕ → Rand} {m n : ℕ} : clientName rnd m = clientName rnd n ↔ rnd m = rnd n := by
  constructor
  · intro h
    have hprint : printInt (rnd m).val = printInt (rnd n).val := (List.cons.inj h).2
    have hval : ((rnd m).val : ℤ) = (rnd n).val := by
      rw [← atoi_printInt (inInt_rand (rnd m)), hprint, atoi_printInt (inInt_rand (rnd n))]
    exact Fin.ext (by exact_mod_cast hval)
  · intro h
    rw [clientName, h, clientName]

theorem clientName_ne_server (rnd : ℕ → Rand) (n : ℕ) : clientName rnd n ≠ serverName := by
  intro h
  have hs : 's' ∈ printInt (rnd n).val := by
    rw [(List.cons.inj h).2]
    exact List.mem_cons_self
  rcases printInt_chars hs with h | h <;> exact absurd h (by decide)

/-- The names of clients whose seeds give different numbers. -/
def seedNames {ι : Type*} (rnd : ℕ → Rand) (time : ι → ℕ) (h : Function.Injective fun c => rnd (time c)) : Names ι where
  name c := clientName rnd (time c)
  name_injective _ _ hcd := h (clientName_eq_iff.1 hcd)
  name_ne_server _ := clientName_ne_server rnd _
  nul_not_mem c := by
    intro hmem
    rcases List.mem_cons.1 hmem with hmem | hmem
    · exact absurd hmem (by decide)
    · exact nul_not_mem_printInt _ hmem
  length_lt c := by
    have := length_printInt_le (inInt_rand (rnd (time c)))
    rw [clientName, List.length_cons]
    omega

/-! ## The service and who receives what -/

structure Routed (ι : Type*) where
  state : State ι
  /-- History: the id that the server's current message is for. -/
  current : ℤ
  /-- History: the ids that the messages in a queue are for. -/
  ids : List Char → List ℤ
  /-- History: who received a message, and the id it was for. -/
  received : List (ι × ℤ)

/-- The id for which the server answers the message in `buf`. -/
def addressee {ι : Type*} (v : Server ι) (stack : ℤ × ℤ × ℤ) : ℤ :=
  if byte0 v.buf = '\x01' then v.clientId
  else if byte0 v.buf = '\x02' then atoi (cString v.buf.tail)
  else (scanTriple ',' (cString v.buf.tail) stack).1

section Step

variable {ι : Type*} [DecidableEq ι] (name : ι → List Char)

/-- The history after the server's step. -/
def noteServer (w : Routed ι) (stack : ℤ × ℤ × ℤ) : Routed ι :=
  match w.state.server.pc with
  | .handle _ => { w with current := addressee w.state.server stack }
  | .send _ q _ =>
    match q, mqSend w.state.queues q ⟨none, cString w.state.server.buf ++ ['\x00']⟩ with
    | some p, some _ => { w with ids := Function.update w.ids p (w.ids p ++ [w.current]) }
    | _, _ => w
  | _ => w

/-- The history after a client's step. -/
def noteClient (w : Routed ι) (c : ι) : Routed ι :=
  match (w.state.clients c).pc, mqReceive w.state.queues (name c) with
  | .poll, some _ =>
    { w with
      ids := Function.update w.ids (name c) (w.ids (name c)).tail
      received := w.received ++ ((w.ids (name c)).head?.map fun k => (c, k)).toList }
  | _, _ => w

def nextRouted (w : Routed ι) : Label ι → Option (Routed ι)
  | .server rand stack => (server w.state rand stack).map fun s => { noteServer w stack with state := s }
  | .client c => (clientOf name w.state c).map fun s => { noteClient name w c with state := s }

/-- The server starts, with anything in its queue, before the clients do. -/
structure RoutedStarted (w : Routed ι) : Prop where
  state : Started name w.state
  ids : ∀ q, w.ids q = []
  received : w.received = []

/-- All interleavings of the server and clients with these names. -/
def routed : System (Routed ι) (Label ι) := ⟨RoutedStarted name, nextRouted name⟩

end Step

/-- What was received for an id was received by the client given that id, and by no other. -/
def Delivered {ι : Type*} (w : Routed ι) : Prop :=
  ∀ p ∈ w.received, ∀ d, (d, p.2) ∈ w.state.given ↔ d = some p.1

/-! ## Different names -/

section Invariant

variable {ι : Type*} {N : Names ι} {w : Routed ι} {s s' t : State ι} {c : ι}

/-- The messages in a client's queue, and those the client received, are for an id given to it. -/
structure Kept (N : Names ι) (w : Routed ι) : Prop where
  received : ∀ p ∈ w.received, (some p.1, p.2) ∈ w.state.given
  ids : ∀ c, ∀ k ∈ w.ids (N.name c), (some c, k) ∈ w.state.given
  current : ∀ c q r, w.state.server.pc = .send (some c) q r →
    (some c, w.current) ∈ w.state.given ∧ ∀ p ∈ q, p = N.name c

theorem started_kept (h : RoutedStarted N.name w) : Kept N w where
  received := by simp [h.received]
  ids c := by simp [h.ids]
  current c q r hpc := by rw [h.state.pc] at hpc; cases hpc

variable [DecidableEq ι] [Fintype ι]

/-- The server answers a message for the id given to its sender. -/
theorem Inv.addressee (hI : Inv N t) (hn : Fintype.card ι ≤ 100) (rand : Rand) (stack : ℤ × ℤ × ℤ)
    (hpc : t.server.pc = .handle (some c)) :
    (some c, Posix.addressee t.server stack) ∈ (handleServer t (some c) rand stack).given := by
  obtain ⟨-, hm, -⟩ := (hI.phase c).of_served (x := (none, t.server.buf)) (by simp [view, atServer, hpc])
  replace hm : FromClient (N.name c) (t.clients c).clientId (idOf t.given c) t.server.buf := hm
  unfold Posix.addressee handleServer
  split_ifs with h1 h2 h3
  · simp [Posix.giveId]
  · obtain ⟨hval, hid⟩ := hm.byte0_two h2
    have hk := hI.registry.lt_card hid
    rw [hval, cString_eq_self (nul_not_mem_printInt _), atoi_printInt ⟨by omega, by omega⟩]
    exact mem_of_idOf hid
  · obtain ⟨hid, n, hnum, hval⟩ := hm.byte0_three h3
    have hk := hI.registry.lt_card hid
    rw [hval, cString_eq_self (nul_not_mem_printTriple (by decide) _ _ _),
      scanTriple_printTriple (by decide) ⟨by omega, by omega⟩ hnum (isPrime_inInt n)]
    exact mem_of_idOf hid
  · have := hm.byte0
    tauto

omit [DecidableEq ι] [Fintype ι] in
theorem answer_given (q : Option (List Char)) (r : Reply) : (answer s q r).given = s.given := by
  rcases answer_cases s q r with ⟨qs, -, h⟩ | ⟨-, -, h⟩ | ⟨-, -, h⟩ <;> rw [h]

omit [DecidableEq ι] [Fintype ι] in
/-- Ids that were given stay given. -/
theorem given_subset {rand : Rand} {stack : ℤ × ℤ × ℤ} (h : server s rand stack = some s') : s.given ⊆ s'.given := by
  rcases server_cases h with ⟨e, l, -, -, rfl⟩ | ⟨-, -, rfl⟩ | ⟨e, l, -, -, rfl⟩ | ⟨-, -, rfl⟩ | ⟨sender, -, rfl⟩ |
    ⟨sender, q, r, -, rfl⟩
  · exact fun _ => id
  · exact fun _ => id
  · exact fun _ => id
  · exact fun _ => id
  · unfold handleServer
    split_ifs
    · exact fun _ hp => List.mem_append_left _ hp
    · exact fun _ => id
    · exact fun _ => id
    · exact fun _ => id
  · rw [answer_given]
    exact fun _ => id

omit [DecidableEq ι] [Fintype ι] in
/-- A step after which the server is not at a send, and that adds no id to a queue. -/
theorem Kept.keep (hK : Kept N w) {v : Routed ι} (hgiven : w.state.given ⊆ v.state.given)
    (hreceived : v.received = w.received) (hids : v.ids = w.ids)
    (hpc : ∀ c q r, v.state.server.pc = .send (some c) q r →
      (some c, v.current) ∈ v.state.given ∧ ∀ p ∈ q, p = N.name c) : Kept N v where
  received p hp := hgiven (hK.received p (by rwa [hreceived] at hp))
  ids c k hk := hgiven (hK.ids c k (by rwa [hids] at hk))
  current := hpc

omit [DecidableEq ι] [Fintype ι] in
theorem SameText.addressee {v v' : Server ι} (h : SameText v.buf v'.buf) (hid : v.clientId = v'.clientId)
    (stack : ℤ × ℤ × ℤ) : Posix.addressee v stack = Posix.addressee v' stack := by
  unfold Posix.addressee
  rw [h.1, h.2, hid]

theorem Kept.handles (hI : Inv N t) (hn : Fintype.card ι ≤ 100) (hst : Shadow N w.state t) (hK : Kept N w)
    {sender : Option ι} (rand : Rand) (stack : ℤ × ℤ × ℤ) (hpc : w.state.server.pc = .handle sender) :
    Kept N { w with
      state := handleServer w.state sender rand stack, current := Posix.addressee w.state.server stack } := by
  have hstep : server w.state rand stack = some (handleServer w.state sender rand stack) := by simp [server, hpc]
  refine hK.keep (given_subset hstep) rfl rfl fun d q r hpc' => ?_
  have hsrv := hst.server
  cases hsrv
  case handling c hs ht hb hq =>
    obtain rfl : sender = some c := by simpa [hs] using hpc.symm
    obtain ⟨-, ⟨hgiven, -⟩, -, hend⟩ := handleServer_same hb hst.clientNames hst.clientId hst.given (some c) rand stack
    obtain ⟨t', hI', hst'⟩ := hst.serverHandles hI hn rand stack hpc
    have hdc : d = c := by
      rcases hend with ⟨p, r', hs', -⟩ | ⟨hs', -⟩
      · have hsame := hpc'.symm.trans hs'
        simpa [ServerPc.sender] using congrArg ServerPc.sender hsame
      · exact absurd (hpc'.symm.trans hs') (by rintro ⟨⟩)
    subst hdc
    refine ⟨?_, fun p hp => ?_⟩
    · simp only [hb.addressee hst.clientId, hgiven]
      exact hI.addressee hn rand stack ht
    · -- the descriptor is of the queue that the turns have open
      have hsrv' := hst'.server
      cases hsrv'
      case sending c p' q' r' hs' ht' _ _ hd =>
        obtain ⟨rfl, rfl, rfl⟩ : d = c ∧ q = p' ∧ r = r' := by simpa using hpc'.symm.trans hs'
        obtain ⟨rfl, -⟩ := hI'.answering ht'
        rcases hd with rfl | ⟨rfl, -⟩
        · exact (Option.mem_some_iff.1 hp).symm
        · cases hp
      case draining hs' _ _ _ => exact absurd (hpc'.symm.trans hs') (by rintro ⟨⟩)
      case polling hs' _ _ => exact absurd (hpc'.symm.trans hs') (by rintro ⟨⟩)
      case handling c hs' _ _ _ => exact absurd (hpc'.symm.trans hs') (by rintro ⟨⟩)
  all_goals simp_all

omit [DecidableEq ι] [Fintype ι] in
/-- An answer adds the id it is for to the queue it goes to. -/
theorem noteServer_send (w : Routed ι) (stack : ℤ × ℤ × ℤ) {sender : Option ι} {q : Option (List Char)} {r : Reply}
    (hpc : w.state.server.pc = .send sender q r) :
    noteServer w stack = w ∨
      ∃ p, q = some p ∧ noteServer w stack = { w with ids := Function.update w.ids p (w.ids p ++ [w.current]) } := by
  unfold noteServer
  rw [hpc]
  dsimp only
  split
  · exact .inr ⟨_, rfl, rfl⟩
  · exact .inl rfl

omit [Fintype ι] in
theorem Kept.sends (hst : Shadow N w.state t) (hK : Kept N w) {sender : Option ι} {q : Option (List Char)}
    {r : Reply} (stack : ℤ × ℤ × ℤ) (hpc : w.state.server.pc = .send sender q r) :
    Kept N { noteServer w stack with state := answer w.state q r } := by
  have hpc' : ∀ c q' r', (answer w.state q r).server.pc ≠ .send (some c) q' r' := by
    intro c q' r'
    rcases answer_cases w.state q r with ⟨qs, -, h⟩ | ⟨-, -, h⟩ | ⟨-, -, h⟩ <;> rw [h] <;> exact nofun
  obtain ⟨c, rfl⟩ : ∃ c, sender = some c := by
    have hsrv := hst.server
    cases hsrv
    case sending c p p' r' hs ht hb hq hd =>
      exact ⟨c, by simpa [ServerPc.sender] using congrArg ServerPc.sender (hpc.symm.trans hs)⟩
    all_goals simp_all
  obtain ⟨hcurrent, hq⟩ := hK.current c q r hpc
  have hgiven := answer_given (s := w.state) q r
  rcases noteServer_send w stack hpc with hnote | ⟨p, rfl, hnote⟩ <;> rw [hnote]
  -- the send failed, and nothing new is on its way
  · refine hK.keep ?_ rfl rfl fun c q' r' h => absurd h (hpc' c q' r')
    rw [hgiven]
    exact fun _ => id
  -- the message goes into the queue of the client that is served
  · obtain rfl : p = N.name c := hq p rfl
    refine ⟨?_, fun d k hk => ?_, fun c q' r' h => absurd h (hpc' c q' r')⟩
    · rw [hgiven]
      exact hK.received
    · rw [hgiven]
      by_cases hd : d = c
      · subst hd
        simp only [Function.update_self, List.mem_append, List.mem_singleton] at hk
        rcases hk with hk | rfl
        · exact hK.ids d k hk
        · exact hcurrent
      · have hcd : N.name d ≠ N.name c := fun h => hd (N.name_injective h)
        simp only [Function.update_of_ne hcd] at hk
        exact hK.ids d k hk

theorem Kept.server (hI : Inv N t) (hn : Fintype.card ι ≤ 100) (hst : Shadow N w.state t) (hK : Kept N w)
    {rand : Rand} {stack : ℤ × ℤ × ℤ} (hs : server w.state rand stack = some s) :
    Kept N { noteServer w stack with state := s } := by
  have hgiven := given_subset hs
  rcases server_cases hs with ⟨e, l, hpc, -, rfl⟩ | ⟨hpc, -, rfl⟩ | ⟨e, l, hpc, -, rfl⟩ | ⟨hpc, -, rfl⟩ |
    ⟨sender, hpc, rfl⟩ | ⟨sender, q, r, hpc, rfl⟩
  · simp only [noteServer, hpc]
    exact hK.keep hgiven rfl rfl nofun
  · simp only [noteServer, hpc]
    exact hK.keep hgiven rfl rfl nofun
  · simp only [noteServer, hpc]
    exact hK.keep hgiven rfl rfl nofun
  · simp only [noteServer, hpc]
    exact hK.keep hgiven rfl rfl nofun
  · have hnote : noteServer w stack = { w with current := Posix.addressee w.state.server stack } := by
      simp only [noteServer, hpc]
    rw [hnote]
    exact hK.handles hI hn hst rand stack hpc
  · exact hK.sends hst stack hpc

omit [Fintype ι] in
/-- A client receives only from its own queue. -/
theorem Kept.client (hK : Kept N w) (hs : clientOf N.name w.state c = some s) :
    Kept N { noteClient N.name w c with state := s } := by
  obtain ⟨hserver, hgiven⟩ : s.server = w.state.server ∧ s.given = w.state.given := by
    rcases clientOf_cases hs with ⟨-, rfl⟩ | ⟨l, b, -, -, -, rfl⟩ | ⟨pc, b, -, -, rfl⟩ | ⟨e, l, -, -, rfl⟩ |
      ⟨-, -, rfl⟩ | ⟨-, rfl⟩ <;> exact ⟨rfl, rfl⟩
  have hcurrent : ∀ d q r, s.server.pc = .send (some d) q r →
      (some d, w.current) ∈ s.given ∧ ∀ p ∈ q, p = N.name d := by
    rw [hserver, hgiven]
    exact hK.current
  unfold noteClient
  split
  · refine ⟨fun p hp => ?_, fun d k hk => ?_, hcurrent⟩
    · simp only [hgiven]
      rcases List.mem_append.1 hp with hp | hp
      · exact hK.received p hp
      · obtain ⟨k, hk, rfl⟩ : ∃ k, (w.ids (N.name c)).head? = some k ∧ (c, k) = p := by
          simpa [Option.map_eq_some_iff] using hp
        exact hK.ids c k (List.mem_of_mem_head? hk)
    · simp only [hgiven]
      by_cases hd : d = c
      · subst hd
        simp only [Function.update_self] at hk
        exact hK.ids d k (List.mem_of_mem_tail hk)
      · have hcd : N.name d ≠ N.name c := fun h => hd (N.name_injective h)
        simp only [Function.update_of_ne hcd] at hk
        exact hK.ids d k hk
  · exact hK.keep (by rw [hgiven]; exact fun _ => id) rfl rfl hcurrent

/-- Nobody removes a queue here, so whoever is about to register has one. -/
def Equipped (name : ι → List Char) (s : State ι) : Prop :=
  ∀ c, (s.clients c).pc = .register → (s.queues (name c)).isSome = true

omit [DecidableEq ι] [Fintype ι] in
theorem isSome_update {qs : Queues ι} {p q : List Char} {l : List (Envelope ι (List Char))}
    (h : (qs p).isSome = true) : (Function.update qs q (some l) p).isSome = true := by
  by_cases hp : p = q
  · subst hp
    simp
  · rwa [Function.update_of_ne hp]

omit [DecidableEq ι] [Fintype ι] in
theorem Equipped.server {name : ι → List Char} (hE : Equipped name s) {rand : Rand} {stack : ℤ × ℤ × ℤ}
    (hs : Posix.server s rand stack = some s') : Equipped name s' := by
  rcases server_cases hs with ⟨e, l, -, -, rfl⟩ | ⟨-, -, rfl⟩ | ⟨e, l, -, -, rfl⟩ | ⟨-, -, rfl⟩ | ⟨sender, -, rfl⟩ |
    ⟨sender, q, r, -, rfl⟩
  · exact fun c hc => isSome_update (hE c hc)
  · exact hE
  · exact fun c hc => isSome_update (hE c hc)
  · exact hE
  · unfold handleServer
    split_ifs <;> exact hE
  · rcases answer_cases s q r with ⟨qs, hsend, h⟩ | ⟨-, -, h⟩ | ⟨-, -, h⟩ <;> rw [h]
    · obtain ⟨p, l, -, -, -, rfl⟩ := mqSend_eq_some.1 hsend
      exact fun c hc => isSome_update (hE c hc)
    · exact hE
    · exact hE

omit [Fintype ι] in
/-- A client that comes to its registration has created its queue, and one that does not is no longer asked. -/
theorem Equipped.client {name : ι → List Char} (hE : Equipped name s) (hs : clientOf name s c = some s') :
    Equipped name s' := by
  have hother : ∀ {v : Client} {d : ι}, v.pc ≠ .register → (Function.update s.clients c v d).pc = .register →
      (s.queues (name d)).isSome = true := fun {v d} hv hd => by
    by_cases hdc : d = c
    · subst hdc
      rw [Function.update_self] at hd
      exact absurd hd hv
    · rw [Function.update_of_ne hdc] at hd
      exact hE d hd
  rcases clientOf_cases hs with ⟨-, rfl⟩ | ⟨l, b, -, -, -, rfl⟩ | ⟨pc, b, hpc, -, rfl⟩ | ⟨e, l, -, -, rfl⟩ |
    ⟨hpc, -, rfl⟩ | ⟨-, rfl⟩
  · intro d hd
    by_cases hdc : d = c
    · subst hdc
      simp
    · simp only [Function.update_of_ne hdc] at hd
      exact isSome_update (hE d hd)
  · exact fun d hd => isSome_update (hother (by rintro ⟨⟩) hd)
  · exact fun d hd => hother (by rcases hpc with ⟨-, rfl⟩ | ⟨-, rfl⟩ <;> rintro ⟨⟩) hd
  · exact fun d hd => isSome_update (hother (by rintro ⟨⟩) hd)
  · exact fun d hd => hother (by rw [hpc]; rintro ⟨⟩) hd
  · refine fun d hd => hother ?_ hd
    unfold handleClient
    dsimp only
    split_ifs <;> rintro ⟨⟩

theorem reachable_kept (hn : Fintype.card ι ≤ 100)
    (h : (routed N.name).ReachableIf (fun w a => Undisturbed w.state (.step a)) w) :
    (∃ t, Inv N t ∧ Shadow N w.state t) ∧ Kept N w ∧ Equipped N.name w.state := by
  refine h.invariant (I := fun w => (∃ t, Inv N t ∧ Shadow N w.state t) ∧ Kept N w ∧ Equipped N.name w.state)
    (fun w h0 => ?_) fun w a w' _ ⟨⟨t, hI, hst⟩, hK, hE⟩ hok hs => ?_
  · obtain ⟨t, ht, hst⟩ := started_shadow h0.state
    exact ⟨⟨t, init_inv ht, hst⟩, started_kept h0, fun c hc => by rw [h0.state.client c] at hc; cases hc⟩
  · cases a with
    | server rand stack =>
      obtain ⟨s, hserver, rfl⟩ := Option.map_eq_some_iff.1 hs
      exact ⟨hst.step_server hI hn hok hserver, hK.server hI hn hst hserver, hE.server hserver⟩
    | client c =>
      obtain ⟨s, hclient, rfl⟩ := Option.map_eq_some_iff.1 hs
      have hans : Answerable N.name w.state (.step (.client c)) := fun hpc hnone => by
        have hsome := hE c hpc
        rw [hnone] at hsome
        cases hsome
      exact ⟨hst.step_client hI hn hans hclient, hK.client hclient, hE.client hclient⟩

/-- With different names every message is received by the client given the id it is for. -/
theorem Kept.delivered (hI : Inv N t) (hst : Shadow N w.state t) (hK : Kept N w) : Delivered w := by
  rintro ⟨c, k⟩ hp d
  have hgiven := hK.received _ hp
  constructor
  · intro hd
    have hnodup : (w.state.given.map Prod.snd).Nodup := by
      rw [hst.given]
      exact hI.registry.nodup
    have hsame : ((d, k) : Option ι × ℤ) = (some c, k) := List.inj_on_of_nodup_map hnodup hd hgiven rfl
    exact congrArg Prod.fst hsame
  · rintro rfl
    exact hgiven

end Invariant

/-! ## Equal names -/

section Crossing

variable {ι : Type*} [DecidableEq ι] {name : ι → List Char} {a b : ι}

/-- Nothing has happened, and the queue of the server is empty. -/
def freshRouted (ι : Type*) : Routed ι := ⟨initState ι true, 0, fun _ => [], []⟩

omit [DecidableEq ι] in
theorem freshRouted_started (hserver : ∀ c, name c ≠ serverName) : RoutedStarted name (freshRouted ι) where
  state :=
    { serverQueue := ⟨[], by simp [freshRouted, initState]⟩
      clientQueue := fun c => by simp [freshRouted, initState, hserver c]
      pc := rfl
      buf := rfl
      clientId := rfl
      client := fun _ => rfl
      given := rfl }
  ids _ := rfl
  received := rfl

/-- The registrations of two clients with one name are in the server's queue. -/
@[mk_iff] structure Crossed (name : ι → List Char) (a b : ι) (w : Routed ι) : Prop where
  queue : w.state.queues serverName = some [⟨some a, '\x01' :: name b⟩, ⟨some b, '\x01' :: name b⟩]
  own : w.state.queues (name b) = some []
  server : w.state.server = ⟨.poll, [], fun _ => [], 0⟩
  client : (w.state.clients b).pc = .poll
  given : w.state.given = []
  ids : w.ids (name b) = []
  received : w.received = []

theorem exists_crossed (hab : a ≠ b) (hname : name a = name b) (hserver : name b ≠ serverName)
    (hnul : '\x00' ∉ name b) : ∃ w, (routed name).runIf (fun w l => Undisturbed w.state (.step l)) (freshRouted ι)
      [.server 0 (0, 0, 0), .client a, .client a, .client b, .client b] = some w ∧ Crossed name a b w := by
  have hmsg : cString (strcpy1 (name b) (setByte0 '\x01' [])) = '\x01' :: name b :=
    cString_strcpy1_setByte0 (by decide) hnul []
  simp [System.runIf, routed, nextRouted, freshRouted, initState, Undisturbed, Clean, ServerPc.polling, server,
    mqReceive, Mailboxes.take, clientOf, mqSend, mqMaxmsg, noteServer, noteClient, crossed_iff, Ne.symm hab, hname,
    hserver, Ne.symm hserver, hmsg]

/-- The second client takes the id given to the first. -/
theorem Crossed.misdelivered {w : Routed ι} (h : Crossed name a b w) (hserver : name b ≠ serverName)
    (hnul : '\x00' ∉ name b) : ∃ w', (routed name).runIf (fun w l => Undisturbed w.state (.step l)) w
      [.server 0 (0, 0, 0), .server 0 (0, 0, 0), .server 0 (0, 0, 0), .client b] = some w' ∧
      w'.received = [(b, 0)] ∧ w'.state.given = [(some a, 0)] := by
  have htext : cString (strcpy1 (printInt 0) (setByte0 '\x01' ('\x01' :: name b))) = '\x01' :: printInt 0 :=
    cString_strcpy1_setByte0 (by decide) (nul_not_mem_printInt 0) _
  have hreg : cString (name b) = name b := cString_eq_self hnul
  simp [System.runIf, routed, nextRouted, Undisturbed, Clean, ServerPc.polling, Posix.server, mqReceive, Mailboxes.take,
    clientOf, mqSend, mqMaxmsg, mqOpen, noteServer, noteClient, addressee, handleServer, giveId, answer, overwrite_nil,
    h.queue, h.own, h.server, h.client, h.given, h.ids, h.received, hserver, hreg, htext]

/-- Two clients with one name: what is sent for the id of the first can reach the second. -/
theorem exists_misdelivered (name : ι → List Char) (hab : a ≠ b) (hname : name a = name b)
    (hserver : ∀ c, name c ≠ serverName) (hnul : '\x00' ∉ name b) :
    ∃ w, (routed name).ReachableIf (fun w l => Undisturbed w.state (.step l)) w ∧ ¬ Delivered w := by
  obtain ⟨w, hw, hcrossed⟩ := exists_crossed hab hname (hserver b) hnul
  obtain ⟨w', hw', hreceived, hgiven⟩ := hcrossed.misdelivered (hserver b) hnul
  have hfirst := System.ReachableIf.runIf _ (.init (freshRouted_started hserver)) hw
  refine ⟨w', System.ReachableIf.runIf _ hfirst hw', fun h => hab ?_⟩
  have hsender := (h (b, 0) (by simp [hreceived]) (some a)).1 (by simp [hgiven])
  exact Option.some.inj hsender

end Crossing

/-- In every run whose receives are clean every message is received by the client given the id it is for, and by no
other, iff no two clients have seeds that give the same number; `client_names` has room for 100 clients. -/
theorem delivered_iff_names_differ {ι : Type*} [DecidableEq ι] [Fintype ι] (hn : Fintype.card ι ≤ 100)
    (rnd : ℕ → Rand) (time : ι → ℕ) :
    (∀ w, (routed fun c => clientName rnd (time c)).ReachableIf (fun w l => Undisturbed w.state (.step l)) w →
      Delivered w) ↔ Function.Injective fun c => rnd (time c) := by
  constructor
  · intro h a b hrnd
    by_contra hab
    have hname : clientName rnd (time a) = clientName rnd (time b) := clientName_eq_iff.2 hrnd
    have hnul : '\x00' ∉ clientName rnd (time b) := by
      simp [clientName, nul_not_mem_printInt]
    obtain ⟨w, hw, hnot⟩ := exists_misdelivered (fun c => clientName rnd (time c)) hab hname
      (fun c => clientName_ne_server rnd _) hnul
    exact hnot (h w hw)
  · intro h w hw
    obtain ⟨⟨t, hI, hst⟩, hK, -⟩ := reachable_kept (N := seedNames rnd time h) hn hw
    exact hK.delivered hI hst

/-- Two clients, started in the seconds 0 and 1. -/
def twoSeconds (c : Fin 2) : ℕ := c.val

/-- The first number of a seed, here the seed itself. -/
def seedRand (n : ℕ) : Rand := Fin.ofNat (2 ^ 31) n

/-- Client 1 registers and receives its id. -/
def oneServed : List (Label (Fin 2)) :=
  [.server 0 (0, 0, 0), .client 1, .client 1, .server 0 (0, 0, 0), .server 0 (0, 0, 0), .server 0 (0, 0, 0), .client 1]

theorem delivered_iff_names_differ_oneServed : ∃ w,
    (routed fun c => clientName seedRand (twoSeconds c)).run (freshRouted (Fin 2)) oneServed = some w ∧
      w.received = [(1, 0)] ∧ Delivered w := by
  obtain ⟨w, hok, hw, hreceived⟩ : ∃ w,
    (routed fun c => clientName seedRand (twoSeconds c)).runIf (fun w l => Undisturbed w.state (.step l))
      (freshRouted (Fin 2)) oneServed = some w ∧
    (routed fun c => clientName seedRand (twoSeconds c)).run (freshRouted (Fin 2)) oneServed = some w ∧
    w.received = [(1, 0)] := ⟨_, rfl, rfl, rfl⟩
  refine ⟨w, hw, hreceived, (delivered_iff_names_differ (by decide) seedRand twoSeconds).2 (by decide) w ?_⟩
  exact System.ReachableIf.runIf oneServed (.init (freshRouted_started fun c => clientName_ne_server _ _)) hok

/-- Two clients started within one second, so that both are "/1804289383". -/
theorem sameSecond_misdelivered : ¬ ∀ w,
    (routed fun _ : Fin 2 => clientName (fun _ => 1804289383) 1).Reachable w → Delivered w := by
  intro h
  have hnul : '\x00' ∉ clientName (fun _ => 1804289383) 1 := by
    simp [clientName, nul_not_mem_printInt]
  obtain ⟨w, hw, hnot⟩ := exists_misdelivered (fun _ : Fin 2 => clientName (fun _ => 1804289383) 1)
    (show (0 : Fin 2) ≠ 1 by decide) rfl (fun c => clientName_ne_server _ _) hnul
  exact hnot (h w hw.reachable)

end Sysopy.PrimeQueue.Posix
