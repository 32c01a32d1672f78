/-
The chat as a whole (cw10/zad2): the server and its clients, with the records between them. Client `c` is the one
whose connection is accepted as number `c`; it may type before that. A recv that returns data brings a whole record, in
the order in which they were sent. There is one order, in which the server receives, and each terminal shows a stretch
of what the others typed in it.
-/
import Sysopy.Chat.Client

namespace Sysopy.Chat

open Sysopy.Conc Sysopy.CText

/-! ## The network -/

/-- A client: whether it is running, `th_stdin` with its `buf` and what is left of its input, and what main has
printed. -/
structure Client where
  running : Bool
  buf : Msg
  input : List Char
  terminal : List (List Char)

structure Network where
  server : State Msg
  clients : ℕ → Client
  /-- The records on their way from a client to the server, -/
  up : ℕ → List Msg
  /-- and from the server to a client. -/
  down : ℕ → List Msg

/-- A step: a turn of the loop in `th_stdin`, whose send succeeds or not, a turn of main's loop in a client, the end of
that loop when recv returns nothing, or a step of the server. -/
inductive Move where
  | type (c : ℕ) (sent : Bool)
  | print (c : ℕ)
  | disconnected (c : ℕ)
  | server (a : Label Msg)

/-- The records that the new calls of send have moved to a connection. -/
def pushed {M : Type*} (s s' : State M) (c : ℕ) : List M :=
  ((s'.calls.drop s.calls.length).filter fun r => decide (r.conn = some c) && r.ok).map Call.record

/-- A failing send ends the client. -/
def type (w : Network) (c : ℕ) (sent : Bool) : Option Network :=
  if (w.clients c).running then
    (thStdin (w.clients c).buf (w.clients c).input).map fun r =>
      if sent then
        { w with
          clients := Function.update w.clients c { w.clients c with buf := r.1, input := r.2 }
          up := Function.update w.up c (w.up c ++ [r.1]) }
      else { w with clients := Function.update w.clients c { w.clients c with running := false } }
  else none

def print (w : Network) (c : ℕ) : Option Network :=
  match w.down c with
  | [] => none
  | m :: rest =>
    if (w.clients c).running then
      some { w with
        clients := Function.update w.clients c
          { w.clients c with terminal := (w.clients c).terminal ++ [printed m] }
        down := Function.update w.down c rest }
    else none

/-- A record the server receives is the next one on its way to it. -/
def Arrives (w : Network) (a : Label Msg) : Prop := ∀ r ∈ a.received w.server, (w.up r.1).head? = some r.2

instance (w : Network) (a : Label Msg) : Decidable (Arrives w a) :=
  inferInstanceAs (Decidable (∀ r ∈ a.received w.server, _))

def serve (L : Listeners) (w : Network) (a : Label Msg) : Option Network :=
  if Arrives w a then
    (next L w.server a).map fun s' => { w with
      server := s'
      up := fun c => (w.up c).drop (receivedFrom (a.received w.server) c).length
      down := fun c => w.down c ++ pushed w.server s' c }
  else none

/-- The chat while all descriptors of the server have bits in its sets. -/
def Network.Within (_ : Network) : Move → Prop
  | .server a => a.Fits
  | _ => True

instance (w : Network) : (m : Move) → Decidable (w.Within m)
  | .server a => inferInstanceAs (Decidable a.Fits)
  | .type .. | .print _ | .disconnected _ => inferInstanceAs (Decidable True)

/-! ## What a step of the server moves -/

section Moves

variable {M : Type*} {L : Listeners} {s s' : State M} {a : Label M} {c : ℕ}

theorem calls_broadcast (sockfd sender k : ℕ) (record : M) (sends : ℕ → Bool) (s : State M) :
    s.calls <+: (broadcast L sockfd sender record sends k s).calls := by
  induction k with
  | zero => exact List.prefix_rfl
  | succ k ih =>
    refine ih.trans ?_
    rw [broadcast]
    unfold sendTo
    split
    · dsimp only
      split
      · exact List.prefix_append ..
      · exact List.prefix_append ..
    · exact List.prefix_rfl

theorem calls_advance (s : State M) (i : ℕ) : (advance i s).calls = s.calls := by
  unfold advance
  split <;> rfl

/-- The calls of send are a history. -/
theorem calls_next (h : next L s a = some s') : s.calls <+: s'.calls := by
  cases next_eq_some.1 h with
  | select | skip | again | outside => exact List.prefix_rfl
  | accept newfd =>
    rw [calls_advance]
    cases newfd <;> exact List.prefix_rfl
  | @recv i r sends hc =>
    rw [calls_advance]
    unfold handlemsg
    cases s.table i with
    | none => exact List.prefix_rfl
    | some c =>
      cases r with
      | error | closed => exact List.prefix_rfl
      | data record =>
        exact calls_broadcast i c (s.biggest + 1) record sends { s with received := s.received ++ [(c, record)] }

theorem sentTo_next (h : next L s a = some s') (c : ℕ) : sentTo s' c = sentTo s c ++ pushed s s' c := by
  obtain ⟨new, hnew⟩ := calls_next h
  simp only [sentTo, pushed, ← hnew, List.drop_left, List.filter_append, List.map_append]

theorem receivedFrom_next (h : next L s a = some s') (c : ℕ) :
    receivedFrom s'.received c = receivedFrom s.received c ++ receivedFrom (a.received s) c := by
  rw [received_next h]
  simp only [receivedFrom, List.filter_append, List.map_append]

/-- A step receives one record at most. -/
theorem received_cases (s : State M) (a : Label M) : a.received s = [] ∨ ∃ r, a.received s = [r] := by
  unfold Label.received
  split
  · cases s.source with
    | none => exact .inl rfl
    | some c => exact .inr ⟨_, rfl⟩
  · exact .inl rfl

end Moves

/-- What has arrived was the first on its way. -/
theorem up_of_arrives {w : Network} {a : Label Msg} (h : Arrives w a) (c : ℕ) :
    receivedFrom (a.received w.server) c ++ (w.up c).drop (receivedFrom (a.received w.server) c).length = w.up c := by
  unfold Arrives at h
  rcases received_cases w.server a with hnone | ⟨⟨d, m⟩, hone⟩
  · simp [hnone, receivedFrom]
  · rw [hone] at h ⊢
    by_cases hd : d = c
    · subst hd
      obtain ⟨rest, hrest⟩ := List.head?_eq_some_iff.1 (h _ List.mem_cons_self)
      simp [receivedFrom, hrest]
    · simp [receivedFrom, hd]

/-! ## From one terminal to another -/

section Talk

variable {L : Listeners} {names : ℕ → CharArray NAMESZ} {inputs : ℕ → List Char} {w w' : Network} {c : ℕ}

/-- Every record is where it belongs: of what is typed at a client some has been received, some is on its way, and the
rest is not read yet; of what is sent to a client some is printed and the rest is on its way. -/
structure Talk (L : Listeners) (names : ℕ → CharArray NAMESZ) (inputs : ℕ → List Char) (w : Network) : Prop where
  server : (system L).ReachableIf Within w.server
  name : ∀ c, cString (w.clients c).buf.name = (names c).string
  typed : ∀ c, (receivedFrom w.server.received c ++ w.up c).map printed ++
    lines (names c).string (w.clients c).input = lines (names c).string (inputs c)
  shown : ∀ c, (w.clients c).terminal ++ (w.down c).map printed = (sentTo w.server c).map printed

/-- Something has happened at one client. -/
theorem Talk.client {k : Client} {u d : List Msg} (hT : Talk L names inputs w)
    (hname : cString k.buf.name = (names c).string)
    (htyped : (receivedFrom w.server.received c ++ u).map printed ++ lines (names c).string k.input =
      lines (names c).string (inputs c))
    (hshown : k.terminal ++ d.map printed = (sentTo w.server c).map printed) :
    Talk L names inputs { w with
      clients := Function.update w.clients c k
      up := Function.update w.up c u
      down := Function.update w.down c d } := by
  refine ⟨hT.server, fun e => ?_, fun e => ?_, fun e => ?_⟩
  all_goals by_cases hd : e = c
  · subst hd
    simpa only [Function.update_self] using hname
  · simpa only [Function.update_of_ne hd] using hT.name e
  · subst hd
    simpa only [Function.update_self] using htyped
  · simpa only [Function.update_of_ne hd] using hT.typed e
  · subst hd
    simpa only [Function.update_self] using hshown
  · simpa only [Function.update_of_ne hd] using hT.shown e

theorem Talk.stop (hT : Talk L names inputs w) (c : ℕ) :
    Talk L names inputs { w with clients := Function.update w.clients c { w.clients c with running := false } } := by
  have hclient := hT.client (k := { w.clients c with running := false }) (hT.name c) (hT.typed c) (hT.shown c)
  simpa only [Function.update_eq_self] using hclient

theorem Talk.type {sent : Bool} (hT : Talk L names inputs w) (h : type w c sent = some w') :
    Talk L names inputs w' := by
  unfold Chat.type at h
  split at h
  · obtain ⟨⟨m, rest⟩, hm, rfl⟩ := Option.map_eq_some_iff.1 h
    dsimp only
    split
    · obtain ⟨-, -, hname, -⟩ := printed_thStdin hm
      have hlines := lines_of_thStdin hm
      rw [hname, hT.name c] at hlines
      have htyped := hT.typed c
      rw [hlines] at htyped
      have hclient := hT.client (c := c) (k := { w.clients c with buf := m, input := rest }) (u := w.up c ++ [m])
        ((congrArg cString hname).trans (hT.name c)) (by simpa using htyped) (hT.shown c)
      simpa only [Function.update_eq_self] using hclient
    · exact hT.stop c
  · cases h

theorem Talk.print (hT : Talk L names inputs w) (h : print w c = some w') : Talk L names inputs w' := by
  unfold Chat.print at h
  split at h
  · cases h
  · rename_i m rest hdown
    split at h
    · cases h
      have hshown := hT.shown c
      rw [hdown] at hshown
      have hclient := hT.client (c := c) (k := { w.clients c with terminal := (w.clients c).terminal ++ [printed m] })
        (d := rest) (hT.name c) (hT.typed c) (by simpa using hshown)
      simpa only [Function.update_eq_self] using hclient
    · cases h

theorem Talk.serve {a : Label Msg} (hT : Talk L names inputs w) (ha : a.Fits) (h : serve L w a = some w') :
    Talk L names inputs w' := by
  unfold Chat.serve at h
  split at h
  · rename_i harrives
    obtain ⟨s', hs', rfl⟩ := Option.map_eq_some_iff.1 h
    refine ⟨hT.server.next ha hs', hT.name, fun c => ?_, fun c => ?_⟩
    · rw [receivedFrom_next hs', List.append_assoc, up_of_arrives harrives]
      exact hT.typed c
    · rw [sentTo_next hs', List.map_append, List.map_append, ← hT.shown c, List.append_assoc]
  · cases h

end Talk

/-! ## Two clients -/

/-- Client 0 is A and types a line; client 1 is B. -/
def twoNames (c : ℕ) : CharArray NAMESZ :=
  if c = 0 then ⟨['A'], by decide, by decide⟩ else ⟨['B'], by decide, by decide⟩

end Sysopy.Chat
