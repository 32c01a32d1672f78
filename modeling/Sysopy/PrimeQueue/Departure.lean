/-
Departures from the two versions of the prime service. Both servers leave their main loop when the answer to a
registration cannot be sent, and that of cw06/zad2 also when a number cannot be sent; a failed acknowledgement is
ignored in both. So a client's departure can end the service just when it comes before such an answer, and so can a
client that registers without a queue, since no client looks at the result of its `msgget` or `mq_open`.
-/
import Sysopy.PrimeQueue.SysVDeparture
import Sysopy.PrimeQueue.PosixNames

namespace Sysopy.PrimeQueue

open Sysopy.Conc

/-- Both servers stay in their loops, with at most 100 clients, in every run in which a client that leaves has no
registration unanswered (in cw06/zad2 no request either) and removes no queue but its own, and a client whose queue
was refused registers only while the server still drains its queue (in cw06/zad2 also when that queue is full); in
cw06/zad2 the clients' names differ and every message received finds a zero byte behind its end. -/
theorem serves_on_unless_due {ι : Type*} [DecidableEq ι] [Fintype ι] (hn : Fintype.card ι ≤ 100) :
    (∀ (I : SysV.Ids ι) cap w,
      (SysV.departures I cap).ReachableIf (fun w a => SysV.Undisturbed I w a ∧ SysV.Answerable I w a) w →
      w.state.server.pc ≠ .exited) ∧
    (∀ (N : Posix.Names ι) s,
      (Posix.departures N.name).ReachableIf (fun s a => Posix.Undisturbed s a ∧ Posix.Answerable N.name s a) s →
      s.server.pc ≠ .exited) :=
  ⟨fun _ _ _ h => SysV.reachable_running hn h, fun _ _ h => Posix.reachable_running hn h⟩

/-- The two servers at their start. -/
def sysvStart : SysV.Service (Fin 2) := ⟨SysV.twoDrained, true⟩

def posixStart : Posix.State (Fin 2) := Posix.initState (Fin 2) true

theorem sysvStart_started : SysV.Started SysV.twoIds sysvStart := ⟨SysV.twoDrained_init, rfl⟩

def twoNames : Posix.Names (Fin 2) := Posix.seedNames Posix.seedRand Posix.twoSeconds (by decide)

theorem posixStart_started : Posix.Started twoNames.name posixStart where
  serverQueue := ⟨[], rfl⟩
  clientQueue := by decide
  pc := rfl
  buf := rfl
  clientId := rfl
  client _ := rfl
  given := rfl

/-- A client leaves when it has its id; the other is given the next one. -/
def lateSysV : List (SysV.Event (Fin 2)) :=
  let server : SysV.Event (Fin 2) := .step (.server 7 (0, 0, 0))
  [server, .step (.client 0), .step (.client 0), server, server, server, .leave 0, .step (.client 1),
    .step (.client 1), server, server, server]

def latePosix : List (Posix.Event (Fin 2)) :=
  let server : Posix.Event (Fin 2) := .step (.server 7 (0, 0, 0))
  [server, .step (.client 0), .step (.client 0), server, server, server, .leave 0, .step (.client 1),
    .step (.client 1), server, server, server]

theorem serves_on_unless_due_late : ∃ w s, (SysV.departures SysV.twoIds 409).run sysvStart lateSysV = some w ∧
    (Posix.departures twoNames.name).run posixStart latePosix = some s ∧
    (w.state.clients 0).pc = .exited ∧ (s.clients 0).pc = .exited ∧
    w.state.server.pc ≠ .exited ∧ s.server.pc ≠ .exited := by
  obtain ⟨w, hokw, hw, hleftw⟩ : ∃ w,
    (SysV.departures SysV.twoIds 409).runIf
      (fun w a => SysV.Undisturbed SysV.twoIds w a ∧ SysV.Answerable SysV.twoIds w a) sysvStart lateSysV = some w ∧
    (SysV.departures SysV.twoIds 409).run sysvStart lateSysV = some w ∧ (w.state.clients 0).pc = .exited :=
    ⟨_, rfl, rfl, rfl⟩
  obtain ⟨s, hoks, hs, hlefts⟩ : ∃ s,
    (Posix.departures twoNames.name).runIf
      (fun s a => Posix.Undisturbed s a ∧ Posix.Answerable twoNames.name s a) posixStart latePosix = some s ∧
    (Posix.departures twoNames.name).run posixStart latePosix = some s ∧ (s.clients 0).pc = .exited :=
    ⟨_, rfl, rfl, rfl⟩
  obtain ⟨hsysv, hposix⟩ := serves_on_unless_due (ι := Fin 2) (by decide)
  exact ⟨w, s, hw, hs, hleftw, hlefts,
    hsysv SysV.twoIds 409 w (System.ReachableIf.runIf lateSysV (.init sysvStart_started) hokw),
    hposix twoNames s (System.ReachableIf.runIf latePosix (.init posixStart_started) hoks)⟩

/-- A client registers and leaves before the server has answered. -/
def earlySysV : List (SysV.Event (Fin 2)) :=
  let server : SysV.Event (Fin 2) := .step (.server 7 (0, 0, 0))
  [server, .step (.client 0), .step (.client 0), .leave 0, server, server, server]

def earlyPosix : List (Posix.Event (Fin 2)) :=
  let server : Posix.Event (Fin 2) := .step (.server 7 (0, 0, 0))
  [server, .step (.client 0), .step (.client 0), .leave 0, server, server, server]

/-- Both servers leave their loop then, though the other client may still come. -/
theorem early_departure_ends :
    (¬ ∀ w, (SysV.departures SysV.twoIds 409).Reachable w → w.state.server.pc ≠ .exited) ∧
      ¬ ∀ s, (Posix.departures twoNames.name).Reachable s → s.server.pc ≠ .exited := by
  constructor
  · intro h
    obtain ⟨w, hw, hpc⟩ : ∃ w, (SysV.departures SysV.twoIds 409).run sysvStart earlySysV = some w ∧
      w.state.server.pc = .exited := ⟨_, rfl, rfl⟩
    exact h w (System.Reachable.run earlySysV (.init sysvStart_started) hw) hpc
  · intro h
    obtain ⟨s, hs, hpc⟩ : ∃ s, (Posix.departures twoNames.name).run posixStart earlyPosix = some s ∧
      s.server.pc = .exited := ⟨_, rfl, rfl⟩
    exact h s (System.Reachable.run earlyPosix (.init posixStart_started) hs) hpc

end Sysopy.PrimeQueue
