/-
What the signals do to `mul` (cw04/zad1/main.c): with a `max` of at least 2 it runs up and down between 1 and
`max`, one step every three signals, and the main loop prints between one and `max` copies a pass. With `max`
equal to 1 both turning points are the same and `mul` steps past them.
-/
import Sysopy.Repeat.Model

namespace Sysopy.Repeat

open Sysopy.CText Sysopy.Conc

/-! ## The wave -/

/-- `mul` at a place of the wave: going up at the places from 0 to `max - 1`, going down behind them. -/
def OnWave (max p : ℤ) (v : Vars) : Prop :=
  v.direction = 0 ∧ 0 ≤ p ∧ p ≤ max - 1 ∧ v.mul = 1 + p ∨
  v.direction = 1 ∧ max ≤ p ∧ p ≤ 2 * (max - 1) ∧ v.mul = 2 * max - 1 - p

theorem OnWave.initial {max : ℤ} (hmax : 2 ≤ max) : OnWave max 0 Vars.initial :=
  .inl ⟨rfl, le_rfl, by omega, rfl⟩

theorem OnWave.inRange {max p : ℤ} {v : Vars} (h : OnWave max p v) : 1 ≤ v.mul ∧ v.mul ≤ max := by
  rcases h with ⟨-, h0, h1, h⟩ | ⟨-, h0, h1, h⟩ <;> omega

/-- A move goes to the next place. The place at the bottom is both the last one of the way down and, one period
before, the first one of the way up. -/
theorem OnWave.move {max p : ℤ} {v : Vars} (hmax : 2 ≤ max) (h : OnWave max p v) :
    OnWave max (p + 1) (move max v) ∨ OnWave max (p + 1 - 2 * (max - 1)) (move max v) := by
  unfold Repeat.move
  rcases h with ⟨hd, h0, h1, hm⟩ | ⟨hd, h0, h1, hm⟩
  · rw [if_pos hd]
    split
    · exact .inl (.inr ⟨rfl, by omega, by omega, by simp only; omega⟩)
    · exact .inl (.inl ⟨hd, by omega, by omega, by simp only; omega⟩)
  · rw [if_neg (by omega), if_pos hd]
    split
    · exact .inr (.inl ⟨rfl, by omega, by omega, by simp only; omega⟩)
    · exact .inl (.inr ⟨hd, by omega, by omega, by simp only; omega⟩)

theorem OnWave.congr {max p : ℤ} {v w : Vars} (h : OnWave max p v) (hd : w.direction = v.direction)
    (hm : w.mul = v.mul) : OnWave max p w := by
  unfold OnWave at h ⊢
  rwa [hd, hm]

/-- What the second half of the handler does: `reverse` counts to three, and then `mul` moves. -/
theorem countSignal_cases (max : ℤ) (v : Vars) :
    (v.reverse = 1 ∧ countSignal max v = { v with reverse := 2 }) ∨
    (v.reverse = 2 ∧ countSignal max v = { v with reverse := 3 }) ∨
    (v.reverse = 3 ∧ countSignal max v = { move max v with reverse := 1 }) ∨
    ((v.reverse ≠ 1 ∧ v.reverse ≠ 2 ∧ v.reverse ≠ 3) ∧ countSignal max v = v) := by
  unfold countSignal
  split
  · exact .inl ⟨‹_›, rfl⟩
  · split
    · exact .inr (.inl ⟨‹_›, rfl⟩)
    · split
      · exact .inr (.inr (.inl ⟨‹_›, rfl⟩))
      · exact .inr (.inr (.inr ⟨⟨‹_›, ‹_›, ‹_›⟩, rfl⟩))

/-- A signal keeps `mul` on the wave, whatever `reverse` is. -/
theorem OnWave.countSignal {max p : ℤ} {v : Vars} (hmax : 2 ≤ max) (h : OnWave max p v) :
    ∃ p', OnWave max p' (countSignal max v) := by
  rcases countSignal_cases max v with ⟨-, h'⟩ | ⟨-, h'⟩ | ⟨-, h'⟩ | ⟨-, h'⟩ <;> rw [h']
  · exact ⟨p, h.congr rfl rfl⟩
  · exact ⟨p, h.congr rfl rfl⟩
  · rcases h.move hmax with h | h
    · exact ⟨_, h.congr rfl rfl⟩
    · exact ⟨_, h.congr rfl rfl⟩
  · exact ⟨p, h⟩

/-! ## The wave after some number of signals -/

/-- Where the variables are after `n` signals. -/
structure After (max : ℤ) (n : ℕ) (v : Vars) : Prop where
  reverse : v.reverse = n % 3 + 1
  wave : ∃ p k, OnWave max p v ∧ p = (n / 3 : ℕ) - k * (2 * (max - 1))

theorem After.initial {max : ℤ} (hmax : 2 ≤ max) : After max 0 Vars.initial :=
  ⟨rfl, 0, 0, .initial hmax, by simp⟩

theorem After.countSignal {max : ℤ} {n : ℕ} {v : Vars} (hmax : 2 ≤ max) (h : After max n v) :
    After max (n + 1) (countSignal max v) := by
  obtain ⟨hr, p, k, hw, hp⟩ := h
  rcases countSignal_cases max v with ⟨hrev, h'⟩ | ⟨hrev, h'⟩ | ⟨hrev, h'⟩ | ⟨⟨h1, h2, h3⟩, -⟩
  · have hdiv : (n + 1) / 3 = n / 3 := by omega
    rw [h']
    exact ⟨by simp only; omega, p, k, hw.congr rfl rfl, by rw [hdiv, hp]⟩
  · have hdiv : (n + 1) / 3 = n / 3 := by omega
    rw [h']
    exact ⟨by simp only; omega, p, k, hw.congr rfl rfl, by rw [hdiv, hp]⟩
  · have hdiv : (n + 1) / 3 = n / 3 + 1 := by omega
    rw [h']
    refine ⟨by simp only; omega, ?_⟩
    rcases hw.move hmax with hw | hw
    · exact ⟨_, k, hw.congr rfl rfl, by rw [hdiv, hp]; push_cast; ring⟩
    · exact ⟨_, k + 1, hw.congr rfl rfl, by rw [hdiv, hp]; push_cast; ring⟩
  · exact absurd hr (by omega)

/-- On the wave `mul` is a function of the place up to whole periods. -/
theorem OnWave.mul_eq {max p k q : ℤ} {v : Vars} (hmax : 2 ≤ max) (h : OnWave max p v)
    (hp : p = q - k * (2 * (max - 1))) :
    (q % (2 * (max - 1)) ≤ max - 1 → v.mul = 1 + q % (2 * (max - 1))) ∧
      (max - 1 < q % (2 * (max - 1)) → v.mul = 2 * max - 1 - q % (2 * (max - 1))) := by
  have hmod : q % (2 * (max - 1)) = p % (2 * (max - 1)) := by
    rw [hp, mul_comm k, Int.sub_mul_emod_self_left]
  rw [hmod]
  rcases h with ⟨-, h0, h1, hm⟩ | ⟨-, h0, h1, hm⟩
  · rw [Int.emod_eq_of_lt h0 (by omega)]
    omega
  · rcases h1.lt_or_eq with hlt | heq
    · rw [Int.emod_eq_of_lt (by omega) hlt]
      omega
    · rw [heq, Int.emod_self]
      omega

theorem After.deliveries {max : ℤ} (hmax : 2 ≤ max) (memories : List Buffer) : ∀ {n : ℕ} {g : Globals},
    g.max = max → After max n g.vars → After max (n + memories.length) (deliveries memories g).vars := by
  induction memories with
  | nil =>
    intro n g _ h
    exact h
  | cons b memories ih =>
    intro n g hg h
    have hnext : After max (n + 1) (mainHandler b g).vars := by
      unfold mainHandler
      rw [hg]
      exact h.countSignal hmax
    have hrun := ih (g := mainHandler b g) hg hnext
    rwa [Nat.add_assoc, Nat.add_comm 1] at hrun

/-- After `n` signals `reverse` is `n mod 3 + 1`, and `mul` is where a triangle wave between 1 and `max` is after
`n / 3` steps. -/
theorem mul_triangle_wave (max : ℤ) (hmax : 2 ≤ max) (m : Arrays) (memories : List Buffer) :
    let v := (deliveries memories ⟨m, max, Vars.initial⟩).vars
    let n : ℤ := memories.length
    let t := n / 3 % (2 * (max - 1))
    v.reverse = n % 3 + 1 ∧ (t ≤ max - 1 → v.mul = 1 + t) ∧ (max - 1 < t → v.mul = 2 * max - 1 - t) := by
  have h := After.deliveries hmax memories (g := ⟨m, max, Vars.initial⟩) rfl (.initial hmax)
  rw [Nat.zero_add] at h
  obtain ⟨p, k, hw, hp⟩ := h.wave
  push_cast at hp
  exact ⟨h.reverse, hw.mul_eq hmax hp⟩

/-- Twelve signals with `max` 3: up to the top and on the way down. -/
theorem mul_triangle_wave_twelve :
    (deliveries (List.replicate 12 []) ⟨.argument "abc".toList [], 3, Vars.initial⟩).vars.mul = 1 :=
  ((mul_triangle_wave 3 (by decide) (.argument "abc".toList []) (List.replicate 12 [])).2.1 (by decide)).trans
    (by decide)

/-! ## The main loop -/

/-- The main loop is running. -/
def Pc.looping : Pc → Bool
  | .test _ | .print _ | .newline | .sleep => true
  | .start | .setMax | .returned | .segv | .exited => false

/-- How many copies have been printed, by where the main loop is. -/
def CopiesOk (max : ℤ) (copies : List (List Char)) : Pc → Prop
  | .start | .setMax => copies = []
  | .test i => copies.length = i ∧ i ≤ max
  | .print i => copies.length = i ∧ i < max
  | .newline => 1 ≤ copies.length ∧ copies.length ≤ max
  | .sleep | .returned | .segv | .exited => True

/-- The invariant of the runs whose signals come once `line` and `max` are set. -/
structure Bounded (max : ℤ) (p : Proc) : Prop where
  wave : ∃ q, OnWave max q p.globals.vars
  copies : CopiesOk max p.copies p.main
  max : p.main.looping = true → p.globals.max = max

theorem Bounded.main {a : Args} {p p' : Proc} (hmax : 2 ≤ atoi a.argv2) (h : Bounded (atoi a.argv2) p)
    (hs : stepMain a p = some p') : Bounded (atoi a.argv2) p' := by
  obtain ⟨g, m, copies⟩ := p
  obtain ⟨⟨q, hq⟩, hc, hm⟩ := h
  obtain ⟨hlow, hhigh⟩ := hq.inRange
  cases m with
  | start =>
    simp only [stepMain] at hs
    split at hs <;> cases hs
    · exact ⟨⟨q, hq⟩, trivial, nofun⟩
    · exact ⟨⟨q, hq⟩, hc, nofun⟩
  | setMax =>
    cases hs
    have hnil : copies = [] := hc
    exact ⟨⟨q, hq⟩, ⟨by rw [hnil]; rfl, by push_cast; omega⟩, fun _ => rfl⟩
  | test i =>
    obtain ⟨hlen, hi⟩ : copies.length = i ∧ (i : ℤ) ≤ atoi a.argv2 := hc
    cases hs
    refine ⟨⟨q, hq⟩, ?_, fun _ => hm rfl⟩
    -- the test fails only after a copy, because `mul` is at least 1
    simp only at hlow hhigh ⊢
    split
    · exact ⟨hlen, by omega⟩
    · exact ⟨by omega, by omega⟩
  | print i =>
    obtain ⟨hlen, hi⟩ : copies.length = i ∧ (i : ℤ) < atoi a.argv2 := hc
    cases hs
    refine ⟨⟨q, hq⟩, ⟨?_, by push_cast; omega⟩, fun _ => hm rfl⟩
    rw [List.length_append, hlen]
    rfl
  | newline =>
    cases hs
    exact ⟨⟨q, hq⟩, trivial, fun _ => hm rfl⟩
  | sleep =>
    cases hs
    exact ⟨⟨q, hq⟩, ⟨rfl, by push_cast; omega⟩, fun _ => hm rfl⟩
  | returned => cases hs
  | segv => cases hs
  | exited => cases hs

/-- What a signal does to the main loop: nothing; only the globals change. -/
theorem stepSigtstp_looping {b : Buffer} {p p' : Proc} (hs : stepSigtstp b p = some p') (h : p.main ≠ .start)
    (h' : p.main ≠ .setMax) : p.main.looping = true ∧ p' = { p with globals := mainHandler b p.globals } := by
  obtain ⟨g, m, copies⟩ := p
  cases m <;> simp_all [stepSigtstp, Pc.looping]

theorem Bounded.sigtstp {max : ℤ} {b : Buffer} {p p' : Proc} (hmax : 2 ≤ max) (h : Bounded max p)
    (hs : stepSigtstp b p = some p') (hstart : p.main ≠ .start) (hset : p.main ≠ .setMax) : Bounded max p' := by
  obtain ⟨hloop, rfl⟩ := stepSigtstp_looping hs hstart hset
  obtain ⟨⟨q, hq⟩, hc, hm⟩ := h
  refine ⟨?_, hc, hm⟩
  rw [mainHandler, hm hloop]
  exact hq.countSignal hmax

theorem Bounded.sigint {max : ℤ} {p p' : Proc} (h : Bounded max p) (hs : stepSigint p = some p') : Bounded max p' := by
  unfold stepSigint at hs
  split at hs <;> cases hs
  exact ⟨h.wave, trivial, nofun⟩

theorem bounded_of_reachableIf {a : Args} (hmax : 2 ≤ atoi a.argv2) {p : Proc}
    (h : (system a).ReachableIf AfterSetup p) : Bounded (atoi a.argv2) p := by
  refine h.invariant ?_ ?_
  · rintro p rfl
    exact ⟨⟨0, .initial hmax⟩, rfl, nofun⟩
  · intro p x p' _ hI hok hs
    cases x with
    | main => exact hI.main hmax hs
    | sigtstp b => exact hI.sigtstp hmax hs (hok ⟨b, rfl⟩).1 (hok ⟨b, rfl⟩).2
    | sigint => exact hI.sigint hs

/-! ## Signals one after the other -/

/-- Any number of signals while `main` stands still. -/
theorem reachableIf_deliveries {a : Args} (ok : Proc → Act → Prop) {m : Pc} {copies : List (List Char)}
    (hm : m = .setMax ∨ m.looping = true) (hok : ∀ g b, ok ⟨g, m, copies⟩ (.sigtstp b)) (memories : List Buffer) :
    ∀ g : Globals, (system a).ReachableIf ok ⟨g, m, copies⟩ →
      (system a).ReachableIf ok ⟨deliveries memories g, m, copies⟩ := by
  induction memories with
  | nil =>
    intro g h
    exact h
  | cons b memories ih =>
    intro g h
    refine ih _ (h.next (a := .sigtstp b) (hok g b) ?_)
    rcases hm with rfl | hm
    · rfl
    · cases m <;> first | rfl | cases hm

/-- `main` comes to line 65. -/
theorem reachableIf_setMax {a : Args} (hargs : 3 ≤ a.argc) {ok : Proc → Act → Prop} (hok : ∀ p, ok p .main) :
    (system a).ReachableIf ok ⟨⟨.argument a.argv1 a.behind, 0, Vars.initial⟩, .setMax, []⟩ := by
  refine .next (a := .main) (.init rfl) (hok _) ?_
  simp [system, stepMain, Nat.not_lt.2 hargs]

theorem reachableIf_loop {a : Args} (hargs : 3 ≤ a.argc) {ok : Proc → Act → Prop} (hok : ∀ p, ok p .main) :
    (system a).ReachableIf ok ⟨⟨.argument a.argv1 a.behind, atoi a.argv2, Vars.initial⟩, .test 0, []⟩ :=
  .next (a := .main) (reachableIf_setMax hargs hok) (hok _) rfl

theorem afterSetup_main (p : Proc) : AfterSetup p .main := fun ⟨_, h⟩ => nomatch h

/-- With `max` 1 the third signal takes `mul` to 0. -/
theorem mul_zero (m : Arrays) : (deliveries [[], [], []] ⟨m, 1, Vars.initial⟩).vars = ⟨0, 1, 1⟩ := rfl

/-- The repeat count stays between 1 and `max`, and every pass prints between one and `max` copies, exactly when
`max` is at least 2: in all runs whose signals come once `line` and `max` are set. -/
theorem repeat_inRange_iff (a : Args) (hargs : 3 ≤ a.argc) (hmax : 1 ≤ atoi a.argv2) :
    (∀ p, (system a).ReachableIf AfterSetup p →
      (1 ≤ p.globals.vars.mul ∧ p.globals.vars.mul ≤ atoi a.argv2) ∧
      (p.main = .newline → 1 ≤ p.copies.length ∧ (p.copies.length : ℤ) ≤ atoi a.argv2)) ↔
    2 ≤ atoi a.argv2 := by
  constructor
  · intro h
    by_contra hlt
    have hone : atoi a.argv2 = 1 := by omega
    have hreach := reachableIf_deliveries AfterSetup (m := .test 0) (.inr rfl) (fun _ _ _ => ⟨nofun, nofun⟩)
      [[], [], []] _ (reachableIf_loop hargs afterSetup_main)
    have hmul := (h _ hreach).1.1
    simp only [hone, mul_zero] at hmul
    omega
  · intro h p hp
    obtain ⟨⟨q, hq⟩, hc, -⟩ := bounded_of_reachableIf h hp
    refine ⟨hq.inRange, fun hm => ?_⟩
    rw [hm] at hc
    exact hc

/-- The argument 3. -/
theorem repeat_inRange_three : ∃ a : Args, atoi a.argv2 = 3 ∧ ∀ p, (system a).ReachableIf AfterSetup p →
    (1 ≤ p.globals.vars.mul ∧ p.globals.vars.mul ≤ atoi a.argv2) ∧
    (p.main = .newline → 1 ≤ p.copies.length ∧ (p.copies.length : ℤ) ≤ atoi a.argv2) :=
  ⟨⟨3, "abc".toList, [], "3".toList⟩, by decide,
    (repeat_inRange_iff ⟨3, "abc".toList, [], "3".toList⟩ (by decide) (by decide)).2 (by decide)⟩

/-- With the argument 1 a pass is reached that prints no copy. -/
theorem no_copies_max_one : ∃ a : Args, 3 ≤ a.argc ∧ atoi a.argv2 = 1 ∧ ∃ p, (system a).ReachableIf AfterSetup p ∧
    p.globals.vars.mul = 0 ∧ p.main = .newline ∧ p.copies = [] := by
  have hreach := reachableIf_deliveries (a := ⟨3, "abc".toList, [], "1".toList⟩) AfterSetup (m := .test 0)
    (.inr rfl) (fun _ _ _ => ⟨nofun, nofun⟩) [[], [], []] _ (reachableIf_loop (by decide) afterSetup_main)
  exact ⟨_, by decide, by decide, _, hreach.next (a := .main) (afterSetup_main _) rfl, by decide, by decide, rfl⟩

theorem deliveries_max (memories : List Buffer) : ∀ g : Globals, (deliveries memories g).max = g.max := by
  induction memories with
  | nil => exact fun _ => rfl
  | cons b memories ih => exact fun g => ih (mainHandler b g)

/-- Three signals with `max` 0 on the way up. -/
theorem three_early (g : Globals) (j : ℕ) (hmax : g.max = 0) (hv : g.vars = ⟨1 + j, 0, 1⟩) :
    (deliveries [[], [], []] g).vars = ⟨1 + (j + 1 : ℕ), 0, 1⟩ := by
  have hne : (1 : ℤ) + j ≠ 0 := by omega
  have hadd : (1 : ℤ) + j + 1 = 1 + (j + 1 : ℕ) := by push_cast; ring
  simp [deliveries, mainHandler, countSignal, move, hmax, hv, hne, hadd]

theorem mul_early (k : ℕ) : ∀ (g : Globals) (j : ℕ), g.max = 0 → g.vars = ⟨1 + j, 0, 1⟩ →
    (deliveries (List.replicate (3 * k) []) g).vars = ⟨1 + (j + k : ℕ), 0, 1⟩ := by
  induction k with
  | zero =>
    intro g j _ hv
    exact hv
  | succ k ih =>
    intro g j hmax hv
    have hsplit : List.replicate (3 * (k + 1)) ([] : Buffer) = [[], [], []] ++ List.replicate (3 * k) [] := by
      rw [Nat.mul_succ, Nat.add_comm, List.replicate_add]
      rfl
    have hzero := (deliveries_max [[], [], []] g).trans hmax
    rw [hsplit, deliveries, List.foldl_append]
    refine (ih _ (j + 1) hzero (three_early g j hmax hv)).trans ?_
    rw [Nat.add_assoc, Nat.add_comm 1]

/-- Signals that come between lines 64 and 65 still see `max` 0, and take `mul` past any bound. -/
theorem early_deliveries (a : Args) (hargs : 3 ≤ a.argc) (hmax : 1 ≤ atoi a.argv2) :
    ∃ p, (system a).Reachable p ∧ p.main = .test 0 ∧ atoi a.argv2 < p.globals.vars.mul := by
  have hreach := reachableIf_deliveries (fun _ _ => True) (.inl rfl) (fun _ _ => trivial)
    (List.replicate (3 * (atoi a.argv2).toNat) []) _ (reachableIf_setMax hargs fun _ => trivial)
  refine ⟨_, (hreach.next (a := .main) trivial rfl).reachable, rfl, ?_⟩
  have hmul := congrArg Vars.mul (mul_early (atoi a.argv2).toNat
    ⟨.argument a.argv1 a.behind, 0, Vars.initial⟩ 0 rfl rfl)
  simp only at hmul ⊢
  omega

end Sysopy.Repeat
