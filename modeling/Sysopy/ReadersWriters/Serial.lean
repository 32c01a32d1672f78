/-
The readers and writers of cw07/zad2 run as if whole rounds were executed one at a time: the system is
simulated by a serial machine (`serial`) whose steps are one whole writer round or one whole reader scan,
in the order in which `WRT` was acquired.

Every process holds `WRT` alone, since each reader counts only itself in `readcount`. While a process
holds it, the table is the serial machine's table with the first cells of the current round done
(`progress`).
-/
import Sysopy.ReadersWriters.Model

namespace Sysopy.ReadersWriters

open Sysopy.Conc

variable {ι : Type*} {MAX : ℕ}

/-! ## The serial machine -/

/-- What a round makes of a chosen cell with value `v`, having drawn `d`. -/
def bump (d v : ℤ) : ℤ := if v = -1 then d else if v < 10 then v + 1 else v

def writeCell (r : Round MAX) (T : Fin MAX → ℤ) (k : Fin MAX) : ℤ :=
  if r.positions k = 1 then bump (r.draws k) (T k) else T k

/-- The number of cells below `n` with value `v`. -/
def cellsBelow (T : Fin MAX → ℤ) (v : ℤ) (n : ℕ) : ℤ := (Finset.univ.filter fun k : Fin MAX => k.val < n ∧ v = T k).card

/-- The number of cells with value `v`. -/
def cellsEqual (T : Fin MAX → ℤ) (v : ℤ) : ℤ := (Finset.univ.filter fun k : Fin MAX => v = T k).card

/-- The draws of a round are results of `rand()%10`. -/
def DrawsOK (r : Round MAX) : Prop := ∀ k, 0 ≤ r.draws k ∧ r.draws k < 10

instance (r : Round MAX) : Decidable (DrawsOK r) := inferInstanceAs (Decidable (∀ _, _))

structure SerialState (ι : Type*) (MAX : ℕ) where
  table : Fin MAX → ℤ
  log : List (Entry ι MAX)

/-- A whole round of one process. -/
inductive Op (ι : Type*) (MAX : ℕ)
  | write (p : ι) (r : Round MAX)
  | count (p : ι) (searchedValue : ℤ)

/-- A whole round, at once. -/
def serialNext (t : SerialState ι MAX) : Op ι MAX → Option (SerialState ι MAX)
  | .write p r => if DrawsOK r then some ⟨writeCell r t.table, t.log ++ [.wrote p r]⟩ else none
  | .count p v => some ⟨t.table, t.log ++ [.counted p v (cellsEqual t.table v)]⟩

/-- Whole rounds one at a time, from the table `T₀`. -/
def serial (ι : Type*) (T₀ : Fin MAX → ℤ) : System (SerialState ι MAX) (Op ι MAX) :=
  ⟨fun t => t = ⟨T₀, []⟩, serialNext⟩

def Entry.owner : Entry ι MAX → ι
  | .wrote p _ => p
  | .counted p _ _ => p

/-- What the writer rounds of a log make of the table `T₀`. -/
def tableAfter (T₀ : Fin MAX → ℤ) (log : List (Entry ι MAX)) : Fin MAX → ℤ :=
  log.foldl (fun T e => match e with
    | .wrote _ r => writeCell r T
    | .counted .. => T) T₀

/-- Every count of a log is the number of cells with the searched value after the rounds before it. -/
def CountsOK (T₀ : Fin MAX → ℤ) (log : List (Entry ι MAX)) : Prop :=
  ∀ pre p v c post, log = pre ++ .counted p v c :: post → c = cellsEqual (tableAfter T₀ pre) v

variable {T₀ : Fin MAX → ℤ}

theorem tableAfter_append_singleton (log : List (Entry ι MAX)) (e : Entry ι MAX) :
    tableAfter T₀ (log ++ [e]) = match e with
      | .wrote _ r => writeCell r (tableAfter T₀ log)
      | .counted .. => tableAfter T₀ log := by
  unfold tableAfter; rw [List.foldl_append]; rfl

theorem countsOK_append_singleton {log : List (Entry ι MAX)} {e : Entry ι MAX} (h : CountsOK T₀ log)
    (he : ∀ p v c, e = .counted p v c → c = cellsEqual (tableAfter T₀ log) v) : CountsOK T₀ (log ++ [e]) := by
  intro pre p v c post hpre
  rcases List.eq_nil_or_concat post with rfl | ⟨post', x, rfl⟩
  · obtain ⟨rfl, hx⟩ := List.append_inj' hpre rfl
    exact he p v c (List.cons.inj hx).1
  · have hs : log ++ [e] = (pre ++ .counted p v c :: post') ++ [x] := by rw [hpre]; simp
    obtain ⟨hlog, -⟩ := List.append_inj' hs rfl
    exact h pre p v c post' hlog

/-- The serial machine keeps the table of its log, and counts are right when they are logged. -/
theorem serial_spec {t : SerialState ι MAX} (h : (serial ι T₀).Reachable t) :
    t.table = tableAfter T₀ t.log ∧ CountsOK T₀ t.log := by
  refine h.invariant (I := fun t => t.table = tableAfter T₀ t.log ∧ CountsOK T₀ t.log) ?_ ?_
  · rintro t rfl
    exact ⟨rfl, fun pre p v c post h => by simp at h⟩
  · rintro t (⟨p, r⟩ | ⟨p, v⟩) t' - ⟨hT, hC⟩ hs
    · simp only [serial, serialNext, Option.ite_none_right_eq_some, Option.some.injEq] at hs
      obtain ⟨_, rfl⟩ := hs
      exact ⟨by rw [tableAfter_append_singleton, ← hT], countsOK_append_singleton hC nofun⟩
    · simp only [serial, serialNext, Option.some.injEq] at hs
      subst hs
      refine ⟨by rw [tableAfter_append_singleton]; exact hT, countsOK_append_singleton hC fun p' v' c hc => ?_⟩
      cases hc; rw [← hT]

/-! ## A round in progress -/

/-- The table when a round has done the cells below `n`. -/
def progress (r : Round MAX) (T : Fin MAX → ℤ) (n : ℕ) (k : Fin MAX) : ℤ := if k.val < n then writeCell r T k else T k

theorem progress_zero (r : Round MAX) (T : Fin MAX → ℤ) : progress r T 0 = T := by
  funext k; simp [progress]

theorem progress_end (r : Round MAX) (T : Fin MAX → ℤ) {n : ℕ} (hn : MAX ≤ n) : progress r T n = writeCell r T := by
  funext k
  unfold progress
  rw [if_pos (by have := k.isLt; omega)]

theorem progress_self (r : Round MAX) (T : Fin MAX → ℤ) (i : Fin MAX) : progress r T i i = T i := by simp [progress]

theorem progress_succ (r : Round MAX) (T : Fin MAX → ℤ) (i : Fin MAX) :
    progress r T (i.val + 1) = Function.update (progress r T i) i (writeCell r T i) := by
  funext k
  by_cases hk : k = i
  · subst hk; simp [progress]
  · rw [Function.update_of_ne hk]
    have : k.val ≠ i.val := fun h => hk (Fin.ext h)
    unfold progress
    rw [if_congr (show k.val < i.val + 1 ↔ k.val < i.val by omega) rfl rfl]

/-- A draw for cell `i` does not touch the cells before it. -/
theorem progress_draw (r : Round MAX) (T : Fin MAX → ℤ) (i : Fin MAX) (d : ℤ) :
    progress { r with draws := Function.update r.draws i d } T i = progress r T i := by
  funext k
  unfold progress
  split
  · rename_i h
    have hk : k ≠ i := fun hk => by subst hk; omega
    simp only [writeCell, Function.update_of_ne hk]
  · rfl

theorem cellsBelow_zero (T : Fin MAX → ℤ) (v : ℤ) : cellsBelow T v 0 = 0 := by simp [cellsBelow]

theorem cellsBelow_end (T : Fin MAX → ℤ) (v : ℤ) {n : ℕ} (hn : MAX ≤ n) : cellsBelow T v n = cellsEqual T v := by
  unfold cellsBelow cellsEqual
  congr 2
  refine Finset.filter_congr fun k _ => ?_
  have := k.isLt
  exact ⟨fun h => h.2, fun h => ⟨by omega, h⟩⟩

theorem cellsBelow_succ (T : Fin MAX → ℤ) (v : ℤ) (i : Fin MAX) :
    cellsBelow T v (i.val + 1) = if v = T i then cellsBelow T v i + 1 else cellsBelow T v i := by
  unfold cellsBelow
  have hlt : ∀ k : Fin MAX, k.val < i.val + 1 ↔ k = i ∨ k.val < i.val := fun k => by
    rw [Fin.ext_iff]; omega
  split
  · rename_i hv
    have : (Finset.univ.filter fun k : Fin MAX => k.val < i.val + 1 ∧ v = T k) =
        insert i (Finset.univ.filter fun k : Fin MAX => k.val < i.val ∧ v = T k) := by
      ext k
      simp only [Finset.mem_filter, Finset.mem_univ, true_and, Finset.mem_insert, hlt]
      constructor
      · rintro ⟨rfl | h, hk⟩
        · exact .inl rfl
        · exact .inr ⟨h, hk⟩
      · rintro (rfl | ⟨h, hk⟩)
        · exact ⟨.inl rfl, hv⟩
        · exact ⟨.inr h, hk⟩
    rw [this, Finset.card_insert_of_notMem (by simp)]
    push_cast; rfl
  · rename_i hv
    congr 2
    refine Finset.filter_congr fun k _ => ?_
    rw [hlt]
    constructor
    · rintro ⟨rfl | h, hk⟩
      · exact absurd hk hv
      · exact ⟨h, hk⟩
    · rintro ⟨h, hk⟩; exact ⟨.inr h, hk⟩

/-! ## The simulation -/

/-- The process holds `WRT`. -/
def holdsWrt : Proc MAX → ℕ
  | .reader _ .upMutex | .reader _ .draw | .reader _ (.scan ..) | .reader _ (.print ..) | .reader _ .downMutexEnd
  | .reader _ .decCount | .reader _ .testLast | .reader _ .upWrt => 1
  | .writer (.loop ..) | .writer (.testEmpty ..) | .writer (.assign ..) | .writer (.testLess ..)
  | .writer (.readInc ..) | .writer (.writeInc ..) | .writer (.print ..) | .writer (.upWrt ..) => 1
  | _ => 0

/-- The process holds `WRT` and its round is not in the log yet. -/
def pending : Proc MAX → ℕ
  | .reader _ .upMutex | .reader _ .draw | .reader _ (.scan ..) | .reader _ (.print ..) => 1
  | .writer (.loop ..) | .writer (.testEmpty ..) | .writer (.assign ..) | .writer (.testLess ..)
  | .writer (.readInc ..) | .writer (.writeInc ..) | .writer (.print ..) | .writer (.upWrt ..) => 1
  | _ => 0

theorem pending_le_holdsWrt (l : Proc MAX) : pending l ≤ holdsWrt l := by
  cases l with
  | reader rc pc => cases pc <;> simp [pending, holdsWrt]
  | writer pc => cases pc <;> simp [pending, holdsWrt]

/-- What a process that holds `WRT` has done to the table `T` of the serial machine, and the value of
each reader's `readcount`. -/
def LocalOK (T data : Fin MAX → ℤ) : Proc MAX → Prop
  | .reader rc .downMutex | .reader rc .incCount | .reader rc .upMutexEnd => rc = 0
  | .reader rc .testFirst | .reader rc .downWrt => rc = 1
  | .reader rc .upMutex | .reader rc .draw | .reader rc .downMutexEnd | .reader rc .decCount => rc = 1 ∧ data = T
  | .reader rc (.scan v i c) => rc = 1 ∧ data = T ∧ c = cellsBelow T v i
  | .reader rc (.print v c) => rc = 1 ∧ data = T ∧ c = cellsEqual T v
  | .reader rc .testLast | .reader rc .upWrt => rc = 0 ∧ data = T
  | .writer .top | .writer (.choose ..) | .writer (.downWrt _) => True
  | .writer (.loop r i) => DrawsOK r ∧ data = progress r T i
  | .writer (.testEmpty r i) => DrawsOK r ∧ data = progress r T i ∧ r.positions i = 1
  | .writer (.assign r i) => DrawsOK r ∧ data = progress r T i ∧ r.positions i = 1 ∧ T i = -1
  | .writer (.testLess r i) => DrawsOK r ∧ data = progress r T i ∧ r.positions i = 1 ∧ T i ≠ -1
  | .writer (.readInc r i) => DrawsOK r ∧ data = progress r T i ∧ r.positions i = 1 ∧ T i ≠ -1 ∧ T i < 10
  | .writer (.writeInc r i v) => DrawsOK r ∧ data = progress r T i ∧ r.positions i = 1 ∧ T i ≠ -1 ∧ T i < 10 ∧ v = T i
  | .writer (.print r i) => DrawsOK r ∧ data = progress r T (i.val + 1)
  | .writer (.upWrt r) => DrawsOK r ∧ data = writeCell r T

/-- A process without `WRT` knows nothing about the table. -/
theorem LocalOK.frame {T T' data data' : Fin MAX → ℤ} {l : Proc MAX} (h : LocalOK T data l) (hl : holdsWrt l = 0) :
    LocalOK T' data' l := by
  cases l with
  | reader rc pc => cases pc <;> first | exact h | cases hl
  | writer pc => cases pc <;> first | exact h | cases hl

/-- The acquisitions are the rounds in the log, then the holder whose round is not finished. -/
def Ordered (g : Shared ι MAX) (procs : ι → Proc MAX) : Prop :=
  ((∀ p, pending (procs p) = 0) ∧ g.acquired = g.log.map Entry.owner) ∨
    ∃ p, pending (procs p) = 1 ∧ g.acquired = g.log.map Entry.owner ++ [p]

/-- A cell that initialisation left in -1..10 is still there. -/
def InRange (T₀ data : Fin MAX → ℤ) : Prop := ∀ k, -1 ≤ T₀ k → T₀ k ≤ 10 → -1 ≤ data k ∧ data k ≤ 10

/-- The simulation relation. -/
structure Sim [Fintype ι] (T₀ : Fin MAX → ℤ) (g : Shared ι MAX) (procs : ι → Proc MAX) (t : SerialState ι MAX) :
    Prop where
  wrt : g.sem .WRT + tally holdsWrt procs = 1
  log : g.log = t.log
  free : (∀ p, holdsWrt (procs p) = 0) → g.data = t.table
  order : Ordered g procs
  range : InRange T₀ g.data
  locals : ∀ p, LocalOK t.table g.data (procs p)

section Step

variable [Fintype ι] [DecidableEq ι] {g g' : Shared ι MAX} {procs : ι → Proc MAX} {t t' : SerialState ι MAX} {p : ι}
  {l l' : Proc MAX}

/-- At most one process holds `WRT`. -/
theorem Sim.unique (hS : Sim T₀ g procs t) (hp : holdsWrt (procs p) = 1) {q : ι} (hq : q ≠ p) :
    holdsWrt (procs q) = 0 := by
  by_contra hc
  have := hS.wrt
  exact hq (eq_of_tally_le_one (w := holdsWrt) (f := procs) (by omega) (by omega) (by omega))

/-- The step of a process that keeps what it holds of `WRT` and logs nothing. -/
theorem Sim.stay (hS : Sim T₀ g procs t) (hp : procs p = l) (hw : g'.sem .WRT = g.sem .WRT)
    (ha : g'.acquired = g.acquired) (hl : g'.log = g.log) (wh : holdsWrt l' = holdsWrt l) (wp : pending l' = pending l)
    (hd : g'.data = g.data ∨ holdsWrt l = 1) (hr : InRange T₀ g'.data)
    (hok : LocalOK t.table g'.data l') : Sim T₀ g' (Function.update procs p l') t := by
  subst hp
  have th := tally_update holdsWrt procs p l'
  have hpend : ∀ q, pending (Function.update procs p l' q) = pending (procs q) := fun q => by
    by_cases hq : q = p
    · subst hq; rw [Function.update_self, wp]
    · rw [Function.update_of_ne hq]
  have hhold : ∀ q, holdsWrt (Function.update procs p l' q) = holdsWrt (procs q) := fun q => by
    by_cases hq : q = p
    · subst hq; rw [Function.update_self, wh]
    · rw [Function.update_of_ne hq]
  refine ⟨by have := hS.wrt; omega, by rw [hl, hS.log], fun hf => ?_, ?_, hr, fun q => ?_⟩
  · rcases hd with hd | hd
    · rw [hd]; exact hS.free fun q => by rw [← hhold q, hf q]
    · have := hf p; rw [hhold p] at this; omega
  · unfold Ordered
    rw [ha, hl]
    simp only [hpend]
    exact hS.order
  · by_cases hq : q = p
    · subst hq; rw [Function.update_self]; exact hok
    · rw [Function.update_of_ne hq]
      rcases hd with hd | hd
      · rw [hd]; exact hS.locals q
      · exact (hS.locals q).frame (hS.unique hd hq)

/-- A process acquires `WRT`; the table is then the serial machine's. -/
theorem Sim.acquire (hS : Sim T₀ g procs t) (hp : procs p = l) (h : downWrt p g = some g') (h0 : holdsWrt l = 0)
    (h1 : holdsWrt l' = 1) (hp1 : pending l' = 1) (hok : g.data = t.table → LocalOK t.table g.data l') :
    Sim T₀ g' (Function.update procs p l') t := by
  subst hp
  obtain ⟨hw, rfl⟩ := downWrt_eq_some.1 h
  have hsim := hS.wrt
  have th := tally_update holdsWrt procs p l'
  have hz : ∀ q, holdsWrt (procs q) = 0 := tally_eq_zero.1 (by omega)
  have hpz : ∀ q, pending (procs q) = 0 := fun q => by
    have := pending_le_holdsWrt (procs q)
    have := hz q
    omega
  refine ⟨by simp only [Function.update_self]; omega, hS.log, fun hf => ?_, .inr ⟨p, ?_, ?_⟩, hS.range, fun q => ?_⟩
  · have := hf p; rw [Function.update_self] at this; omega
  · rw [Function.update_self, hp1]
  · rcases hS.order with ⟨_, ho⟩ | ⟨q, hq, _⟩
    · simp only [ho]
    · have := hpz q; omega
  · by_cases hq : q = p
    · subst hq; rw [Function.update_self]; exact hok (hS.free hz)
    · rw [Function.update_of_ne hq]; exact hS.locals q

/-- The holder of `WRT` logs its round, and the serial machine runs it. -/
theorem Sim.commit (hS : Sim T₀ g procs t) (hp : procs p = l) {e : Entry ι MAX} (he : e.owner = p)
    (hl0 : holdsWrt l = 1) (hp0 : pending l = 1) (hp1 : pending l' = 0)
    (hw : g'.sem .WRT + holdsWrt l' = g.sem .WRT + 1) (ha : g'.acquired = g.acquired) (hl : g'.log = g.log ++ [e])
    (hd : g'.data = g.data) (ht : t'.log = t.log ++ [e]) (htd : t'.table = g.data) (hok : LocalOK t'.table g.data l') :
    Sim T₀ g' (Function.update procs p l') t' := by
  subst hp
  have th := tally_update holdsWrt procs p l'
  have hothers : ∀ q, q ≠ p → pending (procs q) = 0 := fun q hq => by
    have := pending_le_holdsWrt (procs q)
    have := hS.unique hl0 hq
    omega
  refine ⟨by have := hS.wrt; omega, by rw [hl, ht, hS.log], fun _ => by rw [hd, htd], .inl ⟨fun q => ?_, ?_⟩,
    by rw [hd]; exact hS.range, fun q => ?_⟩
  · by_cases hq : q = p
    · subst hq; rw [Function.update_self, hp1]
    · rw [Function.update_of_ne hq]; exact hothers q hq
  · rw [ha, hl, List.map_append]
    rcases hS.order with ⟨hz, _⟩ | ⟨q, hq, ho⟩
    · have := hz p; omega
    · have hqp : q = p := by
        by_contra hc
        have := hothers q hc
        omega
      rw [ho, hqp, ← he]; rfl
  · by_cases hq : q = p
    · subst hq; rw [Function.update_self, hd]; exact hok
    · rw [Function.update_of_ne hq]; exact (hS.locals q).frame (hS.unique hl0 hq)

/-- A reader that held `WRT` alone to its end releases it. -/
theorem Sim.release (hS : Sim T₀ g procs t) (hp : procs p = l) (hl : holdsWrt l = 1) (hl' : holdsWrt l' = 0)
    (hp0 : pending l = 0) (hd : g.data = t.table) (hok : LocalOK t.table g.data l') :
    Sim T₀ (semUp g .WRT) (Function.update procs p l') t := by
  subst hp
  have th := tally_update holdsWrt procs p l'
  have hpend : ∀ q, pending (Function.update procs p l' q) = pending (procs q) := fun q => by
    by_cases hq : q = p
    · subst hq; have := pending_le_holdsWrt l'; rw [Function.update_self]; omega
    · rw [Function.update_of_ne hq]
  refine ⟨?_, hS.log, fun _ => hd, ?_, hS.range, fun q => ?_⟩
  · have := hS.wrt; simp only [semUp, Function.update_self]; omega
  · unfold Ordered
    simp only [hpend]
    exact hS.order
  · by_cases hq : q = p
    · subst hq; rw [Function.update_self]; exact hok
    · rw [Function.update_of_ne hq]; exact hS.locals q

/-- A step of a reader is matched by no step of the serial machine, or by its whole scan. -/
theorem sim_reader {rand : ℕ} {rc rc' : ℤ} {pc pc' : Reader} (hS : Sim T₀ g procs t) (hp : procs p = .reader rc pc)
    (h : reader p rand g rc pc = some (g', rc', pc')) :
    ∃ ops t', (serial ι T₀).run t ops = some t' ∧ Sim T₀ g' (Function.update procs p (.reader rc' pc')) t' := by
  have hl := hS.locals p
  rw [hp] at hl
  cases pc <;> simp only [reader, Option.some.injEq, Option.map_eq_some_iff, Prod.mk.injEq] at h
  case downMutex | downMutexEnd =>
    obtain ⟨_, hs, rfl, rfl, rfl⟩ := h
    obtain ⟨_, rfl⟩ := semDown_eq_some.1 hs
    exact ⟨[], t, rfl, hS.stay hp rfl rfl rfl rfl rfl (.inl rfl) hS.range hl⟩
  case incCount =>
    obtain ⟨rfl, rfl, rfl⟩ := h
    exact ⟨[], t, rfl, hS.stay hp rfl rfl rfl rfl rfl (.inl rfl) hS.range (by simp only [LocalOK] at hl ⊢; omega)⟩
  case testFirst =>
    obtain ⟨rfl, rfl, rfl⟩ := h
    -- a reader counts only itself, so it is always the first
    rw [if_pos (show rc = 1 from hl)]
    exact ⟨[], t, rfl, hS.stay hp rfl rfl rfl rfl rfl (.inl rfl) hS.range hl⟩
  case downWrt =>
    obtain ⟨_, hs, rfl, rfl, rfl⟩ := h
    exact ⟨[], t, rfl, hS.acquire hp hs rfl rfl rfl fun hd => ⟨hl, hd⟩⟩
  case upMutex =>
    obtain ⟨rfl, rfl, rfl⟩ := h
    exact ⟨[], t, rfl, hS.stay hp rfl rfl rfl rfl rfl (.inl rfl) hS.range hl⟩
  case draw =>
    obtain ⟨rfl, rfl, rfl⟩ := h
    exact ⟨[], t, rfl, hS.stay hp rfl rfl rfl rfl rfl (.inl rfl) hS.range ⟨hl.1, hl.2, (cellsBelow_zero _ _).symm⟩⟩
  case scan v i c =>
    obtain ⟨hrc, hd, hc⟩ := hl
    split at h <;> simp only [Option.some.injEq, Prod.mk.injEq] at h <;> obtain ⟨rfl, rfl, rfl⟩ := h
    · rename_i hi
      refine ⟨[], t, rfl, hS.stay hp rfl rfl rfl rfl rfl (.inl rfl) hS.range ⟨hrc, hd, ?_⟩⟩
      rw [hc, cellsBelow_succ t.table v ⟨i, hi⟩, ← hd]
    · rename_i hi
      refine ⟨[], t, rfl, hS.stay hp rfl rfl rfl rfl rfl (.inl rfl) hS.range ⟨hrc, hd, ?_⟩⟩
      rw [hc, cellsBelow_end _ _ (by omega)]
  case print v c =>
    obtain ⟨rfl, rfl, rfl⟩ := h
    obtain ⟨hrc, hd, rfl⟩ := hl
    refine ⟨[.count p v], _, rfl, ?_⟩
    exact hS.commit hp rfl rfl rfl rfl rfl rfl rfl rfl rfl hd.symm ⟨hrc, hd⟩
  case decCount =>
    obtain ⟨rfl, rfl, rfl⟩ := h
    exact ⟨[], t, rfl, hS.stay hp rfl rfl rfl rfl rfl (.inl rfl) hS.range ⟨by have := hl.1; omega, hl.2⟩⟩
  case testLast =>
    obtain ⟨rfl, rfl, rfl⟩ := h
    -- and always the last
    rw [if_pos hl.1]
    exact ⟨[], t, rfl, hS.stay hp rfl rfl rfl rfl rfl (.inl rfl) hS.range hl⟩
  case upWrt =>
    obtain ⟨rfl, rfl, rfl⟩ := h
    exact ⟨[], t, rfl, hS.release hp rfl rfl rfl hl.2 hl.1⟩
  case upMutexEnd =>
    obtain ⟨rfl, rfl, rfl⟩ := h
    exact ⟨[], t, rfl, hS.stay hp rfl rfl rfl rfl rfl (.inl rfl) hS.range hl⟩

theorem drawsOK_update {r : Round MAX} (h : DrawsOK r) (i : Fin MAX) (rand : ℕ) :
    DrawsOK { r with draws := Function.update r.draws i ((rand : ℤ) % 10) } := by
  intro k
  by_cases hk : k = i
  · subst hk; simp only [Function.update_self]; omega
  · simp only [Function.update_of_ne hk]; exact h k

theorem InRange.update {data : Fin MAX → ℤ} (h : InRange T₀ data) {i : Fin MAX} {v : ℤ}
    (hv : -1 ≤ data i → data i ≤ 10 → -1 ≤ v ∧ v ≤ 10) : InRange T₀ (Function.update data i v) := by
  intro k hlo hhi
  by_cases hk : k = i
  · subst hk
    rw [Function.update_self]
    exact hv (h k hlo hhi).1 (h k hlo hhi).2
  · rw [Function.update_of_ne hk]; exact h k hlo hhi

/-- A step of a writer is matched by no step of the serial machine, or by its whole round. -/
theorem sim_writer {rand : ℕ} {pc pc' : Writer MAX} (hS : Sim T₀ g procs t) (hp : procs p = .writer pc)
    (h : writer p rand g pc = some (g', pc')) :
    ∃ ops t', (serial ι T₀).run t ops = some t' ∧ Sim T₀ g' (Function.update procs p (.writer pc')) t' := by
  have hl := hS.locals p
  rw [hp] at hl
  cases pc <;> simp only [writer, Option.some.injEq, Option.map_eq_some_iff, Prod.mk.injEq] at h
  case top =>
    obtain ⟨rfl, rfl⟩ := h
    exact ⟨[], t, rfl, hS.stay hp rfl rfl rfl rfl rfl (.inl rfl) hS.range trivial⟩
  case choose n positions =>
    have key : g' = g ∧ holdsWrt (.writer pc') = 0 ∧ LocalOK t.table g.data (.writer pc') := by
      split at h
      · split at h
        · split at h <;> cases h <;> exact ⟨rfl, rfl, trivial⟩
        · cases h
      · cases h; exact ⟨rfl, rfl, trivial⟩
    obtain ⟨rfl, hh, hok⟩ := key
    have := pending_le_holdsWrt (.writer pc' : Proc MAX)
    exact ⟨[], t, rfl, hS.stay hp rfl rfl rfl hh (by rw [show pending (.writer pc') = 0 by omega]; rfl) (.inl rfl)
      hS.range hok⟩
  case downWrt positions =>
    obtain ⟨_, hs, rfl, rfl⟩ := h
    exact ⟨[], t, rfl, hS.acquire hp hs rfl rfl rfl fun hd =>
      ⟨fun k => ⟨by simp, by simp⟩, by rw [progress_zero]; exact hd⟩⟩
  case loop r i =>
    obtain ⟨hr, hd⟩ := hl
    split at h
    · rename_i hi
      split at h <;> cases h
      · rename_i hpos
        exact ⟨[], t, rfl, hS.stay hp rfl rfl rfl rfl rfl (.inl rfl) hS.range ⟨hr, hd, hpos⟩⟩
      · rename_i hpos
        refine ⟨[], t, rfl, hS.stay hp rfl rfl rfl rfl rfl (.inl rfl) hS.range ⟨hr, ?_⟩⟩
        -- a cell the round skips
        rw [progress_succ r t.table ⟨i, hi⟩, writeCell, if_neg hpos, ← progress_self r t.table ⟨i, hi⟩,
          Function.update_eq_self]
        exact hd
    · rename_i hi
      cases h
      exact ⟨[], t, rfl, hS.stay hp rfl rfl rfl rfl rfl (.inl rfl) hS.range
        ⟨hr, by rw [hd, progress_end r _ (by omega)]⟩⟩
  case testEmpty r i =>
    obtain ⟨rfl, rfl⟩ := h
    obtain ⟨hr, hd, hpos⟩ := hl
    have hi : g.data i = t.table i := by rw [hd, progress_self]
    split
    · rename_i he
      exact ⟨[], t, rfl, hS.stay hp rfl rfl rfl rfl rfl (.inl rfl) hS.range ⟨hr, hd, hpos, by rw [← hi, he]⟩⟩
    · rename_i he
      exact ⟨[], t, rfl, hS.stay hp rfl rfl rfl rfl rfl (.inl rfl) hS.range ⟨hr, hd, hpos, by rw [← hi]; exact he⟩⟩
  case assign r i =>
    obtain ⟨rfl, rfl⟩ := h
    obtain ⟨hr, hd, hpos, he⟩ := hl
    refine ⟨[], t, rfl, hS.stay hp rfl rfl rfl rfl rfl (.inr rfl) ?_ ⟨drawsOK_update hr i rand, ?_⟩⟩
    · exact hS.range.update fun _ _ => by omega
    · simp only [progress_succ, progress_draw, hd, writeCell, if_pos hpos, bump, if_pos he, Function.update_self]
  case testLess r i =>
    obtain ⟨rfl, rfl⟩ := h
    obtain ⟨hr, hd, hpos, he⟩ := hl
    have hi : g.data i = t.table i := by rw [hd, progress_self]
    split
    · rename_i hlt
      exact ⟨[], t, rfl, hS.stay hp rfl rfl rfl rfl rfl (.inl rfl) hS.range ⟨hr, hd, hpos, he, by rw [← hi]; exact hlt⟩⟩
    · rename_i hlt
      refine ⟨[], t, rfl, hS.stay hp rfl rfl rfl rfl rfl (.inl rfl) hS.range ⟨hr, ?_⟩⟩
      -- a cell that has reached 10 stays
      rw [hi] at hlt
      rw [progress_succ, writeCell, if_pos hpos, bump, if_neg he, if_neg hlt, ← progress_self r t.table i,
        Function.update_eq_self]
      exact hd
  case readInc r i =>
    obtain ⟨rfl, rfl⟩ := h
    obtain ⟨hr, hd, hpos, he, hlt⟩ := hl
    exact ⟨[], t, rfl, hS.stay hp rfl rfl rfl rfl rfl (.inl rfl) hS.range
      ⟨hr, hd, hpos, he, hlt, by rw [hd, progress_self]⟩⟩
  case writeInc r i v =>
    obtain ⟨rfl, rfl⟩ := h
    obtain ⟨hr, hd, hpos, he, hlt, rfl⟩ := hl
    have hi : g.data i = t.table i := by rw [hd, progress_self]
    refine ⟨[], t, rfl, hS.stay hp rfl rfl rfl rfl rfl (.inr rfl) ?_ ⟨hr, ?_⟩⟩
    · exact hS.range.update fun hlo _ => by omega
    · rw [progress_succ, hd, writeCell, if_pos hpos, bump, if_neg he, if_pos hlt]
  case print r i =>
    obtain ⟨rfl, rfl⟩ := h
    exact ⟨[], t, rfl, hS.stay hp rfl rfl rfl rfl rfl (.inl rfl) hS.range hl⟩
  case upWrt r =>
    obtain ⟨rfl, rfl⟩ := h
    obtain ⟨hr, hd⟩ := hl
    refine ⟨[.write p r], ⟨writeCell r t.table, t.log ++ [.wrote p r]⟩, ?_, ?_⟩
    · simp only [System.run, serial, serialNext, if_pos hr, Option.bind_some]
    · exact hS.commit hp rfl rfl rfl rfl (by simp [semUp, holdsWrt]) rfl rfl rfl rfl hd.symm trivial

omit [DecidableEq ι] in
/-- The table of a step: a cell only grows, and only where a writer stands at it. -/
theorem data_mono {rand : ℕ} (hS : Sim T₀ g procs t) (h : program ι MAX p g (procs p) rand = some (g', l'))
    (k : Fin MAX) :
    g.data k ≤ g'.data k := by
  have hl := hS.locals p
  cases hp : procs p with
  | reader rc pc =>
    rw [hp] at h
    obtain ⟨⟨g₁, rc', pc'⟩, hr, he⟩ := Option.map_eq_some_iff.1 h
    cases he
    suffices g₁.data = g.data by rw [this]
    cases pc <;> simp only [reader, Option.some.injEq, Option.map_eq_some_iff, Prod.mk.injEq] at hr
    case downMutex | downMutexEnd => obtain ⟨_, hs, rfl, -⟩ := hr; obtain ⟨_, rfl⟩ := semDown_eq_some.1 hs; rfl
    case downWrt => obtain ⟨_, hs, rfl, -⟩ := hr; obtain ⟨_, rfl⟩ := downWrt_eq_some.1 hs; rfl
    case scan => split at hr <;> cases hr <;> rfl
    all_goals obtain ⟨rfl, -⟩ := hr; rfl
  | writer pc =>
    rw [hp] at h hl
    obtain ⟨⟨g₁, pc'⟩, hw, he⟩ := Option.map_eq_some_iff.1 h
    cases he
    cases pc <;> simp only [writer, Option.some.injEq, Option.map_eq_some_iff, Prod.mk.injEq] at hw
    case assign r i =>
      obtain ⟨rfl, -⟩ := hw
      by_cases hk : k = i
      · subst hk
        -- the writer has found the cell empty and nobody else writes meanwhile
        have : g.data k = -1 := by rw [hl.2.1, progress_self]; exact hl.2.2.2
        simp only [Function.update_self]; omega
      · simp only [Function.update_of_ne hk]; exact le_refl _
    case writeInc r i v =>
      obtain ⟨rfl, -⟩ := hw
      by_cases hk : k = i
      · subst hk
        -- the value it adds to is still in the cell
        have : g.data k = v := by rw [hl.2.1, progress_self]; exact hl.2.2.2.2.2.symm
        simp only [Function.update_self]; omega
      · simp only [Function.update_of_ne hk]; exact le_refl _
    case downWrt => obtain ⟨_, hs, rfl, -⟩ := hw; obtain ⟨_, rfl⟩ := downWrt_eq_some.1 hs; exact le_refl _
    case choose | loop => (repeat' split at hw) <;> cases hw <;> exact le_refl _
    all_goals obtain ⟨rfl, -⟩ := hw; exact le_refl _

end Step

section Serializable

variable [Fintype ι] [DecidableEq ι] {isReader : ι → Bool}

/-- The serial machine simulates the readers and writers. -/
theorem simulates : System.Simulates (system T₀ isReader) (serial ι T₀) fun s t => Sim T₀ s.shared s.procs t where
  init := by
    rintro s ⟨hg, hp⟩
    have hz : ∀ p, holdsWrt (s.procs p) = 0 ∧ pending (s.procs p) = 0 ∧
        LocalOK T₀ T₀ (s.procs p) := fun p => by
      rw [hp p]
      unfold atTop
      split <;> exact ⟨rfl, rfl, by trivial⟩
    refine ⟨⟨T₀, []⟩, rfl, ?_⟩
    rw [hg]
    refine ⟨by rw [tally_eq_zero.2 fun p => (hz p).1]; rfl, rfl, fun _ => rfl, .inl ⟨fun p => (hz p).2.1, rfl⟩,
      fun k hlo hhi => ⟨hlo, hhi⟩, fun p => (hz p).2.2⟩
  next := by
    rintro s a s' t - - hS hs
    obtain ⟨g, l, hP, rfl⟩ := Program.next_eq_some.1 hs
    cases hp : s.procs a.1 with
    | reader rc pc =>
      rw [hp] at hP
      obtain ⟨⟨g₁, rc', pc'⟩, hr, he⟩ := Option.map_eq_some_iff.1 hP
      cases he
      exact sim_reader hS hp hr
    | writer pc =>
      rw [hp] at hP
      obtain ⟨⟨g₁, pc'⟩, hw, he⟩ := Option.map_eq_some_iff.1 hP
      cases he
      exact sim_writer hS hp hw

/-- In a reachable state the serial machine has run the rounds of the log. -/
theorem reachable_sim {s : Pool ι (Shared ι MAX) (Proc MAX)} (h : (system T₀ isReader).Reachable s) :
    (serial ι T₀).Reachable ⟨tableAfter T₀ s.shared.log, s.shared.log⟩ ∧
      Sim T₀ s.shared s.procs ⟨tableAfter T₀ s.shared.log, s.shared.log⟩ := by
  obtain ⟨t, ht, hS⟩ := simulates.reachable h
  have hT := (serial_spec ht).1
  have : t = ⟨tableAfter T₀ s.shared.log, s.shared.log⟩ := by
    cases t
    simp only [SerialState.mk.injEq]
    exact ⟨by rw [hS.log]; exact hT, hS.log.symm⟩
  exact this ▸ ⟨ht, hS⟩

/-- In every run of any number of readers and writers, each reader with its own `readcount`, from any table `T₀`:
the serial machine runs the logged rounds, in the order in which `WRT` was acquired; while no process holds `WRT`
the table is the one these rounds leave, and a process that holds it has done just the first cells of its
own round to that table (`LocalOK`); every printed count is the number of cells with the searched value
after the rounds before it; a cell that starts in -1..10 stays there; and no cell ever decreases. -/
theorem serializable {s : Pool ι (Shared ι MAX) (Proc MAX)} (h : (system T₀ isReader).Reachable s) :
    (serial ι T₀).Reachable ⟨tableAfter T₀ s.shared.log, s.shared.log⟩ ∧ Ordered s.shared s.procs ∧
    ((∀ p, holdsWrt (s.procs p) = 0) → s.shared.data = tableAfter T₀ s.shared.log) ∧
    (∀ p, LocalOK (tableAfter T₀ s.shared.log) s.shared.data (s.procs p)) ∧
    CountsOK T₀ s.shared.log ∧ InRange T₀ s.shared.data ∧
    ∀ as s', (system T₀ isReader).run s as = some s' → ∀ k, s.shared.data k ≤ s'.shared.data k := by
  obtain ⟨ht, hS⟩ := reachable_sim h
  refine ⟨ht, hS.order, hS.free, hS.locals, (serial_spec ht).2, hS.range, fun as s' hr => ?_⟩
  refine System.run_rel (R := fun s s' => ∀ k, s.shared.data k ≤ s'.shared.data k) (fun _ _ => le_refl _)
    (fun _ _ _ h1 h2 k => le_trans (h1 k) (h2 k)) ?_ as h hr
  intro s a s' h hs
  obtain ⟨g, l, hP, rfl⟩ := Program.next_eq_some.1 hs
  exact data_mono (reachable_sim h).2 hP

/-- What a program that attaches second finds of four cells: it has cut the object to two of them. -/
def cutTable : Fin 4 → ℤ := ![-1, -1, 0, 0]

/-- Readers 0 and 1 and writer 2 over that table. -/
def threeProcs : Pool (Fin 3) (Shared (Fin 3) 4) (Proc 4) := ⟨initShared (Fin 3) cutTable, fun p => atTop 4 (p != 2)⟩

theorem threeProcs_init : (system cutTable fun p : Fin 3 => p != 2).init threeProcs := ⟨rfl, fun _ => rfl⟩

/-- Writer 2 chooses cell 2 and has `WRT` when reader 0 comes for it; reader 0 then looks for ones. -/
def writeAndCount : List (Fin 3 × ℕ) :=
  List.flatten [List.replicate 4 (2, 2), List.replicate 3 (0, 1), List.replicate 11 (2, 2), List.replicate 9 (0, 1)]

/-- The writer has made the 0 of cell 2 a 1, and reader 0 has counted it. -/
theorem serializable_three : ∃ s,
    (system cutTable fun p : Fin 3 => p != 2).run threeProcs writeAndCount = some s ∧
    s.shared.data = ![-1, -1, 1, 0] ∧ (∃ r, s.shared.log = [.wrote 2 r, .counted 0 1 1]) ∧
    CountsOK cutTable s.shared.log := by
  refine ⟨_, rfl, ?_, ?_, ?_⟩
  · decide
  · exact ⟨_, rfl⟩
  · exact (serializable (System.Reachable.run writeAndCount (.init threeProcs_init) rfl)).2.2.2.2.1

end Serializable

end Sysopy.ReadersWriters
