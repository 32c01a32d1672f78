/-
The start of the producer and consumer programs of cw07/zad1 on a system without the semaphore set and the
segment: `init_sem` and `init_shm`, one call or one cell at a time, followed by the loops. No initialising write
hits a produced value, since scans stop inside the cells already set. That no process enters its loop before all
cells are set fails when one attaches to the segment while its creator is still writing: `init_sem` waits for the
creator, `init_shm` does not.
-/
import Sysopy.Conc.Segment
import Sysopy.ProdCons.Safety

namespace Sysopy.ProdCons

open Sysopy.Conc

variable {MAX : ℕ}

/-! ## init_sem and init_shm -/

/-- The semaphore set and the segment. Every `semop` sets `sem_otime`; for those in the loops it is set already.
`produced` is a history: the cells that hold a value stored by a producer. -/
structure Ipc (MAX : ℕ) where
  semExists : Bool
  otime : Bool
  shm : Segment MAX
  shared : Shared MAX
  produced : Fin MAX → Bool

/-- The program a process runs. -/
inductive Role
  | producer
  | consumer
  deriving DecidableEq, Repr

/-- Where `producer()` and `consumer()` begin. -/
def Role.top : Role → Proc
  | .producer => .producer .top
  | .consumer => .consumer .downFill

/-- Where a process is before its loop: in `init_sem` up to the loop over `sem_otime`, then in `init_shm`. -/
inductive Init
  | semget
  | upMutex
  | upEmpty
  | semgetExisting
  | waitOtime
  | shmget
  | shmatNew
  | write (i : ℕ)
  | shmgetExisting
  | shmatExisting
  deriving DecidableEq, Repr

inductive Stage
  | init (role : Role) (pc : Init)
  | loop (l : Proc)
  deriving DecidableEq, Repr

/-- One step of `init_sem` and `init_shm`; no place after it when the loop begins. -/
def init (g : Ipc MAX) : Init → Option (Ipc MAX × Option Init)
  | .semget =>
    if g.semExists then some (g, some .semgetExisting) else some ({ g with semExists := true }, some .upMutex)
  | .upMutex => (changeSem false g.shared .MUTEX 1).map fun s => ({ g with shared := s, otime := true }, some .upEmpty)
  | .upEmpty => (changeSem false g.shared .EMPTY MAX).map fun s => ({ g with shared := s, otime := true }, some .shmget)
  | .semgetExisting => some (g, some .waitOtime)
  -- the `while` over `sem_otime`: whoever has not created the set waits until it has been raised
  | .waitOtime => some (g, if g.otime then some .shmget else some .waitOtime)
  | .shmget =>
    if g.shm.present then some (g, some .shmgetExisting)
    -- a new segment is zero-filled
    else some ({ g with shm := .created MAX, shared := { g.shared with data := fun _ => 0 } }, some .shmatNew)
  | .shmatNew => some (g, some (.write 0))
  | .write i =>
    if h : i < MAX then
      some ({ g with
        shm := g.shm.write ⟨i, h⟩
        shared := { g.shared with data := Function.update g.shared.data ⟨i, h⟩ (-1) }
        produced := Function.update g.produced ⟨i, h⟩ false }, some (.write (i + 1)))
    else some (g, none)
  -- here nothing waits for the creator
  | .shmgetExisting => some (g, some .shmatExisting)
  | .shmatExisting => some (g, none)

/-- The cells that hold produced values after a step of a loop. -/
def noteProduced (produced : Fin MAX → Bool) : Proc → Fin MAX → Bool
  | .producer (.store _ i) => if h : i < MAX then Function.update produced ⟨i, h⟩ true else produced
  | .consumer (.reset i _) => if h : i < MAX then Function.update produced ⟨i, h⟩ false else produced
  | _ => produced

/-- One step of a process, from its `main` on. -/
def boot (rand : ℕ) (g : Ipc MAX) : Stage → Option (Ipc MAX × Stage)
  | .init role pc => (init g pc).map fun r => (r.1, (r.2.map (Stage.init role)).getD (.loop role.top))
  | .loop l =>
    (step false rand g.shared l).map fun r =>
      ({ g with shared := r.1, produced := noteProduced g.produced l }, .loop r.2)

/-- Neither the semaphore set nor the segment exists, and every process is at the start of its program. -/
def Fresh {ι : Type*} (s : Pool ι (Ipc MAX) Stage) : Prop :=
  s.shared = ⟨false, false, .absent MAX, ⟨fun _ => 0, fun _ => 0, 0, 0⟩, fun _ => false⟩ ∧
    ∀ p, ∃ role, s.procs p = .init role .semget

/-- The programs from their `main` on. -/
def launch (ι : Type*) (MAX : ℕ) : Program ι (Ipc MAX) Stage ℕ := fun _ g l rand => boot rand g l

/-- All runs of any number of programs, started at any times. -/
def startup (ι : Type*) [DecidableEq ι] (MAX : ℕ) : System (Pool ι (Ipc MAX) Stage) (ι × ℕ) :=
  (launch ι MAX).system Fresh

/-! ## The invariant -/

/-- The next cell of a process that sets the cells. -/
def writing : Stage → Option ℕ
  | .init _ .shmatNew => some 0
  | .init _ (.write i) => some i
  | _ => none

/-- A process that has created the semaphores and not yet raised `MUTEX`. -/
def owesMutex : Stage → ℕ
  | .init _ .upMutex => 1
  | _ => 0

/-- A weight of the processes in their loops. -/
def inLoop (w : Proc → ℕ) : Stage → ℕ
  | .init .. => 0
  | .loop l => w l

/-- A cell is zero until it is set, -1 when it holds no produced value, and else not -1. -/
def CellOK : Bool → Bool → ℤ → Prop
  | false, false, v => v = 0
  | false, true, _ => False
  | true, false, v => v = -1
  | true, true, v => v ≠ -1

/-- What a process knows about the cells. -/
def Knows (set produced : Fin MAX → Bool) : Stage → Prop
  | .loop (.producer (.downEmpty v)) | .loop (.producer (.downMutex v)) | .loop (.producer (.scan v _)) => v ≠ -1
  | .loop (.producer (.store v i)) => v ≠ -1 ∧ ∃ h : i < MAX, set ⟨i, h⟩ = true ∧ produced ⟨i, h⟩ = false
  | .loop (.consumer (.scan i)) => ∀ k : Fin MAX, k.val < i → produced k = false
  | .loop (.consumer (.read i)) | .loop (.consumer (.reset i _)) => ∃ h : i < MAX, produced ⟨i, h⟩ = true
  | _ => True

def isTrue (b : Bool) : ℕ := if b then 1 else 0

structure Up {ι : Type*} [Fintype ι] (g : Ipc MAX) (procs : ι → Stage) : Prop where
  made : Segment.Made writing g.shm procs
  mutex : g.shared.sem .MUTEX + tally (inLoop inMutex) procs + tally owesMutex procs + isTrue (!g.semExists) ≤ 1
  fill : g.shared.sem .FILL + tally (inLoop emptying) procs + tally (inLoop hasFilled) procs ≤ tally isTrue g.produced
  cells : ∀ k, CellOK (g.shm.set k) (g.produced k) (g.shared.data k)
  knows : ∀ p, Knows g.shm.set g.produced (procs p)

section Steps

variable {ι : Type*} [Fintype ι] {g g' : Ipc MAX} {procs : ι → Stage} {p : ι} {role : Role}

theorem fresh_up {s : Pool ι (Ipc MAX) Stage} (h : Fresh s) : Up s.shared s.procs := by
  obtain ⟨hg, hp⟩ := h
  have zero : ∀ w : Stage → ℕ, (∀ role, w (.init role .semget) = 0) → tally w s.procs = 0 :=
    fun w hw => tally_eq_zero.2 fun p => by
      obtain ⟨role, h⟩ := hp p
      rw [h, hw]
  rw [hg]
  refine ⟨.init fun p => ?_, ?_, ?_, fun k => rfl, fun p => ?_⟩
  · obtain ⟨role, h⟩ := hp p
    rw [h]
    rfl
  · rw [zero _ fun _ => rfl, zero _ fun _ => rfl]
    exact le_rfl
  · rw [zero _ fun _ => rfl, zero _ fun _ => rfl]
    exact Nat.zero_le _
  · obtain ⟨role, h⟩ := hp p
    rw [h]
    trivial

/-- Outside the critical section a process knows nothing that another can change. -/
theorem Knows.frame {set set' produced produced' : Fin MAX → Bool} {l : Stage} (h : Knows set produced l)
    (hl : inLoop inMutex l = 0) : Knows set' produced' l := by
  match l with
  | .init .. => exact h
  | .loop (.producer pc) => cases pc <;> first | exact h | cases hl
  | .loop (.consumer pc) => cases pc <;> first | exact h | cases hl

theorem Knows.mono {set set' produced : Fin MAX → Bool} {l : Stage} (h : Knows set produced l)
    (hs : ∀ k, set k = true → set' k = true) : Knows set' produced l := by
  match l with
  | .init .. => exact h
  | .loop (.producer pc) =>
    cases pc
    case store v i =>
      obtain ⟨hv, hi, h1, h2⟩ := h
      exact ⟨hv, hi, hs _ h1, h2⟩
    all_goals exact h
  | .loop (.consumer pc) => cases pc <;> exact h

variable [DecidableEq ι]

/-- One step of one process keeps the invariant when it moves the semaphores, the weights of the process and the
produced cells in balance, and writes or takes produced values only inside the critical section. -/
theorem Up.update {l l' : Stage} (hI : Up g procs) (hp : procs p = l)
    (hmade : Segment.Made writing g'.shm (Function.update procs p l'))
    (hm : g'.shared.sem .MUTEX + inLoop inMutex l' + owesMutex l' + isTrue (!g'.semExists) ≤
      g.shared.sem .MUTEX + inLoop inMutex l + owesMutex l + isTrue (!g.semExists))
    (hf : g'.shared.sem .FILL + inLoop emptying l' + inLoop hasFilled l' + tally isTrue g.produced ≤
      g.shared.sem .FILL + inLoop emptying l + inLoop hasFilled l + tally isTrue g'.produced)
    (hcells : ∀ k, CellOK (g'.shm.set k) (g'.produced k) (g'.shared.data k))
    (hl : Knows g'.shm.set g'.produced l') (hset : ∀ k, g.shm.set k = true → g'.shm.set k = true)
    (hd : g'.produced = g.produced ∨ inLoop inMutex l = 1) : Up g' (Function.update procs p l') := by
  subst hp
  have tm := tally_update (inLoop inMutex) procs p l'
  have tw := tally_update owesMutex procs p l'
  have te := tally_update (inLoop emptying) procs p l'
  have th := tally_update (inLoop hasFilled) procs p l'
  have hmutex := hI.mutex
  have hfill := hI.fill
  refine ⟨hmade, by omega, by omega, hcells, fun q => ?_⟩
  by_cases hq : q = p
  · subst hq
    rwa [Function.update_self]
  · rw [Function.update_of_ne hq]
    rcases hd with hd | hd
    · rw [hd]
      exact (hI.knows q).mono hset
    · -- the other processes are outside the critical section
      refine (hI.knows q).frame ?_
      by_contra hc
      exact hq (eq_of_tally_le_one (w := inLoop inMutex) (f := procs) (by omega) (by omega) (by omega))

/-- A step that touches nothing but the place of the process and maybe `sem_otime`. -/
theorem Up.move {l l' : Stage} (hI : Up g procs) (hp : procs p = l) (hw : writing l' = writing l)
    (hm : inLoop inMutex l' + owesMutex l' ≤ inLoop inMutex l + owesMutex l)
    (hf : inLoop emptying l' + inLoop hasFilled l' ≤ inLoop emptying l + inLoop hasFilled l)
    (hl : Knows g.shm.set g.produced l') : Up g (Function.update procs p l') :=
  hI.update hp (hI.made.keep (by rw [hw, hp])) (by omega) (by omega) hI.cells hl (fun _ => id) (.inl rfl)

/-- A process enters its loop. -/
theorem Up.enter (hI : Up g procs) (role : Role)
    (hmade : Segment.Made writing g.shm (Function.update procs p (.loop role.top))) :
    Up g (Function.update procs p (.loop role.top)) := by
  have hzero : inLoop inMutex (.loop role.top) = 0 ∧ owesMutex (.loop role.top) = 0 ∧
      inLoop emptying (.loop role.top) = 0 ∧ inLoop hasFilled (.loop role.top) = 0 := by
    cases role <;> exact ⟨rfl, rfl, rfl, rfl⟩
  obtain ⟨h1, h2, h3, h4⟩ := hzero
  refine hI.update rfl hmade (by omega) (by omega) hI.cells ?_ (fun _ => id) (.inl rfl)
  cases role <;> trivial

omit [Fintype ι] [DecidableEq ι] in
theorem CellOK.not_produced {produced : Bool} {v : ℤ} (h : CellOK false produced v) : produced = false := by
  cases produced with
  | false => rfl
  | true => cases h

omit [Fintype ι] [DecidableEq ι] in
/-- A produced value is in a cell that is set. -/
theorem CellOK.set_of_produced {set : Bool} {v : ℤ} (h : CellOK set true v) : set = true := by
  cases set with
  | false => cases h
  | true => rfl

omit [Fintype ι] [DecidableEq ι] in
/-- Only a cell that is set and holds no produced value is -1. -/
theorem CellOK.of_neg_one {set produced : Bool} (h : CellOK set produced (-1)) : set = true ∧ produced = false := by
  cases set <;> cases produced
  case true.false => exact ⟨rfl, rfl⟩
  all_goals simp [CellOK] at h

/-- The creator sets a cell. It is not set yet, so it holds no produced value. -/
theorem Up.write {i : ℕ} (hI : Up g procs) (hp : procs p = .init role (.write i)) (hi : i < MAX) :
    Up { g with
      shm := g.shm.write ⟨i, hi⟩
      shared := { g.shared with data := Function.update g.shared.data ⟨i, hi⟩ (-1) }
      produced := Function.update g.produced ⟨i, hi⟩ false }
      (Function.update procs p (.init role (.write (i + 1)))) := by
  have hwriting : writing (procs p) = some i := by rw [hp]; rfl
  have hunset : g.shm.set ⟨i, hi⟩ = false := by
    rw [← Bool.not_eq_true, hI.made.upTo p i hwriting]
    exact lt_irrefl i
  have hfree : g.produced ⟨i, hi⟩ = false := by
    have hcell := hI.cells ⟨i, hi⟩
    rw [hunset] at hcell
    exact hcell.not_produced
  have hproduced : Function.update g.produced ⟨i, hi⟩ false = g.produced := by
    rw [← hfree]
    exact Function.update_eq_self ..
  refine hI.update hp (hI.made.write hwriting hi rfl) le_rfl ?_ (fun k => ?_) trivial Segment.set_write
    (.inl hproduced)
  · rw [hproduced]
    exact le_rfl
  · rw [hproduced]
    by_cases hk : k = ⟨i, hi⟩
    · subst hk
      simp only [Segment.write, Function.update_self, hfree]
      rfl
    · simp only [Segment.write, Function.update_of_ne hk]
      exact hI.cells k

/-- A step of `init_sem` or `init_shm`. -/
theorem up_init {pc : Init} {next : Option Init} (hI : Up g procs) (hp : procs p = .init role pc)
    (h : init g pc = some (g', next)) :
    Up g' (Function.update procs p ((next.map (Stage.init role)).getD (.loop role.top))) := by
  cases pc with
  | semget =>
    simp only [init] at h
    split at h
    · cases h
      exact hI.move hp rfl le_rfl le_rfl trivial
    · rename_i he
      rw [Bool.not_eq_true] at he
      cases h
      refine hI.update hp (hI.made.keep (by rw [hp]; rfl)) ?_ le_rfl hI.cells trivial (fun _ => id) (.inl rfl)
      rw [he]
      exact le_rfl
  | upMutex =>
    simp only [init] at h
    obtain ⟨s, hs, he⟩ := Option.map_eq_some_iff.1 h
    cases he
    cases semUp_eq_some.1 hs
    refine hI.update hp (hI.made.keep (by rw [hp]; rfl)) ?_ le_rfl hI.cells trivial (fun _ => id) (.inl rfl)
    simp only [Function.update_self, Option.map_some, Option.getD_some, inLoop, owesMutex]
    omega
  | upEmpty =>
    simp only [init] at h
    obtain ⟨s, hs, he⟩ := Option.map_eq_some_iff.1 h
    cases he
    simp only [changeSem, Bool.false_eq_true, if_false] at hs
    split at hs
    · cases hs
      exact hI.update hp (hI.made.keep (by rw [hp]; rfl)) le_rfl le_rfl hI.cells trivial (fun _ => id) (.inl rfl)
    · cases hs
  | semgetExisting =>
    cases h
    exact hI.move hp rfl le_rfl le_rfl trivial
  | waitOtime =>
    simp only [init] at h
    split at h <;> cases h <;> exact hI.move hp rfl le_rfl le_rfl trivial
  | shmget =>
    simp only [init] at h
    split at h
    · cases h
      exact hI.move hp rfl le_rfl le_rfl trivial
    · rename_i ha
      rw [Bool.not_eq_true] at ha
      cases h
      have hnone := (hI.made.absent ha).1
      refine hI.update hp (hI.made.create ha rfl) le_rfl le_rfl (fun k => ?_) trivial (fun k hk => ?_) (.inl rfl)
      · have hcell := hI.cells k
        rw [hnone k] at hcell
        show CellOK false (g.produced k) 0
        rw [hcell.not_produced]
        rfl
      · rw [hnone k] at hk
        cases hk
  | shmatNew =>
    cases h
    exact hI.move hp rfl le_rfl le_rfl trivial
  | write i =>
    simp only [init] at h
    split at h
    · rename_i hi
      cases h
      exact hI.write hp hi
    · rename_i hi
      cases h
      have hwriting : writing (procs p) = some i := by rw [hp]; rfl
      exact hI.enter role (hI.made.finish hwriting hi rfl).1
  | shmgetExisting =>
    cases h
    exact hI.move hp rfl le_rfl le_rfl trivial
  | shmatExisting =>
    cases h
    exact hI.enter role (hI.made.keep (by rw [hp]; rfl))

omit [DecidableEq ι] in
/-- A consumer with a unit of `FILL` has a produced value to find. -/
theorem Up.exists_produced (hI : Up g procs) (hp : 0 < inLoop emptying (procs p)) : ∃ j, g.produced j = true := by
  have hle := le_tally (inLoop emptying) procs p
  have hfill := hI.fill
  obtain ⟨j, hj⟩ := exists_of_tally_pos (w := isTrue) (f := g.produced) (by omega)
  refine ⟨j, ?_⟩
  cases h : g.produced j
  · rw [h] at hj
    cases hj
  · rfl

omit [DecidableEq ι] in
/-- The value on which the scan of a consumer stops is a produced one: the cells not yet set are behind it. -/
theorem Up.produced_of_ne (hI : Up g procs) (hp : 0 < inLoop emptying (procs p)) {i : Fin MAX}
    (hskip : ∀ k : Fin MAX, k.val < i.val → g.produced k = false) (hd : g.shared.data i ≠ -1) :
    g.produced i = true := by
  obtain ⟨j, hj⟩ := hI.exists_produced hp
  have hset : g.shm.set j = true := CellOK.set_of_produced (hj ▸ hI.cells j)
  have hij : i ≤ j := by
    by_contra hlt
    rw [hskip j (not_le.1 hlt)] at hj
    cases hj
  have hcell := hI.cells i
  rw [hI.made.closed i j hij hset] at hcell
  cases hi : g.produced i with
  | true => rfl
  | false =>
    rw [hi] at hcell
    exact absurd hcell hd

/-- The histories and the cells after a produced value is stored or taken. -/
theorem CellOK.store {set produced : Fin MAX → Bool} {data : Fin MAX → ℤ} {i : Fin MAX} {b : Bool} {v : ℤ}
    (h : ∀ k, CellOK (set k) (produced k) (data k)) (hi : CellOK (set i) b v) (k : Fin MAX) :
    CellOK (set k) (Function.update produced i b k) (Function.update data i v k) := by
  by_cases hk : k = i
  · subst hk
    rwa [Function.update_self, Function.update_self]
  · rw [Function.update_of_ne hk, Function.update_of_ne hk]
    exact h k

/-- A step of a producer in its loop. -/
theorem up_producer {rand : ℕ} {pc pc' : Producer} {s : Shared MAX} (hI : Up g procs)
    (hp : procs p = .loop (.producer pc)) (h : ProducerStep rand g.shared pc s pc') :
    Up { g with shared := s, produced := noteProduced g.produced (.producer pc) }
      (Function.update procs p (.loop (.producer pc'))) := by
  have hl := hI.knows p
  rw [hp] at hl
  have hmade : Segment.Made writing g.shm (Function.update procs p (.loop (.producer pc'))) :=
    hI.made.keep (by rw [hp]; rfl)
  cases h with
  | top =>
    refine hI.update hp hmade le_rfl le_rfl hI.cells ?_ (fun _ => id) (.inl rfl)
    show (rand : ℤ) % 30000 ≠ -1
    omega
  | downEmpty v h => exact hI.update hp hmade le_rfl le_rfl hI.cells hl (fun _ => id) (.inl rfl)
  | downMutex v h =>
    refine hI.update hp hmade ?_ le_rfl hI.cells hl (fun _ => id) (.inl rfl)
    simp only [Function.update_self, inLoop, inMutex, owesMutex]
    omega
  | scanNext v i hi h => exact hI.update hp hmade le_rfl le_rfl hI.cells hl (fun _ => id) (.inl rfl)
  | scanStop v i hi h =>
    refine hI.update hp hmade le_rfl le_rfl hI.cells ⟨hl, hi, ?_⟩ (fun _ => id) (.inl rfl)
    have hcell := hI.cells ⟨i, hi⟩
    rw [h] at hcell
    exact hcell.of_neg_one
  | scanOutside v i hi =>
    exact hI.update hp hmade (by simp only [inLoop, inMutex, owesMutex]; omega) le_rfl hI.cells trivial (fun _ => id)
      (.inl rfl)
  | store v i hi =>
    -- the cell goes over to the produced ones, and `FILL` is raised for it later
    obtain ⟨hv, hi', hset, hfree⟩ := hl
    have htally := tally_update isTrue g.produced ⟨i, hi⟩ true
    rw [hfree] at htally
    have hnote : noteProduced g.produced (.producer (.store v i)) = Function.update g.produced ⟨i, hi⟩ true :=
      dif_pos hi
    rw [hnote]
    refine hI.update hp hmade le_rfl ?_ (CellOK.store hI.cells ?_) trivial (fun _ => id) (.inr rfl)
    · simp only [isTrue, Bool.false_eq_true, if_false, if_true, inLoop, emptying, hasFilled] at htally ⊢
      omega
    · rw [hset]
      exact hv
  | storeOutside v i hi => exact absurd hl.2.1 hi
  | upMutex v i => exact hI.update hp hmade le_rfl le_rfl hI.cells trivial (fun _ => id) (.inl rfl)
  | upFill v i => exact hI.update hp hmade le_rfl le_rfl hI.cells trivial (fun _ => id) (.inl rfl)
  | print v i => exact hI.update hp hmade le_rfl le_rfl hI.cells trivial (fun _ => id) (.inl rfl)

/-- A step of a consumer in its loop. -/
theorem up_consumer {pc pc' : Consumer} {s : Shared MAX} (hI : Up g procs)
    (hp : procs p = .loop (.consumer pc)) (h : ConsumerStep g.shared pc s pc') :
    Up { g with shared := s, produced := noteProduced g.produced (.consumer pc) }
      (Function.update procs p (.loop (.consumer pc'))) := by
  have hl := hI.knows p
  rw [hp] at hl
  have hmade : Segment.Made writing g.shm (Function.update procs p (.loop (.consumer pc'))) :=
    hI.made.keep (by rw [hp]; rfl)
  cases h with
  | downFill h =>
    refine hI.update hp hmade le_rfl ?_ hI.cells trivial (fun _ => id) (.inl rfl)
    show g.shared.sem .FILL - 1 + 1 + 0 + tally isTrue g.produced ≤ _ + 0 + 0 + tally isTrue g.produced
    omega
  | downMutex h =>
    refine hI.update hp hmade ?_ le_rfl hI.cells (fun k hk => absurd hk (Nat.not_lt_zero _)) (fun _ => id) (.inl rfl)
    simp only [Function.update_self, inLoop, inMutex, owesMutex]
    omega
  | scanNext i hi h =>
    refine hI.update hp hmade le_rfl le_rfl hI.cells (fun k hk => ?_) (fun _ => id) (.inl rfl)
    rcases Nat.lt_succ_iff_lt_or_eq.1 hk with hk | rfl
    · exact hl k hk
    · have hcell := hI.cells k
      rw [h] at hcell
      exact hcell.of_neg_one.2
  | scanStop i hi h =>
    -- this consumer has lowered `FILL`, so there is a produced value, and none in the cells passed
    have hfound := hI.produced_of_ne (p := p) (by rw [hp]; exact Nat.one_pos) (i := ⟨i, hi⟩) hl h
    exact hI.update hp hmade le_rfl le_rfl hI.cells ⟨hi, hfound⟩ (fun _ => id) (.inl rfl)
  | scanOutside i hi =>
    refine hI.update hp hmade (by simp only [inLoop, inMutex, owesMutex]; omega) ?_ hI.cells trivial (fun _ => id)
      (.inl rfl)
    show g.shared.sem .FILL + 0 + 0 + tally isTrue g.produced ≤ g.shared.sem .FILL + 1 + 0 + tally isTrue g.produced
    omega
  | read i hi => exact hI.update hp hmade le_rfl le_rfl hI.cells hl (fun _ => id) (.inl rfl)
  | readOutside i hi => exact absurd hl.1 hi
  | reset i v hi =>
    obtain ⟨hi', hheld⟩ := hl
    have htally := tally_update isTrue g.produced ⟨i, hi⟩ false
    rw [hheld] at htally
    have hset : g.shm.set ⟨i, hi⟩ = true := CellOK.set_of_produced (hheld ▸ hI.cells ⟨i, hi⟩)
    have hnote : noteProduced g.produced (.consumer (.reset i v)) = Function.update g.produced ⟨i, hi⟩ false :=
      dif_pos hi
    rw [hnote]
    refine hI.update hp hmade le_rfl ?_ (CellOK.store hI.cells ?_) trivial (fun _ => id) (.inr rfl)
    · simp only [isTrue, Bool.false_eq_true, if_false, if_true, inLoop, emptying, hasFilled] at htally ⊢
      omega
    · rw [hset]
      rfl
  | resetOutside i v hi => exact absurd hl.1 hi
  | upMutex i v => exact hI.update hp hmade le_rfl le_rfl hI.cells trivial (fun _ => id) (.inl rfl)
  | upEmpty i v => exact hI.update hp hmade le_rfl le_rfl hI.cells trivial (fun _ => id) (.inl rfl)
  | print i v => exact hI.update hp hmade le_rfl le_rfl hI.cells trivial (fun _ => id) (.inl rfl)

theorem reachable_up {s : Pool ι (Ipc MAX) Stage} (h : (startup ι MAX).Reachable s) : Up s.shared s.procs := by
  refine Program.invariant (fun _ => fresh_up) ?_ h
  intro g procs p rand g' l' hI hs
  cases hp : procs p with
  | init role pc =>
    rw [hp] at hs
    obtain ⟨⟨g₁, next⟩, hpc, he⟩ := Option.map_eq_some_iff.1 hs
    cases he
    exact up_init hI hp hpc
  | loop l =>
    rw [hp] at hs
    obtain ⟨⟨s, l₁⟩, hl, he⟩ := Option.map_eq_some_iff.1 hs
    cases he
    cases l with
    | producer pc =>
      obtain ⟨⟨s₁, pc'⟩, hpc, he⟩ := Option.map_eq_some_iff.1 hl
      cases he
      exact up_producer hI hp (producer_cases hpc)
    | consumer pc =>
      obtain ⟨⟨s₁, pc'⟩, hpc, he⟩ := Option.map_eq_some_iff.1 hl
      cases he
      exact up_consumer hI hp (consumer_cases hpc)

end Steps

/-! ## Early attachment -/

/-- The process has found the segment existing, or is past `init_shm`. -/
def uses : Stage → Bool
  | .init _ .shmgetExisting | .init _ .shmatExisting | .loop _ => true
  | _ => false

/-- The process is at its first `shmget`. -/
def atShmget : Stage → Bool
  | .init _ .shmget => true
  | _ => false

/-- The process finds the segment existing while its creator still has cells to set. -/
def Early {ι : Type*} (s : Pool ι (Ipc MAX) Stage) (p : ι) : Prop :=
  atShmget (s.procs p) = true ∧ s.shared.shm.present = true ∧ ¬ s.shared.shm.Full

instance {ι : Type*} (s : Pool ι (Ipc MAX) Stage) (p : ι) : Decidable (Early s p) := inferInstanceAs (Decidable (_ ∧ _))

/-- No initialising write hits a cell that holds a produced value. -/
def Unharmed {ι : Type*} (s : Pool ι (Ipc MAX) Stage) : Prop :=
  ∀ p role i (h : i < MAX), s.procs p = .init role (.write i) → s.shared.produced ⟨i, h⟩ = false

/-- Nobody is in its loop before all cells are set. -/
def Prepared {ι : Type*} (s : Pool ι (Ipc MAX) Stage) : Prop :=
  ∀ p l, s.procs p = .loop l → s.shared.shm.Full

section Results

variable {ι : Type*} {s s' : Pool ι (Ipc MAX) Stage} {g g' : Ipc MAX} {procs : ι → Stage} {p : ι}

theorem Up.unharmed [Fintype ι] (hI : Up s.shared s.procs) : Unharmed s := by
  intro p role i hi hp
  have hunset : s.shared.shm.set ⟨i, hi⟩ = false := by
    rw [← Bool.not_eq_true, hI.made.upTo p i (by rw [hp]; rfl)]
    exact lt_irrefl i
  have hcell := hI.cells ⟨i, hi⟩
  rw [hunset] at hcell
  exact hcell.not_produced

variable [DecidableEq ι]

/-- When nobody attaches early, whoever uses the segment finds it full. -/
theorem ready_init [Fintype ι] {role : Role} {pc : Init} {next : Option Init} (hI : Up g procs)
    (hR : Segment.Ready uses g.shm procs) (hp : procs p = .init role pc)
    (hok : pc = .shmget → g.shm.present = true → g.shm.Full) (h : init g pc = some (g', next)) :
    Segment.Ready uses g'.shm (Function.update procs p ((next.map (Stage.init role)).getD (.loop role.top))) := by
  cases pc with
  | semget =>
    simp only [init] at h
    split at h <;> cases h <;> exact hR.step (fun _ => id) nofun
  | upMutex | upEmpty =>
    simp only [init] at h
    obtain ⟨s, -, he⟩ := Option.map_eq_some_iff.1 h
    cases he
    exact hR.step (fun _ => id) nofun
  | semgetExisting | shmatNew =>
    cases h
    exact hR.step (fun _ => id) nofun
  | waitOtime =>
    simp only [init] at h
    split at h <;> cases h <;> exact hR.step (fun _ => id) nofun
  | shmget =>
    simp only [init] at h
    split at h
    · rename_i hpresent
      cases h
      -- the process attaches to a segment of which every cell is set
      exact hR.step (fun _ => id) fun _ => .inr (hok rfl hpresent)
    · rename_i habsent
      rw [Bool.not_eq_true] at habsent
      cases h
      -- the segment is new: no cell of it is set
      refine hR.step (fun k hk => ?_) nofun
      rw [(hI.made.absent habsent).1 k] at hk
      cases hk
  | write i =>
    simp only [init] at h
    split at h
    · cases h
      exact hR.step Segment.set_write nofun
    · rename_i hi
      cases h
      exact hR.step (fun _ => id) fun _ =>
        .inr (hI.made.finish (l := .loop role.top) (by rw [hp]; rfl) hi rfl).2
  | shmgetExisting | shmatExisting =>
    cases h
    exact hR.step (fun _ => id) fun _ => .inl (by rw [hp]; rfl)

theorem reachable_ready [Fintype ι] (h : (startup ι MAX).ReachableIf (fun s a => ¬ Early s a.1) s) :
    Segment.Ready uses s.shared.shm s.procs := by
  refine h.invariant (I := fun s => Segment.Ready uses s.shared.shm s.procs) ?_ ?_
  · rintro s ⟨-, hp⟩ p hu
    obtain ⟨role, hrole⟩ := hp p
    rw [hrole] at hu
    cases hu
  · rintro s ⟨p, rand⟩ s' hs hR hok hn
    have hI := reachable_up hs
    obtain ⟨g', l', hl, rfl⟩ := (Program.next_eq_some (P := launch ι MAX)).1 hn
    dsimp only [launch] at hl
    cases hp : s.procs p with
    | init role pc =>
      rw [hp] at hl
      obtain ⟨⟨g₁, next⟩, hpc, he⟩ := Option.map_eq_some_iff.1 hl
      cases he
      refine ready_init hI hR hp (fun hpc hpresent => ?_) hpc
      by_contra hfull
      exact hok ⟨by rw [hp, hpc]; rfl, hpresent, hfull⟩
    | loop l =>
      rw [hp] at hl
      obtain ⟨⟨_, _⟩, -, he⟩ := Option.map_eq_some_iff.1 hl
      cases he
      exact hR.step (fun _ => id) fun _ => .inl (by rw [hp]; rfl)

/-- A process that attaches early can be in its loop before anybody else takes a step. -/
theorem early_unprepared (he : Early s p) :
    ∃ s', (startup ι MAX).run s [(p, 0), (p, 0), (p, 0)] = some s' ∧ ¬ Prepared s' := by
  obtain ⟨hat, hpresent, hfull⟩ := he
  obtain ⟨role, hp⟩ : ∃ role, s.procs p = .init role .shmget := by
    unfold atShmget at hat
    split at hat
    · rename_i role h
      exact ⟨role, h⟩
    · cases hat
  refine ⟨⟨s.shared, Function.update s.procs p (.loop role.top)⟩, ?_, fun hprep => ?_⟩
  · simp [System.run, startup, Program.system, Program.next, launch, boot, init, hp, hpresent]
  · exact hfull (hprep p role.top (Function.update_self ..))

end Results

/-- In every run: no initialising write hits a produced value; when no process finds the segment existing while
its creator still has cells to set, nobody is in its loop before all cells are set; and a process that does find
it so gets into its loop before that by its own next steps. -/
theorem prepared_unless_early {ι : Type*} [Fintype ι] [DecidableEq ι] {MAX : ℕ} :
    (∀ s, (startup ι MAX).ReachableIf (fun s a => ¬ Early s a.1) s → Prepared s) ∧
    (∀ s, (startup ι MAX).Reachable s → Unharmed s) ∧
    (∀ s p, (startup ι MAX).Reachable s → Early s p →
      ∃ s', (startup ι MAX).run s [(p, 0), (p, 0), (p, 0)] = some s' ∧ ¬ Prepared s') :=
  ⟨fun _ h p _ hp => reachable_ready h p (by rw [hp]; rfl), fun _ h => (reachable_up h).unharmed,
    fun _ _ _ he => early_unprepared he⟩

/-- A producer and a consumer. -/
def off (MAX : ℕ) : Pool (Fin 2) (Ipc MAX) Stage :=
  ⟨⟨false, false, .absent MAX, ⟨fun _ => 0, fun _ => 0, 0, 0⟩, fun _ => false⟩,
    ![.init .producer .semget, .init .consumer .semget]⟩

theorem off_fresh (MAX : ℕ) : Fresh (off MAX) :=
  ⟨rfl, fun p => by fin_cases p; exacts [⟨.producer, rfl⟩, ⟨.consumer, rfl⟩]⟩

/-- The producer creates everything and sets its three cells, then the consumer attaches. -/
def inOrder : List (Fin 2 × ℕ) := List.flatten [List.replicate 9 (0, 0), List.replicate 6 (1, 0)]

theorem prepared_unless_early_inOrder : ∃ s, (startup (Fin 2) 3).run (off 3) inOrder = some s ∧
    s.procs 1 = .loop (.consumer .downFill) ∧ Prepared s ∧ Unharmed s := by
  obtain ⟨s, hs, hrun, hp⟩ : ∃ s, (startup (Fin 2) 3).runIf (fun s a => ¬ Early s a.1) (off 3) inOrder = some s ∧
    (startup (Fin 2) 3).run (off 3) inOrder = some s ∧ s.procs 1 = .loop (.consumer .downFill) := ⟨_, rfl, rfl, rfl⟩
  have hreach := System.ReachableIf.runIf inOrder (.init (off_fresh 3)) hs
  exact ⟨s, hrun, hp, prepared_unless_early.1 s hreach, prepared_unless_early.2.1 s hreach.reachable⟩

/-- The producer creates the semaphores and the segment, and before it sets a cell the consumer gets through. -/
def overtaken : List (Fin 2 × ℕ) := List.flatten [List.replicate 4 (0, 0), List.replicate 6 (1, 0)]

theorem overtaken_unprepared : ¬ ∀ s, (startup (Fin 2) 50).Reachable s → Prepared s ∧ Unharmed s := by
  intro h
  obtain ⟨s, hs, hp, h0⟩ : ∃ s, (startup (Fin 2) 50).run (off 50) overtaken = some s ∧
    s.procs 1 = .loop (.consumer .downFill) ∧ s.shared.shm.set 0 = false := ⟨_, rfl, rfl, rfl⟩
  have hfull := (h s (System.Reachable.run overtaken (.init (off_fresh 50)) hs)).1 1 _ hp 0
  rw [h0] at hfull
  cases hfull

end Sysopy.ProdCons
