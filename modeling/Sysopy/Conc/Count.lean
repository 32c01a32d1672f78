/-
A process that counts one signal in its handler and waits in its main code until the handler of another has
cleared a variable. Whoever sends it the counted signal finds it again as counted, as pending, or with a handler
that has not counted it yet; the second signal tells the process that no more will come.
-/
import Sysopy.Conc.Signal

namespace Sysopy.Conc

variable {Sig V M F : Type*} [DecidableEq Sig] [DecidableEq F]

/-! ## How signals are kept -/

/-- No signal is kept twice, and at least one of them is. -/
def Delivery.Sound (D : Delivery Sig) : Prop := ∀ k, 0 < D.post k ∧ D.post k ≤ k + 1

/-- Every signal is kept. -/
def Delivery.Lossless (D : Delivery Sig) : Prop := ∀ k, D.post k = k + 1

/-- What may have arrived of the signals sent. -/
structure Arrived (D : Delivery Sig) (sent arrived : ℕ) : Prop where
  le : arrived ≤ sent
  pos : 0 < sent → 0 < arrived
  eq : D.Lossless → arrived = sent

omit [DecidableEq Sig] in
theorem Arrived.zero (D : Delivery Sig) : Arrived D 0 0 := ⟨le_rfl, id, fun _ => rfl⟩

omit [DecidableEq Sig] in
/-- One more signal is sent. -/
theorem Arrived.send {D : Delivery Sig} (hD : D.Sound) {sent x k : ℕ} (h : Arrived D sent (x + k)) :
    Arrived D (sent + 1) (x + D.post k) := by
  obtain ⟨hle, -, heq⟩ := h
  obtain ⟨hpos, hpost⟩ := hD k
  refine ⟨by omega, fun _ => by omega, fun hl => ?_⟩
  rw [hl k, ← heq hl]
  omega

/-! ## Counters -/

/-- The signal that is counted and the one that ends, where a handler begins, and the two variables. -/
structure Counter (Sig V F : Type*) where
  count : Sig
  stop : Sig
  entry : F
  received : V → ℕ
  loop : V → ℕ

namespace Counter

/-- The code counts the one signal and ends with the other, and its handlers send nothing. -/
structure Of (K : Counter Sig V F) (C : Code Sig V M F) : Prop where
  ne : K.count ≠ K.stop
  only : ∀ s, s = K.count ∨ s = K.stop
  entry : C.entry = K.entry
  main : ∀ {v m v' m' o}, C.main v m = some (v', m', o) → K.received v' = K.received v ∧ K.loop v' = K.loop v
  counts : ∀ {v v' f o}, C.handler K.count v K.entry = (v', f, o) →
    K.received v' = K.received v + 1 ∧ K.loop v' = K.loop v
  stops : ∀ {v v' f o}, C.handler K.stop v K.entry = (v', f, o) → K.received v' = K.received v ∧ K.loop v' = 0
  rest : ∀ {s v f v' f' o}, C.handler s v f = (v', f', o) → f ≠ K.entry →
    K.received v' = K.received v ∧ K.loop v' = K.loop v
  leaves : ∀ {s v f v' f' o}, C.handler s v f = (v', some f', o) → f' ≠ K.entry
  silent : ∀ {s v f v' f' o}, C.handler s v f = (v', f', o) → o = none

variable {K : Counter Sig V F} {C : Code Sig V M F} {D : Delivery Sig} {p p' : Process Sig V M F} {o : Option Sig}

/-- A handler of the counted signal that has not counted it yet. -/
def waiting (K : Counter Sig V F) (f : Sig × F) : ℕ := if f = (K.count, K.entry) then 1 else 0

/-- The counted signals that have arrived: counted, pending, or about to be counted. -/
def arrived (K : Counter Sig V F) (p : Process Sig V M F) : ℕ :=
  K.received p.vars + p.load K.waiting + p.pending K.count

/-- The second signal has arrived. -/
def Told (K : Counter Sig V F) (p : Process Sig V M F) : Prop :=
  K.loop p.vars = 0 ∨ 0 < p.pending K.stop ∨ K.stop ∈ p.frames.map Prod.fst

/-- Everything that has arrived is counted. -/
def Settled (K : Counter Sig V F) (p : Process Sig V M F) : Prop := K.arrived p = K.received p.vars

theorem waiting_of_ne {s : Sig} {f : F} (h : f ≠ K.entry) : K.waiting (s, f) = 0 :=
  if_neg fun he => h (Prod.ext_iff.1 he).2

theorem waiting_stop (hK : K.Of C) (f : F) : K.waiting (K.stop, f) = 0 :=
  if_neg fun he => hK.ne (Prod.ext_iff.1 he).1.symm

theorem settled_of_quiet (h : p.Quiet) : K.Settled p := by
  rw [Settled, arrived, Process.load_of_nil _ h.1, h.2]
  rfl

theorem received_le : K.received p.vars ≤ K.arrived p := by
  unfold arrived
  omega

/-! ## The steps of the process -/

/-- A handler adds to the count when it has not counted its signal yet. -/
theorem Of.received_eq (hK : K.Of C) {s : Sig} {v v' : V} {f : F} {f' : Option F} (h : C.handler s v f = (v', f', o)) :
    K.received v' = K.received v + K.waiting (s, f) := by
  by_cases hentry : f = K.entry
  · subst hentry
    rcases hK.only s with rfl | rfl
    · rw [(hK.counts h).1, show K.waiting (K.count, K.entry) = 1 from if_pos rfl]
    · rw [(hK.stops h).1, waiting_stop hK, Nat.add_zero]
  · rw [(hK.rest h hentry).1, waiting_of_ne hentry, Nat.add_zero]

omit [DecidableEq Sig] [DecidableEq F] in
theorem Of.loop_eq (hK : K.Of C) {s : Sig} {v v' : V} {f : F} {f' : Option F} (h : C.handler s v f = (v', f', o))
    (hs : s ≠ K.stop) : K.loop v' = K.loop v := by
  by_cases hentry : f = K.entry
  · subst hentry
    obtain rfl := (hK.only s).resolve_right hs
    exact (hK.counts h).2
  · exact (hK.rest h hentry).2

/-- A step of the process itself neither loses nor makes a signal, and takes no count back. -/
theorem Of.arrived_eq [Fintype Sig] (hK : K.Of C) {a : Act Sig} (h : C.Steps D p a p' o) :
    K.arrived p' = K.arrived p ∧ K.received p.vars ≤ K.received p'.vars := by
  unfold arrived
  cases h with
  | main hq h =>
    have hr := (hK.main h).1
    exact ⟨by rw [← hr]; rfl, hr.ge⟩
  | @handler s f rest v f' o he hf h =>
    have hr := hK.received_eq h
    rw [Process.load_of_cons K.waiting hf, Process.load_of_cons K.waiting rfl, waiting_of_ne (hK.leaves h)]
    dsimp only
    omega
  | @ret s f rest v o he hf h =>
    have hr := hK.received_eq h
    rw [Process.load_of_cons K.waiting hf]
    dsimp only [Process.load]
    omega
  | @start s he h =>
    -- a pending signal becomes a handler that has not counted yet
    have hpos := h.1
    rw [Process.load_of_cons K.waiting rfl, hK.entry]
    dsimp only [Process.start]
    rcases hK.only s with rfl | rfl
    · rw [show K.waiting (K.count, K.entry) = 1 from if_pos rfl, Function.update_self]
      show _ + (1 + p.load K.waiting) + _ = _ ∧ _
      omega
    · rw [waiting_stop hK, Function.update_of_ne hK.ne]
      show _ + (0 + p.load K.waiting) + _ = _ ∧ _
      omega

theorem Of.settled [Fintype Sig] (hK : K.Of C) {a : Act Sig} (h : C.Steps D p a p' o) (hs : K.Settled p) :
    K.Settled p' ∧ K.received p'.vars = K.received p.vars := by
  obtain ⟨ha, hr⟩ := hK.arrived_eq h
  have hle : K.received p'.vars ≤ K.arrived p' := received_le
  unfold Settled at *
  omega

omit [DecidableEq F] in
/-- The process does not tell itself. -/
theorem Of.told [Fintype Sig] (hK : K.Of C) {a : Act Sig} (h : C.Steps D p a p' o) (ht : K.Told p') : K.Told p := by
  unfold Told at *
  cases h with
  | main hq h =>
    rw [← (hK.main h).2]
    exact ht
  | @handler s f rest v f' o he hf h =>
    rw [hf]
    by_cases hs : s = K.stop
    · exact .inr (.inr (by rw [hs]; exact List.mem_cons_self))
    · rw [← hK.loop_eq h hs]
      exact ht
  | @ret s f rest v o he hf h =>
    rw [hf]
    by_cases hs : s = K.stop
    · exact .inr (.inr (by rw [hs]; exact List.mem_cons_self))
    · rw [← hK.loop_eq h hs]
      exact ht.imp_right fun h => h.imp_right (List.mem_cons_of_mem _)
  | @start s he h =>
    by_cases hs : s = K.stop
    · subst hs
      exact .inr (.inl h.1)
    · refine ht.imp_right fun ht => ht.imp (fun hp => ?_) fun hm => ?_
      · have hsame : (p.start s C.entry).pending K.stop = p.pending K.stop := Function.update_of_ne (Ne.symm hs) ..
        rwa [hsame] at hp
      · exact (List.mem_cons.1 hm).resolve_left (Ne.symm hs)

omit [DecidableEq F] in
/-- The handlers leave the main code where it is and send nothing. -/
theorem Of.main_eq [Fintype Sig] (hK : K.Of C) {a : Act Sig} (h : C.Steps D p a p' o) (ha : a ≠ .main) :
    p'.main = p.main ∧ o = none := by
  cases h with
  | main => exact absurd rfl ha
  | handler _ _ h | ret _ _ h => exact ⟨rfl, hK.silent h⟩
  | start => exact ⟨rfl, rfl⟩

/-! ## What is sent to the process -/

theorem arrived_post_count : K.arrived (p.post D (some K.count)) =
    K.received p.vars + p.load K.waiting + D.post (p.pending K.count) := by
  simp [arrived]

theorem arrived_post_stop (hK : K.Of C) : K.arrived (p.post D (some K.stop)) = K.arrived p := by
  simp [arrived, Process.post_some_of_ne hK.ne]

omit [DecidableEq F] in
theorem told_post_count (hK : K.Of C) (h : K.Told (p.post D (some K.count))) : K.Told p := by
  unfold Told at *
  rwa [Process.post_vars, Process.post_frames, Process.post_some_of_ne hK.ne.symm] at h

/-! ## One direction -/

/-- What is sent to a process against what it has: the counted signals sent, whether the second one is, and
whether the process has seen it. -/
structure Toward (D : Delivery Sig) (K : Counter Sig V F) (sent : ℕ) (finished : Prop) (p : Process Sig V M F)
    (out : Prop) : Prop where
  arrived : Arrived D sent (K.arrived p)
  told : K.Told p → finished
  settled : out → K.Settled p ∧ finished

namespace Toward

variable {sent : ℕ} {finished finished' out out' : Prop}

/-- A counted signal is sent. -/
theorem sendCount (h : Toward D K sent finished p out) (hK : K.Of C) (hD : D.Sound) (hf : ¬ finished) :
    Toward D K (sent + 1) finished' (p.post D (some K.count)) out := by
  refine ⟨?_, fun ht => absurd (h.told (told_post_count hK ht)) hf, fun ho => absurd (h.settled ho).2 hf⟩
  rw [arrived_post_count]
  exact h.arrived.send hD

/-- The second signal is sent. -/
theorem sendStop (h : Toward D K sent finished p out) (hK : K.Of C) (hf : ¬ finished) (hf' : finished') :
    Toward D K sent finished' (p.post D (some K.stop)) out := by
  refine ⟨?_, fun _ => hf', fun ho => absurd (h.settled ho).2 hf⟩
  rw [arrived_post_stop hK]
  exact h.arrived

/-- The sender goes on without sending. -/
theorem sendNone (h : Toward D K sent finished p out) (hf : finished → finished') :
    Toward D K sent finished' (p.post D none) out :=
  ⟨h.arrived, fun ht => hf (h.told ht), fun ho => ⟨(h.settled ho).1, hf (h.settled ho).2⟩⟩

/-- The process takes a step; it is out when its main code has seen that its variable is cleared. -/
theorem step [Fintype Sig] (h : Toward D K sent finished p out) (hK : K.Of C) {a : Act Sig}
    (hs : C.Steps D p a p' o) (hout : out' → out ∨ (p.Quiet ∧ K.loop p.vars = 0)) :
    Toward D K sent finished p' out' := by
  refine ⟨(hK.arrived_eq hs).1 ▸ h.arrived, fun ht => h.told (hK.told hs ht), fun ho => ?_⟩
  rcases hout ho with ho | ⟨hq, hloop⟩
  · exact ⟨(hK.settled hs (h.settled ho).1).1, (h.settled ho).2⟩
  · exact ⟨(hK.settled hs (settled_of_quiet hq)).1, h.told (.inl hloop)⟩

/-- A process that is out has counted what was sent to it, as far as it was kept. -/
theorem received (h : Toward D K sent finished p out) (ho : out) : Arrived D sent (K.received p.vars) :=
  (h.settled ho).1 ▸ h.arrived

end Toward

end Counter

end Sysopy.Conc
