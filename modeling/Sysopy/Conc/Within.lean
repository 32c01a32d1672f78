/-
What a system can still be brought to: runs of a bounded length whose labels are of a certain kind, from any state.
A state that a weight leads to, step by step, is reached within the weight.
-/
import Sysopy.Conc.Pool

namespace Sysopy.Conc

namespace System

variable {σ α : Type*} {S : System σ α} {ok : α → Prop} {n m : ℕ} {s s₁ s₂ s' : σ}

/-- A run of at most `n` labels of the kind leads from the first state to the second. -/
def Within (S : System σ α) (ok : α → Prop) (n : ℕ) (s s' : σ) : Prop :=
  ∃ as : List α, as.length ≤ n ∧ (∀ a ∈ as, ok a) ∧ S.run s as = some s'

theorem Within.refl (s : σ) : S.Within ok n s s :=
  ⟨[], Nat.zero_le n, fun _ ha => absurd ha List.not_mem_nil, rfl⟩

theorem Within.mono (h : S.Within ok n s s') (hle : n ≤ m) : S.Within ok m s s' := by
  obtain ⟨as, hlength, hok, hrun⟩ := h
  exact ⟨as, hlength.trans hle, hok, hrun⟩

theorem Within.step {a : α} (hok : ok a) (hs : S.next s a = some s') : S.Within ok 1 s s' := by
  refine ⟨[a], le_rfl, ?_, ?_⟩
  · intro b hb
    rwa [List.mem_singleton.1 hb]
  · simp only [run, hs, Option.bind_some]

theorem Within.trans (h₁ : S.Within ok n s s₁) (h₂ : S.Within ok m s₁ s₂) : S.Within ok (n + m) s s₂ := by
  obtain ⟨as, hlength₁, hok₁, hrun₁⟩ := h₁
  obtain ⟨bs, hlength₂, hok₂, hrun₂⟩ := h₂
  refine ⟨as ++ bs, ?_, ?_, ?_⟩
  · rw [List.length_append]
    omega
  · intro a ha
    exact (List.mem_append.1 ha).elim (hok₁ a) (hok₂ a)
  · rw [run_append, hrun₁, Option.bind_some, hrun₂]

theorem Within.reachable (h : S.Within ok n s s') (hs : S.Reachable s) : S.Reachable s' := by
  obtain ⟨as, -, -, hrun⟩ := h
  exact hs.run as hrun

/-- As long as the goal is not reached some step leads to a smaller weight: then it is reached within the weight. -/
theorem within_of_weight {I G : σ → Prop} {w : σ → ℕ}
    (hn : ∀ s, I s → ¬ G s → ∃ a s', ok a ∧ S.next s a = some s' ∧ I s' ∧ w s' < w s) (hI : I s) :
    ∃ s', S.Within ok (w s) s s' ∧ I s' ∧ G s' := by
  induction hw : w s using Nat.strong_induction_on generalizing s with
  | _ k ih =>
    by_cases hG : G s
    · exact ⟨s, .refl s, hI, hG⟩
    · obtain ⟨a, s₁, hok, hs, hI₁, hlt⟩ := hn s hI hG
      obtain ⟨s', hwithin, hI', hG'⟩ := ih (w s₁) (hw ▸ hlt) hI₁ rfl
      exact ⟨s', ((Within.step hok hs).trans hwithin).mono (by omega), hI', hG'⟩

end System

section Program

variable {ι G L α : Type*} [DecidableEq ι] {P : Program ι G L α} {init : Pool ι G L → Prop} {ok : ι × α → Prop}
  {s : Pool ι G L} {procs : ι → L} {i : ι} {a : α} {g g' : G} {l k : L} {n : ℕ}

/-- A step of one process. -/
theorem Program.within_step (hok : ok (i, a)) (hP : P i s.shared (s.procs i) a = some (g, l)) :
    (P.system init).Within ok 1 s ⟨g, Function.update s.procs i l⟩ :=
  .step hok (Program.next_eq_some.2 ⟨g, l, hP, rfl⟩)

/-- One more step of the process that has just taken one. -/
theorem Program.within_again (h : (P.system init).Within ok n s ⟨g, Function.update procs i l⟩) (hok : ok (i, a))
    (hP : P i g l a = some (g', k)) : (P.system init).Within ok (n + 1) s ⟨g', Function.update procs i k⟩ := by
  have hself : P i g (Function.update procs i l i) a = some (g', k) := by rwa [Function.update_self]
  have hstep : (P.system init).Within ok 1 ⟨g, Function.update procs i l⟩
      ⟨g', Function.update (Function.update procs i l) i k⟩ := Program.within_step hok hself
  rw [Function.update_idem] at hstep
  exact h.trans hstep

end Program

end Sysopy.Conc
