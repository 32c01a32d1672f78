/-
Numbers handed out one after the other: the history of who was given which number, and that everybody gets
one number, different from all others and smaller than how many there are.
-/
import Sysopy.Conc.Pool

namespace Sysopy.Conc

variable {ι : Type*} [DecidableEq ι] {given : List (Option ι × ℤ)} {next : ℤ} {c d : ι}

/-- The number given to a client first. -/
def idOf (given : List (Option ι × ℤ)) (c : ι) : Option ℤ := (given.find? fun r => decide (r.1 = some c)).map Prod.snd

theorem idOf_nil (c : ι) : idOf [] c = none := rfl

theorem mem_of_idOf {k : ℤ} (h : idOf given c = some k) : (some c, k) ∈ given := by
  obtain ⟨⟨d, k'⟩, hfind, rfl⟩ := Option.map_eq_some_iff.1 h
  have hd : d = some c := by simpa using List.find?_some hfind
  rw [← hd]
  exact List.mem_of_find?_eq_some hfind

/-- Who had no number has the one given now, and nobody else's number changes. -/
theorem idOf_append (h : idOf given c = none) (k : ℤ) :
    idOf (given ++ [(some c, k)]) = Function.update (idOf given) c (some k) := by
  have hfind : given.find? (fun r => decide (r.1 = some c)) = none := by simpa [idOf] using h
  funext d
  by_cases hd : d = c
  · subst hd
    simp [idOf, List.find?_append, hfind]
  · simp [idOf, List.find?_append, hd, Ne.symm hd]

/-- The numbers below `next` were handed out, each to one client that had none. -/
structure Registry [Fintype ι] (given : List (Option ι × ℤ)) (next : ℤ) : Prop where
  owner : ∀ r ∈ given, ∃ c, r.1 = some c ∧ idOf given c = some r.2
  nodup : (given.map Prod.snd).Nodup
  lt_next : ∀ c k, idOf given c = some k → 0 ≤ k ∧ k < next
  count : next = (tally (fun i : Option ℤ => if i.isSome then 1 else 0) (idOf given) : ℕ)

variable [Fintype ι]

theorem registry_nil : Registry ([] : List (Option ι × ℤ)) 0 :=
  ⟨by simp, by simp, by simp [idOf_nil], by simp [tally, idOf_nil]⟩

/-- The numbers are small: there are at most as many as clients. -/
theorem Registry.lt_card (h : Registry given next) {k : ℤ} (hk : idOf given c = some k) :
    0 ≤ k ∧ k < Fintype.card ι := by
  obtain ⟨h0, hlt⟩ := h.lt_next c k hk
  have hle : tally (fun i : Option ℤ => if i.isSome then 1 else 0) (idOf given) ≤ Fintype.card ι :=
    tally_le_card fun i => by split <;> omega
  have := h.count
  omega

/-- The next number is given to a client that has none. -/
theorem Registry.give (h : Registry given next) (hc : idOf given c = none) :
    Registry (given ++ [(some c, next)]) (next + 1) := by
  have hids := idOf_append hc next
  have hcount := h.count
  constructor
  · intro r hr
    rw [hids]
    rcases List.mem_append.1 hr with hr | hr
    · obtain ⟨d, hd, hk⟩ := h.owner r hr
      have hdc : d ≠ c := by rintro rfl; rw [hc] at hk; cases hk
      exact ⟨d, hd, by rw [Function.update_of_ne hdc, hk]⟩
    · obtain rfl := List.mem_singleton.1 hr
      exact ⟨c, rfl, Function.update_self ..⟩
  · -- the new number is larger than all before
    have hnew : next ∉ given.map Prod.snd := by
      intro hk
      obtain ⟨r, hr, hrk⟩ := List.mem_map.1 hk
      obtain ⟨d, -, hd⟩ := h.owner r hr
      have := (h.lt_next d r.2 hd).2
      omega
    rw [List.map_append]
    refine List.nodup_append.2 ⟨h.nodup, List.nodup_singleton _, fun a ha b hb => ?_⟩
    rintro rfl
    obtain rfl : a = next := List.mem_singleton.1 hb
    exact hnew ha
  · intro d k hk
    rw [hids] at hk
    by_cases hd : d = c
    · subst hd
      obtain rfl : next = k := by simpa using hk
      omega
    · have := h.lt_next d k (by rwa [Function.update_of_ne hd] at hk)
      omega
  · have ht := tally_update (fun i : Option ℤ => if i.isSome then 1 else 0) (idOf given) c (some next)
    simp only [hc, Option.isSome_none, Option.isSome_some, if_true, Bool.false_eq_true, if_false, add_zero] at ht
    rw [hids, ht, hcount]
    push_cast
    rfl

/-- A table by number keeps its entries when the next number gets one: it is larger than all given before. -/
theorem Registry.table_give {α : Type*} (h : Registry given next) (hc : idOf given c = none) {table : ℤ → α}
    {entry : ι → α} (ht : ∀ d k, idOf given d = some k → table k = entry d) (d : ι) (k : ℤ)
    (hk : idOf (given ++ [(some c, next)]) d = some k) : Function.update table next (entry c) k = entry d := by
  rw [idOf_append hc] at hk
  by_cases hd : d = c
  · subst hd
    obtain rfl : next = k := by simpa using hk
    exact Function.update_self ..
  · rw [Function.update_of_ne hd] at hk
    have hlt := (h.lt_next d k hk).2
    rw [Function.update_of_ne (by omega), ht d k hk]

end Sysopy.Conc
