/-
The registration table of the datagram server as a table of leases: a name holds at most one live slot, a slot
is written by its own name or after it has expired, a registration lasts its full time, and it is refused only
when the loop over the slots finds every one of them live.
-/
import Sysopy.Conc.Lease
import Sysopy.Datagram.Server

namespace Sysopy.Datagram

open Sysopy.Conc Sysopy.CText

variable {M : ℕ} {clock : ℕ → ℤ} {s s' : Server M} {p : Packet} {r : Msg} {i j : Fin M}

/-- A slot as a lease of its name. -/
def Slot.lease (s : Slot) : Lease Name := ⟨s.name, s.regtime⟩

theorem Slot.live_iff {s : Slot} {t : ℤ} : s.live t ↔ s.lease.Live EXPIRATION t := by
  show s.regtime - t > -EXPIRATION ↔ t - s.regtime < EXPIRATION
  omega

theorem Slot.live.before {s : Slot} {now t : ℤ} (h : s.live now) (ht : t ≤ now) : s.live t :=
  live_iff.2 ((live_iff.1 h).before ht)

/-- No time before the readings of the clock so far. -/
def Server.Current (clock : ℕ → ℤ) (s : Server M) (now : ℤ) : Prop :=
  EXPIRATION ≤ now ∧ ∀ k < s.calls, clock k ≤ now

/-- The texts of an accepted "reg". -/
def accepted (r : Msg) : Prop := r.text = "Renewed.".toList ∨ r.text = "Registered.".toList

theorem not_accepted_refused : ¬ accepted (reply "No client slots available.".toList) := by
  unfold accepted
  decide

/-! ## What a call of handle does -/

/-- A call renews the live slot of the sender, writes an expired slot when the sender has no live one, or leaves
the slots alone. -/
inductive Handled (clock : ℕ → ℤ) (s : Server M) (p : Packet) : Server M → Msg → Prop
  | renewed {i : Fin M} {k m : ℕ} {r : Msg} (hk : s.calls ≤ k) (hm : k < m) (hlive : (s.slots i).live (clock k))
      (hname : (s.slots i).name = p.buf.name) :
      Handled clock s p ⟨Function.update s.slots i { s.slots i with regtime := clock m }, m + 1⟩ r
  | registered {i : Fin M} {k m : ℕ} {r : Msg} (hk : s.calls ≤ k) (hm : k < m) (hfree : ¬ (s.slots i).live (clock k))
      (hnone : ∀ j, (s.slots j).name = p.buf.name → ¬ (s.slots j).live (clock m)) :
      Handled clock s p ⟨Function.update s.slots i ⟨p.buf.name, p.theirAddr, clock m, p.sockfd⟩, m + 1⟩ r
  | kept {m : ℕ} {r : Msg} (hm : s.calls ≤ m) (hr : p.buf.text = "reg".toList → ¬ accepted r) :
      Handled clock s p ⟨s.slots, m⟩ r

theorem strcmp_name_eq_zero {a b : Name} : strcmp a.chars b.chars = 0 ↔ a = b := by
  unfold Name.chars
  rw [strcmp_eq_zero_iff a.1.2 b.1.2, ← Subtype.ext_iff, ← Subtype.ext_iff]

theorem strcmp_self (t : List Char) : strcmp t t = 0 := by
  induction t with
  | nil => rfl
  | cons a t ih => rw [strcmp, if_pos rfl, ih]

/-- A slot that has never been written is not live, and no slot that the lookup has passed is live later. -/
theorem not_live_of_lookup (hM : Monotone clock) (hE : ∀ k, EXPIRATION ≤ clock k) {n m : ℕ}
    (h : lookup clock s p = (none, n)) (hm : n ≤ m) (hname : (s.slots j).name = p.buf.name) :
    ¬ (s.slots j).live (clock m) := by
  intro hlive
  by_cases hr : (s.slots j).regtime = -1
  · have := hE m
    unfold Slot.live at hlive
    omega
  · obtain ⟨k, -, hk, hnot⟩ :=
      findClient_none h (List.mem_finRange j) hr (strcmp_name_eq_zero.2 hname.symm)
    exact hnot (hlive.before (hM (by omega)))

theorem handle_handled (hM : Monotone clock) (hE : ∀ k, EXPIRATION ≤ clock k) (s : Server M) (p : Packet) :
    Handled clock s p (handle clock s p).1 (handle clock s p).2 := by
  have hle := findClient_le clock s.slots p.buf.name (List.finRange M) s.calls
  unfold handle
  split
  rename_i found n hl
  have hn : s.calls ≤ n := by rwa [← lookup, hl] at hle
  split
  · split
    · -- the sender is found
      rename_i i
      obtain ⟨hname, k, hk, rfl, hlive⟩ := findClient_some hl
      exact .renewed hk (Nat.lt_succ_self k) hlive (strcmp_name_eq_zero.1 hname).symm
    · have hle' := freeSlot_le clock s.slots (List.finRange M) n
      split
      · rename_i i m hf
        obtain ⟨k, hk, hm, hfree⟩ := freeSlot_some hf
        exact .registered (hn.trans hk) hm hfree fun j hj => not_live_of_lookup hM hE hl (by omega) hj
      · rename_i m hf
        rw [hf] at hle'
        exact .kept (hn.trans hle') fun _ => not_accepted_refused
  · rename_i hreg
    have hnot : ∀ r, p.buf.text = "reg".toList → ¬ accepted r := fun r ht => by
      rw [ht, strcmp_self] at hreg
      exact absurd rfl hreg
    split
    · rename_i i
      have hle' := broadcast_le clock s.slots i (List.finRange M) n p.buf.text
      split
      rename_i text m hb
      rw [hb] at hle'
      exact .kept (hn.trans hle') (hnot _)
    · exact .kept hn (hnot _)

/-! ## The steps -/

theorem Handled.calls_le (h : Handled clock s p s' r) : s.calls ≤ s'.calls := by
  cases h with
  | renewed hk hm => exact hk.trans (hm.le.trans (Nat.le_succ _))
  | registered hk hm => exact hk.trans (hm.le.trans (Nat.le_succ _))
  | kept hm => exact hm

theorem Handled.current (h : Handled clock s p s' r) {now : ℤ} (hc : s'.Current clock now) : s.Current clock now :=
  ⟨hc.1, fun k hk => hc.2 k (hk.trans_le h.calls_le)⟩

/-- A slot changes only for its own name, or after a call of `time` at which it was not live. -/
theorem Handled.changed (h : Handled clock s p s' r) (hne : s'.slots i ≠ s.slots i) :
    (s.slots i).name = p.buf.name ∨ ∃ k, s.calls ≤ k ∧ k < s'.calls ∧ ¬ (s.slots i).live (clock k) := by
  cases h with
  | @renewed j k m _ hk hm hlive hname =>
    by_cases hij : i = j
    · subst hij
      exact .inl hname
    · exact absurd (Function.update_of_ne hij _ _) hne
  | @registered j k m _ hk hm hfree hnone =>
    by_cases hij : i = j
    · subst hij
      exact .inr ⟨k, hk, Nat.lt_succ_of_lt hm, hfree⟩
    · exact absurd (Function.update_of_ne hij _ _) hne
  | kept => exact absurd rfl hne

/-- A name holds one live slot at most. -/
def OneSlot (clock : ℕ → ℤ) (s : Server M) : Prop :=
  ∀ now, s.Current clock now → HeldOnce EXPIRATION (Slot.lease ∘ s.slots) now

theorem initial_oneSlot : OneSlot clock (initial M) := by
  intro now hc i j hi
  have := hc.1
  simp only [Lease.Live, Slot.lease, initial, Function.comp_apply] at hi
  omega

theorem Handled.oneSlot (hM : Monotone clock) (hE : ∀ k, EXPIRATION ≤ clock k) (h : Handled clock s p s' r)
    (h1 : OneSlot clock s) : OneSlot clock s' := by
  intro now hc
  have hheld := h1 now (h.current hc)
  cases h with
  | @renewed i k m _ hk hm hlive hname =>
    have hcm : clock m ≤ now := hc.2 m (Nat.lt_succ_self m)
    have hck : s.Current clock (clock k) := ⟨hE k, fun l hl => hM (by omega)⟩
    rw [Function.comp_update]
    exact hheld.renew (h1 _ hck) ((hM hm.le).trans hcm) (Slot.live_iff.1 hlive)
  | @registered i k m _ hk hm hfree hnone =>
    have hcm : clock m ≤ now := hc.2 m (Nat.lt_succ_self m)
    rw [Function.comp_update]
    exact hheld.grant fun j _ hj hl => hnone j hj ((Slot.live_iff.2 hl).before hcm)
  | kept => exact hheld

/-- The name registered at the time `t` has a live slot for its full time. -/
def Lasts (clock : ℕ → ℤ) (name : Name) (t : ℤ) (s : Server M) : Prop :=
  ∀ now, s.Current clock now → now < t + EXPIRATION → ∃ i, (s.slots i).name = name ∧ (s.slots i).live now

/-- The slot of an accepted "reg" holds the last reading of the clock. -/
theorem Handled.accepted (h : Handled clock s p s' r) (hreg : p.buf.text = "reg".toList) (ha : accepted r) :
    Lasts clock p.buf.name (clock (s'.calls - 1)) s' := by
  intro now _ hnow
  cases h with
  | @renewed i k m _ hk hm hlive hname =>
    refine ⟨i, ?_, ?_⟩
    · simpa using hname
    · simp only [Slot.live, Function.update_self, Nat.add_sub_cancel] at hnow ⊢
      omega
  | @registered i k m _ hk hm hfree hnone =>
    refine ⟨i, by simp, ?_⟩
    simp only [Slot.live, Function.update_self, Nat.add_sub_cancel] at hnow ⊢
    omega
  | kept hm hr => exact absurd ha (hr hreg)

/-- Later calls do not end it. -/
theorem Handled.lasts (hM : Monotone clock) (h : Handled clock s p s' r) {name : Name} {t : ℕ} (ht : t ≤ s.calls)
    (hl : Lasts clock name (clock t) s) : Lasts clock name (clock t) s' := by
  intro now hc hnow
  obtain ⟨i, hname, hlive⟩ := hl now (h.current hc) hnow
  cases h with
  | @renewed j k m _ hk hm _ _ =>
    by_cases hij : i = j
    · subst hij
      have := hM (show t ≤ m by omega)
      refine ⟨i, by simpa using hname, ?_⟩
      simp only [Slot.live, Function.update_self]
      omega
    · exact ⟨i, by simpa [hij] using hname, by simpa [hij] using hlive⟩
  | @registered j k m _ hk hm hfree _ =>
    have hij : i ≠ j := by
      rintro rfl
      exact hfree (hlive.before (hc.2 k (by show k < m + 1; omega)))
    exact ⟨i, by simpa [hij] using hname, by simpa [hij] using hlive⟩
  | kept => exact ⟨i, hname, hlive⟩

/-! ## Sequences of calls -/

theorem serve_append (ds : List Packet) (p : Packet) :
    serve M clock (ds ++ [p]) = (handle clock (serve M clock ds) p).1 := by
  simp [serve]

theorem serve_oneSlot (hM : Monotone clock) (hE : ∀ k, EXPIRATION ≤ clock k) (ds : List Packet) :
    OneSlot clock (serve M clock ds) := by
  induction ds using List.reverseRecOn with
  | nil => exact initial_oneSlot
  | append_singleton ds p ih =>
    rw [serve_append]
    exact (handle_handled hM hE _ p).oneSlot hM hE ih

theorem serve_lasts (hM : Monotone clock) (hE : ∀ k, EXPIRATION ≤ clock k) (ds es : List Packet)
    (hreg : p.buf.text = "reg".toList) (ha : accepted (handle clock (serve M clock ds) p).2) :
    Lasts clock p.buf.name (clock ((serve M clock (ds ++ [p])).calls - 1)) (serve M clock (ds ++ [p] ++ es)) := by
  have hcalls : ∀ es, (serve M clock (ds ++ [p])).calls ≤ (serve M clock (ds ++ [p] ++ es)).calls := fun es => by
    induction es using List.reverseRecOn with
    | nil => rw [List.append_nil]
    | append_singleton es q ih =>
      rw [← List.append_assoc, serve_append _ q]
      exact ih.trans (handle_handled hM hE _ q).calls_le
  induction es using List.reverseRecOn with
  | nil =>
    rw [List.append_nil, serve_append]
    exact (handle_handled hM hE _ p).accepted hreg ha
  | append_singleton es q ih =>
    rw [← List.append_assoc, serve_append _ q]
    exact (handle_handled hM hE _ q).lasts hM ((Nat.sub_le _ _).trans (hcalls es)) ih

/-- A "reg" for which the lookup finds no slot is refused exactly when the allocation loop finds each slot live. -/
theorem refused_iff (hreg : p.buf.text = "reg".toList) (hl : (lookup clock s p).1 = none) :
    (handle clock s p).2.text = "No client slots available.".toList ↔
      ∀ i : Fin M, (s.slots i).live (clock ((lookup clock s p).2 + i)) := by
  obtain ⟨n, hn⟩ : ∃ n, lookup clock s p = (none, n) := ⟨_, Prod.ext hl rfl⟩
  have hfree : (freeSlot clock s.slots (List.finRange M) n).1 = none ↔
      ∀ i : Fin M, (s.slots i).live (clock (n + i)) := by
    rw [freeSlot_eq_none]
    constructor
    · intro h i
      simpa using h i (by simp)
    · intro h k hk
      simpa using h ⟨k, by simpa using hk⟩
  rw [hn, ← hfree, handle, hn, hreg]
  simp only [strcmp_self, if_true]
  split
  · rename_i i m hf
    rw [hf]
    have hne : "Registered.".toList ≠ "No client slots available.".toList := by decide
    exact iff_of_false hne nofun
  · rename_i m hf
    rw [hf]
    exact iff_of_true rfl rfl

/-- After every sequence of calls: no name has two live slots, a call changes no live slot of another name, an
accepted "reg" has a live slot for EXPIRATION seconds, and one that the lookup does not find is refused exactly
when every slot is live at the moment the loop examines it. -/
theorem registrations (hM : Monotone clock) (hE : ∀ k, EXPIRATION ≤ clock k) (ds : List Packet) :
    (∀ now i j, (serve M clock ds).Current clock now → ((serve M clock ds).slots i).live now →
      ((serve M clock ds).slots j).live now → ((serve M clock ds).slots i).name = ((serve M clock ds).slots j).name →
        i = j) ∧
    (∀ p i, (handle clock (serve M clock ds) p).1.slots i ≠ (serve M clock ds).slots i →
      ((serve M clock ds).slots i).name = p.buf.name ∨
        ∃ k, (serve M clock ds).calls ≤ k ∧ k < (handle clock (serve M clock ds) p).1.calls ∧
          ¬ ((serve M clock ds).slots i).live (clock k)) ∧
    (∀ ds₁ p ds₂, ds = ds₁ ++ [p] ++ ds₂ → p.buf.text = "reg".toList →
      accepted (handle clock (serve M clock ds₁) p).2 → ∀ now, (serve M clock ds).Current clock now →
        now < clock ((serve M clock (ds₁ ++ [p])).calls - 1) + EXPIRATION →
          ∃ i, ((serve M clock ds).slots i).name = p.buf.name ∧ ((serve M clock ds).slots i).live now) ∧
    (∀ p, p.buf.text = "reg".toList → (lookup clock (serve M clock ds) p).1 = none →
      ((handle clock (serve M clock ds) p).2.text = "No client slots available.".toList ↔
        ∀ i : Fin M, ((serve M clock ds).slots i).live (clock ((lookup clock (serve M clock ds) p).2 + i)))) := by
  refine ⟨fun now i j hc hi hj hij => ?_, fun p i hne => ?_, ?_, fun p => refused_iff⟩
  · exact serve_oneSlot hM hE ds now hc i j (Slot.live_iff.1 hi) (Slot.live_iff.1 hj) hij
  · exact (handle_handled hM hE _ p).changed hne
  · rintro ds₁ p ds₂ rfl hreg ha
    exact serve_lasts hM hE ds₁ ds₂ hreg ha

/-- Someone called "a" registers. -/
def regA : Packet := ⟨3, [], ⟨⟨⟨['a'], by decide⟩, by decide⟩, "reg".toList⟩⟩

/-- Someone called "c" registers. -/
def regC : Packet := ⟨4, [], ⟨⟨⟨['c'], by decide⟩, by decide⟩, "reg".toList⟩⟩

/-- A minute passes between two readings of the clock. -/
def eachMinute (k : ℕ) : ℤ := 100 + 60 * k

/-- With one slot "c" is refused while the registration of "a" is live, and has the slot after it has expired. -/
theorem registrations_twoNames :
    (handle eachMinute (serve 1 eachMinute [regA]) regC).2.text = "No client slots available.".toList ∧
    ∃ i, ((serve 1 eachMinute [regA, regC, regC]).slots i).name = regC.buf.name ∧
      ((serve 1 eachMinute [regA, regC, regC]).slots i).live 400 := by
  have hM : Monotone eachMinute := fun a b h => by
    unfold eachMinute
    omega
  have hE : ∀ k : ℕ, EXPIRATION ≤ eachMinute k := fun k => by
    unfold EXPIRATION eachMinute
    omega
  refine ⟨((registrations hM hE [regA]).2.2.2 regC rfl rfl).2 (by decide), ?_⟩
  refine (registrations hM hE [regA, regC, regC]).2.2.1 [regA, regC] regC [] rfl rfl (.inr rfl) 400 ⟨by decide, ?_⟩
    (by decide)
  intro k hk
  have hk5 : k < 5 := hk
  unfold eachMinute
  omega

end Sysopy.Datagram
