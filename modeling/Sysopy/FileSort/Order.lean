/-
What `sort_file` and `lib_sort_file` (cw02/zad1/sort.c) leave in the file. Each turn takes the first largest record
of those behind the sorted ones to the front of the file, and the loop ends when the largest first byte left is 0.
So the records with first byte 0 come out behind the sorted ones, where a file sorted by first byte has them in front.
-/
import Sysopy.FileSort.Model
import Sysopy.Sort.Selection

namespace Sysopy.FileSort

open Sysopy.Files Sysopy.Sort

variable {σ : Type} {c : Calls σ} {view : σ → OpenFile} {reads writes : σ → Prop} (memory : ℕ → ℕ → UInt8) {N : ℕ}
  {A B : List Record} {x : Record} {rest : List UInt8} {s : State σ}

/-! ## The calls -/

theorem seek_spec (law : c.Lawful view reads writes) {rs : List Record} (h : Layout N rs rest (view s.file)) (n : ℕ) :
    ∃ s', seek c n s = some s' ∧ Layout N rs rest (view s'.file) ∧ (view s'.file).offset = n ∧ reads s'.file ∧
      writes s'.file := by
  obtain ⟨f, hf, hview, hr, hw⟩ := law.seek n s.file
  refine ⟨{ s with file := f }, by rw [seek, hf]; rfl, ?_, ?_, hr, hw⟩
  · rw [hview]
    exact h.seek n
  · rw [hview]
    rfl

/-- A read at the start of a record fills the buffer with it. -/
theorem readRecord_spec (law : c.Lawful view reads writes) (h : Layout N (A ++ x :: B) rest (view s.file))
    (hoff : (view s.file).offset = A.length * N) (hr : reads s.file) :
    ∃ s', readRecord c memory N s = some (x, s') ∧ Layout N (A ++ x :: B) rest (view s'.file) ∧
      (view s'.file).offset = (A.length + 1) * N ∧ reads s'.file := by
  have hx : x.length = N := h.whole x (by simp)
  have hread := h.read hoff
  obtain ⟨f, hf, hview, hagain⟩ := law.read N s.file hr
  rw [hread] at hf hview hagain
  have hfill : x ++ ((List.range N).map (memory s.mallocs)).drop x.length = x := by
    rw [List.drop_eq_nil_of_le (by rw [List.length_map, List.length_range, hx]), List.append_nil]
  refine ⟨⟨f, s.mallocs + 1⟩, ?_, ?_, ?_, hagain hx⟩
  · simp only [readRecord, malloc, hf, Option.map_some, hfill]
  · rw [hview]
    exact ⟨h.bytes, h.whole⟩
  · rw [hview]

theorem write_spec (law : c.Lawful view reads writes) (h : Layout N (A ++ x :: B) rest (view s.file))
    (hoff : (view s.file).offset = A.length * N) (hw : writes s.file) {y : Record} (hy : y.length = N) :
    ∃ s', write c y s = some s' ∧ Layout N (A ++ y :: B) rest (view s'.file) := by
  obtain ⟨f, hf, hview⟩ := law.write y s.file hw
  refine ⟨{ s with file := f }, by rw [write, hf]; rfl, ?_⟩
  rw [hview]
  exact h.write hoff hy

/-! ## The loop over the records that are left -/

/-- What the loop over `j` knows of the records it has read, which begin at index `i`: their first bytes are all 0,
or `max_record` is the first largest. -/
inductive Scanned (i : ℕ) (seg : List Record) (m : Best) : Prop
  | zeros (hs : m.swapped = false) (hm : byte0 m.maxRecord = 0) (h : ∀ x ∈ seg, byte0 x = 0)
  | found (l₁ l₂ : List Record) (hs : m.swapped = true) (hm : byte0 m.maxRecord ≠ 0)
      (hseg : seg = l₁ ++ m.maxRecord :: l₂) (hpos : m.maxPos = i + l₁.length) (h : FirstMax byte0 l₁ m.maxRecord l₂)

theorem Scanned.compare {i : ℕ} {seg : List Record} {m : Best} (h : Scanned i seg m) (x : Record) :
    Scanned i (seg ++ [x]) (m.compare (i + seg.length) x) := by
  unfold Best.compare
  cases h with
  | zeros hs hm h =>
    split
    · rename_i hlt
      refine .found seg [] rfl (Nat.ne_of_gt (Nat.zero_lt_of_lt hlt)) rfl rfl ⟨fun y hy => ?_, nofun⟩
      rw [h y hy, ← hm]
      exact hlt
    · rename_i hle
      refine .zeros hs hm (List.forall_mem_append.2 ⟨h, List.forall_mem_singleton.2 ?_⟩)
      omega
  | found l₁ l₂ hs hm hseg hpos h =>
    split
    · rename_i hlt
      exact .found seg [] rfl (Nat.ne_of_gt (Nat.zero_lt_of_lt hlt)) rfl rfl (hseg ▸ h.replace hlt)
    · rename_i hle
      exact .found l₁ (l₂ ++ [x]) hs hm (by rw [hseg]; simp) hpos (h.keep (Nat.le_of_not_lt hle))

theorem scanLoop_spec (law : c.Lawful view reads writes) {acc : List Record} (todo : List Record) :
    ∀ (seg : List Record) (m : Best) (s : State σ), Layout N (acc ++ seg ++ todo) rest (view s.file) →
      (view s.file).offset = (acc.length + seg.length) * N → reads s.file → Scanned acc.length seg m →
      ∃ m' s', scanLoop c memory N todo.length (acc.length + seg.length) m s = some (m', s') ∧
        Layout N (acc ++ seg ++ todo) rest (view s'.file) ∧ Scanned acc.length (seg ++ todo) m' := by
  induction todo with
  | nil =>
    intro seg m s hl _ _ hm
    exact ⟨m, s, rfl, hl, by rwa [List.append_nil]⟩
  | cons x todo ih =>
    intro seg m s hl hoff hr hm
    have hlen : (acc ++ seg).length = acc.length + seg.length := List.length_append
    have hsplit : acc ++ (seg ++ [x]) ++ todo = acc ++ seg ++ x :: todo := by simp
    have hnext : acc.length + seg.length + 1 = acc.length + (seg ++ [x]).length := by
      rw [List.length_append, List.length_singleton, Nat.add_assoc]
    obtain ⟨s₁, hread, hl₁, hoff₁, hr₁⟩ := readRecord_spec memory law hl (by rw [hlen]; exact hoff) hr
    obtain ⟨m', s', hrun, hl', hm'⟩ := ih (seg ++ [x]) (m.compare (acc.length + seg.length) x) s₁
      (by rw [hsplit]; exact hl₁) (by rw [hoff₁, hlen, hnext]) hr₁ (hm.compare x)
    refine ⟨m', s', ?_, by rwa [hsplit] at hl', by simpa using hm'⟩
    rw [List.length_cons, scanLoop, hread, hnext]
    exact hrun

/-! ## The loop that moves records up -/

/-- The records in front of `max_pos` go up by one; the first one is then at index 0 as well as at 1. -/
theorem shiftLoop_spec (law : c.Lawful view reads writes) (P : List Record) : ∀ (z : Record) (Q : List Record)
    (s : State σ), Layout N (P ++ z :: Q) rest (view s.file) →
      ∃ y s', shiftLoop c memory N P.length s = some s' ∧ Layout N (y :: (P ++ Q)) rest (view s'.file) := by
  induction P using List.reverseRecOn with
  | nil =>
    intro z Q s hl
    exact ⟨z, s, rfl, hl⟩
  | append_singleton P y ih =>
    intro z Q s hl
    have hshape : P ++ [y] ++ z :: Q = P ++ y :: z :: Q := by simp
    have hlen : (P ++ [y]).length = P.length + 1 := List.length_append
    have hy : y.length = N := hl.whole y (by simp)
    obtain ⟨s₁, h₁, hl₁, hoff₁, hr₁, -⟩ := seek_spec law hl (P.length * N)
    rw [hshape] at hl₁
    obtain ⟨s₂, h₂, hl₂, -, -⟩ := readRecord_spec memory law hl₁ hoff₁ hr₁
    rw [← hshape] at hl₂
    obtain ⟨s₃, h₃, hl₃, hoff₃, -, hw₃⟩ := seek_spec law hl₂ ((P.length + 1) * N)
    obtain ⟨s₄, h₄, hl₄⟩ := write_spec law hl₃ (by rw [hlen]; exact hoff₃) hw₃ hy
    -- the place that has just been written is the next one to be read over
    have hnext : P ++ [y] ++ y :: Q = P ++ y :: y :: Q := by simp
    rw [hnext] at hl₄
    obtain ⟨w, s', hrun, hl'⟩ := ih y (y :: Q) s₄ hl₄
    refine ⟨w, s', ?_, by rwa [List.append_assoc]⟩
    rw [hlen, shiftLoop, h₁]
    simp only [Option.bind_eq_bind, Option.bind_some, h₂, h₃, h₄, hrun]

/-! ## The outer loop -/

theorem clear0_malloc (hN : 1 ≤ N) (s : State σ) : ∃ b, clear0 (malloc memory N s).1 = some b ∧ byte0 b = 0 := by
  obtain ⟨n, rfl⟩ := Nat.exists_eq_add_of_le' hN
  refine ⟨0 :: (malloc memory (n + 1) s).1.tail, ?_, rfl⟩
  simp only [malloc, List.range_succ_eq_map, List.map_cons, clear0, List.tail_cons]

/-- One turn: the first largest record goes to the front, or the records that are left all begin with 0. -/
theorem turn_spec (law : c.Lawful view reads writes) {acc l₁ l₂ : List Record} {m : Record} (s : State σ)
    (hl : Layout N (acc ++ (l₁ ++ m :: l₂)) rest (view s.file)) :
    ∃ s₁ s₂ s₃, shiftLoop c memory N (acc.length + l₁.length) s = some s₁ ∧ seek c 0 s₁ = some s₂ ∧
      write c m s₂ = some s₃ ∧ Layout N (m :: acc ++ (l₁ ++ l₂)) rest (view s₃.file) := by
  have hm : m.length = N := hl.whole m (by simp)
  rw [← List.append_assoc] at hl
  obtain ⟨y, s₁, h₁, hl₁⟩ := shiftLoop_spec memory law (acc ++ l₁) m l₂ s hl
  obtain ⟨s₂, h₂, hl₂, hoff₂, -, hw₂⟩ := seek_spec law hl₁ 0
  obtain ⟨s₃, h₃, hl₃⟩ := write_spec (A := []) law hl₂ (by rw [hoff₂]; simp) hw₂ hm
  refine ⟨s₁, s₂, s₃, by rwa [List.length_append] at h₁, h₂, h₃, ?_⟩
  simpa using hl₃

theorem sortLoop_spec (law : c.Lawful view reads writes) (hN : 1 ≤ N) {l₀ : List Record} (n : ℕ) :
    ∀ (acc l : List Record) (s : State σ), l.length = n → Layout N (acc ++ l) rest (view s.file) →
      Selected byte0 l₀ l acc → (∀ x ∈ acc, byte0 x ≠ 0) →
      ∃ rs s', sortLoop c memory N n acc.length s = some s' ∧ Layout N rs rest (view s'.file) ∧
        SortedReverseBut byte0 0 l₀ rs := by
  induction n with
  | zero =>
    intro acc l s hn hl hsel hacc
    rw [List.length_eq_zero_iff] at hn
    subst hn
    exact ⟨acc ++ [], s, rfl, hl, hsel.stop hacc nofun⟩
  | succ n ih =>
    intro acc l s hn hl hsel hacc
    obtain ⟨b, hb, hb0⟩ := clear0_malloc memory hN s
    obtain ⟨s₁, h₁, hl₁, hoff₁, hr₁, -⟩ := seek_spec law (s := (malloc memory N s).2) hl (acc.length * N)
    obtain ⟨m, s₂, h₂, hl₂, hscan⟩ := scanLoop_spec memory law l [] ⟨b, acc.length, false⟩ s₁
      (by rwa [List.append_nil]) hoff₁ hr₁ (.zeros rfl hb0 nofun)
    rw [List.append_nil] at hl₂
    rw [List.nil_append] at hscan
    rw [List.length_nil, Nat.add_zero, hn] at h₂
    have hrun : sortLoop c memory N (n + 1) acc.length s =
        if m.swapped then (shiftLoop c memory N m.maxPos s₂).bind fun s => (seek c 0 s).bind fun s =>
          (write c m.maxRecord s).bind fun s => sortLoop c memory N n (acc.length + 1) s
        else some s₂ := by
      simp only [sortLoop, Option.bind_eq_bind, hb, h₁, h₂, Option.bind_some]
    rw [hrun]
    cases hscan with
    | zeros hs _ h =>
      rw [hs]
      exact ⟨acc ++ l, s₂, rfl, hl₂, hsel.stop hacc h⟩
    | found l₁ l₂ hs hm hseg hpos hmax =>
      subst hseg
      obtain ⟨s₃, s₄, s₅, h₃, h₄, h₅, hl₅⟩ := turn_spec memory law s₂ hl₂
      have hn' : (l₁ ++ l₂).length = n := by
        rw [List.length_append, List.length_cons] at hn
        rw [List.length_append]
        omega
      obtain ⟨rs, s', hloop, hl', hsorted⟩ := ih (m.maxRecord :: acc) (l₁ ++ l₂) s₅ hn' hl₅ (hsel.select hmax)
        (List.forall_mem_cons.2 ⟨hm, hacc⟩)
      refine ⟨rs, s', ?_, hl', hsorted⟩
      rw [hs, if_pos rfl, hpos, h₃, Option.bind_some, h₄, Option.bind_some, h₅, Option.bind_some]
      exact hloop

/-! ## Both functions -/

section Files

variable {recordSize fileSize : ℕ} {bytes : List UInt8}

/-- What the sort leaves in a file: the records in their order, and everything behind them as it was. -/
structure Sorted (recordSize fileSize : ℕ) (bytes out : List UInt8) : Prop where
  order : SortedReverseBut byte0 0 (records recordSize fileSize bytes) (records recordSize fileSize out)
  behind : out.drop (fileSize * recordSize) = bytes.drop (fileSize * recordSize)

theorem layout_records (hlen : fileSize * recordSize ≤ bytes.length) (n : ℕ) :
    Layout recordSize (records recordSize fileSize bytes) (bytes.drop (fileSize * recordSize)) ⟨bytes, n⟩ :=
  ⟨(flatten_records recordSize fileSize bytes).symm, length_of_mem_records hlen⟩

theorem sorted_of_layout {rs : List Record} {f : OpenFile}
    (hl : Layout recordSize rs (bytes.drop (fileSize * recordSize)) f)
    (h : SortedReverseBut byte0 0 (records recordSize fileSize bytes) rs) :
    Sorted recordSize fileSize bytes f.bytes := by
  have hcount : rs.length = fileSize := h.perm.length_eq.trans (length_records _ _ _)
  subst hcount
  refine ⟨?_, ?_⟩
  · rw [hl.bytes, records_append hl.whole]
    exact h
  · rw [hl.bytes, drop_records_append hl.whole]

/-- Whatever the calls are, as long as they are lawful. -/
theorem sortLoop_sorted (law : c.Lawful view reads writes) (hsize : 1 ≤ recordSize)
    (hlen : fileSize * recordSize ≤ bytes.length) {s : State σ} {n : ℕ} (hs : view s.file = ⟨bytes, n⟩) :
    ∃ s', sortLoop c memory recordSize fileSize 0 s = some s' ∧
      Sorted recordSize fileSize bytes (view s'.file).bytes := by
  obtain ⟨rs, s', hrun, hl, hsorted⟩ := sortLoop_spec memory law hsize fileSize []
    (records recordSize fileSize bytes) s (length_records _ _ _) (by rw [hs]; exact layout_records hlen n)
    (selected_start byte0 _) nofun
  exact ⟨s', hrun, sorted_of_layout hl hsorted⟩

theorem sortFile_sorted (hsize : 1 ≤ recordSize)
    (hlen : fileSize * recordSize ≤ bytes.length) :
    ∃ out, sortFile memory recordSize fileSize bytes = some out ∧ Sorted recordSize fileSize bytes out := by
  obtain ⟨s', hrun, h⟩ := sortLoop_sorted memory (s := ⟨⟨bytes, 0⟩, 0⟩) unistd_lawful hsize hlen rfl
  exact ⟨_, by rw [sortFile, hrun]; rfl, h⟩

theorem libSortFile_sorted (hsize : 1 ≤ recordSize)
    (hlen : fileSize * recordSize ≤ bytes.length) :
    ∃ out, libSortFile memory recordSize fileSize bytes = some out ∧ Sorted recordSize fileSize bytes out := by
  obtain ⟨s', hrun, h⟩ := sortLoop_sorted memory (s := ⟨⟨⟨bytes, 0⟩, .positioned⟩, 0⟩) stdio_lawful hsize
    hlen rfl
  exact ⟨_, by rw [libSortFile, hrun]; rfl, h⟩

end Files

/-- Both functions put the records whose first byte is not 0 in front, in order and with equal first bytes in reverse,
then those whose first byte is 0 as they were, and leave the rest of the file alone. -/
theorem sort_order (recordSize fileSize : ℕ) (bytes : List UInt8) (hsize : 1 ≤ recordSize)
    (hlen : fileSize * recordSize ≤ bytes.length) :
    (∃ out, sortFile memory recordSize fileSize bytes = some out ∧ Sorted recordSize fileSize bytes out) ∧
      ∃ out, libSortFile memory recordSize fileSize bytes = some out ∧ Sorted recordSize fileSize bytes out :=
  ⟨sortFile_sorted memory hsize hlen, libSortFile_sorted memory hsize hlen⟩

/-- Four records of two bytes and a byte behind them. -/
theorem sort_order_four :
    (∃ out, sortFile (fun _ _ => 7) 2 4 [3, 1, 0, 2, 3, 3, 9, 4, 5] = some out ∧
        Sorted 2 4 [3, 1, 0, 2, 3, 3, 9, 4, 5] out) ∧
      ∃ out, libSortFile (fun _ _ => 7) 2 4 [3, 1, 0, 2, 3, 3, 9, 4, 5] = some out ∧
        Sorted 2 4 [3, 1, 0, 2, 3, 3, 9, 4, 5] out :=
  sort_order (fun _ _ => 7) 2 4 [3, 1, 0, 2, 3, 3, 9, 4, 5] (by decide) (by decide)

example : sortFile (fun _ _ => 7) 2 4 [3, 1, 0, 2, 3, 3, 9, 4, 5] = some [3, 3, 3, 1, 9, 4, 0, 2, 5] := by decide

/-! ## The first bytes in order -/

/-- The first bytes of the records are in non-decreasing order. -/
def InOrder (recordSize fileSize : ℕ) (out : List UInt8) : Prop :=
  (records recordSize fileSize out).Pairwise fun x y => byte0 x ≤ byte0 y

theorem inOrder_iff {recordSize fileSize : ℕ} {bytes : List UInt8} {result : Option (List UInt8)}
    (h : ∃ out, result = some out ∧ Sorted recordSize fileSize bytes out) :
    (∃ out, result = some out ∧ InOrder recordSize fileSize out) ↔
      (∀ x ∈ records recordSize fileSize bytes, byte0 x = 0) ∨
        ∀ x ∈ records recordSize fileSize bytes, byte0 x ≠ 0 := by
  obtain ⟨out, rfl, hsorted⟩ := h
  have hiff := hsorted.order.sorted_iff fun _ _ => Nat.zero_le _
  constructor
  · rintro ⟨_, ⟨⟩, h⟩
    exact hiff.1 h
  · intro h
    exact ⟨out, rfl, hiff.2 h⟩

/-- The first bytes end up in non-decreasing order iff all of them are 0 or none is. -/
theorem first_bytes_inOrder_iff (recordSize fileSize : ℕ) (bytes : List UInt8)
    (hsize : 1 ≤ recordSize) (hlen : fileSize * recordSize ≤ bytes.length) :
    ((∃ out, sortFile memory recordSize fileSize bytes = some out ∧ InOrder recordSize fileSize out) ↔
        (∀ x ∈ records recordSize fileSize bytes, byte0 x = 0) ∨
          ∀ x ∈ records recordSize fileSize bytes, byte0 x ≠ 0) ∧
      ((∃ out, libSortFile memory recordSize fileSize bytes = some out ∧ InOrder recordSize fileSize out) ↔
        (∀ x ∈ records recordSize fileSize bytes, byte0 x = 0) ∨
          ∀ x ∈ records recordSize fileSize bytes, byte0 x ≠ 0) :=
  ⟨inOrder_iff (sortFile_sorted memory hsize hlen), inOrder_iff (libSortFile_sorted memory hsize hlen)⟩

/-- Three records of one byte, none of them 0. -/
theorem first_bytes_inOrder_three : ∃ out, sortFile (fun _ _ => 7) 1 3 [9, 2, 5] = some out ∧ InOrder 1 3 out :=
  (first_bytes_inOrder_iff (fun _ _ => 7) 1 3 [9, 2, 5] (by decide) (by decide)).1.2 (.inr (by decide))

/-- A 5 in front of a 0 stays there. -/
theorem zero_stays_last : sortFile (fun _ _ => 7) 1 2 [5, 0] = some [5, 0] ∧
    libSortFile (fun _ _ => 7) 1 2 [5, 0] = some [5, 0] ∧ ¬ InOrder 1 2 [5, 0] := by
  unfold InOrder
  decide

end Sysopy.FileSort
