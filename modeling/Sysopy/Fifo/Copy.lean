/-
What `wrfifo` and `rdfifo` of cw05/zad2 do with the lines of a standard input that ends. `getline` then returns -1,
which `while` takes for true, so `wrfifo` never ends: it writes what its variable `line` points to again and again.
The messages of the lines come first, in order. `rdfifo` prints every byte once and stores inside its buffer as long
as no `read` fills the buffer; one that does is followed by a NUL behind it.
-/
import Sysopy.Fifo.Model

namespace Sysopy.Fifo

open Sysopy.Conc Sysopy.CText

variable {pid : Pid} {lines : List (Line pid)} {s s' : State pid}

/-! ## What the programs are for -/

/-- A message with this text, at some time. -/
def MessageOf (x : Text pid) (m : List Char) : Prop := ∃ t, m = message pid t x.chars

/-- One message for each line, in order. -/
def OnePerLine (lines : List (Line pid)) (messages : List (List Char)) : Prop :=
  List.Forall₂ MessageOf ((lines.map Line.toText).take messages.length) messages

/-- The reads that `rdfifo` has printed. -/
def printedReads (s : State pid) : List (List Char) :=
  match s.reader with
  | .print _ => s.reads.dropLast
  | _ => s.reads

theorem mem_of_mem_printedReads {s : State pid} {r : List Char} (h : r ∈ printedReads s) : r ∈ s.reads := by
  unfold printedReads at h
  split at h
  · exact List.mem_of_mem_dropLast h
  · exact h

/-- Each of these reads printed once, in order, behind a time. -/
def PrintedAs (reads : List (List Char)) (out : List Char) : Prop :=
  ∃ ts : List Tm, ts.length = reads.length ∧ out = (List.zipWith stamped ts reads).flatten

/-- What has been read and what is in the FIFO are the messages, and what has been read is printed once. -/
def Copied (s : State pid) : Prop :=
  s.reads.flatten ++ s.fifo.bytes = s.messages.flatten ∧ PrintedAs (printedReads s) s.out

/-- `rdfifo` has stored inside its buffer. -/
def Inside (s : State pid) : Prop := ∀ i ∈ s.stores, i < 1024

/-- What both programs are for, in every run on these lines: one message for each line, in order, and then an end; and
`rdfifo` stores inside its buffer, prints every byte once and ends when `wrfifo` has. -/
structure Right (lines : List (Line pid)) : Prop where
  messages : ∀ s, (system lines).Reachable s → OnePerLine lines s.messages
  ends : ∀ s, (system lines).Reachable s → ∃ as s', (system lines).run s as = some s' ∧ s'.writer = .exited ∧
    s'.messages.length = lines.length
  inside : ∀ s, (system lines).Reachable s → Inside s
  copied : ∀ s, (system lines).Reachable s → Copied s
  readerEnds : ∀ s, (system lines).Reachable s → s.writer = .exited → ∃ as s', (system lines).run s as = some s' ∧
    s'.reader = .exited

/-! ## wrfifo -/

/-- The text `wrfifo` has at hand. -/
def atHand : Writer pid → List (Text pid)
  | .body line => [line]
  | _ => []

/-- `wrfifo` is in its loop. It has taken the lines in order, and something else only after all of them. -/
structure Writing (lines : List (Line pid)) (s : State pid) : Prop where
  looping : s.writer = .getline ∨ ∃ line, s.writer = .body line
  fifo : s.fifo.closed = false
  taken : ∃ texts rest, texts ++ atHand s.writer ++ s.input.map Line.toText = lines.map Line.toText ++ rest ∧
    (rest ≠ [] → s.input = []) ∧ List.Forall₂ MessageOf texts s.messages

theorem Started.writing (h : Started lines s) : Writing lines s := by
  refine ⟨.inl h.writer, by rw [h.fifo]; rfl, [], [], ?_, fun hc => absurd rfl hc, ?_⟩
  · simp [h.writer, h.input, atHand]
  · rw [h.messages]
    exact .nil

theorem Writing.wrfifo {t : Tm} {left : Text pid} (h : Writing lines s) (hs : wrfifo t left s = some s') :
    Writing lines s' := by
  obtain ⟨texts, rest, htaken, hrest, hmessages⟩ := h.taken
  rcases h.looping with hpc | ⟨line, hpc⟩
  · rw [wrfifo_getline hpc, Option.some.injEq] at hs
    subst hs
    rw [hpc] at htaken
    cases hinput : s.input with
    | nil =>
      -- at the end of the input: the text that is left
      rw [hinput] at htaken
      refine ⟨.inr ⟨_, rfl⟩, h.fifo, texts, rest ++ [left], ?_, fun _ => rfl, hmessages⟩
      simp only [atHand, List.append_nil, List.map_nil] at htaken
      simp only [getline, atHand, List.map_nil, List.append_nil]
      rw [htaken, List.append_assoc]
    | cons line input =>
      rw [hinput] at htaken hrest
      have hnone : rest = [] := by
        by_contra hc
        cases hrest hc
      subst hnone
      refine ⟨.inr ⟨_, rfl⟩, h.fifo, texts, [], ?_, fun hc => absurd rfl hc, hmessages⟩
      simp only [getline, atHand, List.append_assoc, List.singleton_append]
      simpa [atHand] using htaken
  · rw [wrfifo_body hpc, Option.some.injEq] at hs
    subst hs
    rw [hpc] at htaken
    refine ⟨.inl rfl, h.fifo, texts ++ [line], rest, ?_, hrest, ?_⟩
    · simpa [atHand] using htaken
    · exact List.rel_append hmessages (.cons ⟨t, rfl⟩ .nil)

theorem Writing.rdfifo {n : ℕ} {t : Tm} {behind : List Char} (h : Writing lines s)
    (hs : rdfifo n t behind s = some s') : Writing lines s' := by
  obtain ⟨hlooping, hfifo, htaken⟩ := h
  cases rdfifo_cases hs with
  | read bytes fifo hpc hread hne => exact ⟨hlooping, (Pipe.read_spec hread).2.1.trans hfifo, htaken⟩
  | readEnd fifo hpc hread => exact ⟨hlooping, (Pipe.read_spec hread).2.1.trans hfifo, htaken⟩
  | print bytesRead hpc => exact ⟨hlooping, hfifo, htaken⟩
  | close hpc => exact ⟨hlooping, hfifo, htaken⟩

theorem reachable_writing (h : (system lines).Reachable s) : Writing lines s := by
  refine h.invariant (I := Writing lines) (fun s h0 => Started.writing h0) ?_
  rintro s (⟨t, left⟩ | ⟨n, t, behind⟩) s' - hI hs
  · exact hI.wrfifo hs
  · exact hI.rdfifo hs

/-- The messages of the lines come first. -/
theorem Writing.lines_first (h : Writing lines s) : OnePerLine lines (s.messages.take lines.length) := by
  obtain ⟨texts, rest, htaken, -, hmessages⟩ := h.taken
  have hread : (lines.map Line.toText ++ rest).take texts.length = texts := by
    rw [← htaken, List.append_assoc, List.take_left]
  have hfirst : texts.take lines.length = (lines.map Line.toText).take (min lines.length texts.length) := by
    calc texts.take lines.length = ((lines.map Line.toText ++ rest).take texts.length).take lines.length := by
          rw [hread]
      _ = (lines.map Line.toText ++ rest).take (min lines.length texts.length) := List.take_take
      _ = (lines.map Line.toText).take (min lines.length texts.length) :=
        List.take_append_of_le_length (by rw [List.length_map]; exact Nat.min_le_left ..)
  unfold OnePerLine
  rw [List.length_take, ← hmessages.length_eq, ← hfirst]
  exact List.forall₂_take _ hmessages

/-- Whatever has happened, `wrfifo` can write one more message. -/
theorem writes_on (h : (system lines).Reachable s) : ∃ s', (system lines).Reachable s' ∧
    s'.messages.length = s.messages.length + 1 := by
  let left : Text pid := .ofShort pid [] nofun (Nat.zero_le _)
  let a : Label pid := .wrfifo ⟨0, 0, 0⟩ left
  have hbody : ∀ {s line}, (system lines).Reachable s → s.writer = .body line → ∃ s', (system lines).Reachable s' ∧
      s'.messages.length = s.messages.length + 1 := fun {s line} h hpc =>
    ⟨_, h.next (a := a) (wrfifo_body hpc), by simp⟩
  rcases (reachable_writing h).looping with hpc | ⟨line, hpc⟩
  · obtain ⟨s₁, line, hnext, hpc₁, hsame⟩ : ∃ s₁ line, (system lines).next s a = some s₁ ∧
        s₁.writer = .body line ∧ s₁.messages = s.messages := ⟨_, _, wrfifo_getline hpc, rfl, rfl⟩
    rw [← hsame]
    exact hbody (h.next hnext) hpc₁
  · exact hbody h hpc

/-- So no number of messages is the last. -/
theorem exists_messages (lines : List (Line pid)) (n : ℕ) :
    ∃ s, (system lines).Reachable s ∧ s.messages.length = n := by
  induction n with
  | zero =>
    have h0 : Started lines ⟨.getline, lines, .empty, .read, List.replicate 1024 '?', [], [], [], []⟩ :=
      ⟨rfl, rfl, rfl, rfl, List.length_replicate, rfl, rfl, rfl, rfl⟩
    exact ⟨_, .init h0, rfl⟩
  | succ n ih =>
    obtain ⟨s, hs, rfl⟩ := ih
    exact writes_on hs

/-! ## rdfifo -/

/-- What `rdfifo` has read, printed and stored. Between its read and its print the bytes are at the start of its
buffer. -/
structure Reading (s : State pid) : Prop where
  length : s.buffer.length = 1024
  nul_not_mem : ∀ m ∈ s.messages, '\x00' ∉ m
  carries : Pipe.Carries s.messages.flatten s.reads.flatten s.fifo
  size : ∀ r ∈ s.reads, r.length ≤ 1024
  held : ∀ k, s.reader = .print k → s.reads = printedReads s ++ [s.buffer.take k] ∧ (s.buffer.take k).length = k
  stores : s.stores = (printedReads s).map List.length
  printed : (∀ r ∈ printedReads s, r.length ≠ 1024) → PrintedAs (printedReads s) s.out

theorem Started.reading (h : Started lines s) : Reading s where
  length := h.buffer
  nul_not_mem := by simp [h.messages]
  carries := by
    rw [h.messages, h.reads, h.fifo]
    exact Pipe.carries_empty
  size := by simp [h.reads]
  held k hk := by rw [h.reader] at hk; cases hk
  stores := by simp [printedReads, h.reader, h.reads, h.stores]
  printed _ := ⟨[], by simp [printedReads, h.reader, h.reads], by simp [h.out]⟩

/-- Nothing `rdfifo` has read contains a NUL. -/
theorem Reading.nul_not_mem_read (h : Reading s) {r : List Char} (hr : r ∈ s.reads) : '\x00' ∉ r := by
  intro hc
  have hmem : '\x00' ∈ s.messages.flatten := by
    rw [← h.carries]
    exact List.mem_append_left _ (List.mem_flatten.2 ⟨r, hr, hc⟩)
  obtain ⟨m, hm, hnul⟩ := List.mem_flatten.1 hmem
  exact h.nul_not_mem m hm hnul

theorem Reading.wrfifo {t : Tm} {left : Text pid} (h : Reading s) (hw : Writing lines s)
    (hs : wrfifo t left s = some s') : Reading s' := by
  obtain ⟨hlength, hnul, hcarries, hsize, hheld, hstores, hprinted⟩ := h
  rcases hw.looping with hpc | ⟨line, hpc⟩
  · rw [wrfifo_getline hpc, Option.some.injEq] at hs
    subst hs
    exact ⟨hlength, hnul, hcarries, hsize, hheld, hstores, hprinted⟩
  · rw [wrfifo_body hpc, Option.some.injEq] at hs
    subst hs
    refine ⟨hlength, fun m hm => ?_, ?_, hsize, hheld, hstores, hprinted⟩
    · rcases List.mem_append.1 hm with hm | hm
      · exact hnul m hm
      · rw [List.mem_singleton.1 hm]
        exact nul_not_mem_message line.nul_not_mem t
    · rw [List.flatten_append, List.flatten_singleton]
      exact hcarries.write _

/-- One more read printed. -/
theorem PrintedAs.concat {reads : List (List Char)} {out : List Char} (h : PrintedAs reads out) (t : Tm)
    (r : List Char) : PrintedAs (reads ++ [r]) (out ++ stamped t r) := by
  obtain ⟨ts, hlen, rfl⟩ := h
  refine ⟨ts ++ [t], by simp [hlen], ?_⟩
  rw [List.zipWith_append hlen]
  simp

/-- The string printed after a NUL stored inside the buffer. -/
theorem cString_set {buffer : List Char} {k : ℕ} (hk : k < buffer.length) (hnul : '\x00' ∉ buffer.take k)
    (behind : List Char) : cString (buffer.set k '\x00' ++ behind) = buffer.take k := by
  rw [List.set_eq_take_append_cons_drop, if_pos hk, List.append_assoc, List.cons_append]
  exact cString_append_nul hnul _

theorem Reading.rdfifo {n : ℕ} {t : Tm} {behind : List Char} (h : Reading s)
    (hs : rdfifo n t behind s = some s') : Reading s' := by
  have hcarries := h.carries
  have hstores := h.stores
  have hprinted := h.printed
  have hall : (∀ k, s.reader ≠ .print k) → printedReads s = s.reads := fun hpc => by
    unfold printedReads
    split
    · rename_i k hk
      exact absurd hk (hpc k)
    · rfl
  cases rdfifo_cases hs with
  | read bytes fifo hpc hread hne =>
    obtain ⟨-, -, hsize, -⟩ := Pipe.read_spec hread
    rw [hall fun k hk => by rw [hpc] at hk; cases hk] at hstores hprinted
    have hdone : (s.reads ++ [bytes]).dropLast = s.reads := List.dropLast_concat
    refine ⟨?_, h.nul_not_mem, ?_, fun r hr => ?_, fun k hk => ?_, ?_, ?_⟩
    · have hlength := h.length
      simp only [overwrite, List.length_append, List.length_drop]
      omega
    · rw [List.flatten_append, List.flatten_singleton]
      exact hcarries.read hread
    · rcases List.mem_append.1 hr with hr | hr
      · exact h.size r hr
      · rw [List.mem_singleton.1 hr]
        exact hsize
    · cases hk
      simp only [printedReads, overwrite, hdone, List.take_left, and_self]
    · simpa only [printedReads, hdone] using hstores
    · simpa only [printedReads, hdone] using hprinted
  | readEnd fifo hpc hread =>
    rw [hall fun k hk => by rw [hpc] at hk; cases hk] at hstores hprinted
    have hcarries' := hcarries.read hread
    rw [List.append_nil] at hcarries'
    exact ⟨h.length, h.nul_not_mem, hcarries', h.size, (by rintro _ ⟨⟩), hstores, hprinted⟩
  | print bytesRead hpc =>
    obtain ⟨hreads, hlen⟩ := h.held bytesRead hpc
    have hmem : s.buffer.take bytesRead ∈ s.reads := by
      rw [hreads]
      exact List.mem_append_right _ (List.mem_singleton_self _)
    refine ⟨by rw [List.length_set]; exact h.length, h.nul_not_mem, hcarries, h.size, (by rintro _ ⟨⟩), ?_,
      fun hshort => ?_⟩
    · show s.stores ++ [bytesRead] = s.reads.map List.length
      rw [hreads, List.map_append, hstores, List.map_singleton, hlen]
    · -- the bytes read do not fill the buffer, so the NUL is right behind them
      show PrintedAs s.reads _
      have hlt : bytesRead < s.buffer.length := by
        rw [h.length, ← hlen]
        exact Nat.lt_of_le_of_ne (h.size _ hmem) (hshort _ hmem)
      rw [cString_set hlt (h.nul_not_mem_read hmem)]
      have hbefore := hprinted fun r hr => hshort r (hreads ▸ List.mem_append_left _ hr)
      have hafter := hbefore.concat t (s.buffer.take bytesRead)
      rwa [← hreads] at hafter
  | close hpc =>
    rw [hall fun k hk => by rw [hpc] at hk; cases hk] at hstores hprinted
    exact ⟨h.length, h.nul_not_mem, hcarries, h.size, (by rintro _ ⟨⟩), hstores, hprinted⟩

theorem reachable_reading (h : (system lines).Reachable s) : Reading s := by
  refine h.invariant (I := Reading) (fun s h0 => Started.reading h0) ?_
  rintro s (⟨t, left⟩ | ⟨n, t, behind⟩) s' hreach hI hs
  · exact hI.wrfifo (reachable_writing hreach) hs
  · exact hI.rdfifo hs

/-- `rdfifo` has stored inside its buffer iff no read that it has printed filled it. -/
theorem Reading.inside_iff (h : Reading s) : Inside s ↔ ∀ r ∈ printedReads s, r.length ≠ 1024 := by
  have hle : ∀ r ∈ printedReads s, r.length ≤ 1024 := fun r hr => h.size r (mem_of_mem_printedReads hr)
  unfold Inside
  rw [h.stores]
  simp only [List.mem_map, forall_exists_index, and_imp, forall_apply_eq_imp_iff₂]
  constructor
  · intro hin r hr
    exact (hin r hr).ne
  · intro hne r hr
    exact Nat.lt_of_le_of_ne (hle r hr) (hne r hr)

/-- Once the FIFO is closed `rdfifo` reads what is left in it and comes to its end. -/
theorem rdfifo_ends (n : ℕ) {s : State pid} (hle : s.fifo.bytes.length ≤ n) (hclosed : s.fifo.closed = true)
    (hpc : s.reader = .read) : ∃ as s', (system lines).run s as = some s' ∧ s'.reader = .exited := by
  induction n using Nat.strong_induction_on generalizing s with
  | _ n ih =>
    obtain ⟨k, ⟨bytes, fifo⟩, hread⟩ := Pipe.exists_read (show 1 ≤ 1024 by decide) hclosed
    obtain ⟨hbytes, hstill, -, -⟩ := Pipe.read_spec hread
    let a : Label pid := .rdfifo k ⟨0, 0, 0⟩ []
    by_cases hnil : bytes = []
    · subst hnil
      refine ⟨[a, a], { s with reader := .exited, fifo }, ?_, rfl⟩
      simp [System.run, system, next, rdfifo, a, hpc, hread]
    · obtain ⟨s₂, hrun, hpc₂, hfifo₂⟩ : ∃ s₂, (system lines).run s [a, a] = some s₂ ∧ s₂.reader = .read ∧
          s₂.fifo = fifo := by
        simp [System.run, system, next, rdfifo, a, hpc, hread, hnil]
      -- fewer bytes are left
      have hpos := List.length_pos_iff.2 hnil
      have hlen := congrArg List.length hbytes
      rw [List.length_append] at hlen
      obtain ⟨as, s', hrun', hexit⟩ := ih fifo.bytes.length (by omega) (le_of_eq (by rw [hfifo₂]))
        (by rw [hfifo₂, hstill]; exact hclosed) hpc₂
      exact ⟨[a, a] ++ as, s', by rw [System.run_append, hrun]; exact hrun', hexit⟩

/-! ## Both programs -/

/-- Whatever the lines are, `wrfifo` never ends, so the programs do not do what they are for. In every state the
messages of the lines come first, `rdfifo` has stored inside its buffer iff no read that it has printed filled it, and
then it has printed every byte it has read once. -/
theorem never_right (lines : List (Line pid)) : ¬ Right lines ∧ ∀ s, (system lines).Reachable s →
    s.writer ≠ .exited ∧ OnePerLine lines (s.messages.take lines.length) ∧
    (Inside s ↔ ∀ r ∈ printedReads s, r.length ≠ 1024) ∧ (Inside s → Copied s) := by
  have hgoes : ∀ s, (system lines).Reachable s → s.writer ≠ .exited := fun s h hc => by
    rcases (reachable_writing h).looping with hpc | ⟨line, hpc⟩ <;> rw [hpc] at hc <;> cases hc
  refine ⟨fun hright => ?_, fun s h => ?_⟩
  · obtain ⟨s, hs, -⟩ := exists_messages lines 0
    obtain ⟨as, s', hrun, hexit, -⟩ := hright.ends s hs
    exact hgoes s' (System.Reachable.run as hs hrun) hexit
  · have hreading := reachable_reading h
    refine ⟨hgoes s h, (reachable_writing h).lines_first, hreading.inside_iff, fun hin => ⟨hreading.carries, ?_⟩⟩
    exact hreading.printed (hreading.inside_iff.1 hin)

/-- The process 7, and the line `a`. -/
def seven : Pid := ⟨7, by decide⟩

def aLine : Line seven where
  toText := .ofShort seven ['a', '\n'] (by decide) (by decide)
  ne_nil := nofun

def aStart : State seven := ⟨.getline, [aLine], .empty, .read, List.replicate 1024 '?', [], [], [], []⟩

theorem aStart_reachable : (system [aLine]).Reachable aStart :=
  .init ⟨rfl, rfl, rfl, rfl, List.length_replicate, rfl, rfl, rfl, rfl⟩

/-- The first message, read and printed. -/
theorem never_right_aLine : ∃ s, (system [aLine]).run aStart
    [.wrfifo ⟨0, 0, 0⟩ aLine.toText, .wrfifo ⟨0, 0, 0⟩ aLine.toText, .rdfifo 14 ⟨0, 0, 0⟩ [], .rdfifo 0 ⟨0, 0, 0⟩ []] =
    some s ∧ s.stores = [14] ∧ ¬ Right [aLine] ∧ Copied s := by
  refine ⟨_, rfl, rfl, (never_right [aLine]).1, ?_⟩
  have hreach := System.Reachable.run
    [.wrfifo ⟨0, 0, 0⟩ aLine.toText, .wrfifo ⟨0, 0, 0⟩ aLine.toText, .rdfifo 14 ⟨0, 0, 0⟩ [], .rdfifo 0 ⟨0, 0, 0⟩ []]
    aStart_reachable rfl
  exact ((never_right [aLine]).2 _ hreach).2.2.2 (by unfold Inside; decide)

/-- `getline`, a turn of the loop, and both again at the end of the input, where `line` is as it was. -/
def aTwice : List (Label seven) := List.replicate 4 (.wrfifo ⟨0, 0, 0⟩ aLine.toText)

theorem aTwice_messages : ((system [aLine]).run aStart aTwice).map State.messages =
    some [message seven ⟨0, 0, 0⟩ ['a', '\n'], message seven ⟨0, 0, 0⟩ ['a', '\n']] := rfl

/-- The one line is written twice. -/
theorem line_written_twice : ¬ Right [aLine] ∧ ∃ s, (system [aLine]).Reachable s ∧
    s.messages = [message seven ⟨0, 0, 0⟩ ['a', '\n'], message seven ⟨0, 0, 0⟩ ['a', '\n']] := by
  obtain ⟨s, hrun, hmessages⟩ := Option.map_eq_some_iff.1 aTwice_messages
  have hreach := System.Reachable.run aTwice aStart_reachable hrun
  refine ⟨fun hright => ?_, s, hreach, hmessages⟩
  have hlen := (hright.messages s hreach).length_eq
  rw [hmessages] at hlen
  simp at hlen

end Sysopy.Fifo
