/-
Finite directory trees with symbolic links: the nodes below a directory, with links followed or
not, what the calls on pathnames say of a tree, and which calls of its function a walk of `ftw`
makes. A node has one path of its own, the one that `realpath` gives. A link holds the node it
leads to, so no link leads back to a directory it is in.
-/
import Sysopy.CText.Compare

namespace Sysopy.Files

open Sysopy.CText

abbrev Path := List Char

/-- The types that `d_type` tells apart here; `other` are FIFOs, sockets and devices. -/
inductive FileType where
  | dir | reg | lnk | other
deriving DecidableEq, Repr

structure Stat where
  mode : ℕ
  size : ℤ
  atime : ℤ

/-- A node of a directory tree. The entries of a directory stand in the order they are read in. -/
inductive Node where
  | reg (path : Path) (st : Stat)
  | other (path : Path) (st : Stat)
  | lnk (path : Path) (target : Option Node)
  | dir (path : Path) (st : Stat) (entries : List (CStr × Node))

/-- What a pathname is resolved to, links followed: a node that is no link. -/
structure Target where
  path : Path
  stat : Stat
  isDir : Bool

namespace Node

def path : Node → Path
  | reg p _ | other p _ | lnk p _ | dir p _ _ => p

def type : Node → FileType
  | reg .. => .reg
  | other .. => .other
  | lnk .. => .lnk
  | dir .. => .dir

/-- Where the node leads; a dangling link leads nowhere. -/
def resolve : Node → Option Target
  | reg p st | other p st => some ⟨p, st, false⟩
  | dir p st _ => some ⟨p, st, true⟩
  | lnk _ none => none
  | lnk _ (some n) => n.resolve

mutual

/-- The nodes below a node: those of its entries and all below them, through links if `follow`. -/
def under (follow : Bool) : Node → List Node
  | dir _ _ es => underEntries follow es
  | lnk _ (some n) => if follow then n.under follow else []
  | _ => []

def underEntries (follow : Bool) : List (CStr × Node) → List Node
  | [] => []
  | (_, n) :: es => n :: (n.under follow ++ underEntries follow es)

end

theorem underEntries_eq (follow : Bool) (es : List (CStr × Node)) :
    underEntries follow es = es.flatMap fun e => e.2 :: e.2.under follow := by
  induction es with
  | nil => rw [underEntries, List.flatMap_nil]
  | cons e es ih => rw [underEntries, ih, List.flatMap_cons, List.cons_append]

@[simp] theorem under_reg (follow : Bool) (p : Path) (st : Stat) : (reg p st).under follow = [] := rfl

@[simp] theorem under_other (follow : Bool) (p : Path) (st : Stat) : (other p st).under follow = [] := rfl

@[simp] theorem under_dangling (follow : Bool) (p : Path) : (lnk p none).under follow = [] := rfl

@[simp] theorem under_lnk (follow : Bool) (p : Path) (n : Node) :
    (lnk p (some n)).under follow = if follow then n.under follow else [] := by rw [under]

@[simp] theorem under_dir (follow : Bool) (p : Path) (st : Stat) (es : List (CStr × Node)) :
    (dir p st es).under follow = es.flatMap fun e => e.2 :: e.2.under follow := by
  rw [under, underEntries_eq]

theorem under_eq_nil {n : Node} (hn : n.type ≠ .dir) : n.under false = [] := by
  cases n with
  | reg | other => simp
  | lnk p n => cases n <;> simp
  | dir => exact absurd rfl hn

theorem sizeOf_entry_lt {p : Path} {st : Stat} {es : List (CStr × Node)} {e : CStr × Node} (he : e ∈ es) :
    sizeOf e.2 < sizeOf (dir p st es) := by
  have hlt := List.sizeOf_lt_of_mem he
  obtain ⟨name, n⟩ := e
  simp only [Prod.mk.sizeOf_spec, dir.sizeOf_spec] at hlt ⊢
  omega

/-- Induction on a node, with a hypothesis for every entry of a directory. -/
@[elab_as_elim]
theorem entryInduction {motive : Node → Prop} (reg : ∀ p st, motive (reg p st)) (other : ∀ p st, motive (other p st))
    (dangling : ∀ p, motive (lnk p none)) (lnk : ∀ p n, motive n → motive (lnk p (some n)))
    (dir : ∀ p st es, (∀ e ∈ es, motive e.2) → motive (dir p st es)) : ∀ n, motive n
  | .reg p st => reg p st
  | .other p st => other p st
  | .lnk p none => dangling p
  | .lnk p (some n) => lnk p n (entryInduction reg other dangling lnk dir n)
  | .dir p st es => dir p st es fun e _ => entryInduction reg other dangling lnk dir e.2
termination_by n => sizeOf n
decreasing_by
  · decreasing_tactic
  · exact sizeOf_entry_lt ‹e ∈ es›

end Node

/-- A directory and what is below it, where every node has a path of its own. -/
structure Tree where
  root : Node
  isDir : root.type = .dir
  distinct : ((root.under false).map Node.path).Nodup

/-- What the calls on pathnames return. -/
structure FileSystem where
  /-- The entries that `readdir` gives after `opendir`, which fails on `none`. -/
  readdir : Path → Option (List (CStr × FileType))
  stat : Path → Option Stat
  realpath : Path → Path

/-- The calls that follow links, on a pathname of a node. -/
structure Resolves (fs : FileSystem) (p : Path) (n : Node) : Prop where
  stat : fs.stat p = n.resolve.map Target.stat
  realpath : ∀ t, n.resolve = some t → fs.realpath p = t.path

def isDot (s : CStr) : Bool := s.1 = ".".toList || s.1 = "..".toList

theorem isDot_iff (s : CStr) :
    isDot s = true ↔ ¬ (strcmp s.1 ".".toList ≠ 0 ∧ strcmp s.1 "..".toList ≠ 0) := by
  rw [Ne, Ne, strcmp_eq_zero_iff s.2 (by decide), strcmp_eq_zero_iff s.2 (by decide), isDot]
  simp only [Bool.or_eq_true, decide_eq_true_eq]
  tauto

theorem isDot_eq_false_iff (s : CStr) :
    isDot s = false ↔ strcmp s.1 ".".toList ≠ 0 ∧ strcmp s.1 "..".toList ≠ 0 := by
  rw [← Bool.not_eq_true, isDot_iff, not_not]

/-- `p` is a pathname of the node, and with the names of the entries appended of the nodes below it.
A directory can be read: beside its entries it lists "." and "..", and no pathname has `cap` bytes. -/
inductive Mounted (fs : FileSystem) (cap : ℕ) : Path → Node → Prop
  | leaf {p : Path} {n : Node} (type : n.type ≠ .dir) (resolves : Resolves fs p n) : Mounted fs cap p n
  | dir {p path : Path} {st : Stat} {es : List (CStr × Node)} {l : List (CStr × FileType)}
      (resolves : Resolves fs p (.dir path st es)) (read : fs.readdir p = some l)
      (dots : ∀ e ∈ l, isDot e.1 = true → e.2 = .dir)
      (entries : (l.filter fun e => !isDot e.1) = es.map fun e => (e.1, e.2.type))
      (short : ∀ e ∈ es, (p ++ '/' :: e.1.1).length < cap)
      (below : ∀ e ∈ es, Mounted fs cap (p ++ '/' :: e.1.1) e.2) : Mounted fs cap p (.dir path st es)

theorem Mounted.resolves {fs : FileSystem} {cap : ℕ} {p : Path} {n : Node} (h : Mounted fs cap p n) :
    Resolves fs p n := by
  cases h with
  | leaf _ h => exact h
  | dir h => exact h

/-! ## ftw -/

theorem nul_not_mem_dot : '\x00' ∉ ".".toList := by decide

theorem nul_not_mem_dotDot : '\x00' ∉ "..".toList := by decide

theorem nul_not_mem_nameA : '\x00' ∉ "a".toList := by decide

theorem nul_not_mem_nameB : '\x00' ∉ "b".toList := by decide

theorem nul_not_mem_nameD : '\x00' ∉ "d".toList := by decide

/-- The file system in which each listed pathname is that of the node beside it. -/
def fileSystem (nodes : List (Path × Node)) : FileSystem where
  readdir p := (nodes.lookup p).bind fun n =>
    match n with
    | .dir _ _ es =>
      some ((⟨".".toList, nul_not_mem_dot⟩, .dir) :: (⟨"..".toList, nul_not_mem_dotDot⟩, .dir) ::
        es.map fun e => (e.1, e.2.type))
    | _ => none
  stat p := (nodes.lookup p).bind fun n => n.resolve.map Target.stat
  realpath p := (((nodes.lookup p).bind Node.resolve).map Target.path).getD p

theorem resolves_fileSystem {nodes : List (Path × Node)} {p : Path} {n : Node} (h : nodes.lookup p = some n) :
    Resolves (fileSystem nodes) p n where
  stat := by simp [fileSystem, h]
  realpath t ht := by simp [fileSystem, h, ht]

theorem mounted_fileSystem {nodes : List (Path × Node)} {cap : ℕ} {p path : Path} {st : Stat} {es : List (CStr × Node)}
    (h : nodes.lookup p = some (.dir path st es)) (hnames : ∀ e ∈ es, isDot e.1 = false)
    (hshort : ∀ e ∈ es, (p ++ '/' :: e.1.1).length < cap)
    (hbelow : ∀ e ∈ es, Mounted (fileSystem nodes) cap (p ++ '/' :: e.1.1) e.2) :
    Mounted (fileSystem nodes) cap p (.dir path st es) := by
  -- "." and ".." head the list, and no entry of the tree is called so
  refine .dir (resolves_fileSystem h) (by simp only [fileSystem, h]; rfl) ?_ ?_ hshort hbelow
  · intro e he hdot
    rcases List.mem_cons.1 he with rfl | he
    · rfl
    rcases List.mem_cons.1 he with rfl | he
    · rfl
    obtain ⟨x, hx, rfl⟩ := List.mem_map.1 he
    rw [hnames x hx] at hdot
    cases hdot
  · rw [List.filter_cons_of_neg (by decide), List.filter_cons_of_neg (by decide), List.filter_eq_self]
    intro e he
    obtain ⟨x, hx, rfl⟩ := List.mem_map.1 he
    simp [hnames x hx]

end Sysopy.Files
