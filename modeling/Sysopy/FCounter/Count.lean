/-
What there is to count: the regular files below a directory are its own and those of its subdirectories. And what
comes through an exit status: the low byte of a number, so that a sum of statuses is right just if no number is
larger.
-/
import Sysopy.FCounter.Model

namespace Sysopy.FCounter

open Sysopy.CText Sysopy.Conc Sysopy.Files

/-! ## Trees of directories and regular files -/

/-- Directories and regular files only, as `st_mode` tells them apart. -/
inductive Plain : Node → Prop
  | reg {p : Path} {st : Stat} (mode : S_ISREG st.mode = true) : Plain (.reg p st)
  | dir {p : Path} {st : Stat} {es : List (CStr × Node)} (mode : S_ISDIR st.mode = true)
      (entries : ∀ e ∈ es, Plain e.2) : Plain (.dir p st es)

/-- The number of regular files below a node. -/
def regularFiles (n : Node) : ℕ := (n.under false).countP fun m => decide (m.type = .reg)

/-- The regular files among the entries. -/
def regs (es : List (CStr × Node)) : ℕ := es.countP fun e => decide (e.2.type = .reg)

/-- The directories among the entries. -/
def subdirs (es : List (CStr × Node)) : List Node := (es.map Prod.snd).filter fun n => decide (n.type = .dir)

/-- The subdirectories of a directory. -/
def subdirectories : Node → List Node
  | .dir _ _ es => subdirs es
  | _ => []

section Entries

variable {e : CStr × Node} {es : List (CStr × Node)}

theorem regs_append_reg (h : e.2.type = .reg) : regs (es ++ [e]) = regs es + 1 := by simp [regs, h]

theorem regs_append_dir (h : e.2.type = .dir) : regs (es ++ [e]) = regs es := by simp [regs, h]

theorem subdirs_append_reg (h : e.2.type = .reg) : subdirs (es ++ [e]) = subdirs es := by simp [subdirs, h]

theorem subdirs_append_dir (h : e.2.type = .dir) : subdirs (es ++ [e]) = subdirs es ++ [e.2] := by simp [subdirs, h]

theorem regularFiles_of_ne {n : Node} (hn : n.type ≠ .dir) : regularFiles n = 0 := by
  rw [regularFiles, Node.under_eq_nil hn, List.countP_nil]

theorem regularFiles_entries (es : List (CStr × Node)) :
    (es.flatMap fun e => e.2 :: e.2.under false).countP (fun m => decide (m.type = .reg)) =
      regs es + ((subdirs es).map regularFiles).sum := by
  induction es with
  | nil => rfl
  | cons e es ih =>
    have hbelow : (e.2.under false).countP (fun m => decide (m.type = .reg)) = regularFiles e.2 := rfl
    rw [List.flatMap_cons, List.countP_append, List.countP_cons, ih, hbelow]
    by_cases hd : e.2.type = .dir
    · simp only [regs, subdirs, List.countP_cons, List.map_cons, List.filter_cons, hd]
      simp
      omega
    · rw [regularFiles_of_ne hd]
      simp only [regs, subdirs, List.countP_cons, List.map_cons, List.filter_cons, hd]
      simp
      omega

/-- The files below a directory are its own and those of its subdirectories. -/
theorem regularFiles_dir (p : Path) (st : Stat) (es : List (CStr × Node)) :
    regularFiles (.dir p st es) = regs es + ((subdirs es).map regularFiles).sum := by
  rw [regularFiles, Node.under_dir, regularFiles_entries]

end Entries

/-! ## Exit statuses -/

theorem WEXITSTATUS_shift (n : ℕ) : WEXITSTATUS (n <<< 8) = n % 256 := by
  unfold WEXITSTATUS
  rw [Nat.shiftRight_and_distrib, Nat.shiftLeft_shiftRight]
  exact Nat.and_two_pow_sub_one_eq_mod n 8

theorem WEXITSTATUS_lt (status : ℕ) : WEXITSTATUS status < 256 := by
  unfold WEXITSTATUS
  rw [Nat.shiftRight_and_distrib]
  exact Nat.lt_succ_of_le Nat.and_le_right

/-- Only the low byte comes back. -/
theorem WEXITSTATUS_exitStatus (value : ℤ) : (WEXITSTATUS (exitStatus value) : ℤ) = value % 256 := by
  rw [exitStatus, WEXITSTATUS_shift]
  omega

/-- What children that have counted `ns` add up to: their values, of each the low byte. -/
def reported (ns : List Node) : ℕ := (ns.map fun n => regularFiles n % 256).sum

theorem reported_append_singleton (ns : List Node) (m : Node) :
    reported (ns ++ [m]) = reported ns + regularFiles m % 256 := by simp [reported]

theorem reported_perm {ns ns' : List Node} (h : ns.Perm ns') : reported ns = reported ns' := (h.map _).sum_eq

theorem reported_le (ns : List Node) : reported ns ≤ (ns.map regularFiles).sum :=
  List.sum_le_sum fun _ _ => Nat.mod_le _ _

theorem reported_emod (ns : List Node) : reported ns % 256 = (ns.map regularFiles).sum % 256 := by
  induction ns with
  | nil => rfl
  | cons n ns ih =>
    unfold reported at ih ⊢
    simp only [List.map_cons, List.sum_cons]
    omega

/-- Nothing is lost just if every value fits into the byte. -/
theorem reported_eq_iff (ns : List Node) :
    reported ns = (ns.map regularFiles).sum ↔ ∀ n ∈ ns, regularFiles n < 256 := by
  induction ns with
  | nil => simp [reported]
  | cons n ns ih =>
    have hle := reported_le ns
    rw [List.forall_mem_cons, ← ih]
    unfold reported at hle ⊢
    simp only [List.map_cons, List.sum_cons]
    omega

end Sysopy.FCounter
