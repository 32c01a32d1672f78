/-
The reports of the prime service in both versions: a client prints its id, the number and the result of its test
into a message, and the server reads them back. The text fits in every array it goes through, and what is read is
what was printed, so that a message says which report it is.
-/
import Sysopy.PrimeQueue.Posix
import Sysopy.PrimeQueue.SysV

namespace Sysopy.PrimeQueue

open Sysopy.CText

/-- What a client reports: three ints, of which the last one is a result of `is_prime`. -/
@[ext] structure Report where
  clientId : ℤ
  number : ℤ
  isNumPrime : ℤ
  clientId_inInt : InInt clientId
  number_inInt : InInt number
  isNumPrime_eq : isNumPrime = 0 ∨ isNumPrime = 1

namespace Report

variable (r : Report)

def fields : ℤ × ℤ × ℤ := (r.clientId, r.number, r.isNumPrime)

theorem fields_injective : Function.Injective fields := by
  intro r r' h
  simp only [fields, Prod.mk.injEq] at h
  exact Report.ext h.1 h.2.1 h.2.2

/-- The three numbers with a separator between them. -/
def text (c : Char) : List Char := printTriple c r.clientId r.number r.isNumPrime

/-- `sscanf` with the same separator. -/
theorem scan_text {c : Char} (hc : c.isDigit = false) (stack : ℤ × ℤ × ℤ) :
    scanTriple c (r.text c) stack = r.fields := by
  have hprime : InInt r.isNumPrime := by rcases r.isNumPrime_eq with h | h <;> rw [h] <;> decide
  exact scanTriple_printTriple hc r.clientId_inInt r.number_inInt hprime stack

theorem length_text (c : Char) : (r.text c).length ≤ 25 :=
  length_printTriple_le c r.clientId_inInt r.number_inInt r.isNumPrime_eq

theorem nul_not_mem_text {c : Char} (hc : c ≠ '\x00') : '\x00' ∉ r.text c := nul_not_mem_printTriple hc _ _ _

end Report

/-! ## The two formats -/

namespace SysV

/-- `sprintf(msg, "%d %d %d", ...)` and `strcpy(buf.value, msg)`: `msg` and `value` have 32 characters. -/
def sendReport (r : Report) : Option (CharArray 32) :=
  (CharArray.put 32 (r.text ' ')).bind fun msg => CharArray.put 32 msg.string

/-- `sscanf(buf.value, "%d %d %d", ...)`; `stack` is what the variables hold before. -/
def readReport (value : CharArray 32) (stack : ℤ × ℤ × ℤ) : ℤ × ℤ × ℤ := scanTriple ' ' value.string stack

theorem sendReport_eq (r : Report) : ∃ value, sendReport r = some value ∧ value.string = r.text ' ' := by
  have hlen := r.length_text ' '
  have hput : ∃ a : CharArray 32, CharArray.put 32 (r.text ' ') = some a ∧ a.string = r.text ' ' :=
    CharArray.exists_put (r.nul_not_mem_text (by decide)) (by omega)
  obtain ⟨msg, hmsg, hstring⟩ := hput
  refine ⟨msg, ?_, hstring⟩
  unfold sendReport
  rw [hmsg, Option.bind_some, hstring, hmsg]

/-- The report that the client's main loop sends about a number. -/
theorem handleClient_report {v : Client} {r : Report} (ht : v.buf.type = 2) (hid : r.clientId = v.clientId)
    (hn : r.number = atoi v.buf.value) (hp : r.isNumPrime = isPrime r.number) :
    (handleClient v).buf = ⟨3, r.text ' '⟩ := by
  unfold handleClient Report.text
  simp only [ht, if_true, show ¬ (2 : ℤ) = 1 by decide, if_false, hid, hp, hn]

end SysV

namespace Posix

/-- `snprintf(msg, 32, "%d,%d,%d", ...)`: 31 characters are kept. -/
def printReport (r : Report) : List Char := (r.text ',').take 31

/-- The message of `strcpy(buf + 1, msg)`, `buf[0] = 3` and `mq_send` with the length of the string in `buf`. -/
def sendReport (r : Report) (buf : Buffer) : List Char := cString (setByte0 '\x03' (strcpy1 (printReport r) buf))

/-- `sscanf(buf + 1, "%d,%d,%d", ...)` once the message is in a cleared buffer. -/
def readReport (m : List Char) (stack : ℤ × ℤ × ℤ) : ℤ × ℤ × ℤ := scanTriple ',' (cString (overwrite m []).tail) stack

theorem printReport_eq (r : Report) : printReport r = r.text ',' := by
  have hlen := r.length_text ','
  exact List.take_of_length_le (by omega)

theorem sendReport_eq (r : Report) (buf : Buffer) : sendReport r buf = '\x03' :: r.text ',' := by
  unfold sendReport
  rw [printReport_eq]
  exact cString_setByte0_strcpy1 (by decide) (r.nul_not_mem_text (by decide)) buf

/-- The report that the client's main loop sends about a number. -/
theorem handleClient_report {v : Client} {r : Report} (ht : byte0 v.buf = '\x02') (hid : r.clientId = v.clientId)
    (hn : r.number = atoi (cString v.buf.tail)) (hp : r.isNumPrime = isPrime r.number) :
    cString (handleClient v).buf = sendReport r v.buf := by
  unfold handleClient sendReport printReport Report.text
  simp only [ht, if_true, show ¬ '\x02' = '\x01' by decide, if_false, hid, hp, hn]

end Posix

/-! ## Reading back -/

/-- In both versions every report fits in the arrays it goes through, the server reads back what the client
printed, and two reports never give the same message. -/
theorem reports_read_back :
    (∀ r, ∃ value, SysV.sendReport r = some value ∧ ∀ stack, SysV.readReport value stack = r.fields) ∧
    Function.Injective SysV.sendReport ∧
    (∀ r buf, (r.text ',').length + 1 ≤ 32 ∧ Posix.printReport r = r.text ',' ∧
      ∀ stack, Posix.readReport (Posix.sendReport r buf) stack = r.fields) ∧
    ∀ r r' buf buf', Posix.sendReport r buf = Posix.sendReport r' buf' → r = r' := by
  have hsysv : ∀ r, ∃ value, SysV.sendReport r = some value ∧ ∀ stack, SysV.readReport value stack = r.fields := by
    intro r
    obtain ⟨value, hsend, hstring⟩ := SysV.sendReport_eq r
    refine ⟨value, hsend, fun stack => ?_⟩
    rw [SysV.readReport, hstring]
    exact r.scan_text (by decide) stack
  have hposix : ∀ r buf stack, Posix.readReport (Posix.sendReport r buf) stack = r.fields := by
    intro r buf stack
    rw [Posix.sendReport_eq, Posix.readReport, overwrite_nil, List.tail_cons,
      cString_eq_self (r.nul_not_mem_text (by decide))]
    exact r.scan_text (by decide) stack
  refine ⟨hsysv, fun r r' h => ?_, fun r buf => ⟨?_, Posix.printReport_eq r, hposix r buf⟩, fun r r' buf buf' h => ?_⟩
  · obtain ⟨value, hsend, hread⟩ := hsysv r
    obtain ⟨value', hsend', hread'⟩ := hsysv r'
    obtain rfl : value = value' := Option.some.inj (hsend.symm.trans (h.trans hsend'))
    exact Report.fields_injective ((hread (0, 0, 0)).symm.trans (hread' (0, 0, 0)))
  · have hlen := r.length_text ','
    omega
  · refine Report.fields_injective ?_
    rw [← hposix r buf (0, 0, 0), h, hposix]

end Sysopy.PrimeQueue
