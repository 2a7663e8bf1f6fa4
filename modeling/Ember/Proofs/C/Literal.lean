import Ember.C.Escape
import Mathlib.Data.UInt

/-!
# Strings of C

A string of C is read character by character. An octal escape has at most three digits: it is complete with the third of them, or ends
with the first character that does not belong to it. A text between quotes is read back byte by byte, whatever its characters
(`quoted_decodable`).
-/

namespace Ember.C

/-- Where the reading of a string stands. -/
inductive Reading where
  | start
  | inside
  /-- A backslash was read. -/
  | escape
  /-- One or two digits of an octal escape were read, and their value. -/
  | octal (last : Bool) (value : Nat)
  | closed
deriving DecidableEq, Repr

/-- The byte of a simple escape. -/
def simpleEscape? (c : Char) : Option UInt8 :=
  match c with
  | '\'' | '"' | '?' | '\\' => some c.toUInt8
  | 'a' => some 7
  | 'b' => some 8
  | 't' => some 9
  | 'n' => some 10
  | 'v' => some 11
  | 'f' => some 12
  | 'r' => some 13
  | _ => none

/-- An octal digit. -/
def isOctal (c : Char) : Bool :=
  '0' ≤ c && c ≤ '7'

namespace Reading

/-- Reads a character outside of escapes. A string ends on its line. -/
def plain (c : Char) : Option (List UInt8 × Reading) :=
  if c = '"' then some ([], closed)
  else if c = '\\' then some ([], escape)
  else if c = '\n' then none
  else some (String.utf8EncodeChar c, inside)

/-- Reads a character: the bytes that are complete with it, and where the reading stands then. -/
def step (state : Reading) (c : Char) : Option (List UInt8 × Reading) :=
  match state with
  | start => if c = '"' then some ([], inside) else none
  | inside => plain c
  | escape =>
    if isOctal c then some ([], octal false (Number.digitValue c)) else (simpleEscape? c).map fun byte => ([byte], inside)
  | octal last value =>
    let longer := value * 8 + Number.digitValue c
    if !isOctal c then (plain c).map fun (bytes, state) => (UInt8.ofNat value :: bytes, state)
    else if !last then some ([], octal true longer)
    else if longer < 256 then some ([UInt8.ofNat longer], inside)
    else none
  | closed => none

/-- Reads characters one after the other. -/
def run : Reading → List Char → Option (List UInt8 × Reading)
  | state, [] => some ([], state)
  | state, c :: cs => do
    let (bytes, state) ← step state c
    let (more, state) ← run state cs
    return (bytes ++ more, state)

end Reading

/-- The bytes of a text that is one string of C. -/
def literal? (text : String) : Option (List UInt8) :=
  match Reading.start.run text.toList with
  | some (bytes, .closed) => some bytes
  | _ => none

namespace Reading

theorem run_append (state : Reading) (l l' : List Char) : state.run (l ++ l') = (do
    let (bytes, state) ← state.run l
    let (more, state) ← state.run l' return (bytes ++ more, state)) := by
  induction l generalizing state with
  | nil => simp [run]
  | cons c l ih => simp [run, ih, Option.bind_assoc]

/-- A string does not go on behind a line feed. -/
theorem step_newline (state : Reading) : state.step '\n' = none := by
  cases state <;> rfl

theorem newline_not_mem {state : Reading} {l : List Char} {read : List UInt8 × Reading} (h : state.run l = some read) : '\n' ∉ l := by
  induction l generalizing state read with
  | nil => simp
  | cons c l ih =>
    obtain ⟨first, hstep, hrest⟩ := Option.bind_eq_some_iff.mp h
    obtain ⟨more, hrun, -⟩ := Option.bind_eq_some_iff.mp hrest
    refine List.not_mem_cons_of_ne_of_not_mem ?_ (ih hrun)
    rintro rfl
    rw [step_newline] at hstep
    cases hstep

/-- A byte is complete with its last character, so what follows it makes no difference. -/
theorem run_escapedByte (byte : UInt8) : inside.run (escapedByte byte) = some ([byte], inside) := by
  have hall : ∀ n : Fin 256, inside.run (escapedByte (UInt8.ofNat n)) = some ([UInt8.ofNat n], inside) := by decide +kernel
  simpa using hall ⟨byte.toNat, byte.toNat_lt⟩

theorem run_flatMap_escapedByte (bytes : List UInt8) : inside.run (bytes.flatMap escapedByte) = some (bytes, inside) := by
  induction bytes with
  | nil => rfl
  | cons byte bytes ih => simp [run_append, run_escapedByte, ih]

theorem run_quoted (s : String) : start.run (quoted s).toList = some (s.toUTF8.toList, closed) := by
  have hquoted : (quoted s).toList = ['"'] ++ s.toUTF8.toList.flatMap escapedByte ++ ['"'] := by simp [quoted]
  have hopen : start.run ['"'] = some ([], inside) := rfl
  have hclose : inside.run ['"'] = some ([], closed) := rfl
  rw [hquoted, run_append, run_append, hopen]
  simp [run_flatMap_escapedByte, hclose]

end Reading

theorem toList_loop_bytes (bytes : ByteArray) (i : Nat) (l : List UInt8) :
    ByteArray.toList.loop bytes i l = l.reverse ++ bytes.data.toList.drop i := by
  induction i, l using ByteArray.toList.loop.induct bytes with
  | case1 i l hi ih =>
    have hlength : i < bytes.data.toList.length := hi
    rw [ByteArray.toList.loop, if_pos hi, ih, List.reverse_cons, List.append_assoc, List.drop_eq_getElem_cons hlength]
    simp only [ByteArray.get!, Array.getElem_toList, List.singleton_append, List.append_cancel_left_eq, List.cons.injEq, and_true]
    exact getElem!_pos bytes.data i hi
  | case2 i l hi =>
    have hlength : bytes.data.toList.length ≤ i := Nat.le_of_not_lt hi
    rw [ByteArray.toList.loop, if_neg hi, List.drop_eq_nil_of_le hlength, List.append_nil]

theorem toList_bytes_injective {bytes bytes' : ByteArray} (h : bytes.toList = bytes'.toList) : bytes = bytes' := by
  rw [ByteArray.toList, ByteArray.toList, toList_loop_bytes, toList_loop_bytes] at h
  exact ByteArray.ext (Array.toList_inj.mp h)

/-- A text between quotes is one string of C that stands for exactly the bytes of the text. So different texts are written differently, and
no text breaks the line. -/
theorem quoted_decodable : (∀ s, literal? (quoted s) = some s.toUTF8.toList ∧ '\n' ∉ (quoted s).toList) ∧ Function.Injective quoted := by
  have hdecode : ∀ s, literal? (quoted s) = some s.toUTF8.toList := fun s => by rw [literal?, Reading.run_quoted]
  refine ⟨fun s => ⟨hdecode s, Reading.newline_not_mem (Reading.run_quoted s)⟩, fun s s' h => ?_⟩
  have hbytes : s.toUTF8.toList = s'.toUTF8.toList := Option.some.inj ((hdecode s).symm.trans (h ▸ hdecode s'))
  exact String.toByteArray_inj.mp (toList_bytes_injective hbytes)

/-- An octal escape before a digit. -/
example : literal? "\"\\3031\"" = some [195, 49] := by decide +kernel

end Ember.C
