import Ember.Proofs.IR.Arithmetic
import Mathlib.Algebra.Group.Nat.Defs

/-!
# Integers in two's complement

All integers are kept in words of 64 bits. The lowest bits of a word, as many as its type has, are a number in two's complement (`Ty.low`),
and the operations on words are those on these numbers, with the same operands left out (`integers_are_twosComplement`).
-/

namespace Ember.IR

/-- The constant with the signed value of a number. -/
def Constant.signed {w : Nat} (x : BitVec w) : Constant :=
  .int (Int64.ofInt x.toInt)

/-! ## Operations on numbers -/

/-- The operations on numbers of a width. -/
def BinaryOp.onBits? (op : BinaryOp) {w : Nat} (x y : BitVec w) : Option (BitVec w) :=
  match op with
  | .add => some (x + y)
  | .sub => some (x - y)
  | .mul => some (x * y)
  | .sdiv => some (x.sdiv y)
  | .udiv => some (x / y)
  | .srem => some (x.srem y)
  | .urem => some (x % y)
  | .and => some (x &&& y)
  | .or => some (x ||| y)
  | .xor => some (x ^^^ y)
  | .shl => some (x <<< y.toNat)
  | .ashr => some (x.sshiftRight y.toNat)
  | .lshr => some (x >>> y.toNat)
  | _ => none

/-- The second operands that an operation leaves out: a divisor that is zero, and a shift amount that is negative or not below the width. -/
def BinaryOp.excludes (op : BinaryOp) {w : Nat} (y : BitVec w) : Bool :=
  match op with
  | .sdiv | .udiv | .srem | .urem => y = 0
  | .shl | .ashr | .lshr => ¬(0 ≤ y.toInt ∧ y.toInt < w)
  | _ => false

/-- The comparisons of numbers of a width. -/
def Predicate.onBits? (p : Predicate) {w : Nat} (x y : BitVec w) : Option Bool :=
  match p with
  | .eq => some (x == y)
  | .ne => some (x != y)
  | .slt => some (x.slt y)
  | .sle => some (x.sle y)
  | .sgt => some (y.slt x)
  | .sge => some (y.sle x)
  | .ult => some (x.ult y)
  | .ule => some (x.ule y)
  | .ugt => some (y.ult x)
  | .uge => some (y.ule x)
  | _ => none

namespace Ty

/-- The types of words: all integer types but that of the booleans. -/
def words : List Ty :=
  [.i8, .i16, .i32, .i64]

/-- The number of a word: its lowest bits, as many as the type has. -/
def low (t : Ty) (n : Int64) : BitVec t.bits :=
  n.toBitVec.setWidth t.bits

variable {t : Ty} {a b : Int64}

variable (ht : t ∈ words)
include ht

theorem bits_le : t.bits ≤ 64 :=
  of_decide_eq_true (List.all_eq_true.mp (by decide : words.all fun t => decide (t.bits ≤ 64)) t ht)

omit ht in
theorem mem_words (h : t.isInteger = true) (hbool : t ≠ .bool) : t ∈ words := by
  unfold isInteger at h
  split at h <;> simp_all [words]

theorem isInteger_of_mem : t.isInteger = true :=
  List.all_eq_true.mp (by decide : words.all isInteger) t ht

theorem toInt_low (n : Int64) : (t.low n).toInt = n.toInt.bmod (2 ^ t.bits) := by
  have hle := bits_le ht
  rw [low, ← BitVec.signExtend_eq_setWidth_of_le _ hle, BitVec.toInt_signExtend, Nat.min_eq_left hle]
  rfl

omit ht in
theorem toNat_low (t : Ty) (n : Int64) : (t.low n).toNat = n.toBitVec.toNat % 2 ^ t.bits :=
  BitVec.toNat_setWidth _ _

theorem toInt_wrap (n : Int64) : (t.wrap n).toInt = (t.low n).toInt := by
  rw [toInt_low ht]
  simp only [words, List.mem_cons, List.not_mem_nil, or_false] at ht
  rcases ht with rfl | rfl | rfl | rfl
  · exact (Int8.toInt_toInt64 _).trans (Int64.toInt_toInt8 _)
  · exact (Int16.toInt_toInt64 _).trans (Int64.toInt_toInt16 _)
  · exact (Int32.toInt_toInt64 _).trans (Int64.toInt_toInt32 _)
  · exact (BitVec.toInt_bmod_cancel n.toBitVec).symm

theorem toNat_unsigned (n : Int64) : (t.unsigned n).toNat = (t.low n).toNat := by
  rw [toNat_low]
  simp only [words, List.mem_cons, List.not_mem_nil, or_false] at ht
  rcases ht with rfl | rfl | rfl | rfl
  · rfl
  · rfl
  · rfl
  · exact (Nat.mod_eq_of_lt n.toBitVec.isLt).symm

/-- Wrapping to no fewer bits keeps the number. -/
theorem low_wrap_of_le {s : Ty} (hs : s ∈ words) (hle : t.bits ≤ s.bits) (n : Int64) : t.low (s.wrap n) = t.low n := by
  refine BitVec.eq_of_toInt_eq ?_
  rw [toInt_low ht, toInt_wrap hs, toInt_low hs, toInt_low ht, Int.bmod_bmod_of_dvd (Nat.pow_dvd_pow 2 hle)]

theorem low_wrap (n : Int64) : t.low (t.wrap n) = t.low n :=
  low_wrap_of_le ht ht (Nat.le_refl _) n

/-- Only the number of a word matters when it is wrapped. -/
theorem wrap_congr (h : t.low a = t.low b) : t.wrap a = t.wrap b := by
  rw [← Int64.toInt_inj, toInt_wrap ht, toInt_wrap ht, h]

/-- A word that is wrapped holds the signed value of its number. -/
theorem integer_eq (n : Int64) : t.integer n = .signed (t.low n) := by
  have hbool : t ≠ .bool := by
    rintro rfl
    exact absurd ht (by decide)
  rw [integer, if_neg hbool, Constant.signed, ← toInt_wrap ht, Int64.ofInt_toInt]

theorem wrap_eq_zero_iff : t.wrap b = 0 ↔ t.low b = 0 := by
  rw [← Int64.toInt_inj, toInt_wrap ht, ← BitVec.toInt_inj]
  simp

theorem unsigned_eq_zero_iff : t.unsigned (t.wrap b) = 0 ↔ t.low b = 0 := by
  rw [← UInt64.toNat_inj, toNat_unsigned ht, low_wrap ht, ← BitVec.toNat_inj]
  simp

theorem low_div : t.low (t.wrap a / t.wrap b) = (t.low a).sdiv (t.low b) := by
  refine BitVec.eq_of_toInt_eq ?_
  rw [toInt_low ht, Int64.toInt_div, toInt_wrap ht, toInt_wrap ht, BitVec.toInt_sdiv,
    Int.bmod_bmod_of_dvd (Nat.pow_dvd_pow 2 (bits_le ht))]

theorem low_mod : t.low (t.wrap a % t.wrap b) = (t.low a).srem (t.low b) := by
  refine BitVec.eq_of_toInt_eq ?_
  rw [toInt_low ht, Int64.toInt_mod, toInt_wrap ht, toInt_wrap ht, ← BitVec.toInt_srem, BitVec.toInt_bmod_cancel]

omit ht in
theorem low_of_toNat {n : UInt64} {x : BitVec t.bits} (h : n.toNat = x.toNat) : t.low n.toInt64 = x := by
  refine BitVec.eq_of_toNat_eq ?_
  rw [toNat_low]
  show n.toNat % _ = _
  rw [h, Nat.mod_eq_of_lt x.isLt]

theorem low_udiv : t.low (t.unsigned (t.wrap a) / t.unsigned (t.wrap b)).toInt64 = t.low a / t.low b := by
  refine low_of_toNat ?_
  rw [UInt64.toNat_div, toNat_unsigned ht, toNat_unsigned ht, low_wrap ht, low_wrap ht, BitVec.toNat_udiv]

theorem low_urem : t.low (t.unsigned (t.wrap a) % t.unsigned (t.wrap b)).toInt64 = t.low a % t.low b := by
  refine low_of_toNat ?_
  rw [UInt64.toNat_mod, toNat_unsigned ht, toNat_unsigned ht, low_wrap ht, low_wrap ht, BitVec.toNat_umod]

omit ht in
/-- A number that is not negative is the same with its sign and without. -/
theorem toInt_eq_toNat {w : Nat} {x : BitVec w} (h : 0 ≤ x.toInt) : x.toInt = x.toNat := by
  have hlt := x.isLt
  rw [BitVec.toInt_eq_toNat_cond] at h ⊢
  split at h
  · exact if_pos ‹_›
  · omega

/-- A word shifts by its number, if that is neither negative nor too large. -/
theorem shiftAmount?_eq : t.shiftAmount? (t.wrap b) =
    if 0 ≤ (t.low b).toInt ∧ (t.low b).toInt < t.bits then some (UInt64.ofNat (t.low b).toNat) else none := by
  unfold shiftAmount?
  simp only [Int64.le_iff_toInt_le, toInt_wrap ht, Int64.toInt_zero]
  refine if_ctx_congr Iff.rfl (fun h => congrArg some ?_) fun _ => rfl
  have hword : (t.wrap b).toInt = (t.wrap b).toBitVec.toNat := toInt_eq_toNat (by
    rw [Int64.toInt_toBitVec, toInt_wrap ht]
    exact h.1)
  have hlow := toInt_eq_toNat h.1
  rw [toInt_wrap ht] at hword
  rw [show (t.low b).toNat = (t.wrap b).toBitVec.toNat by omega]
  exact (UInt64.ofNat_toNat).symm

variable {k : Nat}

theorem toNat_amount (hk : k < t.bits) : (UInt64.ofNat k).toNat % 64 = k := by
  have hle := bits_le ht
  rw [UInt64.toNat_ofNat_of_lt' (by simp [UInt64.size]; omega), Nat.mod_eq_of_lt (by omega)]

theorem low_shl (hk : k < t.bits) : t.low ((t.wrap a).toUInt64 <<< UInt64.ofNat k).toInt64 = t.low a <<< k := by
  have hle := bits_le ht
  refine BitVec.eq_of_toNat_eq ?_
  have hwrap := congrArg BitVec.toNat (low_wrap ht a)
  rw [toNat_low] at hwrap
  rw [toNat_low, BitVec.toNat_shiftLeft, ← hwrap]
  show ((t.wrap a).toUInt64 <<< UInt64.ofNat k).toNat % _ = _
  rw [UInt64.toNat_shiftLeft, toNat_amount ht hk, Nat.mod_mod_of_dvd _ (Nat.pow_dvd_pow 2 hle), Nat.shiftLeft_eq,
    Nat.shiftLeft_eq, Nat.mod_mul_mod]
  rfl

theorem low_lshr (hk : k < t.bits) : t.low (t.unsigned (t.wrap a) >>> UInt64.ofNat k).toInt64 = t.low a >>> k := by
  refine low_of_toNat ?_
  rw [UInt64.toNat_shiftRight, toNat_unsigned ht, low_wrap ht, toNat_amount ht hk, BitVec.toNat_ushiftRight]

theorem low_ashr (hk : k < t.bits) : t.low (t.wrap a >>> (UInt64.ofNat k).toInt64) = (t.low a).sshiftRight k := by
  have hle := bits_le ht
  have hamount : ((UInt64.ofNat k).toInt64.toBitVec.smod 64).toNat = k := by
    have hsign : (UInt64.ofNat k).toInt64.toBitVec.msb = false := by
      rw [UInt64.toBitVec_toInt64, BitVec.msb_eq_decide]
      simp
      omega
    rw [BitVec.smod_eq, hsign]
    exact toNat_amount ht hk
  refine BitVec.eq_of_toInt_eq ?_
  rw [toInt_low ht, ← Int64.toInt_toBitVec, Int64.toBitVec_shiftRight, BitVec.sshiftRight_eq', hamount, BitVec.toInt_sshiftRight, Int64.toInt_toBitVec,
    toInt_wrap ht, ← BitVec.toInt_sshiftRight, BitVec.toInt_bmod_cancel]

theorem low_signExtend {target : Ty} (htarget : target ∈ words) (n : Int64) : target.low (t.wrap n) = (t.low n).signExtend target.bits := by
  refine BitVec.eq_of_toInt_eq ?_
  rw [toInt_low htarget, toInt_wrap ht]
  rcases Nat.le_total target.bits t.bits with h | h
  · rw [BitVec.toInt_signExtend, Nat.min_eq_left h]
  · rw [← BitVec.toInt_signExtend_of_le h, BitVec.toInt_bmod_cancel]

theorem low_zeroExtend {target : Ty} (n : Int64) : target.low (t.unsigned n).toInt64 = (t.low n).setWidth target.bits := by
  refine BitVec.eq_of_toNat_eq ?_
  rw [toNat_low, BitVec.toNat_setWidth, ← toNat_unsigned ht]
  rfl

omit ht in
/-- A division gives a number unless the divisor is zero. -/
theorem low_guarded {p : Prop} [Decidable p] {r : Int64} {x y : BitVec t.bits} (hp : p ↔ y = 0) (hr : t.low r = x) :
    (if p then none else some r).map t.low = if decide (y = 0) then none else some x := by
  simp only [hp, decide_eq_true_eq]
  split
  · rfl
  · exact congrArg some hr

/-- A shift gives a number if its amount is below the width. -/
theorem low_shifted {f : UInt64 → Int64} {g : Nat → BitVec t.bits} (hf : ∀ k < t.bits, t.low (f (UInt64.ofNat k)) = g k) :
    ((t.shiftAmount? (t.wrap b)).map f).map t.low =
      if decide ¬(0 ≤ (t.low b).toInt ∧ (t.low b).toInt < t.bits) then none else some (g (t.low b).toNat) := by
  simp only [shiftAmount?_eq ht, decide_eq_true_eq, ite_not]
  split
  case isTrue h =>
    have hlow := toInt_eq_toNat h.1
    exact congrArg some (hf _ (by omega))
  case isFalse => rfl

end Ty

open Ty

variable {t : Ty}

/-- The operations on words are those on their numbers. -/
theorem BinaryOp.low_onWords? (ht : t ∈ words) (op : BinaryOp) (a b : Int64) :
    (op.onWords? t (t.wrap a) (t.wrap b)).map t.low = if op.excludes (t.low b) then none else op.onBits? (t.low a) (t.low b) := by
  have hle := bits_le ht
  have ha : (t.wrap a).toBitVec.setWidth t.bits = t.low a := low_wrap ht a
  have hb : (t.wrap b).toBitVec.setWidth t.bits = t.low b := low_wrap ht b
  cases op with
  | add => exact congrArg some ((BitVec.setWidth_add _ _ hle).trans (congrArg₂ (· + ·) ha hb))
  | sub =>
    have hsub : t.wrap a - t.wrap b = t.wrap a + -t.wrap b := Int64.sub_eq_add_neg _ _
    have hneg : (-t.wrap b).toBitVec.setWidth t.bits = -t.low b := (BitVec.setWidth_neg_of_le hle).trans (congrArg _ hb)
    show some (t.low (t.wrap a - t.wrap b)) = some (t.low a - t.low b)
    rw [hsub, BitVec.sub_eq_add_neg]
    exact congrArg some ((BitVec.setWidth_add _ _ hle).trans (congrArg₂ (· + ·) ha hneg))
  | mul => exact congrArg some ((BitVec.setWidth_mul _ _ hle).trans (congrArg₂ (· * ·) ha hb))
  | and => exact congrArg some (BitVec.setWidth_and.trans (congrArg₂ (· &&& ·) ha hb))
  | or => exact congrArg some (BitVec.setWidth_or.trans (congrArg₂ (· ||| ·) ha hb))
  | xor => exact congrArg some (BitVec.setWidth_xor.trans (congrArg₂ (· ^^^ ·) ha hb))
  | sdiv => exact low_guarded (wrap_eq_zero_iff ht) (low_div ht)
  | srem => exact low_guarded (wrap_eq_zero_iff ht) (low_mod ht)
  | udiv => exact low_guarded (unsigned_eq_zero_iff ht) (low_udiv ht)
  | urem => exact low_guarded (unsigned_eq_zero_iff ht) (low_urem ht)
  | shl => exact low_shifted ht fun k => low_shl ht
  | ashr => exact low_shifted ht fun k => low_ashr ht
  | lshr => exact low_shifted ht fun k => low_lshr ht
  | fadd | fsub | fmul | fdiv | frem => rfl

theorem BinaryOp.result?_eq (ht : t ∈ words) (op : BinaryOp) (a b : Int64) : op.result? t (.int a) (.int b) =
    if op.excludes (t.low b) then none else (op.onBits? (t.low a) (t.low b)).map .signed := by
  have hfloat : t.isFloat = false := isFloat_eq_false_of_isInteger (isInteger_of_mem ht)
  have hinteger : t.integer = Constant.signed ∘ t.low := funext (integer_eq ht)
  have hresult : op.result? t (.int a) (.int b) = (op.onWords? t (t.wrap a) (t.wrap b)).map t.integer := by
    simp only [result?, hfloat, Bool.false_eq_true, if_false, Constant.int?, Option.bind_eq_bind, Option.bind_some, Option.map_eq_bind,
      Option.pure_def, Function.comp_def]
  rw [hresult, hinteger, ← Option.map_map, low_onWords? ht]
  split <;> rfl

theorem Predicate.result?_eq (ht : t ∈ words) {p : Predicate} (hp : p.isFloat = false) (a b : Int64) :
    p.result? t (.int a) (.int b) = (p.onBits? (t.low a) (t.low b)).map .bool := by
  have hsigned := fun n => toInt_wrap ht n
  have hunsigned := fun n => (toNat_unsigned ht (t.wrap n)).trans (congrArg BitVec.toNat (low_wrap ht n))
  have heq : (t.wrap a == t.wrap b) = (t.low a == t.low b) := by
    rw [Bool.eq_iff_iff, beq_iff_eq, beq_iff_eq, ← Int64.toInt_inj, hsigned, hsigned, BitVec.toInt_inj]
  have hwords : p.onWords? t (t.wrap a) (t.wrap b) = p.onBits? (t.low a) (t.low b) := by
    cases p <;> simp only [isFloat, Bool.true_eq_false] at hp <;>
      simp only [onWords?, onBits?, bne, heq, BitVec.slt, BitVec.sle, BitVec.ult, BitVec.ule, Int64.lt_iff_toInt_lt, Int64.le_iff_toInt_le,
        UInt64.lt_iff_toNat_lt, UInt64.le_iff_toNat_le, hsigned, hunsigned]
  simp only [result?, hp, Bool.false_eq_true, if_false, Constant.int?, hwords, Option.bind_eq_bind, Option.bind_some, Option.map_eq_bind,
    Option.pure_def, Function.comp_def]

/-- On integers, the operations of a type are those of two's complement at its width, and they are left out for the same operands: a
divisor that is zero, and a shift amount that is negative or not below the width. Every result is wrapped to its type. -/
theorem integers_are_twosComplement (ht : t ∈ words) (a b : Int64) :
    (∀ op : BinaryOp, op.result? t (.int a) (.int b) =
      if op.excludes (t.low b) then none else (op.onBits? (t.low a) (t.low b)).map .signed) ∧
    (∀ p : Predicate, p.isFloat = false → p.result? t (.int a) (.int b) = (p.onBits? (t.low a) (t.low b)).map .bool) ∧
    UnaryOp.neg.result? t (.int a) = some (.signed (-t.low a)) ∧ UnaryOp.not.result? t (.int a) = some (.signed (~~~t.low a)) ∧
    (∀ target ∈ words, CastOp.sext.result? (.int a) t target = some (.signed ((t.low a).signExtend target.bits)) ∧
      CastOp.zext.result? (.int a) t target = some (.signed ((t.low a).setWidth target.bits)) ∧
      CastOp.trunc.result? (.int a) t target = some (.signed ((t.low a).signExtend target.bits)) ∧
      (target.bits ≤ t.bits → CastOp.trunc.result? (.int a) t target = some (.signed ((t.low a).setWidth target.bits)))) ∧
    ∀ c : Constant, (∃ op : BinaryOp, op.result? t (.int a) (.int b) = some c) ∨ (∃ op : UnaryOp, op.result? t (.int a) = some c) ∨
      (∃ source ∈ words, ∃ op ∈ [CastOp.sext, .zext, .trunc], op.result? (.int a) source t = some c) → c.Fits t := by
  have hle := bits_le ht
  have hinteger := isInteger_of_mem ht
  refine ⟨fun op => op.result?_eq ht a b, fun p hp => p.result?_eq ht hp a b, ?_, ?_, fun target htarget => ?_, ?_⟩
  · exact congrArg some ((integer_eq ht (-a)).trans (congrArg Constant.signed (BitVec.setWidth_neg_of_le hle)))
  · exact congrArg some ((integer_eq ht (~~~a)).trans (congrArg Constant.signed (BitVec.setWidth_not hle)))
  · have hsext : CastOp.sext.result? (.int a) t target = some (.signed ((t.low a).signExtend target.bits)) :=
      congrArg some ((integer_eq htarget _).trans (congrArg Constant.signed (low_signExtend ht htarget a)))
    refine ⟨hsext, ?_, hsext, fun h => ?_⟩
    · exact congrArg some ((integer_eq htarget _).trans (congrArg Constant.signed (low_zeroExtend ht a)))
    · rw [← BitVec.signExtend_eq_setWidth_of_le _ h]
      exact hsext
  · rintro c (⟨op, h⟩ | ⟨op, h⟩ | ⟨source, -, op, hop, h⟩)
    · exact BinaryOp.result?_fits (.inl hinteger) h
    · cases op with
      | fneg => cases h
      | neg | not => exact Option.some.inj h ▸ t.integer_fits _ hinteger
    · simp only [List.mem_cons, List.not_mem_nil, or_false] at hop
      rcases hop with rfl | rfl | rfl <;> exact Option.some.inj h ▸ t.integer_fits _ hinteger

/-- At eight bits the least number divided by minus one is itself, and read without a sign the quotient is zero. -/
theorem integers_are_twosComplement_least : BinaryOp.sdiv.result? .i8 (.int (-128)) (.int (-1)) = some (.int (-128)) ∧
    BinaryOp.udiv.result? .i8 (.int (-128)) (.int (-1)) = some (.int 0) ∧ BinaryOp.shl.result? .i8 (.int 1) (.int (-1)) = none := by
  obtain ⟨h, -⟩ := integers_are_twosComplement (t := .i8) (by decide) (-128) (-1)
  obtain ⟨h', -⟩ := integers_are_twosComplement (t := .i8) (by decide) 1 (-1)
  exact ⟨(h .sdiv).trans (by decide), (h .udiv).trans (by decide), (h' .shl).trans (by decide)⟩

end Ember.IR
