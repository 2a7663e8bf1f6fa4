import Ember.Proofs.Compile
import Ember.Proofs.Literal.Lowering
import Ember.Machine.Run

/-!
# Integer literals mean what they say

Whether a function that returns a literal is accepted depends on the integer that is written and on the type of the result alone. The
module of an accepted one has a single block that returns the integer, in which no pass finds anything to do. So what is written is what
the function returns, at every level of optimization (`returning_means`).
-/

namespace Ember

open Lowering

variable {file : SourceFile} {debugInfo : Bool} {type : Primitive} {id : TypeId} {t : TypeTable}

/-- The block that returns an integer. -/
def IR.Block.returning (n : Int64) : IR.Block :=
  { id := 0, label := "entry", terminator := some (.ret (some (.constant (.int n)))) }

namespace Node

theorem check_returning (p : Places) (loc : Loc) (n : Int64) : check ⟨.start, .block [p.function ⟨loc, .integer n⟩]⟩ = .ok () := by
  rfl

theorem lower_returning (htype : type.isIntegral = true) {p : Places} (hname : p.returns.name = type.name)
    (hmutable : p.returns.mutable = false) (loc : Loc) {n : Int64} (hn : type.Ranges n.toInt) : ∃ id t debug,
      (lower ⟨.start, .block [p.function ⟨loc, .integer n⟩]⟩ file debugInfo).1 =
        .ok (.returning file type id t debug [.returning (type.ir.wrap n)]) := by
  obtain ⟨id, t, h⟩ := exists_functionType debugInfo type
  obtain ⟨debug, journal, hunit⟩ := h.unit_eq file hname hmutable ⟨loc, .integer n⟩
  refine ⟨id, t, debug, ?_⟩
  have hreturn : returnStatement (some ⟨loc, .integer n⟩) p.statement (.opened file type id t p.item debug journal) =
      build (.ret (some (.constant (.int (type.ir.wrap n))))) (.opened file type id t p.item debug journal) :=
    (returnStatement_literal h.valid rfl htype loc n).trans
      (bind_of_ok (coerce_literal h.valid htype _ ((Primitive.holds_iff htype n).mpr hn)))
  have hrun : Lowering.unit ⟨.start, .block [p.function ⟨loc, .integer n⟩]⟩ (file.workspace debugInfo) =
      .ok () { Workspace.opened file type id t p.item debug journal with
        scopes := [[.returning id p.item]]
        builder := { module := .returning file type id t debug [.returning (type.ir.wrap n)], function := some 0, block := some 0 }
        returns := none } := by
    rw [hunit, bind_of_ok (hreturn.trans rfl)]
    rfl
  unfold lower EStateM.run
  rw [hrun]

theorem lower_returning_error (htype : type.isIntegral = true) {p : Places} (hname : p.returns.name = type.name)
    (hmutable : p.returns.mutable = false) (loc : Loc) {n : Int64} (hn : ¬type.Ranges n.toInt) : ∃ f : Fault, f.tag = "TypeMismatch" ∧
      (lower ⟨.start, .block [p.function ⟨loc, .integer n⟩]⟩ file debugInfo).1 = .error f := by
  obtain ⟨id, t, h⟩ := exists_functionType debugInfo type
  obtain ⟨debug, journal, hunit⟩ := h.unit_eq file hname hmutable ⟨loc, .integer n⟩
  have hholds : (TypeKind.primitive type).holds type.ir n = false :=
    Bool.eq_false_iff.mpr fun hholds => hn ((Primitive.holds_iff htype n).mp hholds)
  have hw : (Workspace.opened file type id t p.item debug journal).types.Valid := h.valid
  obtain ⟨expected, got, hcoerce⟩ := coerce_literal_error hw htype hholds p.statement
  refine ⟨.mismatch expected got p.statement, rfl, ?_⟩
  unfold lower EStateM.run
  rw [hunit, bind_of_error ((returnStatement_literal hw rfl htype loc n).trans (bind_of_error hcoerce))]

end Node

/-! ## Optimizing -/

section

variable (debug : Option IR.Subprogram) (n : Int64)

theorem Pass.onFunction_returning (p : Pass) :
    p.onFunction (.returning type id t debug [.returning n]) = (false, .returning type id t debug [.returning n]) := by
  cases p <;> rfl

/-- Where passes find nothing to do, running them one after the other finds nothing. -/
theorem Pass.runAll_of_unchanged {f : IR.Function} (h : ∀ p : Pass, p.onFunction f = (false, f)) (passes : List Pass) :
    Pass.runAll passes f = (false, f, []) := by
  induction passes with
  | nil => rfl
  | cons p passes ih =>
    rw [Pass.runAll, h p]
    simp only [ih, Bool.or_self, Bool.false_eq_true, if_false]

theorem Pass.onFunctions_returning (passes : List Pass) :
    (Pass.onFunctions passes (.returning file type id t debug [.returning n])).1 = .returning file type id t debug [.returning n] := by
  have hrepeat : Pass.repeatAll passes roundLimit (.returning type id t debug [.returning n]) =
      (.returning type id t debug [.returning n], []) := by
    rw [roundLimit, Pass.repeatAll, Pass.runAll_of_unchanged (Pass.onFunction_returning debug n)]
    rfl
  unfold Pass.onFunctions
  split
  · rfl
  · show { IR.Module.returning file type id t debug [.returning n] with functions := [(Pass.repeatAll passes roundLimit
      (.returning type id t debug [.returning n])).1] } = _
    rw [hrepeat]
    rfl

theorem Pass.onModule_returning (p : Pass) (level : Level) :
    (p.onModule level (.returning file type id t debug [.returning n])).2.1 = .returning file type id t debug [.returning n] := by
  cases p <;> rfl

theorem Pass.onModuleInTurn_returning (level : Level) (passes : List Pass) :
    (Pass.onModuleInTurn level passes (.returning file type id t debug [.returning n])).1 =
      .returning file type id t debug [.returning n] := by
  induction passes with
  | nil => rfl
  | cons p passes ih =>
    unfold Pass.onModuleInTurn
    dsimp only
    rw [Pass.onModule_returning]
    exact ih

/-- No pass finds anything to do. -/
theorem IR.Module.optimize_returning (level : Level) :
    ((IR.Module.returning file type id t debug [.returning n]).optimize level).module = .returning file type id t debug [.returning n] := by
  have hpasses : ((IR.Module.returning file type id t debug [.returning n]).runPasses level).1 =
      .returning file type id t debug [.returning n] := by
    unfold IR.Module.runPasses
    dsimp only
    rw [Pass.onFunctions_returning, Pass.onModuleInTurn_returning]
    split
    · exact Pass.onFunctions_returning debug n _
    · rfl
  unfold IR.Module.optimize
  split
  · rfl
  · exact hpasses

theorem Machine.call_returning {machine : Machine} (hm : machine.module = .returning file type id t debug [.returning n])
    (hfuel : 0 < machine.fuel) : (machine.call "f" []).1 = .ok (.constant (.int n)) := by
  obtain ⟨m, memory, fuel⟩ := machine
  obtain rfl : m = .returning file type id t debug [.returning n] := hm
  obtain ⟨fuel, rfl⟩ : ∃ k, fuel = k + 1 := ⟨fuel - 1, (Nat.sub_add_cancel hfuel).symm⟩
  rfl

end

/-! ## Programs -/

theorem Primitive.Ranges.word {v : Int} (h : type.Ranges v) : -2 ^ 63 ≤ v ∧ v < 2 ^ 63 := by
  unfold Primitive.Ranges at h
  split at h
  · omega
  · cases type <;> simp [Primitive.ir, IR.Ty.bits, IR.Ty.bytes] at h <;> omega

namespace SourceFile

variable {text : List Char} {n : Nat}

/-- The three outcomes of the source. -/
theorem result_returning (path : String) (debugInfo : Bool) (htype : type.isIntegral = true) (negative : Bool) (h : Numeral text n) :
    let v := Parser.signed negative n
    let file := returning path type (signedText negative text)
    (¬(-2 ^ 63 ≤ v ∧ v < 2 ^ 63) ∧ ∃ f : Fault, f.tag = "SyntaxError" ∧ (Compilation.lower file debugInfo).result.1 = .error f) ∨
      ((-2 ^ 63 ≤ v ∧ v < 2 ^ 63) ∧ ¬type.Ranges v ∧
        ∃ f : Fault, f.tag = "TypeMismatch" ∧ (Compilation.lower file debugInfo).result.1 = .error f) ∨
      (type.Ranges v ∧ ∃ id t debug, (Compilation.lower file debugInfo).result.1 =
        .ok (.returning file type id t debug [.returning (type.ir.wrap (Int64.ofInt v))])) := by
  intro v file
  rw [Compilation.result_lower]
  have hparse := parse_returning path negative htype h
  by_cases hv : -2 ^ 63 ≤ v ∧ v < 2 ^ 63
  · obtain ⟨p, loc, hname, hmutable, hparse⟩ := (if_pos hv).mp hparse
    have hresult : (Node.parse file.contents >>= fun n => n.check >>= fun _ => (n.lower file debugInfo).1) =
        (Node.lower ⟨.start, .block [p.function ⟨loc, .integer (Int64.ofInt v)⟩]⟩ file debugInfo).1 := by
      rw [show Node.parse file.contents = _ from hparse]
      exact congrArg (fun checked : Except Fault Unit => checked >>= fun _ => (Node.lower _ file debugInfo).1)
        (Node.check_returning p loc (Int64.ofInt v))
    have htoInt : (Int64.ofInt v).toInt = v := Int64.toInt_ofInt_of_le (by exact hv.1) (by exact hv.2)
    rw [hresult]
    by_cases hrange : type.Ranges v
    · exact .inr (.inr ⟨hrange, Node.lower_returning htype hname hmutable loc (htoInt.symm ▸ hrange)⟩)
    · exact .inr (.inl ⟨hv, hrange, Node.lower_returning_error htype hname hmutable loc (htoInt.symm ▸ hrange)⟩)
  · obtain ⟨f, hf, hparse⟩ := (if_neg hv).mp hparse
    refine .inl ⟨hv, f, hf, ?_⟩
    rw [show Node.parse file.contents = _ from hparse]
    rfl

/-- A function whose result is an integer as it was written, perhaps with a minus, is accepted if and only if the integer is a value of
the type of the result. Then it returns this integer, wrapped to its representation, at every level of optimization. Else the source is
at fault: its syntax if the integer is no word of 64 bits, and otherwise its types. -/
theorem returning_means (path : String) (debugInfo : Bool) (type : Primitive) (htype : type.isIntegral = true) (negative : Bool)
    (h : Numeral text n) :
    let v : Int := if negative then -n else n
    let file := returning path type (if negative then '-' :: text else text)
    ((∃ m, (Compilation.lower file debugInfo).result.1 = .ok m) ↔ type.Ranges v) ∧
    (type.Ranges v → ∀ level, ∃ m, (Compilation.optimize file debugInfo level).result.1 = .ok m ∧
      ∀ machine : Machine, machine.module = m → 0 < machine.fuel →
        (machine.call "f" []).1 = .ok (.constant (.int (type.ir.wrap (Int64.ofInt v))))) ∧
    ∀ f, (Compilation.lower file debugInfo).result.1 = .error f →
      f.tag = if -2 ^ 63 ≤ v ∧ v < 2 ^ 63 then "TypeMismatch" else "SyntaxError" := by
  intro v file
  rcases result_returning path debugInfo htype negative h with
    ⟨hv, f, hf, hresult⟩ | ⟨hv, hrange, f, hf, hresult⟩ | ⟨hrange, id, t, debug, hresult⟩
  · have hrange : ¬type.Ranges v := fun hrange => hv hrange.word
    refine ⟨⟨fun ⟨m, hm⟩ => ?_, fun hr => absurd hr hrange⟩, fun hr => absurd hr hrange, fun g hg => ?_⟩
    · cases hresult.symm.trans hm
    · cases hresult.symm.trans hg
      exact hf.trans (if_neg hv).symm
  · refine ⟨⟨fun ⟨m, hm⟩ => ?_, fun hr => absurd hr hrange⟩, fun hr => absurd hr hrange, fun g hg => ?_⟩
    · cases hresult.symm.trans hm
    · cases hresult.symm.trans hg
      exact hf.trans (if_pos hv).symm
  · have hoptimize : ∀ level, (Compilation.optimize file debugInfo level).result.1 =
        .ok (.returning file type id t debug [.returning (type.ir.wrap (Int64.ofInt v))]) := by
      intro level
      rcases Compilation.lower_cases file debugInfo with ⟨m, I, hm, hI⟩ | ⟨f, hf, -⟩
      · cases hresult.symm.trans hm
        rw [Compilation.result_optimize, hm]
        simp only [Bind.bind, Except.bind, (hI.optimize level).1]
        exact congrArg _ (IR.Module.optimize_returning debug _ level)
      · cases hresult.symm.trans hf
    refine ⟨⟨fun _ => hrange, fun _ => ⟨_, hresult⟩⟩, fun _ level => ⟨_, hoptimize level, fun machine hm hfuel => ?_⟩, fun g hg => ?_⟩
    · exact Machine.call_returning debug _ hm hfuel
    · cases hresult.symm.trans hg

/-- The least `i8`, in base sixteen, and a byte that is too large. -/
theorem returning_means_least : (∀ level, ∃ m,
      (Compilation.optimize (returning "a.em" .i8 ['-', '0', 'x', '_', '8', '0']) false level).result.1 = .ok m ∧
        ((Machine.ofModule m 1).call "f" []).1 = .ok (.constant (.int (-128)))) ∧
    ∀ f, (Compilation.lower (returning "a.em" .byte ['2', '_', '5', '6']) false).result.1 = .error f → f.tag = "TypeMismatch" := by
  have hhex : Numeral ['0', 'x', '_', '8', '0'] 128 := .hexadecimal (.inl rfl) (by simp [Scan.isHexDigit]) ⟨'8', by simp, by simp⟩
  have hdecimal : Numeral ['2', '_', '5', '6'] 256 := .decimal rfl (by simp)
  obtain ⟨-, hcall, -⟩ := returning_means "a.em" false .i8 rfl true hhex
  obtain ⟨-, -, hfault⟩ := returning_means "a.em" false .byte rfl false hdecimal
  refine ⟨fun level => ?_, hfault⟩
  obtain ⟨m, hm, hmachine⟩ := hcall (by decide) level
  exact ⟨m, hm, hmachine _ rfl Nat.one_pos⟩

end SourceFile

end Ember
