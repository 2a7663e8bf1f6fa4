import Ember.Proofs.Lower.Unit
import Ember.Proofs.Pass.Lookup
import Ember.Proofs.Tree.Arena

/-!
# Compiling never breaks

What compiling a source comes to, for every source and level. A tree that was parsed has the shape of the grammar, it is lowered to a
well-formed module or the source is at fault (`lower_cases`), and optimizing finds nothing wrong with the module.
-/

namespace Ember

variable {α : Type}

open IR

/-- What is wrong with a source has one of nine tags. -/
theorem Fault.InSource.tag_mem {f : Fault} (h : f.InSource) :
    f.tag ∈ ["SyntaxError", "GrammarError", "TypeNotFound", "TypeMismatch", "RedefinedSymbol", "UndefinedSymbol", "UnsizedType",
      "UnsupportedOperation", "MissingReturn"] := by
  cases f with
  | breach | access | openBlock | noCompiler => cases h
  | _ => simp [Fault.tag]

/-! ## The shape of trees -/

/-- A result that fails only where the source is at fault. -/
def BlamesSource {α : Type} (x : Except Fault α) : Prop :=
  ∀ f, x = .error f → f.InSource

theorem blamesSource_ok (a : α) : BlamesSource (.ok a) :=
  fun _ h => by cases h

theorem blamesSource_error {f : Fault} (h : f.InSource) : BlamesSource (.error f : Except Fault α) :=
  fun _ h' => by cases h'; exact h

theorem BlamesSource.bind {β : Type} {x : Except Fault α} {next : α → Except Fault β} (h : BlamesSource x)
    (hnext : ∀ a, BlamesSource (next a)) : BlamesSource (x >>= next) := by
  cases x with
  | error f => exact blamesSource_error (h f rfl)
  | ok a => exact hnext a

theorem blamesSource_forM {check : α → Except Fault Unit} {l : List α} (h : ∀ a ∈ l, BlamesSource (check a)) :
    BlamesSource (l.forM check) := by
  induction l with
  | nil => exact blamesSource_ok ()
  | cons a l ih => exact (h a List.mem_cons_self).bind fun _ => ih fun b hb => h b (List.mem_cons_of_mem _ hb)

namespace Node

/-- The check of a node fails for a defect of the source, if those of its children do. -/
theorem blamesSource_checkForm (loc : Loc) (form : Form (Node × Except Fault Unit)) (h : ∀ c ∈ form.children, BlamesSource c.2) :
    BlamesSource (checkForm loc form) := by
  cases form with
  | define b init | defineGlobal b init =>
    unfold checkForm
    refine BlamesSource.bind ?_ fun _ => ?_
    · dsimp only
      split
      · exact blamesSource_error rfl
      · exact blamesSource_ok ()
    cases init with
    | none => first | exact blamesSource_ok () | exact blamesSource_error rfl
    | some c => exact h c List.mem_cons_self
  | parameter definition mode =>
    obtain ⟨definition, result⟩ := definition
    unfold checkForm
    dsimp only
    split
    · split
      · exact blamesSource_error rfl
      · unfold report
        split
        · exact blamesSource_ok ()
        · exact blamesSource_error rfl
    · exact blamesSource_error rfl
  | function head body declaration =>
    obtain ⟨head, result⟩ := head
    unfold checkForm
    dsimp only
    split
    · refine BlamesSource.bind (h _ List.mem_cons_self) fun _ => ?_
      split
      · exact blamesSource_ok ()
      · split
        · exact h _ (List.mem_cons_of_mem _ List.mem_cons_self)
        · exact blamesSource_error rfl
    · exact blamesSource_error rfl
  | forEach iterator iteratee body =>
    exact BlamesSource.bind (h iteratee (by simp [Form.children])) fun _ => h body (by simp [Form.children])
  | _ => exact blamesSource_forM h

/-- The check of the shape of a tree fails only for defects of the source. -/
theorem blamesSource_check (n : Node) : BlamesSource n.check :=
  recurse_induction blamesSource_checkForm n

/-- Lowering a tree that was parsed gives a well-formed module, or the source is at fault. -/
theorem lower_cases {source : String} {n : Node} (h : Node.parse source = .ok n) (file : SourceFile) (debugInfo : Bool) :
    (∃ m I, (n.lower file debugInfo).1 = .ok m ∧ m.WellFormed I) ∨ ∃ f, (n.lower file debugInfo).1 = .error f ∧ f.InSource := by
  obtain ⟨hsound, hdoes⟩ := does_unit (Node.isItem_of_parse h) file debugInfo
  unfold Node.lower EStateM.run
  cases hrun : Lowering.unit n (file.workspace debugInfo) with
  | ok u w =>
    obtain ⟨I, hI⟩ := hdoes u w hrun
    exact .inl ⟨_, I, rfl, hI⟩
  | error f w => exact .inr ⟨f, rfl, hsound f w hrun⟩

end Node

namespace Compilation

/-- The outcome of a compilation, without its journal, from the outcomes of its stages. -/
theorem result_lower (file : SourceFile) (debugInfo : Bool) : (lower file debugInfo).result.1 =
    (Node.parse file.contents >>= fun n => n.check >>= fun _ => (n.lower file debugInfo).1) := by
  unfold result lower parse
  cases hn : Node.parse file.contents with
  | error f => rfl
  | ok n =>
    simp only [Bind.bind, EStateM.bind, EStateM.run, ofExcept, noteAll, modify, modifyGet_apply, pure, EStateM.pure, Except.bind]
    cases n.check with
    | error f => rfl
    | ok u =>
      simp only [EStateM.pure]
      cases (n.lower file debugInfo).1 <;> rfl

/-- A source is lowered to a well-formed module, or it is at fault. -/
theorem lower_cases (file : SourceFile) (debugInfo : Bool) : (∃ m I, (lower file debugInfo).result.1 = .ok m ∧ m.WellFormed I) ∨
      ∃ f, (lower file debugInfo).result.1 = .error f ∧ f.InSource := by
  rw [result_lower]
  rcases Node.parse_cases file.contents with ⟨n, hn, -⟩ | ⟨f, hf, expected, got, loc, rfl⟩
  · have hparsed : (Node.parse file.contents >>= fun n => n.check >>= fun _ => (n.lower file debugInfo).1) =
        n.check >>= fun _ => (n.lower file debugInfo).1 := by rw [hn]; rfl
    rw [hparsed]
    cases hc : n.check with
    | error f => exact .inr ⟨f, rfl, n.blamesSource_check f hc⟩
    | ok u => exact Node.lower_cases hn file debugInfo
  · rw [hf]
    exact .inr ⟨_, rfl, rfl⟩

/-- The outcome of an optimization is that of lowering, or the module that passes make of it. -/
theorem result_optimize (file : SourceFile) (debugInfo : Bool) (level : Level) : (optimize file debugInfo level).result.1 =
    (lower file debugInfo).result.1 >>= fun m => match (m.optimize level).fault with
      | some fault => .error fault
      | none => .ok (m.optimize level).module := by
  unfold result optimize
  simp only [Bind.bind, EStateM.bind, EStateM.run, noteAll, modify, modifyGet_apply, pure, Except.bind]
  cases lower file debugInfo [] with
  | error f journal => rfl
  | ok m journal =>
    simp only
    cases (m.optimize level).fault <;> rfl

/-- A source is optimized to a well-formed module, or it is at fault. -/
theorem optimize_cases (file : SourceFile) (debugInfo : Bool) (level : Level) :
    (∃ m I, (optimize file debugInfo level).result.1 = .ok m ∧ m.WellFormed I) ∨
      ∃ f, (optimize file debugInfo level).result.1 = .error f ∧ f.InSource := by
  rw [result_optimize]
  rcases lower_cases file debugInfo with ⟨m, I, hm, hI⟩ | ⟨f, hf, hsource⟩
  · obtain ⟨hfault, J, hJ, -⟩ := hI.optimize level
    exact .inl ⟨_, J, by rw [hm]; simp only [Bind.bind, Except.bind, hfault], hJ⟩
  · exact .inr ⟨f, by rw [hf]; rfl, hsource⟩

/-- The module of a source is well formed. -/
theorem wellFormed_lower {file : SourceFile} {debugInfo : Bool} {m : IR.Module} (h : (lower file debugInfo).result.1 = .ok m) :
    ∃ I, m.WellFormed I := by
  rcases lower_cases file debugInfo with ⟨m', I, hm, hI⟩ | ⟨f, hf, -⟩
  · cases h.symm.trans hm
    exact ⟨I, hI⟩
  · cases h.symm.trans hf

/-- Compiling fails only for what is wrong with the source, and never for want of something that it looks up: every node of the arena
that another node names is there, and so are the functions, blocks and registers that inlining asks for, whatever it may inline and
however far it has come. -/
theorem optimize_faults_in_source (file : SourceFile) (debugInfo : Bool) (level : Level) :
    (∀ fault, (optimize file debugInfo level).result.1 = .error fault →
      fault.tag ∈ ["SyntaxError", "GrammarError", "TypeNotFound", "TypeMismatch", "RedefinedSymbol", "UndefinedSymbol", "UnsizedType",
        "UnsupportedOperation", "MissingReturn"]) ∧
    (∀ a, Arena.parse file.contents = .ok a → a.root < a.size ∧ ∀ id, ∀ child ∈ a.children id, child < a.size) ∧
    ∀ lowered, (lower file debugInfo).result.1 = .ok lowered →
      let m := (Pass.onFunctions level.functionPasses lowered).1
      ∀ eligible : IR.Function → Bool, Module.Inlining (m.inlinable eligible) m (m.inlineCalls eligible).1 ∧
        ∀ m', Module.Inlining (m.inlinable eligible) m m' → m'.functions.length = m.functions.length ∧
          ∀ caller ∈ m'.functions, ∀ site, caller.site? (m.inlinable eligible).contains = some site →
            ∃ callee, m'.function? site.callee = some callee ∧ callee.Copyable := by
  refine ⟨fun fault hfault => ?_, fun a ha => ?_, ?_⟩
  · rcases optimize_cases file debugInfo level with ⟨m, I, hm, -⟩ | ⟨f, hf, hsource⟩
    · cases hfault.symm.trans hm
    · cases hfault.symm.trans hf
      exact hsource.tag_mem
  · have htree := Arena.isTree_parse ha
    exact ⟨htree.root_lt, fun id child hchild => (htree.child id child hchild).1⟩
  · intro lowered hlowered m eligible
    refine ⟨Module.inlining_inlineCalls eligible m, fun m' hm' => ?_⟩
    obtain ⟨I, hI⟩ := wellFormed_lower hlowered
    have hw := Pass.wellFormed_onFunctions level.functionPasses hI
    have hbodied := hw.bodied_inlinable eligible
    exact ⟨(hm'.wellFormed hw hbodied).2.2, fun caller hcaller site hsite => hm'.copyable hw hbodied hcaller hsite⟩

/-! ## Passes in any order -/

/-- Passes in any order, each at any level, keep a module well formed. -/
theorem wellFormed_foldl (steps : List (Pass × Level)) {I : Interface} {m : IR.Module} (h : m.WellFormed I) :
    ∃ J, (steps.foldl (fun m step => (step.1.onModule step.2 m).2.1) m).WellFormed J ∧ J.Narrows I := by
  induction steps generalizing I m with
  | nil => exact ⟨I, h, .refl I⟩
  | cons step steps ih =>
    obtain ⟨J, hJ, hnarrows⟩ := step.1.wellFormed_onModule step.2 h
    obtain ⟨K, hK, hnarrows'⟩ := ih hJ
    exact ⟨K, hK, hnarrows'.trans hnarrows⟩

/-- Whatever passes have run on the module of a source, in any order and at any levels: the module passes the check, and its functions
are in static single assignment form. -/
theorem isSSA_after_passes {file : SourceFile} {debugInfo : Bool} {m : IR.Module} (h : (lower file debugInfo).result.1 = .ok m)
    (steps : List (Pass × Level)) :
    let m' := steps.foldl (fun m step => (step.1.onModule step.2 m).2.1) m
    m'.check = .ok () ∧ ∀ f ∈ m'.functions, f.isDeclaration = false → f.IsSSA := by
  obtain ⟨I, hI⟩ := wellFormed_lower h
  obtain ⟨J, hJ, -⟩ := wellFormed_foldl steps hI
  exact ⟨hJ.check_eq_ok, fun f hf hbody => (hJ.bodies f hf hbody).isSSA⟩

/-- The form holds of a function into which a call with two returns was inlined. -/
theorem isSSA_after_inlining : ∃ file m, (lower file false).result.1 = .ok m ∧
    ∃ f ∈ ([(Pass.alwaysInline, Level.none), (.blockMerging, .less)].foldl (fun m step => (step.1.onModule step.2 m).2.1) m).functions,
      f.isDeclaration = false ∧ f.IsSSA := by
  obtain ⟨file, hrun⟩ : ∃ file, (match (lower file false).result.1 with
      | .ok m => ([(Pass.alwaysInline, Level.none), (.blockMerging, .less)].foldl
          (fun m step => (step.1.onModule step.2 m).2.1) m).functions.any (!·.isDeclaration)
      | .error _ => false) = true :=
    ⟨⟨"a.em", "inline def f(x: i32): i32 \x7b if x > 1 \x7b return x; \x7d return 2; \x7d
      def g(x: i32): i32 \x7b return f(x); \x7d"⟩, by decide +kernel⟩
  split at hrun
  · rename_i m hm
    obtain ⟨f, hf, hbody⟩ := List.any_eq_true.mp hrun
    have hbody : f.isDeclaration = false := by simpa using hbody
    exact ⟨file, m, hm, f, hf, hbody, (isSSA_after_passes hm _).2 f hf hbody⟩
  · cases hrun

end Compilation

end Ember
