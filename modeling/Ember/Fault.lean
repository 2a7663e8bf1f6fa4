import Ember.IR.Op
import Ember.IR.Value
import Ember.Token.Kind
import Ember.Tree.Operator

/-!
# Faults

Everything that can stop a compilation, as causes. A cause says what went wrong; its tag names its kind and its message is
the text that a user reads. Causes inside a source have a location. Breaches are faults of the compiler itself.
-/

namespace Ember

/-- What a parser was looking for. -/
inductive Expectation where
  | token (k : Kind)
  | identifier
  | type
  | expression
  | item
  | indexExpression
  | integerInRange
deriving DecidableEq, Repr

def Expectation.text : Expectation → String
  | .token k => k.text
  | .identifier => "identifier"
  | .type => "type"
  | .expression => "expression"
  | .item => "item (def, let, var, import, module, type)"
  | .indexExpression => "index expression"
  | .integerInRange => "integer literal in i64 range"

/-- What a parser found instead: a token, or the digits of a literal that is too large. -/
inductive Finding where
  | token (k : Kind)
  | digits (text : String)
deriving DecidableEq, Repr

def Finding.text : Finding → String
  | .token k => k.text
  | .digits text => text

/-- What is wrong with the shape of a node. -/
inductive Defect where
  | unnamed
  | inferredWithType (name : String)
  | neitherTypeNorValue (name : String)
  | needsTypeOrValue (name : String)
  | untyped (name : String)
  | globalWithoutValue (name : String)
  | parameterNotDefinition
  | parameterUntyped (name : String)
  | parameterWithValue (name : String)
  | parameterVoid (name : String)
  | noPrototype
  | bodyNotBlock
deriving DecidableEq, Repr

def Defect.text : Defect → String
  | .unnamed => "variable has no name"
  | .inferredWithType name => "`" ++ name ++ "` is inferred but declares a type"
  | .neitherTypeNorValue name => "`" ++ name ++ "` has neither a type nor an initializer"
  | .needsTypeOrValue name => "`" ++ name ++ "` needs a type or an initializer"
  | .untyped name => "`" ++ name ++ "` has no type"
  | .globalWithoutValue name => "global `" ++ name ++ "` has no initializer"
  | .parameterNotDefinition => "parameter is not a variable definition"
  | .parameterUntyped name => "parameter `" ++ name ++ "` has no type"
  | .parameterWithValue name => "parameter `" ++ name ++ "` has a default value"
  | .parameterVoid name => "parameter `" ++ name ++ "` has unsized type void"
  | .noPrototype => "missing prototype"
  | .bodyNotBlock => "function body is not a block"

/-- What a typed position asks for. -/
inductive Wanted where
  | type (name : String)
  /-- A callee that is the name of a function. -/
  | function
  | arguments (count : Nat) (callee : String)
  /-- An argument of a call, counted from one; the mode is named if it decides. -/
  | argument (mode : Option PassMode) (type : String) (position : Nat)
deriving DecidableEq, Repr

def Wanted.text : Wanted → String
  | .type name => name
  | .function => "function"
  | .arguments count callee => toString count ++ " arguments to " ++ callee
  | .argument (some mode) t position => mode.text ++ " " ++ t ++ " for argument " ++ toString position
  | .argument none t position => t ++ " for argument " ++ toString position

/-- What a typed position got. -/
inductive Given where
  | type (name : String)
  | arguments (count : Nat)
deriving DecidableEq, Repr

def Given.text : Given → String
  | .type name => name
  | .arguments count => toString count

/-- Something the language has no meaning for. -/
inductive Attempt where
  | operator (op : Operator)
  | form (name : String)
  | forEach
  | memberAccess
  | subscript
  | slice
  | initializer
deriving DecidableEq, Repr

def Attempt.text : Attempt → String
  | .operator op => op.symbol
  | .form name => name
  | .forEach => "foreach"
  | .memberAccess => "member access"
  | .subscript => "[]"
  | .slice => "[:]"
  | .initializer => "non-constant initializer"

/-- Where it was attempted. -/
inductive Site where
  | type (name : String)
  | form (name : String)
  | globalScope
  | functionBody
  | loop
deriving DecidableEq, Repr

def Site.text : Site → String
  | .type name => name
  | .form name => name
  | .globalScope => "global scope"
  | .functionBody => "function body"
  | .loop => "loop"

/-- What a verifier finds wrong with a function. -/
inductive Flaw where
  | noEntry
  | untypedRegister (r : IR.Register)
  | definedTwice (r : IR.Register)
  | undefinedRegister (r : IR.Register)
  | missingParameter (i : Nat)
  | unknownGlobal (name : String)
  | missingTarget (label : String) (target : IR.BlockId)
  | unknownCallee (name : String)
  | argumentCount (callee : String) (given expected : Nat)
  | mismatchedResult (callee : String)
  | notTerminated (label : String)
  | mismatchedReturn (label : String) (ret : IR.Ty)
deriving DecidableEq, Repr

def Flaw.text : Flaw → String
  | .noEntry => "entry block is missing"
  | .untypedRegister r => "%" ++ toString r ++ " has no recorded type"
  | .definedTwice r => "%" ++ toString r ++ " is defined twice"
  | .undefinedRegister r => "use of undefined register %" ++ toString r
  | .missingParameter i => "use of missing parameter " ++ toString i
  | .unknownGlobal name => "unknown global @" ++ name
  | .missingTarget label target => "block " ++ label ++ " branches to missing block " ++ toString target
  | .unknownCallee name => "call to unknown function " ++ name
  | .argumentCount callee given expected =>
    "call to " ++ callee ++ " passes " ++ toString given ++ " arguments, expected " ++ toString expected
  | .mismatchedResult callee => "call to " ++ callee ++ " has a mismatched result"
  | .notTerminated label => "block " ++ label ++ " is not terminated"
  | .mismatchedReturn label ret => "return in block " ++ label ++ " does not match " ++ ret.text

/-- Faults of the compiler itself. -/
inductive Breach where
  | noToken
  | noType (id : Nat)
  | operandCount (expected given : Nat)
  | noOperands
  | noCallee
  | noSignature (type : String)
  | unfoldable (op : IR.CastOp) (c : IR.Constant)
  | flaw (function : String) (what : Flaw)
  | noScope
  | noFunctionSelected
  | functionOutOfRange
  | noInsertPoint
  | blockOutOfRange
  | noFunctionAt (index : Nat)
  | afterTerminator (label : String)
  | secondTerminator (label : String)
  | noEntryBlock
  | noPrototype
  | notParameter
  | parameterNotDefinition
  | notFunctionType (name : String)
  | neverDeclared (name : String)
  | strayParameter
  | returnOutside
  | notExpression (form : String)
deriving DecidableEq, Repr

def Breach.text : Breach → String
  | .noToken => "no token left"
  | .noType id => "no type #" ++ toString id
  | .operandCount expected given => "expected " ++ toString expected ++ " operands, got " ++ toString given
  | .noOperands => "n-ary operation without operands"
  | .noCallee => "call without callee"
  | .noSignature type => "function type " ++ type ++ " has no signature"
  | .unfoldable op c => "cannot fold " ++ op.name ++ " of " ++ c.text
  | .flaw function what => function ++ ": " ++ what.text
  | .noScope => "symbol insert with no open scope"
  | .noFunctionSelected => "no function selected in builder"
  | .functionOutOfRange => "builder function index out of range"
  | .noInsertPoint => "no insert point in builder"
  | .blockOutOfRange => "insert block out of range"
  | .noFunctionAt index => "no function #" ++ toString index
  | .afterTerminator label => "instruction appended after terminator in block " ++ label
  | .secondTerminator label => "second terminator in block " ++ label
  | .noEntryBlock => "function has no entry block"
  | .noPrototype => "function definition without prototype"
  | .notParameter => "prototype parameter is not a FunctionParameter"
  | .parameterNotDefinition => "parameter without variable definition"
  | .notFunctionType name => name ++ " has no function type"
  | .neverDeclared name => name ++ " was never declared"
  | .strayParameter => "parameter outside a prototype"
  | .returnOutside => "return outside a function"
  | .notExpression form => form ++ " is not an expression"

/-- Why a file cannot be read or written. -/
inductive AccessFailure where
  | notFound
  | isDirectory
  | notDirectory
  | nameTooLong
  | nulInName
  | notText
deriving DecidableEq, Repr

def AccessFailure.text : AccessFailure → String
  | .notFound => "No such file or directory (os error 2)"
  | .isDirectory => "Is a directory (os error 21)"
  | .notDirectory => "Not a directory (os error 20)"
  | .nameTooLong => "File name too long (os error 36)"
  | .nulInName => "file name contained an unexpected NUL byte"
  | .notText => "stream did not contain valid UTF-8"

/-- The causes that stop a compilation. -/
inductive Fault where
  | unexpected (expected : Expectation) (got : Finding) (loc : Loc)
  | malformed (form : String) (defect : Defect) (loc : Loc)
  | unknownType (name : String) (loc : Loc)
  | mismatch (expected : Wanted) (got : Given) (loc : Loc)
  | redefined (name : String) (loc : Loc)
  | undefinedName (name : String) (loc : Loc)
  | unsized (type : String) (loc : Loc)
  | unsupported (attempt : Attempt) (site : Site) (loc : Loc)
  | missingReturn (name : String) (loc : Loc)
  | breach (cause : Breach)
  | access (path : String) (failure : AccessFailure)
  /-- A block without an end cannot be written as C. -/
  | openBlock (function label : String)
  /-- No object file can be made where no C compiler is found. -/
  | noCompiler
deriving DecidableEq, Repr

namespace Fault

/-- The name of the kind of fault, which stays the same when messages change. -/
def tag : Fault → String
  | .unexpected .. => "SyntaxError"
  | .malformed .. => "GrammarError"
  | .unknownType .. => "TypeNotFound"
  | .mismatch .. => "TypeMismatch"
  | .redefined .. => "RedefinedSymbol"
  | .undefinedName .. => "UndefinedSymbol"
  | .unsized .. => "UnsizedType"
  | .unsupported .. => "UnsupportedOperation"
  | .missingReturn .. => "MissingReturn"
  | .breach _ => "InternalInvariant"
  | .access .. => "IoError"
  | .openBlock .. => "BackendError"
  | .noCompiler => "BackendError"

/-- What the user reads. -/
def message : Fault → String
  | .unexpected expected got _ => "syntax error: expected " ++ expected.text ++ ", got " ++ got.text
  | .malformed form defect _ => "malformed " ++ form ++ ": " ++ defect.text
  | .unknownType name _ => "unknown type: " ++ name
  | .mismatch expected got _ => "type mismatch: expected " ++ expected.text ++ ", got " ++ got.text
  | .redefined name _ => "redefinition of symbol: " ++ name
  | .undefinedName name _ => "undefined symbol: " ++ name
  | .unsized type _ => "type " ++ type ++ " has no size"
  | .unsupported attempt site _ => "unsupported operation " ++ attempt.text ++ " on " ++ site.text
  | .missingReturn name _ => "function " ++ name ++ " does not return a value on every path"
  | .breach cause => "internal error: " ++ cause.text
  | .access path failure => "cannot access " ++ path ++ ": " ++ failure.text
  | .openBlock function label => "backend error: " ++ function ++ ": block " ++ label ++ " has no terminator"
  | .noCompiler => "backend error: failed to compile C code: no C compiler found"

/-- Where in the source the fault lies. -/
def loc? : Fault → Option Loc
  | .unexpected _ _ loc => some loc
  | .malformed _ _ loc => some loc
  | .unknownType _ loc => some loc
  | .mismatch _ _ loc => some loc
  | .redefined _ loc => some loc
  | .undefinedName _ loc => some loc
  | .unsized _ loc => some loc
  | .unsupported _ _ loc => some loc
  | .missingReturn _ loc => some loc
  | _ => none

end Fault

end Ember
