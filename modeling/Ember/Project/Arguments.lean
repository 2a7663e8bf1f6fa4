import Ember.Project.Job

/-!
# Command-line arguments

How a command line becomes options. An option may be given in two ways, `--name value` and `--name=value`; a short one also as
`-Nvalue`. After `--` everything is a file.
-/

namespace Ember

/-- What a command line asks for. -/
structure Request where
  options : Options := {}
  /-- The level down to which the journal is printed. -/
  detail : Detail := .warn

/-- What is wrong with a command line. -/
inductive ArgumentFault where
  | unknown (argument : String)
  | noValue (option : String)
  | badValue (option value : String)
  | usage (fault : UsageFault)
deriving DecidableEq, Repr

def ArgumentFault.message : ArgumentFault → String
  | .unknown argument => "unexpected argument '" ++ argument ++ "' found"
  | .noValue option => "a value is required for '" ++ option ++ "' but none was supplied"
  | .badValue option value => "invalid value '" ++ value ++ "' for '" ++ option ++ "'"
  | .usage fault => fault.message

/-- Options that take a value. -/
inductive Setting where
  | jobs | emit | optimization | output | log | report
deriving DecidableEq, Repr

namespace Setting

def ofName? : String → Option Setting
  | "--jobs" => some .jobs
  | "--emit" => some .emit
  | "--opt" | "-O" => some .optimization
  | "--output" | "-o" => some .output
  | "--log" => some .log
  | "--report" => some .report
  | _ => none

/-- Sets an option. The number of jobs has no effect on the result. -/
def apply (s : Setting) (name value : String) (r : Request) : Except ArgumentFault Request :=
  let bad : Except ArgumentFault Request := .error (.badValue name value)
  match s with
  | .jobs => if value.isNat then .ok r else bad
  | .emit =>
    match Emission.ofText? value with
    | some emission => .ok { r with options := { r.options with emission } }
    | none => bad
  | .optimization =>
    match Level.ofText? value with
    | some level => .ok { r with options := { r.options with level } }
    | none => bad
  | .output => .ok { r with options := { r.options with output := some value } }
  | .log =>
    match Detail.ofText? value with
    | some detail => .ok { r with detail }
    | none => bad
  | .report => .ok { r with options := { r.options with report := some value } }

/-- Finds the name and the value that stand in one argument. -/
def split? (argument : String) : Option (Setting × String × String) :=
  match argument.toList with
  | '-' :: '-' :: _ =>
    let name := argument.toList.takeWhile (· != '=')
    match argument.toList.drop name.length with
    | [] => none
    | _ :: value => (ofName? (String.ofList name)).map (·, String.ofList name, String.ofList value)
  | '-' :: c :: value =>
    if value.isEmpty then none
    else (ofName? (String.ofList ['-', c])).map (·, String.ofList ['-', c], String.ofList value)
  | _ => none

end Setting

namespace Request

/-- Adds an input. -/
def addInput (r : Request) (path : String) : Request :=
  { r with options := { r.options with inputs := r.options.inputs ++ [path] } }

/-- Reads arguments one after the other. -/
def read (r : Request) : List String → Except ArgumentFault Request
  | [] => .ok r
  | "--" :: files => .ok (files.foldl addInput r)
  | "--debug-info" :: rest => read { r with options := { r.options with debugInfo := true } } rest
  | argument :: rest =>
    match Setting.split? argument with
    | some (setting, name, value) =>
      match setting.apply name value r with
      | .ok r => read r rest
      | .error fault => .error fault
    | none =>
      match Setting.ofName? argument with
      | some setting =>
        match rest with
        | [] => .error (.noValue argument)
        | value :: rest =>
          match setting.apply argument value r with
          | .ok r => read r rest
          | .error fault => .error fault
      | none =>
        if argument.startsWith "-" && argument != "-" then .error (.unknown argument)
        else read (r.addInput argument) rest

/-- What a command line asks for, if it can be done. -/
def ofArguments (arguments : List String) : Except ArgumentFault Request :=
  match read {} arguments with
  | .error fault => .error fault
  | .ok r =>
    match r.options.check with
    | .error fault => .error (.usage fault)
    | .ok () => .ok r

end Request

end Ember
