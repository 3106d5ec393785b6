import Namespacer.Settings

/-!
# Command lines

A command line names an action, the directory to work on and options. Options
may stand anywhere after the action; two hyphens on their own end them. A value
follows its option as the next argument, after an equals sign, or, for options
of one letter, directly. Where an option that takes one value is repeated, the
last value counts.
-/

namespace Namespacer

/-- What is asked for. -/
inductive Action where
  /-- To print namespaces and imports. -/
  | imports
  /-- To migrate a project. -/
  | migrate
deriving DecidableEq, Repr

namespace Action

/-- The action with a name. -/
def ofName? (name : Text) : Option Action :=
  if name = "imports".toList then some imports
  else if name = "migrate".toList then some migrate
  else none

end Action

/-- An option of a command line. -/
inductive Switch where
  | rootNamespace
  | exclude
  | encoding
  | fast
  | logLevel
  | replace
  | php
  | composerInstall
deriving DecidableEq, Repr

namespace Switch

/-- The option with a long name. -/
def ofLong? (name : Text) : Option Switch :=
  match String.ofList name with
  | "--namespace" => some rootNamespace
  | "--exclude" => some exclude
  | "--encoding" => some encoding
  | "--fast" => some fast
  | "--log-level" => some logLevel
  | "--replace" => some replace
  | "--php" => some php
  | "--composer-install" => some composerInstall
  | _ => none

/-- The option with a name of one letter. -/
def ofShort? : Char → Option Switch
  | 'n' => some rootNamespace
  | 'x' => some exclude
  | 'r' => some replace
  | _ => none

/-- Whether an option takes a value. -/
def takesValue : Switch → Bool
  | fast => false
  | composerInstall => false
  | _ => true

/-- Whether an action knows an option. -/
def isKnownTo (action : Action) : Switch → Bool
  | replace => action = .migrate
  | php => action = .migrate
  | composerInstall => action = .migrate
  | _ => true

end Switch

/-- What is wrong with a command line. -/
inductive UsageFault where
  | noAction
  | unknownAction (name : Text)
  | unknownOption (argument : Text)
  | missingValue (argument : Text)
  | unexpectedValue (argument : Text)
  | missingRoot
  | extraArgument (argument : Text)
  | missingNamespace
  | notDirectory (argument : Text)
deriving DecidableEq, Repr

/-- The message for a fault of a command line. -/
def UsageFault.message : UsageFault → Text
  | noAction => "Missing command."
  | unknownAction name => "No such command ".toList ++ Text.quoted name ++ "."
  | unknownOption argument => "No such option: ".toList ++ argument
  | missingValue argument => "Option ".toList ++ Text.quoted argument ++ " requires an argument."
  | unexpectedValue argument =>
    "Option ".toList ++ Text.quoted argument ++ " does not take a value."
  | missingRoot => "Missing argument 'ROOT'."
  | extraArgument argument => "Got unexpected extra argument (".toList ++ argument ++ ")"
  | missingNamespace => "Missing option '--namespace' / '-n'."
  | notDirectory argument =>
    "Invalid value for 'ROOT': Directory ".toList ++ Text.quoted argument ++ " does not exist."

namespace Arguments

/-- The options and the other arguments that were read. -/
structure Found where
  /-- Options with their values, the last one first. -/
  switches : List (Switch × Text) := []
  /-- Other arguments, the last one first. -/
  others : List Text := []
deriving DecidableEq, Repr

/-- Whether an argument is an option. A hyphen on its own is not. -/
def isOption : Text → Bool
  | '-' :: _ :: _ => true
  | _ => false

/-- The option that an argument names, and the value that it carries. -/
def readOption (argument : Text) : Except UsageFault (Switch × Option Text) :=
  match argument with
  | '-' :: '-' :: _ =>
    let (name, value) :=
      match Text.cut? '=' argument with
      | some (name, value) => (name, some value)
      | none => (argument, none)
    match Switch.ofLong? name with
    | some switch =>
      if value.isSome && !switch.takesValue then .error (.unexpectedValue name)
      else .ok (switch, value)
    | none => .error (.unknownOption name)
  | '-' :: letter :: value =>
    match Switch.ofShort? letter with
    | some switch => .ok (switch, if value.isEmpty then none else some value)
    | none => .error (.unknownOption ['-', letter])
  | _ => .error (.unknownOption argument)

/-- An option that an action knows. -/
def readKnownOption (action : Action) (argument : Text) :
    Except UsageFault (Switch × Option Text) := do
  let (switch, value) ← readOption argument
  if switch.isKnownTo action then pure (switch, value) else throw (.unknownOption argument)

/-- Reads the arguments after the action. -/
def readAll (action : Action) : List Text → Found → Except UsageFault Found
  | [], found => .ok found
  | argument :: rest, found =>
    if argument = "--".toList then .ok { found with others := rest.reverse ++ found.others }
    else if isOption argument then
      match readKnownOption action argument with
      | .error fault => .error fault
      | .ok (switch, some value) =>
        readAll action rest { found with switches := (switch, value) :: found.switches }
      | .ok (switch, none) =>
        if switch.takesValue then
          match rest with
          | [] => .error (.missingValue argument)
          | value :: rest =>
            readAll action rest { found with switches := (switch, value) :: found.switches }
        else readAll action rest { found with switches := (switch, []) :: found.switches }
    else readAll action rest { found with others := argument :: found.others }

/-- The last value of an option. -/
def Found.value? (found : Found) (switch : Switch) : Option Text := found.switches.lookup switch

/-- All values of an option in order. -/
def Found.values (found : Found) (switch : Switch) : List Text :=
  ((found.switches.filter (·.1 == switch)).map (·.2)).reverse

end Arguments

/-- A command line that can be carried out. -/
structure Invocation where
  action : Action
  /-- The directory to work on, as it was given. -/
  root : Text
  /-- The settings, but for the replacements. -/
  settings : Settings
  /-- The replacements, as they were given. -/
  replacements : List Text := []
  logLevel : Text := "WARNING"
deriving DecidableEq, Repr

namespace Arguments

/-- The command line of an action. -/
def invocation (action : Action) (found : Found) : Except UsageFault Invocation :=
  match found.others.reverse, found.value? .rootNamespace with
  | [], _ => .error .missingRoot
  | _ :: extra :: _, _ => .error (.extraArgument extra)
  | [_], none => .error .missingNamespace
  | [root], some name =>
    .ok
      { action, root
        settings :=
          { rootNamespace := name
            encoding := (found.value? .encoding).getD defaultEncoding
            exclude := found.values .exclude
            phpConstraint := (found.value? .php).getD defaultConstraint
            composerInstall := (found.value? .composerInstall).isSome
            fast := (found.value? .fast).isSome }
        replacements := found.values .replace
        logLevel := (found.value? .logLevel).getD "WARNING" }

/-- Reads a command line from its action on. -/
def parseAction : List Text → Except UsageFault Invocation
  | [] => .error .noAction
  | name :: rest =>
    match Action.ofName? name with
    | some action => do invocation action (← readAll action rest {})
    | none => .error (.unknownAction name)

/-- Reads a command line. -/
def parse : List Text → Except UsageFault Invocation
  | [] => .error .noAction
  | first :: rest =>
    if first = "--".toList then parseAction rest
    else if isOption first then .error (.unknownOption first)
    else parseAction (first :: rest)

end Arguments

end Namespacer
