import CartoStyle.Conversion
import CartoStyle.Settings.Layer
import CartoStyle.Style.File

/-!
The command line. A command reads one file and prints a style document, a
stylesheet, or the tokens of a stylesheet. Here it is a function from the
arguments and the files to an exit code and two texts; the program around it
only performs the reading and the printing.
-/

namespace CartoStyle.Command

structure Outcome where
  code : Nat
  stdout : String := ""
  stderr : String := ""
deriving DecidableEq, Repr

inductive Action where
  | read (format : Style.Format)
  | write
  | tokens
deriving DecidableEq, Repr

structure Request where
  action : Action
  path : String
  /-- A settings file to lay over the default settings. -/
  settings : Option String := none
deriving DecidableEq, Repr

inductive Invocation where
  /-- The name and the version of the program. -/
  | version
  | request (request : Request)
deriving DecidableEq, Repr

/-- Where options stand: in front of the command, or behind a command that reads or another. -/
inductive Scope where
  | program
  | reading
  | other
deriving DecidableEq, Repr

structure Options where
  settings : Option String := none
  format : Option String := none
  version : Bool := false
  /-- The arguments that are no options. -/
  plain : List String := []

/-- An option with a value: its long name, its letter, and its place among the options. -/
inductive Flag where
  | settings
  | format
deriving DecidableEq

def Flag.ofArgument? (scope : Scope) (argument : List Char) : Option (Flag × Option String) :=
  let value (cs : List Char) : Option (Option String) :=
    match cs with
    | [] => some none
    | '=' :: cs => some (some (String.ofList cs))
    | _ => none
  let long (flag : Flag) (name : String) : Option (Flag × Option String) :=
    if name.toList.isPrefixOf argument then
      (value (argument.drop name.length)).map (flag, ·)
    else none
  let short (flag : Flag) (letter : Char) : Option (Flag × Option String) :=
    match argument with
    | '-' :: c :: cs =>
      if c = letter then
        some (flag, ((value cs).getD (some (String.ofList cs))))
      else none
    | _ => none
  let found := (long .settings "--config").orElse fun _ => short .settings 'c'
  if scope = .reading then
    found.orElse fun _ => (long .format "--format").orElse fun _ => short .format 'f'
  else found

def isFlag (argument : String) : Bool :=
  match argument.toList with
  | '-' :: _ :: _ => true
  | _ => false

/-- An argument that asks for the version, whatever comes after it. -/
def isVersion (scope : Scope) (argument : String) : Bool :=
  scope == .program && (argument == "--version" || "-V".toList.isPrefixOf argument.toList)

/-- The options with one more value; none may be given twice. -/
def Options.put? (o : Options) : Flag → String → Option Options
  | .settings, value => if o.settings.isSome then none else some { o with settings := some value }
  | .format, value => if o.format.isSome then none else some { o with format := some value }

/-- The options of some arguments, with at most some number of arguments that are none. What
follows that many is left for another reading, and so is what follows two dashes. -/
def options? (scope : Scope) (limit : Nat) : Options → List String →
    Option (Options × List String)
  | o, [] => some (o, [])
  | o, "--" :: rest => some ({ o with plain := o.plain ++ rest }, [])
  | o, argument :: rest =>
    if isVersion scope argument then some ({ o with version := true }, [])
    else if isFlag argument then
      match Flag.ofArgument? scope argument.toList, rest with
      | some (flag, some value), rest =>
        (o.put? flag value).bind (options? scope limit · rest)
      | some (flag, none), value :: rest =>
        if isFlag value then none else (o.put? flag value).bind (options? scope limit · rest)
      | some (_, none), [] => none
      | none, _ => none
    else if o.plain.length < limit then
      options? scope limit { o with plain := o.plain ++ [argument] } rest
    else some (o, argument :: rest)

def format? : Option String → Option Style.Format
  | none => some .json
  | some "json" => some .json
  | some "yaml" => some .yaml
  | some _ => none

def Request.ofCommand? (before : Options) (name : String) (arguments : List String) :
    Option Request := do
  guard (["read", "write", "tokens"].contains name)
  let (after, []) ← options? (if name = "read" then .reading else .other) 1 {} arguments | none
  let [path] := after.plain | none
  let action ← match name with
    | "read" => (format? after.format).map Action.read
    | "write" => some .write
    | _ => some .tokens
  return { action, path, settings := after.settings.or before.settings }

def Invocation.ofArguments? (arguments : List String) : Option Invocation := do
  let (before, rest) ← options? .program 0 {} arguments
  if before.version then return .version
  let name :: rest := before.plain ++ rest | none
  return .request (← Request.ofCommand? before name rest)

abbrev Files := String → Option String

abbrev Attempt := Except String

def readFile (files : Files) (path : String) : Attempt String :=
  match files path with
  | some content => .ok content
  | none =>
    .error ("Error reading file '" ++ path ++ "': No such file or directory (os error 2)")

def settingsMessage (path : String) : Settings.LayerError → String
  | .missingFile => "configuration file \"" ++ path ++ "\" not found"
  | .unreadableFile => "configuration file \"" ++ path ++ "\" is not readable"
  | .unsuitable => "configuration file \"" ++ path ++ "\" has a value of the wrong type"
  | .key key => "invalid key \"" ++ key ++ "\""

/-- The settings of a command. A settings file may be named without its extension. -/
def loadSettings (files : Files) : Option String → Attempt Settings
  | none => .ok {}
  | some path =>
    let content := (files path).or (files (path ++ ".toml"))
    (Settings.ofLayers [.file content true]).mapError fun e =>
      "Error loading configuration: " ++ settingsMessage path e

def attempt {α : Type} (verb path : String) : Except Error α → Attempt α
  | .ok v => .ok v
  | .error e => .error ("Error " ++ verb ++ " '" ++ path ++ "': " ++ e.message)

def warningLines (warnings : List Warning) : String :=
  String.join (warnings.map fun w => "Warning: " ++ w.message ++ "\n")

def tokenLine (t : Sheet.Located) : String :=
  toString t.start ++ ".." ++ toString t.stop ++ " " ++ t.token.describe ++ "\n"

def formatOf (path : String) : Style.Format :=
  if ".json".toList.isSuffixOf path.toList then .json else .yaml

def perform (settings : Settings) (path content : String) : Action → Attempt Outcome
  | .read format => do
    let style ← attempt "reading" path (readStyle settings content)
    return { code := 0, stdout := format.write style.output, stderr := warningLines style.warnings }
  | .write => do
    match (formatOf path).read? content with
    | none => throw ("Error parsing '" ++ path ++ "': not a style document")
    | some style =>
      let text ← attempt "writing" path (writeStyle settings style)
      return { code := 0, stdout := text.output, stderr := warningLines text.warnings }
  | .tokens => do
    let tokens ← attempt "lexing" path (Sheet.lex content)
    return { code := 0, stdout := String.join (tokens.map tokenLine) }

def Request.outcome (r : Request) (files : Files) : Attempt Outcome := do
  let settings ← loadSettings files r.settings
  let content ← readFile files r.path
  perform settings r.path content r.action

def version : String := "0.1.0"

def run (arguments : List String) (files : Files) : Outcome :=
  match Invocation.ofArguments? arguments with
  | none => { code := 2 }
  | some .version => { code := 0, stdout := languageName ++ " " ++ version ++ "\n" }
  | some (.request request) =>
    match request.outcome files with
    | .ok outcome => outcome
    | .error message => { code := 1, stderr := message ++ "\n" }

end CartoStyle.Command
