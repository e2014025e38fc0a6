import TemplateMarkup.Parse
import TemplateMarkup.Settings
import TemplateMarkup.Tree.Outline

/-!
# The command line

The program parses one template file and prints its tree; diagnostics go to the error output. A run
needs nothing of the system but a way to read files, so it is defined over any monad that has one.
-/

namespace TemplateMarkup.CommandLine

/-! ## Arguments -/

structure Args where
  /-- The settings file, if not the one in the home directory. -/
  config? : Option String := none
  /-- The opening and the closing sequence of a nested region. -/
  nested? : Option (String × String) := none
  /-- Whether those sequences are compared with their case. -/
  caseSensitive : Bool := false
  file : String
  deriving DecidableEq, Repr

/-- What is wrong with the arguments. -/
inductive UsageError where
  | noConfigPath
  | noStartSequence
  | noEndSequence
  | unknownOption (argument : String)
  | unexpectedArgument (argument : String)
  | noFile
  deriving DecidableEq, Repr

def UsageError.message : UsageError → String
  | noConfigPath => "--config needs a path"
  | noStartSequence => "--nested needs a start sequence"
  | noEndSequence => "--nested needs an end sequence"
  | unknownOption argument => "Unknown option " ++ argument
  | unexpectedArgument argument => "Unexpected argument " ++ argument
  | noFile => "No template file given"

/-- What the arguments read so far say. -/
structure Draft where
  config? : Option String := none
  nested? : Option (String × String) := none
  caseSensitive : Bool := false
  file? : Option String := none
  deriving DecidableEq, Repr

/-- Whether the argument has the form of an option. -/
def isOption (argument : String) : Bool := ['-', '-'].isPrefixOf argument.toList

/-- Reads arguments from left to right. An option takes the arguments that belong to it, whatever
they look like; where one is given twice, the last counts. -/
def readArgs (d : Draft) : List String → Except UsageError Draft
  | [] => .ok d
  | argument :: rest =>
    if argument = "--config" then
      match rest with
      | [] => .error .noConfigPath
      | path :: rest => readArgs { d with config? := some path } rest
    else if argument = "--nested" then
      match rest with
      | [] => .error .noStartSequence
      | [_] => .error .noEndSequence
      | opener :: closer :: rest => readArgs { d with nested? := some (opener, closer) } rest
    else if argument = "--case-sensitive" then readArgs { d with caseSensitive := true } rest
    else if isOption argument then .error (.unknownOption argument)
    else if d.file?.isNone then readArgs { d with file? := some argument } rest
    else .error (.unexpectedArgument argument)

/-- The arguments of a run. -/
def parseArgs (arguments : List String) : Except UsageError Args := do
  let d ← readArgs {} arguments
  match d.file? with
  | some file => .ok ⟨d.config?, d.nested?, d.caseSensitive, file⟩
  | none => .error .noFile

/-! ## Running -/

/-- What there is at a path. -/
inductive FileContent where
  /-- Nothing, or no path that leads anywhere. -/
  | missing
  /-- Something that cannot be read, such as a directory. -/
  | unreadable
  | bytes (content : ByteArray)

/-- Why a run ends before it has parsed anything. -/
inductive RunError where
  | settingsNotLoaded (path : String)
  | settingsMissing (path : String)
  | templateNotRead (path : String)
  /-- The parse had no result. -/
  | parseFailed (error : ParseError)
  deriving DecidableEq, Repr

def RunError.message : RunError → String
  | settingsNotLoaded path => "Failed to load config file '" ++ path ++ "'"
  | settingsMissing path => "Config file '" ++ path ++ "' does not exist"
  | templateNotRead path => "Failed to read template '" ++ path ++ "'"
  | parseFailed error => error.message?.getD "The parse has no result"

/-- What a run leaves behind. -/
structure Outcome where
  /-- The text on the standard output. -/
  output : String := ""
  /-- The lines on the error output. -/
  errors : List String := []
  status : UInt32 := 0
  deriving DecidableEq, Repr

def usage : String :=
  "Usage: stencil-cli [--config PATH] [--nested START END] [--case-sensitive] FILE"

/-- The settings file that is read when no other is named; `home?` is the home directory. -/
def defaultSettingsPath (home? : Option String) : String :=
  home?.getD "~" ++ "/.config/stencil/config.toml"

/-- The settings in what was found at a path. A file that was asked for must be there; where none was,
the defaults stand in for it. -/
def settingsIn (args : Args) (path : String) : FileContent → Except RunError Settings
  | .missing => if args.config?.isSome then .error (.settingsMissing path) else .ok {}
  | .unreadable => .error (.settingsNotLoaded path)
  | .bytes content => (Settings.ofBytes content).mapError fun _ => .settingsNotLoaded path

/-- The source in what was found at the template's path. -/
def templateIn (path : String) : FileContent → Except RunError String
  | .missing | .unreadable => .error (.templateNotRead path)
  | .bytes content =>
    match String.fromUTF8? content with
    | some source => .ok source
    | none => .error (.templateNotRead path)

/-- The nesting sequences of a run. Those of the arguments come before those of the settings. -/
def nestingOf? (args : Args) (settings : Settings) : Option Nesting :=
  match args.nested? with
  | some (opener, closer) => some ⟨opener, closer, args.caseSensitive⟩
  | none => settings.nesting?

/-- What a finished parse prints. Diagnostics make the run fail. -/
def report (p : Parse Unit) : Outcome :=
  { output := p.tree.dump ++ "\n"
    errors := p.diagnostics.map Diagnostic.line
    status := if p.diagnostics.isEmpty then 0 else 1 }

/-- Parses a template with the settings and arguments of a run. -/
def parseTemplate (args : Args) (settings : Settings) (source : String) :
    Except RunError (Parse Unit) :=
  let parser : Parser Unit := { options? := settings.options, code := .implicit, host := () }
  (parser.parse (nestingOf? args settings) source).mapError .parseFailed

/-- What a run prints that failed. -/
def RunError.outcome (e : RunError) : Outcome := { errors := ["Error: " ++ e.message], status := 1 }

/-- What a run prints whose arguments are wrong. -/
def UsageError.outcome (e : UsageError) : Outcome :=
  { errors := ["Error: " ++ e.message, usage], status := 1 }

/-- Runs with good arguments. The settings are read before the template. -/
def runWith {m : Type → Type} [Monad m] (home? : Option String) (read : String → m FileContent)
    (args : Args) : m Outcome := do
  let path := args.config?.getD (defaultSettingsPath home?)
  match settingsIn args path (← read path) with
  | .error e => pure e.outcome
  | .ok settings =>
    match templateIn args.file (← read args.file) >>= parseTemplate args settings with
    | .error e => pure e.outcome
    | .ok p => pure (report p)

/-- Runs the program on its arguments. -/
def run {m : Type → Type} [Monad m] (home? : Option String) (read : String → m FileContent)
    (arguments : List String) : m Outcome :=
  match parseArgs arguments with
  | .error e => pure e.outcome
  | .ok args => runWith home? read args

end TemplateMarkup.CommandLine
