import GuardedC.CommandLine.Arguments
import GuardedC.Kernel
import GuardedC.Settings

/-!
# The command line

What the tool does for a command line, as a function of its arguments, the files it can see and the
log level asked for: the text it prints, the log, and how it ends.
-/

namespace GuardedC.CommandLine

/-! ## Texts -/

def versionText : String := "sya 0.1.0\n"

def helpText : String :=
  "Trace host functions into guarded C\n\n"
    ++ "Usage: sya [OPTIONS] <COMMAND>\n\n"
    ++ "Commands:\n"
    ++ "  list    List the bundled demo kernels\n"
    ++ "  demo    Print the C source generated for a demo kernel\n"
    ++ "  header  Print the runtime header generated functions include\n"
    ++ "  types   List the parameter types with their C spelling and value range\n"
    ++ "  help    Print this message\n\n"
    ++ "Options:\n"
    ++ "  -v, --verbose...                     Increase log verbosity\n"
    ++ "      --config <CONFIG>                Path to a `sya.toml`\n"
    ++ "      --prefix <PREFIX>                Name prefix for generated functions\n"
    ++ "      --abort-routine <ABORT_ROUTINE>  Routine called when a guard fails\n"
    ++ "  -h, --help                           Print help\n"
    ++ "  -V, --version                        Print version\n"

/-- The text, filled up with blanks to a width. -/
def padded (width : Nat) (text : String) : String :=
  text ++ String.ofList (List.replicate (width - text.length) ' ')

/-- A demonstration with its types. -/
def kernelLine (k : Kernel) : String :=
  padded 16 k.name ++ " (" ++ ", ".intercalate (k.params.map Ty.text) ++ ") -> " ++ k.returns.text ++ "\n"

/-- A type with its name in C and its values. -/
def typeLine (name : String) (ty : Ty) : String :=
  let range := (ty.values?.map IntSet.text).getD "-"
  padded 8 name ++ " " ++ padded 12 ty.cName ++ " " ++ range ++ "\n"

/-! ## Commands -/

/-- What was printed, and the failure that ended it, if there was one. -/
structure Printed where
  text : String
  failure : Option Diagnostic := none
deriving Repr, DecidableEq

def unknownDemo (name : String) : Diagnostic where
  message := s!"no demo named `{name}`"
  code := some "sya::cli"
  help := some "run `sya list` to see the available demos"

def nothingToCompile : Diagnostic where
  message := "nothing to compile"
  code := none
  help := some "pass a demo name or `--all`"

/-- The options in force: those of the settings file, under those of the command line. -/
def resolveOptions (disk : Disk) (workingDirectory : String) (globals : Globals) :
    InSession SettingsError Options := do
  let loaded ← loadOptions disk globals.config workingDirectory
  if let some path := loaded.path then say (.configured path)
  let given : Settings := ⟨globals.namePrefix, globals.abortRoutine⟩
  return given.override loaded.options

def selectDemos (name : Option String) (all : Bool) : Except Diagnostic (List Kernel) :=
  match name with
  | some name =>
    match Demo.find? name with
    | some k => .ok [k]
    | none => .error (unknownDemo name)
  | none => if all then .ok Demo.all else .error nothingToCompile

/-- Prints kernels, divided by empty lines, up to the first that fails. -/
def printKernels (options : Options) : List Kernel → StateM Session Printed
  | [] => return { text := "" }
  | k :: ks => do
    match ← (k.build options).run with
    | .error e => return { text := "", failure := e.diagnostic }
    | .ok text =>
      let rest ← printKernels options ks
      let gap := if ks.isEmpty then "" else "\n"
      return { rest with text := text ++ gap ++ rest.text }

def runCommand (disk : Disk) (workingDirectory : String) (globals : Globals) :
    Command → StateM Session Printed
  | .list => return { text := String.join (Demo.all.map kernelLine) }
  | .types => return { text := String.join (Ty.catalog.map fun (name, ty) => typeLine name ty) }
  | .header => do
    match ← (resolveOptions disk workingDirectory globals).run with
    | .error e => return { text := "", failure := e.diagnostic }
    | .ok options => return { text := options.header }
  | .demo name all => do
    match ← (resolveOptions disk workingDirectory globals).run with
    | .error e => return { text := "", failure := e.diagnostic }
    | .ok options =>
      match selectDemos name all with
      | .error e => return { text := "", failure := e }
      | .ok kernels => printKernels options kernels

/-! ## Logging -/

/-- The finest level that is shown, if any is. -/
abbrev Threshold := Option Level

def Threshold.ofVerbosity : Nat → Threshold
  | 0 => some .warn
  | 1 => some .debug
  | _ => some .trace

/-- The threshold that a level's name asks for; other texts ask for errors only. -/
def Threshold.ofName (name : String) : Threshold :=
  match name.toLower with
  | "off" => none
  | "warn" => some .warn
  | "info" => some .info
  | "debug" => some .debug
  | "trace" => some .trace
  | _ => some .error

def Threshold.shows (t : Threshold) (m : Message) : Bool :=
  match t with
  | none => false
  | some level => m.level.rank ≤ level.rank

/-! ## Runs -/

structure Outcome where
  exitCode : Nat
  output : String := ""
  /-- The lines of the log that are shown. -/
  log : List String := []
  failure : Option Diagnostic := none
  usage : Option UsageError := none
deriving Repr, DecidableEq

/-- Runs the tool. A level named from outside replaces the one that the arguments ask for. -/
def run (disk : Disk) (workingDirectory : String) (levelName : Option String) (words : List String) :
    Outcome :=
  match parse words with
  | .error e => { exitCode := 2, usage := e }
  | .ok .version => { exitCode := 0, output := versionText }
  | .ok .help => { exitCode := 0, output := helpText }
  | .ok (.command globals command) =>
    let threshold := (levelName.map Threshold.ofName).getD (.ofVerbosity globals.verbose)
    let (printed, session) := (runCommand disk workingDirectory globals command).run .empty
    { exitCode := if printed.failure.isSome then 1 else 0
      output := printed.text
      log := (session.log.filter threshold.shows).map Message.line
      failure := printed.failure }

end GuardedC.CommandLine
