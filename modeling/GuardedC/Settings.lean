import GuardedC.CFunction
import GuardedC.Disk
import GuardedC.Toml

/-!
# Settings

Options may be set in a file, `sya.toml`, which is looked for in a directory and in those above it.
The file has one table, `codegen`, with the keys `prefix` and `abort_routine`; anything else in it
is an error.
-/

namespace GuardedC

/-- The options that a settings file sets. -/
structure Settings where
  namePrefix : Option String := none
  abortRoutine : Option String := none
deriving Repr, DecidableEq

/-! ## Errors -/

inductive SettingsError where
  /-- The text is no TOML document, or not one of settings. -/
  | malformed
  | emptyAbortRoutine
  | unreadable (path reason : String)
  /-- The error of a text, with the file it was read from. -/
  | inFile (path : String) (error : SettingsError)
deriving Repr, DecidableEq

def SettingsError.text : SettingsError → String
  | malformed => "TOML parse error"
  | emptyAbortRoutine => "`codegen.abort_routine` must not be empty"
  | unreadable path reason => s!"failed to read {path}: {reason}"
  | inFile path e => s!"failed to parse {path}: {e.text}"

def SettingsError.diagnostic (e : SettingsError) : Diagnostic where
  message := "config error: " ++ e.text
  code := some "sya::config"
  help := none

/-! ## Reading a document -/

namespace Settings

/-- Takes one field of the table; each may be set once, to a string. -/
def setField (s : Settings) : List String × Toml.Value → Option Settings
  | (["prefix"], .string text) =>
    if s.namePrefix.isSome then none else some { s with namePrefix := text }
  | (["abort_routine"], .string text) =>
    if s.abortRoutine.isSome then none else some { s with abortRoutine := text }
  | _ => none

def ofFields (fields : List (List String × Toml.Value)) : Option Settings :=
  fields.foldlM setField {}

/-- The fields in the order of their declaration; what follows them does not matter. -/
def ofItems : List Toml.Value → Option Settings
  | [] => some {}
  | [.string p] => some { namePrefix := p }
  | .string p :: .string a :: _ => some { namePrefix := p, abortRoutine := a }
  | _ => none

/-- The field that a statement below the table's header sets. -/
def fieldOf? : Toml.Statement → Option (List String × Toml.Value)
  | .assign path value => some (path, value)
  | _ => none

/-- The field that a statement without a header sets, through a key that names the table. -/
def dottedFieldOf? : Toml.Statement → Option (List String × Toml.Value)
  | .assign ("codegen" :: path) value => some (path, value)
  | _ => none

/-- The settings of a document. The table is written in one of four ways: with a header, as an
inline table, as an array of its fields, or by dotted keys. -/
def ofStatements : List Toml.Statement → Option Settings
  | [.assign ["codegen"] (.table fields)] => ofFields fields
  | [.assign ["codegen"] (.array items)] => ofItems items
  | .header ["codegen"] :: rest => do ofFields (← rest.mapM fieldOf?)
  | statements => do ofFields (← statements.mapM dottedFieldOf?)

/-- Options with those of a file or of the command line put over them. -/
def override (s : Settings) (o : Options) : Options where
  namePrefix := s.namePrefix.getD o.namePrefix
  abortRoutine := s.abortRoutine.getD o.abortRoutine

end Settings

/-- The options that a text of settings gives. -/
def Options.parse (text : String) : Except SettingsError Options :=
  match Toml.parse? text >>= Settings.ofStatements with
  | none => .error .malformed
  | some s =>
    if s.abortRoutine = some "" then .error .emptyAbortRoutine else .ok (s.override {})

/-! ## Finding and loading -/

namespace Settings

def fileName : String := "sya.toml"

/-- Where settings are looked for: beside a file, or in a directory, and then in all directories
above. -/
def candidates (disk : Disk) (start : String) : List String :=
  let directory? := if (disk start).isFile then Path.parent? start else some start
  (directory?.map Path.ancestors).getD [] |>.map (Path.join · fileName)

/-- The nearest settings file. -/
def find? (disk : Disk) (start : String) : Option String :=
  (candidates disk start).find? fun path => (disk path).exists?

end Settings

/-- Options with the file they come from, if they come from one. -/
structure LoadedOptions where
  path : Option String := none
  options : Options := {}
deriving Repr, DecidableEq

/-- Loads the given settings file, or else the nearest one; without any, the options are the usual
ones. -/
def loadOptions (disk : Disk) (explicit : Option String) (start : String) :
    InSession SettingsError LoadedOptions := do
  match explicit <|> Settings.find? disk start with
  | none => return {}
  | some path =>
    say (.reading path)
    match (disk path).read with
    | .error reason => throw (.unreadable path reason)
    | .ok text =>
      let options ← (Options.parse text).mapError (SettingsError.inFile path)
      return { path, options }

end GuardedC
