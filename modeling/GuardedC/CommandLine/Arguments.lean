/-!
# Arguments of the command line

The words of a command line, read into a request. Some options may stand before the command or after
it; where one stands in both places, the later place counts.
-/

namespace GuardedC.CommandLine

/-! ## Requests -/

inductive Command where
  | list
  | demo (name : Option String) (all : Bool)
  | header
  | types
deriving Repr, DecidableEq

/-- The options that every command takes. -/
structure Globals where
  verbose : Nat := 0
  config : Option String := none
  namePrefix : Option String := none
  abortRoutine : Option String := none
deriving Repr, DecidableEq

inductive Request where
  | version
  | help
  | command (globals : Globals) (command : Command)
deriving Repr, DecidableEq

inductive UsageError where
  | unknownFlag (word : String)
  | unknownCommand (word : String)
  | missingCommand
  | missingValue (flag : String)
  | unexpectedValue (flag : String)
  | emptyValue (flag : String)
  | repeated (flag : String)
  | unexpectedWord (word : String)
  | conflict (first second : String)
deriving Repr, DecidableEq

def UsageError.message : UsageError → String
  | unknownFlag word => s!"unexpected argument `{word}` found"
  | unknownCommand word => s!"unrecognized subcommand `{word}`"
  | missingCommand => "a subcommand is required"
  | missingValue flag => s!"a value is required for `{flag}`"
  | unexpectedValue flag => s!"`{flag}` takes no value"
  | emptyValue flag => s!"`{flag}` takes a value that is not empty"
  | repeated flag => s!"`{flag}` cannot be used multiple times"
  | unexpectedWord word => s!"unexpected argument `{word}` found"
  | conflict first second => s!"`{first}` cannot be used with `{second}`"

/-! ## Words -/

inductive Word where
  /-- Two dashes: the words after it are no flags. -/
  | escape
  /-- `--name` or `--name=value`. -/
  | long (name : String) (value : Option String)
  /-- Letters behind one dash. -/
  | short (letters : List Char)
  | plain (text : String)
deriving Repr, DecidableEq

def Word.ofString (word : String) : Word :=
  match word.toList with
  | ['-', '-'] => escape
  | '-' :: '-' :: cs =>
    let name := String.ofList (cs.takeWhile (· != '='))
    match cs.dropWhile (· != '=') with
    | _ :: value => long name (some (String.ofList value))
    | [] => long name none
  | '-' :: c :: cs => short (c :: cs)
  | _ => plain word

/-! ## Scanning -/

/-- What has been read of a place for options: before the command, or after it. -/
structure Scan where
  globals : Globals := {}
  all : Bool := false
  names : List String := []
deriving Repr, DecidableEq

/-- What may stand in such a place, beside the options that every command takes. The version can be
asked for before the command only. -/
structure Place where
  beforeCommand : Bool := false
  takesAll : Bool := false
  maxNames : Nat := 0
deriving Repr, DecidableEq

/-- Why a scan ends early. -/
inductive Stop where
  | error (e : UsageError)
  | version
  | help
deriving Repr, DecidableEq

def Scan.raiseVerbosity (s : Scan) : Scan :=
  { s with globals := { s.globals with verbose := s.globals.verbose + 1 } }

/-- Sets an option that takes a value. -/
def Scan.setOption (s : Scan) (name value : String) : Except Stop Scan :=
  let g := s.globals
  match name with
  | "config" =>
    if g.config.isSome then .error (.error (.repeated "--config"))
    else if value.isEmpty then .error (.error (.emptyValue "--config"))
    else .ok { s with globals := { g with config := value } }
  | "prefix" =>
    if g.namePrefix.isSome then .error (.error (.repeated "--prefix"))
    else .ok { s with globals := { g with namePrefix := value } }
  | "abort-routine" =>
    if g.abortRoutine.isSome then .error (.error (.repeated "--abort-routine"))
    else .ok { s with globals := { g with abortRoutine := value } }
  | _ => .error (.error (.unknownFlag ("--" ++ name)))

def takesValue (name : String) : Bool := name == "config" || name == "prefix" || name == "abort-routine"

/-- Reads a flag that takes no value. -/
def Scan.setFlag (place : Place) (s : Scan) (name : String) : Except Stop Scan :=
  match name with
  | "verbose" => .ok s.raiseVerbosity
  | "help" => .error .help
  | "version" =>
    if place.beforeCommand then .error .version else .error (.error (.unknownFlag "--version"))
  | "all" =>
    if !place.takesAll then .error (.error (.unknownFlag "--all"))
    else if s.all then .error (.error (.repeated "--all"))
    else .ok { s with all := true }
  | _ => .error (.error (.unknownFlag ("--" ++ name)))

/-- Reads a letter of a group of short flags. -/
def Scan.setLetter (place : Place) (s : Scan) (letter : Char) : Except Stop Scan :=
  match letter with
  | 'v' => .ok s.raiseVerbosity
  | 'h' => .error .help
  | 'V' => if place.beforeCommand then .error .version else .error (.error (.unknownFlag "-V"))
  | c => .error (.error (.unknownFlag ("-" ++ c.toString)))

def Scan.addName (place : Place) (s : Scan) (word : String) : Except Stop Scan :=
  if s.names.length < place.maxNames then .ok { s with names := s.names ++ [word] }
  else .error (.error (.unexpectedWord word))

/-- Scans up to the command, if it is still to come, or else to the end. Returns what is left
over. -/
def scan (place : Place) : Scan → List String → Except Stop (Scan × List String)
  | s, [] => .ok (s, [])
  | s, word :: words =>
    match Word.ofString word with
    | .escape => do
      let s ← words.foldlM (Scan.addName place) s
      return (s, [])
    | .short letters => do
      let s ← letters.foldlM (Scan.setLetter place) s
      scan place s words
    | .plain text =>
      if place.beforeCommand then .ok (s, text :: words)
      else do
        let s ← s.addName place text
        scan place s words
    | .long name (some value) =>
      if takesValue name then do
        let s ← s.setOption name value
        scan place s words
      else .error (.error (.unexpectedValue ("--" ++ name)))
    | .long name none =>
      if takesValue name then
        match words with
        | value :: words =>
          -- a flag is no value, but a single dash is
          match Word.ofString value with
          | .plain text => do
            let s ← s.setOption name text
            scan place s words
          | _ => .error (.error (.missingValue ("--" ++ name)))
        | [] => .error (.error (.missingValue ("--" ++ name)))
      else do
        let s ← s.setFlag place name
        scan place s words

/-! ## Requests from words -/

/-- The options of both places; what stands after the command counts. -/
def Globals.merge (before after : Globals) : Globals where
  verbose := if after.verbose = 0 then before.verbose else after.verbose
  config := after.config <|> before.config
  namePrefix := after.namePrefix <|> before.namePrefix
  abortRoutine := after.abortRoutine <|> before.abortRoutine

/-- The command of a name, with what may stand after it. -/
def placeOf? : String → Option Place
  | "list" | "header" | "types" => some {}
  | "demo" => some { takesAll := true, maxNames := 1 }
  | _ => none

def commandOf (name : String) (s : Scan) : Except Stop Command :=
  match name with
  | "list" => .ok .list
  | "header" => .ok .header
  | "types" => .ok .types
  | _ =>
    if s.all && !s.names.isEmpty then .error (.error (.conflict "--all" "[NAME]"))
    else .ok (.demo s.names.head? s.all)

def readRequest (words : List String) : Except Stop Request := do
  let (before, rest) ← scan { beforeCommand := true } {} words
  match rest with
  | [] => .error (.error .missingCommand)
  | "help" :: _ => return .help
  | name :: rest =>
    match placeOf? name with
    | none => .error (.error (.unknownCommand name))
    | some place => do
      let (after, _) ← scan place {} rest
      return .command (before.globals.merge after.globals) (← commandOf name after)

def parse (words : List String) : Except UsageError Request :=
  match readRequest words with
  | .ok request => .ok request
  | .error .version => .ok .version
  | .error .help => .ok .help
  | .error (.error e) => .error e

end GuardedC.CommandLine
