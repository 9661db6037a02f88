import GuardedC.Toml.Scalar

/-!
# TOML documents

A reader for TOML 1.0. A document is a list of statements: headers of tables, and keys with their
values. What the statements amount to is left to those who know which tables they expect; within an
inline table, where no one else can tell, no key may be set twice.
-/

namespace GuardedC.Toml

inductive Value where
  | string (text : String)
  /-- A truth value, number, date or time, as it is written. -/
  | scalar (text : String)
  | array (items : List Value)
  /-- An inline table, its dotted keys as they are written. -/
  | table (fields : List (List String × Value))
deriving Repr

inductive Statement where
  /-- `[path]`. -/
  | header (path : List String)
  /-- `[[path]]`. -/
  | arrayHeader (path : List String)
  | assign (path : List String) (value : Value)
deriving Repr

/-! ## Characters -/

abbrev Parser := StateT (List Char) Option

def isBlank (c : Char) : Bool := c == ' ' || c == '\t'

/-- The characters that may stand in comments and strings as they are. -/
def isPlain (c : Char) : Bool := c == '\t' || (' ' ≤ c && c ≤ '~') || '\x7f' < c

/-- The characters of a key without quotes. -/
def isBare (c : Char) : Bool := c.isAlphanum || c == '-' || c == '_'

/-- The characters of values without delimiters. -/
def isScalarChar (c : Char) : Bool := isBare c || c == '+' || c == '.' || c == ':'

/-- Reads a text if it is the next one. -/
def eat (text : String) : Parser Bool :=
  modifyGet fun cs =>
    if text.toList.isPrefixOf cs then (true, cs.drop text.length) else (false, cs)

def expect (text : String) : Parser Unit := do
  unless ← eat text do failure

def takeWhile (p : Char → Bool) : Parser (List Char) :=
  modifyGet fun cs => (cs.takeWhile p, cs.dropWhile p)

def next (p : Char → Bool) : Parser Char := do
  match ← get with
  | [] => failure
  | c :: cs =>
    guard (p c)
    set cs
    return c

def skipBlank : Parser Unit := discard (takeWhile isBlank)

def newline : Parser Bool := do
  if ← eat "\n" then return true
  eat "\r\n"

def skipComment : Parser Unit := do
  if ← eat "#" then discard (takeWhile isPlain)

/-- The end of a line, after blanks and perhaps a comment. -/
def lineEnd : Parser Unit := do
  skipBlank
  skipComment
  if (← get).isEmpty then return
  unless ← newline do failure

/-! ## Strings -/

/-- The character of a number given in so many hexadecimal digits. -/
def hexChar (size : Nat) : Parser Char := do
  let digits ← modifyGet fun cs => (cs.take size, cs.drop size)
  guard (digits.length == size && digits.all Scalar.isHex)
  let n := Scalar.number 16 digits
  guard n.isValidChar
  return Char.ofNat n

/-- The character meant by what follows a backslash. -/
def escape : Parser Char := do
  match ← next fun _ => true with
  | 'b' => return '\x08'
  | 't' => return '\t'
  | 'n' => return '\n'
  | 'f' => return '\x0c'
  | 'r' => return '\r'
  | '"' => return '"'
  | '\\' => return '\\'
  | 'u' => hexChar 4
  | 'U' => hexChar 8
  | _ => failure

/-- The text without the blanks and ends of lines it begins with. -/
def dropBlankLines : List Char → List Char
  | '\n' :: cs => dropBlankLines cs
  | '\r' :: '\n' :: cs => dropBlankLines cs
  | c :: cs => if isBlank c then dropBlankLines cs else c :: cs
  | [] => []

/-- Reads a backslash that begins an escape, in strings that have escapes. -/
def beginsEscape (escapes : Bool) : Parser Bool := if escapes then eat "\\" else return false

/-- Reads a backslash at the end of a line, with all the white space after it. -/
def joinLines (escapes : Bool) : Parser Bool := do
  let start ← get
  if ← beginsEscape escapes then
    skipBlank
    if ← newline then
      modify dropBlankLines
      return true
  set start
  return false

/-- The rest of a string in one line, up to the quote that ends it. -/
def lineString (quote : String) (escapes : Bool) : Nat → Parser (List Char)
  | 0 => failure
  | fuel + 1 => do
    if ← eat quote then return []
    let c ← if ← beginsEscape escapes then escape else next isPlain
    return c :: (← lineString quote escapes fuel)

/-- The rest of a string of several lines, up to the three quotes that end it. One or two quotes
more may stand before these; they belong to the string. -/
def blockString (quote : Char) (escapes : Bool) : Nat → Parser (List Char)
  | 0 => failure
  | fuel + 1 => do
    -- five quotes in a row are two that belong to the string and the three that end it
    let quotes := (← get).takeWhile (· == quote)
    if 3 ≤ quotes.length then
      let size := min quotes.length 5
      modify (·.drop size)
      return quotes.take (size - 3)
    if ← joinLines escapes then return ← blockString quote escapes fuel
    let c ←
      if ← newline then pure '\n'
      else if ← beginsEscape escapes then escape
      else next isPlain
    return c :: (← blockString quote escapes fuel)

/-- A string in one line, if one begins here. -/
def quoted? : Parser (Option String) := do
  let size := (← get).length
  if ← eat "\"" then return some (.ofList (← lineString "\"" true size))
  if ← eat "'" then return some (.ofList (← lineString "'" false size))
  return none

/-- A string of any kind, if one begins here. A line that ends right after three quotes does not
count. -/
def string? : Parser (Option String) := do
  let size := (← get).length
  if ← eat "\"\"\"" then
    discard newline
    return some (.ofList (← blockString '"' true size))
  if ← eat "'''" then
    discard newline
    return some (.ofList (← blockString '\'' false size))
  quoted?

/-! ## Keys -/

def simpleKey : Parser String := do
  if let some key ← quoted? then return key
  let key ← takeWhile isBare
  guard (!key.isEmpty)
  return .ofList key

/-- The containers that may be nested, and the parts of a key, are fewer than this. -/
def depthLimit : Nat := 80

/-- The parts of a dotted key, with blanks around each. -/
def keyParts : Nat → Parser (List String)
  | 0 => failure
  | fuel + 1 => do
    skipBlank
    let key ← simpleKey
    skipBlank
    if ← eat "." then return key :: (← keyParts fuel)
    return [key]

def key : Parser (List String) := keyParts (depthLimit - 1)

/-! ## Values -/

/-- A value without delimiters. A date may be followed by a blank and a time. -/
def scalar : Parser Value := do
  let word ← takeWhile isScalarChar
  let rest ← get
  let tail := (rest.drop 1).takeWhile isScalarChar
  if rest.head? == some ' ' && Scalar.afterDate? word == some [] && (Scalar.afterTime? tail).isSome then
    let both := word ++ ' ' :: tail
    guard (Scalar.isScalar both)
    modify (·.drop (tail.length + 1))
    return .scalar (.ofList both)
  guard (Scalar.isScalar word)
  return .scalar (.ofList word)

/-- Skips blanks, comments and ends of lines. -/
def skipLines : Nat → Parser Unit
  | 0 => return
  | fuel + 1 => do
    skipBlank
    skipComment
    if ← newline then skipLines fuel

/-- The items of an array up to the bracket that ends it. -/
def items (item : Parser Value) : Nat → Parser (List Value)
  | 0 => failure
  | fuel + 1 => do
    skipLines (← get).length
    if ← eat "]" then return []
    let v ← item
    skipLines (← get).length
    if ← eat "," then return v :: (← items item fuel)
    expect "]"
    return [v]

/-- The fields of an inline table up to the brace that ends it. -/
def fields (item : Parser Value) : Nat → Parser (List (List String × Value))
  | 0 => failure
  | fuel + 1 => do
    let path ← key
    expect "="
    skipBlank
    let v ← item
    skipBlank
    if ← eat "," then return (path, v) :: (← fields item fuel)
    expect "\x7d"
    return [(path, v)]

/-- No key is set twice, and none is set within the value of another. -/
def areDistinct : List (List String) → Bool
  | [] => true
  | p :: ps => ps.all (fun q => !(p.isPrefixOf q || q.isPrefixOf p)) && areDistinct ps

/-- A value whose containers are nested at most so deep. -/
def value : Nat → Parser Value
  | 0 => do
    if let some text ← string? then return .string text
    scalar
  | depth + 1 => do
    let size := (← get).length
    if ← eat "[" then return .array (← items (value depth) size)
    if ← eat "\x7b" then
      skipBlank
      if ← eat "\x7d" then return .table []
      let fs ← fields (value depth) size
      guard (areDistinct (fs.map (·.1)))
      return .table fs
    if let some text ← string? then return .string text
    scalar

/-! ## Documents -/

def statement : Parser Statement := do
  if ← eat "[[" then
    let path ← key
    expect "]]"
    return .arrayHeader path
  if ← eat "[" then
    let path ← key
    expect "]"
    return .header path
  let path ← key
  expect "="
  skipBlank
  return .assign path (← value (depthLimit - 1))

def statements : Nat → Parser (List Statement)
  | 0 => failure
  | fuel + 1 => do
    skipLines (← get).length
    if (← get).isEmpty then return []
    let s ← statement
    lineEnd
    return s :: (← statements fuel)

/-- The statements of a document; a mark of byte order before it is ignored. -/
def parse? (text : String) : Option (List Statement) :=
  let cs := match text.toList with
    | '\ufeff' :: cs => cs
    | cs => cs
  ((statements (cs.length + 1)).run cs).map (·.1)

end GuardedC.Toml
