import GuardedC.Proofs.CText.Lexer
import GuardedC.Proofs.Returns
import Mathlib.Data.List.Basic

/-!
# Reading functions back

The text of a function is made of lines, and in each line the parts of the function stand between
fixed marks. An `Outline` is what the text shows of a function; `Outline.read` takes a text apart
again.

Main statement: `Outline.read_text`, the outline of a legible function is read from its text. A
function is `Legible` if its parts are made of the characters that they should be made of, and if an
expression that is evaluated for nothing cannot be taken for one that is returned.
-/

namespace GuardedC

/-! ## What a text shows of a function -/

/-- A function as its text shows it: of its result type the name in C. -/
structure Outline where
  returns : String
  name : String
  arguments : List String
  guard : String
  abortRoutine : String
  body : Body
deriving Repr, DecidableEq

def CFunction.outline (f : CFunction) : Outline where
  returns := f.returns.cName
  name := f.name
  arguments := f.arguments
  guard := f.guard
  abortRoutine := f.abortRoutine
  body := f.body

namespace Outline

/-- What a line has between a mark at its front and one at its back. -/
def inner? (front back line : List Char) : Option (List Char) := do
  let rest ← front.isPrefixOf? line
  back.isSuffixOf? rest

/-- A type and a declared name. The star of a pointer belongs to the type. -/
def readDeclaration (declaration : List Char) : Option (String × String) :=
  let word := declaration.takeWhile isWordChar
  match declaration.dropWhile isWordChar with
  | ' ' :: '*' :: name => some (String.ofList (word ++ [' ', '*']), String.ofList name)
  | ' ' :: name => some (String.ofList word, String.ofList name)
  | _ => none

/-- The declarations of the parameters. -/
def readArguments (list : List Char) : List String :=
  if list = "void".toList then []
  else (list.splitOn ',').map fun declaration => String.ofList (declaration.dropWhile (· == ' '))

/-- The final statement, if there is a line for one. -/
def readBody : Option (List Char) → Option Body
  | none => some .empty
  | some line =>
    match inner? "    return ".toList [';'] line with
    | some expr => some (.result (String.ofList expr))
    | none => (inner? "    ".toList [';'] line).map fun expr => .evaluate (String.ofList expr)

def readLines (signature condition call : List Char) (statement : Option (List Char)) : Option Outline := do
  let (returns, name) ← readDeclaration (signature.takeWhile (· != '('))
  let arguments ← inner? ['('] ") \x7b".toList (signature.dropWhile (· != '('))
  let guard ← inner? "    if (!(".toList ")) \x7b".toList condition
  let abortRoutine ← inner? "        ".toList "();".toList call
  let body ← readBody statement
  return {
    returns, name
    arguments := readArguments arguments
    guard := String.ofList guard
    abortRoutine := String.ofList abortRoutine
    body }

/-- Reads the text of a function. -/
def read (text : String) : Option Outline :=
  match text.toList.splitOn '\n' with
  | [signature, condition, call, _, _, _] => readLines signature condition call none
  | [signature, condition, call, _, statement, _, _] => readLines signature condition call (some statement)
  | _ => none

theorem inner?_append (front back part : List Char) :
    inner? front back (front ++ (part ++ back)) = some part := by
  have hfront : front.isPrefixOf? (front ++ (part ++ back)) = some (part ++ back) :=
    List.isPrefixOf?_eq_some_iff_append_eq.2 rfl
  have hback : back.isSuffixOf? (part ++ back) = some part :=
    List.isSuffixOf?_eq_some_iff_append_eq.2 rfl
  simp [inner?, hfront, hback]

end Outline

/-! ## Characters -/

/-- A character that may stand in an expression. -/
def isTextChar (c : Char) : Bool := isWordChar c || isMarkChar c || " ()[]".toList.contains c

theorem isTextChar_of_isWordChar {c : Char} (h : isWordChar c = true) : isTextChar c = true := by
  simp [isTextChar, h]

theorem isWordChar_of_mem {name : String} (h : isIdentifier name = true) :
    ∀ c ∈ name.toList, isWordChar c = true := by
  unfold isIdentifier at h
  cases hname : name.toList with
  | nil => simp
  | cons c cs =>
    simp only [hname, Bool.and_eq_true, List.all_eq_true] at h
    intro d hd
    rcases List.mem_cons.1 hd with rfl | hd
    · have hfirst := h.1
      simp only [Bool.or_eq_true, beq_iff_eq] at hfirst
      rcases hfirst with rfl | halpha
      · decide
      · simp [isWordChar, Char.isAlphanum, halpha]
    · exact h.2 d hd

theorem isTextChar_symbol (op : Operator) : op.symbol.toList.all isTextChar = true := by
  cases op with
  | arith op => cases op <;> decide
  | compare op => cases op <;> decide
  | connect op => cases op <;> decide

theorem CExpr.isTextChar_of_mem {e : CExpr} (h : e.Spelled) : ∀ c ∈ e.text.toList, isTextChar c = true := by
  have hconstant : ∀ (value : Nat) (ull : Bool), ∀ c ∈ (constant value ull).text.toList,
      isTextChar c = true := by
    intro value ull c hc
    rw [toList_text_constant] at hc
    rcases List.mem_append.1 hc with hc | hc
    · exact isTextChar_of_isWordChar (isWordChar_of_isDigit (isDigit_toDigits hc))
    · have hsuffix : (suffixChars ull).all isTextChar = true := by cases ull <;> decide
      exact List.all_eq_true.1 hsuffix c hc
  have hmark : ∀ mark : List Char, mark.all isTextChar = true → ∀ c ∈ mark, isTextChar c = true :=
    fun mark hall => List.all_eq_true.1 hall
  induction e with
  | name id =>
    intro c hc
    exact isTextChar_of_isWordChar (isWordChar_of_mem h c hc)
  | constant value ull => exact hconstant value ull
  | negate e _ =>
    obtain ⟨value, ull, rfl⟩ := h
    intro c hc
    rw [text, String.toList_append, List.mem_append] at hc
    rcases hc with hc | hc
    · exact hmark "-".toList (by decide) c hc
    · exact hconstant value ull c hc
  | binary op l r ihl ihr =>
    intro c hc
    simp only [text, String.toList_append, List.mem_append] at hc
    rcases hc with (((hc | hc) | hc) | hc) | hc
    · exact ihl h.1 c hc
    · exact hmark " ".toList (by decide) c hc
    · exact hmark _ (isTextChar_symbol op) c hc
    · exact hmark " ".toList (by decide) c hc
    · exact ihr h.2 c hc
  | index a k iha ihk =>
    intro c hc
    simp only [text, String.toList_append, List.mem_append] at hc
    rcases hc with ((hc | hc) | hc) | hc
    · exact iha h.1 c hc
    · exact hmark "[".toList (by decide) c hc
    · exact ihk h.2 c hc
    · exact hmark "]".toList (by decide) c hc
  | paren e ih =>
    intro c hc
    simp only [text, String.toList_append, List.mem_append] at hc
    rcases hc with (hc | hc) | hc
    · exact hmark "(".toList (by decide) c hc
    · exact ih h c hc
    · exact hmark ")".toList (by decide) c hc

theorem mem_of_mem_intercalate {sep : List α} {ls : List (List α)} {a : α} (h : a ∈ sep.intercalate ls) :
    a ∈ sep ∨ ∃ l ∈ ls, a ∈ l := by
  induction ls with
  | nil => simp at h
  | cons l ls ih =>
    cases ls with
    | nil => exact .inr ⟨l, .head _, by simpa using h⟩
    | cons l' ls =>
      rw [List.intercalate_cons_cons, List.mem_append, List.mem_append] at h
      rcases h with (h | h) | h
      · exact .inr ⟨l, .head _, h⟩
      · exact .inl h
      · rcases ih h with hsep | ⟨m, hm, hmem⟩
        · exact .inl hsep
        · exact .inr ⟨m, .tail _ hm, hmem⟩

/-! ## Declarations -/

theorem IntegerType.isWordChar_cName (type : IntegerType) : type.cName.toList.all isWordChar = true := by
  rcases type with ⟨width, signed⟩
  cases width <;> cases signed <;> decide +kernel

/-- A declaration is a word, a blank, perhaps a star, and the name. -/
theorem Ty.toList_declare (ty : Ty) (name : String) :
    ∃ word : List Char, word ≠ [] ∧ (∀ c ∈ word, isWordChar c = true) ∧
      ((ty.cName.toList = word ∧ (ty.declare name).toList = word ++ ' ' :: name.toList) ∨
        (ty.cName.toList = word ++ [' ', '*'] ∧
          (ty.declare name).toList = word ++ ' ' :: '*' :: name.toList)) := by
  cases ty with
  | integer type =>
    refine ⟨type.cName.toList, ?_, List.all_eq_true.1 type.isWordChar_cName, .inl ⟨rfl, ?_⟩⟩
    · rcases type with ⟨width, signed⟩
      cases width <;> cases signed <;> decide +kernel
    · simp [declare, cName]
  | byteArray length =>
    refine ⟨"uint8_t".toList, by decide, List.all_eq_true.1 (by decide), .inr ⟨?_, ?_⟩⟩
    · simp [cName]
    · simp [declare]
  | void =>
    refine ⟨"void".toList, by decide, List.all_eq_true.1 (by decide), .inl ⟨rfl, ?_⟩⟩
    simp [declare, cName]

/-- A declaration as it may stand in a list of them. -/
structure Declared (d : List Char) : Prop where
  chars : ∀ c ∈ d, isWordChar c = true ∨ c = ' ' ∨ c = '*'
  blank : ' ' ∈ d
  head : d.head? ≠ some ' '

theorem declared_of_isIdentifier (ty : Ty) {name : String} (h : isIdentifier name = true) :
    Declared (ty.declare name).toList := by
  obtain ⟨word, hne, hword, hdeclare⟩ := ty.toList_declare name
  have hname := isWordChar_of_mem h
  have hhead : ∀ rest, (word ++ rest).head? ≠ some ' ' := by
    intro rest hblank
    rw [List.head?_append_of_ne_nil _ hne] at hblank
    have hc := hword ' ' (List.mem_of_mem_head? hblank)
    exact absurd hc (by decide)
  rcases hdeclare with ⟨_, hlist⟩ | ⟨_, hlist⟩
  · rw [hlist]
    refine ⟨?_, by simp, hhead _⟩
    simp only [List.mem_append, List.mem_cons]
    rintro c (hc | rfl | hc)
    · exact .inl (hword c hc)
    · exact .inr (.inl rfl)
    · exact .inl (hname c hc)
  · rw [hlist]
    refine ⟨?_, by simp, hhead _⟩
    simp only [List.mem_append, List.mem_cons]
    rintro c (hc | rfl | rfl | hc)
    · exact .inl (hword c hc)
    · exact .inr (.inl rfl)
    · exact .inr (.inr rfl)
    · exact .inl (hname c hc)

theorem Declared.notMem {d : List Char} (h : Declared d) {c : Char} (hc : isWordChar c = false)
    (hblank : c ≠ ' ') (hstar : c ≠ '*') : c ∉ d := by
  intro hmem
  rcases h.chars c hmem with hword | rfl | rfl
  · rw [hc] at hword
    cases hword
  · exact hblank rfl
  · exact hstar rfl

namespace Outline

theorem readDeclaration_declare (ty : Ty) {name : String} (h : isIdentifier name = true) :
    readDeclaration (ty.declare name).toList = some (ty.cName, name) := by
  obtain ⟨word, _, hword, hdeclare⟩ := ty.toList_declare name
  have htake : ∀ rest, (word ++ ' ' :: rest).takeWhile isWordChar = word := by
    intro rest
    rw [List.takeWhile_append_of_pos hword]
    simp [show isWordChar ' ' = false by decide]
  have hdrop : ∀ rest, (word ++ ' ' :: rest).dropWhile isWordChar = ' ' :: rest := by
    intro rest
    rw [List.dropWhile_append_of_pos hword]
    simp [show isWordChar ' ' = false by decide]
  unfold readDeclaration
  rcases hdeclare with ⟨hname, hlist⟩ | ⟨hname, hlist⟩
  · rw [hlist, htake, hdrop, ← hname]
    -- a name does not begin with a star
    have hstar : ∀ rest, ' ' :: name.toList ≠ ' ' :: '*' :: rest := by
      intro rest heq
      have hc := isWordChar_of_mem h '*' (by simp [(List.cons.inj heq).2])
      exact absurd hc (by decide)
    split
    · rename_i rest heq
      exact absurd heq (hstar rest)
    · rename_i rest _ heq
      simp [← (List.cons.inj heq).2]
    · rename_i hblank
      exact absurd rfl (hblank name.toList)
  · rw [hlist, htake, hdrop]
    simp [← hname]

/-- A blank after each comma may as well be counted to what follows it. -/
theorem intercalate_comma_blank (d : List Char) (ds : List (List Char)) :
    [',', ' '].intercalate (d :: ds) = [','].intercalate (d :: ds.map (' ' :: ·)) := by
  have hcons : ∀ (c : Char) (l : List Char) (ls : List (List Char)),
      [','].intercalate ((c :: l) :: ls) = c :: [','].intercalate (l :: ls) := by
    intro c l ls
    cases ls with
    | nil => simp
    | cons l' ls => simp [List.intercalate_cons_cons]
  induction ds generalizing d with
  | nil => simp
  | cons e ds ih =>
    rw [List.map_cons, List.intercalate_cons_cons, List.intercalate_cons_cons, ih, hcons]
    simp

theorem readArguments_join {ds : List String} (hne : ds ≠ []) (h : ∀ d ∈ ds, Declared d.toList) :
    readArguments (", ".intercalate ds).toList = ds := by
  cases ds with
  | nil => exact absurd rfl hne
  | cons d ds =>
    have hjoin : (", ".intercalate (d :: ds)).toList =
        [','].intercalate (d.toList :: ds.map fun e => ' ' :: e.toList) := by
      rw [String.toList_intercalate, List.map_cons]
      refine (intercalate_comma_blank _ _).trans ?_
      rw [List.map_map]
      rfl
    have hcomma : ∀ e ∈ d :: ds, ',' ∉ e.toList :=
      fun e he => (h e he).notMem (by decide) (by decide) (by decide)
    have hsplit : ([','].intercalate (d.toList :: ds.map fun e => ' ' :: e.toList)).splitOn ',' =
        d.toList :: ds.map fun e => ' ' :: e.toList := by
      refine List.splitOn_intercalate ',' ?_ (by simp)
      simp only [List.mem_cons, List.mem_map]
      rintro l (rfl | ⟨e, he, rfl⟩)
      · exact hcomma d (.head _)
      · simpa using hcomma e (.tail _ he)
    have hdrop : ∀ e ∈ d :: ds, e.toList.dropWhile (· == ' ') = e.toList := by
      intro e he
      have hhead := (h e he).head
      cases hlist : e.toList with
      | nil => rfl
      | cons c cs =>
        rw [hlist, List.head?_cons, ne_eq, Option.some.injEq] at hhead
        simp [hhead]
    -- the list of no parameters has no blank
    have hvoid : (", ".intercalate (d :: ds)).toList ≠ "void".toList := by
      intro heq
      have hblank : ' ' ∈ (", ".intercalate (d :: ds)).toList := by
        rw [hjoin]
        cases ds with
        | nil => simpa using (h d (.head _)).blank
        | cons e ds => simp [List.intercalate_cons_cons, (h d (.head _)).blank]
      rw [heq] at hblank
      exact absurd hblank (by decide)
    unfold readArguments
    rw [if_neg hvoid, hjoin, hsplit]
    simp only [List.map_cons, List.map_map, hdrop d (.head _), String.ofList_toList,
      List.cons.injEq, true_and]
    refine (List.map_congr_left ?_).trans (List.map_id ds)
    intro e he
    simp [hdrop e (.tail _ he)]

end Outline

/-! ## Functions -/

namespace CFunction

/-- The parts of a function are made of the characters that they should be made of, and what is
evaluated for nothing does not begin like a return. -/
structure Legible (f : CFunction) : Prop where
  name : isIdentifier f.name = true
  abortRoutine : isIdentifier f.abortRoutine = true
  arguments : ∀ d ∈ f.arguments, Declared d.toList
  guard : ∀ c ∈ f.guard.toList, isTextChar c = true
  result : ∀ e, f.body = .result e → ∀ c ∈ e.toList, isTextChar c = true
  evaluate : ∀ e, f.body = .evaluate e → (∀ c ∈ e.toList, isTextChar c = true) ∧ e.toList.head? ≠ some 'r'

/-- The list of parameters. -/
def argumentText (f : CFunction) : String :=
  if f.arguments.isEmpty then "void" else ", ".intercalate f.arguments

def signatureLine (f : CFunction) : List Char :=
  (f.returns.declare f.name).toList ++ (['('] ++ (f.argumentText.toList ++ ") \x7b".toList))

def conditionLine (f : CFunction) : List Char :=
  "    if (!(".toList ++ (f.guard.toList ++ ")) \x7b".toList)

def callLine (f : CFunction) : List Char :=
  "        ".toList ++ (f.abortRoutine.toList ++ "();".toList)

def statementLine? (f : CFunction) : Option (List Char) :=
  match f.body with
  | .result e => some ("    return ".toList ++ (e.toList ++ [';']))
  | .evaluate e => some ("    ".toList ++ (e.toList ++ [';']))
  | .empty => none

/-- The lines of the text, and the nothing after the last one. -/
def lines (f : CFunction) : List (List Char) :=
  [f.signatureLine, f.conditionLine, f.callLine, "    \x7d".toList] ++ f.statementLine?.toList ++
    ["\x7d".toList, []]

theorem text_eq_ok {f : CFunction} {text : String} (h : f.text = .ok text) :
    isIdentifier f.name = true ∧ isIdentifier f.abortRoutine = true ∧
      text = f.returns.declare f.name ++ "(" ++ f.argumentText ++ ")" ++ " \x7b\n" ++
        f.guardText ++ f.bodyText
        ++ "\x7d\n" := by
  have hchecked : ∀ {role : NameRole} {name : String} {u : Unit}, checkIdentifier role name = .ok u →
      isIdentifier name = true := by
    intro role name u hcheck
    unfold checkIdentifier at hcheck
    split at hcheck
    · assumption
    · cases hcheck
  simp only [CFunction.text, prototype, except_bind_ok, except_pure_ok] at h
  obtain ⟨_, ⟨_, hname, _, habort, rfl⟩, rfl⟩ := h
  exact ⟨hchecked hname, hchecked habort, rfl⟩

theorem toList_text {f : CFunction} {text : String} (h : f.text = .ok text) :
    text.toList = ['\n'].intercalate f.lines := by
  obtain ⟨_, _, rfl⟩ := text_eq_ok h
  unfold lines signatureLine conditionLine callLine statementLine? guardText bodyText
  cases f.body with
  | result e => simp [List.intercalate_cons_cons]
  | evaluate e => simp [List.intercalate_cons_cons]
  | empty => simp [List.intercalate_cons_cons]

theorem Legible.newline_notMem {f : CFunction} (h : f.Legible) : ∀ line ∈ f.lines, '\n' ∉ line := by
  have htext : ∀ cs : List Char, (∀ c ∈ cs, isTextChar c = true) → '\n' ∉ cs := by
    intro cs hcs hmem
    exact absurd (hcs '\n' hmem) (by decide)
  have hword : ∀ {name : String}, isIdentifier name = true → '\n' ∉ name.toList := by
    intro name hname
    exact htext _ fun c hc => isTextChar_of_isWordChar (isWordChar_of_mem hname c hc)
  have hdeclared : ∀ {d : List Char}, Declared d → '\n' ∉ d :=
    fun hd => hd.notMem (by decide) (by decide) (by decide)
  have harguments : '\n' ∉ f.argumentText.toList := by
    unfold argumentText
    split
    · decide
    · rw [String.toList_intercalate]
      intro hmem
      rcases mem_of_mem_intercalate hmem with hc | ⟨l, hl, hc⟩
      · exact absurd hc (by decide)
      · obtain ⟨d, hd, rfl⟩ := List.mem_map.1 hl
        exact hdeclared (h.arguments d hd) hc
  have hstatement : ∀ line, f.statementLine? = some line → '\n' ∉ line := by
    intro line hline
    unfold statementLine? at hline
    cases hbody : f.body with
    | result e =>
      rw [hbody] at hline
      cases hline
      simpa using htext _ (h.result e hbody)
    | evaluate e =>
      rw [hbody] at hline
      cases hline
      simpa using htext _ (h.evaluate e hbody).1
    | empty =>
      rw [hbody] at hline
      cases hline
  intro line hline
  simp only [lines, List.mem_append, List.mem_cons, List.not_mem_nil, or_false, Option.mem_toList] at hline
  rcases hline with ((rfl | rfl | rfl | rfl) | hline) | (rfl | rfl)
  · have hdeclare := hdeclared (declared_of_isIdentifier f.returns h.name)
    unfold signatureLine
    simp [hdeclare, harguments]
  · unfold conditionLine
    simp [htext _ h.guard]
  · unfold callLine
    simp [hword h.abortRoutine]
  · simp
  · exact hstatement line hline
  · simp
  · simp

end CFunction

namespace Outline

theorem readBody_statement {f : CFunction} (h : f.Legible) : readBody f.statementLine? = some f.body := by
  unfold readBody CFunction.statementLine?
  cases hbody : f.body with
  | result e => simp only [inner?_append, String.ofList_toList]
  | evaluate e =>
    -- the line would begin like a return only if the expression did
    have hnone : inner? "    return ".toList [';'] ("    ".toList ++ (e.toList ++ [';'])) = none := by
      have hhead := (h.evaluate e hbody).2
      have hfront : "    return ".toList.isPrefixOf? ("    ".toList ++ (e.toList ++ [';'])) = none := by
        cases hlist : e.toList with
        | nil => rfl
        | cons c cs =>
          have hc : ¬ 'r' = c := by
            rintro rfl
            exact hhead (by rw [hlist, List.head?_cons])
          simp [List.isPrefixOf?, hc]
      rw [inner?, hfront]
      rfl
    simp only [hnone, inner?_append, Option.map_some, String.ofList_toList]
  | empty => rfl

theorem readArguments_argumentText {f : CFunction} (h : f.Legible) :
    readArguments f.argumentText.toList = f.arguments := by
  unfold CFunction.argumentText
  cases harguments : f.arguments with
  | nil => rfl
  | cons d ds =>
    have hdeclared : ∀ e ∈ d :: ds, Declared e.toList := by
      rw [← harguments]
      exact h.arguments
    have hsome : ¬ ((d :: ds).isEmpty = true) := by simp
    rw [if_neg hsome]
    exact readArguments_join (by simp) hdeclared

theorem readLines_lines {f : CFunction} (h : f.Legible) :
    readLines f.signatureLine f.conditionLine f.callLine f.statementLine? = some f.outline := by
  have hdeclare : ∀ c ∈ (f.returns.declare f.name).toList, (c != '(') = true := by
    intro c hc
    have hparen : '(' ∉ (f.returns.declare f.name).toList :=
      (declared_of_isIdentifier f.returns h.name).notMem (by decide) (by decide) (by decide)
    simp only [bne_iff_ne]
    rintro rfl
    exact hparen hc
  have htake : f.signatureLine.takeWhile (· != '(') = (f.returns.declare f.name).toList := by
    unfold CFunction.signatureLine
    rw [List.takeWhile_append_of_pos hdeclare]
    simp
  have hdrop : f.signatureLine.dropWhile (· != '(') =
      ['('] ++ (f.argumentText.toList ++ ") \x7b".toList) := by
    unfold CFunction.signatureLine
    rw [List.dropWhile_append_of_pos hdeclare]
    simp
  unfold readLines CFunction.conditionLine CFunction.callLine
  rw [htake, hdrop, readDeclaration_declare f.returns h.name, readBody_statement h]
  simp only [inner?_append, Option.bind_eq_bind, Option.bind_some, String.ofList_toList,
    readArguments_argumentText h]
  rfl

/-- The text of a legible function shows its outline. -/
theorem read_text {f : CFunction} (h : f.Legible) {text : String} (htext : f.text = .ok text) :
    read text = some f.outline := by
  have hsplit : text.toList.splitOn '\n' = f.lines := by
    rw [CFunction.toList_text htext]
    refine List.splitOn_intercalate '\n' h.newline_notMem ?_
    simp [CFunction.lines]
  rw [← readLines_lines h]
  unfold read
  rw [hsplit]
  unfold CFunction.lines
  cases f.statementLine? with
  | none => rfl
  | some line => rfl

end Outline

end GuardedC
