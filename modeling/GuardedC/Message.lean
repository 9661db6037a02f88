import GuardedC.Frame

/-!
# Log messages

Messages that tell what the tool is doing, with the part of it that speaks and how detailed it gets.
A message holds what it is about; its text is written only where the log is shown, since the text of
an expression can be far longer than the trace that made it.
-/

namespace GuardedC

/-- How detailed a message is, from the gravest to the finest. -/
inductive Level where
  | error | warn | info | debug | trace
deriving Repr, DecidableEq

namespace Level

def name : Level → String
  | error => "ERROR"
  | warn => "WARN"
  | info => "INFO"
  | debug => "DEBUG"
  | trace => "TRACE"

def rank : Level → Nat
  | error => 1
  | warn => 2
  | info => 3
  | debug => 4
  | trace => 5

end Level

/-- The part of the tool that speaks. -/
inductive Topic where
  | frame | ranges | unit | emission | settings | tool
deriving Repr, DecidableEq

/-- The part's name in the log. -/
def Topic.path : Topic → String
  | frame => "sya_trace::frame"
  | ranges => "sya_core::collapse"
  | unit => "sya_core::function"
  | emission => "sya_backend_c::emit"
  | settings => "sya::config"
  | tool => "sya"

inductive Message where
  /-- A fact is kept with an argument. -/
  | fact (argument : String) (fact : Fact)
  /-- A complex fact is kept. -/
  | complexFact (fact : ComplexFact)
  /-- A frame is made, for so many parameters and with so many arguments. -/
  | frame (parameters arguments : Nat)
  /-- A comparison with a known integer leaves these values of an argument. -/
  | narrowed (argument : String) (op : Comparison) (literal : Int) (rest : IntSet)
  /-- A function with so many parameters is about to be traced. -/
  | compiling (function : String) (parameters : Nat)
  /-- The guard of a function is known. -/
  | guarded (function guard : String)
  /-- A function is printed. -/
  | emitted (function : String) (bytes : Nat)
  /-- A settings file is about to be read. -/
  | reading (path : String)
  /-- The settings of a file are in force. -/
  | configured (path : String)
deriving Repr, DecidableEq

namespace Message

def level : Message → Level
  | narrowed .. => .trace
  | _ => .debug

def topic : Message → Topic
  | fact .. | complexFact .. | frame .. => .frame
  | narrowed .. => .ranges
  | compiling .. | guarded .. => .unit
  | emitted .. => .emission
  | reading .. => .settings
  | configured .. => .tool

def text : Message → String
  | fact argument f => s!"fact: {argument} {f.op.symbol} {f.operand.render}"
  | complexFact f => s!"complex fact: {f.render}"
  | frame parameters arguments => s!"frame: {parameters} parameter(s), {arguments} argument(s)"
  | narrowed argument op literal rest => s!"{argument} {op.symbol} {literal}: {rest.text}"
  | compiling function parameters => s!"compiling `{function}` with {parameters} parameter(s)"
  | guarded function guard => s!"guard for `{function}`: {guard}"
  | emitted function bytes => s!"emitted `{function}` ({bytes} bytes)"
  | reading path => s!"reading {path}"
  | configured path => s!"using {path}"

/-- The message as a line of the log. -/
def line (m : Message) : String := s!"[{m.level.name} {m.topic.path}] {m.text}"

end Message

end GuardedC
