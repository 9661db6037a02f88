/-!
# Diagnostics

What a user is told about a failure: the message, the code of the part that failed, and advice.
-/

namespace GuardedC

structure Diagnostic where
  message : String
  code : Option String
  help : Option String
deriving Repr, DecidableEq

end GuardedC
