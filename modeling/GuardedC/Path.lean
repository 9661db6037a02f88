/-!
# Paths

Paths are texts whose segments are divided by slashes. They are handled as texts only: nothing is
looked up, and except by `walk` neither dots nor doubled slashes are resolved.
-/

namespace GuardedC.Path

def isAbsolute (p : String) : Bool := p.toList.head? == some '/'

/-- The second path as seen from the first; an absolute one is seen from anywhere. -/
def join (base p : String) : String :=
  if isAbsolute p || base.isEmpty then p
  else if base.toList.getLast? == some '/' then base ++ p
  else base ++ "/" ++ p

/-- The segments, the last one first, without the empty ones and single dots at the end. A path's
very first segment stays. -/
def dropTrivial : List String → List String
  | [] => []
  | [first] => [first]
  | segment :: rest => if segment == "" || segment == "." then dropTrivial rest else segment :: rest

/-- The path of segments given last one first. -/
def ofReversed : List String → String
  | [""] => "/"
  | segments => "/".intercalate segments.reverse

/-- The path without its last segment. The top and the empty path have no parent. -/
def parent? (p : String) : Option String :=
  match dropTrivial (p.splitOn "/").reverse with
  | [] | [""] => none
  | _ :: rest => some (ofReversed (dropTrivial rest))

/-- A path and all paths above it, the nearest first, as many as the fuel allows. -/
def ancestorsWithin : Nat → String → List String
  | 0, _ => []
  | fuel + 1, p =>
    p :: match parent? p with
      | some q => ancestorsWithin fuel q
      | none => []

/-- A path and all paths above it, the nearest first. There are no more of them than segments. -/
def ancestors (p : String) : List String := ancestorsWithin ((p.splitOn "/").length + 1) p

/-- One step from the place with these names: empty segments and single dots stay there, double dots
go up. -/
def step (here : List String) (segment : String) : List String :=
  if segment == "" || segment == "." then here
  else if segment == ".." then here.dropLast
  else here ++ [segment]

/-- The names of the place that segments lead to. -/
def walk (here : List String) (segments : List String) : List String := segments.foldl step here

end GuardedC.Path
