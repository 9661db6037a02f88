import GuardedC.Script

/-!
# Reports on scripts

Runs a script to its end, whatever fails, and reports for each step what came of it and which facts
it added to the numbered frames.
-/

namespace GuardedC.Script

structure Report where
  outcome : Except Fault Answer
  /-- New facts with the number of their frame and the argument that they are about. -/
  facts : List (Nat × Argument × Fact)
  complex : List (Nat × ComplexFact)

/-- The facts of a frame that an earlier state of it does not have yet. -/
def newFacts (number : Nat) (old : Option Frame) (f : Frame) : List (Nat × Argument × Fact) :=
  f.arguments.flatMap fun a =>
    let known := (old.map (·.factsAt a.index)).getD []
    ((f.factsAt a.index).drop known.length).map fun fact => (number, a, fact)

/-- The complex facts of a frame that an earlier state of it does not have yet. -/
def newComplex (number : Nat) (old : Option Frame) (f : Frame) : List (Nat × ComplexFact) :=
  let known := (old.map (·.complex)).getD []
  (f.complex.drop known.length).map fun fact => (number, fact)

/-- Compares two states of the numbered frames, as far as they are alive. -/
def Report.ofChange (outcome : Except Fault Answer) (frames : List FrameId) (before after : Session) :
    Report :=
  let alive := frames.zipIdx.filterMap fun (id, number) =>
    (after.frame? id).map fun f => (number, before.frame? id, f)
  { outcome
    facts := alive.flatMap fun (number, old, f) => newFacts number old f
    complex := alive.flatMap fun (number, old, f) => newComplex number old f }

/-- Runs all steps and reports on each. -/
def watch (env : Env) : List Step → StateM Session (List Report)
  | [] => return []
  | step :: steps => do
    let before ← get
    let outcome ← (step.run env).run
    -- a frame made by this step is numbered already, and all its facts are new
    let env := env.push outcome
    let report := Report.ofChange outcome env.frames before (← get)
    return report :: (← watch env steps)

/-- Runs all steps on a frame of their own, which has the number 0. -/
def trace (params : List Ty) (steps : List Step) : Tracing (List Report) := do
  let id ← GuardedC.openFrame params
  watch { frames := [id] } steps

end GuardedC.Script
