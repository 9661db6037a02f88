import GuardedC.CommandLine

/-!
# The program

Gathers what a run depends on, runs it, and prints what came of it.
-/

namespace GuardedC.Main

open CommandLine

/-- What the machine shows at a path. -/
def lookUp (path : String) : IO Entry := do
  if path.isEmpty then return .missing
  let place := (← IO.currentDir) / path
  if ← place.isDir then return .directory
  unless ← place.pathExists do return .missing
  try
    return .file (← IO.FS.readBinFile place)
  catch e =>
    return .unreadable (toString e)

/-- The paths that a run may look at. -/
def probes (workingDirectory : String) (words : List String) : List String :=
  match parse words with
  | .ok (.command globals _) =>
    globals.config.toList ++ Settings.candidates (fun _ => .directory) workingDirectory
  | _ => []

/-- The entries of some paths, as a disk. -/
def snapshot (paths : List String) : IO Disk := do
  let entries ← paths.mapM fun path => return (path, ← lookUp path)
  return fun path => (entries.lookup path).getD .missing

def report (d : Diagnostic) : String :=
  let code := (d.code.map (· ++ "\n\n")).getD ""
  let help := (d.help.map ("\n  help: " ++ ·)).getD ""
  "Error: " ++ code ++ "  x " ++ d.message ++ help

end GuardedC.Main

def main (words : List String) : IO UInt32 := do
  let workingDirectory := (← IO.currentDir).toString
  let disk ← GuardedC.Main.snapshot (GuardedC.Main.probes workingDirectory words)
  let levelName ← IO.getEnv "RUST_LOG"
  let outcome := GuardedC.CommandLine.run disk workingDirectory levelName words
  for line in outcome.log do IO.eprintln line
  IO.print outcome.output
  if let some e := outcome.usage then IO.eprintln ("error: " ++ e.message)
  if let some d := outcome.failure then IO.eprintln (GuardedC.Main.report d)
  return outcome.exitCode.toUInt32
