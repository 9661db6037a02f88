import GuardedC.Main
import GuardedC.Proofs.ClosedBody
import GuardedC.Proofs.EnforcedFacts
import GuardedC.Proofs.MemorySafety
import GuardedC.Script.Report
import GuardedC.Proofs.DirectExecution
import GuardedC.Proofs.Attempts
import GuardedC.Proofs.GraphShape
import GuardedC.Proofs.Isolation
import GuardedC.Proofs.Reachable
import GuardedC.Proofs.Windows
import GuardedC.Proofs.Words
import GuardedC.Proofs.CText.Integers
import GuardedC.Proofs.SetTerm
import GuardedC.Proofs.SetAlgebra
import GuardedC.Proofs.RangeFailures
import GuardedC.Proofs.CText.Outline
import GuardedC.Proofs.EmittedText
import GuardedC.Proofs.Constants
import GuardedC.Proofs.WordsInC
import GuardedC.Proofs.Conjuncts
import GuardedC.Proofs.CompileOutcome
import GuardedC.Proofs.ByteStrings
import GuardedC.Proofs.LengthGuards
import GuardedC.Proofs.AssertionOrder
import GuardedC.Proofs.EmptyRanges
import GuardedC.Proofs.GuardComparisons
import GuardedC.Proofs.MinimalClauses
import GuardedC.Proofs.GuardInC
import GuardedC.Proofs.Folding
import GuardedC.Proofs.NewFrames
import GuardedC.Proofs.SolutionSets
import GuardedC.Proofs.AbortCall
