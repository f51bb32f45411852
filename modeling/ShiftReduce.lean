import ShiftReduce.Main
import ShiftReduce.Parser.Log
import ShiftReduce.Session
import ShiftReduce.Proofs.Closure
import ShiftReduce.Proofs.FirstSets
import ShiftReduce.Proofs.Numbered
import ShiftReduce.Proofs.Construction
import ShiftReduce.Proofs.Cells
import ShiftReduce.Proofs.ValidItems
import ShiftReduce.Proofs.Runs
import ShiftReduce.Proofs.Turns
import ShiftReduce.Proofs.DerivationTrees
import ShiftReduce.Proofs.Soundness
import ShiftReduce.Proofs.Completeness
import ShiftReduce.Proofs.Contexts
import ShiftReduce.Proofs.Detection
import ShiftReduce.Proofs.Errors
import ShiftReduce.Proofs.Generation
import ShiftReduce.Proofs.Edges
import ShiftReduce.Proofs.Strides
import ShiftReduce.Proofs.Termination
import ShiftReduce.Proofs.Simulation
import ShiftReduce.Proofs.SupersetTrees
import ShiftReduce.Proofs.Merging
import ShiftReduce.Proofs.Breadth
import ShiftReduce.Proofs.States
import ShiftReduce.Proofs.TableContent
import ShiftReduce.Proofs.Reaching
import ShiftReduce.Proofs.Conflicts
import ShiftReduce.Proofs.Reports
import ShiftReduce.Proofs.Mirroring
import ShiftReduce.Proofs.Lockstep
import ShiftReduce.Proofs.Reordering
import ShiftReduce.Proofs.Refusals
import ShiftReduce.Proofs.Beginnings
import ShiftReduce.Proofs.Nullability
import ShiftReduce.Proofs.LeastClosure
import ShiftReduce.Proofs.RuleTokens
import ShiftReduce.Proofs.RuleReading
import ShiftReduce.Proofs.CheckedClosure
import ShiftReduce.Proofs.CheckedBuild
import ShiftReduce.Proofs.Interning
import ShiftReduce.Proofs.Agreement
import ShiftReduce.Proofs.LoneArrows
import ShiftReduce.Proofs.LineByLine
import ShiftReduce.Proofs.ArrowColumns
import ShiftReduce.Proofs.Moments
import ShiftReduce.Proofs.Lookups
import ShiftReduce.Proofs.LongestMatch
import ShiftReduce.Proofs.TopDown
import ShiftReduce.Proofs.Tiling
