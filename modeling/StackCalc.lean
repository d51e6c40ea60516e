import StackCalc.Main
import StackCalc.Proofs.CallDepth
import StackCalc.Proofs.Collisions
import StackCalc.Proofs.Convention
import StackCalc.Proofs.Exactness
import StackCalc.Proofs.Excerpts
import StackCalc.Proofs.Extension
import StackCalc.Proofs.History
import StackCalc.Proofs.ListedCode
import StackCalc.Proofs.Locality
import StackCalc.Proofs.Locations
import StackCalc.Proofs.Lockstep
import StackCalc.Proofs.NamedFaults
import StackCalc.Proofs.Parsing
import StackCalc.Proofs.PointedFailures
import StackCalc.Proofs.PrintedDepth
import StackCalc.Proofs.Reentry
import StackCalc.Proofs.ScopeTable
import StackCalc.Proofs.Sessions
import StackCalc.Proofs.Termination
import StackCalc.Proofs.Tiling
import StackCalc.Proofs.Verdict
import StackCalc.Source.Marks
