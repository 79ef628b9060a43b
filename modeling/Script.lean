import Script.CommandLine
import Script.Main
import Script.Syntax.MapTokens
import Script.Engine.Host
import Script.Proofs.Memory.Depiction
import Script.Proofs.Memory.Assertion
import Script.Proofs.Memory.Follows
import Script.Proofs.Memory.Effects
import Script.Proofs.Memory.Slots
import Script.Proofs.Memory.Call
import Script.Proofs.Memory.Eval
import Script.Proofs.Memory.Host
import Script.Proofs.Frame
import Script.Proofs.Depth
import Script.Proofs.Limit
import Script.Proofs.Termination
import Script.Proofs.Values
import Script.Proofs.Heap
import Script.Proofs.Proper
import Script.Proofs.Grammar
import Script.Proofs.Grammar.Soundness
import Script.Proofs.Grammar.Completeness
import Script.Proofs.Grammar.Terminated
import Script.Proofs.Grammar.Course
import Script.Proofs.Grammar.Occurrence
import Script.Proofs.Spelling
import Script.Proofs.Printing
import Script.Proofs.Grammar.Refusal
import Script.Proofs.Lexeme
import Script.Proofs.Scanning
import Script.Proofs.Layout
import Script.Proofs.Rendering
import Script.Proofs.DisplayedData
import Script.Proofs.Grammar.Seam
import Script.Proofs.Joining
import Script.Proofs.Raising
import Script.Proofs.Shape
import Script.Proofs.Places
import Script.Proofs.Scoping
import Script.Proofs.Positions
import Script.Proofs.Assignment
import Script.Proofs.Sequence
import Script.Proofs.Comparison
import Script.Proofs.Loops
import Script.Proofs.Reading
import Script.Proofs.Instances
import Script.Proofs.Classes
import Script.Proofs.Excerpts
import Script.Proofs.Grammar.Progress
import Script.Proofs.Listing
import Script.Proofs.NumberTexts
import Script.Proofs.Paths
import Script.Proofs.ProjectRoot
import Script.Proofs.CommandLine
import Script.Proofs.Copies
