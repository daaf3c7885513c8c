import ParserMachine.Compile
import ParserMachine.Grammar.Bytes
import ParserMachine.Grammar.Characters
import ParserMachine.Grammar.Sameness
import ParserMachine.Machine.Run
import ParserMachine.Program.Listing
import ParserMachine.Proofs.Streaming.Outcome
import ParserMachine.Proofs.Meaning.Graph
import ParserMachine.Proofs.Meaning.Tree
import ParserMachine.Proofs.Generation.Repetition
import ParserMachine.Proofs.Generation.Alternatives
import ParserMachine.Proofs.Generation.Emission
import ParserMachine.Proofs.Generation.Correct
import ParserMachine.Proofs.Generation.Labels
import ParserMachine.Proofs.Machine.Embedding
import ParserMachine.Proofs.Machine.Destinations
import ParserMachine.Proofs.Machine.Invariant
import ParserMachine.Proofs.Linking.Flat
import ParserMachine.Proofs.Assembly.Running
import ParserMachine.Proofs.Linking.Placement
import ParserMachine.Proofs.Generation.Blocks
import ParserMachine.Proofs.Generation.Whole
import ParserMachine.Proofs.Binding.Walking
import ParserMachine.Proofs.Binding.Sharing
import ParserMachine.Proofs.Binding.Trees
import ParserMachine.Proofs.Binding.Correct
import ParserMachine.Proofs.Simplification.Off
import ParserMachine.Proofs.Compiling.Unoptimized
import ParserMachine.Proofs.Fusing.Neighbours
import ParserMachine.Proofs.Fusing.Tidied
import ParserMachine.Proofs.Fusing.Rounds
import ParserMachine.Proofs.Inlining.Copies
import ParserMachine.Proofs.Inlining.Merged
import ParserMachine.Proofs.Inlining.Rounds
import ParserMachine.Proofs.Binding.Induction
import ParserMachine.Proofs.Compiling.BackEnd
import ParserMachine.Proofs.Compiling.Discipline
import ParserMachine.Proofs.Compiling.Recognition
import ParserMachine.Proofs.Compiling.Reports
import ParserMachine.Proofs.Binding.References
import ParserMachine.Proofs.Reports.Combining
import ParserMachine.Proofs.Assembly.Flows
import ParserMachine.Proofs.Binding.Calling
import ParserMachine.Proofs.Compiling.Flows
import ParserMachine.Proofs.Machine.Acting
import ParserMachine.Proofs.Machine.Guards
import ParserMachine.Proofs.Machine.Keeping
import ParserMachine.Proofs.Reports.LongestMatch
import ParserMachine.Proofs.Reports.Truthful
import ParserMachine.Proofs.Compiling.Labels
import ParserMachine.Proofs.Compiling.Repetitions
import ParserMachine.Proofs.Compiling.Leads
import ParserMachine.Proofs.Compiling.Naming
import ParserMachine.Proofs.Simplification.Descent
import ParserMachine.Proofs.Compiling.Ending
import ParserMachine.Proofs.Binding.Faithful
import ParserMachine.Proofs.Binding.Spanning
import ParserMachine.Proofs.Binding.Enlarging
import ParserMachine.Proofs.Meaning.Recovering
import ParserMachine.Proofs.Meaning.Renewals
import ParserMachine.Proofs.Compiling.Catching
import ParserMachine.Proofs.Machine.Layout
import ParserMachine.Proofs.Machine.Unwinding
import ParserMachine.Proofs.Machine.Restoring
import ParserMachine.Proofs.Compiling.Recovering
import ParserMachine.Proofs.Machine.Departing
import ParserMachine.Proofs.Compiling.ControlFlow
import ParserMachine.Proofs.Compiling.Inlining
import ParserMachine.Proofs.Compiling.Separated
import ParserMachine.Proofs.Compiling.Discarding
import ParserMachine.Proofs.Generation.Tables
import ParserMachine.Proofs.Sets.Sharing
