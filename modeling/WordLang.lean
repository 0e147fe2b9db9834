import WordLang.Command
import WordLang.Declaration.Check
import WordLang.Machine.Semantics
import WordLang.Main
import WordLang.Memory
import WordLang.NameMap
import WordLang.Operator
import WordLang.Position
import WordLang.Program.Parser
import WordLang.Program.Printer
import WordLang.Run
import WordLang.Store
import WordLang.Token.Lexer
import WordLang.Proofs.Execution
import WordLang.Proofs.Frames
import WordLang.Proofs.Declared
import WordLang.Proofs.Cells
import WordLang.Proofs.StoreInvariant
import WordLang.Proofs.Resolution
import WordLang.Proofs.Grammar
import WordLang.Proofs.Parsing
import WordLang.Proofs.Spelling
import WordLang.Proofs.WellFormed
import WordLang.Proofs.RoundTrip
import WordLang.Proofs.Relocation
import WordLang.Proofs.Passage
import WordLang.Proofs.Following
import WordLang.Proofs.Lockstep
import WordLang.Proofs.Steps
import WordLang.Proofs.Configurations
import WordLang.Proofs.Termination
import WordLang.Proofs.Checking
import WordLang.Proofs.Formatting
import WordLang.Proofs.Bracketing
import WordLang.Proofs.Panics
import WordLang.Proofs.LexicalScope
import WordLang.Proofs.Slots
import WordLang.Proofs.Isolation
import WordLang.Proofs.Ownership
import WordLang.Proofs.Acceptance
import WordLang.Proofs.ItemOrder
import WordLang.Proofs.Matching
import WordLang.Proofs.Placement
import WordLang.Proofs.Assigned
import WordLang.Proofs.SlotTypes
import WordLang.Proofs.Widths
import WordLang.Proofs.StackDiscipline
import WordLang.Proofs.Locations
import WordLang.Proofs.Assignment
import WordLang.Proofs.Fuel
import WordLang.Proofs.Compound
import WordLang.Proofs.Arithmetic
import WordLang.Proofs.Iteration
import WordLang.Proofs.ControlFlow
import WordLang.Proofs.Returns
import WordLang.Proofs.Lexemes
import WordLang.Proofs.Spacing
import WordLang.Proofs.Layout
import WordLang.Proofs.Snapshot
import WordLang.Proofs.Access
import WordLang.Proofs.NumericWords
