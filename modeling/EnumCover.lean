import EnumCover.Command.Run
import EnumCover.Main
import EnumCover.Snapshot.Writer
import EnumCover.Proofs.Traversal.Nodes
import EnumCover.Proofs.Traversal.Order
import EnumCover.Proofs.Coverage.Cases
import EnumCover.Proofs.Coverage.Arrangement
import EnumCover.Proofs.Coverage.Findings
import EnumCover.Proofs.Check.Violations
import EnumCover.Proofs.Check.Statistics
import EnumCover.Proofs.Check.Interleaving
import EnumCover.Proofs.Check.Agreement
import EnumCover.Proofs.Check.Parentheses
import EnumCover.Proofs.Path.Order
import EnumCover.Proofs.Snapshot.Loading
import EnumCover.Proofs.Path.Segments
import EnumCover.Proofs.Files.Location
import EnumCover.Proofs.Snapshot.Overlap
import EnumCover.Proofs.Json.Spelling
import EnumCover.Proofs.Json.Refinement
import EnumCover.Proofs.Json.Alike
import EnumCover.Proofs.Json.Tokens
import EnumCover.Proofs.Json.Parsing
import EnumCover.Proofs.Json.Printing
import EnumCover.Proofs.Snapshot.Schema
import EnumCover.Proofs.Snapshot.Parts
import EnumCover.Proofs.Snapshot.Preservation
import EnumCover.Proofs.Snapshot.KeyOrder
import EnumCover.Proofs.Snapshot.Leaves
import EnumCover.Proofs.Snapshot.RoundTrip
import EnumCover.Proofs.Check.Packages
import EnumCover.Proofs.Files.Resolution
import EnumCover.Proofs.Snapshot.RootOrder
import EnumCover.Proofs.Files.Writing
import EnumCover.Proofs.Command.Confinement
import EnumCover.Proofs.Command.Effects
import EnumCover.Proofs.Check.Ignoring
import EnumCover.Proofs.Comments.Groups
import EnumCover.Proofs.Comments.Introductions
import EnumCover.Proofs.Comments.Headers
import EnumCover.Proofs.Comments.Partition
import EnumCover.Proofs.Comments.Trailers
import EnumCover.Proofs.Comments.Members
import EnumCover.Proofs.Number.Rounding
import EnumCover.Proofs.Program.Integers
import EnumCover.Proofs.Number.Positional
import EnumCover.Proofs.Number.Nearest
import EnumCover.Proofs.Program.Recoding
import EnumCover.Proofs.Program.Floats
import EnumCover.Proofs.Program.Strings
import EnumCover.Proofs.Number.Denotation
import EnumCover.Proofs.Program.Normalization
import EnumCover.Proofs.Program.IntegerForms
import EnumCover.Proofs.Program.IntegerLegality
import EnumCover.Proofs.Path.Stripping
import EnumCover.Proofs.Comments.Dependence
import EnumCover.Proofs.Coverage.Declarations
import EnumCover.Proofs.Json.Decoding
import EnumCover.Proofs.Check.Rendering
import EnumCover.Proofs.Files.Directories
import EnumCover.Proofs.Snapshot.Searching
import EnumCover.Proofs.Snapshot.AllOrNothing
