import TaggedScript.Source.Span
import TaggedScript.Source.LineMap
import TaggedScript.Text.Quoted
import TaggedScript.Diagnostic
import TaggedScript.Json
import TaggedScript.Token.Lexer
import TaggedScript.Syntax.Parser
import TaggedScript.Syntax.Json
import TaggedScript.World
import TaggedScript.Scope
import TaggedScript.Builtin
import TaggedScript.Evaluation
import TaggedScript.Machine.Codec
import TaggedScript.Machine.Stack
import TaggedScript.Machine.Listing
import TaggedScript.Machine.Compiler
import TaggedScript.Machine.Engine
import TaggedScript.Machine.Run
import TaggedScript.CommandLine
import TaggedScript.Main
import TaggedScript.Proofs.Frames.Capacity
import TaggedScript.Proofs.Compilation.Safety
import TaggedScript.Proofs.Compilation.Termination
import TaggedScript.Proofs.Compilation.Sequences
import TaggedScript.Proofs.Compilation.Printing
import TaggedScript.Proofs.Agreement.Evaluators
import TaggedScript.Proofs.Codec
import TaggedScript.Proofs.Syntax.JsonForm
import TaggedScript.Proofs.Syntax.RoundTrip
import TaggedScript.Proofs.Syntax.Munching
import TaggedScript.Proofs.Syntax.Ends
import TaggedScript.Proofs.Syntax.Chains
import TaggedScript.Proofs.Walk.Stops
import TaggedScript.Proofs.Operands.Effects
import TaggedScript.Proofs.Operands.Depth
import TaggedScript.Proofs.Lockstep.Dictionaries
import TaggedScript.Proofs.Lockstep.Integrity
import TaggedScript.Proofs.Lockstep.Concatenation
import TaggedScript.Proofs.Compilation.Rejections
import TaggedScript.Proofs.Compilation.Verified
import TaggedScript.Proofs.Compilation.Names
import TaggedScript.Proofs.Frames.Faults
import TaggedScript.Proofs.Streams.Decoding
import TaggedScript.Proofs.Streams.Patching
import TaggedScript.Proofs.HeapStore
import TaggedScript.Proofs.Syntax.Nesting
import TaggedScript.Proofs.Frames.Linkage
import TaggedScript.Proofs.Listings.Traversal
import TaggedScript.Proofs.Listings.Labels
import TaggedScript.Proofs.Source.Carets
import TaggedScript.Proofs.Scopes
import TaggedScript.Proofs.WordTags
import TaggedScript.Proofs.Source.Positions
import TaggedScript.Proofs.Arithmetic
import TaggedScript.Proofs.Interning
import TaggedScript.Proofs.Syntax.Negation
