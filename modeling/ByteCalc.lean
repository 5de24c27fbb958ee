import ByteCalc.BigEndian
import ByteCalc.Bytecode
import ByteCalc.Bytecode.Artifact
import ByteCalc.Bytecode.Codegen
import ByteCalc.Bytecode.Listing
import ByteCalc.Checksum
import ByteCalc.Console
import ByteCalc.Diagnostic
import ByteCalc.Evaluation
import ByteCalc.Fault
import ByteCalc.Integer
import ByteCalc.Machine
import ByteCalc.Machine.Execution
import ByteCalc.Main
import ByteCalc.Opcode
import ByteCalc.Opcode.Encoding
import ByteCalc.Operator
import ByteCalc.Program
import ByteCalc.Program.Parser
import ByteCalc.Program.Visitor
import ByteCalc.Proofs.ArtifactFormat
import ByteCalc.Proofs.Blanks
import ByteCalc.Proofs.Capacity
import ByteCalc.Proofs.Decompilation
import ByteCalc.Proofs.DirectEvaluation
import ByteCalc.Proofs.Disassembly
import ByteCalc.Proofs.Emission
import ByteCalc.Proofs.ErrorDetection
import ByteCalc.Proofs.Grammar
import ByteCalc.Proofs.Interruption
import ByteCalc.Proofs.LastInFirstOut
import ByteCalc.Proofs.Lexing
import ByteCalc.Proofs.Lifecycle
import ByteCalc.Proofs.LineByLine
import ByteCalc.Proofs.ListingCoverage
import ByteCalc.Proofs.Operands
import ByteCalc.Proofs.Parsing
import ByteCalc.Proofs.Printing
import ByteCalc.Proofs.Recognition
import ByteCalc.Proofs.Rendering
import ByteCalc.Proofs.RunFaults
import ByteCalc.Proofs.Running
import ByteCalc.Proofs.Safety
import ByteCalc.Proofs.Segmentation
import ByteCalc.Proofs.SelfDelimiting
import ByteCalc.Proofs.Separation
import ByteCalc.Proofs.Sessions
import ByteCalc.Proofs.Slicing
import ByteCalc.Proofs.SourceSpans
import ByteCalc.Proofs.SpanErasure
import ByteCalc.Proofs.SpanMapping
import ByteCalc.Proofs.Sums
import ByteCalc.Proofs.Termination
import ByteCalc.Proofs.ViablePrefix
import ByteCalc.Proofs.Walks
import ByteCalc.Span
import ByteCalc.Splitter
import ByteCalc.Stack
import ByteCalc.Text.Alphabetic
import ByteCalc.Text.Space
import ByteCalc.Token
import ByteCalc.Token.Lexer
import ByteCalc.Val
import ByteCalc.Val.Sum
