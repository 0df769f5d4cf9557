import TapeCode.Artifact
import TapeCode.Assembler
import TapeCode.Build
import TapeCode.Command
import TapeCode.Command.Invocation
import TapeCode.Command.Manual
import TapeCode.Compile
import TapeCode.Instr
import TapeCode.Listing
import TapeCode.Machine
import TapeCode.Machine.Fault
import TapeCode.Machine.Output
import TapeCode.Machine.WordReader
import TapeCode.Main
import TapeCode.Op
import TapeCode.Program
import TapeCode.Proofs.Acceptance
import TapeCode.Proofs.Access
import TapeCode.Proofs.Assembling
import TapeCode.Proofs.Brackets
import TapeCode.Proofs.Breakoff
import TapeCode.Proofs.CodeSize
import TapeCode.Proofs.Comments
import TapeCode.Proofs.Containment
import TapeCode.Proofs.Correctness
import TapeCode.Proofs.Cursor
import TapeCode.Proofs.Delivery
import TapeCode.Proofs.Disassembly
import TapeCode.Proofs.Encoding
import TapeCode.Proofs.Excursion
import TapeCode.Proofs.Execution
import TapeCode.Proofs.Fixups
import TapeCode.Proofs.Format
import TapeCode.Proofs.Input
import TapeCode.Proofs.Interpreter
import TapeCode.Proofs.Iteration
import TapeCode.Proofs.Judgement
import TapeCode.Proofs.Layout
import TapeCode.Proofs.Legibility
import TapeCode.Proofs.Linking
import TapeCode.Proofs.Lockstep
import TapeCode.Proofs.Paths
import TapeCode.Proofs.Pipeline
import TapeCode.Proofs.Reading
import TapeCode.Proofs.Relocation
import TapeCode.Proofs.RunLength
import TapeCode.Proofs.Safety
import TapeCode.Proofs.Saving
import TapeCode.Proofs.Scanning
import TapeCode.Proofs.Standstill
import TapeCode.Proofs.Stream
import TapeCode.Proofs.Sweep
import TapeCode.Proofs.Target
import TapeCode.Proofs.Translation
import TapeCode.Proofs.Truncation
import TapeCode.Proofs.Utf8
import TapeCode.Proofs.Verdict
import TapeCode.Proofs.Words
import TapeCode.Stream.Sink
import TapeCode.Stream.Source
import TapeCode.Text.Blank
import TapeCode.Text.Numeral
import TapeCode.Text.Quoted
import TapeCode.Text.Utf8
import TapeCode.Text.Words
import TapeCode.Token
import TapeCode.Token.Scan
import TapeCode.Tree
import TapeCode.Tree.Path
import TapeCode.Tree.Save
import TapeCode.Word
