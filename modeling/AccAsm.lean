import AccAsm.Assembly
import AccAsm.Cell.Packer
import AccAsm.Command
import AccAsm.Command.Run
import AccAsm.Command.Report
import AccAsm.Disk
import AccAsm.Encoding
import AccAsm.Image.Rendering
import AccAsm.Instruction.Builtin
import AccAsm.Instruction.Load
import AccAsm.Linking
import AccAsm.Main
import AccAsm.Program
import AccAsm.Program.Reading
import AccAsm.Program.Stream
import AccAsm.SymbolTable
import AccAsm.Text
import AccAsm.Text.Blank
import AccAsm.Text.Csv
import AccAsm.Text.LowerCase
import AccAsm.Text.Numeral
import AccAsm.Text.Path
import AccAsm.Text.Quoted
import AccAsm.Text.Refusal
import AccAsm.Token.Scan
import AccAsm.Proofs.Cell.Packing
import AccAsm.Proofs.Command.Execution
import AccAsm.Proofs.Command.Targets
import AccAsm.Proofs.Diagnostics
import AccAsm.Proofs.Disk
import AccAsm.Proofs.Encoding.Ascii
import AccAsm.Proofs.Encoding.Composition
import AccAsm.Proofs.Encoding.Decoding
import AccAsm.Proofs.Encoding.Evaluation
import AccAsm.Proofs.Encoding.Exchange
import AccAsm.Proofs.Encoding.Sequence
import AccAsm.Proofs.Encoding.Validity
import AccAsm.Proofs.Image.Padding
import AccAsm.Proofs.Image.Rendering
import AccAsm.Proofs.Inclusion.Files
import AccAsm.Proofs.Instruction.Loading
import AccAsm.Proofs.Instruction.Lookup
import AccAsm.Proofs.Linking.Resolution
import AccAsm.Proofs.OneShot.Agreement
import AccAsm.Proofs.Program.Messages
import AccAsm.Proofs.Program.Unambiguity
import AccAsm.Proofs.Program.Walking
import AccAsm.Proofs.Relevance
import AccAsm.Proofs.Renaming
import AccAsm.Proofs.Safety
import AccAsm.Proofs.Strictness
import AccAsm.Proofs.SymbolTable
import AccAsm.Proofs.Token.Locality
import AccAsm.Proofs.Token.Printing
