import Wire.Checksum
import Wire.Checksum.Crc16
import Wire.Cursor
import Wire.Decimal.Shortest
import Wire.Failure
import Wire.Failure.Context
import Wire.Failure.Edit
import Wire.Fault
import Wire.Grammar
import Wire.Grammar.Meaning
import Wire.Grammar.Value
import Wire.Number.Binary
import Wire.Number.Integer
import Wire.Outcome
import Wire.Parser
import Wire.Parser.Byte
import Wire.Parser.Check
import Wire.Parser.Choice
import Wire.Parser.Number
import Wire.Parser.Repetition
import Wire.Parser.Span
import Wire.Parser.Window
import Wire.Record
import Wire.Run
import Wire.Session
import Wire.Text.Hex
import Wire.Proofs.Bytes
import Wire.Proofs.Discipline
import Wire.Proofs.Discipline.Grammar
import Wire.Proofs.Confinement
import Wire.Proofs.Correspondence
import Wire.Proofs.Correspondence.Grammar
import Wire.Proofs.Locality
import Wire.Proofs.Truthfulness
import Wire.Proofs.Digest
import Wire.Proofs.Depth
import Wire.Proofs.Faults
import Wire.Proofs.Faults.Calls
import Wire.Proofs.Faults.Grammar
import Wire.Proofs.Safety
import Wire.Proofs.Alternation
import Wire.Proofs.Alternation.Prediction
import Wire.Proofs.Digits
import Wire.Proofs.Format
import Wire.Proofs.Format.Repetition
import Wire.Proofs.Bytes.Literal
import Wire.Proofs.Hex
import Wire.Proofs.Dump
import Wire.Proofs.Expectations
import Wire.Proofs.Session
import Wire.Proofs.Record
import Wire.Proofs.Bits
import Wire.Proofs.Bits.Division
import Wire.Proofs.Crc16
import Wire.Proofs.Crc16.Burst
import Wire.Proofs.Crc16.Parity
import Wire.Proofs.Crc16.Presets
import Wire.Proofs.Trail
import Wire.Proofs.Trail.Many
import Wire.Proofs.Trail.Repeated
import Wire.Proofs.Trail.Agreement
import Wire.Proofs.Trail.Commit
import Wire.Proofs.Trail.Terminator
import Wire.Proofs.Trail.Tiling
import Wire.Proofs.Windows
import Wire.Proofs.Integers
import Wire.Proofs.Integers.Parser
