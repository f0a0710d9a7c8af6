import Brainfuck.Block
import Brainfuck.Machine.Run
import Brainfuck.Main
import Brainfuck.Program.Sample
import Brainfuck.Proofs.Bracket.Enclosure
import Brainfuck.Proofs.Bracket.OnePass
import Brainfuck.Proofs.Machine.Invariant
import Brainfuck.Proofs.Machine.Recurrence
import Brainfuck.Proofs.Machine.StepLimit
import Brainfuck.Proofs.Block.Realisation
import Brainfuck.Proofs.Machine.Lockstep
import Brainfuck.Proofs.Machine.Scanning
import Brainfuck.Proofs.Machine.Comments
import Brainfuck.Proofs.Machine.InputBytes
import Brainfuck.Proofs.Machine.LongerTape
import Brainfuck.Proofs.Machine.Reuse
import Brainfuck.Proofs.Program.Places
import Brainfuck.Proofs.Utf8.Ascii
import Brainfuck.Proofs.Machine.FaultReport
import Brainfuck.Proofs.Program.Bytes
import Brainfuck.Proofs.Bracket.Partners
import Brainfuck.Proofs.Machine.EndlessRuns
import Brainfuck.Proofs.Machine.Accounts
import Brainfuck.Proofs.CommandLine.Printing
import Brainfuck.Proofs.Bracket.Blame
import Brainfuck.Proofs.Bracket.Nesting
import Brainfuck.Proofs.Program.Appending
import Brainfuck.Proofs.Program.Reloading
import Brainfuck.Proofs.Machine.Records
import Brainfuck.Proofs.Machine.StraightLine
import Brainfuck.Proofs.Block.Commands
import Brainfuck.Proofs.Block.Shapes
import Brainfuck.Proofs.Bracket.Skeleton
import Brainfuck.Proofs.Bracket.Slices
import Brainfuck.Proofs.Block.Clearing
import Brainfuck.Proofs.Block.Multiplication
import Brainfuck.Proofs.Block.Echo
import Brainfuck.Proofs.Bracket.HalfBuilt
import Brainfuck.Proofs.Machine.Messages
