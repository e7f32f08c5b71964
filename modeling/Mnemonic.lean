import Mnemonic.Machine.Listeners
import Mnemonic.Machine.Run
import Mnemonic.Program.Binary
import Mnemonic.Program.Listing
import Mnemonic.Stock.Kind
import Mnemonic.Value.Binary
import Mnemonic.Proofs.Program.Naming
import Mnemonic.Proofs.Reading.Outline
import Mnemonic.Proofs.Reading.Operands
import Mnemonic.Proofs.Reading.Agreement
import Mnemonic.Proofs.Reading.Attempt
import Mnemonic.Proofs.Reading.Fit
import Mnemonic.Proofs.Reading.Lines
import Mnemonic.Proofs.Reading.Resumption
import Mnemonic.Proofs.Reading.Offsets
import Mnemonic.Proofs.Reading.Standing
import Mnemonic.Proofs.Reading.Extents
import Mnemonic.Proofs.Reading.Positions
import Mnemonic.Proofs.Reading.Culprits
import Mnemonic.Proofs.Reading.Parts
import Mnemonic.Proofs.Reading.Coverage
import Mnemonic.Proofs.Reading.LineEndings
import Mnemonic.Proofs.Reading.Advances
import Mnemonic.Proofs.Wire.Steady
import Mnemonic.Proofs.Wire.Canonical
import Mnemonic.Proofs.Wire.Programs
import Mnemonic.Proofs.Wire.Values
import Mnemonic.Proofs.Listing.Wording
import Mnemonic.Proofs.Listing.Readable
import Mnemonic.Proofs.Listing.Lines
import Mnemonic.Proofs.Listing.Saying
import Mnemonic.Proofs.Listing.Relisting
import Mnemonic.Proofs.Listing.Entries
import Mnemonic.Proofs.Listing.Paint
import Mnemonic.Proofs.Numbers.Numerals
import Mnemonic.Proofs.Numbers.IntegerOperands
import Mnemonic.Proofs.Numbers.Rereading
import Mnemonic.Proofs.Running.Operations
import Mnemonic.Proofs.Running.Matching
import Mnemonic.Proofs.Running.Jumps
import Mnemonic.Proofs.Running.Advancing
import Mnemonic.Proofs.Running.Reports
import Mnemonic.Proofs.Running.Calls
import Mnemonic.Proofs.Running.Faults
import Mnemonic.Proofs.Running.Control
import Mnemonic.Proofs.Running.Grants
import Mnemonic.Proofs.Running.Hosts
import Mnemonic.Proofs.Running.Rewinding
import Mnemonic.Proofs.Running.Limits
import Mnemonic.Proofs.Running.Kinds
import Mnemonic.Proofs.Running.Straight
import Mnemonic.Proofs.Running.Counting
import Mnemonic.Proofs.Running.Countdown
