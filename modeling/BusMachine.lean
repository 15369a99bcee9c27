import BusMachine.Device.Queue
import BusMachine.Terminal
import BusMachine.Main
import BusMachine.Proofs.Acceptance
import BusMachine.Proofs.Wiring.Resolution
import BusMachine.Proofs.Sequencer.Resolution
import BusMachine.Proofs.Architecture.Build
import BusMachine.Proofs.Datapath.Soundness
import BusMachine.Proofs.Standard.Architecture
import BusMachine.Proofs.Datapath.Bus
import BusMachine.Proofs.Machine.Operation
import BusMachine.Proofs.Machine.InPlace
import BusMachine.Proofs.Machine.Safety
import BusMachine.Proofs.Standard.Meaning
import BusMachine.Proofs.Standard.Transfer
import BusMachine.Proofs.Standard.Cycle
import BusMachine.Proofs.Standard.Refinement
import BusMachine.Proofs.Assembly.Addresses
import BusMachine.Proofs.Assembly.Resolution
import BusMachine.Proofs.Assembly.Source
import BusMachine.Proofs.Assembly.Words
import BusMachine.Proofs.Assembly.Loading
import BusMachine.Proofs.Machine.Drive
import BusMachine.Proofs.Standard.Progress
import BusMachine.Proofs.Assembly.Statement
import BusMachine.Proofs.Standard.Alignment
import BusMachine.Proofs.Assembly.Annotations
import BusMachine.Proofs.Architecture.InstructionSet
import BusMachine.Proofs.Listing.Rows
import BusMachine.Proofs.Listing.Assembled
import BusMachine.Proofs.Sequencer.Segment
import BusMachine.Proofs.Standard.Passage
import BusMachine.Proofs.Standard.Stack
import BusMachine.Proofs.Listing.Execution
import BusMachine.Proofs.Assembly.Regions
import BusMachine.Proofs.Assembly.Reading
import BusMachine.Proofs.Assembly.Arrangement
import BusMachine.Proofs.Wiring.Order
import BusMachine.Proofs.Sequencer.Order
import BusMachine.Proofs.Datapath.Order
import BusMachine.Proofs.Datapath.Renumbering
import BusMachine.Proofs.Standard.Order
import BusMachine.Proofs.Assembly.Positions
import BusMachine.Proofs.Literate.Blocks
import BusMachine.Proofs.Literate.Positions
import BusMachine.Proofs.InlineTest.Run
import BusMachine.Proofs.Assembly.Labels
import BusMachine.Proofs.Machine.Twin
import BusMachine.Proofs.Assembly.Reset
import BusMachine.Proofs.CommandLine.Encoding
import BusMachine.Proofs.Terminal.Console
import BusMachine.Proofs.Wiring.Acceptance
import BusMachine.Proofs.Sequencer.Acceptance
import BusMachine.Proofs.Wiring.Placement
import BusMachine.Proofs.Text.Numeral
import BusMachine.Proofs.Text.Trimming
import BusMachine.Proofs.Text.Decimal
import BusMachine.Proofs.Datapath.Assertion
import BusMachine.Proofs.Datapath.Counting
import BusMachine.Proofs.Datapath.Copying
import BusMachine.Proofs.Clock.Callbacks
import BusMachine.Proofs.Clock.Conservation
import BusMachine.Proofs.Assembly.Rendering
import BusMachine.Proofs.Assembly.Strictness
import BusMachine.Proofs.Assembly.Inverse
import BusMachine.Proofs.Listing.Division
import BusMachine.Proofs.Text.Lines
import BusMachine.Proofs.Text.Case
import BusMachine.Proofs.Text.Character
import BusMachine.Proofs.Assembly.Values
import BusMachine.Proofs.Terminal.Editing
import BusMachine.Proofs.InlineTest.Comparison
import BusMachine.Proofs.InlineTest.Reading
import BusMachine.Proofs.InlineTest.Spelling
import BusMachine.Proofs.InlineTest.Printing
import BusMachine.Proofs.Literate.Extraction
import BusMachine.Proofs.Datapath.Flags
import BusMachine.Proofs.Machine.Stalling
import BusMachine.Proofs.FileSystem.Path
import BusMachine.Proofs.CommandLine.Building
