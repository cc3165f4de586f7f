import ZMachine.Main
import ZMachine.Proofs.Save.Container
import ZMachine.Proofs.Save.Memory
import ZMachine.Proofs.CallStack
import ZMachine.Proofs.Save.Stacks
import ZMachine.Proofs.Save.RoundTrip
import ZMachine.Proofs.Save.Truncation
import ZMachine.Proofs.Save.Resaving
import ZMachine.Proofs.Memory
import ZMachine.Proofs.Object.Links
import ZMachine.Proofs.Object.Forest
import ZMachine.Proofs.Object.PropertyTable
import ZMachine.Proofs.Machine.Exec
import ZMachine.Proofs.Machine.StackEffect
import ZMachine.Proofs.Machine.Passage
import ZMachine.Proofs.Machine.Moment
import ZMachine.Proofs.Instruction.Decode
import ZMachine.Proofs.Machine.CallIsolation
import ZMachine.Proofs.Machine.Isolation
import ZMachine.Proofs.Machine.StackInvariant
import ZMachine.Proofs.Image
import ZMachine.Proofs.Machine.Work
import ZMachine.Proofs.Machine.Control
import ZMachine.Proofs.Machine.Suspension
import ZMachine.Proofs.Text.Locality
import ZMachine.Proofs.Text.StringCache
import ZMachine.Proofs.Instruction.Texts
import ZMachine.Proofs.Instruction.BlockCache
import ZMachine.Proofs.Machine.Boundary
import ZMachine.Proofs.Machine.BlockSteps
import ZMachine.Proofs.Text.DictionaryWord
import ZMachine.Proofs.Machine.Restore
import ZMachine.Proofs.Machine.SelfModifying
import ZMachine.Proofs.Machine.Interrupt
import ZMachine.Proofs.Machine.Loading
import ZMachine.Proofs.Machine.Uncapped
import ZMachine.Proofs.Machine.Yielding
import ZMachine.Proofs.Machine.MemoryStreams
import ZMachine.Proofs.Instruction.Encoding
import ZMachine.Proofs.Machine.Utterance
import ZMachine.Proofs.Machine.Restart
import ZMachine.Proofs.Machine.Transcript
import ZMachine.Proofs.Dictionary.ParseBuffer
import ZMachine.Proofs.Dictionary.Search
import ZMachine.Proofs.Machine.LineInput
import ZMachine.Proofs.Machine.TypedWord
import ZMachine.Proofs.Save.Compression
import ZMachine.Proofs.Save.ChunkOrder
import ZMachine.Proofs.Object.Attributes
import ZMachine.Proofs.Machine.Returning
import ZMachine.Proofs.Machine.TimedInput
import ZMachine.Proofs.Object.Ancestry
import ZMachine.Proofs.Object.PropertyWrites
import ZMachine.Proofs.Table
import ZMachine.Proofs.Machine.OutsideStory
import ZMachine.Proofs.Machine.Branching
import ZMachine.Proofs.Random
import ZMachine.Proofs.Machine.StatusLine
import ZMachine.Proofs.Terminal.Wrap
import ZMachine.Proofs.Scanning
import ZMachine.Proofs.Object.Detaching
import ZMachine.Proofs.Text.Zscii
