import Cfdp.Lib.Crash
import Cfdp.Lib.LittleEndian
import Cfdp.Lib.Runs
import Cfdp.Lib.FileBytes
import Cfdp.Lib.Heap
import Cfdp.Types
import Cfdp.Lib.IStream
import Cfdp.Crc
import Cfdp.PacketList
import Cfdp.PacketNodes
import Cfdp.JournalCodec
import Cfdp.World
import Cfdp.Journal
import Cfdp.JournalFile
import Cfdp.CfdpReceiver
import Cfdp.PduCodec
import Cfdp.Lib.Machine
import Cfdp.Lib.Progress
import Cfdp.Rules
import Cfdp.Node
import Cfdp.Reply
import Cfdp.Missing
import Cfdp.Invariant
import Cfdp.Sender
import Cfdp.Session
import Cfdp.Transfer
import Cfdp.PacketCounts
import Cfdp.Safety
import Cfdp.Durability
import Cfdp.FinalAck
import Cfdp.Answers
import Cfdp.Corruption
import Cfdp.Resume
import Cfdp.Guards
import Cfdp.BootSafety
import Cfdp.Lib.Paths
import Cfdp.Destination
import Cfdp.Lib.TwoRuns
import Cfdp.RejectedJournal
import Cfdp.Files
import Cfdp.Recovery
import Cfdp.Wire
import Cfdp.Naks
import Cfdp.ChunkSwitch
import Cfdp.Retransmission
import Cfdp.Duplicate
import Cfdp.Memory
import Cfdp.Survival
import Cfdp.Acks
import Cfdp.ChunkWrites
import Cfdp.Overwrite
import Cfdp.System
import Cfdp.Lib.BitPoly
import Cfdp.Crc8Poly
import Cfdp.Bursts
import Cfdp.Lib.ByteStream
import Cfdp.Framing
import Cfdp.Delivery
import Cfdp.Noise
import Cfdp.Honest
import Cfdp.Knowledge
import Cfdp.Frames
import Cfdp.ReceiverMain
import Cfdp.Stack
import Cfdp.Readers
import Cfdp.Refinement
import Cfdp.Completion
import Cfdp.Transcript
import Cfdp.Finality
import Cfdp.Permanence
