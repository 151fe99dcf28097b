import XvcSupport.Words
import XvcSupport.Header
import XvcSupport.Driver
import XvcSupport.Transport
import XvcSupport.Firmware
import XvcSupport.Chunks
import XvcSupport.TxBuffer
import XvcSupport.ReadBack
import XvcSupport.Reformat
import XvcSupport.Connection
import XvcSupport.Segmentation
import XvcSupport.Runs
import XvcSupport.Protocol
import XvcSupport.AtMostOnce
import XvcSupport.StaleReplies
import XvcSupport.Parameters
import XvcSupport.SerDes
import XvcSupport.Core
import XvcSupport.Device
import XvcSupport.Positions
import XvcSupport.Task
import XvcSupport.Phases
import XvcSupport.Pipeline
import XvcSupport.Answers
import XvcSupport.Stages
import XvcSupport.LocalSteps
import XvcSupport.ShiftSteps
import XvcSupport.Progress
import XvcSupport.Whole
import XvcSupport.WellFormed
import XvcSupport.ReplyMemory
import XvcSupport.Truncated
import XvcSupport.LocalFrames
import XvcSupport.ReplayBounds
import XvcSupport.Replays
import XvcSupport.Server
import XvcSupport.ShiftLength
import XvcSupport.ShortReplies
import XvcSupport.ShiftRegisters
import XvcSupport.JtagTap
import XvcSupport.Jtag2BSCAN
import XvcSupport.Clocking
import XvcSupport.ScanLaw
import XvcSupport.BitLists
import XvcSupport.JtagDump
import XvcSupport.Sniffer
import XvcSupport.Stub
import XvcSupport.XvcClient
import XvcSupport.Registers
import XvcSupport.FifoDrivers
import XvcSupport.FifoFrames
import XvcSupport.FrameBoundaries
import XvcSupport.RegisterDrivers
import XvcSupport.WordShifts
import XvcSupport.RegisterBlocks
import XvcSupport.Axis2TmemFifo
import XvcSupport.TmemIncoming
import XvcSupport.TmemOutgoing
import XvcSupport.StreamSelector
import XvcSupport.Handshakes
import XvcSupport.Outstanding
import XvcSupport.LoopBack
import XvcSupport.Emulation
import XvcSupport.ClientScans
import XvcSupport.Tmem2BSCANWrapper
import XvcSupport.BitBang
import XvcSupport.TmemSerDes
import XvcSupport.TmemInterfaces
import XvcSupport.Refinement
import XvcSupport.Responses
import XvcSupport.Requests
import XvcSupport.Service
import XvcSupport.Programs
import XvcSupport.ClientService
import XvcSupport.Waveform
import XvcSupport.Enables
import XvcSupport.BoardService
import XvcSupport.Clients
import XvcSupport.Entity
import XvcSupport.StreamBoard
import XvcSupport.StreamPolls
import XvcSupport.StreamTurns
