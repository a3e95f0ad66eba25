import Zftl.Lib.Fallible
import Zftl.Lib.Buffer
import Zftl.Lib.Trace
import Zftl.Lib.Transactions
import Zftl.Lib.Views
import Zftl.Lib.Binary64
import Zftl.Lib.Counting
import Zftl.Lib.Lz4Format
import Zftl.Lib.CopyStream
import Zftl.Lib.Lz4Reading
import Zftl.Lib.Lz4Copies
import Zftl.Lib.GrayCode
import Zftl.Lib.BaseDelta
import Zftl.Lib.SelfLayout
import Zftl.Lib.SlotPool
import Zftl.Flash.FlashModel
import Zftl.Flash.NandArray
import Zftl.Flash.Endurance
import Zftl.Controller.Lz4Compressor
import Zftl.Controller.FtlController
import Zftl.Controller.Steps
import Zftl.Controller.IndexSafety
import Zftl.Controller.Collection
import Zftl.Controller.StaleCount
import Zftl.Controller.Leftover
import Zftl.Controller.WriteAmplification
import Zftl.Controller.ProgramFailure
import Zftl.Controller.Reserve
import Zftl.Controller.Placement
import Zftl.Controller.Validity
import Zftl.Controller.ReadYourWrites
import Zftl.Controller.SizeClasses
import Zftl.Controller.Tracking
import Zftl.Controller.Transparency
import Zftl.Controller.Wear
import Zftl.Controller.Telemetry
import Zftl.Rtl.Decompressor
import Zftl.Rtl.Bench
import Zftl.Rtl.Simulation
import Zftl.Rtl.BlockDecoding
import Zftl.Rtl.ErrorReport
import Zftl.Rtl.Isolation
import Zftl.Rtl.OutputBound
import Zftl.Rtl.Termination
import Zftl.Rtl.Throughput
import Zftl.Codec.Lz4Decompress
import Zftl.Codec.DecompressCopies
import Zftl.Codec.DecompressSteps
import Zftl.Codec.DecompressRun
import Zftl.Codec.Lz4Compress
import Zftl.Codec.CompressWrites
import Zftl.Codec.CompressSearch
import Zftl.Codec.CompressRun
import Zftl.Codec.RoundTrip
import Zftl.Codec.HardwareDecoding
import Zftl.Legacy.AsyncFifo
import Zftl.Legacy.FifoOrder
import Zftl.Legacy.BdiEngine
import Zftl.Legacy.SelfDescribing
import Zftl.Legacy.BdiRtl
import Zftl.Legacy.ReadBack
import Zftl.Legacy.DecoderAgreement
import Zftl.Legacy.LineTable
import Zftl.Legacy.LineStorage
import Zftl.Legacy.HyperRamController
import Zftl.Legacy.OffsetWidth
import Zftl.Legacy.StoreFailure
import Zftl.Legacy.FlatMemory
import Zftl.Legacy.LineAccount
import Zftl.Legacy.AxiTop
import Zftl.Legacy.AxiPort
import Zftl.Legacy.AxiWrites
import Zftl.Legacy.AxiReads
import Zftl.Legacy.AxiMemory
import Zftl.Legacy.AxiProgress
import Zftl.Legacy.TornWrites
import Zftl.Legacy.Capacity
