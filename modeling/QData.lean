import QData.Lib.Pieces
import QData.ObjectCodec
import QData.BlockRoundtrip
import QData.WriterPipeline
import QData.CompressionFailure
import QData.ReaderSafety
import QData.Exits
import QData.Truncation
import QData.WritePaths
import QData.Checksums
import QData.ReaderLimits
import QData.StringRecords
import QData.Lib.Spans
import QData.AttributeSpans
import QData.StringStorage
import QData.BlockBuffer
import QData.Lib.Faults
import QData.ReaderMemory
import QData.Nesting
import QData.StringHeaders
import QData.MemoryWriter
import QData.StringSlabs
import QData.Lib.Ledger
import QData.WriterBuffers
import QData.ReaderBuffers
import QData.Lib.Pacing
import QData.ReaderWork
import QData.Lib.Stripes
import QData.Xxh3
import QData.Xxh3Streaming
import QData.HashEnv
import QData.Lib.Lanes
import QData.BloscRoutines
import QData.Xxh3Vectors
import QData.BlockCodec
import QData.FileRoundtrip
import QData.FormatGrammar
import QData.AcceptedBytes
import QData.ShortestForm
import QData.InterruptedSave
import QData.Lib.Systems
import QData.ReaderLiveness
import QData.Lib.Streams
import QData.FileStreams
import QData.ObjectGraph
import QData.PayloadPointers
import QData.FailingDevice
import QData.AcceptedFiles
