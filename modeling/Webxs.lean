import Webxs.Interleaving
import Webxs.FileLock
import Webxs.PollSleep
import Webxs.Queue
import Webxs.QueueSafety
import Webxs.QueueWakeup
import Webxs.Write
import Webxs.WriteStream
import Webxs.Http
import Webxs.Frames
import Webxs.Read
import Webxs.Incremental
import Webxs.Scanning
import Webxs.Receive
import Webxs.Heads
import Webxs.ReadBounds
import Webxs.Calls
import Webxs.Reading
import Webxs.FrameHeader
import Webxs.Json
import Webxs.Preorder
import Webxs.JsonTokens
import Webxs.JsonText
import Webxs.JsonComplete
import Webxs.JsonLength
import Webxs.CanonicalHead
import Webxs.Unmask
import Webxs.PrintfBounds
import Webxs.PollPass
import Webxs.Percent
import Webxs.Base64
import Webxs.JsonStack
import Webxs.Uri
import Webxs.UriParts
import Webxs.KnownUrls
import Webxs.Accepting
import Webxs.Chunked
import Webxs.ChunkedOut
import Webxs.Swaps
import Webxs.Qsort
import Webxs.QsortSafety
import Webxs.QsortOrder
import Webxs.DirList
import Webxs.WebsocketStates
import Webxs.BinSearch
import Webxs.FramePayload
import Webxs.FileResponse
import Webxs.PollAdd
import Webxs.FileEntry
import Webxs.EntryLock
import Webxs.QueuePool
import Webxs.Reserving
import Webxs.LogBuffer
import Webxs.ReqObjects
import Webxs.Codec
import Webxs.Compress
import Webxs.CompressDrain
import Webxs.GzipHeader
import Webxs.GzipSkip
import Webxs.LexicalPath
import Webxs.Server
import Webxs.Authorization
import Webxs.PollEnds
import Webxs.HeadFraming
import Webxs.HeaderText
import Webxs.RequestText
import Webxs.KeepAlive
import Webxs.PercentText
import Webxs.TargetParts
import Webxs.LineEnds
import Webxs.Continuations
import Webxs.PathBuffer
import Webxs.RangeResponse
import Webxs.ChunkSize
import Webxs.CopyBounds
import Webxs.FileSend
import Webxs.UriBlock
import Webxs.Redirect
import Webxs.DecodeInPlace
import Webxs.EncodeEnds
import Webxs.Base64Accesses
import Webxs.JsonUnescape
import Webxs.PrintfRefused
import Webxs.PrintfIso
import Webxs.PrintfIntegers
import Webxs.PrintfCut
import Webxs.LogRecord
import Webxs.QueueFifo
import Webxs.StaleTokens
import Webxs.ArrList
import Webxs.BufMoves
import Webxs.Itoa
import Webxs.PlainReading
import Webxs.RequestStream
import Webxs.ChunkStream
import Webxs.OpenAddressing
import Webxs.Khash
import Webxs.KhashFlags
import Webxs.KhashResize
import Webxs.KhashRuns
import Webxs.FileTable
import Webxs.BlockStream
import Webxs.Sha1
import Webxs.Sha1Rounds
import Webxs.Sha1Stream
import Webxs.Handshake
import Webxs.CrcRegister
import Webxs.Crc32
import Webxs.GzipLoop
import Webxs.GzipWrite
import Webxs.GzipRead
import Webxs.MessageRead
import Webxs.MessageLink
import Webxs.Etag
import Webxs.RefCount
import Webxs.ConnLife
import Webxs.ConnLedger
import Webxs.ConnLifetime
import Webxs.Fetches
