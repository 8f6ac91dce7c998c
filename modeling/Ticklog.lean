import Ticklog.Lib.Machine
import Ticklog.Lib.Word
import Ticklog.Lib.Bytes
import Ticklog.Lib.Utf8
import Ticklog.Lib.Digits
import Ticklog.Lib.Calendar
import Ticklog.Lib.Framing
import Ticklog.Lib.ByteFifo
import Ticklog.Lib.Bump
import Ticklog.Record
import Ticklog.Drain.Cursor
import Ticklog.Ring.Basic
import Ticklog.Ring.Spsc
import Ticklog.Ring.Layout
import Ticklog.Ring.SpscInv
import Ticklog.Ring.SpscSteps
import Ticklog.Ring.SpscDrain
import Ticklog.Ring.SpscSafe
import Ticklog.Ring.Handoff
import Ticklog.Ring.Block
import Ticklog.Ring.TailCache
import Ticklog.Ring.FailedReserve
import Ticklog.Ring.Watermark
import Ticklog.Ring.Resync
import Ticklog.Pool.Wakeup
import Ticklog.System.Ring
import Ticklog.System.State
import Ticklog.System.Producer
import Ticklog.System.DrainLoop
import Ticklog.System.Machine
import Ticklog.System.Frame
import Ticklog.System.DrainMoves
import Ticklog.System.Guard
import Ticklog.System.Holders
import Ticklog.System.Ownership
import Ticklog.System.Flush
import Ticklog.System.Plain
import Ticklog.System.Delivery
import Ticklog.System.Retire
import Ticklog.System.Custody
import Ticklog.System.Returns
import Ticklog.System.Reclaim
import Ticklog.Lib.Lists
import Ticklog.System.Numbering
import Ticklog.System.Conservation
import Ticklog.System.Late
import Ticklog.System.Teardown
import Ticklog.System.Owners
import Ticklog.System.Intact
import Ticklog.System.Formatters
import Ticklog.System.Backlog
import Ticklog.System.Account
import Ticklog.System.Ledger
import Ticklog.System.Settle
import Ticklog.System.Once
import Ticklog.System.Circulation
import Ticklog.System.Recycling
import Ticklog.System.Registry
import Ticklog.System.Classic
import Ticklog.System.Shutdown
import Ticklog.System.Segments
import Ticklog.System.Reconcile
import Ticklog.System.Walk
import Ticklog.System.Turns
import Ticklog.System.InOrder
import Ticklog.Level
import Ticklog.Sink.Tree
import Ticklog.Sink.Delivery
import Ticklog.Sink.InMemory
import Ticklog.Codec.FormatSpec
import Ticklog.Codec.Grammar
import Ticklog.Codec.Format
import Ticklog.Codec.Encode
import Ticklog.Codec.Decode
import Ticklog.Drain.Fifo
import Ticklog.Codec.Assemble
import Ticklog.Codec.RoundTrip
import Ticklog.Drain.Streams
import Ticklog.Rtrb.Backend
import Ticklog.Rtrb.Conserve
import Ticklog.Rtrb.Chunks
import Ticklog.Rtrb.SelfBlock
import Ticklog.Rtrb.Exit
import Ticklog.Codec.Macro
import Ticklog.Codec.SpecParts
import Ticklog.Codec.Agree
import Ticklog.Codec.Timestamp
import Ticklog.Codec.Civil
import Ticklog.Codec.CivilRange
import Ticklog.Codec.Iso8601
import Ticklog.Codec.Template
import Ticklog.Codec.Payload
import Ticklog.Codec.SpecGrammar
import Ticklog.Codec.PatternSlices
import Ticklog.Codec.PatternGrammar
import Ticklog.Codec.Text
import Ticklog.Codec.Numbers
import Ticklog.Codec.Width
import Ticklog.Codec.Robust
import Ticklog.Drain.Modes
import Ticklog.Arena.Regions
import Ticklog.Arena.Machine
import Ticklog.Arena.Carving
import Ticklog.Arena.Segments
import Ticklog.System.RingBytes
import Ticklog.Lib.Channel
import Ticklog.Lib.Queues
import Ticklog.Backends.Delivery
import Ticklog.Backends.Ringbuf
import Ticklog.Backends.Ringbuffer
import Ticklog.Backends.TripleBuffer
import Ticklog.Lib.Fair
import Ticklog.System.Rounds
import Ticklog.Lib.Possible
import Ticklog.System.Assist
import Ticklog.System.Comeback
import Ticklog.System.Conserved
import Ticklog.System.Served
import Ticklog.System.Unblocked
import Ticklog.Pipeline.Call
import Ticklog.Pipeline.Machine
import Ticklog.Pipeline.Feed
import Ticklog.Pipeline.Lines
import Ticklog.System.Naming
import Ticklog.System.Names
import Ticklog.Lib.Boundary
import Ticklog.Startup.Machine
import Ticklog.Startup.Moves
import Ticklog.Startup.Calls
import Ticklog.Startup.Rings
import Ticklog.Startup.Started
import Ticklog.Lib.Write
import Ticklog.Sink.Output
import Ticklog.Sink.Written
