import MapReduce.Accounting
import MapReduce.Aof.Cleanup
import MapReduce.Aof.Corruption
import MapReduce.Aof.JobBuffer
import MapReduce.Aof.Language
import MapReduce.Aof.Load
import MapReduce.Aof.Recovery
import MapReduce.Aof.Reencoding
import MapReduce.Aof.RoundTrip
import MapReduce.Aof.Write
import MapReduce.Attempts
import MapReduce.Bookkeeping
import MapReduce.Boot
import MapReduce.Cluster
import MapReduce.Codecs
import MapReduce.Config.Applied
import MapReduce.Config.Load
import MapReduce.Crc64
import MapReduce.Deployment
import MapReduce.Durability
import MapReduce.Effects
import MapReduce.Finishing
import MapReduce.History
import MapReduce.Invariant
import MapReduce.Job
import MapReduce.Lib.BigEndian
import MapReduce.Lib.Decimal
import MapReduce.Lib.Fields
import MapReduce.Lib.Framing
import MapReduce.Lib.Groups
import MapReduce.Lib.Interference
import MapReduce.Lib.Ownership
import MapReduce.Lib.Program
import MapReduce.Lib.Refinement
import MapReduce.Lib.Runs
import MapReduce.Lib.Table
import MapReduce.Lib.TableCrc
import MapReduce.Lib.Usage
import MapReduce.Lib.Words
import MapReduce.Master
import MapReduce.Protocol
import MapReduce.Responses
import MapReduce.Restarts
import MapReduce.Rpc
import MapReduce.Safety
import MapReduce.Scheduling
import MapReduce.Server.Answers
import MapReduce.Server.Application
import MapReduce.Server.Callbacks
import MapReduce.Server.Client
import MapReduce.Server.Connections
import MapReduce.Server.EventLoop
import MapReduce.Server.Interest
import MapReduce.Server.Reassembly
import MapReduce.Server.Steps
import MapReduce.Server.Stream
import MapReduce.Server.Timeouts
import MapReduce.Server.Tracked
import MapReduce.Slots
import MapReduce.Sweeps
import MapReduce.System
import MapReduce.System.Processes
import MapReduce.Task
import MapReduce.Untimed
import MapReduce.Wire
import MapReduce.Wire.Line
import MapReduce.Wire.Outcomes
import MapReduce.Worker.Connection
import MapReduce.Worker.FoldCalls
import MapReduce.Worker.JobFiles
import MapReduce.Worker.Map
import MapReduce.Worker.MapAttempts
import MapReduce.Worker.Process
import MapReduce.Worker.Publication
import MapReduce.Worker.RecordList
import MapReduce.Worker.Reduce
import MapReduce.Worker.ReduceAttempts
import MapReduce.Worker.ReduceMemory
import MapReduce.Worker.SharedDisk
import MapReduce.Worker.Stdio
import MapReduce.Worker.Streams
import MapReduce.Worker.Tokens
import MapReduce.Worker.WordCount
