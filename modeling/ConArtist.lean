import ConArtist.Foundation.ByteMemory
import ConArtist.Foundation.Run
import ConArtist.Foundation.Binary64
import ConArtist.Foundation.RingBuffer
import ConArtist.Foundation.CondVar
import ConArtist.Foundation.Framing
import ConArtist.Foundation.Directory
import ConArtist.Foundation.CString
import ConArtist.Foundation.Ledger
import ConArtist.Foundation.Linked
import ConArtist.Foundation.SharedWait
import ConArtist.Foundation.BinarySearch
import ConArtist.Foundation.KeyedTable
import ConArtist.Foundation.GrowingArray
import ConArtist.Foundation.Stock
import ConArtist.Stream.Header
import ConArtist.Stream.Writers
import ConArtist.Stream.Append
import ConArtist.Stream.Space
import ConArtist.Stream.Layout
import ConArtist.Stream.Index
import ConArtist.Stream.Variable
import ConArtist.Stream.SpaceTest
import ConArtist.Stream.Times
import ConArtist.Stream.Manager
import ConArtist.Stream.Opened
import ConArtist.Stream.SortedView
import ConArtist.Stream.Scanning
import ConArtist.Stream.Files
import ConArtist.Stream.Reading
import ConArtist.Registry.Model
import ConArtist.Registry.Shard
import ConArtist.Registry.Table
import ConArtist.Registry.Refinement
import ConArtist.Registry.Overflow
import ConArtist.Registry.Owners
import ConArtist.Registry.Memory
import ConArtist.Plugins.Registry
import ConArtist.Plugins.Refinement
import ConArtist.Plugins.Handles
import ConArtist.Plugins.Watching
import ConArtist.UserTypes.Table
import ConArtist.UserTypes.FromString
import ConArtist.UserTypes.Names
import ConArtist.GeekOpen.Parser
import ConArtist.GeekOpen.Spans
import ConArtist.GeekOpen.Termination
import ConArtist.GeekOpen.Lexer
import ConArtist.GeekOpen.Grammar
import ConArtist.GeekOpen.Stream
import ConArtist.GeekOpen.Mac
import ConArtist.GeekOpen.Switches
import ConArtist.GeekOpen.Stack
import ConArtist.GeekOpen.Connection
import ConArtist.GeekOpen.Display
import ConArtist.GeekOpen.Reader
import ConArtist.Sensor.Decoder
import ConArtist.Sensor.Bounds
import ConArtist.Sensor.Readings
import ConArtist.Sensor.Packing
import ConArtist.Sensor.Devices
import ConArtist.Sensor.Labels
import ConArtist.Decoder.ImagePacket
import ConArtist.Decoder.ImageBounds
import ConArtist.Decoder.ImageBlocks
import ConArtist.Pool.Handles
import ConArtist.Pool.Connections
import ConArtist.Pool.Packets
import ConArtist.Job.Manager
import ConArtist.Job.Flow
import ConArtist.Job.Simulation
import ConArtist.Job.Conservation
import ConArtist.Job.Payload
import ConArtist.Job.Steps
import ConArtist.Job.Standing
import ConArtist.Job.Load
import ConArtist.Job.Channels
import ConArtist.Job.Waiting
import ConArtist.Job.LeftBehind
import ConArtist.Job.Starving
import ConArtist.Job.Jamming
import ConArtist.Job.Shutdown
import ConArtist.Job.Draining
import ConArtist.Job.Dropping
import ConArtist.Job.Finishing
import ConArtist.Job.Scheduling
import ConArtist.Job.Order
import ConArtist.Job.Overtaking
import ConArtist.Channel.Model
import ConArtist.Channel.Queue
import ConArtist.Channel.Wakeups
import ConArtist.StreamRequest.Model
import ConArtist.StreamRequest.Submission
import ConArtist.StreamRequest.Partition
import ConArtist.StreamRequest.Search
import ConArtist.StreamRequest.Mappings
import ConArtist.StreamRequest.Jobs
import ConArtist.StreamRequest.Reload
import ConArtist.StreamRequest.Resubmission
import ConArtist.StreamRequest.Collecting
import ConArtist.StreamRequest.Created
import ConArtist.StreamRequest.Naming
import ConArtist.StreamRequest.Capacity
import ConArtist.StreamRequest.Tables
import ConArtist.StreamRequest.Paths
import ConArtist.StreamRequest.Handles
import ConArtist.StreamThread.Responses
import ConArtist.StreamThread.Known
import ConArtist.StreamThread.Answers
import ConArtist.StreamThread.Capacity
import ConArtist.Server.Receive
import ConArtist.Server.Segmentation
import ConArtist.Server.Splitting
import ConArtist.Server.Loop
import ConArtist.Server.Slots
import ConArtist.Server.Closing
import ConArtist.Server.Opening
import ConArtist.Server.Handling
import ConArtist.Server.Creating
import ConArtist.Server.Leftover
import ConArtist.Server.Descriptors
import ConArtist.Server.PeerClose
import ConArtist.Server.TableInvariant
import ConArtist.Server.Batch
import ConArtist.Server.Callbacks
import ConArtist.Server.Following
import ConArtist.Server.Balance
import ConArtist.Server.Tracking
import ConArtist.Server.Reentrance
import ConArtist.Server.Bounds
