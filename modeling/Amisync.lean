import Amisync.Announce
import Amisync.Authorship
import Amisync.Backlog
import Amisync.Charset
import Amisync.ConfigFolders
import Amisync.ConfigPeers
import Amisync.ConfigReload
import Amisync.ConfigSave
import Amisync.ConflictName
import Amisync.Connection
import Amisync.Converge
import Amisync.Deferred
import Amisync.DeviceCodec
import Amisync.Discovery
import Amisync.FrameEnd
import Amisync.Globs
import Amisync.Hashing
import Amisync.Identity
import Amisync.Incarnation
import Amisync.IndexBody
import Amisync.IndexFile
import Amisync.IndexReject
import Amisync.IndexSize
import Amisync.IndexWire
import Amisync.Inflight
import Amisync.ListenerRun
import Amisync.Messages
import Amisync.Mirror
import Amisync.Neighbours
import Amisync.Offered
import Amisync.PbufWriter
import Amisync.PeerRun
import Amisync.Reorder
import Amisync.Retime
import Amisync.Rules
import Amisync.ScannerLoop
import Amisync.Sequences
import Amisync.Serve
import Amisync.Sharing
import Amisync.Spill
import Amisync.Stream
import Amisync.Transfer
import Amisync.WantQueue
import Amisync.Wants
import Amisync.Watches
