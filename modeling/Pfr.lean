import Pfr.MainLoop
import Pfr.Records
import Pfr.NullSafe
import Pfr.History
import Pfr.PeerTable
import Pfr.RibMirror
import Pfr.Withdraws
import Pfr.SilentPath
import Pfr.BestPath
import Pfr.Handshake
import Pfr.Lib.Bytes
import Pfr.Packet
import Pfr.Customer
import Pfr.DstList
import Pfr.Removals
import Pfr.CutOff
import Pfr.Hysteresis
import Pfr.ScanSql
import Pfr.DbThread
import Pfr.DottedKeys
import Pfr.Aggregate
import Pfr.Samples
import Pfr.Deviation
import Pfr.Lib.Cidr
import Pfr.Lib.Dotted
import Pfr.PrefixHit
import Pfr.Localnets
import Pfr.FlowList
import Pfr.Lib.Strtok
import Pfr.Segment
import Pfr.Echo
import Pfr.Cksum
import Pfr.Community
import Pfr.Lib.Sql
import Pfr.SqlText
import Pfr.ConfFile
import Pfr.Lib.Slide
import Pfr.Telemetry
import Pfr.Lib.Iter
import Pfr.Walks
import Pfr.Paths
import Pfr.Probing
import Pfr.Requests
import Pfr.Measures
import Pfr.Backed
import Pfr.Ratchet
import Pfr.Lib.Arena
import Pfr.Objects
import Pfr.Owned
import Pfr.NoDangling
import Pfr.Suppress
import Pfr.Strays
import Pfr.Asbrs
