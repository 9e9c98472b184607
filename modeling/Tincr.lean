import Tincr.Cmd.InviteJoin
import Tincr.Cmd.Sign
import Tincr.Conf.EditRead
import Tincr.Conf.Pem
import Tincr.Event.Timers
import Tincr.Gossip.Flood
import Tincr.Gossip.Leases
import Tincr.Gossip.Reports
import Tincr.Graph.Direct
import Tincr.Graph.Forward
import Tincr.Graph.Relay
import Tincr.Net.AddrCache
import Tincr.Net.Autoconnect
import Tincr.Net.Batching
import Tincr.Net.DnsFrame
import Tincr.Net.FastReceive
import Tincr.Net.Limits
import Tincr.Net.MtuMirror
import Tincr.Net.Ttl
import Tincr.Packet.Fragment
import Tincr.Packet.GroSplit
import Tincr.Packet.MssChecksum
import Tincr.Packet.TsoFault
import Tincr.Sptps.FastOpen
import Tincr.Sptps.Fragments
import Tincr.Sptps.Pair
import Tincr.Sptps.Rejected
import Tincr.Sptps.ReplayReference
