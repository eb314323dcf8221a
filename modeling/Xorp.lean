import Xorp.RefTrie.Loop
import Xorp.Rib.Redist
import Xorp.Bgp.Deletion
import Xorp.Bgp.Aggregation
import Xorp.Bgp.PeerHandler
import Xorp.Bgp.FanoutRun
import Xorp.Bgp.DecisionRun
import Xorp.Libproto.SptCompute
import Xorp.Ospf.RemoveArea
import Xorp.Ospf.PacketBounds
import Xorp.Bgp.UpdateRules
import Xorp.Vrrp.Ownership
import Xorp.Pim.RpSelection
import Xorp.Rip.UpdateLog
import Xorp.Rip.CountedRules
import Xorp.Rip.AuthReplay
import Xorp.Rip.PacketQueue
import Xorp.Policy.FilterOrder
import Xorp.Policy.Subroutine
import Xorp.Mld6igmp.Routing
import Xorp.Net.IPNetText
import Xorp.RefTrie.EraseKey
import Xorp.Rib.ReplaceRoute
import Xorp.Bgp.DampingMerit
import Xorp.Ospf.UpdatePackets
