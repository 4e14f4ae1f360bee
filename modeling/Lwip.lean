import Lwip.Verif.DhcpLease
import Lwip.Verif.Etharp
import Lwip.Verif.InetChksum
import Lwip.Verif.Ip6Frag
import Lwip.Verif.Lowpan6
import Lwip.Verif.MdnsDomain
import Lwip.Verif.MemRun
import Lwip.Verif.MqttAccess
import Lwip.Verif.MqttOut
import Lwip.Verif.PcbLists
import Lwip.Verif.Pppos
import Lwip.Verif.ReassShape
import Lwip.Verif.Slipif
import Lwip.Verif.Snmp
import Lwip.Verif.SysMbox
import Lwip.Verif.TcpAcked
import Lwip.Verif.TcpAnnounce
import Lwip.Verif.TcpOosOrder
import Lwip.Verif.TcpOpt
import Lwip.Verif.TcpRto
import Lwip.Verif.TcpStream
import Lwip.Verif.TcpWriteMem
import Lwip.Verif.TimeoutClock
