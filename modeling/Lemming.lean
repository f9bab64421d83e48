import Lemming.Acl.Encoding
import Lemming.Acl.Rejection
import Lemming.Action.Simulation
import Lemming.ActionTable.Contents
import Lemming.Bgp.Naming
import Lemming.Bgp.Task
import Lemming.Bgp.Tracker
import Lemming.Dplanerc.Gue
import Lemming.Exact.AgingRuns
import Lemming.Exact.FiniteMap
import Lemming.Flow.Refinement
import Lemming.Flow.Truth
import Lemming.Forwarding.Ratelimit
import Lemming.Forwarding.Select
import Lemming.Fwdcontext.Notify
import Lemming.Gnmi.Atomicity
import Lemming.Gnoi.Reboot
import Lemming.Object.Lifetime
import Lemming.PacketIo.Manager
import Lemming.Pathz.Probing
import Lemming.Ports.Flood
import Lemming.Prefix.Density
import Lemming.Prefix.Masks
import Lemming.Protocol.Addressing
import Lemming.Protocol.PacketKeys
import Lemming.Protocol.Tagging
import Lemming.Protocol.TimeToLive
import Lemming.Sai.RouteInverse
import Lemming.Sysrib.Gue
import Lemming.Sysrib.Keyed
import Lemming.Gnmi.Subscribe
import Lemming.Sai.Counters
import Lemming.Sai.Tunnel
import Lemming.Util.Hash
