import IpRipStack.Convergence
import IpRipStack.ExactRoutes
import IpRipStack.RouteLife
import IpRipStack.Forwarding
import IpRipStack.TableInvariant
import IpRipStack.CountToInfinity
import IpRipStack.MetricRange
import IpRipStack.TableSize
import IpRipStack.FrameEffects
import IpRipStack.FrameBounds
import IpRipStack.Emission
import IpRipStack.DataPackets
import IpRipStack.RecvData
import IpRipStack.Attribution
import IpRipStack.SendFrame
import IpRipStack.SenderProgress
import IpRipStack.Overlap
import IpRipStack.Serialisation
import IpRipStack.HeaderCorruption
import IpRipStack.Expiry
import IpRipStack.RouteMinimum
import IpRipStack.OneHop
import IpRipStack.Library.CScan
import IpRipStack.SendCmd
import IpRipStack.SendData
import IpRipStack.HandOff
import IpRipStack.TimerSignal
import IpRipStack.LosslessQueue
import IpRipStack.MessageQueue
import IpRipStack.SendLine
import IpRipStack.ParseLinks
import IpRipStack.ShownIds
import IpRipStack.OpenSockets
import IpRipStack.RegularFrame
import IpRipStack.Stacks
import IpRipStack.UserTraffic
import IpRipStack.GroundedRoutes
import IpRipStack.StackRouting
import IpRipStack.SteadyNetwork
import IpRipStack.Drain
import IpRipStack.Library.CText
import IpRipStack.Display
import IpRipStack.Console
import IpRipStack.Terminals
import IpRipStack.SenderRest
import IpRipStack.Hosts
import IpRipStack.HostsRest
import IpRipStack.Programs
import IpRipStack.Dissector
