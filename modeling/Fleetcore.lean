import Fleetcore.Lib.StateMachine
import Fleetcore.Lib.CallLoop
import Fleetcore.Lib.CheckedInt
import Fleetcore.Lib.ByteOrder
import Fleetcore.Lib.Framing
import Fleetcore.Lib.OrderedMap
import Fleetcore.Wire
import Fleetcore.Codec
import Fleetcore.StreamBuffer
import Fleetcore.TcpServer
import Fleetcore.TerminalMap
import Fleetcore.TableLock
import Fleetcore.Msgq
import Fleetcore.Process
import Fleetcore.ProcessLoops
import Fleetcore.Transfer
import Fleetcore.TimedReceive
import Fleetcore.HeaderFraming
import Fleetcore.Locator
import Fleetcore.Termd
import Fleetcore.TerminalLink
import Fleetcore.System
import Fleetcore.Receive
import Fleetcore.Downlink
import Fleetcore.Forwarding
import Fleetcore.Blocking
import Fleetcore.Upkeep
import Fleetcore.Sending
import Fleetcore.Isolation
import Fleetcore.Lib.CriticalSection
import Fleetcore.TableOpen
import Fleetcore.TableAccess
import Fleetcore.TableCrash
import Fleetcore.TableAtomic
import Fleetcore.Delivery
import Fleetcore.Connections
import Fleetcore.Draining
import Fleetcore.WholeFrames
import Fleetcore.Resolve
import Fleetcore.Identity
import Fleetcore.Restart
import Fleetcore.Acknowledgement
import Fleetcore.Lib.Links
import Fleetcore.Lib.Threads
import Fleetcore.SocketWorkers
import Fleetcore.Screens
import Fleetcore.Reception
import Fleetcore.Commands
import Fleetcore.ProcessRuns
import Fleetcore.Deployment
import Fleetcore.EndToEnd
import Fleetcore.RoundTrip
import Fleetcore.Lib.Crashes
import Fleetcore.ProcessCrash
