import DistributedAscii.Lib.ByteFile
import DistributedAscii.Lib.Pointers
import DistributedAscii.FileSystem.Reading
import DistributedAscii.FileSystem.Failure
import DistributedAscii.FileSystem.Sharing
import DistributedAscii.FileSystem.Endings
import DistributedAscii.FileSystem.Exhaustion
import DistributedAscii.FileSystem.Success
import DistributedAscii.FileSystem.LastSlot
import DistributedAscii.FileSystem.FullDirectory
import DistributedAscii.FileSystem.Restart
import DistributedAscii.Server.Returns
import DistributedAscii.Server.LostFiles
import DistributedAscii.Server.Deregistration
import DistributedAscii.Server.Routing
import DistributedAscii.Server.Monitor
import DistributedAscii.Server.Discovery
import DistributedAscii.Server.Registration
import DistributedAscii.Server.Relay
import DistributedAscii.Server.HttpRequests
import DistributedAscii.Server.IntegratedServer
import DistributedAscii.Server.Translation
import DistributedAscii.Server.Sending
import DistributedAscii.Server.Receiving
import DistributedAscii.Server.RequestLine
import DistributedAscii.Server.Survival
import DistributedAscii.Server.Grammar
import DistributedAscii.Server.Service
import DistributedAscii.Simulation.SharedMemory
import DistributedAscii.Simulation.Adapter
import DistributedAscii.Simulation.Framing
import DistributedAscii.Simulation.RequestGrammar
import DistributedAscii.Simulation.ColabProtocolHandler
import DistributedAscii.Simulation.Handoff
import DistributedAscii.Simulation.Progress
import DistributedAscii.Simulation.Delivery
import DistributedAscii.Simulation.Answers
import DistributedAscii.Simulation.Listing
import DistributedAscii.Simulation.MessageQueue
import DistributedAscii.NachOS.Frames
import DistributedAscii.NachOS.Zeroing
import DistributedAscii.NachOS.ForkedStack
import DistributedAscii.NachOS.OutOfPages
import DistributedAscii.NachOS.OpenFilesTable
import DistributedAscii.NachOS.TableUsers
import DistributedAscii.NachOS.Balance
import DistributedAscii.NachOS.FileCalls
import DistributedAscii.NachOS.SocketHandles
import DistributedAscii.NachOS.Counting
import DistributedAscii.NachOS.Waiting
import DistributedAscii.NachOS.Barrier
import DistributedAscii.NachOS.Dinner
import DistributedAscii.NachOS.Filesys.Refinement
import DistributedAscii.NachOS.Processes
import DistributedAscii.Lib.Linear
import DistributedAscii.NachOS.Awake
import DistributedAscii.NachOS.Clients
import DistributedAscii.NachOS.Driver
import DistributedAscii.NachOS.Filesys.SynchDisk
import DistributedAscii.NachOS.Network.Packet
import DistributedAscii.NachOS.Network.PostOffice
import DistributedAscii.NachOS.SynchList
