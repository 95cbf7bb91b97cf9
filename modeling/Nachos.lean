import Nachos.Foundations.Loop
import Nachos.Foundations.Run
import Nachos.Threads.Places
import Nachos.Threads.Placement
import Nachos.Threads.SemaphoreCount
import Nachos.UserProg.BitMap
import Nachos.UserProg.Allocation
import Nachos.Foundations.Except
import Nachos.Foundations.Partition
import Nachos.Machine.Memory
import Nachos.UserProg.AddrSpace
import Nachos.UserProg.FrameOwnership
import Nachos.UserProg.SegmentLoading
import Nachos.UserProg.LoadIsolation
import Nachos.UserProg.LoadOverrun
import Nachos.Foundations.LinkedList
import Nachos.UserProg.ProcessList
import Nachos.UserProg.ProcessHistory
import Nachos.Threads.Tasks
import Nachos.Foundations.WaitGraph
import Nachos.Threads.Balance
import Nachos.Threads.DinPhilBusyWait
import Nachos.Threads.DinPhilDeadlock
import Nachos.Threads.MailBoxBounds
import Nachos.Threads.PostOfficeDeadlock
import Nachos.FileSys.Consistency
import Nachos.Foundations.Computation
import Nachos.Machine.MipsSim
import Nachos.UserProg.UserException
import Nachos.UserProg.FitPolicies
import Nachos.UserProg.Ledger
import Nachos.UserProg.SegmentContents
import Nachos.Threads.Reclaim
import Nachos.FileSys.FileContents
import Nachos.Foundations.SortedQueue
import Nachos.Machine.InstructionFaults
import Nachos.Machine.Interrupt
import Nachos.Machine.InterruptOrder
import Nachos.Foundations.LossyChannel
import Nachos.Network.Delivery
import Nachos.UserProg.Bookkeeping
import Nachos.UserProg.ExecResult
import Nachos.UserProg.JoinWaits
import Nachos.Machine.Confinement
import Nachos.Threads.Switches
import Nachos.UserProg.ContextSwitch
import Nachos.FileSys.CreateFile
import Nachos.FileSys.DirectoryNames
import Nachos.Machine.Arithmetic
import Nachos.UserProg.ExecName
import Nachos.UserProg.ReadCall
import Nachos.UserProg.SyscallReturn
import Nachos.Foundations.DoubleWord
import Nachos.Machine.Multiplication
import Nachos.Machine.RegisterWrites
import Nachos.Bin.Coff
import Nachos.Bin.Coff2Noff
import Nachos.Foundations.Decimal
import Nachos.Machine.DelayedLoads
import Nachos.Machine.PreciseExceptions
import Nachos.Threads.CheckType
import Nachos.Threads.PostOfficeAttempts
import Nachos.FileSys.TransferLengths
import Nachos.Foundations.SinglyLinked
import Nachos.Machine.ConsoleTest
import Nachos.Machine.DiskLatency
import Nachos.Threads.ElementList
import Nachos.UserProg.BitMapSet
import Nachos.Machine.RegisterArray
import Nachos.UserProg.RegisterRefinement
import Nachos.FileSys.FsTest
import Nachos.FileSys.SynchDisk
import Nachos.Threads.Scheduling
import Nachos.Threads.Resumption
import Nachos.Bin.ProgramImage
import Nachos.Foundations.Relational
import Nachos.Machine.UserLevel
import Nachos.Machine.Relocation
import Nachos.UserProg.PlacementIndependence
import Nachos.Machine.InterruptDelay
import Nachos.Machine.Timer
import Nachos.UserProg.Transparency
import Nachos.Network.MailTest
import Nachos.Network.MailAgreement
import Nachos.Network.MailProgress
