import LinuxProgramming.Lts
import LinuxProgramming.Countdown
import LinuxProgramming.Callee
import LinuxProgramming.Tally
import LinuxProgramming.Tickets
import LinuxProgramming.Fifo
import LinuxProgramming.Line
import LinuxProgramming.TaggedLog
import LinuxProgramming.ForkJoin
import LinuxProgramming.XorFold
import LinuxProgramming.Records
import LinuxProgramming.Rotation
import LinuxProgramming.CallDepth
import LinuxProgramming.OrderedForest
import LinuxProgramming.Outline
import LinuxProgramming.KernelNames
import LinuxProgramming.Decimal
import LinuxProgramming.LeastIndex
import LinuxProgramming.PreorderWalk
import LinuxProgramming.HeapTree
import LinuxProgramming.RingQueue.Model
import LinuxProgramming.RingQueue.Invariant
import LinuxProgramming.RingQueue.Runs
import LinuxProgramming.RingQueue.Accounting
import LinuxProgramming.RingQueue.Order
import LinuxProgramming.RingQueue.Publication
import LinuxProgramming.RingQueue.SlotReuse
import LinuxProgramming.RingQueue.Refinement
import LinuxProgramming.RingQueue.Completion
import LinuxProgramming.RingQueue.Linearization
import LinuxProgramming.Items.WorkItem
import LinuxProgramming.Items.Uniqueness
import LinuxProgramming.Items.Text
import LinuxProgramming.Simulation.Names
import LinuxProgramming.Simulation.Itoa
import LinuxProgramming.Simulation.Arguments
import LinuxProgramming.SharedMemory.Delivery
import LinuxProgramming.SharedMemory.Attachment
import LinuxProgramming.SharedMemory.Line
import LinuxProgramming.SharedMemory.Processes
import LinuxProgramming.SharedMemory.Program
import LinuxProgramming.ClientServer.WorkItem
import LinuxProgramming.ClientServer.Reference
import LinuxProgramming.ClientServer.ErrorDetection
import LinuxProgramming.ClientServer.BoundaryBursts
import LinuxProgramming.ClientServer.Atoi
import LinuxProgramming.ClientServer.ItemNames
import LinuxProgramming.ClientServer.Model
import LinuxProgramming.ClientServer.Steps
import LinuxProgramming.ClientServer.Framing
import LinuxProgramming.ClientServer.Alone
import LinuxProgramming.ClientServer.Log
import LinuxProgramming.ClientServer.Progress
import LinuxProgramming.ClientServer.Draining
import LinuxProgramming.ThreadPool.Setup
import LinuxProgramming.ThreadPool.QueueAssignment
import LinuxProgramming.ThreadPool.Sizing
import LinuxProgramming.ThreadPool.Period
import LinuxProgramming.ThreadPool.Model
import LinuxProgramming.ThreadPool.Placement
import LinuxProgramming.ThreadPool.LeastJobs
import LinuxProgramming.ThreadPool.Answers
import LinuxProgramming.ThreadPool.RoundRobin
import LinuxProgramming.ThreadPool.Lifetime
import LinuxProgramming.ThreadPool.Workers
import LinuxProgramming.ThreadPool.Completion
import LinuxProgramming.ThreadPool.Teardown
import LinuxProgramming.MessageQueue.Lifecycle
import LinuxProgramming.MessageQueue.Delivery
import LinuxProgramming.MessageQueue.Isolation
import LinuxProgramming.MessageQueue.Runs
import LinuxProgramming.MessageQueue.Ending
import LinuxProgramming.MessageQueue.Line
import LinuxProgramming.CoreSimulation.Model
import LinuxProgramming.CoreSimulation.Lifecycle
import LinuxProgramming.CoreSimulation.Pipeline
import LinuxProgramming.CoreSimulation.Program
import LinuxProgramming.CoreSimulation.Ending
import LinuxProgramming.RandomTree.NodeLimit
import LinuxProgramming.RandomTree.Memory
import LinuxProgramming.PrintDir.Model
import LinuxProgramming.PrintDir.Restore
import LinuxProgramming.PrintDir.Termination
import LinuxProgramming.PrintDir.Traversal
import LinuxProgramming.PrintDir.Text
