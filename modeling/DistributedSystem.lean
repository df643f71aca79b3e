import DistributedSystem.Library.Machine
import DistributedSystem.Library.Process
import DistributedSystem.Library.Search
import DistributedSystem.Library.BeforeImage
import DistributedSystem.Library.Causality
import DistributedSystem.Library.Stream
import DistributedSystem.Library.Codec
import DistributedSystem.Library.CString
import DistributedSystem.Library.Decimal
import DistributedSystem.Transaction.Message
import DistributedSystem.Transaction.VectorClock
import DistributedSystem.Transaction.WorkerLog
import DistributedSystem.Transaction.Worker
import DistributedSystem.Transaction.ManagerState
import DistributedSystem.Transaction.Manager
import DistributedSystem.Transaction.ManagerEffects
import DistributedSystem.Transaction.TableMap
import DistributedSystem.Transaction.Decision
import DistributedSystem.Transaction.DecisionSteps
import DistributedSystem.Transaction.Irrevocable
import DistributedSystem.Transaction.WorkerEffects
import DistributedSystem.Transaction.System
import DistributedSystem.Transaction.Participants
import DistributedSystem.Transaction.Agreement
import DistributedSystem.Transaction.Addressing
import DistributedSystem.Transaction.Validity
import DistributedSystem.Transaction.Restore
import DistributedSystem.Transaction.WorkerSteps
import DistributedSystem.Transaction.Rollback
import DistributedSystem.Transaction.Durability
import DistributedSystem.Transaction.Isolation
import DistributedSystem.Transaction.FailedJoin
import DistributedSystem.Transaction.SavedClock
import DistributedSystem.Transaction.Routing
import DistributedSystem.Transaction.ObjectClock
import DistributedSystem.Transaction.Uncertain
import DistributedSystem.Transaction.VoteLaw
import DistributedSystem.Library.Symmetry
import DistributedSystem.Transaction.ManagerRenaming
import DistributedSystem.Transaction.WorkerRenaming
import DistributedSystem.Transaction.ManagerReuse
import DistributedSystem.Transaction.WorkerReuse
import DistributedSystem.Transaction.TidReuse
import DistributedSystem.Transaction.Registration
import DistributedSystem.Transaction.VoteTimeout
import DistributedSystem.Transaction.Tally
import DistributedSystem.Transaction.VoteOrder
import DistributedSystem.Transaction.Joining
import DistributedSystem.Transaction.ClockMap
import DistributedSystem.Transaction.ClockMerge
import DistributedSystem.Transaction.Trace
import DistributedSystem.Transaction.ClockDiscipline
import DistributedSystem.Transaction.Causality
import DistributedSystem.Transaction.WriteAhead
import DistributedSystem.Transaction.Termination
import DistributedSystem.Transaction.Starvation
import DistributedSystem.Transaction.Completion
import DistributedSystem.Transaction.Kinds
import DistributedSystem.Transaction.Bounds
import DistributedSystem.Bully.Node
import DistributedSystem.Bully.Election
import DistributedSystem.Bully.Sends
import DistributedSystem.Bully.Declaration
import DistributedSystem.Bully.Conclusion
import DistributedSystem.Bully.ElectionIds
import DistributedSystem.Bully.Following
import DistributedSystem.Bully.Suspicion
import DistributedSystem.Bully.Group
import DistributedSystem.Bully.Thread
import DistributedSystem.Bully.Slots
import DistributedSystem.Bully.Alignment
import DistributedSystem.Bully.Causality
import DistributedSystem.Bully.Divisors
import DistributedSystem.Bully.Convergence
import DistributedSystem.Bully.GroupFile
import DistributedSystem.MpiBully.Node
import DistributedSystem.MpiBully.System
import DistributedSystem.MpiBully.Order
import DistributedSystem.MpiBully.Clock
import DistributedSystem.MpiBully.Memory
import DistributedSystem.MpiBully.Runs
import DistributedSystem.MpiBully.Declaration
import DistributedSystem.MpiBully.Suspicion
import DistributedSystem.MpiBully.Patience
import DistributedSystem.MpiBully.Divisors
import DistributedSystem.MpiBully.Convergence
import DistributedSystem.MpiBully.Takeover
import DistributedSystem.Divisors
import DistributedSystem.CommandServer.Server
import DistributedSystem.CommandServer.Scanner
import DistributedSystem.CommandServer.Requests
import DistributedSystem.CommandServer.Events
import DistributedSystem.CommandServer.Pending
import DistributedSystem.CommandServer.Replies
import DistributedSystem.CommandServer.Consumption
import DistributedSystem.CommandServer.Clients
import DistributedSystem.WireFormats
import DistributedSystem.Cmd
import DistributedSystem.ShiViz.VectorTime
import DistributedSystem.ShiViz.Buffers
import DistributedSystem.LogFiles.Layout
import DistributedSystem.LogFiles.Worker
import DistributedSystem.LogFiles.Manager
import DistributedSystem.ShiViz.LogFile
import DistributedSystem.ShiViz.Reconstruction
import DistributedSystem.WireSystem
import DistributedSystem.Bully.WireGroup
