import SystemProgramming.SavvyScheduler.Statistics
import SystemProgramming.SavvyScheduler.RoundRobin
import SystemProgramming.SavvyScheduler.ShortestFirst
import SystemProgramming.IdealIndirection.Deletion
import SystemProgramming.IdealIndirection.Permissions
import SystemProgramming.IdealIndirection.TlbCache
import SystemProgramming.DeadlockDemolition.Tester
import SystemProgramming.DeadlockDemolition.GlobalLock
import SystemProgramming.ParallelMake.BuildOrder
import SystemProgramming.ParallelMake.FailurePropagation
import SystemProgramming.ParallelMake.NoStall
import SystemProgramming.ParallelMake.Searches
import SystemProgramming.FindingFilesystems.Failures
import SystemProgramming.FindingFilesystems.FileTypes
import SystemProgramming.FindingFilesystems.VirtualRead
import SystemProgramming.CriticalConcurrency.NoStuckWaiter
import SystemProgramming.CriticalConcurrency.SemamoreClients
import SystemProgramming.CriticalConcurrency.BarrierRounds
import SystemProgramming.CriticalConcurrency.QueueTest
import SystemProgramming.CriticalConcurrency.Rendezvous
import SystemProgramming.MiniMemcheck.Release
import SystemProgramming.NonstopNetworking.RoundTrip
import SystemProgramming.NonstopNetworking.Serial
import SystemProgramming.NonstopNetworking.RequestHeader
import SystemProgramming.NonstopNetworking.HeaderBuffer
import SystemProgramming.NonstopNetworking.PutIntegrity
import SystemProgramming.NonstopNetworking.Listing
import SystemProgramming.Sockets.Transfers
import SystemProgramming.CharmingChatroom.Broadcast
import SystemProgramming.TeachingThreads.ParReduce
import SystemProgramming.PasswordCracker.Summary
import SystemProgramming.PasswordCracker.Completion
import SystemProgramming.Vector.Ownership
import SystemProgramming.Vector.Values
import SystemProgramming.Sstring.Extraction
import SystemProgramming.Sstring.Splitting
import SystemProgramming.Sstring.Substitution
import SystemProgramming.Sstring.Histories
import SystemProgramming.ExtremeEdgeCases.CamelCaser
import SystemProgramming.DeepfriedDd.Reports
import SystemProgramming.MadMadAccessPatterns.SafeLookups
import SystemProgramming.UtilitiesUnleashed.Command
import SystemProgramming.Shell.Logical
import SystemProgramming.Shell.Indexing
import SystemProgramming.Shell.Redirections
import SystemProgramming.Shell.Calls
import SystemProgramming.Shell.HistoryFile
import SystemProgramming.Mapreduce.Dataflow
import SystemProgramming.Malloc.Consistency
import SystemProgramming.Malloc.Contents
import SystemProgramming.Malloc.Splitting
import SystemProgramming.Shell.ProcessTable
