import SprayCC.Collections.Heap
import SprayCC.Async.Partial
import SprayCC.Async.Relay
import SprayCC.Async.Runs
import SprayCC.Async.Safe
import SprayCC.Async.Trace
import SprayCC.Ipc.Framing
import SprayCC.Ipc.Isolation
import SprayCC.Ipc.RoundTrip
import SprayCC.HistoryFile
import SprayCC.Merging
import SprayCC.ContactFile
import SprayCC.ContactLookup
import SprayCC.Discovery
import SprayCC.PrivateKey
import SprayCC.Server.Handlers
import SprayCC.Server.Remotes
import SprayCC.Server.Connection
import SprayCC.Server.Invariant
import SprayCC.Server.Staff
import SprayCC.Server.Spawning
import SprayCC.Server.Making
import SprayCC.Server.Figures
import SprayCC.Server.Queue
import SprayCC.Client
import SprayCC.CommandLine
import SprayCC.Exec.Redirection
import SprayCC.Exec.Run
import SprayCC.Exec.Streams
import SprayCC.Exec.Results
import SprayCC.Outputs
import SprayCC.Cluster.Basic
import SprayCC.Cluster.Turns
import SprayCC.Cluster.Assignment
import SprayCC.Cluster.Wire
import SprayCC.Cluster.Refinement
import SprayCC.Cluster.Work
import SprayCC.Cluster.Delivery
import SprayCC.Cluster.Jobs
import SprayCC.Cluster.Strangers
import SprayCC.Cluster.Jams
import SprayCC.Cluster.Attachment
import SprayCC.Cluster.Theorems.Survival
import SprayCC.Cluster.Theorems.Reception
import SprayCC.Cluster.Theorems.Records
import SprayCC.Cluster.Theorems.Placement
import SprayCC.Cluster.Theorems.Shutdown
import SprayCC.Cluster.Theorems.Delivery
import SprayCC.Cluster.Theorems.Outsiders
import SprayCC.Cluster.Theorems.Deadlock
import SprayCC.Cluster.Theorems.Scheduling
import SprayCC.Cluster.Theorems.Protocol
import SprayCC.Cluster.Theorems.Accounting
import SprayCC.Cluster.Theorems.Staffing
import SprayCC.Cluster.Theorems.Sizing
import SprayCC.Cluster.Theorems.Rejection
import SprayCC.Cluster.Theorems.Priorities
import SprayCC.Cluster.Theorems.Reports
import SprayCC.Cluster.Theorems.Submission
import SprayCC.Process.Basic
import SprayCC.Process.Exec
import SprayCC.Process.Client
import SprayCC.Process.Exit
import SprayCC.Process.Rest
import SprayCC.Process.Panics
import SprayCC.Process.Peers
import SprayCC.Cluster.Listening
import SprayCC.Cluster.Waiting
import SprayCC.Cluster.Manners
import SprayCC.Farm.Basic
import SprayCC.Farm.Finish
import SprayCC.Farm.Matching
import SprayCC.Farm.Refinement
import SprayCC.Farm.Replies
import SprayCC.Farm.Simulation
import SprayCC.Farm.Theorems.Answers
import SprayCC.Farm.Theorems.Once
import SprayCC.Farm.Theorems.Panics
import SprayCC.Farm.Theorems.Quitting
import SprayCC.Farm.Theorems.Transparency
import SprayCC.Farm.Theorems.Waiting
