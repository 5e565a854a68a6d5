import E2etest.Async.Interleave
import E2etest.Async.Prog
import E2etest.Async.Complete
import E2etest.Async.Actor
import E2etest.Async.Cell
import E2etest.Async.Timed
import E2etest.Os.Process
import E2etest.Text.Path
import E2etest.Refs.Collect
import E2etest.Services.Firewall
import E2etest.Services.Dns
import E2etest.Services.ScyllaProxyCluster
import E2etest.Services.ScyllaCluster
import E2etest.Services.Restart
import E2etest.Services.Up
import E2etest.Services.VectorStoreCluster
import E2etest.Services.VectorStoreNodes
import E2etest.Statistics
import E2etest.Tree
import E2etest.Macros
import E2etest.Filter
import E2etest.FilterSpec
import E2etest.Selection
import E2etest.FilterInvariant
import E2etest.Fixtures
import E2etest.Registry
import E2etest.Memory
import E2etest.Task
import E2etest.Run
import E2etest.State
import E2etest.System
import E2etest.Steps
import E2etest.Ownership
import E2etest.Manager
import E2etest.Sweep
import E2etest.Drive
import E2etest.Trace
import E2etest.Spans
import E2etest.Nesting
import E2etest.Included
import E2etest.RunWord
import E2etest.FilterLaws
import E2etest.Once
import E2etest.Timeouts
import E2etest.Asserts
import E2etest.FilterForms
import E2etest.Counts
import E2etest.Overlap
import E2etest.Protocol
import E2etest.Accounting
import E2etest.Charges
import E2etest.Stages
import E2etest.Holding
import E2etest.Lifetime
import E2etest.Settling
import E2etest.Residue
import E2etest.Leaks
import E2etest.Blame
import E2etest.Attribution
import E2etest.Schedules
import E2etest.Async.Ends
import E2etest.Ending
import E2etest.Async.Channel
import E2etest.Async.Turns
import E2etest.Services.Tls
import E2etest.Services.Clients
import E2etest.Services.Shared
import E2etest.Services.Restarts
import E2etest.Services.VectorStoreRestarts
import E2etest.Order
import E2etest.Verdict
import E2etest.Trees.Unfold
import E2etest.Registration
import E2etest.Hierarchy
import E2etest.Own
import E2etest.Params
import E2etest.Launches
