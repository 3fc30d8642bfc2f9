import Cmpth.Core.System
import Cmpth.Sync.DualMutex
import Cmpth.Sync.Exclusion
import Cmpth.Scoped.Engine
import Cmpth.Scoped.Frames
import Cmpth.Waker.Protocol
import Cmpth.Waker.Ownership
import Cmpth.Join.Protocol
import Cmpth.Waker.Reuse
import Cmpth.Join.Settle
import Cmpth.Join.Exit
import Cmpth.Pool.FreeList
import Cmpth.Pool.Recursion
import Cmpth.Core.Count
import Cmpth.Idle.Counters
import Cmpth.Idle.Looking
import Cmpth.Idle.Park
import Cmpth.Idle.Cover
import Cmpth.Idle.Search
import Cmpth.Idle.Baton
import Cmpth.Core.Chain
import Cmpth.Pool.Return
import Cmpth.Core.Places
import Cmpth.Pool.Conserve
import Cmpth.Pool.Drop
import Cmpth.Delegate.LockQueue
import Cmpth.Delegate.Mcs
import Cmpth.Delegate.Leak
import Cmpth.Delegate.Ring
import Cmpth.Delegate.RingRep
import Cmpth.Delegate.Agree
import Cmpth.Duty.Plan
import Cmpth.Duty.Keeper
import Cmpth.Duty.Sleep
import Cmpth.Post.Listed
import Cmpth.Post.Ledger
import Cmpth.Post.Serve
import Cmpth.Post.Scan
import Cmpth.Post.Contract
import Cmpth.Delegate.Calls
import Cmpth.Delegate.Combining
import Cmpth.Delegate.Combined
import Cmpth.Duty.Timely
import Cmpth.Scoped.Async
import Cmpth.Scoped.Branch
import Cmpth.Scoped.Deadlock
import Cmpth.Scoped.Invoke
import Cmpth.Scoped.Release
import Cmpth.Waker.BlockOn
import Cmpth.Waker.Nested
import Cmpth.Waker.Pollers
import Cmpth.Join.Joiner
import Cmpth.Fork.Held
import Cmpth.Fork.Once
import Cmpth.Join.Dangling
import Cmpth.Fork.Driven
import Cmpth.Fork.Polled
import Cmpth.Worker.Nested
import Cmpth.Worker.OsTls
import Cmpth.Sync.Handoff
import Cmpth.Sync.McsContract
import Cmpth.Worker.Marker
import Cmpth.Slot.Delivery
import Cmpth.Sync.Barrier
import Cmpth.Sync.Cancel
import Cmpth.Sync.Slots
import Cmpth.Core.Align
import Cmpth.Core.Wrap
import Cmpth.Fork.RunAsync
import Cmpth.Idle.Shutdown
import Cmpth.Join.Reads
import Cmpth.Pool.Instances
import Cmpth.Queue.Flagged
import Cmpth.Queue.Hybrid
import Cmpth.Queue.Poller
import Cmpth.Queue.Sweep
import Cmpth.Queue.Thieves
import Cmpth.Scoped.AsyncLatch
import Cmpth.Stack.Placement
import Cmpth.Duty.Backoff
import Cmpth.Join.Awaited
import Cmpth.Pool.Blocks
import Cmpth.Post.Deadline
import Cmpth.Stack.AsyncFrame
import Cmpth.Worker.Homecoming
import Cmpth.Worker.Yielding
import Cmpth.Delegate.Delegated
import Cmpth.Delegate.Relayed
import Cmpth.Delegate.OsDelegated
