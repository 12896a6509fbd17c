import Stacklets.LazyFork.SeedStack
import Stacklets.Lib.Runs
import Stacklets.LazyFork.Runtime
import Stacklets.LazyFork.Phase
import Stacklets.LazyFork.Invariant
import Stacklets.LazyFork.Local
import Stacklets.LazyFork.Steps
import Stacklets.LazyFork.Calls
import Stacklets.LazyFork.Forks
import Stacklets.LazyFork.Correctness
import Stacklets.Uli.Machine
import Stacklets.Uli.Invariant
import Stacklets.Uli.Cores
import Stacklets.Uli.Places
import Stacklets.Uli.Steps
import Stacklets.Uli.Correctness
import Stacklets.Uli.Live
import Stacklets.Lib.Token
import Stacklets.Mythreads.Sbuf
import Stacklets.Mythreads.Counters
import Stacklets.Mythreads.Fifo
import Stacklets.Mythreads.Pool
import Stacklets.Mythreads.Idle
import Stacklets.Mythreads.Shutdown
import Stacklets.Gem5.Delivery
import Stacklets.Gem5.Isolation
import Stacklets.SingleCore.Join
import Stacklets.Messages.Delivery
import Stacklets.LazyYield.Correctness
import Stacklets.Steal.Requests
import Stacklets.Steal.Work
import Stacklets.SingleCore.Semaphore
import Stacklets.SingleCore.ThreadList
import Stacklets.Messages.Masking
import Stacklets.Gem5.Return
import Stacklets.Gem5.Trigger
import Stacklets.Gem5.Checkpoint
import Stacklets.Mythreads.Wrapped
import Stacklets.Mythreads.Lifetime
import Stacklets.LazyYield.StubBase
import Stacklets.SeedJoin.Correctness
import Stacklets.LazyFork.SeedCalls
import Stacklets.LazyFork.StubAddress
import Stacklets.Messages.Contents
import Stacklets.MsgPool.Sharing
import Stacklets.Util.Array
import Stacklets.LazyFork.Main
import Stacklets.Steal.Alone
import Stacklets.Uli.Counter
import Stacklets.Messages.Sections
import Stacklets.SingleCore.Dispatch
import Stacklets.M5threads.Barrier
