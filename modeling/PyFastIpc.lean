import PyFastIpc.Lib.Transition
import PyFastIpc.Lib.Threads
import PyFastIpc.Lib.Futex
import PyFastIpc.Lib.Lock
import PyFastIpc.Lib.Memory
import PyFastIpc.Lib.Ring
import PyFastIpc.Lib.CInt
import PyFastIpc.Lib.Clients
import PyFastIpc.Lib.Log
import PyFastIpc.Mutex.Model
import PyFastIpc.Mutex.Steps
import PyFastIpc.Mutex.Exclusion
import PyFastIpc.Mutex.Owner
import PyFastIpc.Mutex.Wakeup
import PyFastIpc.Mutex.Crash
import PyFastIpc.Mutex.Blocking
import PyFastIpc.Mutex.Search
import PyFastIpc.Mutex.Named
import PyFastIpc.Mutex.Construction
import PyFastIpc.Mutex.Alone
import PyFastIpc.Mutex.Calls
import PyFastIpc.Mutex.Workers
import PyFastIpc.Mutex.Progress
import PyFastIpc.Semaphore.Model
import PyFastIpc.Semaphore.Steps
import PyFastIpc.Semaphore.Tokens
import PyFastIpc.Semaphore.Wakeup
import PyFastIpc.Semaphore.Clients
import PyFastIpc.Semaphore.Served
import PyFastIpc.Semaphore.Pool
import PyFastIpc.Semaphore.Alone
import PyFastIpc.Semaphore.Post
import PyFastIpc.Semaphore.Named
import PyFastIpc.Semaphore.Construction
import PyFastIpc.Atomic.Words
import PyFastIpc.Atomic.Counter
import PyFastIpc.Event.Model
import PyFastIpc.Event.Steps
import PyFastIpc.Event.Wakeup
import PyFastIpc.Event.Wait
import PyFastIpc.Event.Clients
import PyFastIpc.Event.Gate
import PyFastIpc.Event.Construction
import PyFastIpc.Shm.Fs
import PyFastIpc.Shm.Machine
import PyFastIpc.Shm.Steps
import PyFastIpc.Shm.Held
import PyFastIpc.Shm.Race
import PyFastIpc.Shm.Returns
import PyFastIpc.Shm.Closing
import PyFastIpc.Shm.Handles
import PyFastIpc.Shm.Solo
import PyFastIpc.Shm.WaitFree
import PyFastIpc.Shm.Sharing
import PyFastIpc.Shm.LastClose
import PyFastIpc.Shm.Failure
import PyFastIpc.Shm.Recovery
import PyFastIpc.History.Layout
import PyFastIpc.History.Buffer
import PyFastIpc.History.Ring
import PyFastIpc.History.Meta
import PyFastIpc.History.Machine
import PyFastIpc.History.Steps
import PyFastIpc.History.Slots
import PyFastIpc.History.Order
import PyFastIpc.History.Solo
import PyFastIpc.History.Interrupted
import PyFastIpc.History.Publishers
import PyFastIpc.History.Reader
import PyFastIpc.History.Fresh
import PyFastIpc.History.Creation
import PyFastIpc.History.Stores
import PyFastIpc.History.Attach
import PyFastIpc.History.Attached
import PyFastIpc.Lib.Nest
import PyFastIpc.Lib.Slices
import PyFastIpc.Lib.Text
import PyFastIpc.Lib.Strided
import PyFastIpc.NpTree.Array
import PyFastIpc.NpTree.Model
import PyFastIpc.NpTree.Layout
import PyFastIpc.NpTree.Offsets
import PyFastIpc.NpTree.Store
import PyFastIpc.NpTree.RoundTrip
import PyFastIpc.NpTree.Mismatch
import PyFastIpc.NpTree.Agreement
import PyFastIpc.NpTree.Reuse
