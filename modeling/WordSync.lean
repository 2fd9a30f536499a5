import WordSync.Benaphore
import WordSync.Cell.Thread
import WordSync.Field.Command
import WordSync.Field.Declaration
import WordSync.Kernel.Condvar
import WordSync.Kernel.Counter
import WordSync.Kernel.Posix
import WordSync.Polling
import WordSync.Proofs.Semaphore.Conservation
import WordSync.Semaphore.Exercise
import WordSync.Semaphore.Rehearsal
import WordSync.Workers
import WordSync.Proofs.Semaphore.Waiters
import WordSync.Proofs.Field.Layout
import WordSync.Proofs.Field.Slice
import WordSync.Proofs.Field.Arithmetic
import WordSync.Proofs.Field.Isolation
import WordSync.Proofs.Cell.Linearity
import WordSync.Proofs.Semaphore.Spinning
import WordSync.Proofs.Semaphore.Trading
import WordSync.Proofs.Field.Schedules
import WordSync.Proofs.Field.Safety
import WordSync.Proofs.Field.Record
import WordSync.Proofs.Field.Aliasing
import WordSync.Proofs.Semaphore.Alone
import WordSync.Proofs.Semaphore.Episodes
import WordSync.Proofs.Semaphore.Refusals
import WordSync.Proofs.Semaphore.Withdrawal
import WordSync.Kernel.Clients
import WordSync.Proofs.Kernel.Condvar
import WordSync.Proofs.Kernel.Wakeups
import WordSync.Proofs.Benaphore.Exclusion
import WordSync.Proofs.Benaphore.Counting
import WordSync.Proofs.Semaphore.Interludes
import WordSync.Proofs.Semaphore.Removals
import WordSync.Proofs.Semaphore.Batches
import WordSync.Proofs.Semaphore.Signals
import WordSync.Proofs.Semaphore.Tales
import WordSync.Proofs.Field.Refusal
import WordSync.Proofs.Field.Unmasked
import WordSync.Proofs.Field.Commuting
import WordSync.Proofs.Semaphore.Additivity
import WordSync.Proofs.Field.Modular
import WordSync.Proofs.Field.Tiling
import WordSync.Proofs.Cell.Interference
import WordSync.Proofs.Field.Enumeration
import WordSync.Kernel.Usage
import WordSync.Proofs.Kernel.Deadline
import WordSync.Proofs.Kernel.Backends
import WordSync.Proofs.Semaphore.Posting
import WordSync.Proofs.Field.Display
