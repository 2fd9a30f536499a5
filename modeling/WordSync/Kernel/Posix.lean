import WordSync.Kernel.Basic
import WordSync.Kernel.Deadline

/-!
# Semaphores of the system

The semaphore that the operating system offers. It is used through system calls that answer
with an error number: a call that was interrupted is made again, an unavailable token and an
expired wait are answers, and every other error is fatal. Tokens are put in one at a time, so
that a signal of many is interrupted by nothing but may stop half-way at the limit.
-/

namespace WordSync.Kernel.Posix

/-- The largest value of a system semaphore. -/
def limit : Nat := 2147483647

/-- Arguments of system calls are numbers below this limit. -/
def argumentLimit : Nat := 0x100000000

/-- A system call on a semaphore. -/
inductive SysCall where
  /-- Take a token, sleeping until there is one. -/
  | wait
  /-- Take a token if there is one. -/
  | tryWait
  /-- Take a token, sleeping until a given time. -/
  | timedWait (deadline : Timespec)
  /-- Put one token in. -/
  | post
  deriving DecidableEq

/-- The name of a system call. -/
def SysCall.name : SysCall → String
  | .wait => "sem_wait"
  | .tryWait => "sem_trywait"
  | .timedWait _ => "sem_timedwait"
  | .post => "sem_post"

/-- The error number that a system call answers, zero for success, and the value of the
semaphore afterwards; nothing while the caller sleeps. -/
def SysCall.perform (c : Circumstance) : SysCall → Nat → Option (Int × Nat)
  | .wait, value =>
    if c.chance = .mishap then some (SysError.interrupted.errno, value)
    else match value with
      | 0 => none
      | value + 1 => some (0, value)
  | .tryWait, value =>
    if c.chance = .mishap then some (SysError.interrupted.errno, value)
    else match value with
      | 0 => some (SysError.wouldBlock.errno, 0)
      | value + 1 => some (0, value)
  | .timedWait deadline, value =>
    if ¬ deadline.Normalized then some (SysError.invalidArgument.errno, value)
    else match c.chance, value with
      | .mishap, value => some (SysError.interrupted.errno, value)
      | .expire, value => some (SysError.timedOut.errno, value)
      | .regular, 0 => none
      | .regular, value + 1 => some (0, value)
  | .post, value =>
    if value < limit then some (0, value + 1) else some (SysError.overflow.errno, value)

/-- The stages of a request. -/
inductive Stage where
  /-- A wait, however often it is interrupted. -/
  | waiting
  /-- An attempt to take a token. -/
  | trying
  /-- A timed wait whose deadline is yet to be computed. -/
  | timing (timeout : Duration)
  /-- A timed wait with its deadline. -/
  | waitingUntil (deadline : Timespec)
  /-- Tokens that are still to be put in. -/
  | posting (left : Nat)
  deriving DecidableEq

/-- Make a system call, and let `next` say what follows from its outcome. -/
def Stage.make (c : Circumstance) (call : SysCall) (value : Nat)
    (next : Except SysError Unit → Progress Stage) : Option (Progress Stage × Nat) :=
  match call.perform c value with
  | none => none
  | some (errno, value) => some (next (SysError.check errno), value)

/-- One step of a request. -/
def Stage.step (c : Circumstance) (stage : Stage) (value : Nat) :
    Option (Progress Stage × Nat) :=
  match stage with
  | .waiting =>
    Stage.make c .wait value fun
      | .ok () => .answered true
      | .error .interrupted => .working .waiting
      | .error error => .broken (.fatal SysCall.wait.name error)
  | .trying =>
    Stage.make c .tryWait value fun
      | .ok () => .answered true
      | .error .interrupted => .working .trying
      | .error .wouldBlock => .answered false
      | .error error => .broken (.fatal SysCall.tryWait.name error)
  | .timing timeout =>
    match Deadline.ofTimeout c.clock timeout with
    | none => some (.broken .overflow, value)
    | some deadline => some (.working (.waitingUntil deadline), value)
  | .waitingUntil deadline =>
    Stage.make c (.timedWait deadline) value fun
      | .ok () => .answered true
      | .error .interrupted => .working (.waitingUntil deadline)
      | .error .timedOut => .answered false
      | .error error => .broken (.fatal (SysCall.timedWait deadline).name error)
  | .posting 0 => some (.answered true, value)
  | .posting (left + 1) =>
    Stage.make c .post value fun
      | .ok () => .working (.posting left)
      | .error error => .broken (.fatal SysCall.post.name error)

/-- The first stage of a request. -/
def Stage.ofRequest : Request → Stage
  | .wait => .waiting
  | .tryWait => .trying
  | .timedWait timeout => .timing timeout
  | .signal count => .posting count

/-- A new semaphore. A number that is no argument of a system call is refused before the call is
made, and one above the limit by the call. -/
def create (initial : Nat) : Except Fault Nat :=
  if argumentLimit ≤ initial then .error (.fatal "sem_init" .invalidArgument)
  else if limit < initial then
    .error (.fatal "sem_init" (.ofErrno SysError.invalidArgument.errno))
  else .ok initial

/-- The semaphore of the system as a kernel semaphore. -/
def kernel : Kernel Nat Stage where
  create := create
  start := Stage.ofRequest
  step c _ stage value := stage.step c value

/-- The text of a system semaphore, which shows nothing of its state. -/
def text : String := Text.openRecord "PosixSemaphore" []

end WordSync.Kernel.Posix
