import WordSync.Text

/-!
# Errors of system calls

A system call that fails leaves an error number. Five of the numbers matter to a semaphore and
have names of their own; all others are kept as they are, so that no number is lost.
-/

namespace WordSync.Kernel

/-- Why a system call failed. -/
inductive SysError where
  /-- A signal arrived during the call. -/
  | interrupted
  /-- The call would have had to wait. -/
  | wouldBlock
  /-- The time of the call was over. -/
  | timedOut
  /-- An argument of the call was not valid. -/
  | invalidArgument
  /-- The value would have become too large. -/
  | overflow
  /-- Any other reason, by its number. -/
  | other (errno : Int)
  deriving DecidableEq

namespace SysError

/-- The number of an error. -/
def errno : SysError → Int
  | .interrupted => 4
  | .wouldBlock => 11
  | .timedOut => 110
  | .invalidArgument => 22
  | .overflow => 75
  | .other errno => errno

/-- The error of a number. -/
def ofErrno (errno : Int) : SysError :=
  if errno = 4 then .interrupted
  else if errno = 11 then .wouldBlock
  else if errno = 110 then .timedOut
  else if errno = 22 then .invalidArgument
  else if errno = 75 then .overflow
  else .other errno

/-- The number of the error of a number is that number. -/
theorem errno_ofErrno (n : Int) : (ofErrno n).errno = n := by
  unfold ofErrno
  repeat' split
  all_goals simp_all [errno]

/-- What an error means, in words. -/
def message : SysError → String
  | .interrupted => "interrupted system call"
  | .wouldBlock => "resource temporarily unavailable"
  | .timedOut => "timed out"
  | .invalidArgument => "invalid argument"
  | .overflow => "value too large"
  | .other errno => "errno " ++ toString errno

/-- The name of an error. -/
def name : SysError → String
  | .interrupted => "Interrupted"
  | .wouldBlock => "WouldBlock"
  | .timedOut => "TimedOut"
  | .invalidArgument => "InvalidArgument"
  | .overflow => "Overflow"
  | .other errno => Text.wrapped "Other" (toString errno)

/-- The outcome of a system call that answers with an error number, where zero means success. -/
def check (errno : Int) : Except SysError Unit :=
  if errno = 0 then .ok () else .error (ofErrno errno)

end SysError

end WordSync.Kernel
