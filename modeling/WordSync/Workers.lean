/-!
# Workers

Several threads that start together and do the same job, each with its own number. A failure of
one does not stop the others, but the caller hears of the first of them.
-/

namespace WordSync

namespace Workers

/-- The name of a worker. -/
def name (i : Nat) : String := "worker-" ++ toString i

/-- Why a worker came to no result. -/
inductive Fault where
  /-- The worker was told to fail. -/
  | failed (i : Nat)
  /-- The result is too large. -/
  | overflow
  deriving DecidableEq

/-- What a worker says that was told to fail. -/
def Fault.message? : Fault → Option String
  | .failed i => some ("worker " ++ toString i ++ " failed")
  | .overflow => none

/-- Results are numbers below this limit. -/
def limit : Nat := 0x10000000000000000

/-- The job of telling one's name and the value of a line at one's number. The workers in
`failing` fail before they compute anything. -/
def valueAt (slope start : Nat) (failing : List Nat) (i : Nat) : Except Fault (String × Nat) :=
  if i ∈ failing then .error (.failed i)
  else if slope * i + start < limit then .ok (name i, slope * i + start)
  else .error .overflow

/-- Let `n` workers do a job. All of them end; their results come in the order of their numbers,
or else the failure of the first of them that failed. -/
def run {α ε : Type} (n : Nat) (job : Nat → Except ε α) : Except ε (List α) :=
  ((List.range n).map job).mapM id

end Workers

end WordSync
