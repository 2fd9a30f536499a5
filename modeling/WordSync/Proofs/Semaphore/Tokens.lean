import WordSync.Proofs.Semaphore.History
import WordSync.Proofs.Semaphore.Visits
import WordSync.Semaphore.Solo

/-!
# A plain number of tokens

For a thread that has a semaphore to itself, the semaphore should be nothing but a number of
tokens. A call takes what it wants as far as there is any, a signal adds its tokens, and nothing
else changes the number. There is one reason to go to the kernel: a call that wants tokens, finds
none and has some patience waits there until its patience is over. A call without end to its
patience must not be made where it would wait, as nobody is left who could wake the thread.
-/

namespace WordSync.Semaphore

namespace Call

/-- The tokens that a call takes of those there are. -/
def taking (call : Call) (tokens : Nat) : Nat :=
  match call with
  | .attempt demand => min demand.bound tokens
  | .acquire demand _ => min demand.bound tokens
  | .signal _ => 0

/-- The tokens that there are after a call. -/
def leaves (call : Call) (tokens : Nat) : Nat :=
  match call with
  | .signal count => tokens + count
  | call => tokens - call.taking tokens

/-- The requests that a call makes to the kernel, none of which is granted. -/
def asks (call : Call) (tokens : Nat) : List Kernel.Request :=
  match call with
  | .acquire demand (.within timeout) =>
    if tokens = 0 ∧ demand.wanted then [.timedWait timeout] else []
  | _ => []

/-- A thread that is alone may make a call: it does not wait for ever where there are no tokens,
and it signals some tokens, but not more than the count can hold. -/
def Fair (call : Call) (tokens : Nat) : Prop :=
  match call with
  | .acquire demand .forever => demand.wanted → 0 < tokens
  | .signal count => 0 < count ∧ tokens + count ≤ Count.limit
  | _ => True

/-- What happens in a call, from its beginning to its answer. -/
def story (call : Call) (tokens : Nat) : List Event :=
  .called call :: (call.asks tokens).map (.asked · false) ++
    [.returned (call.answer (call.taking tokens))]

variable {call : Call} {tokens : Nat}

/-- What a call takes is gone afterwards. -/
theorem leaves_attempt (demand : Demand) (tokens : Nat) :
    (attempt demand).leaves tokens = tokens - min demand.bound tokens := rfl

/-- What a call takes is gone afterwards. -/
theorem leaves_acquire (demand : Demand) (patience : Patience) (tokens : Nat) :
    (acquire demand patience).leaves tokens = tokens - min demand.bound tokens := rfl

/-- A call that may be made leaves no more tokens than the count can hold. -/
theorem Fair.leaves_le (hfair : call.Fair tokens) (hlimit : tokens ≤ Count.limit) :
    call.leaves tokens ≤ Count.limit := by
  cases call with
  | attempt demand =>
    rw [leaves_attempt]
    omega
  | acquire demand patience =>
    rw [leaves_acquire]
    omega
  | signal count => exact hfair.2

end Call

/-! ## Calls one after the other -/

/-- The tokens that there are after some calls. -/
def tally : List Call → Nat → Nat
  | [], tokens => tokens
  | call :: rest, tokens => tally rest (call.leaves tokens)

/-- What happens in some calls that are made one after the other. -/
def story : List Call → Nat → List Event
  | [], _ => []
  | call :: rest, tokens => call.story tokens ++ story rest (call.leaves tokens)

/-- A thread that is alone may make some calls one after the other. -/
def Fair : List Call → Nat → Prop
  | [], _ => True
  | call :: rest, tokens => call.Fair tokens ∧ Fair rest (call.leaves tokens)

/-- The tokens after some calls and some more. -/
theorem tally_append (made rest : List Call) (tokens : Nat) :
    tally (made ++ rest) tokens = tally rest (tally made tokens) := by
  induction made generalizing tokens with
  | nil => rfl
  | cons call made ih => exact ih (call.leaves tokens)

/-- What happens in some calls and some more. -/
theorem story_append (made rest : List Call) (tokens : Nat) :
    story (made ++ rest) tokens = story made tokens ++ story rest (tally made tokens) := by
  induction made generalizing tokens with
  | nil => rfl
  | cons call made ih =>
    simp only [List.cons_append, story, tally, ih, List.append_assoc]

/-- After calls that may be made, the others may be made. -/
theorem Fair.of_append {made rest : List Call} {tokens : Nat} (h : Fair (made ++ rest) tokens) :
    Fair rest (tally made tokens) := by
  induction made generalizing tokens with
  | nil => exact h
  | cons call made ih => exact ih h.2

/-- Calls that may be made never leave more tokens than the count can hold. -/
theorem Fair.tally_le {made rest : List Call} {tokens : Nat} (h : Fair (made ++ rest) tokens)
    (hlimit : tokens ≤ Count.limit) : tally made tokens ≤ Count.limit := by
  induction made generalizing tokens with
  | nil => exact hlimit
  | cons call made ih => exact ih h.2 (h.1.leaves_le hlimit)

end WordSync.Semaphore
