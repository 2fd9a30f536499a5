import WordSync.Cell.Access

/-!
# Updates of a shared cell

An update reads a cell, asks a function what to make of the value, and exchanges the value for
the function's answer. If the cell has changed in between, the exchange fails, and the update
asks again with the value that it found. The function may also decline, which ends the update,
or fail, which breaks it off.
-/

namespace WordSync.Cell

variable {α ε : Type}

/-- What an update asks about a value: the next value, a refusal, or a failure. -/
abbrev Rule (α ε : Type) := α → Except ε (Option α)

/-- Where an update stands. -/
inductive Update (α ε : Type) where
  /-- The value is yet to be read. -/
  | fetch
  /-- The rule has turned `seen` into `next`; the exchange comes next. -/
  | swap (seen next : α)
  /-- The update is over: with the old value if it has put a new one in its place, and with
  the value that the rule declined otherwise. -/
  | finished (result : Except α α)
  /-- The rule has failed. -/
  | failed (fault : ε)

namespace Update

/-- Ask the rule about a value. -/
def consider (rule : Rule α ε) (seen : α) : Update α ε :=
  match rule seen with
  | .error fault => .failed fault
  | .ok none => .finished (.error seen)
  | .ok (some next) => .swap seen next

variable [DecidableEq α] [Add α] [Sub α]

/-- One step of an update: an access to the cell, and what the rule makes of its answer. -/
def step (rule : Rule α ε) (spurious : Bool) : Update α ε → α → Option (Update α ε × α)
  | .fetch, value =>
    let (seen, value) := Access.load.perform spurious value
    some (consider rule seen, value)
  | .swap seen next, value =>
    match (Access.exchangeWeak seen next).perform spurious value with
    | (.ok old, value) => some (.finished (.ok old), value)
    | (.error actual, value) => some (consider rule actual, value)
  | .finished _, _ => none
  | .failed _, _ => none

/-- How an update went that other threads interfered with. -/
structure Outcome (α ε : Type) where
  /-- How it ended: nothing if it was still going on. -/
  result : Option (Except ε (Except α α))
  /-- The value that the cell holds afterwards. -/
  value : α
  /-- The values that the rule was asked about, in order. -/
  seen : List α

/-- Rounds of an update that has last seen `seen`. In each round the rule is asked while another
thread writes to the cell, if the list says so, and then the exchange is tried. -/
def rounds (rule : Rule α ε) : List (Option α) → α → α → Outcome α ε
  | [], _, value => ⟨none, value, []⟩
  | write :: later, seen, value =>
    let value := write.getD value
    match rule seen with
    | .error fault => ⟨some (.error fault), value, [seen]⟩
    | .ok none => ⟨some (.ok (.error seen)), value, [seen]⟩
    | .ok (some next) =>
      match (Access.exchangeWeak seen next).perform false value with
      | (.ok old, value) => ⟨some (.ok (.ok old)), value, [seen]⟩
      | (.error actual, value) =>
        let outcome := rounds rule later actual value
        ⟨outcome.result, outcome.value, seen :: outcome.seen⟩

/-- An update of a cell that holds `value`, while another thread makes the given writes, one
each time that the rule is asked, and none after the last of them. -/
def against (rule : Rule α ε) (writes : List (Option α)) (value : α) : Outcome α ε :=
  rounds rule (writes ++ [none]) value value

end Update

end WordSync.Cell
