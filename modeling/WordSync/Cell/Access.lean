/-!
# Accesses to a shared cell

A cell holds one value that several threads share. An access is what one indivisible
instruction does with it: read, write, exchange under a condition, or add and subtract. The
weak form of the exchange may fail although the cell holds the expected value; whether it does
is decided from outside.
-/

namespace WordSync.Cell

/-- What one instruction does with a cell. -/
inductive Access (α : Type) where
  /-- Read the value. -/
  | load
  /-- Write a value. -/
  | store (value : α)
  /-- Write `next` if the cell holds `current`. -/
  | exchange (current next : α)
  /-- Write `next` if the cell holds `current`, or fail without a reason. -/
  | exchangeWeak (current next : α)
  /-- Add to the value. -/
  | fetchAdd (amount : α)
  /-- Subtract from the value. -/
  | fetchSub (amount : α)
  deriving DecidableEq

/-- What an access answers. An exchange answers the value that it found, as a success or as a
failure; adding and subtracting answer the value before. -/
abbrev Access.Reply {α : Type} : Access α → Type
  | .load => α
  | .store _ => Unit
  | .exchange _ _ => Except α α
  | .exchangeWeak _ _ => Except α α
  | .fetchAdd _ => α
  | .fetchSub _ => α

variable {α : Type} [DecidableEq α] [Add α] [Sub α]

/-- Carry out an access: its answer and the value that the cell holds afterwards. With
`spurious`, a weak exchange fails whatever the cell holds. -/
def Access.perform (spurious : Bool) : (access : Access α) → α → access.Reply × α
  | .load, value => (value, value)
  | .store new, _ => ((), new)
  | .exchange current next, value =>
    if value = current then (.ok value, next) else (.error value, value)
  | .exchangeWeak current next, value =>
    if spurious = false ∧ value = current then (.ok value, next) else (.error value, value)
  | .fetchAdd amount, value => (value, value + amount)
  | .fetchSub amount, value => (value, value - amount)

end WordSync.Cell
