import WordSync.Field.Row

/-!
# The elements of a row

`Elements` walks over a row. It holds its own copy of the word, so that later changes of the
word do not show, and the index of the element that comes next.
-/

namespace WordSync.Field

/-- A walk over the elements of a row. -/
structure Elements (w : Nat) where
  /-- The row that is walked over. -/
  row : Row
  /-- The word as it was when the walk began. -/
  packed : BitVec w
  /-- The index of the next element. -/
  next : Nat
  deriving DecidableEq

/-- A walk that starts at the first element. -/
def Row.elements {w : Nat} (r : Row) (packed : BitVec w) : Elements w := ⟨r, packed, 0⟩

namespace Elements

variable {w : Nat}

/-- How many elements are still to come. -/
def remaining (walk : Elements w) : Nat := walk.row.count - walk.next

/-- Bounds on the number of elements still to come; both are exact. -/
def sizeHint (walk : Elements w) : Nat × Option Nat := (walk.remaining, some walk.remaining)

/-- The next element, if there is one, and the walk behind it. -/
def advance (walk : Elements w) : Except Fault (Option (BitVec w) × Elements w) :=
  if walk.row.count ≤ walk.next then .ok (none, walk)
  else do
    let value ← walk.row.get walk.next walk.packed
    return (some value, ⟨walk.row, walk.packed, walk.next + 1⟩)

/-- The answers of the next `n` requests for an element, and the walk behind them. -/
def advanceMany (walk : Elements w) : Nat →
    Except Fault (List (Option (BitVec w)) × Elements w)
  | 0 => .ok ([], walk)
  | n + 1 => do
    let (first, walk) ← walk.advance
    let (rest, walk) ← walk.advanceMany n
    return (first :: rest, walk)

/-- All elements still to come. The walk itself stays where it is. -/
def rest (walk : Elements w) : Except Fault (List (BitVec w)) := do
  let (answers, _) ← walk.advanceMany walk.remaining
  return answers.filterMap id

/-- The text of a walk: the elements still to come. -/
def text (walk : Elements w) : Except Fault String := do
  let values ← walk.rest
  return Text.list (values.map fun v => toString v.toNat)

end Elements

/-- All elements of a row in order. -/
def Row.values {w : Nat} (r : Row) (packed : BitVec w) : Except Fault (List (BitVec w)) :=
  (r.elements packed).rest

end WordSync.Field
