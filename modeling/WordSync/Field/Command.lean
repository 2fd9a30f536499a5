import WordSync.Field.Query

/-!
# Commands on packed words

The six ways to change a field, as data, so that lists of changes can be run, reordered and
compared. A command is such a change, a change of the word as one number, or a query. A
`Revision` is what an atomic update is given to do with the word that it finds: leave it alone
under some condition, or else run a list of commands on it.
-/

namespace WordSync.Field

/-- The ways to change a field. -/
inductive Mutator where
  /-- Store a value that fits. -/
  | set
  /-- Store the low bits of a value. -/
  | setWrapped
  /-- Add without leaving the field. -/
  | add
  /-- Add modulo the size of the field. -/
  | addWrapped
  /-- Subtract without leaving the field. -/
  | sub
  /-- Subtract modulo the size of the field. -/
  | subWrapped
  deriving DecidableEq

variable {w : Nat}

/-- Change a member. -/
def Member.apply (m : Member) : Mutator → BitVec w → Edit w Unit
  | .set => m.set
  | .setWrapped => m.setWrapped
  | .add => m.add
  | .addWrapped => m.addWrapped
  | .sub => m.sub
  | .subWrapped => m.subWrapped

/-- Change an element of a row. -/
def Row.apply (r : Row) (i : Nat) : Mutator → BitVec w → Edit w Unit
  | .set => r.set i
  | .setWrapped => r.setWrapped i
  | .add => r.add i
  | .addWrapped => r.addWrapped i
  | .sub => r.sub i
  | .subWrapped => r.subWrapped i

/-- Change a field. -/
def Target.apply (target : Target) (op : Mutator) (v : BitVec w) : Edit w Unit :=
  match target with
  | .member m => m.apply op v
  | .element r i => r.apply i op v

/-- What can be done with a packed word. -/
inductive Command (w : Nat) where
  /-- Change a field. -/
  | change (target : Target) (op : Mutator) (v : BitVec w)
  /-- Replace the whole word. -/
  | store (v : BitVec w)
  /-- Add to the whole word, modulo its size. -/
  | increase (v : BitVec w)
  /-- Subtract from the whole word, modulo its size. -/
  | decrease (v : BitVec w)
  /-- Put a question, which leaves the word alone. -/
  | ask (query : Query)
  deriving DecidableEq

/-- Carry out a command. Only a query has something to answer. -/
def Command.run : Command w → Edit w (Reply w)
  | .change target op v => do
    target.apply op v
    return .done
  | .store v => do
    Edit.replace v
    return .done
  | .increase v => do
    Edit.replace ((← Edit.word) + v)
    return .done
  | .decrease v => do
    Edit.replace ((← Edit.word) - v)
    return .done
  | .ask query => do
    let word ← Edit.word
    query.answer word

/-- Carry out commands in order, up to the first that fails. -/
def runAll : List (Command w) → Edit w Unit
  | [] => pure ()
  | command :: rest => do
    let _ ← command.run
    runAll rest

/-- How a value is compared with a bound. -/
inductive Comparison where
  /-- The value is the bound. -/
  | equal
  /-- The value is not the bound. -/
  | different
  /-- The value is at least the bound. -/
  | atLeast
  /-- The value is below the bound. -/
  | below
  deriving DecidableEq

/-- Whether a comparison holds. -/
def Comparison.holds (comparison : Comparison) (value bound : Nat) : Bool :=
  match comparison with
  | .equal => value == bound
  | .different => value != bound
  | .atLeast => decide (bound ≤ value)
  | .below => decide (value < bound)

/-- A condition on a word: a comparison of a field, or of the whole word, with a bound. The bound
is a number of its own and need not fit in the word. -/
structure Condition where
  /-- The field that is looked at; without one it is the whole word. -/
  target : Option Target
  /-- How it is compared. -/
  comparison : Comparison
  /-- What it is compared with. -/
  bound : Nat
  deriving DecidableEq

/-- Whether a word meets a condition. -/
def Condition.holds (condition : Condition) (word : BitVec w) : Except Fault Bool := do
  let value ← match condition.target with
    | none => .ok word
    | some target => target.get word
  return condition.comparison.holds value.toNat condition.bound

/-- What an update does with the word that it finds. -/
structure Revision (w : Nat) where
  /-- Words that meet this condition are left alone. -/
  abortIf : Option Condition
  /-- What is done with all others. -/
  commands : List (Command w)
  deriving DecidableEq

/-- The word to be put in place of `word`, or nothing if it is to be left alone. -/
def Revision.apply (revision : Revision w) (word : BitVec w) :
    Except Fault (Option (BitVec w)) := do
  let keep ← match revision.abortIf with
    | none => .ok false
    | some condition => condition.holds word
  if keep then return none
  match runAll revision.commands word with
  | .ok _ word' => return some word'
  | .error fault _ => .error fault

end WordSync.Field
