import WordSync.Cell.Update
import WordSync.Circumstance
import WordSync.Pool

/-!
# Threads that share a cell

Each thread works through a list of tasks on one cell: updates, which may take several steps,
and single accesses. A thread whose rule fails makes no further step, and its remaining tasks
stay undone.
-/

namespace WordSync.Cell

/-- What a thread does with the cell. -/
inductive Task (α ε : Type) where
  /-- Update the value by a rule. -/
  | update (rule : Rule α ε)
  /-- Make a single access. -/
  | access (access : Access α)

/-- A thread that shares the cell. -/
structure Thread (α ε : Type) where
  /-- The tasks that are not yet done; the first one is under way. -/
  todo : List (Task α ε)
  /-- Where the update under way stands. -/
  stage : Update α ε
  /-- How the updates that are over have ended, the latest first. -/
  results : List (Except α α)

namespace Thread

variable {α ε : Type}

/-- A thread that has not started. -/
def ready (todo : List (Task α ε)) : Thread α ε := ⟨todo, .fetch, []⟩

/-- The fault at which the thread broke off, if it did. -/
def fault? (thread : Thread α ε) : Option ε :=
  match thread.stage with
  | .failed fault => some fault
  | _ => none

variable [DecidableEq α] [Add α] [Sub α]

/-- One step of a thread: one access to the cell. -/
def step (spurious : Bool) (thread : Thread α ε) (value : α) : Option (Thread α ε × α) :=
  match thread.todo with
  | [] => none
  | .access access :: rest =>
    some (⟨rest, .fetch, thread.results⟩, (access.perform spurious value).2)
  | .update rule :: rest =>
    match Update.step rule spurious thread.stage value with
    | none => none
    | some (.finished result, value) =>
      some (⟨rest, .fetch, result :: thread.results⟩, value)
    | some (stage, value) => some (⟨thread.todo, stage, thread.results⟩, value)

end Thread

/-- Threads that share a cell. -/
def machine {α : Type} (ε : Type) [DecidableEq α] [Add α] [Sub α] :
    Machine Circumstance α (Thread α ε) where
  step c _ thread value := thread.step (c.chance == .mishap) value

/-- A pool of threads over a cell. -/
abbrev Threads (α ε : Type) := Pool α (Thread α ε)

/-- The first fault among the threads, in their order. -/
def Threads.fault? {α ε : Type} (pool : Threads α ε) : Option ε :=
  pool.threads.findSome? Thread.fault?

/-- Let each thread make the same number of updates by its own rule, until all have finished or
broken off. Every sweep in which two threads collide lets one of them through, so as many
sweeps as there are updates, times three, are enough. -/
def updateTogether {α ε : Type} [DecidableEq α] [Add α] [Sub α] (times : Nat)
    (rules : List (Rule α ε)) (value : α) : Threads α ε :=
  (machine ε).settle Circumstance.usual none (3 * (times * rules.length + 1))
    ⟨value, rules.map fun rule => Thread.ready (List.replicate times (.update rule))⟩

end WordSync.Cell
