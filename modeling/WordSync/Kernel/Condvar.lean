import WordSync.Kernel.Basic

/-!
# Semaphores from a lock and a condition

A kernel semaphore for systems that offer none: a number of tokens behind a lock, and a
condition on which threads sleep while there is none. A thread that holds the lock does so for
one step. A notification wakes one sleeper or all of them; a sleeper may also wake without one,
and looks again; and a timed sleeper wakes when its time is over, and looks a last time.
-/

namespace WordSync.Kernel.Condvar

/-- The largest number of tokens. -/
def limit : Nat := 0xffffffffffffffff

/-- A semaphore. -/
structure Semaphore where
  /-- The tokens behind the lock. -/
  tokens : Nat
  /-- The numbers of the threads that sleep and have not been woken. -/
  asleep : List Nat
  deriving DecidableEq

/-- The stages of a request. -/
inductive Stage where
  /-- Take a token if there is one. -/
  | trying
  /-- Take the lock and look for a token, and sleep if there is none. -/
  | looking (timed : Bool)
  /-- Sleep, or just woken. -/
  | sleeping (timed : Bool)
  /-- Take the lock and look for a token a last time. -/
  | leaving
  /-- Take the lock and put tokens in. -/
  | depositing (count : Nat)
  /-- Wake sleepers for tokens that have been put in. -/
  | notifying (count : Nat)
  deriving DecidableEq

/-- The answer of a thread that looks for a token and does not wait for one. -/
def Semaphore.take (s : Semaphore) : Progress Stage × Semaphore :=
  match s.tokens with
  | 0 => (.answered false, s)
  | tokens + 1 => (.answered true, ⟨tokens, s.asleep⟩)

/-- One step of a request of thread `i`. -/
def Stage.step (c : Circumstance) (i : Nat) (stage : Stage) (s : Semaphore) :
    Option (Progress Stage × Semaphore) :=
  match stage with
  | .trying => some s.take
  | .looking timed =>
    match s.tokens with
    | tokens + 1 => some (.answered true, ⟨tokens, s.asleep⟩)
    | 0 =>
      if timed ∧ c.chance = .expire then some (.answered false, s)
      else some (.working (.sleeping timed), ⟨0, s.asleep ++ [i]⟩)
  | .sleeping timed =>
    if i ∈ s.asleep then
      match c.chance with
      | .regular => none
      | .mishap => some (.working (.looking timed), ⟨s.tokens, s.asleep.erase i⟩)
      | .expire =>
        if timed then some (.working .leaving, ⟨s.tokens, s.asleep.erase i⟩) else none
    else some (.working (.looking timed), s)
  | .leaving => some s.take
  | .depositing 0 => some (.answered true, s)
  | .depositing count =>
    some (.working (.notifying count), ⟨min limit (s.tokens + count), s.asleep⟩)
  | .notifying 1 =>
    some (.answered true, ⟨s.tokens, s.asleep.eraseIdx (c.pick % s.asleep.length)⟩)
  | .notifying _ => some (.answered true, ⟨s.tokens, []⟩)

/-- The first stage of a request. -/
def Stage.ofRequest : Request → Stage
  | .wait => .looking false
  | .tryWait => .trying
  | .timedWait _ => .looking true
  | .signal count => .depositing count

/-- A lock and a condition as a kernel semaphore. -/
def kernel : Kernel Semaphore Stage where
  create initial := .ok ⟨initial, []⟩
  start := Stage.ofRequest
  step c i stage s := stage.step c i s

end WordSync.Kernel.Condvar
