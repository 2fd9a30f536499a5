import WordSync.Kernel.Basic

/-!
# The plain counter

The simplest kernel semaphore: a number of tokens, and every request served in one step. A
waiting thread has no step while there is no token. A timed wait may expire at any moment, also
when there is a token.
-/

namespace WordSync.Kernel.Counter

/-- Serve a request in one step. -/
def step (c : Circumstance) (request : Request) (tokens : Nat) :
    Option (Progress Request × Nat) :=
  match request, tokens with
  | .wait, 0 => none
  | .wait, tokens + 1 => some (.answered true, tokens)
  | .tryWait, 0 => some (.answered false, 0)
  | .tryWait, tokens + 1 => some (.answered true, tokens)
  | .timedWait _, tokens =>
    if c.chance = .expire then some (.answered false, tokens)
    else match tokens with
      | 0 => none
      | tokens + 1 => some (.answered true, tokens)
  | .signal count, tokens => some (.answered true, tokens + count)

/-- The plain counter as a kernel semaphore. -/
def kernel : Kernel Nat Request where
  create initial := .ok initial
  start := id
  step c _ request tokens := step c request tokens

end WordSync.Kernel.Counter
