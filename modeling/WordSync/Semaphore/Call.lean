import WordSync.Duration

/-!
# Calls

What a thread can ask of a semaphore. A demand for tokens is for exactly one or for as many as
there are up to a maximum. It is either an attempt, which never waits, or an acquisition, which
waits for the first token as long as its patience lasts. Signalling puts tokens in.
-/

namespace WordSync.Semaphore

/-- How many tokens are wanted. -/
inductive Demand where
  /-- Exactly one. -/
  | one
  /-- As many as there are, up to a maximum. -/
  | upTo (max : Nat)
  deriving DecidableEq

/-- How long a thread waits for the first token. -/
inductive Patience where
  /-- However long it takes. -/
  | forever
  /-- No longer than a given time. -/
  | within (timeout : Duration)
  deriving DecidableEq

/-- A call on a semaphore. -/
inductive Call where
  /-- Take tokens without waiting. -/
  | attempt (demand : Demand)
  /-- Take tokens, waiting for the first. -/
  | acquire (demand : Demand) (patience : Patience)
  /-- Put tokens in. -/
  | signal (count : Nat)
  deriving DecidableEq

/-- What a call answers. -/
inductive Answer where
  /-- The call is over. -/
  | done
  /-- Whether a token was taken. -/
  | granted (success : Bool)
  /-- How many tokens were taken. -/
  | took (amount : Nat)
  deriving DecidableEq

/-- The answer of a call that has taken `tokens` tokens. A call that cannot fail says nothing, a
call for one token says whether it got it, and a call for several says how many it got. -/
def Call.answer (call : Call) (tokens : Nat) : Answer :=
  match call with
  | .attempt .one => .granted (0 < tokens)
  | .attempt (.upTo _) => .took tokens
  | .acquire .one .forever => .done
  | .acquire .one (.within _) => .granted (0 < tokens)
  | .acquire (.upTo _) _ => .took tokens
  | .signal _ => .done

end WordSync.Semaphore
