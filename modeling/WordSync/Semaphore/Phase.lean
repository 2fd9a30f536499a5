import WordSync.Cell.Access
import WordSync.Semaphore.Call
import WordSync.Semaphore.Count

/-!
# Phases of a call

A call on a semaphore is a sequence of indivisible moves: accesses to the count and requests to
the kernel semaphore. A phase says where a call stands, and `Phase.move` says what it does next
and how it goes on from the answer. Nothing here depends on who else uses the semaphore, so the
same phases serve a thread that is alone and threads whose moves are mixed.

A call for tokens first looks at the count and takes what it may. If that was nothing and the
caller is willing to wait, it looks again a number of times, and then registers as a waiter by
subtracting one from the count. If the count was positive after all, that was a token.
Otherwise the caller sleeps in the kernel, and a later signal hands it a token there. A sleeper
whose time is over withdraws its registration by adding one, unless the count says that a token
is already on its way through the kernel; that token is its own, and it must take it.
-/

namespace WordSync.Semaphore

/-- What a look at the count is for. -/
inductive Purpose where
  /-- The whole of a call that does not wait. -/
  | attempt
  /-- The beginning of a call that is willing to wait. -/
  | opening (patience : Patience)
  /-- The end of a call that already has its first token and may take more. -/
  | topUp
  deriving DecidableEq

/-- Where a call stands. -/
inductive Phase where
  /-- About to read the count. -/
  | look (demand : Demand) (purpose : Purpose)
  /-- About to take tokens from the count, which was `seen`. -/
  | grab (demand : Demand) (purpose : Purpose) (seen : Int64)
  /-- About to read the count again, with `left` more times to come. -/
  | spin (demand : Demand) (patience : Patience) (left : Nat)
  /-- About to take tokens from the count, which was `seen` while reading it again. -/
  | spinGrab (demand : Demand) (patience : Patience) (left : Nat) (seen : Int64)
  /-- About to register as a waiter. -/
  | enlist (demand : Demand) (patience : Patience)
  /-- Registered, and about to sleep in the kernel. -/
  | park (demand : Demand) (patience : Patience)
  /-- The time is over; about to read the count. -/
  | recheck (demand : Demand)
  /-- The time is over, and a token is on its way; about to take it from the kernel. -/
  | claim (demand : Demand)
  /-- The time is over, and the count was `seen`; about to withdraw the registration. -/
  | withdraw (demand : Demand) (seen : Int64)
  /-- About to add signalled tokens to the count. -/
  | raise (count : Nat)
  /-- About to hand tokens to sleepers. -/
  | post (count : Nat)
  /-- Over, with so many tokens taken. -/
  | done (tokens : Nat)
  /-- Broken off. -/
  | failed (fault : Fault)
  deriving DecidableEq

/-- A phase, and the record made on the way to it. -/
structure Turn where
  /-- Where the call goes on. -/
  phase : Phase
  /-- What it has to say. -/
  record : Option Record

/-- Going on without a record. -/
instance : Coe Phase Turn where
  coe phase := ⟨phase, none⟩

/-- What a call does next. -/
inductive Move where
  /-- Access the count, and go on from the answer. -/
  | access (access : Cell.Access Int64) (next : access.Reply → Turn)
  /-- Ask the kernel semaphore, and go on from the answer. -/
  | request (request : Kernel.Request) (next : Bool → Turn)
  /-- Nothing more: the number of tokens taken, or the fault. -/
  | finish (result : Except Fault Nat)

namespace Demand

/-- Whether any token is wanted. -/
def wanted : Demand → Bool
  | .one => true
  | .upTo max => 0 < max

/-- The largest number of tokens that may be taken from the count at once. -/
def most : Demand → Int64
  | .one => 1
  | .upTo max => Count.clamp max

/-- What is left of a positive count when as much as possible is taken, up to `most`. -/
def leaving (most seen : Int64) : Except Fault Int64 :=
  if most < seen then Count.sub seen most else .ok 0

/-- What a demand leaves of a positive count. -/
def left : Demand → Int64 → Except Fault Int64
  | .one, seen => Count.sub seen 1
  | .upTo max, seen => leaving (Count.clamp max) seen

/-- How many tokens a demand has taken if it left `left` of `seen`. -/
def taken (demand : Demand) (seen left : Int64) : Except Fault Nat :=
  match demand with
  | .one => .ok 1
  | .upTo _ => (Count.sub seen left).map Count.amount

end Demand

namespace Phase

/-- The record of a thread that is going to sleep. -/
def sleepRecord (ahead : Int64) : Record where
  level := .trace
  target := "sema::lightweight"
  message := "lightweight semaphore: spin budget exhausted, blocking (" ++ toString ahead.toInt ++
    " waiter(s) ahead)"

/-- The record of a signal that hands tokens to sleepers. -/
def releaseRecord (released before : Int64) : Record where
  level := .trace
  target := "sema::lightweight"
  message := "lightweight semaphore: releasing " ++ toString released.toInt ++
    " kernel waiter(s) (count was " ++ toString before.toInt ++ ")"

/-- The record of a thread that found a token after its time was over. -/
def raceRecord : Record where
  level := .trace
  target := "sema::lightweight"
  message := "lightweight semaphore: timed out but a signal raced in, token taken"

/-- Read the count again, `left` times; then register. -/
def respin (demand : Demand) (patience : Patience) : Nat → Phase
  | 0 => .enlist demand patience
  | left + 1 => .spin demand patience left

/-- Go on from a number of tokens, or from the failure to compute it. -/
def ofAmount (amount : Except Fault Nat) (next : Nat → Phase) : Phase :=
  match amount with
  | .ok tokens => next tokens
  | .error fault => .failed fault

/-- Go on after a look at the count that took `tokens` tokens. Only a call that got nothing,
wanted something and is willing to wait goes on to look again, `spins` times. -/
def settled (spins : Nat) (demand : Demand) (purpose : Purpose) (tokens : Nat) : Phase :=
  match purpose with
  | .attempt => .done tokens
  | .opening patience =>
    if tokens = 0 ∧ demand.wanted then respin demand patience spins else .done tokens
  | .topUp => ofAmount (Count.addAmounts 1 tokens) .done

/-- Go on after the count was read: take tokens if there are any. -/
def considered (spins : Nat) (demand : Demand) (purpose : Purpose) (seen : Int64) : Phase :=
  if 0 < seen then .grab demand purpose seen else settled spins demand purpose 0

/-- Go on with a first token: a demand for more takes what there is without waiting. -/
def granted : Demand → Phase
  | .one => .done 1
  | .upTo max => if 1 < max then .look (.upTo (max - 1)) .topUp else .done 1

/-- The first phase of a call. -/
def ofCall : Call → Phase
  | .attempt demand => .look demand .attempt
  | .acquire demand patience => .look demand (.opening patience)
  | .signal count => if count = 0 then .failed .signalNotPositive else .raise count

/-- Exchange the count for what is left of it, unless that cannot be computed. -/
def exchangeFor (left : Except Fault Int64) (exchange : Int64 → Move) : Move :=
  match left with
  | .ok left => exchange left
  | .error fault => .finish (.error fault)

/-- What a call does next. A call that has to wait reads the count `spins` more times before it
registers. -/
def move (spins : Nat) : Phase → Move
  | .look demand purpose =>
    .access .load fun seen => considered spins demand purpose seen
  | .grab demand purpose seen =>
    exchangeFor (demand.left seen) fun left =>
      .access (.exchangeWeak seen left) fun
        | .ok _ => ofAmount (demand.taken seen left) (settled spins demand purpose)
        | .error actual => considered spins demand purpose actual
  | .spin demand patience left =>
    .access .load fun seen =>
      if (0 : Int64) < seen then spinGrab demand patience left seen
      else respin demand patience left
  | .spinGrab demand patience left seen =>
    exchangeFor (Demand.leaving demand.most seen) fun rest =>
      .access (.exchange seen rest) fun
        | .ok _ => ofAmount (demand.taken seen rest) fun tokens =>
            if tokens = 0 then .enlist demand patience else .done tokens
        | .error _ => respin demand patience left
  | .enlist demand patience =>
    .access (.fetchSub 1) fun before =>
      if (0 : Int64) < before then granted demand
      else match Count.neg before with
        | .ok ahead => ⟨.park demand patience, some (sleepRecord ahead)⟩
        | .error fault => failed fault
  | .park demand .forever => .request .wait fun _ => granted demand
  | .park demand (.within timeout) =>
    .request (.timedWait timeout) fun success =>
      if success then granted demand else recheck demand
  | .recheck demand =>
    .access .load fun seen =>
      if (0 : Int64) ≤ seen then claim demand else withdraw demand seen
  | .claim demand =>
    .request .tryWait fun success =>
      if success then ⟨granted demand, some raceRecord⟩ else recheck demand
  | .withdraw demand seen =>
    exchangeFor (Count.add seen 1) fun raised =>
      .access (.exchange seen raised) fun
        | .ok _ => done 0
        | .error _ => recheck demand
  | .raise count =>
    .access (.fetchAdd (Count.clamp count)) fun before =>
      match Count.neg before with
      | .error fault => failed fault
      | .ok waiting =>
        let released := if waiting < Count.clamp count then waiting else Count.clamp count
        if (0 : Int64) < released then
          ⟨post (Count.amount released), some (releaseRecord released before)⟩
        else done 0
  | .post count => .request (.signal count) fun _ => done 0
  | .done tokens => .finish (.ok tokens)
  | .failed fault => .finish (.error fault)

end Phase

end WordSync.Semaphore
