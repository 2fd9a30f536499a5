import WordSync.Semaphore.Crowd

/-!
# Exercises

Things to do with a semaphore and several threads whose outcome does not depend on the order in
which the threads move. Each is run in one particular order, in which all threads that can move
do so in turn, and timed waits expire only when nothing else can happen.
-/

namespace WordSync.Semaphore

variable {κ π : Type}

/-- The amount of an answer that has one. -/
def Answer.amount : Answer → Nat
  | .took amount => amount
  | _ => 0

/-- Answers in the order of the amounts that were taken. -/
def Answer.sorted (answers : List Answer) : List Answer :=
  answers.mergeSort fun a b => a.amount ≤ b.amount

namespace Exercise

/-- Sweeps in which a thread surely gets through a call that nobody delays, if it has to look
`spins` times at the count and `tokens` tokens are put in on the way. -/
def sweepsFor (spins tokens : Nat) : Nat := 2 * spins + tokens + 64

/-- Let all threads move until none of them can. Timed waits do not expire. -/
def settle {δ σ : Type} (kernel : Kernel κ π) (spins : Nat) (plan : Plan δ σ) (sweeps : Nat)
    (crowd : Crowd κ π δ σ) : Crowd κ π δ σ :=
  (Crowd.machine kernel spins plan).settle .usual none sweeps crowd

/-- Let all threads move until none of them can, even if the timed waits expire. -/
def exhaust {δ σ : Type} (kernel : Kernel κ π) (spins : Nat) (plan : Plan δ σ) (sweeps : Nat)
    (crowd : Crowd κ π δ σ) : Crowd κ π δ σ :=
  (Crowd.machine kernel spins plan).settle .usual (some .expired) sweeps crowd

/-- Let one more thread signal tokens, and let everything settle. -/
def signal (kernel : Kernel κ π) (spins tokens : Nat) (crowd : Crowd κ π Unit Script) :
    Crowd κ π Unit Script :=
  let signaller : Thread Script π := ⟨.ofCalls [.signal tokens], .idle⟩
  settle kernel spins (Script.plan Unit) (sweepsFor spins tokens * (crowd.threads.length + 1))
    ⟨crowd.shared, crowd.threads ++ [signaller]⟩

/-! ## Waiters -/

/-- What became of a number of waiters. -/
structure Rally where
  /-- After each signal, how many waiters had returned so far, and the count. -/
  signals : List (Nat × Int64)
  /-- The answers of all waiters. -/
  answers : List Answer
  /-- The count at the end. -/
  count : Int64

/-- The answers of the first `waiters` threads that have returned. -/
def returned (waiters : Nat) (crowd : Crowd κ π Unit Script) : List Answer :=
  (crowd.threads.take waiters).flatMap fun thread => thread.state.answers

/-- Signal one number after the other, and look after each how far the waiters have come. -/
def rallySignals (kernel : Kernel κ π) (spins waiters : Nat) :
    List Nat → Crowd κ π Unit Script → List (Nat × Int64) × Crowd κ π Unit Script
  | [], crowd => ([], crowd)
  | tokens :: rest, crowd =>
    let crowd := signal kernel spins tokens crowd
    let report := ((returned waiters crowd).length, crowd.shared.count)
    let (reports, crowd) := rallySignals kernel spins waiters rest crowd
    (report :: reports, crowd)

/-- Let a number of waiters do the same action, and when all of them sleep, signal one number of
tokens after the other, and at the end one more for those who got none. -/
def rally (kernel : Kernel κ π) (initial spins waiters : Nat) (action : Action)
    (signals : List Nat) : Except Fault Rally := do
  let crowd ← Crowd.assemble kernel initial () (List.replicate waiters (.ofCalls action.calls))
  let asleep := settle kernel spins (Script.plan Unit) (sweepsFor spins 0) crowd
  let missing := waiters - signals.foldl (· + ·) 0
  let all := if missing = 0 then signals else signals ++ [missing]
  let (reports, crowd) := rallySignals kernel spins waiters all asleep
  match Crowd.fault? crowd with
  | some fault => .error fault
  | none => .ok ⟨reports, Answer.sorted (returned waiters crowd), crowd.shared.count⟩

/-! ## Handing over -/

/-- How often a thread looks at the count in a microsecond. -/
def looksPerMicro : Nat := 10

/-- For how many sweeps an action is willing to sleep, unless it sleeps for ever. Looking at the
count is not sleeping, however long it lasts. -/
def sleepOf : Action → Option Nat
  | .call (.acquire _ (.within timeout)) => some (looksPerMicro * timeout.toMicros)
  | _ => none

/-- Let a number of sweeps pass for a thread that is willing to sleep for `sleep` of them. If it
falls asleep early enough, it wakes up and goes on. -/
def elapse (kernel : Kernel κ π) (spins : Nat) (sleep : Option Nat) (sweeps : Nat)
    (crowd : Crowd κ π Unit Script) : Crowd κ π Unit Script :=
  let machine := Crowd.machine kernel spins (Script.plan Unit)
  let (crowd, idle) := machine.sweeps .usual sweeps crowd
  match sleep with
  | none => crowd
  | some sleep =>
    if sleep < idle then
      (machine.sweeps .usual (idle - sleep) (machine.sweep .expired crowd).1).1
    else crowd

/-- The reply to an action that a thread did when it found the semaphore as `found`, and that
has brought the crowd to where it is; nothing if the action is not over. -/
def replyTo (action : Action) (found : Semaphore κ) (crowd : Crowd κ π Unit Script) :
    Option Reply :=
  match action with
  | .call _ => (returned 1 crowd).head?.map .answer
  | .ask question => some (found.ask question)

/-- Let one thread do an action, and another signal tokens `delay` microseconds later: the reply
to the action and the count at the end. To signal nothing is refused on the spot, whatever the
first thread is doing. -/
def handOver (kernel : Kernel κ π) (initial spins : Nat) (action : Action)
    (delay tokens : Nat) : Except Fault (Reply × Int64) := do
  let crowd ← Crowd.assemble kernel initial () [Script.ofCalls action.calls]
  let found := Crowd.semaphore crowd spins
  if tokens = 0 then .error .signalNotPositive
  else
    let crowd := elapse kernel spins (sleepOf action) (looksPerMicro * delay) crowd
    let crowd := signal kernel spins tokens crowd
    match Crowd.fault? crowd, replyTo action found crowd with
    | some fault, _ => .error fault
    | none, some reply => .ok (reply, crowd.shared.count)
    | none, none => .error .unfinished

/-! ## Taking everything -/

/-- A thread that takes tokens without waiting until there are none. -/
structure Taker where
  /-- How many it takes at a time. -/
  demand : Demand
  /-- How many it has taken. -/
  taken : Nat
  /-- Whether it has come away empty. -/
  finished : Bool
  deriving DecidableEq

/-- Take tokens until an attempt gets none. -/
def Taker.plan : Plan Unit Taker := fun taker =>
  if taker.finished then .stop
  else .call (.attempt taker.demand) fun tokens =>
    ⟨taker.demand, taker.taken + tokens, tokens == 0⟩

/-- Let a number of threads take all tokens, `batch` at a time; if that is one, every other
thread asks for one token rather than for up to one. The answer is the number of tokens taken
and the count at the end. -/
def takeAll (kernel : Kernel κ π) (initial spins threads batch : Nat) :
    Except Fault (Nat × Int64) := do
  let demand (i : Nat) : Demand := if batch = 1 ∧ i % 2 = 0 then .one else .upTo batch
  let takers := (List.range threads).map fun i => Taker.mk (demand i) 0 false
  let crowd ← Crowd.assemble kernel initial () takers
  let crowd := settle kernel spins Taker.plan (4 * (initial + threads + 1)) crowd
  match Crowd.fault? crowd with
  | some fault => .error fault
  | none => .ok (((Crowd.states crowd).map Taker.taken).foldl (· + ·) 0, crowd.shared.count)

/-! ## Giving and taking back -/

/-- A thread that puts in a number of tokens and then takes as many, round after round. -/
structure Trader where
  /-- How many tokens it puts in, in each round to come. -/
  rounds : List Nat
  /-- How many it has yet to take in this round. -/
  need : Nat
  /-- How many it has taken in all. -/
  taken : Nat
  deriving DecidableEq

/-- Take what is needed, as much at once as there is; then put in the tokens of the next
round. -/
def Trader.plan : Plan Unit Trader := fun trader =>
  if 0 < trader.need then
    .call (.acquire (.upTo trader.need) .forever) fun tokens =>
      ⟨trader.rounds, trader.need - tokens, trader.taken + tokens⟩
  else match trader.rounds with
    | [] => .stop
    | tokens :: rest => .call (.signal tokens) fun _ => ⟨rest, tokens, trader.taken⟩

/-- How many tokens thread `i` puts in in round `r`: at least one, and no more than `batch`. No
number lies between one and a `batch` of zero. -/
def share (batch i r : Nat) : Except Fault Nat :=
  if batch = 0 then .error .overflow else .ok (1 + (i + r) % batch)

/-- Let a number of threads put in and take tokens for a number of rounds, at most `batch` of
them in each. The answer is what each thread has taken and the count at the end. The threads
come only when there is a semaphore, so its fault goes before theirs. -/
def trade (kernel : Kernel κ π) (initial spins threads rounds batch : Nat) :
    Except Fault (List Nat × Int64) := do
  let s ← Semaphore.create kernel initial spins
  let traders ← (List.range threads).mapM fun i => do
    let amounts ← (List.range rounds).mapM (share batch i)
    return Trader.mk amounts 0 0
  let crowd := Crowd.around π s () traders
  let sweeps := sweepsFor spins batch * (threads * rounds * (batch + 1) + 1)
  let crowd := settle kernel spins Trader.plan sweeps crowd
  match Crowd.fault? crowd with
  | some fault => .error fault
  | none => .ok ((Crowd.states crowd).map Trader.taken, crowd.shared.count)

/-! ## Waiting in vain -/

/-- Let a number of threads wait for a token a number of times, with little patience, while one
more thread puts tokens in one at a time, one for every wait. Then take what is left. The answer
is whether the tokens taken are those put in, and the count at the end. -/
def conserve (kernel : Kernel κ π) (initial spins threads rounds : Nat) :
    Except Fault (Bool × Int64) := do
  let wait : Call := .acquire .one (.within (.ofMicros 20))
  let waiters := List.replicate threads (Script.ofCalls (List.replicate rounds wait))
  let put := threads * rounds
  let signaller := Script.ofCalls (List.replicate put (.signal 1))
  let crowd ← Crowd.assemble kernel initial () (waiters ++ [signaller])
  let sweeps := sweepsFor spins put * (put + 1)
  let crowd := exhaust kernel spins (Script.plan Unit) sweeps crowd
  let taken := (returned threads crowd).countP (· == .granted true)
  let (rest, s) := (Crowd.semaphore crowd spins).call (serverOf kernel)
    (.attempt (.upTo (Count.amountLimit - 1)))
  match Crowd.fault? crowd, rest with
  | some fault, _ => .error fault
  | none, .error fault => .error fault
  | none, .ok rest => .ok (taken + rest.amount == put + initial, s.count)

end Exercise

end WordSync.Semaphore
