import WordSync.Kernel.Usage

/-!
# Semaphores that count

What a kernel semaphore should answer is what a natural number answers: a request for a token is
granted exactly if the number is positive, and takes one; a signal adds its tokens; a drain takes
all of them. `Kernel.Counts` says of a kernel semaphore that every single request is answered so,
whatever troubles it meets. `Counts.report_eq` carries this over to all uses in any order, and
`serveFrom_eq` reduces it to single steps: a request is answered if each of its steps brings it
nearer to its answer, except that a trouble may throw it back a little.
-/

namespace WordSync.Kernel

variable {κ π : Type}

/-- What a number of tokens answers to a request, and what is left of it. -/
def Request.count : Request → Nat → Bool × Nat
  | .signal count, tokens => (true, tokens + count)
  | _, tokens => (decide (0 < tokens), tokens - 1)

/-- What a number of tokens answers to a use, and what is left of it. -/
def Use.count : Use → Nat → Outcome × Nat
  | .request wanted, tokens => (.answered (wanted.count tokens).1, (wanted.count tokens).2)
  | .drain, tokens => (.drained tokens, 0)

/-- What a number of tokens answers to uses in order, and what is left of it. -/
def tally : List Use → Nat → List Outcome × Nat
  | [], tokens => ([], tokens)
  | use :: rest, tokens =>
    let (outcome, tokens) := use.count tokens
    let (outcomes, tokens) := tally rest tokens
    (outcome :: outcomes, tokens)

/-- Uses that a thread that is alone can make: it waits without a limit of time only where there
is a token, and there are never more tokens than `limit`. -/
def Sensible (limit : Nat) : List Use → Nat → Prop
  | [], tokens => tokens ≤ limit
  | use :: rest, tokens =>
    tokens ≤ limit ∧ (use = .request .wait → 0 < tokens) ∧
      Sensible limit rest (use.count tokens).2

instance Sensible.decidable (limit : Nat) : (uses : List Use) → DecidablePred (Sensible limit uses)
  | [], tokens => inferInstanceAs (Decidable (tokens ≤ limit))
  | use :: rest, tokens =>
    have := decidable limit rest (use.count tokens).2
    inferInstanceAs (Decidable (_ ∧ _ ∧ _))

/-- There are never more tokens than the limit, neither at first nor later. -/
theorem Sensible.le_limit {limit tokens : Nat} {uses : List Use}
    (h : Sensible limit uses tokens) : tokens ≤ limit := by
  cases uses with
  | nil => exact h
  | cons use rest => exact h.1

/-- Troubles of which none is the end of a wait: system calls are interrupted and sleepers wake,
but time passes only where a thread sleeps that nobody else could wake. -/
def Troubles.Passing (troubles : Troubles) : Prop := ∀ c ∈ troubles, c.chance ≠ .expire

/-- The step of a thread that is alone. Where it sleeps, its time passes. -/
def stepAlone (kernel : Kernel κ π) (c : Circumstance) (stage : π) (semaphore : κ) :
    Option (Progress π × κ) :=
  (kernel.step c 0 stage semaphore).orElse fun _ => kernel.step .expired 0 stage semaphore

/-- A request of a thread that is alone takes such steps until it is over. -/
theorem serveFrom_succ (kernel : Kernel κ π) (schedule : Nat → Circumstance) (steps n : Nat)
    (stage : π) (semaphore : κ) :
    kernel.serveFrom schedule (steps + 1) n stage semaphore =
      match kernel.stepAlone (schedule n) stage semaphore with
      | none => (.error .blocked, semaphore)
      | some (.working stage, semaphore) =>
        kernel.serveFrom schedule steps (n + 1) stage semaphore
      | some (.answered granted, semaphore) => (.ok granted, semaphore)
      | some (.broken fault, semaphore) => (.error fault, semaphore) := rfl

/-- What a step makes of a request that is due to be answered with `granted` and to leave `left`.
`Due effort` is what holds when at most `effort` steps are to come before the last one. -/
inductive Nears (Due : Nat → π → κ → Prop) (granted : Bool) (left : κ) (c : Circumstance)
    (effort : Nat) : Option (Progress π × κ) → Prop where
  /-- It is answered. -/
  | answered : Nears Due granted left c effort (some (.answered granted, left))
  /-- It comes nearer to its answer. -/
  | nearer {rest : Nat} {stage : π} {semaphore : κ} (hdue : Due rest stage semaphore)
      (hrest : rest < effort) : Nears Due granted left c effort (some (.working stage, semaphore))
  /-- It is thrown back by one step. -/
  | back {rest : Nat} {stage : π} {semaphore : κ} (hmishap : c.chance = .mishap)
      (hdue : Due rest stage semaphore) (hrest : rest ≤ effort + 1) :
      Nears Due granted left c effort (some (.working stage, semaphore))

/-- A request that comes nearer to its answer at every step, apart from troubles in the first
`calm` steps, is answered. -/
theorem serveFrom_eq {kernel : Kernel κ π} {Due : Nat → π → κ → Prop} {granted : Bool} {left : κ}
    {schedule : Nat → Circumstance} (calm : Nat)
    (hschedule : ∀ n, (schedule n).chance = .regular ∨ ((schedule n).chance = .mishap ∧ n < calm))
    (hnears : ∀ {c effort stage semaphore}, c.chance ≠ .expire → Due effort stage semaphore →
      Nears Due granted left c effort (kernel.stepAlone c stage semaphore))
    {steps n effort : Nat} {stage : π} {semaphore : κ} (hdue : Due effort stage semaphore)
    (hsteps : effort + 2 * (calm - n) < steps) :
    kernel.serveFrom schedule steps n stage semaphore = (.ok granted, left) := by
  induction steps generalizing n effort stage semaphore with
  | zero => omega
  | succ steps ih =>
    have hchance : (schedule n).chance ≠ .expire := by
      rcases hschedule n with h | ⟨h, -⟩ <;> rw [h] <;> decide
    have hstep := hnears hchance hdue
    rw [serveFrom_succ]
    generalize kernel.stepAlone (schedule n) stage semaphore = result at hstep
    cases hstep with
    | answered => rfl
    | nearer hdue hrest => exact ih hdue (by omega)
    | back hmishap hdue hrest =>
      rcases hschedule n with hregular | ⟨-, hn⟩
      · rw [hregular] at hmishap
        cases hmishap
      · exact ih hdue (by omega)

/-- A request that comes nearer to its answer at every step, apart from passing troubles, is
answered. -/
theorem serveAmid_eq {kernel : Kernel κ π} {Due : Nat → π → κ → Prop} {granted : Bool} {left : κ}
    {troubles : Troubles} (htroubles : troubles.Passing)
    (hnears : ∀ {c effort stage semaphore}, c.chance ≠ .expire → Due effort stage semaphore →
      Nears Due granted left c effort (kernel.stepAlone c stage semaphore))
    {request : Request} {effort : Nat} {semaphore : κ}
    (hdue : Due effort (kernel.start request) semaphore) (heffort : effort < request.effort) :
    kernel.serveAmid troubles request semaphore = (.ok granted, left) := by
  refine serveFrom_eq troubles.length (fun n => ?_) hnears hdue (by omega)
  by_cases hn : n < troubles.length
  · have hpassing := htroubles troubles[n] (List.getElem_mem hn)
    rw [List.getD_eq_getElem?_getD, List.getElem?_eq_getElem hn, Option.getD_some]
    cases hchance : troubles[n].chance with
    | regular => exact .inl rfl
    | mishap => exact .inr ⟨rfl, hn⟩
    | expire => exact absurd hchance hpassing
  · rw [List.getD_eq_getElem?_getD, List.getElem?_eq_none (Nat.le_of_not_lt hn)]
    exact .inl rfl

/-- A kernel semaphore counts up to `limit` if it answers every request as a number of tokens
does, whatever passing troubles the request meets. `state` is the semaphore with a number of
tokens that nobody uses at the moment. -/
structure Counts (kernel : Kernel κ π) (limit : Nat) (state : Nat → κ) : Prop where
  /-- A new semaphore has the tokens that it is made with. -/
  create : ∀ {tokens}, tokens ≤ limit → kernel.create tokens = .ok (state tokens)
  /-- A request is answered as by the number of tokens. -/
  serve : ∀ {troubles : Troubles} {request : Request} {tokens : Nat}, troubles.Passing →
    (request = .wait → 0 < tokens) → tokens ≤ limit → (request.count tokens).2 ≤ limit →
    kernel.serveAmid troubles request (state tokens) =
      (.ok (request.count tokens).1, state (request.count tokens).2)

namespace Counts

variable {kernel : Kernel κ π} {limit : Nat} {state : Nat → κ}

/-- What counts up to a limit counts up to every lower one. -/
theorem mono (h : kernel.Counts limit state) {lower : Nat} (hlower : lower ≤ limit) :
    kernel.Counts lower state where
  create htokens := h.create (Nat.le_trans htokens hlower)
  serve htroubles hwait htokens hleft :=
    h.serve htroubles hwait (Nat.le_trans htokens hlower) (Nat.le_trans hleft hlower)

/-- Enough attempts take all tokens. -/
theorem drainAmid_eq (h : kernel.Counts limit state) {troubles : Nat → Troubles}
    (htroubles : ∀ k, (troubles k).Passing) {attempts tokens : Nat} (htokens : tokens ≤ limit)
    (hattempts : tokens < attempts) :
    kernel.drainAmid attempts troubles (state tokens) = (.ok tokens, state 0) := by
  induction tokens generalizing attempts troubles with
  | zero =>
    obtain ⟨attempts, rfl⟩ := Nat.exists_eq_add_of_lt hattempts
    have hfails : kernel.serveAmid (troubles 0) .tryWait (state 0) = (.ok false, state 0) :=
      h.serve (htroubles 0) nofun htokens htokens
    rw [Nat.zero_add, drainAmid, hfails]
  | succ tokens ih =>
    obtain ⟨attempts, rfl⟩ := Nat.exists_eq_succ_of_ne_zero (Nat.ne_zero_of_lt hattempts)
    have hrest : tokens ≤ limit := Nat.le_of_succ_le htokens
    have htakes : kernel.serveAmid (troubles 0) .tryWait (state (tokens + 1)) =
        (.ok true, state tokens) := h.serve (htroubles 0) nofun htokens hrest
    have hdrains := ih (fun k => htroubles (k + 1)) hrest (Nat.lt_of_succ_lt_succ hattempts)
    rw [drainAmid, htakes]
    simp only [hdrains]

/-- A sensible use is answered as by the number of tokens. -/
theorem employ_eq (h : kernel.Counts limit state) {troubles : Nat → Troubles}
    (htroubles : ∀ k, (troubles k).Passing) {attempts tokens : Nat} {use : Use}
    (htokens : tokens ≤ limit) (hattempts : limit < attempts)
    (hwait : use = .request .wait → 0 < tokens) (hleft : (use.count tokens).2 ≤ limit) :
    kernel.employ attempts use troubles (state tokens) =
      .ok ((use.count tokens).1, state (use.count tokens).2) := by
  cases use with
  | request wanted =>
    have hserve := h.serve (htroubles 0) (fun hwanted => hwait (congrArg _ hwanted)) htokens hleft
    simp only [employ, hserve, Use.count]
  | drain =>
    have hdrain := h.drainAmid_eq htroubles htokens (Nat.lt_of_le_of_lt htokens hattempts)
    simp only [employ, hdrain, Use.count]

/-- Sensible uses in any order are answered as by the number of tokens. -/
theorem employAll_eq (h : kernel.Counts limit state) {troubles : Nat → Nat → Troubles}
    (htroubles : ∀ k j, (troubles k j).Passing) {attempts tokens : Nat} {uses : List Use}
    (hattempts : limit < attempts) (hsensible : Sensible limit uses tokens) :
    kernel.employAll attempts uses troubles (state tokens) =
      .ok ((tally uses tokens).1, state (tally uses tokens).2) := by
  induction uses generalizing troubles tokens with
  | nil => rfl
  | cons use rest ih =>
    obtain ⟨htokens, hwait, hrest⟩ := hsensible
    have hfirst := h.employ_eq (htroubles 0) htokens hattempts hwait hrest.le_limit
    have hothers := ih (fun k => htroubles (k + 1)) hrest
    simp only [employAll, hfirst, hothers, tally, Bind.bind, Except.bind, Pure.pure, Except.pure]

/-- What comes of sensible uses is what a number of tokens makes of them, without any fault or
record. -/
theorem report_eq (h : kernel.Counts limit state) {troubles : Nat → Nat → Troubles}
    (htroubles : ∀ k j, (troubles k j).Passing) {attempts initial : Nat} {uses : List Use}
    (hattempts : limit < attempts) (hsensible : Sensible limit uses initial) :
    kernel.report attempts initial uses troubles =
      (.ok ((tally uses initial).1, state (tally uses initial).2), []) := by
  simp only [report, h.create hsensible.le_limit, Bind.bind, Except.bind,
    h.employAll_eq htroubles hattempts hsensible]

end Counts

end WordSync.Kernel
