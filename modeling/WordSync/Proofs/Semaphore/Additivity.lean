import WordSync.Proofs.Semaphore.Batches
import WordSync.Proofs.Semaphore.Signals
import WordSync.Proofs.Semaphore.Spinning

/-!
# Calls one by one and all at once

It does not matter whether tokens are put in one after the other or all at once: the count grows
by all of them, and the kernel is handed those that are owed to waiters, wherever among the signals
the count comes to be positive. Nor does it matter whether tokens are taken by one attempt or by
several: all together get what there is, up to the sum of their maxima, even if that is larger than
every count. The first in line are served first.
-/

namespace WordSync.Semaphore

variable {κ : Type}

/-- Make calls one after the other, whether they fail or not: what each has answered, and the
semaphore in the end. -/
def callAll (serve : Server κ) :
    List Call → Semaphore κ → List (Except Fault Answer) × Semaphore κ
  | [], s => ([], s)
  | call :: rest, s =>
    let (answer, after) := s.call serve call
    let (answers, last) := callAll serve rest after
    (answer :: answers, last)

/-! ## Signals -/

/-- So many tokens have been put into a semaphore. All of them are in the count, and those that
were owed to waiters are in the kernel. -/
structure Signalled (s : Semaphore Nat) (total : Nat) (after : Semaphore Nat) : Prop where
  /-- The count has grown by all tokens. -/
  count_eq : after.count.toInt = s.count.toInt + total
  /-- The kernel has been handed a token for each waiter, as far as they go. -/
  kernel_eq : after.kernel = s.kernel + min total (-s.count.toInt).toNat

namespace Signalled

variable {s between after other : Semaphore Nat} {first second total : Nat}

/-- Nothing has been put in. -/
theorem refl (s : Semaphore Nat) : s.Signalled 0 s where
  count_eq := (Int.add_zero _).symm
  kernel_eq := by rw [Nat.zero_min, Nat.add_zero]

/-- Some tokens have been put in, and some more. The waiters that the first did not reach are left
to the others. -/
theorem trans (hfirst : s.Signalled first between) (hsecond : between.Signalled second after) :
    s.Signalled (first + second) after := by
  obtain ⟨hcount, hkernel⟩ := hfirst
  obtain ⟨hcount', hkernel'⟩ := hsecond
  constructor
  · omega
  · omega

/-- Putting so many tokens in leaves one count, and hands the kernel one number of tokens. -/
theorem unique (h : s.Signalled total after) (h' : s.Signalled total other) :
    after.count = other.count ∧ after.kernel = other.kernel := by
  constructor
  · rw [← Int64.toInt_inj, h.count_eq, h'.count_eq]
  · rw [h.kernel_eq, h'.kernel_eq]

end Signalled

/-- The plain counter is handed the tokens that a signal has for waiters. -/
theorem run_posting_counter (tokens moves : Nat) (s : Semaphore Nat) :
    ∃ after, run (serverOf Kernel.Counter.kernel) (moves + 2) (Phase.posting tokens) s =
        (.ok 0, after) ∧ after.count = s.count ∧ after.kernel = s.kernel + tokens := by
  unfold Phase.posting
  split
  · next hnone =>
    subst hnone
    exact ⟨s, run_finish rfl _, rfl, rfl⟩
  · refine ⟨({ s with kernel := s.kernel + tokens } : Semaphore Nat).noted ⟨.done 0, none⟩, ?_,
      rfl, rfl⟩
    rw [run_request rfl rfl, run_finish rfl]

/-- A signal puts its tokens in, if the count has room for them. -/
theorem exists_signalled {amount : Nat} {s : Semaphore Nat} (hamount : 0 < amount)
    (hfew : amount ≤ Count.limit) (hroom : Count.Room s.count amount) :
    ∃ after, s.call (serverOf Kernel.Counter.kernel) (.signal amount) = (.ok .done, after) ∧
      s.Signalled amount after := by
  obtain ⟨hlow, hhigh⟩ := hroom
  rw [Nat.min_eq_left hfew] at hhigh
  obtain ⟨next, hmove, hnext⟩ := Phase.raise_move s.spins amount hlow
  rw [Nat.min_eq_left hfew] at hnext
  have hclamp := Count.toInt_clamp amount
  rw [Nat.min_eq_left hfew] at hclamp
  have hsum := Count.toInt_add_of_range (a := s.count) (b := Count.clamp amount)
    (by omega) (by omega)
  obtain ⟨after, hrun, hcount, hkernel⟩ :=
    run_posting_counter (min amount (-s.count.toInt).toNat) (2 * s.spins + 253)
      ({ s with count := s.count + Count.clamp amount }.noted (next s.count))
  refine ⟨after, ?_, ?_, hkernel⟩
  · rw [call_signal _ hamount, run_access hmove rfl, hnext, hrun]
    rfl
  · rw [hcount, ← hclamp]
    exact hsum

/-- Signals one after the other put all their tokens in, if the count has room for them. -/
theorem exists_signalled_all {amounts : List Nat} {s : Semaphore Nat}
    (hpos : ∀ amount ∈ amounts, 0 < amount) (hlow : -(Count.limit : Int) ≤ s.count.toInt)
    (hfew : amounts.sum ≤ Count.limit) (hroom : s.count.toInt + amounts.sum ≤ Count.limit) :
    ∃ after, callAll (serverOf Kernel.Counter.kernel) (amounts.map .signal) s =
        (amounts.map fun _ => .ok .done, after) ∧ s.Signalled amounts.sum after := by
  induction amounts generalizing s with
  | nil => exact ⟨s, rfl, .refl s⟩
  | cons amount rest ih =>
    obtain ⟨hfirst, hrest⟩ := List.forall_mem_cons.mp hpos
    rw [List.sum_cons] at hfew hroom
    obtain ⟨between, hcall, hbetween⟩ :=
      exists_signalled (s := s) hfirst (by omega) ⟨hlow, by omega⟩
    have hcount := hbetween.count_eq
    obtain ⟨after, hcalls, hafter⟩ := ih (s := between) hrest (by omega) (by omega) (by omega)
    refine ⟨after, ?_, ?_⟩
    · simp only [List.map_cons, callAll, hcall, hcalls]
    · rw [List.sum_cons]
      exact hbetween.trans hafter

/-! ## Attempts -/

/-- What each of some attempts gets where there are so many tokens, if the first is served
first. -/
def shares : Nat → List Nat → List Nat
  | _, [] => []
  | tokens, max :: rest => min max tokens :: shares (tokens - min max tokens) rest

/-- All attempts together get what there is, up to the sum of their maxima. -/
theorem sum_shares (tokens : Nat) (maxima : List Nat) :
    (shares tokens maxima).sum = min tokens maxima.sum := by
  induction maxima generalizing tokens with
  | nil => rw [shares, List.sum_nil, Nat.min_zero]
  | cons max rest ih =>
    rw [shares, List.sum_cons, List.sum_cons, ih]
    omega

/-- Attempts that were made where the count was `before`, for up to so many tokens each, have taken
those tokens and left the count at `after`. -/
structure Divided (before : Int64) (maxima taken : List Nat) (after : Int64) : Prop where
  /-- Each has got what there was, up to its maximum. -/
  taken_eq : taken = shares before.toInt.toNat maxima
  /-- All together have got what there was, up to the sum of the maxima. -/
  sum_eq : taken.sum = min before.toInt.toNat maxima.sum
  /-- The count has gone down by what they have got. -/
  count_eq : after.toInt = before.toInt - taken.sum

/-- If each attempt has got its share, all together have got what there was. -/
theorem Divided.of_shares {before after : Int64} {maxima taken : List Nat}
    (htaken : taken = shares before.toInt.toNat maxima)
    (hcount : after.toInt = before.toInt - taken.sum) : Divided before maxima taken after where
  taken_eq := htaken
  sum_eq := by rw [htaken, sum_shares]
  count_eq := hcount

/-- One more attempt comes first. What it leaves is divided by the others. -/
theorem Divided.cons {before between after : Int64} {max : Nat} {rest taken : List Nat}
    (hbetween : between.toInt = before.toInt - min max before.toInt.toNat)
    (h : Divided between rest taken after) :
    Divided before (max :: rest) (min max before.toInt.toNat :: taken) after := by
  have hcount := h.count_eq
  have htokens : between.toInt.toNat =
      before.toInt.toNat - min max before.toInt.toNat := by omega
  apply Divided.of_shares
  · rw [shares, ← htokens, ← h.taken_eq]
  · rw [List.sum_cons]
    omega

/-- The calls that attempt to take up to so many tokens each. -/
def attempts (maxima : List Nat) : List Call := maxima.map fun max => .attempt (.upTo max)

/-- An attempt that has seen tokens exchanges the count for what it leaves of them. It is over if
the exchange succeeds, and else considers the count that it has found. -/
theorem Phase.grab_move (max spins : Nat) {seen : Int64} (hseen : 0 < seen.toInt) :
    ∃ left next, (grab (.upTo max) .attempt seen).move spins =
        .access (.exchangeWeak seen left) next ∧
      left.toInt = seen.toInt - min max seen.toInt.toNat ∧
      (∀ found, (next (.ok found)).phase = .done (min max seen.toInt.toNat)) ∧
      ∀ found, (next (.error found)).phase = considered spins (.upTo max) .attempt found := by
  obtain ⟨left, tokens, hexact⟩ := exists_exact max hseen
  have htaken := hexact.taken_eq
  have hleft := hexact.left_eq
  obtain rfl : tokens = min max seen.toInt.toNat := by omega
  simp only [move, hexact.left_ok, exchangeFor]
  refine ⟨left, _, rfl, hleft, ?_, ?_⟩
  · intro found
    simp only [hexact.taken_ok, ofAmount, settled]
  · intro found
    rfl

/-- The phases that an attempt for up to `max` tokens comes to if it is alone and has found the
count at `before`, each with the count. -/
inductive Phase.Attempting (max : Nat) (before : Int64) : Phase → Int64 → Prop where
  /-- It is about to look at the count. -/
  | look : Attempting max before (.look (.upTo max) .attempt) before
  /-- It has found tokens. -/
  | grab (hsome : 0 < before.toInt) :
      Attempting max before (.grab (.upTo max) .attempt before) before
  /-- It has taken what it could get. -/
  | done {after : Int64} (hafter : after.toInt = before.toInt - min max before.toInt.toNat) :
      Attempting max before (.done (min max before.toInt.toNat)) after

namespace Phase.Attempting

variable {max spins : Nat} {before count : Int64} {phase : Phase}

/-- An attempt that has looked at the count goes for the tokens that it has found, or is over. -/
theorem considered (max spins : Nat) (before : Int64) :
    Attempting max before (considered spins (.upTo max) .attempt before) before := by
  unfold Phase.considered
  by_cases hsome : 0 < before
  · rw [if_pos hsome]
    exact .grab (Count.pos_iff.mp hsome)
  · have hnone := mt Count.pos_iff.mpr hsome
    have hzero : min max before.toInt.toNat = 0 := by omega
    have hdone : Attempting max before (.done (min max before.toInt.toNat)) before :=
      .done (by omega)
    rw [if_neg hsome]
    rwa [hzero] at hdone

/-- Every access leads an attempt on, and only a spoilt exchange leads it back to where it was. -/
theorem access (h : Attempting max before phase count) {access : Cell.Access Int64}
    {next : access.Reply → Turn} (hmove : phase.move spins = .access access next)
    (spoilt : Bool) :
    Attempting max before (next (access.perform spoilt count).1).phase
      (access.perform spoilt count).2 := by
  cases h with
  | look =>
    cases hmove
    exact considered max spins before
  | grab hsome =>
    obtain ⟨left, next', hgrab, hleft, hok, herror⟩ := grab_move max spins hsome
    rw [hgrab] at hmove
    cases hmove
    rcases Cell.Access.exchangeWeak_cases spoilt before left before with
      ⟨-, hperform⟩ | ⟨-, hperform⟩
    · rw [hperform, hok]
      exact .done hleft
    · rw [hperform, herror]
      exact considered max spins before
  | done => cases hmove

/-- An attempt does not ask the kernel for anything. -/
theorem not_request (h : Attempting max before phase count) {request : Kernel.Request}
    {next : Bool → Turn} : phase.move spins ≠ .request request next := by
  intro hmove
  cases h with
  | grab hsome =>
    obtain ⟨left, next', hgrab, -⟩ := grab_move max spins hsome
    rw [hgrab] at hmove
    cases hmove
  | look | done => cases hmove

/-- An attempt ends with what it could get. -/
theorem finish (h : Attempting max before phase count) {result : Except Fault Nat}
    (hmove : phase.move spins = .finish result) :
    result = .ok (min max before.toInt.toNat) ∧
      count.toInt = before.toInt - min max before.toInt.toNat := by
  cases h with
  | grab hsome =>
    obtain ⟨left, next, hgrab, -⟩ := grab_move max spins hsome
    rw [hgrab] at hmove
    cases hmove
  | look => cases hmove
  | done hafter =>
    cases hmove
    exact ⟨rfl, hafter⟩

/-- Accesses in a row lead an attempt on. -/
theorem undisturbed {n : Nat} {p q : Phase × Int64} (haccesses : Undisturbed spins n p q)
    (h : Attempting max before p.1 p.2) : Attempting max before q.1 q.2 := by
  induction haccesses with
  | refl => exact h
  | head access reply hmove hperform _ hnext _ ih =>
    have hafter := h.access hmove false
    rw [hperform, hnext] at hafter
    exact ih hafter

end Phase.Attempting

/-- An attempt that is alone takes what there is, up to its maximum, and does nothing else. -/
theorem call_attempt (serve : Server κ) (s : Semaphore κ) (max : Nat) :
    ∃ after, s.call serve (.attempt (.upTo max)) =
        (.ok (.took (min max s.count.toInt.toNat)), { s with count := after }) ∧
      after.toInt = s.count.toInt - min max s.count.toInt.toNat := by
  obtain ⟨n, hn, tokens, rest, haccesses⟩ : ∃ n ≤ 2, ∃ tokens rest,
      Phase.Undisturbed s.spins n (.look (.upTo max) .attempt, s.count) (.done tokens, rest) :=
    Phase.undisturbed_look (fun _ => rfl) s.count
  have hmoves : n < s.movesFor := by
    unfold movesFor
    omega
  have hrun := haccesses.run_done hmoves serve s.kernel s.journal
  have hdone : Phase.Attempting max s.count (.done tokens) rest :=
    Phase.Attempting.undisturbed haccesses .look
  have hover : (Phase.done tokens).move s.spins = .finish (.ok tokens) := rfl
  obtain ⟨htokens, hcount⟩ := hdone.finish hover
  cases htokens
  refine ⟨rest, ?_, hcount⟩
  simp only [call, Phase.ofCall, hrun]
  rfl

/-- Attempts one after the other divide what there is, and do nothing else. -/
theorem exists_divided (serve : Server κ) (s : Semaphore κ) (maxima : List Nat) :
    ∃ taken after, callAll serve (attempts maxima) s =
        (taken.map fun tokens => .ok (.took tokens), { s with count := after }) ∧
      Divided s.count maxima taken after := by
  induction maxima generalizing s with
  | nil => exact ⟨[], s.count, rfl, .of_shares rfl (Int.sub_zero _).symm⟩
  | cons max rest ih =>
    obtain ⟨between, hcall, hbetween⟩ := call_attempt serve s max
    obtain ⟨taken, after, hcalls, hdivided⟩ := ih { s with count := between }
    rw [attempts] at hcalls
    refine ⟨_, after, ?_, hdivided.cons hbetween⟩
    simp only [attempts, List.map_cons, callAll, hcall, hcalls]

/-! ## Attempts of a thread that is alone -/

/-- A thread has made some attempts, which have taken so many tokens each and left the count at
`before`, and has the rest still to make. -/
structure Halfway (start : Int64) (maxima taken rest : List Nat) (made : List (Call × Nat))
    (before : Int64) : Prop where
  /-- What the attempts have answered is what they have taken. -/
  answers_eq : (Script.mk (attempts rest) made).answers = taken.map .took
  /-- With what the others will take, it is what the attempts should get. -/
  shares_eq : shares start.toInt.toNat maxima = taken ++ shares before.toInt.toNat rest
  /-- The count has gone down by what has been taken. -/
  count_eq : before.toInt = start.toInt - taken.sum

/-- One more attempt is over. -/
theorem Halfway.step {start before after : Int64} {maxima taken rest : List Nat} {max : Nat}
    {made : List (Call × Nat)} (h : Halfway start maxima taken (max :: rest) made before)
    (hafter : after.toInt = before.toInt - min max before.toInt.toNat) :
    Halfway start maxima (taken ++ [min max before.toInt.toNat]) rest
      ((.attempt (.upTo max), min max before.toInt.toNat) :: made) after := by
  obtain ⟨hanswers, hshares, hcount⟩ := h
  have htokens : after.toInt.toNat =
      before.toInt.toNat - min max before.toInt.toNat := by omega
  refine ⟨?_, ?_, ?_⟩
  · rw [Script.answers] at hanswers ⊢
    rw [List.reverse_cons, List.map_append, List.map_append, hanswers]
    rfl
  · rw [hshares, shares, htokens, List.append_cons]
  · rw [List.sum_append, List.sum_singleton]
    omega

/-- When all attempts have been made, they have divided what there was. -/
theorem Halfway.divided {start before : Int64} {maxima taken : List Nat}
    {made : List (Call × Nat)} (h : Halfway start maxima taken [] made before) :
    Divided start maxima taken before := by
  have hshares := h.shares_eq
  rw [shares, List.append_nil] at hshares
  exact .of_shares hshares.symm h.count_eq

namespace Crowd

/-- The crowds that a thread comes to which makes attempts alone around a semaphore: between two
of them, or in one. -/
inductive Dividing (s : Semaphore Nat) (maxima : List Nat) :
    Crowd Nat Kernel.Request Unit Script → Prop where
  /-- It has made some of the attempts. -/
  | idle {taken rest : List Nat} {made : List (Call × Nat)} {count : Int64}
      (hhalfway : Halfway s.count maxima taken rest made count) :
      Dividing s maxima ⟨⟨count, s.kernel, ()⟩, [⟨⟨attempts rest, made⟩, .idle⟩]⟩
  /-- It is making the next one. -/
  | calling {taken rest : List Nat} {made : List (Call × Nat)} {before count : Int64} {max : Nat}
      {phase : Phase} (hhalfway : Halfway s.count maxima taken (max :: rest) made before)
      (hphase : phase.Attempting max before count) :
      Dividing s maxima
        ⟨⟨count, s.kernel, ()⟩, [⟨⟨attempts (max :: rest), made⟩, .calling phase⟩]⟩

variable {s : Semaphore Nat} {maxima : List Nat} {spins : Nat}
  {pool next : Crowd Nat Kernel.Request Unit Script} {c : Circumstance} {i : Nat}

/-- Between two attempts a thread can only begin the next one. -/
theorem dividing_idle {taken rest : List Nat} {made : List (Call × Nat)} {count : Int64}
    {after : Thread Script Kernel.Request} {left : Shared Nat Unit}
    (hhalfway : Halfway s.count maxima taken rest made count)
    (hcourse : Course spins (Script.plan Unit) c ⟨⟨attempts rest, made⟩, .idle⟩
      ⟨count, s.kernel, ()⟩ after left) : Dividing s maxima ⟨left, [after]⟩ := by
  cases hcourse with
  | start call resume hmode hplan =>
    cases rest with
    | nil => cases hplan
    | cons max rest =>
      cases hplan
      exact .calling hhalfway .look
  | touch change hmode hplan => cases rest <;> cases hplan
  | access phase access next hmode => cases hmode
  | request phase request next granted tokens hmode => cases hmode
  | finish phase tokens call resume hmode => cases hmode
  | fail phase fault hmode => cases hmode

/-- In an attempt a thread can only go on with it or end it. -/
theorem dividing_calling {taken rest : List Nat} {made : List (Call × Nat)}
    {before count : Int64} {max : Nat} {phase : Phase} {after : Thread Script Kernel.Request}
    {left : Shared Nat Unit} (hhalfway : Halfway s.count maxima taken (max :: rest) made before)
    (hphase : phase.Attempting max before count)
    (hcourse : Course spins (Script.plan Unit) c
      ⟨⟨attempts (max :: rest), made⟩, .calling phase⟩ ⟨count, s.kernel, ()⟩ after left) :
    Dividing s maxima ⟨left, [after]⟩ := by
  cases hcourse with
  | start call resume hmode => cases hmode
  | touch change hmode => cases hmode
  | access phase access next hmode hmove =>
    cases hmode
    exact .calling hhalfway (hphase.access hmove _)
  | request phase request next granted tokens hmode hmove =>
    cases hmode
    exact absurd hmove hphase.not_request
  | finish phase tokens call resume hmode hmove hplan =>
    cases hmode
    cases hplan
    obtain ⟨htokens, hcount⟩ := hphase.finish hmove
    cases htokens
    exact .idle (hhalfway.step hcount)
  | fail phase fault hmode hmove =>
    cases hmode
    cases (hphase.finish hmove).1

/-- Every step of a thread that makes attempts alone leads on. -/
theorem Dividing.advance (h : Dividing s maxima pool)
    (hstep : (machine Kernel.Counter.kernel spins (Script.plan Unit)).advance c i pool =
      some next) : Dividing s maxima next := by
  cases h with
  | idle hhalfway =>
    obtain ⟨after, left, hmove, rfl⟩ := Machine.exists_step_of_single hstep
    simp only [machine] at hmove
    refine dividing_idle hhalfway (course_of_step hmove ?_)
    rintro phase stage ⟨⟩
  | calling hhalfway hphase =>
    obtain ⟨after, left, hmove, rfl⟩ := Machine.exists_step_of_single hstep
    simp only [machine] at hmove
    refine dividing_calling hhalfway hphase (course_of_step hmove ?_)
    rintro phase stage ⟨⟩

/-- Every run of a thread that makes attempts alone comes to such a crowd. -/
theorem Dividing.of_reaches
    (hrun : (machine Kernel.Counter.kernel spins (Script.plan Unit)).Reaches
      (around Kernel.Request s () [.ofCalls (attempts maxima)]) pool) :
    Dividing s maxima pool := by
  induction hrun with
  | refl =>
    have hstart : Halfway s.count maxima [] maxima [] s.count := by
      refine ⟨rfl, ?_, ?_⟩
      · rw [List.nil_append]
      · rw [List.sum_nil]
        omega
    exact .idle hstart
  | tail c i _ hstep ih => exact ih.advance hstep

/-- A thread that makes attempts alone does not break off, and when it has made them all, they have
divided what there was. -/
theorem Dividing.divided (h : Dividing s maxima pool) {thread : Thread Script Kernel.Request}
    (hthread : thread ∈ pool.threads) :
    (∀ fault, thread.mode ≠ .broken fault) ∧
      (thread.mode = .idle → thread.state.todo = [] →
        ∃ taken, thread.state.answers = taken.map .took ∧
          Divided s.count maxima taken pool.shared.count ∧ pool.shared.kernel = s.kernel) := by
  cases h with
  | @idle taken rest made count hhalfway =>
    obtain rfl := List.mem_singleton.mp hthread
    refine ⟨nofun, fun _ htodo => ?_⟩
    obtain rfl : rest = [] := List.map_eq_nil_iff.mp htodo
    exact ⟨taken, hhalfway.answers_eq, hhalfway.divided, rfl⟩
  | calling hhalfway hphase =>
    obtain rfl := List.mem_singleton.mp hthread
    exact ⟨nofun, nofun⟩

end Crowd

/-- Batching is additive. Signals one after the other leave the count and hand the kernel the tokens
that one signal of their sum does, whatever the count is and wherever it comes to be positive, as
long as there is room for all tokens. Attempts one after the other take together what there is, up
to the sum of their maxima, and take it from the count. They do so with any server, and in every
run of a thread that is alone, also if exchanges fail for no reason on the way. -/
theorem batching_additive (s : Semaphore Nat) :
    (∀ amounts : List Nat, (∀ amount ∈ amounts, 0 < amount) →
      -(Count.limit : Int) ≤ s.count.toInt → amounts.sum ≤ Count.limit →
      s.count.toInt + amounts.sum ≤ Count.limit →
      ∃ each once,
        callAll (serverOf Kernel.Counter.kernel) (amounts.map .signal) s =
          (amounts.map fun _ => .ok .done, each) ∧
        s.call (serverOf Kernel.Counter.kernel) (.signal amounts.sum) =
          (if amounts = [] then .error .signalNotPositive else .ok .done, once) ∧
        each.count = once.count ∧ each.kernel = once.kernel ∧ s.Signalled amounts.sum each) ∧
    (∀ {κ : Type} (serve : Server κ) (t : Semaphore κ) (maxima : List Nat),
      ∃ taken after,
        callAll serve (attempts maxima) t =
          (taken.map fun tokens => .ok (.took tokens), { t with count := after }) ∧
        Divided t.count maxima taken after) ∧
    ∀ (spins : Nat) (maxima : List Nat) (pool : Crowd Nat Kernel.Request Unit Script),
      (Crowd.machine Kernel.Counter.kernel spins (Script.plan Unit)).Reaches
        (Crowd.around Kernel.Request s () [.ofCalls (attempts maxima)]) pool →
      ∀ thread ∈ pool.threads, (∀ fault, thread.mode ≠ .broken fault) ∧
        (thread.mode = .idle → thread.state.todo = [] →
          ∃ taken, thread.state.answers = taken.map .took ∧
            Divided s.count maxima taken pool.shared.count ∧ pool.shared.kernel = s.kernel) := by
  refine ⟨?_, fun serve t maxima => exists_divided serve t maxima, ?_⟩
  · intro amounts hpos hlow hfew hroom
    obtain ⟨each, hcalls, heach⟩ := exists_signalled_all hpos hlow hfew hroom
    rcases amounts with _ | ⟨amount, rest⟩
    · exact ⟨each, s, hcalls, rfl, (heach.unique (.refl s)).1, (heach.unique (.refl s)).2, heach⟩
    · have hamount := (List.forall_mem_cons.mp hpos).1
      have hsum : 0 < (amount :: rest).sum := by
        rw [List.sum_cons]
        omega
      obtain ⟨once, hcall, honce⟩ := exists_signalled hsum hfew ⟨hlow, by omega⟩
      obtain ⟨hcount, hkernel⟩ := heach.unique honce
      exact ⟨each, once, hcalls, hcall, hcount, hkernel, heach⟩
  · intro spins maxima pool hrun thread hthread
    exact (Crowd.Dividing.of_reaches hrun).divided hthread

/-- The second of two signals finds the last of three waiters and brings the count above zero. A
thread that is alone takes two of five tokens after an exchange that fails for no reason, and then
the other three. -/
theorem batching_additive_crossing :
    (∃ each once : Semaphore Nat,
      callAll (serverOf Kernel.Counter.kernel) [.signal 2, .signal 4] ⟨-3, 0, 7, []⟩ =
        ([.ok .done, .ok .done], each) ∧
      call (serverOf Kernel.Counter.kernel) (.signal 6) ⟨-3, 0, 7, []⟩ = (.ok .done, once) ∧
      each.count = once.count ∧ each.kernel = once.kernel ∧ each.kernel = 10) ∧
    ∃ pool : Crowd Nat Kernel.Request Unit Script,
      (Crowd.machine Kernel.Counter.kernel 0 (Script.plan Unit)).Reaches
        (Crowd.around Kernel.Request ⟨5, 0, 7, []⟩ () [.ofCalls (attempts [2, 9])]) pool ∧
      ∃ taken : List Nat, taken.sum = min 5 11 ∧ pool.shared.count.toInt = 5 - taken.sum := by
  obtain ⟨hsignals, -, -⟩ := batching_additive ⟨-3, 0, 7, []⟩
  obtain ⟨-, -, hruns⟩ := batching_additive ⟨5, 0, 7, []⟩
  obtain ⟨each, once, hcalls, hcall, hcount, hkernel, heach⟩ :=
    hsignals [2, 4] (by decide) (by decide) (by decide) (by decide)
  have hrun := Machine.run_reaches
    (m := Crowd.machine Kernel.Counter.kernel 0 (Script.plan Unit))
    (p := Crowd.around Kernel.Request ⟨5, 0, 7, []⟩ () [.ofCalls (attempts [2, 9])])
    (q := ⟨⟨0, 7, ()⟩, [⟨⟨[], [(.attempt (.upTo 9), 3), (.attempt (.upTo 2), 2)]⟩, .idle⟩]⟩)
    [(.usual, 0), (.usual, 0), (⟨.mishap, .zero, 0⟩, 0), (.usual, 0), (.usual, 0),
      (.usual, 0), (.usual, 0), (.usual, 0), (.usual, 0)] rfl
  obtain ⟨taken, -, hdivided, -⟩ := (hruns 0 [2, 9] _ hrun _ List.mem_cons_self).2 rfl rfl
  exact ⟨⟨each, once, hcalls, hcall, hcount, hkernel, heach.kernel_eq⟩, _, hrun, taken,
    hdivided.sum_eq, hdivided.count_eq⟩

end WordSync.Semaphore
