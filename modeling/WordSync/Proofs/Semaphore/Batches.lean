import WordSync.Proofs.Semaphore.Removals

/-!
# Batches

A call for as many tokens as there are, up to a maximum, answers with a number. That number is
what its steps have removed from the count and from the kernel. It is never more than the
maximum, whatever the maximum is and whatever other threads do in between; and as long as the
count does not wrap around, none of the arithmetic that leads to it overflows or rounds. A call
for no tokens at all changes nothing.
-/

namespace WordSync.Semaphore

open Crowd

variable {δ σ : Type} {spins : Nat} {plan : Plan δ σ}

namespace Call

/-- The maximum of a call for as many tokens as there are. -/
def batch? : Call → Option Nat
  | .attempt (.upTo max) => some max
  | .acquire (.upTo max) _ => some max
  | _ => none

/-- Whether a call waits for its first token as long as it takes. -/
def endless : Call → Bool
  | .acquire _ .forever => true
  | _ => false

end Call

/-! ## The arithmetic of a batch -/

/-- The arithmetic of a call that takes up to `max` of the tokens that it has seen: every check
passes, and every result is the one that plain numbers have. -/
structure Exact (max : Nat) (seen left : Int64) (tokens : Nat) : Prop where
  /-- What the call leaves can be computed. -/
  left_ok : (Demand.upTo max).left seen = .ok left
  /-- It is what it does not take. -/
  left_eq : left.toInt = seen.toInt - tokens
  /-- What it takes can be computed. -/
  taken_ok : (Demand.upTo max).taken seen left = .ok tokens
  /-- It is what there is, up to the maximum, even if that is larger than every count. -/
  taken_eq : (tokens : Int) = min (max : Int) seen.toInt
  /-- It can be added to a first token. -/
  sum_ok : Count.addAmounts 1 tokens = .ok (1 + tokens)

/-- Nothing overflows or rounds where tokens are taken from a positive count. -/
theorem exists_exact (max : Nat) {seen : Int64} (hseen : 0 < seen.toInt) :
    ∃ left tokens, Exact max seen left tokens := by
  obtain ⟨left, hleft, hrest⟩ := (Demand.upTo max).exists_left hseen
  obtain ⟨tokens, htaken, htokens⟩ := Demand.exists_taken hseen hrest
  have hrange := Count.toInt_range seen
  have hfits : 1 + tokens < Count.amountLimit := by
    simp only [Count.limit, Count.amountLimit] at hrange ⊢
    omega
  have hmost : (Demand.upTo max).most.toInt = ((min max Count.limit : Nat) : Int) :=
    Count.toInt_clamp max
  refine ⟨left, tokens, hleft, by omega, htaken, by omega, Count.addAmounts_of_lt hfits⟩

/-- What a call is about to take tokens for, and the count that it has seen. -/
def Phase.grabs? : Phase → Option (Demand × Int64)
  | .grab demand _ seen => some (demand, seen)
  | .spinGrab demand _ _ seen => some (demand, seen)
  | _ => none

/-- The two kinds of calls for as many tokens as there are. -/
theorem Call.batch_cases {call : Call} {max : Nat} (h : call.batch? = some max) :
    call = .attempt (.upTo max) ∨ ∃ patience, call = .acquire (.upTo max) patience := by
  cases call with
  | attempt demand =>
    cases demand with
    | one => cases h
    | upTo most =>
      cases h
      exact .inl rfl
  | acquire demand patience =>
    cases demand with
    | one => cases h
    | upTo most =>
      cases h
      exact .inr ⟨patience, rfl⟩
  | signal count => cases h

/-- A call for as many tokens as there are is for tokens. -/
theorem Call.acquires_of_batch {call : Call} {max : Nat} (h : call.batch? = some max) :
    call.acquires := by
  rcases Call.batch_cases h with rfl | ⟨patience, rfl⟩ <;> rfl

/-- A call for up to `max` tokens looks for as many, or for one less after its first token. -/
theorem Call.Looks.batch {call : Call} {max : Nat} {demand : Demand} {purpose : Purpose}
    (h : call.Looks demand purpose) (hbatch : call.batch? = some max) :
    ∃ most, demand = .upTo most ∧ (most = max ∨ 1 < max ∧ most + 1 = max) := by
  cases purpose with
  | attempt =>
    obtain rfl : call = .attempt demand := h
    rcases Call.batch_cases hbatch with hcall | ⟨patience, hcall⟩
    · cases hcall
      exact ⟨max, rfl, .inl rfl⟩
    · cases hcall
  | opening patience =>
    obtain rfl : call = .acquire demand patience := h
    rcases Call.batch_cases hbatch with hcall | ⟨patience', hcall⟩
    · cases hcall
    · cases hcall
      exact ⟨max, rfl, .inl rfl⟩
  | topUp =>
    obtain ⟨max', patience, hmax, rfl, rfl⟩ := h
    cases hbatch
    exact ⟨max - 1, rfl, .inr ⟨hmax, by omega⟩⟩

/-- Wherever a call takes tokens from the count, its arithmetic is exact. -/
theorem Drawn.exact {call : Call} {steps : List (Stride δ σ)} {phase : Phase} {max : Nat}
    {demand : Demand} {seen : Int64} (h : Drawn spins call steps phase) (hsound : phase.Sound)
    (hbatch : call.batch? = some max) (hgrabs : phase.grabs? = some (demand, seen)) :
    ∃ most left tokens, demand = .upTo most ∧ (most = max ∨ 1 < max ∧ most + 1 = max) ∧
      Exact most seen left tokens := by
  have hvisits := h.visits
  have hlooks : 0 < seen.toInt ∧ ∃ purpose, call.Looks demand purpose := by
    cases phase with
    | grab demand' purpose seen' =>
      cases hgrabs
      exact ⟨hsound, purpose, hvisits⟩
    | spinGrab demand' patience left seen' =>
      cases hgrabs
      exact ⟨hsound, .opening patience, hvisits.2⟩
    | _ => cases hgrabs
  obtain ⟨hseen, purpose, hlooks⟩ := hlooks
  obtain ⟨most, rfl, hmost⟩ := hlooks.batch hbatch
  obtain ⟨left, tokens, hexact⟩ := exists_exact most hseen
  exact ⟨most, left, tokens, rfl, hmost, hexact⟩

/-! ## Calls that do not wait -/

namespace Phase

variable {demand : Demand} {purpose : Purpose}

/-- A call that does not look again takes what there is by one exchange. -/
theorem undisturbed_considered (hdone : ∀ tokens, settled spins demand purpose tokens = done tokens)
    (count : Int64) : ∃ n ≤ 1, ∃ tokens rest,
      Undisturbed spins n (considered spins demand purpose count, count) (done tokens, rest) := by
  unfold considered
  by_cases hpos : 0 < count
  · have hseen := Count.pos_iff.mp hpos
    obtain ⟨rest, hleft, hrest⟩ := demand.exists_left hseen
    obtain ⟨tokens, htaken, -⟩ := Demand.exists_taken hseen hrest
    refine ⟨1, Nat.le_refl 1, tokens, rest, ?_⟩
    rw [if_pos hpos]
    refine .head (.exchangeWeak count rest) (.ok count)
      (by simp only [move, hleft, exchangeFor]; rfl) (if_pos ⟨rfl, rfl⟩) rfl ?_ (.refl _)
    simp only [htaken, ofAmount, hdone]
  · rw [if_neg hpos, hdone]
    exact ⟨0, Nat.zero_le 1, 0, count, .refl _⟩

/-- It does so after it has looked at the count. -/
theorem undisturbed_look (hdone : ∀ tokens, settled spins demand purpose tokens = done tokens)
    (count : Int64) : ∃ n ≤ 2, ∃ tokens rest,
      Undisturbed spins n (look demand purpose, count) (done tokens, rest) := by
  obtain ⟨n, hn, tokens, rest, hrest⟩ := undisturbed_considered hdone count
  exact ⟨n + 1, by omega, tokens, rest, .head .load count rfl rfl rfl rfl hrest⟩

/-- It does so as well after an exchange that fails because the count has changed. -/
theorem undisturbed_grab (hdone : ∀ tokens, settled spins demand purpose tokens = done tokens)
    {seen : Int64} (hseen : 0 < seen.toInt) (count : Int64) : ∃ n ≤ 2, ∃ tokens rest,
      Undisturbed spins n (grab demand purpose seen, count) (done tokens, rest) := by
  by_cases hsame : count = seen
  · subst hsame
    obtain ⟨n, hn, hrest⟩ := undisturbed_considered hdone count
    rw [considered, if_pos (Count.pos_iff.mpr hseen)] at hrest
    exact ⟨n, by omega, hrest⟩
  · obtain ⟨n, hn, tokens, rest, hrest⟩ := undisturbed_considered hdone count
    obtain ⟨left, hleft, -⟩ := demand.exists_left hseen
    refine ⟨n + 1, by omega, tokens, rest, .head (.exchangeWeak seen left) (.error count)
      (by simp only [move, hleft, exchangeFor]; rfl) (if_neg fun h => hsame h.2) rfl rfl hrest⟩

end Phase

/-- A call that does not wait is over after two accesses to the count, once it is left alone. -/
theorem Drawn.prompt {call : Call} {steps : List (Stride δ σ)} {phase : Phase}
    (h : Drawn spins call steps phase) (hsound : phase.Sound) (hacquires : call.acquires)
    (hprompt : call.waits = false) (count : Int64) : ∃ n ≤ 2, ∃ tokens rest,
      Phase.Undisturbed spins n (phase, count) (.done tokens, rest) := by
  have hvisits := h.visits
  have hdone {demand : Demand} {purpose : Purpose} (hlooks : call.Looks demand purpose)
      (tokens : Nat) : Phase.settled spins demand purpose tokens = .done tokens := by
    cases purpose with
    | attempt => rfl
    | opening patience =>
      cases hlooks
      have hnone : demand.wanted = false := hprompt
      simp only [Phase.settled, hnone, Bool.false_eq_true, and_false, if_false]
    | topUp =>
      obtain ⟨max, patience, hmax, -, rfl⟩ := hlooks
      have hnone : ¬0 < max := of_decide_eq_false hprompt
      omega
  cases phase with
  | look demand purpose => exact Phase.undisturbed_look (hdone hvisits) count
  | grab demand purpose seen => exact Phase.undisturbed_grab (hdone hvisits) hsound count
  | spin | spinGrab | enlist | park =>
    exact absurd hvisits.2 (Call.ne_acquire hprompt hvisits.1)
  | recheck | claim | withdraw =>
    obtain ⟨hdemand, timeout, hcall⟩ := hvisits
    exact absurd hcall (Call.ne_acquire hprompt hdemand)
  | raise amount => exact absurd hvisits id
  | post amount =>
    obtain ⟨_, _, rfl⟩ := hvisits
    cases hacquires
  | done tokens => exact ⟨0, Nat.zero_le 2, tokens, count, .refl _⟩
  | failed fault => exact absurd hvisits id

/-! ## Batches in every run -/

/-- A call for up to `max` tokens has come away with so many of them by some steps. -/
structure Batch (spins : Nat) (call : Call) (max : Nat) (steps : List (Stride δ σ))
    (tokens : Nat) : Prop where
  /-- They are no more than the maximum. -/
  tokens_le : tokens ≤ max
  /-- A call that waits as long as it takes has at least one. -/
  tokens_pos : call.endless → 0 < max → 0 < tokens
  /-- They are those that the steps have removed from the count and from the kernel. -/
  tokens_eq : tokens = removed spins steps
  /-- A call for no tokens only looks at the count: it neither changes it nor asks the kernel. -/
  idle : max = 0 → Idle spins steps

/-- All is well with the batches of a recorded run that has led to a pool. -/
structure Crowd.BatchesExact (spins : Nat) (plan : Plan δ σ) (log : List (Stride δ σ))
    (pool : Crowd Nat Kernel.Request δ σ) : Prop where
  /-- A call that returns answers with the tokens that it has removed. -/
  returned : ∀ earlier e later call resume max answer, log = earlier ++ e :: later →
    Event.ofStep spins plan e.before e.found e.left = some (.returned answer) →
    plan e.before.state = .call call resume → call.batch? = some max →
    ∃ tokens, answer = .took tokens ∧ Batch spins call max (episode e.number earlier) tokens
  /-- Whenever a call takes tokens from the count, its arithmetic is exact. -/
  exact : ∀ e ∈ log, ∀ phase call resume max demand seen, e.before.mode = .calling phase →
    plan e.before.state = .call call resume → call.batch? = some max →
    phase.grabs? = some (demand, seen) →
    ∃ most left tokens, demand = .upTo most ∧ (most = max ∨ 1 < max ∧ most + 1 = max) ∧
      Exact most seen left tokens
  /-- No call breaks off. -/
  unbroken : ∀ thread ∈ pool.threads, ∀ call resume max,
    plan thread.state = .call call resume → call.batch? = some max → ∀ fault,
      thread.mode ≠ .broken fault ∧ thread.mode ≠ .calling (.failed fault)
  /-- A call that does not wait returns after two more accesses to the count at most, once it is
  left alone. -/
  prompt : ∀ thread ∈ pool.threads, ∀ phase call resume max, thread.mode = .calling phase →
    plan thread.state = .call call resume → call.batch? = some max → call.waits = false →
    ∃ n ≤ 2, ∃ tokens rest,
      Phase.Undisturbed spins n (phase, pool.shared.count) (.done tokens, rest)

section Runs

variable {s : Semaphore Nat} {data : δ} {states : List σ} {log : List (Stride δ σ)}
  {pool : Crowd Nat Kernel.Request δ σ}

/-- Calls for as many tokens as there are, up to a maximum, in every run of every crowd around
every semaphore in which the count does not wrap around. What a call answers is what its steps
have removed from the count and from the kernel, and it is no more than the maximum. It is
nothing only if the call does not wait for ever or the maximum is zero; in that case the call
does nothing but look at the count. Its arithmetic never overflows or rounds, whatever the
maximum is, so no call breaks off, and one that does not wait is over as soon as it is left
alone. -/
theorem batches_exact
    (hlog : (Crowd.machine Kernel.Counter.kernel spins plan).Recorded
      (Crowd.around Kernel.Request s data states) log pool)
    (hwraps : ∀ e ∈ log, e.before.wraps spins e.found.count = false) :
    Crowd.BatchesExact spins plan log pool := by
  have hdraws {earlier later : List (Stride δ σ)} {e : Stride δ σ}
      (hmoment : log = earlier ++ e :: later) :
      Draws spins plan (episode e.number earlier) e.before := by
    obtain ⟨before, hbefore, hthread, -⟩ := hlog.exists_before hmoment
    refine .of_recorded hbefore (fun d hd => hwraps d ?_) hthread
    rw [hmoment]
    exact List.mem_append_left _ hd
  have hthreads {thread : Thread σ Kernel.Request} (hthread : thread ∈ pool.threads) :
      ∃ steps, Draws spins plan steps thread := by
    obtain ⟨i, hi⟩ := List.getElem?_of_mem hthread
    exact ⟨_, .of_recorded hlog hwraps hi⟩
  constructor
  case returned =>
    intro earlier e later call resume max answer hmoment hreturn hcall hbatch
    obtain ⟨phase, tokens, call', resume', hmode, hmove, hplan, rfl⟩ :=
      Event.returned_cases hreturn
    obtain ⟨rfl, -⟩ : call' = call ∧ resume' = resume := by simpa using hplan.symm.trans hcall
    have hdrawn := (hdraws hmoment).calling _ _ _ hmode hplan (Call.acquires_of_batch hbatch)
    have hsound := (hdraws hmoment).sound
    rw [hmode] at hsound
    rcases Phase.finish_cases hmove hsound with ⟨_, rfl, htokens⟩ | ⟨_, _, hfault⟩
    · cases htokens
      have htakes : call'.Takes tokens := hdrawn.visits
      rcases Call.batch_cases hbatch with rfl | ⟨patience, rfl⟩
      · refine ⟨tokens, rfl, htakes, nofun, hdrawn.held_eq, ?_⟩
        rintro rfl
        exact hdrawn.idle rfl
      · refine ⟨tokens, rfl, htakes.le_stake, ?_, hdrawn.held_eq, ?_⟩
        · intro hendless hmax
          cases patience with
          | forever => exact htakes.2 (decide_eq_true hmax)
          | within timeout => cases hendless
        · rintro rfl
          exact hdrawn.idle rfl
    · cases hfault
  case exact =>
    intro e he phase call resume max demand seen hmode hcall hbatch hgrabs
    obtain ⟨earlier, later, hmoment⟩ := List.append_of_mem he
    have hsound := (hdraws hmoment).sound
    rw [hmode] at hsound
    exact ((hdraws hmoment).calling _ _ _ hmode hcall (Call.acquires_of_batch hbatch)).exact
      hsound hbatch hgrabs
  case unbroken =>
    intro thread hthread call resume max hcall hbatch fault
    obtain ⟨steps, hthread⟩ := hthreads hthread
    have hacquires := Call.acquires_of_batch hbatch
    constructor
    · intro hmode
      exact absurd hacquires (by rw [hthread.broken _ _ _ hmode hcall]; decide)
    · intro hmode
      exact (hthread.calling _ _ _ hmode hcall hacquires).visits
  case prompt =>
    intro thread hthread phase call resume max hmode hcall hbatch hprompt
    obtain ⟨steps, hthread⟩ := hthreads hthread
    have hacquires := Call.acquires_of_batch hbatch
    have hsound := hthread.sound
    rw [hmode] at hsound
    exact (hthread.calling _ _ _ hmode hcall hacquires).prompt hsound hacquires hprompt _

end Runs

/-- A call for up to three tokens that waits as long as it takes. -/
def patientBatch : Call := .acquire (.upTo 3) .forever

theorem batches_exact_toppedUp :
    ∃ (earlier : List (Stride Unit Script)) (e : Stride Unit Script)
        (pool : Crowd Nat Kernel.Request Unit Script),
      (Crowd.machine Kernel.Counter.kernel 0 (Script.plan Unit)).Recorded
        (Crowd.around Kernel.Request ⟨0, 0, 0, []⟩ ()
          [.ofCalls [patientBatch], .ofCalls [.signal 3]]) (earlier ++ [e]) pool ∧
      (∀ d ∈ earlier ++ [e], d.before.wraps 0 d.found.count = false) ∧
      Crowd.BatchesExact 0 (Script.plan Unit) (earlier ++ [e]) pool ∧
      Event.ofStep 0 (Script.plan Unit) e.before e.found e.left = some (.returned (.took 3)) ∧
      (episode e.number earlier).map (Stride.removes 0) = [0, 0, 1, 0, 2] := by
  -- The signal leaves two tokens in the count and hands one to the thread that waits.
  have hbefore := Machine.recorded_of_record
    (m := Crowd.machine Kernel.Counter.kernel 0 (Script.plan Unit))
    (p := Crowd.around Kernel.Request ⟨0, 0, 0, []⟩ ()
      [.ofCalls [patientBatch], .ofCalls [.signal 3]])
    [(.usual, 0), (.usual, 0), (.usual, 0), (.usual, 1), (.usual, 1), (.usual, 1), (.usual, 0),
      (.usual, 0), (.usual, 0)] rfl
  have hrun := hbefore.snoc ⟨.usual, 0, ⟨.ofCalls [patientBatch], .calling (.done 3)⟩, ⟨0, 0, ()⟩,
    ⟨⟨[], [(patientBatch, 3)]⟩, .idle⟩, ⟨0, 0, ()⟩⟩ rfl rfl rfl
  have hquiet {log : List (Stride Unit Script)}
      (h : log.all fun d => !d.before.wraps 0 d.found.count) :
      ∀ d ∈ log, d.before.wraps 0 d.found.count = false := by
    simpa only [List.all_eq_true, Bool.not_eq_true'] using h
  exact ⟨_, _, _, hrun, hquiet rfl, batches_exact hrun (hquiet rfl), rfl, rfl⟩

end WordSync.Semaphore
