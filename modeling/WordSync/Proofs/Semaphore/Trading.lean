import Mathlib.Algebra.Order.BigOperators.Group.List
import Mathlib.Algebra.Order.Group.Nat
import Mathlib.Data.List.Forall2
import WordSync.Proofs.Semaphore.Visits
import WordSync.Proofs.Semaphore.Waiters
import WordSync.Semaphore.Exercise

/-!
# Traders never wait for each other in vain

A trader puts in a number of tokens and then takes as many before it puts in the next. It may
get tokens of others, and others may get its own. But the tokens that traders have put in and not
yet taken back are all there, on offer or in the kernel. If there were no traders but those that
have finished and those that sleep, and the kernel had no token, then there would be none at all,
and nobody would have one to wait for.
-/

namespace WordSync.Semaphore.Exercise

/-- The largest number of tokens that a trader puts in at once. -/
def largest (amounts : List Nat) : Nat := amounts.max?.getD 0

namespace Trader

/-- The tokens that a trader has put in and not taken back. -/
def owed {π : Type} (thread : Thread Trader π) : Nat :=
  match thread.mode, plan thread.state with
  | .calling phase, .call call _ => call.stake - (phase.held + phase.raising)
  | _, _ => thread.state.need

/-- A trader takes back what it still needs, or begins a new round. -/
theorem plan_cases {trader : Trader} {call : Call} {resume : Nat → Trader}
    (h : plan trader = .call call resume) :
    (0 < trader.need ∧ call = .acquire (.upTo trader.need) .forever ∧
        resume = fun tokens =>
          ⟨trader.rounds, trader.need - tokens, trader.taken + tokens⟩) ∨
      (trader.need = 0 ∧ ∃ n rest, trader.rounds = n :: rest ∧ call = .signal n ∧
        resume = fun _ => ⟨rest, n, trader.taken⟩) := by
  obtain ⟨rounds, need, taken⟩ := trader
  by_cases hneed : 0 < need
  · simp only [plan, if_pos hneed, Deed.call.injEq] at h
    exact .inl ⟨hneed, h.1.symm, h.2.symm⟩
  · simp only [plan, if_neg hneed] at h
    cases rounds with
    | nil => cases h
    | cons n rest =>
      cases h
      exact .inr ⟨by simpa using hneed, n, rest, rfl, rfl, rfl⟩

/-- A trader touches nothing but the semaphore. -/
theorem plan_ne_touch (trader : Trader) (change : Unit → Unit × Trader) :
    plan trader ≠ .touch change := by
  intro h
  unfold plan at h
  split at h
  · cases h
  · split at h <;> cases h

/-- A trader that stops has nothing left to take or to put in. -/
theorem of_plan_eq_stop {trader : Trader} (h : plan trader = .stop) :
    trader.need = 0 ∧ trader.rounds = [] := by
  obtain ⟨rounds, need, taken⟩ := trader
  by_cases hneed : 0 < need
  · simp only [plan, if_pos hneed, reduceCtorEq] at h
  · simp only [plan, if_neg hneed] at h
    cases rounds with
    | nil => exact ⟨by simpa using hneed, rfl⟩
    | cons n rest => cases h

/-- A trader whose rounds were `amounts` in the beginning is as honest as it should be. -/
structure Honest (amounts : List Nat) (thread : Thread Trader Kernel.Request) : Prop where
  /-- What it knows is right. -/
  sound : thread.mode.Sound
  /-- It does what its plan says. -/
  follows : thread.Follows plan
  /-- It has taken, needs and is going to put in what it had to put in in all. -/
  total : thread.state.taken + thread.state.need + thread.state.rounds.sum = amounts.sum
  /-- It needs no more than it has put in at once. -/
  need_le : thread.state.need ≤ largest amounts
  /-- It puts in something in each round, and no more than the largest of its amounts. -/
  rounds_le : ∀ n ∈ thread.state.rounds, 0 < n ∧ n ≤ largest amounts

variable {spins : Nat} {c : Circumstance} {amounts : List Nat}
variable {before after : Thread Trader Kernel.Request} {shared shared' : Shared Nat Unit}

/-- A trader puts in something in each round. -/
theorem Honest.plan_ne_signal_zero (honest : Honest amounts before) (resume : Nat → Trader) :
    plan before.state ≠ .call (.signal 0) resume := by
  intro hplan
  rcases plan_cases hplan with ⟨_, hcall, _⟩ | ⟨_, n, rest, hround, hcall, _⟩
  · cases hcall
  · cases hcall
    have hpositive := honest.rounds_le 0 (by rw [hround]; exact List.mem_cons_self ..)
    omega

/-- No trader breaks off. -/
theorem Honest.not_broken (honest : Honest amounts before) (fault : Fault) :
    before.mode ≠ .broken fault :=
  honest.follows.not_broken honest.plan_ne_signal_zero fault

/-- No call of a trader breaks off. -/
theorem Honest.not_failing {state : Trader} {phase : Phase}
    (honest : Honest amounts ⟨state, .calling phase⟩) (fault : Fault) :
    phase.move spins ≠ .finish (.error fault) :=
  honest.follows.not_failing honest.sound honest.plan_ne_signal_zero fault

/-- What a trader has put in and not taken back changes by what it adds to the count and by what
it takes. -/
theorem Honest.owed_step (honest : Honest amounts before)
    (h : Crowd.Course spins plan c before shared after shared')
    (hlimit : largest amounts ≤ Count.limit) (hlow : -(Count.limit : Int) ≤ shared.count.toInt)
    (hhigh : shared.count.toInt + before.mode.share Phase.raising ≤ Count.limit) :
    owed after + (after.mode.share Phase.held - before.mode.share Phase.held) =
      owed before + before.mode.share Phase.raising := by
  have hsound := honest.sound
  have hfollows := honest.follows
  have hrounds := honest.rounds_le
  obtain ⟨state, mode⟩ := before
  -- What a move does that leads a call to one of its phases.
  have hmove {phase next : Phase} {call : Call} {resume : Nat → Trader}
      (hplan : plan state = .call call resume) (hcomes : call.Comes phase)
      (hvisits : call.Visits next) (hheld : phase.held ≤ next.held) :
      owed (⟨state, .calling next⟩ : Thread Trader Kernel.Request) + (next.held - phase.held) =
        owed (⟨state, .calling phase⟩ : Thread Trader Kernel.Request) + phase.raising := by
    have hbefore := hcomes.share_le_stake
    have hafter := hvisits.held_add_registered_le
    simp only [owed, hplan, hvisits.raising_eq_zero]
    omega
  cases h with
  | start call resume hmode hplan =>
    obtain rfl : mode = .idle := hmode
    have hcall : plan state = .call call resume := hplan
    rcases plan_cases hcall with ⟨hneed, rfl, -⟩ | ⟨hneed, n, rest, hround, rfl, -⟩
    · simp only [owed, hcall]
      rfl
    · have hn := hrounds n (by rw [hround]; exact List.mem_cons_self ..)
      have hfirst : Phase.ofCall (.signal n) = .raise n := if_neg (by omega)
      simp only [owed, hcall, hfirst, Mode.share, Call.stake, Phase.held, Phase.raising]
      omega
  | touch change hmode hplan => exact absurd hplan (plan_ne_touch state change)
  | access phase access next hmode hmoves =>
    obtain rfl : mode = .calling phase := hmode
    obtain ⟨call, resume, hplan, hcomes⟩ := hfollows
    have hleads : phase.AccessLeads access next (c.chance == .mishap) shared.count shared.kernel :=
      Phase.access_leads hmoves hsound _ hlow hhigh
    exact hmove hplan hcomes (Phase.visits_of_access hmoves hcomes hsound _ hlow)
      hleads.2.held_le
  | request phase request next granted tokens hmode hmoves hserve =>
    obtain rfl : mode = .calling phase := hmode
    obtain ⟨call, resume, hplan, hcomes⟩ := hfollows
    exact hmove hplan hcomes (Phase.visits_of_request hmoves hcomes granted)
      (Phase.request_leads hmoves hserve shared.count).2.held_le
  | finish phase tokens call resume hmode hmoves hplan =>
    obtain rfl : mode = .calling phase := hmode
    have hcall : plan state = .call call resume := hplan
    rcases Phase.finish_cases hmoves hsound with ⟨_, rfl, hok⟩ | ⟨_, _, hfault⟩
    · cases hok
      have htakes := honest.follows.takes hcall
      rcases plan_cases hcall with ⟨hneed, rfl, rfl⟩ | ⟨hneed, n, rest, hround, rfl, rfl⟩
      · simp only [owed, hcall, Mode.share, Call.stake, Demand.bound, Phase.held, Phase.raising]
        omega
      · obtain ⟨rfl, -⟩ : tokens = 0 ∧ n ≠ 0 := htakes
        simp only [owed, hcall, Mode.share, Call.stake, Phase.held, Phase.raising]
        omega
    · cases hfault
  | fail phase fault hmode hmoves =>
    obtain rfl : mode = .calling phase := hmode
    exact absurd hmoves (honest.not_failing fault)

/-- An honest trader stays honest. -/
theorem Honest.step (honest : Honest amounts before)
    (h : Crowd.Course spins plan c before shared after shared') (hsound : after.mode.Sound)
    (hlow : -(Count.limit : Int) ≤ shared.count.toInt) : Honest amounts after := by
  have hfollows := h.follows honest.follows honest.sound hlow
  have htotal := honest.total
  have hneed := honest.need_le
  have hrounds := honest.rounds_le
  obtain ⟨state, mode⟩ := before
  cases h with
  | start => exact ⟨hsound, hfollows, htotal, hneed, hrounds⟩
  | touch change hmode hplan => exact absurd hplan (plan_ne_touch state change)
  | access => exact ⟨hsound, hfollows, htotal, hneed, hrounds⟩
  | request => exact ⟨hsound, hfollows, htotal, hneed, hrounds⟩
  | finish phase tokens call resume hmode hmoves hplan =>
    obtain rfl : mode = .calling phase := hmode
    have hcall : plan state = .call call resume := hplan
    rcases Phase.finish_cases hmoves honest.sound with ⟨_, rfl, hok⟩ | ⟨_, _, hfault⟩
    · cases hok
      have htakes := (honest.follows.takes hcall).le_stake
      rcases plan_cases hcall with ⟨hpositive, rfl, rfl⟩ | ⟨hnone, n, rest, hround, rfl, rfl⟩
      · simp only [Call.stake, Demand.bound] at htakes
        refine ⟨hsound, hfollows, ?_, ?_, hrounds⟩
        · dsimp only at htotal ⊢
          omega
        · dsimp only at hneed ⊢
          omega
      · simp only [hround, List.sum_cons, List.forall_mem_cons] at htotal hrounds
        refine ⟨hsound, hfollows, ?_, hrounds.1.2, hrounds.2⟩
        dsimp only
        omega
    · cases hfault
  | fail phase fault hmode hmoves =>
    obtain rfl : mode = .calling phase := hmode
    exact absurd hmoves (honest.not_failing fault)

/-- What an honest trader has put in and not taken back, together with what it is about to put
in, is no more than it puts in at once. -/
theorem Honest.owed_le (honest : Honest amounts before) :
    owed before + before.mode.share Phase.raising ≤ largest amounts := by
  obtain ⟨state, mode⟩ := before
  have hneed : state.need ≤ largest amounts := honest.need_le
  cases mode with
  | idle => exact hneed
  | broken fault => exact hneed
  | requesting phase stage => exact absurd honest.sound id
  | calling phase =>
    obtain ⟨call, resume, hplan, hcomes⟩ := honest.follows
    have hcall : plan state = .call call resume := hplan
    have hstake : call.stake ≤ largest amounts := by
      rcases plan_cases hcall with ⟨_, rfl, _⟩ | ⟨_, n, rest, hround, rfl, _⟩
      · exact hneed
      · exact (honest.rounds_le n (by rw [hround]; exact List.mem_cons_self ..)).2
    have hphase := hcomes.share_le_stake
    simp only [owed, hcall, Mode.share]
    omega

/-- A trader that waits has something to take back. -/
theorem Honest.registered_le (honest : Honest amounts before) :
    before.share Phase.registered ≤ owed before := by
  obtain ⟨state, mode⟩ := before
  cases mode with
  | idle => exact Nat.zero_le _
  | broken fault => exact Nat.zero_le _
  | requesting phase stage => exact absurd honest.sound id
  | calling phase =>
    obtain ⟨call, resume, hplan, hcomes⟩ := honest.follows
    have hcall : plan state = .call call resume := hplan
    have hphase := hcomes.share_le_stake
    simp only [Thread.share, owed, hcall, Mode.share]
    omega

/-- A trader that has come to the end of its rounds. -/
def Finished {π : Type} (thread : Thread Trader π) : Prop :=
  thread.mode = .idle ∧ plan thread.state = .stop

/-- A trader that has finished has taken what it has put in, and has nothing more to take. -/
theorem Honest.of_finished (honest : Honest amounts before) (h : Finished before) :
    before.state.taken = amounts.sum ∧ owed before = 0 := by
  obtain ⟨hneed, hrounds⟩ := of_plan_eq_stop h.2
  have htotal := honest.total
  rw [hneed, hrounds, List.sum_nil] at htotal
  refine ⟨htotal, ?_⟩
  simp only [owed, h.1, hneed]

end Trader

/-! ## All traders together -/

/-- Related lists stay related when one entry is replaced by another that is related to all that
it was related to. -/
theorem forall₂_set {α β : Type} {R : α → β → Prop} {as : List α} {bs : List β}
    (h : List.Forall₂ R as bs) {i : Nat} {a a' : α} (hi : as[i]? = some a)
    (hreplace : ∀ b, R a b → R a' b) : List.Forall₂ R (as.set i a') bs := by
  induction h generalizing i with
  | nil => exact .nil
  | cons hfirst hrest ih =>
    cases i with
    | zero =>
      obtain rfl := Option.some.inj hi
      exact .cons (hreplace _ hfirst) hrest
    | succ i => exact .cons hfirst (ih hi)

/-- What holds of a crowd of traders at any time, if their rounds were `programs` in the
beginning. -/
structure Trading (initial : Nat) (programs : List (List Nat))
    (pool : Crowd Nat Kernel.Request Unit Trader) : Prop where
  /-- All traders are honest. -/
  honest : List.Forall₂ (fun thread amounts => Trader.Honest amounts thread) pool.threads programs
  /-- Every waiter waits for a token that the count owes, that is in the kernel, or that is on
  the way there. -/
  waiters : (Crowd.total (Thread.share Phase.registered) pool.threads : Int) =
    max 0 (-pool.shared.count.toInt) + pool.shared.kernel +
      Crowd.total (Thread.share Phase.pending) pool.threads
  /-- Every token that was there, or that a trader has put in and not taken back, is on offer, in
  the kernel, or on the way there. -/
  tokens : (initial : Int) + Crowd.total Trader.owed pool.threads =
    max 0 pool.shared.count.toInt + pool.shared.kernel +
      Crowd.total (Thread.share Phase.pending) pool.threads

namespace Trading

variable {initial spins : Nat} {programs : List (List Nat)}
variable {pool next : Crowd Nat Kernel.Request Unit Trader}

/-- The rounds of a trader of the crowd. -/
theorem exists_program (h : Trading initial programs pool) {i : Nat}
    {thread : Thread Trader Kernel.Request} (hi : pool.threads[i]? = some thread) :
    ∃ amounts ∈ programs, Trader.Honest amounts thread := by
  obtain ⟨hlt, rfl⟩ := List.getElem?_eq_some_iff.mp hi
  have hlt' : i < programs.length := by
    rw [← h.honest.length_eq]
    exact hlt
  exact ⟨programs[i], List.getElem_mem hlt', h.honest.get hlt hlt'⟩

/-- What has been put in and not taken back, together with what is about to be put in, is no more
than all traders put in at once. -/
theorem total_owed_le (h : Trading initial programs pool) :
    Crowd.total Trader.owed pool.threads +
        Crowd.total (Thread.share Phase.raising) pool.threads ≤
      (programs.map largest).sum := by
  have hsum : List.Forall₂ (· ≤ ·)
      (pool.threads.map fun thread => Trader.owed thread + thread.share Phase.raising)
      (programs.map largest) :=
    List.forall₂_map_left_iff.mpr (List.forall₂_map_right_iff.mpr
      (h.honest.imp fun _ _ honest => honest.owed_le))
  rw [Crowd.total, Crowd.total, ← List.sum_map_add]
  exact hsum.sum_le_sum

/-- All waiters together have something to take back. -/
theorem total_registered_le (h : Trading initial programs pool) :
    Crowd.total (Thread.share Phase.registered) pool.threads ≤
      Crowd.total Trader.owed pool.threads := by
  refine List.sum_le_sum fun thread hthread => ?_
  obtain ⟨i, hi⟩ := List.mem_iff_getElem?.mp hthread
  obtain ⟨amounts, -, honest⟩ := h.exists_program hi
  exact honest.registered_le

/-- Traders around a new semaphore. -/
theorem start {crowd : Crowd Nat Kernel.Request Unit Trader}
    (hcrowd : Crowd.assemble Kernel.Counter.kernel initial ()
      (programs.map fun amounts => Trader.mk amounts 0 0) = .ok crowd)
    (hpositive : ∀ amounts ∈ programs, ∀ n ∈ amounts, 0 < n) :
    Trading initial programs crowd := by
  obtain ⟨hcount, rfl⟩ := Crowd.assemble_eq_ok hcrowd
  have hnone : Crowd.total Trader.owed (Crowd.around Kernel.Request ⟨.ofNat initial, 0, 0, []⟩ ()
      (programs.map fun amounts => Trader.mk amounts 0 0)).threads = 0 := by
    refine List.sum_eq_zero fun n hn => ?_
    simp only [Crowd.around, List.map_map, List.mem_map, Function.comp_apply] at hn
    obtain ⟨amounts, -, rfl⟩ := hn
    rfl
  refine ⟨?_, ?_, ?_⟩
  · refine List.forall₂_map_left_iff.mpr (List.forall₂_map_left_iff.mpr
      (List.forall₂_same.mpr fun amounts hamounts => ?_))
    exact ⟨trivial, trivial, by simp only [Nat.zero_add], Nat.zero_le _,
      fun n hn => ⟨hpositive amounts hamounts n hn, List.le_max?_getD_of_mem hn⟩⟩
  · simp only [Crowd.around, Crowd.total_idle, hcount]
    omega
  · rw [hnone]
    simp only [Crowd.around, Crowd.total_idle, hcount]
    omega

/-- Traders stay as they should be. -/
theorem advance (h : Trading initial programs pool)
    (hlimit : initial + (programs.map largest).sum ≤ Count.limit) {c : Circumstance} {i : Nat}
    (hstep : (Crowd.machine Kernel.Counter.kernel spins Trader.plan).advance c i pool =
      some next) : Trading initial programs next := by
  obtain ⟨before, after, shared, hi, hmove, rfl⟩ := Machine.advance_eq_some_iff.mp hstep
  obtain ⟨amounts, hamounts, honest⟩ := h.exists_program hi
  have howed := h.total_owed_le
  have hregistered := h.total_registered_le
  have hwaiters := h.waiters
  have htokens := h.tokens
  have hraising : before.share Phase.raising ≤
      Crowd.total (Thread.share Phase.raising) pool.threads :=
    List.le_sum_of_mem (List.mem_map_of_mem (List.mem_of_getElem? hi))
  have hlargest : largest amounts ≤ (programs.map largest).sum :=
    List.le_sum_of_mem (List.mem_map_of_mem hamounts)
  simp only [Thread.share] at hraising
  have hlow : -(Count.limit : Int) ≤ pool.shared.count.toInt := by omega
  have hhigh : pool.shared.count.toInt + before.mode.share Phase.raising ≤ Count.limit := by
    omega
  have hcourse := Crowd.course_of_step hmove honest.sound.whole
  have hcase := Crowd.step_cases hmove honest.sound hlow hhigh
  have hstake := honest.owed_step hcourse (by omega) hlow hhigh
  have hmoved := hcase.tokens
  have htotal := Crowd.total_set Trader.owed hi after
  have hpending := Crowd.total_set (Thread.share Phase.pending) hi after
  refine ⟨?_, hcase.waiters_set hi hwaiters, ?_⟩
  · exact forall₂_set h.honest hi fun amounts honest => honest.step hcourse hcase.sound hlow
  · simp only [Thread.share] at hpending htokens ⊢
    omega

/-- Where every trader has finished or sleeps, no signal is under way, and the waiters are those
that sleep. -/
theorem total_of_asleep
    (h : ∀ thread ∈ pool.threads, Trader.Finished thread ∨ thread.mode.asleep = true) :
    Crowd.total (Thread.share Phase.registered) pool.threads =
        (pool.threads.countP fun thread => thread.mode.asleep) ∧
      Crowd.total (Thread.share Phase.pending) pool.threads = 0 := by
  refine Accounted.total_of_asleep fun thread hthread => ?_
  rcases h thread hthread with ⟨hidle, -⟩ | hasleep
  · rw [hidle]
    exact .inl rfl
  · exact .inr hasleep

end Trading

/-- Some trader has not finished, and all those that have not sleep in the kernel, which has no
token. -/
structure Deadlocked (pool : Crowd Nat Kernel.Request Unit Trader) : Prop where
  /-- Not all traders have finished. -/
  unfinished : ∃ thread ∈ pool.threads, ¬Trader.Finished thread
  /-- The others sleep. -/
  asleep : ∀ thread ∈ pool.threads, Trader.Finished thread ∨ thread.mode.asleep = true
  /-- There is no token in the kernel. -/
  empty : pool.shared.kernel = 0

namespace Trading

variable {initial : Nat} {programs : List (List Nat)}
variable {pool : Crowd Nat Kernel.Request Unit Trader}

/-- If the kernel has no token and somebody sleeps, there is none on offer either, and then
nobody has put one in that he could be waiting for. -/
theorem not_deadlocked (h : Trading initial programs pool) : ¬Deadlocked pool := by
  intro hdead
  obtain ⟨thread, hthread, hunfinished⟩ := hdead.unfinished
  obtain ⟨hsleepers, hpending⟩ := total_of_asleep hdead.asleep
  have hasleep : thread.mode.asleep = true :=
    (hdead.asleep thread hthread).resolve_left hunfinished
  have hsome : 0 < pool.threads.countP fun thread => thread.mode.asleep :=
    List.countP_pos_iff.mpr ⟨thread, hthread, hasleep⟩
  have hempty := hdead.empty
  have hregistered := h.total_registered_le
  have hwaiters := h.waiters
  have htokens := h.tokens
  omega

/-- When all traders have finished, each has taken what it has put in, and all tokens are back
where they were. -/
theorem of_finished (h : Trading initial programs pool)
    (hfinished : ∀ thread ∈ pool.threads, Trader.Finished thread) :
    pool.threads.map (fun thread => thread.state.taken) = programs.map List.sum ∧
      pool.shared.count.toInt = initial ∧ pool.shared.kernel = 0 := by
  have hdone := (List.forall₂_and_left _ _).mpr ⟨hfinished, h.honest⟩
  have htaken : List.Forall₂ (· = ·) (pool.threads.map fun thread => thread.state.taken)
      (programs.map List.sum) :=
    List.forall₂_map_left_iff.mpr (List.forall₂_map_right_iff.mpr
      (hdone.imp fun _ _ hthread => (hthread.2.of_finished hthread.1).1))
  have howed : Crowd.total Trader.owed pool.threads = 0 := by
    refine List.sum_eq_zero fun n hn => ?_
    obtain ⟨thread, hthread, rfl⟩ := List.mem_map.mp hn
    obtain ⟨i, hi⟩ := List.mem_iff_getElem?.mp hthread
    obtain ⟨amounts, -, honest⟩ := h.exists_program hi
    exact (honest.of_finished (hfinished thread hthread)).2
  obtain ⟨-, hpending⟩ := total_of_asleep fun thread hthread => .inl (hfinished thread hthread)
  have hregistered := h.total_registered_le
  have hwaiters := h.waiters
  have htokens := h.tokens
  rw [List.forall₂_eq_eq_eq] at htaken
  exact ⟨htaken, by omega, by omega⟩

end Trading

/-- Traders never deadlock and never break off, in whatever order they make their steps. When all
of them have finished, each has taken as many tokens as it has put in, and the semaphore is as it
was. -/
theorem traders_balanced {initial spins : Nat} {programs : List (List Nat)}
    {crowd pool : Crowd Nat Kernel.Request Unit Trader}
    (hcrowd : Crowd.assemble Kernel.Counter.kernel initial ()
      (programs.map fun amounts => Trader.mk amounts 0 0) = .ok crowd)
    (hpositive : ∀ amounts ∈ programs, ∀ n ∈ amounts, 0 < n)
    (hlimit : initial + (programs.map largest).sum ≤ Count.limit)
    (hreach : (Crowd.machine Kernel.Counter.kernel spins Trader.plan).Reaches crowd pool) :
    ¬Deadlocked pool ∧
      (∀ thread ∈ pool.threads, ∀ fault, thread.mode ≠ .broken fault) ∧
      ((∀ thread ∈ pool.threads, Trader.Finished thread) →
        pool.threads.map (fun thread => thread.state.taken) = programs.map List.sum ∧
          pool.shared.count.toInt = initial ∧ pool.shared.kernel = 0) := by
  have htrading : Trading initial programs pool := by
    induction hreach with
    | refl => exact .start hcrowd hpositive
    | tail c i _ hstep ih => exact ih.advance hlimit hstep
  refine ⟨htrading.not_deadlocked, fun thread hthread fault => ?_, htrading.of_finished⟩
  obtain ⟨i, hi⟩ := List.mem_iff_getElem?.mp hthread
  obtain ⟨amounts, -, honest⟩ := htrading.exists_program hi
  exact honest.not_broken fault

/-- One trader has put in two tokens and taken two, another has put in and taken one token
twice. -/
def settled : Crowd Nat Kernel.Request Unit Trader :=
  ⟨⟨1, 0, ()⟩, [⟨⟨[], 0, 2⟩, .idle⟩, ⟨⟨[], 0, 2⟩, .idle⟩]⟩

theorem traders_balanced_settled :
    ∃ crowd : Crowd Nat Kernel.Request Unit Trader,
      Crowd.assemble Kernel.Counter.kernel 1 ()
        ([[2], [1, 1]].map fun amounts => Trader.mk amounts 0 0) = .ok crowd ∧
      (∀ amounts ∈ [[2], [1, 1]], ∀ n ∈ amounts, 0 < n) ∧
      1 + ([[2], [1, 1]].map largest).sum ≤ Count.limit ∧
      (Crowd.machine Kernel.Counter.kernel 1 Trader.plan).Reaches crowd settled ∧
      ¬Deadlocked settled ∧
      (∀ thread ∈ settled.threads, Trader.Finished thread) ∧
      settled.threads.map (fun thread => thread.state.taken) = [[2], [1, 1]].map List.sum ∧
      settled.shared.count.toInt = (1 : Nat) ∧ settled.shared.kernel = 0 := by
  have hcrowd : Crowd.assemble Kernel.Counter.kernel 1 ()
      ([[2], [1, 1]].map fun amounts => Trader.mk amounts 0 0) =
        .ok (Crowd.around Kernel.Request ⟨1, 0, 0, []⟩ ()
          ([[2], [1, 1]].map fun amounts => Trader.mk amounts 0 0)) := rfl
  have hpositive : ∀ amounts ∈ [[2], [1, 1]], ∀ n ∈ amounts, 0 < n := by decide
  have hlimit : 1 + ([[2], [1, 1]].map largest).sum ≤ Count.limit := by decide
  have hrun : (Crowd.machine Kernel.Counter.kernel 1 Trader.plan).Reaches
      (Crowd.around Kernel.Request ⟨1, 0, 0, []⟩ ()
        ([[2], [1, 1]].map fun amounts => Trader.mk amounts 0 0)) settled :=
    Machine.run_reaches
      ([0, 1, 0, 1, 0, 1, 0, 1, 0, 1, 1, 0, 0, 1, 0, 1, 1, 1, 1, 1, 1, 1].map
        fun i => (Circumstance.usual, i)) rfl
  have hfinished : ∀ thread ∈ settled.threads, Trader.Finished thread := by
    simp only [settled, List.forall_mem_cons]
    exact ⟨⟨rfl, rfl⟩, ⟨rfl, rfl⟩, fun _ hthread => absurd hthread List.not_mem_nil⟩
  obtain ⟨hdeadlock, -, hbalanced⟩ := traders_balanced hcrowd hpositive hlimit hrun
  exact ⟨_, hcrowd, hpositive, hlimit, hrun, hdeadlock, hfinished, hbalanced hfinished⟩

end WordSync.Semaphore.Exercise
