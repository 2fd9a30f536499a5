import WordSync.Proofs.Semaphore.Ledger
import WordSync.Proofs.Semaphore.Looking
import WordSync.Proofs.Simulation

/-!
# Looking again is only tuning

Nobody can tell how often the calls of a crowd look again before they register. A crowd that
looks again does what a crowd does that never looks again: looks without success are no steps
there, and looks with success are three uninterrupted steps at most. The other way round, a
thread that has seen no tokens and is about to register can look again in vain first. Both
crowds come to rest with the same outcomes.
-/

namespace WordSync.Semaphore

variable {κ π δ σ : Type}

/-- A mode without looks. -/
def Mode.unspun : Mode π → Mode π
  | .calling phase => .calling phase.unspun
  | .requesting phase stage => .requesting phase.unspun stage
  | mode => mode

/-- A thread without looks. -/
def Thread.unspun (thread : Thread σ π) : Thread σ π := ⟨thread.state, thread.mode.unspun⟩

/-- Leaving out the looks twice leaves out nothing more. -/
theorem Thread.unspun_unspun (thread : Thread σ π) : thread.unspun.unspun = thread.unspun := by
  obtain ⟨state, mode⟩ := thread
  cases mode <;> simp only [unspun, Mode.unspun, Phase.unspun_unspun]

/-- A thread whose call is not just looking again has no looks to leave out. -/
theorem Thread.unspun_calling (state : σ) {phase : Phase} (hdirect : phase.Direct) :
    (⟨state, .calling phase⟩ : Thread σ π).unspun = ⟨state, .calling phase⟩ :=
  congrArg (fun phase => Thread.mk state (.calling phase)) hdirect

namespace Crowd

/-- Leave out the looks in what a step has led to. -/
def unspunStep {α : Type} (result : Thread σ π × α) : Thread σ π × α :=
  (result.1.unspun, result.2)

/-- A request is answered to the same call with and without looks. -/
theorem stepRequest_unspun (kernel : Kernel κ π) (c : Circumstance) (i : Nat) (state : σ)
    {phase : Phase} (hdirect : phase.Direct) (next : Bool → Turn) (stage : π)
    (shared : Shared κ δ) :
    (stepRequest kernel c i state phase next stage shared).map unspunStep =
      stepRequest kernel c i state phase (fun granted => (next granted).unspun) stage shared := by
  unfold stepRequest
  cases kernel.step c i stage shared.kernel with
  | none => rfl
  | some result =>
    obtain ⟨progress, k⟩ := result
    cases progress with
    | working stage =>
      simp only [Option.map_some, unspunStep, Thread.unspun, Mode.unspun]
      rw [hdirect]
    | answered granted => rfl
    | broken fault => rfl

/-- A thread that is not just looking again makes the step that it makes if it never does. -/
theorem step_unspun (kernel : Kernel κ π) (spins : Nat) (plan : Plan δ σ) (c : Circumstance)
    (i : Nat) {thread : Thread σ π} (hdirect : thread.unspun = thread) (shared : Shared κ δ) :
    (step kernel spins plan c i thread shared).map unspunStep =
      step kernel 0 plan c i thread shared := by
  obtain ⟨state, mode⟩ := thread
  cases mode with
  | idle =>
    simp only [step]
    cases plan state with
    | call call resume =>
      simp only [Option.map_some, unspunStep, Thread.unspun, Mode.unspun]
      rw [Phase.direct_ofCall]
    | touch change => rfl
    | stop => rfl
  | calling phase =>
    have hphase : phase.Direct := Mode.calling.inj (congrArg Thread.mode hdirect)
    simp only [step]
    rw [← Phase.move_unspun spins hphase]
    cases phase.move spins with
    | access access next => rfl
    | request request next =>
      exact stepRequest_unspun kernel c i state hphase next (kernel.start request) shared
    | finish result =>
      cases result with
      | error fault => rfl
      | ok tokens =>
        simp only [Move.unspun]
        cases plan state <;> rfl
  | requesting phase stage =>
    have hphase : phase.Direct := (Mode.requesting.inj (congrArg Thread.mode hdirect)).1
    simp only [step]
    rw [← Phase.move_unspun spins hphase]
    cases phase.move spins with
    | access access next => rfl
    | request request next =>
      exact stepRequest_unspun kernel c i state hphase next stage shared
    | finish result => rfl
  | broken fault => rfl

end Crowd

/-- What happens in a step does not depend on how often a call looks again. -/
theorem History.note_unspun (spins : Nat) (plan : Plan δ σ) (i : Nat)
    {thread : Thread σ Kernel.Request} (hdirect : thread.unspun = thread) (found : Shared Nat δ)
    (result : Thread σ Kernel.Request × Shared Nat δ) (history : History) :
    note 0 plan i (thread, found) (Crowd.unspunStep result) history =
      note spins plan i (thread, found) result history := by
  obtain ⟨state, mode⟩ := thread
  cases mode with
  | calling phase =>
    have hphase : phase.Direct := Mode.calling.inj (congrArg Thread.mode hdirect)
    simp only [note, Event.ofStep, Thread.wraps]
    rw [← Phase.move_unspun spins hphase]
    cases phase.move spins <;> rfl
  | _ => rfl

variable {spins : Nat} {plan : Plan δ σ} {c : Circumstance} {i : Nat}

/-- A thread that is not just looking again makes the step that it makes if it never does, and
leaves the same note. -/
theorem Crowd.chronicled_step_unspun (spins : Nat) (plan : Plan δ σ) (c : Circumstance) (i : Nat)
    {thread : Thread σ Kernel.Request} (hdirect : thread.unspun = thread)
    (shared : Shared Nat δ × History) :
    ((chronicled spins plan).step c i thread shared).map unspunStep =
      (chronicled 0 plan).step c i thread shared := by
  simp only [chronicled, Machine.observed, machine]
  rw [← step_unspun _ spins plan c i hdirect]
  cases step Kernel.Counter.kernel spins plan c i thread shared.1 with
  | none => rfl
  | some result =>
    simp only [Option.map_some, ← History.note_unspun spins plan i hdirect]
    rfl

/-- What a thread knows after a step is right. This does not need a count that is far from the
ends of its range. -/
theorem Crowd.step_sound {before after : Thread σ Kernel.Request} {shared shared' : Shared Nat δ}
    (hstep : step Kernel.Counter.kernel spins plan c i before shared = some (after, shared'))
    (hsound : before.mode.Sound) : after.mode.Sound := by
  cases course_of_step hstep hsound.whole with
  | start call => exact (Phase.holds_ofCall call).sound
  | touch => trivial
  | access phase access next hmode hmove =>
    rw [hmode] at hsound
    exact (Phase.onward_of_access hmove hsound _ _).sound
  | request phase request next granted _ _ hmove => exact (Phase.sound_of_request hmove granted).1
  | finish => trivial
  | fail => trivial

/-- A thread begins to look again only where there are no tokens. -/
theorem Crowd.step_direct {before after : Thread σ Kernel.Request} {shared shared' : Shared Nat δ}
    (hstep : step Kernel.Counter.kernel spins plan c i before shared = some (after, shared'))
    (hsound : before.mode.Sound) (hdirect : before.unspun = before) :
    after.unspun = after ∨ ∃ demand patience,
      after = ⟨before.state, .calling (.respin demand patience spins)⟩ ∧ ¬0 < shared'.count := by
  obtain ⟨state, mode⟩ := before
  cases course_of_step hstep hsound.whole with
  | start call => exact .inl (Thread.unspun_calling state (Phase.direct_ofCall call))
  | touch => exact .inl rfl
  | access phase access next hmode hmove =>
    obtain rfl : mode = .calling phase := hmode
    have hphase : phase.Direct := Mode.calling.inj (congrArg Thread.mode hdirect)
    have honward : phase.GoesBy spins access next (c.chance == .mishap) shared.count :=
      Phase.onward_of_access hmove hsound _ _
    rcases honward.direct hphase with hnext | ⟨demand, patience, hnext, hcount⟩
    · exact .inl (Thread.unspun_calling state hnext)
    · exact .inr ⟨demand, patience, by rw [hnext], hcount⟩
  | request phase request next granted tokens hmode hmove =>
    exact .inl (Thread.unspun_calling state (Phase.sound_of_request hmove granted).2)
  | finish => exact .inl rfl
  | fail => exact .inl rfl

/-! ## Carrying runs over -/

/-- A step that accesses the count without making it wrap around leaves no note. -/
theorem Crowd.chronicled_step_access (plan : Plan δ σ) {phase : Phase}
    {access : Cell.Access Int64} {next : access.Reply → Turn}
    (hmove : phase.move spins = .access access next) {count : Int64}
    (hwraps : access.wraps count = false) (c : Circumstance) (i : Nat) (state : σ) (kernel : Nat)
    (data : δ) (history : History) :
    (chronicled spins plan).step c i ⟨state, .calling phase⟩ (⟨count, kernel, data⟩, history) =
      some (⟨state, .calling (next (access.perform (c.chance == .mishap) count).1).phase⟩,
        (⟨(access.perform (c.chance == .mishap) count).2, kernel, data⟩, history)) := by
  simp only [chronicled, Machine.observed, machine, step, hmove, History.note, Event.ofStep,
    Thread.wraps, hwraps, Option.map_none, Option.toList_none, List.append_nil, Bool.or_false]

/-- What a call does undisturbed, its thread does alone. -/
theorem Phase.Undisturbed.alone {n : Nat} {p q : Phase × Int64} (h : Undisturbed spins n p q)
    (plan : Plan δ σ) (i : Nat) (state : σ) (kernel : Nat) (data : δ) (history : History) :
    (Crowd.chronicled spins plan).Alone i
      (⟨state, .calling p.1⟩, (⟨p.2, kernel, data⟩, history))
      (⟨state, .calling q.1⟩, (⟨q.2, kernel, data⟩, history)) := by
  induction h with
  | refl => exact .refl
  | head access reply hmove hperform hwraps hnext _ ih =>
    refine .trans (.step .usual ?_) ih
    have hregular : (Circumstance.usual.chance == Chance.mishap) = false := rfl
    rw [Crowd.chronicled_step_access plan hmove hwraps, hregular, hperform]
    simp only [hnext]

/-- A step of a thread that looks again is no step, or three at most, if it never does. -/
theorem Crowd.leave_out_looks {before after : Thread σ Kernel.Request}
    {found left : Shared Nat δ × History} (hsound : before.mode.Sound)
    (hstep : (chronicled spins plan).step c i before found = some (after, left)) :
    (chronicled 0 plan).Alone i (before.unspun, found) (after.unspun, left) := by
  by_cases hdirect : before.unspun = before
  · have hsame := chronicled_step_unspun spins plan c i hdirect found
    rw [hstep] at hsame
    rw [hdirect]
    exact .step c hsame.symm
  · obtain ⟨state, mode⟩ := before
    obtain ⟨⟨count, kernel, data⟩, history⟩ := found
    cases mode with
    | calling phase =>
      have hlooking : ¬phase.Direct := fun h => hdirect (Thread.unspun_calling state h)
      obtain ⟨access, next, hmove, hwraps, reply, rest, hperform, n, hsteps⟩ :=
        phase.undisturbed_unspun spins hlooking hsound (c.chance == .mishap) count
      rw [chronicled_step_access plan hmove hwraps, hperform, Option.some.injEq,
        Prod.mk.injEq] at hstep
      obtain ⟨rfl, rfl⟩ := hstep
      exact hsteps.alone plan i state kernel data history
    | requesting phase stage => exact absurd hsound id
    | idle => exact absurd rfl hdirect
    | broken fault => exact absurd rfl hdirect

/-- A step of a thread that never looks again is the same step, and perhaps some looks in vain,
if it does. -/
theorem Crowd.put_in_looks {before after : Thread σ Kernel.Request}
    {found left : Shared Nat δ × History} (hsound : before.mode.Sound)
    (hdirect : before.unspun = before)
    (hstep : (chronicled 0 plan).step c i before found = some (after, left)) :
    after.unspun = after ∧ (chronicled spins plan).Alone i (before, found) (after, left) := by
  have hsame := chronicled_step_unspun spins plan c i hdirect found
  rw [hstep, Option.map_eq_some_iff] at hsame
  obtain ⟨⟨reached, left⟩, hspun, hunspun⟩ := hsame
  simp only [unspunStep, Prod.mk.injEq] at hunspun
  obtain ⟨rfl, rfl⟩ := hunspun
  refine ⟨Thread.unspun_unspun reached, .trans (.step c hspun) ?_⟩
  rcases step_direct (Machine.step_of_observed hspun) hsound hdirect with
    hreached | ⟨demand, patience, rfl, hcount⟩
  · rw [hreached]
    exact .refl
  · obtain ⟨⟨count, kernel, data⟩, history⟩ := left
    have hlooks := Phase.undisturbed_respin spins demand patience spins hcount
    simp only [Thread.unspun, Mode.unspun, Phase.unspun_respin]
    exact hlooks.alone plan i before.state kernel data history

/-! ## The outcomes -/

/-- A thread that is blocked in the kernel does not look again. -/
theorem Mode.unspun_of_blockedIn {mode : Mode π} (h : mode.blockedIn.isSome) :
    mode.unspun = mode := by
  cases mode with
  | calling phase =>
    cases phase with
    | park demand patience => rfl
    | _ => cases h
  | _ => cases h

/-- In a pool at rest nobody looks again. -/
theorem Chronicled.AtRest.unspun {pool : Chronicled δ σ} (h : pool.AtRest) :
    pool.map Thread.unspun = pool := by
  refine Pool.map_eq_self fun thread hthread => ?_
  have hmode : thread.mode.unspun = thread.mode := by
    rcases h thread hthread with hidle | ⟨fault, hbroken⟩ | ⟨hblocked, -⟩
    · rw [hidle]
      rfl
    · rw [hbroken]
      rfl
    · exact Mode.unspun_of_blockedIn hblocked
  exact congrArg (Thread.mk thread.state) hmode

/-- A pool at rest that one crowd can reach, with its history, any crowd can reach that looks
again more or less often. -/
theorem Crowd.chronicled_reaches_iff (spins : Nat) (plan : Plan δ σ)
    {start pool : Chronicled δ σ} (hstart : ∀ thread ∈ start.threads, thread.mode = .idle)
    (hrest : pool.AtRest) :
    (chronicled spins plan).Reaches start pool ↔ (chronicled 0 plan).Reaches start pool := by
  have hidle : start.AtRest := fun thread hthread => .inl (hstart thread hthread)
  have hsound : ∀ thread ∈ start.threads, thread.mode.Sound := by
    intro thread hthread
    rw [hstart thread hthread]
    trivial
  constructor
  · intro h
    have hsim : ∀ c i before found after left, before.mode.Sound →
        (chronicled spins plan).step c i before found = some (after, left) →
        after.mode.Sound ∧
          (chronicled 0 plan).Alone i (before.unspun, found) (after.unspun, left) :=
      fun c i before found after left hbefore hstep =>
        ⟨step_sound (Machine.step_of_observed hstep) hbefore, leave_out_looks hbefore hstep⟩
    have hreach := (h.simulate hsim hsound).2
    rwa [hidle.unspun, hrest.unspun] at hreach
  · intro h
    have hsim : ∀ c i before found after left,
        before.mode.Sound ∧ before.unspun = before →
        (chronicled 0 plan).step c i before found = some (after, left) →
        (after.mode.Sound ∧ after.unspun = after) ∧
          (chronicled spins plan).Alone i (before, found) (after, left) := by
      intro c i before found after left ⟨hbefore, hdirect⟩ hstep
      obtain ⟨hafter, hlooks⟩ := put_in_looks hbefore hdirect hstep
      exact ⟨⟨step_sound (Machine.step_of_observed hstep) hbefore, hafter⟩, hlooks⟩
    have hfit : ∀ thread ∈ start.threads, thread.mode.Sound ∧ thread.unspun = thread := by
      intro thread hthread
      refine ⟨hsound thread hthread, congrArg (Thread.mk thread.state) ?_⟩
      rw [hstart thread hthread]
      rfl
    have hreach := (h.simulate hsim hfit).2
    rwa [Pool.map_eq_self fun _ _ => rfl, Pool.map_eq_self fun _ _ => rfl] at hreach

/-! ## Calls without interruption -/

/-- What a call does undisturbed, it does when it is alone. -/
theorem Phase.Undisturbed.run_eq {n : Nat} {p q : Phase × Int64} (h : Undisturbed spins n p q)
    (serve : Server κ) (moves : Nat) (kernel : κ) (journal : Journal) :
    run serve (moves + n) p.1 ⟨p.2, spins, kernel, journal⟩ =
      run serve moves q.1 ⟨q.2, spins, kernel, journal⟩ := by
  induction h with
  | refl => rfl
  | head access reply hmove hperform hwraps hnext _ ih =>
    rw [← ih, ← Nat.add_assoc]
    simp only [run, hmove, hperform, hnext, noted, Option.toList_none, List.append_nil]

/-- A call that is alone and has come undisturbed to its end in no more moves than there are is
over. -/
theorem Phase.Undisturbed.run_done {n tokens moves : Nat} {phase : Phase} {count rest : Int64}
    (h : Undisturbed spins n (phase, count) (.done tokens, rest)) (hmoves : n < moves)
    (serve : Server κ) (kernel : κ) (journal : Journal) :
    run serve moves phase ⟨count, spins, kernel, journal⟩ =
      (.ok tokens, ⟨rest, spins, kernel, journal⟩) := by
  obtain ⟨more, rfl⟩ : ∃ more, moves = more + 1 + n := ⟨moves - n - 1, by omega⟩
  rw [h.run_eq serve (more + 1) kernel journal]
  rfl

/-- Tokens are on offer exactly if the count is positive, and then it says how many. -/
theorem Count.toInt_of_available {count : Int64} (h : 0 < available count) :
    0 < count.toInt ∧ (available count : Int) = count.toInt := by
  unfold available at h ⊢
  split at h
  · next hpos =>
    have hcount := pos_iff.mp hpos
    rw [if_pos hpos]
    exact ⟨hcount, amount_of_nonneg (by omega)⟩
  · omega

/-- What a demand for up to `max` tokens takes from those on offer, and what it leaves. -/
theorem Demand.take_available {count : Int64} {max : Nat} (havailable : 0 < Count.available count)
    (hmax : 0 < max) :
    0 < (upTo max).most.toInt ∧
      (count - .ofNat (min max (Count.available count))).toInt =
        count.toInt - min (upTo max).most.toInt count.toInt ∧
      ((min max (Count.available count) : Nat) : Int) = min (upTo max).most.toInt count.toInt := by
  have hrange := Count.toInt_range count
  obtain ⟨hcount, havail⟩ := Count.toInt_of_available havailable
  rw [most, Count.toInt_clamp]
  generalize Count.available count = tokens at *
  simp only [Count.limit] at hrange ⊢
  have htaken : (Int64.ofNat (min max tokens)).toInt = ((min max tokens : Nat) : Int) :=
    Int64.toInt_ofNat_of_lt (by omega)
  have hrest : (count - .ofNat (min max tokens)).toInt =
      count.toInt - (Int64.ofNat (min max tokens)).toInt :=
    Count.toInt_sub_of_range (by simp only [Count.limit]; omega) (by simp only [Count.limit]; omega)
  omega

/-- How often calls look again is only tuning. Whatever the threads of a crowd do, its runs come
to rest with the same outcomes as if no call ever looked again. In particular, where there are
tokens, the exchange of a call that looks again gets it the same tokens as registering does: one
by subtracting it, and the rest by an attempt. -/
theorem Crowd.outcomes_tuned (spins : Nat) (plan : Plan δ σ) (s : Semaphore Nat) (data : δ)
    (states : List σ) :
    outcomes spins plan (around Kernel.Request s data states) =
        outcomes 0 plan (around Kernel.Request s data states) ∧
      ∀ (serve : Server κ) (t : Semaphore κ) (patience : Patience) (left max moves : Nat),
        0 < t.available → 0 < max → 3 < moves →
          run serve moves (.spinGrab (.upTo max) patience left t.count) t =
              (.ok (min max t.available),
                { t with count := t.count - .ofNat (min max t.available) }) ∧
            run serve moves (.enlist (.upTo max) patience) t =
              (.ok (min max t.available),
                { t with count := t.count - .ofNat (min max t.available) }) := by
  constructor
  · have hstart : ∀ thread ∈ ((around Kernel.Request s data states).noted History.empty).threads,
        thread.mode = .idle := by
      intro thread hthread
      obtain ⟨state, _, rfl⟩ := List.mem_map.mp hthread
      rfl
    ext outcome
    constructor
    · rintro ⟨pool, hreach, hrest, hrun⟩
      exact ⟨pool, (chronicled_reaches_iff spins plan hstart hrest).mp hreach, hrest, hrun⟩
    · rintro ⟨pool, hreach, hrest, hrun⟩
      exact ⟨pool, (chronicled_reaches_iff spins plan hstart hrest).mpr hreach, hrest, hrun⟩
  · rintro serve ⟨count, looks, kernel, journal⟩ patience left max moves havailable hmax hmoves
    have hcount := (Count.toInt_of_available havailable).1
    obtain ⟨hmost, hrest, htaken⟩ := Demand.take_available havailable hmax
    have hgrab := Phase.undisturbed_spinGrab looks patience left hcount hmost hrest htaken
    obtain ⟨n, hn, henlist⟩ := Phase.undisturbed_enlist looks patience hcount hmost hrest htaken
    exact ⟨hgrab.run_done (by omega) serve kernel journal,
      henlist.run_done (by omega) serve kernel journal⟩

/-- One thread has begun to take up to three tokens when another puts in two, and gets them
both. -/
def Chronicled.handedOver : Chronicled Unit Script :=
  ⟨(⟨0, 0, ()⟩,
      ⟨[(0, .called (.acquire (.upTo 3) .forever)), (1, .called (.signal 2)),
        (1, .returned .done), (0, .returned (.took 2))], false⟩),
    [⟨⟨[], [(.acquire (.upTo 3) .forever, 2)]⟩, .idle⟩, ⟨⟨[], [(.signal 2, 0)]⟩, .idle⟩]⟩

theorem Crowd.outcomes_tuned_handedOver :
    Chronicled.handedOver.outcome ∈ outcomes 2 (Script.plan Unit)
        (around Kernel.Request ⟨0, 2, 0, []⟩ ()
          [.ofCalls [.acquire (.upTo 3) .forever], .ofCalls [.signal 2]]) ∧
      0 < Count.available 5 ∧
      run (serverOf Kernel.Counter.kernel) 4 (.enlist (.upTo 3) .forever) ⟨5, 2, 0, []⟩ =
        (.ok 3, ⟨2, 2, 0, []⟩) := by
  have htuned := outcomes_tuned 2 (Script.plan Unit) ⟨0, 2, 0, []⟩ ()
    [.ofCalls [.acquire (.upTo 3) .forever], .ofCalls [.signal 2]] (κ := Nat)
  have hidle : ∀ thread ∈ Chronicled.handedOver.threads, thread.mode = .idle := by decide
  have hreach := Machine.run_reaches
      (m := chronicled 0 (Script.plan Unit))
      (p := (around Kernel.Request ⟨0, 2, 0, []⟩ ()
        [Script.ofCalls [.acquire (.upTo 3) .forever], .ofCalls [.signal 2]]).noted .empty)
      (q := Chronicled.handedOver)
      [(.usual, 0), (.usual, 0), (.usual, 1), (.usual, 1), (.usual, 1), (.usual, 0), (.usual, 0),
        (.usual, 0), (.usual, 0)] rfl
  constructor
  · rw [htuned.1]
    exact ⟨_, hreach, fun thread hthread => .inl (hidle thread hthread), rfl, rfl⟩
  · exact ⟨by decide, (htuned.2 (serverOf Kernel.Counter.kernel) ⟨5, 2, 0, []⟩ .forever 0 3 4
      (by decide) (by decide) (by decide)).2⟩

end WordSync.Semaphore
