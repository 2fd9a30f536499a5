import WordSync.Proofs.Recording
import WordSync.Proofs.Semaphore.Course
import WordSync.Proofs.Semaphore.Transcript

/-!
# A thread that is alone

A crowd of one thread differs from a call that runs without interruption in what is decided
outside the program: a weak exchange may fail for no reason, and a timed wait expires whenever
its time is over. Whatever is decided, the thread sees what a plain number of tokens would show
it, and it can always go on. Only the moves that go wrong are not bounded in number.
-/

namespace WordSync.Semaphore

variable {δ σ : Type}

/-! ## What is noted of a step -/

namespace History

variable {spins : Nat} {plan : Plan δ σ} {thread after : Thread σ Kernel.Request}
  {found left : Shared Nat δ} {call : Call} {phase : Phase}

/-- A thread that begins a call. -/
theorem note_start (hmode : thread.mode = .idle) {resume : Nat → σ}
    (hplan : plan thread.state = .call call resume) (i : Nat) (history : History) :
    note spins plan i (thread, found) (after, left) history =
      ⟨history.events ++ [(i, .called call)], history.wrapped⟩ := by
  simp only [note, Event.ofStep, Thread.wraps, hmode, hplan, Option.map_some, Option.toList_some,
    Bool.or_false]

/-- A thread that accesses the count. -/
theorem note_access (hmode : thread.mode = .calling phase) {access : Cell.Access Int64}
    {next : access.Reply → Turn} (hmove : phase.move spins = .access access next) (i : Nat)
    (history : History) :
    note spins plan i (thread, found) (after, left) history =
      ⟨history.events, history.wrapped || access.wraps found.count⟩ := by
  simp only [note, Event.ofStep, Thread.wraps, hmode, hmove, Option.map_none, Option.toList_none,
    List.append_nil]

/-- A thread whose request to the kernel is answered. -/
theorem note_request (hmode : thread.mode = .calling phase) {request : Kernel.Request}
    {next : Bool → Turn} (hmove : phase.move spins = .request request next) (i : Nat)
    (history : History) :
    note spins plan i (thread, found) (after, left) history =
      ⟨history.events ++ [(i, .asked request (left.kernel < found.kernel))],
        history.wrapped⟩ := by
  simp only [note, Event.ofStep, Thread.wraps, hmode, hmove, Option.map_some, Option.toList_some,
    Bool.or_false]

/-- A thread that ends a call. -/
theorem note_finish (hmode : thread.mode = .calling phase) {tokens : Nat}
    (hmove : phase.move spins = .finish (.ok tokens)) {resume : Nat → σ}
    (hplan : plan thread.state = .call call resume) (i : Nat) (history : History) :
    note spins plan i (thread, found) (after, left) history =
      ⟨history.events ++ [(i, .returned (call.answer tokens))], history.wrapped⟩ := by
  simp only [note, Event.ofStep, Thread.wraps, hmode, hmove, hplan, Option.map_some,
    Option.toList_some, Bool.or_false]

end History

/-! ## The pools that a lone thread comes to -/

/-- How many moves a thread can still make that do not go wrong, if nobody disturbs it. -/
def Thread.toGo {π : Type} (spins : Nat) (thread : Thread Script π) : Nat :=
  match thread.mode with
  | .idle => thread.state.todo.length * (spins + 10)
  | .calling phase => phase.toGo spins + (thread.state.todo.length - 1) * (spins + 10)
  | _ => 0

namespace Chronicled

/-- The pool of a thread that is alone, over a kernel without tokens. -/
def single (count : Int64) (events : List Event) (thread : Thread Script Kernel.Request) :
    Chronicled Unit Script :=
  ⟨(⟨count, 0, ()⟩, ⟨events.map (0, ·), false⟩), [thread]⟩

/-- One more event. -/
theorem single_append (count : Int64) (events : List Event) (event : Event)
    (thread : Thread Script Kernel.Request) :
    (⟨(⟨count, 0, ()⟩, ⟨events.map (0, ·) ++ [(0, event)], false⟩), [thread]⟩ :
      Chronicled Unit Script) = single count (events ++ [event]) thread := by
  simp only [single, List.map_append, List.map_cons, List.map_nil]

/-- The pools that a thread comes to which makes `calls` alone, where there are `initial` tokens
at first: between two calls, or in one of them. -/
inductive Alone (calls : List Call) (initial : Nat) : Chronicled Unit Script → Prop where
  /-- It has made some of the calls. -/
  | idle {made rest : List Call} (past : List (Call × Nat)) (hcalls : calls = made ++ rest) :
      Alone calls initial
        (single (.ofNat (tally made initial)) (story made initial) ⟨⟨rest, past⟩, .idle⟩)
  /-- It is making the next one. -/
  | calling {made rest : List Call} {call : Call} {phase : Phase} {count : Int64}
      {asked : List Kernel.Request} (past : List (Call × Nat))
      (hcalls : calls = made ++ call :: rest)
      (hlone : phase.Lone call (tally made initial) count asked) :
      Alone calls initial
        (single count
          (story made initial ++ Event.called call :: asked.map fun request => .asked request false)
          ⟨⟨call :: rest, past⟩, .calling phase⟩)

/-- A thread has made one more call when that has returned. -/
theorem Alone.returned {calls made rest : List Call} {initial : Nat} {call : Call}
    (hcalls : calls = made ++ call :: rest) (past : List (Call × Nat)) :
    Alone calls initial
      (single (.ofNat (call.leaves (tally made initial)))
        (story made initial ++ call.story (tally made initial)) ⟨⟨rest, past⟩, .idle⟩) := by
  have hmade : calls = (made ++ [call]) ++ rest := by rw [hcalls, List.append_cons]
  have hidle : Alone calls initial _ := .idle past hmade
  rwa [tally_append, story_append, tally, tally, story, story, List.append_nil] at hidle

/-- What has happened in a pool is what a plain number of tokens would show a thread that makes
`calls` where there are `initial` tokens at first. -/
structure Plain (calls : List Call) (initial : Nat) (pool : Chronicled Unit Script) : Prop where
  /-- The kernel has no token. -/
  kernel_eq : pool.shared.1.kernel = 0
  /-- The count has not wrapped around. -/
  wrapped_eq : pool.shared.2.wrapped = false
  /-- Nothing has happened in the calls, and nothing has been asked of the kernel, but what
  should. -/
  events_prefix : pool.shared.2.events <+: (story calls initial).map (0, ·)
  /-- Between two calls, all that should has happened in those that have been made, and the count
  is the number of tokens. -/
  between : ∀ thread ∈ pool.threads, thread.mode = .idle →
    ∃ made, calls = made ++ thread.state.todo ∧
      pool.shared.2.events = (story made initial).map (0, ·) ∧
      pool.shared.1.count = .ofNat (tally made initial)

/-- All calls have returned. -/
def Over (pool : Chronicled Unit Script) : Prop :=
  ∀ thread ∈ pool.threads, thread.mode = .idle ∧ thread.state.todo = []

/-- How many moves the threads of a pool can still make that do not go wrong. -/
def toGo (spins : Nat) (pool : Chronicled Unit Script) : Nat :=
  (pool.threads.map (Thread.toGo spins)).sum

variable {calls : List Call} {initial spins : Nat} {pool next : Chronicled Unit Script}
  {count : Int64} {events : List Event} {thread : Thread Script Kernel.Request}

/-- The moves of a thread that is alone. -/
theorem toGo_single (spins : Nat) (count : Int64) (events : List Event)
    (thread : Thread Script Kernel.Request) :
    (single count events thread).toGo spins = thread.toGo spins := List.sum_singleton

/-- A step of a pool with one thread is a step of that thread. -/
theorem course_of_advance {c : Circumstance} {i : Nat}
    (hstep : (Crowd.chronicled spins (Script.plan Unit)).advance c i
      (single count events thread) = some next)
    (hwhole : ∀ phase stage, thread.mode ≠ .requesting phase stage) :
    ∃ after left, Crowd.Course spins (Script.plan Unit) c thread ⟨count, 0, ()⟩ after left ∧
      next = ⟨(left, History.note spins (Script.plan Unit) 0 (thread, ⟨count, 0, ()⟩) (after, left)
        ⟨events.map (0, ·), false⟩), [after]⟩ := by
  obtain ⟨before, after, left, hthread, hmove, rfl⟩ :=
    Machine.observed_advance_eq_some_iff.mp hstep
  simp only [single] at hthread hmove
  rw [List.getElem?_singleton] at hthread
  split at hthread
  · next hzero =>
    subst hzero
    obtain rfl := Option.some.inj hthread
    exact ⟨after, left, Crowd.course_of_step hmove hwhole, rfl⟩
  · cases hthread

/-- Where a step of a lone thread leads: to a pool that shows what a plain number of tokens would,
and is closer to its end. If the step goes wrong, it may be as far from its end as before. -/
def LeadsOn (calls : List Call) (initial spins : Nat) (c : Circumstance)
    (pool next : Chronicled Unit Script) : Prop :=
  Alone calls initial next ∧ next.toGo spins ≤ pool.toGo spins ∧
    (c.chance ≠ .mishap → next.toGo spins < pool.toGo spins)

/-- A step to a pool that is closer to its end leads on, whether it goes wrong or not. -/
theorem Alone.leadsOn (halone : Alone calls initial next)
    (hless : next.toGo spins < pool.toGo spins) (c : Circumstance) :
    LeadsOn calls initial spins c pool next :=
  ⟨halone, Nat.le_of_lt hless, fun _ => hless⟩

variable {made rest : List Call} {past : List (Call × Nat)} {call : Call} {phase : Phase}
  {asked : List Kernel.Request} {c : Circumstance} {i : Nat}

/-- Between two calls a lone thread can only begin the next one. -/
theorem leadsOn_idle (hfair : Fair (made ++ rest) initial)
    (hstep : (Crowd.chronicled spins (Script.plan Unit)).advance c i
      (single (.ofNat (tally made initial)) (story made initial) ⟨⟨rest, past⟩, .idle⟩) =
        some next) :
    LeadsOn (made ++ rest) initial spins c
      (single (.ofNat (tally made initial)) (story made initial) ⟨⟨rest, past⟩, .idle⟩) next := by
  obtain ⟨after, left, hcourse, rfl⟩ := course_of_advance hstep fun _ _ h => nomatch h
  cases hcourse with
  | start call resume hmode hplan =>
    cases rest with
    | nil => cases hplan
    | cons first rest =>
      cases hplan
      rw [History.note_start hmode rfl, single_append]
      refine (Alone.calling past rfl (Phase.lone_ofCall hfair.of_append.1)).leadsOn ?_ c
      have hmoves := Phase.toGo_ofCall_le spins call
      simp only [toGo_single, Thread.toGo, List.length_cons, Nat.add_sub_cancel, Nat.add_mul,
        Nat.one_mul]
      omega
  | touch change hmode hplan => cases rest <;> cases hplan
  | access phase access next hmode => cases hmode
  | request phase request next granted tokens hmode => cases hmode
  | finish phase tokens call resume hmode => cases hmode
  | fail phase fault hmode => cases hmode

/-- In a call a lone thread goes on as its call does. The kernel, which has no token, cannot grant
what it is asked for. -/
theorem leadsOn_calling (hfair : Fair (made ++ call :: rest) initial)
    (hlimit : initial ≤ Count.limit) (hlone : phase.Lone call (tally made initial) count asked)
    (hevents : events = story made initial ++
      Event.called call :: asked.map fun request => .asked request false)
    (hstep : (Crowd.chronicled spins (Script.plan Unit)).advance c i
      (single count events ⟨⟨call :: rest, past⟩, .calling phase⟩) = some next) :
    LeadsOn (made ++ call :: rest) initial spins c
      (single count events ⟨⟨call :: rest, past⟩, .calling phase⟩) next := by
  subst hevents
  have hcall := hfair.of_append.1
  have htokens := hfair.tally_le hlimit
  obtain ⟨after, left, hcourse, rfl⟩ := course_of_advance hstep fun _ _ h => nomatch h
  cases hcourse with
  | start call resume hmode hplan => cases hmode
  | touch change hmode hplan => cases hmode
  | access phase access next hmode hmove =>
    cases hmode
    obtain ⟨hwraps, hafter, hle, hless⟩ :=
      hlone.access hcall htokens hmove (c.chance == .mishap)
    rw [History.note_access rfl hmove, hwraps]
    refine ⟨.calling past rfl hafter, ?_, fun hregular => ?_⟩
    · exact Nat.add_le_add_right hle _
    · exact Nat.add_lt_add_right (hless (beq_eq_false_iff_ne.mpr hregular)) _
  | request phase request next granted tokens hmode hmove hserve =>
    cases hmode
    obtain ⟨timeout, rfl, rfl, hafter, hless⟩ := hlone.request hmove
    rcases Kernel.Counter.step_timedWait hserve with ⟨-, hnone⟩ | ⟨rfl, rfl⟩
    · -- A token that was granted would have been in the kernel.
      cases hnone
    · rw [History.note_request rfl hmove, single_append, List.append_assoc]
      refine (Alone.calling past rfl hafter).leadsOn ?_ c
      exact Nat.add_lt_add_right hless _
  | finish phase tokens call resume hmode hmove hplan =>
    cases hmode
    cases hplan
    obtain ⟨hresult, rfl, rfl⟩ := hlone.finish htokens hmove
    cases hresult
    rw [History.note_finish rfl hmove rfl, single_append, List.append_assoc]
    refine (Alone.returned rfl _).leadsOn ?_ c
    rw [toGo_single, toGo_single]
    exact Nat.lt_add_of_pos_left (hlone.toGo_pos spins)
  | fail phase fault hmode hmove =>
    cases hmode
    cases (hlone.finish htokens hmove).1

/-- Every step of a lone thread leads on. -/
theorem Alone.advance (halone : Alone calls initial pool) (hfair : Fair calls initial)
    (hlimit : initial ≤ Count.limit)
    (hstep : (Crowd.chronicled spins (Script.plan Unit)).advance c i pool = some next) :
    LeadsOn calls initial spins c pool next := by
  cases halone with
  | idle past hcalls =>
    subst hcalls
    exact leadsOn_idle hfair hstep
  | calling past hcalls hlone =>
    subst hcalls
    exact leadsOn_calling hfair hlimit hlone rfl hstep

/-- A pool with one thread goes on if its thread does. -/
theorem exists_advance_single (hchance : c.chance ≠ .mishap)
    (hstep : (Crowd.step Kernel.Counter.kernel spins (Script.plan Unit) c 0 thread
      ⟨count, 0, ()⟩).isSome) :
    ∃ c next, c.chance ≠ .mishap ∧ (Crowd.chronicled spins (Script.plan Unit)).advance c 0
      (single count events thread) = some next := by
  obtain ⟨result, hresult⟩ := Option.isSome_iff_exists.mp hstep
  exact ⟨c, _, hchance,
    Machine.observed_advance_eq_some_iff.mpr ⟨thread, _, _, rfl, hresult, rfl⟩⟩

/-- A lone thread is through with its calls, or can make a step that does not go wrong. -/
theorem Alone.exists_advance (halone : Alone calls initial pool) (hfair : Fair calls initial)
    (hlimit : initial ≤ Count.limit) (spins : Nat) :
    pool.Over ∨ ∃ c next, c.chance ≠ .mishap ∧
      (Crowd.chronicled spins (Script.plan Unit)).advance c 0 pool = some next := by
  cases halone with
  | @idle made rest past hcalls =>
    cases rest with
    | nil =>
      refine .inl fun thread hthread => ?_
      rw [List.mem_singleton.mp hthread]
      exact ⟨rfl, rfl⟩
    | cons call rest =>
      right
      exact exists_advance_single (c := .usual) nofun rfl
  | @calling made rest call phase count asked past hcalls hlone =>
    subst hcalls
    right
    cases hmove : phase.move spins with
    | access access next =>
      refine exists_advance_single (c := .usual) nofun ?_
      rw [Crowd.step_access _ _ rfl hmove]
      rfl
    | request request next =>
      obtain ⟨timeout, rfl, -⟩ := hlone.request hmove
      refine exists_advance_single (c := .expired) nofun ?_
      simp only [Crowd.step, hmove, Crowd.stepRequest]
      rfl
    | finish result =>
      obtain ⟨rfl, -, -⟩ := hlone.finish (hfair.tally_le hlimit) hmove
      refine exists_advance_single (c := .usual) nofun ?_
      simp only [Crowd.step, hmove]
      rfl

/-- A recorded run of a lone thread keeps to what a plain number of tokens would show it, and has
no more steps that do not go wrong than all calls together. -/
theorem alone_of_recorded {log : List (Moment Circumstance (Shared Nat Unit × History)
      (Thread Script Kernel.Request))}
    (hfair : Fair calls initial) (hlimit : initial ≤ Count.limit)
    (hlog : (Crowd.chronicled spins (Script.plan Unit)).Recorded
      (single (.ofNat initial) [] ⟨.ofCalls calls, .idle⟩) log pool) :
    Alone calls initial pool ∧
      log.countP (·.circumstance.chance ≠ .mishap) + pool.toGo spins ≤
        calls.length * (spins + 10) := by
  induction hlog with
  | nil =>
    have hstart : calls = [] ++ calls := rfl
    refine ⟨.idle [] hstart, ?_⟩
    rw [toGo_single]
    exact Nat.le_of_eq (Nat.zero_add _)
  | @snoc log pool e hlog hthread hfound hstep ih =>
    obtain ⟨halone, hbound⟩ := ih
    rw [← hfound] at hstep
    obtain ⟨hnext, hle, hless⟩ := halone.advance hfair hlimit
      (Machine.advance_eq_some_iff.mpr ⟨_, _, _, hthread, hstep, rfl⟩)
    refine ⟨hnext, ?_⟩
    rw [List.countP_append, List.countP_singleton]
    by_cases hregular : e.circumstance.chance = .mishap
    · rw [if_neg (by simp [hregular])]
      omega
    · have hless := hless hregular
      rw [if_pos (by simp [hregular])]
      omega

/-- A lone thread sees what a plain number of tokens would show it. -/
theorem Alone.plain (halone : Alone calls initial pool) : Plain calls initial pool := by
  cases halone with
  | @idle made rest past hcalls =>
    refine ⟨rfl, rfl, ?_, fun thread hthread _ => ?_⟩
    · rw [hcalls, story_append]
      exact (List.prefix_append _ _).map _
    · rw [List.mem_singleton.mp hthread]
      exact ⟨made, hcalls, rfl, rfl⟩
  | @calling made rest call phase count asked past hcalls hlone =>
    refine ⟨rfl, rfl, ?_, fun thread hthread hidle => ?_⟩
    · have hasked := hlone.asked_prefix.map fun request => Event.asked request false
      have hcall : Event.called call :: asked.map (fun request => .asked request false) <+:
          call.story (tally made initial) ++ story rest (call.leaves (tally made initial)) := by
        rw [Call.story, List.append_assoc]
        exact (List.prefix_cons_inj _).mpr (hasked.trans (List.prefix_append _ _))
      rw [hcalls, story_append]
      exact ((List.prefix_append_right_inj _).mpr hcall).map _
    · rw [List.mem_singleton.mp hthread] at hidle
      cases hidle

end Chronicled

/-- For a thread that is alone, a new semaphore is a plain number of tokens. Its actions are
answered by that number and leave it in the count, and they ask the kernel only where a call with
patience wants tokens and there are none, once and in vain. It is the same if exchanges fail for
no reason on the way; only they can keep the thread from getting through with its calls. -/
theorem refines_tokens (initial spins : Nat) (actions : List Action)
    (hinitial : initial ≤ Count.limit) (hfair : Fair (actions.flatMap Action.calls) initial) :
    ∃ s, create Kernel.Counter.kernel initial spins = .ok s ∧
      transcript (serverOf Kernel.Counter.kernel) actions s =
        plainTranscript spins actions initial ∧
      ∀ log (pool : Chronicled Unit Script), (Crowd.chronicled spins (Script.plan Unit)).Recorded
          ((Crowd.around Kernel.Request s ()
            [Script.ofCalls (actions.flatMap Action.calls)]).noted .empty) log pool →
        pool.Plain (actions.flatMap Action.calls) initial ∧
          log.countP (·.circumstance.chance ≠ .mishap) ≤
            (actions.flatMap Action.calls).length * (spins + 10) ∧
          (pool.Over ∨ ∃ c next, c.chance ≠ .mishap ∧
            (Crowd.chronicled spins (Script.plan Unit)).advance c 0 pool = some next) := by
  refine ⟨⟨.ofNat initial, spins, 0, []⟩, if_neg (Nat.not_lt.mpr hinitial),
    transcript_eq_plain hfair hinitial [], fun log pool hlog => ?_⟩
  obtain ⟨halone, hbound⟩ := Chronicled.alone_of_recorded hfair hinitial hlog
  exact ⟨halone.plain, Nat.le_trans (Nat.le_add_right _ _) hbound,
    halone.exists_advance hfair hinitial spins⟩

/-- Take all tokens, ask for one more, wait for some in vain, and put some in. -/
def emptied : List Action :=
  [.call (.acquire (.upTo 5) .forever), .call (.attempt .one),
    .call (.acquire (.upTo 3) (.within (.ofMicros 20))), .call (.signal 4), .ask .available]

theorem refines_tokens_emptied :
    2 ≤ Count.limit ∧ Fair (emptied.flatMap Action.calls) 2 ∧
      transcript (serverOf Kernel.Counter.kernel) emptied ⟨2, 3, 0, []⟩ =
        [⟨.ok (.answer (.took 2)), [], 0, 0⟩, ⟨.ok (.answer (.granted false)), [], 0, 0⟩,
          ⟨.ok (.answer (.took 0)), [(.timedWait (.ofMicros 20), .ok false)], 0, 0⟩,
          ⟨.ok (.answer .done), [], 4, 0⟩, ⟨.ok (.available 4), [], 4, 0⟩] ∧
      ∃ log pool, (Crowd.chronicled 3 (Script.plan Unit)).Recorded
          ((Crowd.around Kernel.Request ⟨2, 3, 0, []⟩ ()
            [Script.ofCalls (emptied.flatMap Action.calls)]).noted .empty) log pool ∧
        log.map (·.circumstance.chance) = [.regular, .regular, .mishap, .regular, .regular] ∧
        Chronicled.Plain (emptied.flatMap Action.calls) 2 pool := by
  have hlimit : 2 ≤ Count.limit := by decide
  have hfair : Fair (emptied.flatMap Action.calls) 2 :=
    ⟨fun _ => by decide, trivial, trivial, ⟨by decide, by decide⟩, trivial⟩
  obtain ⟨s, hs, htranscript, hruns⟩ := refines_tokens 2 3 emptied hlimit hfair
  cases hs
  have hrun := Machine.recorded_of_record
    (m := Crowd.chronicled 3 (Script.plan Unit))
    (p := (Crowd.around Kernel.Request ⟨2, 3, 0, []⟩ ()
      [Script.ofCalls (emptied.flatMap Action.calls)]).noted .empty)
    (q := Chronicled.single 0 [.called (.acquire (.upTo 5) .forever), .returned (.took 2)]
      ⟨⟨(emptied.flatMap Action.calls).tail, [(.acquire (.upTo 5) .forever, 2)]⟩, .idle⟩)
    [(.usual, 0), (.usual, 0), (⟨.mishap, .zero, 0⟩, 0), (.usual, 0), (.usual, 0)] rfl
  exact ⟨hlimit, hfair, htranscript, _, _, hrun, rfl, (hruns _ _ hrun).1⟩

end WordSync.Semaphore
