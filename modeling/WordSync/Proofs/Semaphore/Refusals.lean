import Mathlib.Algebra.BigOperators.Group.List.Basic
import Mathlib.Algebra.Ring.Int.Defs
import WordSync.Proofs.Semaphore.Episodes
import WordSync.Proofs.Semaphore.Visits

/-!
# Calls that come away with nothing

A call that does not wait, and one whose patience is limited, may return without a token. Such an
answer is honest: the last that the call has done is an access to a count without tokens, so it
had no token to take. If the call was a waiter, that access has withdrawn it, and in sum its
strides have moved no token and left no waiter behind. Nothing of this depends on what other
threads do in between, nor on how far the count is from the ends of its range.
-/

namespace WordSync.Semaphore

namespace Call

/-- A call that wants a token, and may return without one. -/
def fallible : Call → Bool
  | .attempt demand => demand.wanted
  | .acquire demand (.within _) => demand.wanted
  | _ => false

/-- A call that waits for no longer than a given time. -/
def timed : Call → Bool
  | .acquire _ (.within _) => true
  | _ => false

end Call

/-- An answer that says that no token was taken. -/
def Answer.empty : Answer → Bool
  | .done => false
  | .granted success => !success
  | .took amount => amount == 0

/-- A call that may return without a token says so only if it has none. -/
theorem Call.eq_zero_of_empty {call : Call} {tokens : Nat} (hfallible : call.fallible)
    (hempty : (call.answer tokens).empty) : tokens = 0 := by
  have hone (h : (Answer.granted (decide (0 < tokens))).empty) : tokens = 0 := by
    simpa [Answer.empty] using h
  have hmany (h : (Answer.took tokens).empty) : tokens = 0 := beq_iff_eq.mp h
  cases call with
  | attempt demand =>
    cases demand with
    | one => exact hone hempty
    | upTo max => exact hmany hempty
  | acquire demand patience =>
    cases patience with
    | forever => cases hfallible
    | within timeout =>
      cases demand with
      | one => exact hone hempty
      | upTo max => exact hmany hempty
  | signal count => cases hfallible

open Crowd

variable {δ σ : Type} {spins : Nat} {plan : Plan δ σ} {call : Call}
  {steps : List (Stride δ σ)} {e : Stride δ σ}

/-! ## What the steps of a call have done -/

/-- Steps of a call that have moved nothing. -/
def Untouched (steps : List (Stride δ σ)) : Prop := ∀ e ∈ steps, e.Still

/-- Steps of a call that have made it a waiter, and have moved nothing else. -/
def Enlisted (steps : List (Stride δ σ)) : Prop :=
  ∃ earlier entry later, steps = earlier ++ entry :: later ∧ Untouched earlier ∧
    entry.Registers ∧ Untouched later

/-- What the steps of a call add to the count in sum. -/
def addition (steps : List (Stride δ σ)) : Int :=
  (steps.map fun e => e.left.count.toInt - e.found.count.toInt).sum

/-- The steps of a call that may well return without a token. -/
structure Honest (spins : Nat) (call : Call) (steps : List (Stride δ σ)) : Prop where
  /-- The last of them is an access to a count without tokens, which has none afterwards either.
  If the call has waited, that access withdraws it. -/
  last : ∃ earlier e, steps = earlier ++ [e] ∧ e.accesses spins ∧ e.found.count.toInt ≤ 0 ∧
    e.left.count.toInt ≤ 0 ∧ (call.timed → e.Withdraws)
  /-- None of them takes a token from the kernel. -/
  kernel_eq : ∀ e ∈ steps, e.left.kernel = e.found.kernel
  /-- None of them takes a token from the count. -/
  count_eq : ∀ e ∈ steps, 0 < e.found.count.toInt → e.left.count = e.found.count
  /-- They leave no waiter behind: whatever they subtract from the count, they add again. -/
  addition_eq : addition steps = 0

/-- No steps move nothing. -/
theorem untouched_nil : Untouched ([] : List (Stride δ σ)) :=
  fun _ he => absurd he List.not_mem_nil

/-- One more step that moves nothing. -/
theorem Untouched.snoc (h : Untouched steps) (he : e.Still) : Untouched (steps ++ [e]) := by
  intro d hd
  rcases List.mem_append.mp hd with hold | hnew
  · exact h d hold
  · rw [List.mem_singleton.mp hnew]
    exact he

/-- One more step of a waiter that moves nothing. -/
theorem Enlisted.snoc (h : Enlisted steps) (he : e.Still) : Enlisted (steps ++ [e]) := by
  obtain ⟨earlier, entry, later, rfl, hearlier, hentry, hlater⟩ := h
  exact ⟨earlier, entry, later ++ [e], by rw [List.append_assoc, List.cons_append], hearlier,
    hentry, hlater.snoc he⟩

/-- Steps that move nothing add nothing. -/
theorem Untouched.addition_eq (h : Untouched steps) : addition steps = 0 := by
  refine List.sum_eq_zero fun n hn => ?_
  obtain ⟨e, he, rfl⟩ := List.mem_map.mp hn
  rw [(h e he).1, Int.sub_self]

/-- Steps that make a waiter subtract one. -/
theorem Enlisted.addition_eq (h : Enlisted steps) : addition steps = -1 := by
  obtain ⟨earlier, entry, later, rfl, hearlier, hentry, hlater⟩ := h
  have hfirst := hearlier.addition_eq
  have hrest := hlater.addition_eq
  have hone := hentry.left_eq
  simp only [addition, List.map_append, List.map_cons, List.sum_append, List.sum_cons] at *
  omega

/-- A step of a waiter that is not yet withdrawn leaves the kernel alone, and every count with
tokens. -/
theorem Enlisted.frame (h : Enlisted steps) : ∀ e ∈ steps, e.left.kernel = e.found.kernel ∧
    (0 < e.found.count.toInt → e.left.count = e.found.count) := by
  obtain ⟨earlier, entry, later, rfl, hearlier, hentry, hlater⟩ := h
  intro e he
  rcases List.mem_append.mp he with hfirst | hrest
  · exact ⟨(hearlier e hfirst).2, fun _ => (hearlier e hfirst).1⟩
  · rcases List.mem_cons.mp hrest with rfl | hlast
    · refine ⟨hentry.kernel_eq, fun hpos => ?_⟩
      have hnone := hentry.found_nonpos
      omega
    · exact ⟨(hlater e hlast).2, fun _ => (hlater e hlast).1⟩

/-- An attempt that has moved nothing may return when it sees a count without tokens. -/
theorem Honest.of_untouched (h : Untouched steps) (he : e.Still) (haccess : e.accesses spins)
    (hfound : e.found.count.toInt ≤ 0) (huntimed : call.timed = false) :
    Honest spins call (steps ++ [e]) := by
  have hall := h.snoc he
  have hleft : e.left.count.toInt ≤ 0 := by
    rw [he.1]
    exact hfound
  have hpatience : call.timed → e.Withdraws := by
    rw [huntimed]
    exact nofun
  exact ⟨⟨steps, e, rfl, haccess, hfound, hleft, hpatience⟩, fun d hd => (hall d hd).2,
    fun d hd _ => (hall d hd).1, hall.addition_eq⟩

/-- A waiter may return when it has withdrawn. -/
theorem Honest.of_enlisted (h : Enlisted steps) (he : e.Withdraws) (haccess : e.accesses spins) :
    Honest spins call (steps ++ [e]) := by
  have hframe := h.frame
  have hadd := h.addition_eq
  have hfound := he.found_neg
  have hleft := he.left_eq
  refine ⟨⟨steps, e, rfl, haccess, by omega, by omega, fun _ => he⟩, ?_, ?_, ?_⟩
  · intro d hd
    rcases List.mem_append.mp hd with hold | hnew
    · exact (hframe d hold).1
    · rw [List.mem_singleton.mp hnew]
      exact he.kernel_eq
  · intro d hd hpos
    rcases List.mem_append.mp hd with hold | hnew
    · exact (hframe d hold).2 hpos
    · rw [List.mem_singleton.mp hnew] at hpos
      omega
  · simp only [addition, List.map_append, List.map_cons, List.map_nil, List.sum_append,
      List.sum_cons, List.sum_nil] at hadd ⊢
    omega

/-! ## What they have done by each phase -/

/-- What the steps of a call that may return without a token have done by each of its phases. A
call that has a token does not return without one. -/
def Told (spins : Nat) (call : Call) (steps : List (Stride δ σ)) : Phase → Prop
  | .look _ purpose => purpose.purse = 0 → Untouched steps
  | .grab _ purpose _ => purpose.purse = 0 → Untouched steps
  | .spin _ _ _ => Untouched steps
  | .spinGrab _ _ _ _ => Untouched steps
  | .enlist _ _ => Untouched steps
  | .park _ _ => Enlisted steps
  | .recheck _ => Enlisted steps
  | .claim _ => Enlisted steps
  | .withdraw _ _ => Enlisted steps
  | .done tokens => tokens = 0 → Honest spins call steps
  | .raise _ => True
  | .post _ => True
  | .failed _ => True

namespace Phase

variable {phase after : Phase} {demand : Demand} {purpose : Purpose}

/-- A call that looks again has moved nothing. -/
theorem told_respin (h : Untouched steps) (patience : Patience) (left : Nat) :
    Told spins call steps (respin demand patience left) := by
  cases left with
  | zero => exact h
  | succ left => exact h

/-- A call with its first token does not return without one. -/
theorem told_granted (demand : Demand) : Told spins call steps (granted demand) := by
  cases demand with
  | one => exact fun hnone => absurd hnone Nat.one_ne_zero
  | upTo max =>
    simp only [granted]
    split
    · exact fun hnone => absurd hnone Nat.one_ne_zero
    · exact fun hnone => absurd hnone Nat.one_ne_zero

/-- A call that has got tokens by a look does not return without one. -/
theorem told_settled {tokens : Nat} (htokens : tokens ≠ 0) :
    Told spins call steps (settled spins demand purpose tokens) := by
  cases purpose with
  | attempt => exact fun hnone => absurd hnone htokens
  | opening patience =>
    have hnot : ¬(tokens = 0 ∧ demand.wanted = true) := fun h => htokens h.1
    simp only [settled, if_neg hnot]
    exact fun hnone => absurd hnone htokens
  | topUp =>
    simp only [settled, Count.addAmounts]
    split
    · exact fun hnone => by omega
    · trivial

/-- A call that has looked at the count goes on to take tokens, or it has seen that there are
none. Then an attempt is over, and any other call that has none yet looks again. -/
theorem told_considered (hfallible : call.fallible) (hlooks : call.Looks demand purpose)
    (htold : purpose.purse = 0 → Untouched steps) (he : e.Still) (haccess : e.accesses spins) :
    Told spins call (steps ++ [e]) (considered spins demand purpose e.found.count) := by
  unfold considered
  split
  · exact fun hnone => (htold hnone).snoc he
  · next hcount =>
    have hfound : e.found.count.toInt ≤ 0 := by
      have := mt Count.pos_iff.mpr hcount
      omega
    cases purpose with
    | attempt =>
      obtain rfl : call = .attempt demand := hlooks
      exact fun _ => .of_untouched (htold rfl) he haccess hfound rfl
    | opening patience =>
      obtain rfl : call = .acquire demand patience := hlooks
      have hwanted : demand.wanted = true := by
        cases patience with
        | forever => cases hfallible
        | within timeout => exact hfallible
      simp only [settled, hwanted, and_self, if_true]
      exact told_respin ((htold rfl).snoc he) patience spins
    | topUp => exact fun hnone => absurd hnone Nat.one_ne_zero

/-- What the steps of a call have done stays right when it accesses the count, whichever way it
goes by that. -/
theorem Onward.told {count left : Int64} (h : Onward spins count phase after left)
    (hmode : e.before.mode = .calling phase) (hfound : e.found.count = count)
    (hleft : e.left.count = left) (hkernel : e.left.kernel = e.found.kernel)
    (haccess : e.accesses spins) (hfallible : call.fallible) (hvisits : call.Visits phase)
    (htold : Told spins call steps phase) : Told spins call (steps ++ [e]) after := by
  have hstill (hsame : left = count) : e.Still := ⟨by rw [hleft, hfound, hsame], hkernel⟩
  cases h with
  | look demand purpose =>
    rw [← hfound]
    exact told_considered hfallible hvisits htold (hstill rfl) haccess
  | grab demand purpose hcount htokens =>
    have hmost : 0 < demand.most.toInt := by
      refine Demand.most_pos ?_
      cases purpose with
      | attempt =>
        obtain rfl : call = .attempt demand := hvisits
        exact hfallible
      | opening patience =>
        obtain rfl : call = .acquire demand patience := hvisits
        cases patience with
        | forever => cases hfallible
        | within timeout => exact hfallible
      | topUp =>
        obtain ⟨max, patience, hmax, rfl, -⟩ := hvisits
        exact decide_eq_true (by omega)
    exact told_settled (by omega)
  | miss demand purpose =>
    rw [← hfound]
    exact told_considered hfallible hvisits htold (hstill rfl) haccess
  | find => exact htold.snoc (hstill rfl)
  | spin demand patience left => exact told_respin (htold.snoc (hstill rfl)) patience left
  | spinGrab demand patience left hcount htokens =>
    have hmost := Demand.most_pos hvisits.1
    rw [if_neg (by omega)]
    exact fun hnone => by omega
  | lose demand patience left => exact told_respin (htold.snoc (hstill rfl)) patience left
  | enter demand => exact told_granted demand
  | enlist demand patience hcount hless =>
    subst hfound hleft
    exact ⟨steps, e, [], rfl, htold, ⟨hcount, hless, hkernel⟩, untouched_nil⟩
  | await | retire | stay => exact htold.snoc (hstill rfl)
  | withdraw demand hcount hraised =>
    subst hfound hleft
    exact fun _ => .of_enlisted htold ⟨⟨demand, hmode⟩, hcount, hraised, hkernel⟩ haccess
  | raise => exact absurd hvisits id
  | broke => trivial

/-- What the steps of a call have done stays right when the kernel answers it. -/
theorem told_of_request {request : Kernel.Request} {next : Bool → Turn} {c : Circumstance}
    {granted : Bool} (hmove : phase.move spins = .request request next)
    (hserve : Kernel.Counter.step c request e.found.kernel =
      some (.answered granted, e.left.kernel))
    (hcount : e.left.count = e.found.count) (hfallible : call.fallible)
    (hvisits : call.Visits phase) (htold : Told spins call steps phase) :
    Told spins call (steps ++ [e]) (next granted).phase := by
  rcases request_cases hmove with ⟨demand, patience, rfl⟩ | ⟨demand, rfl⟩ | ⟨tokens, rfl⟩
  · cases patience with
    | forever =>
      cases hmove
      exact told_granted demand
    | within timeout =>
      cases hmove
      rcases Kernel.Counter.step_timedWait hserve with ⟨rfl, -⟩ | ⟨rfl, hkernel⟩
      · exact told_granted demand
      · exact htold.snoc ⟨hcount, hkernel⟩
  · cases hmove
    rcases Kernel.Counter.step_tryWait hserve with ⟨rfl, -⟩ | ⟨rfl, hfound, hleft⟩
    · exact told_granted demand
    · exact htold.snoc ⟨hcount, hleft.trans hfound.symm⟩
  · obtain ⟨count, -, rfl⟩ := hvisits
    cases hfallible

end Phase

/-! ## What they have done in every run -/

/-- The steps of a thread have done what they should if it is in a call that may return without a
token. -/
def Tells (spins : Nat) (plan : Plan δ σ) (steps : List (Stride δ σ))
    (thread : Thread σ Kernel.Request) : Prop :=
  thread.mode.Sound ∧ ∀ phase call resume, thread.mode = .calling phase →
    plan thread.state = .call call resume → call.fallible →
      (call.Visits phase ∧ Told spins call steps phase) ∨ ∃ fault, phase = .failed fault

/-- A thread that is in no call has nothing to tell. -/
theorem Tells.of_sound {thread : Thread σ Kernel.Request} (hsound : thread.mode.Sound)
    (hmode : ∀ phase, thread.mode ≠ .calling phase) : Tells spins plan steps thread :=
  ⟨hsound, fun phase _ _ h => absurd h (hmode phase)⟩

/-- Every step of a thread is in keeping with those before it. -/
theorem Tells.step
    (hstep : Crowd.step Kernel.Counter.kernel spins plan e.circumstance e.number e.before e.found =
      some (e.after, e.left))
    (h : Tells spins plan steps e.before) :
    Tells spins plan (if e.before.mode.inCall then steps ++ [e] else []) e.after := by
  obtain ⟨hsound, htells⟩ := h
  have hsound' := Crowd.step_sound hstep hsound
  have hcourse := course_of_step hstep hsound.whole
  generalize hafter : e.after = after at hcourse hsound'
  generalize hleft : e.left = left at hcourse
  cases hcourse with
  | start first resume hmode hplan =>
    refine ⟨hsound', fun phase call resume' hphase hcall hfallible => .inl ?_⟩
    obtain ⟨rfl, -⟩ : first = call ∧ resume = resume' := by simpa using hplan.symm.trans hcall
    cases hphase
    rw [hmode]
    cases first with
    | attempt demand => exact ⟨rfl, fun _ => untouched_nil⟩
    | acquire demand patience => exact ⟨rfl, fun _ => untouched_nil⟩
    | signal count => cases hfallible
  | touch => exact .of_sound hsound' nofun
  | access phase access next hmode hmove =>
    refine ⟨hsound', fun after call resume hphase hcall hfallible => ?_⟩
    cases hphase
    rw [hmode] at hsound
    rcases htells phase call resume hmode hcall hfallible with
      ⟨hvisits, htold⟩ | ⟨fault, rfl⟩
    · have honward := Phase.onward_of_access hmove hsound
        (e.circumstance.chance == .mishap) e.found.count
      rcases honward.visits_or_fails hvisits with hnext | ⟨-, hfails⟩
      · refine .inl ⟨hnext, ?_⟩
        rw [hmode]
        exact honward.told hmode rfl (by rw [hleft]) (by rw [hleft])
          (Stride.accesses_of_move hmode hmove) hfallible hvisits htold
      · exact .inr hfails
    · cases hmove
  | request phase request next granted tokens hmode hmove hserve =>
    refine ⟨hsound', fun after call resume hphase hcall hfallible => ?_⟩
    cases hphase
    rcases htells phase call resume hmode hcall hfallible with
      ⟨hvisits, htold⟩ | ⟨fault, rfl⟩
    · have hanswer : Kernel.Counter.step e.circumstance request e.found.kernel =
          some (.answered granted, e.left.kernel) := by
        rw [hleft]
        exact hserve
      refine .inl ⟨Phase.visits_of_request hmove (.inr hvisits) granted, ?_⟩
      rw [hmode]
      exact Phase.told_of_request hmove hanswer (by rw [hleft]) hfallible hvisits htold
    · cases hmove
  | finish => exact .of_sound hsound' nofun
  | fail => exact .of_sound hsound' nofun

/-- An honest call has not found tokens in all of its accesses to the count. -/
theorem Honest.not_all_pos (h : Honest spins call steps) :
    ¬ ∀ e ∈ steps, e.accesses spins → 0 < e.found.count.toInt := by
  obtain ⟨earlier, e, rfl, haccess, hfound, -⟩ := h.last
  intro hpos
  have := hpos e (List.mem_append_right _ (List.mem_singleton_self e)) haccess
  omega

/-- A call that returns without a token is honest about it, in every run of every crowd around
every semaphore. The last of its steps is an access to a count without tokens; for a call that
has waited it is the exchange by which it withdraws. None of its steps takes a token from the
count or from the kernel, and in sum they leave the count as it was. So a call that finds tokens
whenever it accesses the count does not come away with nothing. -/
theorem refusals_honest {s : Semaphore Nat} {data : δ} {states : List σ}
    {log earlier later : List (Stride δ σ)} {pool : Crowd Nat Kernel.Request δ σ}
    {resume : Nat → σ} {answer : Answer}
    (hlog : (Crowd.machine Kernel.Counter.kernel spins plan).Recorded
      (Crowd.around Kernel.Request s data states) log pool)
    (hmoment : log = earlier ++ e :: later)
    (hreturn : Event.ofStep spins plan e.before e.found e.left = some (.returned answer))
    (hcall : plan e.before.state = .call call resume) (hfallible : call.fallible)
    (hempty : answer.empty) :
    Honest spins call (Crowd.episode e.number earlier) ∧
      ¬ ∀ d ∈ Crowd.episode e.number earlier, d.accesses spins → 0 < d.found.count.toInt := by
  suffices hhonest : Honest spins call (Crowd.episode e.number earlier) from
    ⟨hhonest, hhonest.not_all_pos⟩
  obtain ⟨before, hbefore, hthread, -⟩ := hlog.exists_before hmoment
  have hstart : ∀ thread ∈ (Crowd.around Kernel.Request s data states).threads,
      Tells spins plan [] thread := by
    intro thread hthread
    obtain ⟨state, -, rfl⟩ := List.mem_map.mp hthread
    exact .of_sound trivial nofun
  obtain ⟨hsound, htells⟩ :=
    Crowd.episode_keeps hbefore hstart (fun _ _ => Tells.step) e.number e.before hthread
  obtain ⟨phase, tokens, call', resume', hmode, hmove, hplan, rfl⟩ := Event.returned_cases hreturn
  obtain ⟨rfl, -⟩ : call' = call ∧ resume' = resume := by simpa using hplan.symm.trans hcall
  rw [hmode] at hsound
  rcases Phase.finish_cases hmove hsound with ⟨_, rfl, htokens⟩ | ⟨_, rfl, hfault⟩
  · cases htokens
    rcases htells _ _ _ hmode hcall hfallible with ⟨-, htold⟩ | ⟨fault, hfailed⟩
    · exact htold (Call.eq_zero_of_empty hfallible hempty)
    · cases hfailed
  · cases hfault

/-- A call for one token that waits for no time at all. -/
def impatient : Call := .acquire .one (.within (.ofNanos 0))

theorem refusals_honest_outrun :
    ∃ (earlier : List (Stride Unit Script)) (e : Stride Unit Script)
        (pool : Crowd Nat Kernel.Request Unit Script) (resume : Nat → Script),
      (Crowd.machine Kernel.Counter.kernel 1 (Script.plan Unit)).Recorded
        (Crowd.around Kernel.Request ⟨0, 1, 0, []⟩ ()
          [.ofCalls [impatient], .ofCalls [.acquire .one .forever]]) (earlier ++ [e]) pool ∧
      Event.ofStep 1 (Script.plan Unit) e.before e.found e.left =
        some (.returned (.granted false)) ∧
      Script.plan Unit e.before.state = .call impatient resume ∧
      impatient.fallible ∧ (Answer.granted false).empty ∧
      Honest 1 impatient (Crowd.episode e.number earlier) ∧
      (¬ ∀ d ∈ Crowd.episode e.number earlier, d.accesses 1 → 0 < d.found.count.toInt) ∧
      (Crowd.episode e.number earlier).map (fun d => (d.found.count.toInt, d.left.count.toInt)) =
        [(0, 0), (0, 0), (0, -1), (-1, -1), (-1, -1), (-2, -2), (-2, -2), (-2, -1)] := by
  -- The first thread has read -1 when the second registers, so its first exchange fails.
  have hbefore := Machine.recorded_of_record
    (m := Crowd.machine Kernel.Counter.kernel 1 (Script.plan Unit))
    (p := Crowd.around Kernel.Request ⟨0, 1, 0, []⟩ ()
      [.ofCalls [impatient], .ofCalls [.acquire .one .forever]])
    [(.usual, 0), (.usual, 0), (.usual, 0), (.usual, 0), (.expired, 0), (.usual, 0), (.usual, 1),
      (.usual, 1), (.usual, 1), (.usual, 1), (.usual, 0), (.usual, 0), (.usual, 0)] rfl
  have hrun := hbefore.snoc ⟨.usual, 0, ⟨.ofCalls [impatient], .calling (.done 0)⟩, ⟨-1, 0, ()⟩,
    ⟨⟨[], [(impatient, 0)]⟩, .idle⟩, ⟨-1, 0, ()⟩⟩ rfl rfl rfl
  have hplan : Script.plan Unit ⟨[impatient], []⟩ =
      .call impatient fun tokens => ⟨[], [(impatient, tokens)]⟩ := rfl
  have hempty : (Answer.granted false).empty := rfl
  obtain ⟨hhonest, hpos⟩ := refusals_honest hrun rfl rfl hplan rfl hempty
  exact ⟨_, _, _, _, hrun, rfl, hplan, rfl, hempty, hhonest, hpos, rfl⟩

end WordSync.Semaphore
