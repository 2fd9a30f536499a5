import WordSync.Proofs.Semaphore.Ledger

/-!
# The phases of a call

Not every phase belongs to every call: a call for one token never tops up, a call that does not
wait never registers, and no call ends with more tokens than it has asked for. `Call.Visits`
says which phases a call comes to after its first move, and `Thread.Follows` that a thread is
where its plan and its call lead. Every step of a thread keeps that, as long as the count is not
about to wrap around at its lower end.
-/

namespace WordSync.Semaphore

/-- The largest number of tokens that a demand is for. -/
def Demand.bound : Demand → Nat
  | .one => 1
  | .upTo max => max

namespace Demand

variable {demand : Demand}

/-- No demand takes more from the count than it is for. -/
theorem most_le_bound (demand : Demand) : demand.most.toInt ≤ demand.bound := by
  cases demand with
  | one => decide
  | upTo max =>
    rw [most, Count.toInt_clamp, bound]
    omega

/-- A demand for any token is for at least one. -/
theorem bound_pos (h : demand.wanted) : 0 < demand.bound := by
  cases demand with
  | one => decide
  | upTo max => exact of_decide_eq_true h

end Demand

/-- The tokens that the answer of a call for tokens says were taken. A call that says nothing else
than that it is over has taken one. -/
def Answer.worth : Answer → Nat
  | .done => 1
  | .granted success => success.toNat
  | .took amount => amount

/-- The largest number of tokens that a call takes or puts in. -/
def Call.stake : Call → Nat
  | .attempt demand => demand.bound
  | .acquire demand _ => demand.bound
  | .signal count => count

namespace Call

/-- Whether a call is for tokens. -/
def acquires : Call → Bool
  | .signal _ => false
  | _ => true

/-- Whether a call wants any token. -/
def wanted : Call → Bool
  | .attempt demand => demand.wanted
  | .acquire demand _ => demand.wanted
  | .signal _ => false

/-- A call looks at the count for a demand and a purpose. -/
def Looks (call : Call) (demand : Demand) : Purpose → Prop
  | .attempt => call = .attempt demand
  | .opening patience => call = .acquire demand patience
  | .topUp => ∃ max patience, 1 < max ∧ demand = .upTo (max - 1) ∧
      call = .acquire (.upTo max) patience

/-- A call may have taken so many tokens in the end. Without patience it may have none; one that
waits for ever and wants any has at least one. -/
def Takes (call : Call) (tokens : Nat) : Prop :=
  match call with
  | .attempt demand => tokens ≤ demand.bound
  | .acquire demand .forever => tokens ≤ demand.bound ∧ (demand.wanted → 0 < tokens)
  | .acquire demand (.within _) => tokens ≤ demand.bound
  | .signal count => tokens = 0 ∧ count ≠ 0

/-- The phases that a call comes to after its first move. -/
def Visits (call : Call) : Phase → Prop
  | .look demand purpose => call.Looks demand purpose
  | .grab demand purpose _ => call.Looks demand purpose
  | .spin demand patience _ => demand.wanted ∧ call = .acquire demand patience
  | .spinGrab demand patience _ _ => demand.wanted ∧ call = .acquire demand patience
  | .enlist demand patience => demand.wanted ∧ call = .acquire demand patience
  | .park demand patience => demand.wanted ∧ call = .acquire demand patience
  | .recheck demand => demand.wanted ∧ ∃ timeout, call = .acquire demand (.within timeout)
  | .claim demand => demand.wanted ∧ ∃ timeout, call = .acquire demand (.within timeout)
  | .withdraw demand _ => demand.wanted ∧ ∃ timeout, call = .acquire demand (.within timeout)
  | .raise _ => False
  | .post _ => ∃ count, count ≠ 0 ∧ call = .signal count
  | .done tokens => call.Takes tokens
  | .failed _ => False

/-- The phases that a call comes to at all. -/
def Comes (call : Call) (phase : Phase) : Prop := phase = .ofCall call ∨ call.Visits phase

variable {call : Call} {demand : Demand}

/-- Only a signal comes to a phase that it does not come back to after its first move. -/
theorem Comes.cases {phase : Phase} (h : call.Comes phase) :
    call.Visits phase ∨ (∃ count, count ≠ 0 ∧ call = .signal count ∧ phase = .raise count) ∨
      (call = .signal 0 ∧ phase = .failed .signalNotPositive) := by
  rcases h with rfl | hvisits
  · cases call with
    | attempt demand => exact .inl rfl
    | acquire demand patience => exact .inl rfl
    | signal count =>
      by_cases hcount : count = 0
      · subst hcount
        exact .inr (.inr ⟨rfl, rfl⟩)
      · exact .inr (.inl ⟨count, hcount, rfl, if_neg hcount⟩)
  · exact .inl hvisits

/-- A call that is over has taken what it may take. -/
theorem Comes.takes {tokens : Nat} (h : call.Comes (.done tokens)) : call.Takes tokens := by
  rcases h.cases with hvisits | ⟨count, -, -, hraise⟩ | ⟨-, hfailed⟩
  · exact hvisits
  · cases hraise
  · cases hfailed

/-- An acquisition may take what its demand is for, and nothing only if it wanted nothing or has
run out of time. -/
theorem takes_acquire {patience : Patience} {tokens : Nat} (hbound : tokens ≤ demand.bound)
    (hsome : demand.wanted → 0 < tokens) : (acquire demand patience).Takes tokens := by
  cases patience with
  | forever => exact ⟨hbound, hsome⟩
  | within timeout => exact hbound

/-- No call takes more tokens than are at stake. -/
theorem Takes.le_stake {tokens : Nat} (h : call.Takes tokens) : tokens ≤ call.stake := by
  cases call with
  | attempt demand => exact h
  | acquire demand patience =>
    cases patience with
    | forever => exact h.1
    | within timeout => exact h
  | signal count =>
    rw [h.1]
    exact Nat.zero_le _

/-- The answer of a call for tokens tells how many it has taken. -/
theorem Takes.worth_eq {tokens : Nat} (h : call.Takes tokens) (hacquires : call.acquires) :
    (call.answer tokens).worth = tokens := by
  have hgranted (hone : tokens ≤ 1) : (decide (0 < tokens)).toNat = tokens := by
    rcases Nat.le_one_iff_eq_zero_or_eq_one.mp hone with rfl | rfl <;> rfl
  cases call with
  | attempt demand =>
    cases demand with
    | one => exact hgranted h
    | upTo max => rfl
  | acquire demand patience =>
    cases demand with
    | one =>
      cases patience with
      | forever => exact Nat.le_antisymm (h.2 rfl) h.1
      | within timeout => exact hgranted h
    | upTo max => rfl
  | signal count => cases hacquires

/-- A call looks at the count for what it wants. -/
theorem Looks.wanted_eq {purpose : Purpose} (h : call.Looks demand purpose) :
    demand.wanted = call.wanted := by
  cases purpose with
  | attempt =>
    obtain rfl : call = .attempt demand := h
    rfl
  | opening patience =>
    obtain rfl : call = .acquire demand patience := h
    rfl
  | topUp =>
    obtain ⟨max, patience, hmax, rfl, rfl⟩ := h
    simp only [wanted, Demand.wanted, decide_eq_decide]
    omega

/-- After its first move a call does not raise the count any more. -/
theorem Visits.raising_eq_zero {phase : Phase} (h : call.Visits phase) : phase.raising = 0 := by
  cases phase with
  | raise count => exact absurd h id
  | _ => rfl

/-- A call that looks at the count has no more tokens than are at stake. -/
theorem Looks.purse_le_stake {purpose : Purpose} (h : call.Looks demand purpose) :
    purpose.purse ≤ call.stake := by
  cases purpose with
  | attempt => exact Nat.zero_le _
  | opening patience => exact Nat.zero_le _
  | topUp =>
    obtain ⟨max, patience, hmax, -, rfl⟩ := h
    exact Nat.le_of_lt hmax

/-- No call holds and waits for more tokens than are at stake. -/
theorem Visits.held_add_registered_le {phase : Phase} (h : call.Visits phase) :
    phase.held + phase.registered ≤ call.stake := by
  cases phase with
  | look demand purpose => exact Looks.purse_le_stake h
  | grab demand purpose seen => exact Looks.purse_le_stake h
  | done tokens => exact Takes.le_stake h
  | park demand patience =>
    obtain ⟨hwanted, rfl⟩ := h
    exact Demand.bound_pos hwanted
  | recheck demand | claim demand | withdraw demand seen =>
    obtain ⟨hwanted, timeout, rfl⟩ := h
    exact Demand.bound_pos hwanted
  | _ => exact Nat.zero_le _

/-- No call holds, waits for and puts in more tokens than are at stake. -/
theorem Comes.share_le_stake {phase : Phase} (h : call.Comes phase) :
    phase.held + phase.registered + phase.raising ≤ call.stake := by
  rcases h.cases with hvisits | ⟨count, -, rfl, rfl⟩ | ⟨rfl, rfl⟩
  · rw [hvisits.raising_eq_zero]
    exact hvisits.held_add_registered_le
  · simp only [Phase.held, Phase.registered, Phase.raising, stake]
    omega
  · exact Nat.zero_le _

end Call

namespace Phase

variable {call : Call} {demand : Demand} {spins : Nat}

/-- Looking again or enlisting is a phase of an acquiring call. -/
theorem visits_respin {patience : Patience} (hwanted : demand.wanted)
    (hcall : call = .acquire demand patience) (left : Nat) :
    call.Visits (respin demand patience left) := by
  cases left with
  | zero => exact ⟨hwanted, hcall⟩
  | succ left => exact ⟨hwanted, hcall⟩

/-- What comes after the kernel has granted a token is a phase of an acquiring call. -/
theorem visits_granted {patience : Patience} (hwanted : demand.wanted)
    (hcall : call = .acquire demand patience) : call.Visits (granted demand) := by
  subst hcall
  have hbound := Demand.bound_pos hwanted
  cases demand with
  | one => exact Call.takes_acquire hbound fun _ => Nat.one_pos
  | upTo max =>
    simp only [granted]
    split
    · next hmax => exact ⟨max, patience, hmax, rfl, rfl⟩
    · exact Call.takes_acquire hbound fun _ => Nat.one_pos

/-- What comes after a grab is a phase of the call that made it. -/
theorem visits_settled {purpose : Purpose} (hlooks : call.Looks demand purpose) {tokens : Nat}
    (hbound : tokens ≤ demand.bound) (hlimit : tokens ≤ Count.limit) :
    call.Visits (settled spins demand purpose tokens) := by
  cases purpose with
  | attempt =>
    obtain rfl : call = .attempt demand := hlooks
    exact hbound
  | opening patience =>
    obtain rfl : call = .acquire demand patience := hlooks
    simp only [settled]
    split
    · next h => exact visits_respin h.2 rfl spins
    · next h =>
      exact Call.takes_acquire hbound fun hwanted =>
        Nat.pos_of_ne_zero fun hnone => h ⟨hnone, hwanted⟩
  | topUp =>
    obtain ⟨max, patience, hmax, rfl, rfl⟩ := hlooks
    simp only [Demand.bound] at hbound
    have hfits : 1 + tokens < Count.amountLimit := by
      simp only [Count.limit, Count.amountLimit] at hlimit ⊢
      omega
    simp only [settled, Count.addAmounts_of_lt hfits, ofAmount]
    exact Call.takes_acquire (by simp only [Demand.bound]; omega) fun _ => by omega

/-- What comes after a look at the count is a phase of the call that looked. -/
theorem visits_considered {purpose : Purpose} (hlooks : call.Looks demand purpose)
    (seen : Int64) : call.Visits (considered spins demand purpose seen) := by
  unfold considered
  split
  · exact hlooks
  · exact visits_settled hlooks (Nat.zero_le _) (Nat.zero_le _)

/-- A call that takes tokens comes by an access to the count to a phase of its own, or it breaks
off when it registers where the count is at the lower end of its range. -/
theorem Onward.visits_or_breaks {count left : Int64} {phase after : Phase}
    (h : Onward spins count phase after left) (hvisits : call.Visits phase) :
    call.Visits after ∨
      ((∃ demand patience, phase = .enlist demand patience) ∧
        count.toInt < -(Count.limit : Int) ∧ ∃ fault, after = .failed fault) := by
  have hrange := Count.toInt_range count
  cases h with
  | look demand purpose => exact .inl (visits_considered hvisits count)
  | grab demand purpose hcount htokens =>
    have hbound := demand.most_le_bound
    exact .inl (visits_settled hvisits (by omega) (by omega))
  | miss demand purpose => exact .inl (visits_considered hvisits count)
  | find => exact .inl hvisits
  | spin demand patience left => exact .inl (visits_respin hvisits.1 hvisits.2 left)
  | spinGrab demand patience left hcount htokens =>
    have hbound := demand.most_le_bound
    left
    split
    · exact hvisits
    · obtain ⟨-, rfl⟩ := hvisits
      exact Call.takes_acquire (by omega) fun _ => by omega
  | lose demand patience left => exact .inl (visits_respin hvisits.1 hvisits.2 left)
  | enter => exact .inl (visits_granted hvisits.1 hvisits.2)
  | enlist | await | retire | stay => exact .inl hvisits
  | withdraw demand =>
    obtain ⟨-, timeout, rfl⟩ := hvisits
    exact .inl (Nat.zero_le demand.bound)
  | raise => exact absurd hvisits id
  | broke phase fault left hphase hcount =>
    rcases hphase with henlist | ⟨amount, rfl⟩
    · exact .inr ⟨henlist, hcount, fault, rfl⟩
    · exact absurd hvisits id

/-- A call that takes tokens comes by an access to the count to a phase of its own, or it fails
where the count is at the lower end of its range. -/
theorem Onward.visits_or_fails {count left : Int64} {phase after : Phase}
    (h : Onward spins count phase after left) (hvisits : call.Visits phase) :
    call.Visits after ∨
      (count.toInt < -(Count.limit : Int) ∧ ∃ fault, after = .failed fault) :=
  (h.visits_or_breaks hvisits).imp_right And.right

/-- A call comes by an access to the count to a phase of its own, or it fails where the count is
at the lower end of its range. -/
theorem Onward.comes_or_fails {count left : Int64} {phase after : Phase}
    (h : Onward spins count phase after left) (hcomes : call.Comes phase) :
    call.Visits after ∨
      (count.toInt < -(Count.limit : Int) ∧ ∃ fault, after = .failed fault) := by
  rcases hcomes.cases with hvisits | ⟨amount, hamount, rfl, rfl⟩ | ⟨rfl, rfl⟩
  · exact h.visits_or_fails hvisits
  · cases h with
    | raise =>
      left
      unfold posting
      split
      · exact ⟨rfl, hamount⟩
      · exact ⟨amount, hamount, rfl⟩
    | broke phase fault left _ hcount => exact .inr ⟨hcount, fault, rfl⟩
  · cases h with
    | broke phase fault left hphase => rcases hphase with ⟨_, _, h⟩ | ⟨_, h⟩ <;> cases h

/-- A call that accesses the count comes to a phase of its own. -/
theorem visits_of_access {phase : Phase} {access : Cell.Access Int64}
    {next : access.Reply → Turn} (hmove : phase.move spins = .access access next)
    (hcomes : call.Comes phase) (hsound : phase.Sound) (spurious : Bool) {count : Int64}
    (hlow : -(Count.limit : Int) ≤ count.toInt) :
    call.Visits (next (access.perform spurious count).1).phase :=
  ((onward_of_access hmove hsound spurious count).comes_or_fails hcomes).resolve_right
    fun hfails => absurd hfails.1 (by omega)

/-- A call whose request has been answered comes to a phase of its own. -/
theorem visits_of_request {phase : Phase} {request : Kernel.Request} {next : Bool → Turn}
    (hmove : phase.move spins = .request request next) (hcomes : call.Comes phase)
    (granted : Bool) : call.Visits (next granted).phase := by
  rcases hcomes.cases with hvisits | ⟨amount, hamount, rfl, rfl⟩ | ⟨rfl, rfl⟩
  · rcases request_cases hmove with ⟨demand, patience, rfl⟩ | ⟨demand, rfl⟩ | ⟨tokens, rfl⟩
    · obtain ⟨hwanted, hcall⟩ := hvisits
      cases patience with
      | forever =>
        cases hmove
        exact visits_granted hwanted hcall
      | within timeout =>
        cases hmove
        cases granted with
        | true => exact visits_granted hwanted hcall
        | false => exact ⟨hwanted, timeout, hcall⟩
    · obtain ⟨hwanted, timeout, hcall⟩ := hvisits
      cases hmove
      cases granted with
      | true => exact visits_granted hwanted hcall
      | false => exact ⟨hwanted, timeout, hcall⟩
    · obtain ⟨amount, hamount, rfl⟩ := hvisits
      cases hmove
      exact ⟨rfl, hamount⟩
  · cases hmove
  · cases hmove

end Phase

variable {π δ σ : Type}

/-- A thread is where its plan and its call lead. It breaks off only if it signals nothing. -/
def Thread.Follows (plan : Plan δ σ) (thread : Thread σ π) : Prop :=
  match thread.mode with
  | .idle => True
  | .calling phase => ∃ call resume, plan thread.state = .call call resume ∧ call.Comes phase
  | .requesting _ _ => False
  | .broken fault =>
    fault = .signalNotPositive ∧ ∃ resume, plan thread.state = .call (.signal 0) resume

namespace Thread.Follows

variable {plan : Plan δ σ} {state : σ}

/-- A call that is over has taken what it may take. -/
theorem takes {tokens : Nat} {call : Call} {resume : Nat → σ}
    (h : (⟨state, .calling (.done tokens)⟩ : Thread σ π).Follows plan)
    (hplan : plan state = .call call resume) : call.Takes tokens := by
  obtain ⟨call', resume', hplan', hcomes⟩ := h
  obtain ⟨rfl, -⟩ : call' = call ∧ resume' = resume := by simpa using hplan'.symm.trans hplan
  exact hcomes.takes

/-- A thread does not break off if it never signals nothing. -/
theorem not_broken {thread : Thread σ π} (h : thread.Follows plan)
    (hsignals : ∀ resume, plan thread.state ≠ .call (.signal 0) resume) (fault : Fault) :
    thread.mode ≠ .broken fault := by
  intro hbroken
  simp only [Thread.Follows, hbroken] at h
  obtain ⟨-, resume, hplan⟩ := h
  exact hsignals resume hplan

/-- Nor does any of its calls. -/
theorem not_failing {spins : Nat} {phase : Phase}
    (h : (⟨state, .calling phase⟩ : Thread σ π).Follows plan) (hsound : phase.Sound)
    (hsignals : ∀ resume, plan state ≠ .call (.signal 0) resume) (fault : Fault) :
    phase.move spins ≠ .finish (.error fault) := by
  intro hmove
  obtain ⟨call, resume, hplan, hcomes⟩ := h
  rcases Phase.finish_cases hmove hsound with ⟨_, _, hok⟩ | ⟨_, rfl, _⟩
  · cases hok
  · rcases hcomes.cases with hvisits | ⟨count, -, -, hraise⟩ | ⟨rfl, -⟩
    · exact hvisits
    · cases hraise
    · exact hsignals resume hplan

end Thread.Follows

/-- A thread goes on to where its plan and its call lead. -/
theorem Crowd.Course.follows {spins : Nat} {plan : Plan δ σ} {c : Circumstance}
    {before after : Thread σ Kernel.Request} {shared shared' : Shared Nat δ}
    (h : Course spins plan c before shared after shared') (hfollows : before.Follows plan)
    (hsound : before.mode.Sound) (hlow : -(Count.limit : Int) ≤ shared.count.toInt) :
    after.Follows plan := by
  obtain ⟨state, mode⟩ := before
  cases h with
  | start call resume hmode hplan => exact ⟨call, resume, hplan, .inl rfl⟩
  | touch => trivial
  | access phase access next hmode hmove =>
    obtain rfl : mode = .calling phase := hmode
    obtain ⟨call, resume, hplan, hcomes⟩ := hfollows
    exact ⟨call, resume, hplan, .inr (Phase.visits_of_access hmove hcomes hsound _ hlow)⟩
  | request phase request next granted tokens hmode hmove =>
    obtain rfl : mode = .calling phase := hmode
    obtain ⟨call, resume, hplan, hcomes⟩ := hfollows
    exact ⟨call, resume, hplan, .inr (Phase.visits_of_request hmove hcomes granted)⟩
  | finish => trivial
  | fail phase fault hmode hmove =>
    obtain rfl : mode = .calling phase := hmode
    obtain ⟨call, resume, hplan, hcomes⟩ := hfollows
    rcases Phase.finish_cases hmove hsound with ⟨_, _, hok⟩ | ⟨fault', rfl, hfault⟩
    · cases hok
    · cases hfault
      rcases hcomes.cases with hvisits | ⟨count, _, _, hraise⟩ | ⟨rfl, hfailed⟩
      · exact absurd hvisits id
      · cases hraise
      · cases hfailed
        exact ⟨rfl, resume, hplan⟩

end WordSync.Semaphore
