import WordSync.Proofs.Semaphore.Episodes
import WordSync.Proofs.Semaphore.Visits

/-!
# What a call removes

The steps of a call for tokens remove tokens from the semaphore: from the count, by exchanges and
by registering where there is a token, and from the kernel. As long as the count does not wrap
around, a call holds at each of its phases what its steps have removed, whatever other threads do
in between, and it does not break off. A call that wants nothing removes nothing: it only looks.
-/

namespace WordSync

/-- The tokens that an access removes from a count that it finds: what an exchange leaves less of
it, or what is subtracted from it if there is a token. -/
def Cell.Access.removes (access : Cell.Access Int64) (found left : Int64) : Nat :=
  match access with
  | .exchange _ _ => (found.toInt - left.toInt).toNat
  | .exchangeWeak _ _ => (found.toInt - left.toInt).toNat
  | .fetchSub amount => if 0 < found then amount.toInt.toNat else 0
  | _ => 0

namespace Semaphore

variable {δ σ : Type} {spins : Nat} {plan : Plan δ σ}

/-- The tokens that a step removes, from the count by an access and from the kernel by a
request. -/
def Crowd.Stride.removes (spins : Nat) (e : Crowd.Stride δ σ) : Nat :=
  match e.before.mode with
  | .calling phase =>
    match phase.move spins with
    | .access access _ => access.removes e.found.count e.left.count
    | .request _ _ => e.found.kernel - e.left.kernel
    | .finish _ => 0
  | _ => 0

open Crowd

/-- The tokens that some steps remove. -/
def removed (spins : Nat) (steps : List (Stride δ σ)) : Nat :=
  (steps.map fun e => e.removes spins).sum

/-- Steps that only look: all of them are accesses to the count, and all leave it as it is. -/
def Idle (spins : Nat) (steps : List (Stride δ σ)) : Prop :=
  ∀ e ∈ steps, e.accesses spins ∧ e.Still

namespace Call

variable {call : Call} {phase : Phase} {demand : Demand} {patience : Patience}

/-- Whether a call may have to wait. -/
def waits : Call → Bool
  | .acquire demand _ => demand.wanted
  | _ => false

/-- A call that wants nothing does not wait for it. -/
theorem waits_eq_false (h : call.wanted = false) : call.waits = false := by
  cases call with
  | acquire demand patience => exact h
  | _ => rfl

/-- A call that need not wait is not one that waits for a token it wants. -/
theorem ne_acquire (hwaits : call.waits = false) (hdemand : demand.wanted) :
    call ≠ .acquire demand patience := by
  rintro rfl
  exact Bool.noConfusion (hdemand.symm.trans hwaits)

/-- A call for tokens has none to hand to the kernel. -/
theorem Visits.pending_eq_zero (h : call.Visits phase) (hacquires : call.acquires) :
    phase.pending = 0 := by
  cases phase with
  | post count =>
    obtain ⟨amount, -, rfl⟩ := h
    cases hacquires
  | _ => rfl

end Call

/-- A demand that wants nothing takes nothing. -/
theorem Demand.most_eq_zero {demand : Demand} (h : demand.wanted = false) :
    demand.most.toInt = 0 := by
  cases demand with
  | one => cases h
  | upTo max =>
    have hnone : ¬0 < max := of_decide_eq_false h
    rw [most, Count.toInt_clamp]
    omega

/-! ## What one step removes -/

section Steps

variable {steps : List (Stride δ σ)} {e : Stride δ σ}

/-- One more step removes what it removes. -/
theorem removed_snoc (steps : List (Stride δ σ)) (e : Stride δ σ) :
    removed spins (steps ++ [e]) = removed spins steps + e.removes spins := by
  simp only [removed, List.map_append, List.map_cons, List.map_nil, List.sum_append,
    List.sum_cons, List.sum_nil, Nat.add_zero]

/-- One more step that only looks. -/
theorem Idle.snoc (h : Idle spins steps) (haccess : e.accesses spins) (he : e.Still) :
    Idle spins (steps ++ [e]) := by
  intro d hd
  rcases List.mem_append.mp hd with hold | hnew
  · exact h d hold
  · rw [List.mem_singleton.mp hnew]
    exact ⟨haccess, he⟩

/-- What a step removes that accesses the count. -/
theorem Crowd.Stride.removes_of_access {phase : Phase} {access : Cell.Access Int64}
    {next : access.Reply → Turn} (hmode : e.before.mode = .calling phase)
    (hmove : phase.move spins = .access access next) :
    e.removes spins = access.removes e.found.count e.left.count := by
  simp only [removes, hmode, hmove]

/-- What a step removes that makes a request. -/
theorem Crowd.Stride.removes_of_request {phase : Phase} {request : Kernel.Request}
    {next : Bool → Turn} (hmode : e.before.mode = .calling phase)
    (hmove : phase.move spins = .request request next) :
    e.removes spins = e.found.kernel - e.left.kernel := by
  simp only [removes, hmode, hmove]

end Steps

namespace Phase

variable {phase after : Phase} {access : Cell.Access Int64} {next : access.Reply → Turn}
  {count left : Int64} {call : Call}

/-- A call takes tokens that it has seen by a weak exchange. -/
theorem access_of_grab {demand : Demand} {purpose : Purpose} {seen : Int64}
    (hmove : (grab demand purpose seen).move spins = .access access next) :
    ∃ rest, access = .exchangeWeak seen rest := by
  simp only [move, exchangeFor] at hmove
  split at hmove
  · cases hmove
    exact ⟨_, rfl⟩
  · cases hmove

/-- A call that looks again takes tokens that it has seen by an exchange. -/
theorem access_of_spinGrab {demand : Demand} {patience : Patience} {left : Nat} {seen : Int64}
    (hmove : (spinGrab demand patience left seen).move spins = .access access next) :
    ∃ rest, access = .exchange seen rest := by
  simp only [move, exchangeFor] at hmove
  split at hmove
  · cases hmove
    exact ⟨_, rfl⟩
  · cases hmove

/-- A call withdraws by an exchange. -/
theorem access_of_withdraw {demand : Demand} {seen : Int64}
    (hmove : (withdraw demand seen).move spins = .access access next) :
    ∃ rest, access = .exchange seen rest := by
  simp only [move, exchangeFor] at hmove
  split at hmove
  · cases hmove
    exact ⟨_, rfl⟩
  · cases hmove

/-- What an access removes, the call holds afterwards. -/
theorem Onward.held_eq (h : Onward spins count phase after left)
    (hmove : phase.move spins = .access access next) :
    after.held = phase.held + access.removes count left := by
  have hrange := Count.toInt_range count
  cases h with
  | look demand purpose =>
    cases hmove
    exact (holds_considered spins demand purpose count).held_eq
  | grab demand purpose hcount htokens hrest =>
    obtain ⟨rest, rfl⟩ := access_of_grab hmove
    rw [(holds_settled spins demand purpose (by omega)).held_eq]
    simp only [held, Cell.Access.removes]
    omega
  | miss demand purpose seen =>
    obtain ⟨rest, rfl⟩ := access_of_grab hmove
    rw [(holds_considered spins demand purpose count).held_eq]
    simp only [held, Cell.Access.removes]
    omega
  | find => cases hmove; rfl
  | spin demand patience left =>
    cases hmove
    exact (holds_respin demand patience left).held_eq
  | spinGrab demand patience left hcount htokens hrest =>
    obtain ⟨rest, rfl⟩ := access_of_spinGrab hmove
    rw [(holds_spinGrabbed demand patience _).held_eq]
    simp only [held, Cell.Access.removes]
    omega
  | lose demand patience left seen =>
    obtain ⟨rest, rfl⟩ := access_of_spinGrab hmove
    rw [(holds_respin demand patience left).held_eq]
    simp only [held, Cell.Access.removes]
    omega
  | enter demand patience hcount =>
    cases hmove
    rw [(holds_granted demand).held_eq]
    simp only [held, Cell.Access.removes, if_pos (Count.pos_iff.mpr hcount)]
    rfl
  | enlist demand patience hcount =>
    have hnone : ¬0 < count := fun hpos => absurd (Count.pos_iff.mp hpos) (by omega)
    cases hmove
    simp only [held, Cell.Access.removes, if_neg hnone]
  | await => cases hmove; rfl
  | retire => cases hmove; rfl
  | withdraw demand hcount hraised =>
    obtain ⟨rest, rfl⟩ := access_of_withdraw hmove
    simp only [held, Cell.Access.removes]
    omega
  | stay demand seen =>
    obtain ⟨rest, rfl⟩ := access_of_withdraw hmove
    simp only [held, Cell.Access.removes]
    omega
  | raise amount =>
    cases hmove
    exact congrArg Stock.held (stock_posting _ count 0)
  | broke phase fault left hphase hcount =>
    rcases hphase with ⟨demand, patience, rfl⟩ | ⟨amount, rfl⟩
    · have hnone : ¬0 < count := fun hpos => absurd (Count.pos_iff.mp hpos) (by omega)
      cases hmove
      simp only [held, Cell.Access.removes, if_neg hnone]
    · cases hmove
      rfl

/-- An access of a call that wants nothing changes nothing. -/
theorem Onward.left_eq (h : Onward spins count phase after left) (hvisits : call.Visits phase)
    (hwanted : call.wanted = false) : left = count := by
  have hnone {demand : Demand} {patience : Patience} (hdemand : demand.wanted) :
      call ≠ .acquire demand patience := Call.ne_acquire (Call.waits_eq_false hwanted) hdemand
  cases h with
  | grab demand purpose hcount htokens hrest =>
    have hmost := Demand.most_eq_zero ((Call.Looks.wanted_eq hvisits).trans hwanted)
    exact Int64.toInt_inj.mp (by omega)
  | spinGrab => exact absurd hvisits.2 (hnone hvisits.1)
  | enter => exact absurd hvisits.2 (hnone hvisits.1)
  | enlist => exact absurd hvisits.2 (hnone hvisits.1)
  | withdraw =>
    obtain ⟨hdemand, timeout, hcall⟩ := hvisits
    exact absurd hcall (hnone hdemand)
  | raise => exact absurd hvisits id
  | broke phase fault left hphase =>
    rcases hphase with ⟨demand, patience, rfl⟩ | ⟨amount, rfl⟩
    · exact absurd hvisits.2 (hnone hvisits.1)
    · exact absurd hvisits id
  | look | miss | find | spin | lose | await | retire | stay => rfl

/-- A call that registers where the count has no negative makes it wrap around. -/
theorem wraps_of_enlist {demand : Demand} {patience : Patience}
    (hmove : (enlist demand patience).move spins = .access access next)
    (hlow : count.toInt < -(Count.limit : Int)) : access.wraps count = true := by
  have hrange := Count.toInt_range count
  have hlowest : count = Int64.minValue := by
    apply Int64.toInt_inj.mp
    rw [Int64.toInt_minValue]
    simp only [Count.limit] at hlow hrange
    omega
  subst hlowest
  cases hmove
  decide

/-- What the kernel hands out, the call holds afterwards. -/
theorem held_of_request {request : Kernel.Request} {next : Bool → Turn} {c : Circumstance}
    {kernel kernel' : Nat} {granted : Bool} (hmove : phase.move spins = .request request next)
    (hserve : Kernel.Counter.step c request kernel = some (.answered granted, kernel'))
    (hvisits : call.Visits phase) (hacquires : call.acquires) :
    (next granted).phase.held = phase.held + (kernel - kernel') := by
  have heffect := (request_leads hmove hserve 0).2
  have htokens := heffect.tokens
  have hheld := heffect.held_le
  have hafter := visits_of_request hmove (.inr hvisits) granted
  simp only [stock, hvisits.raising_eq_zero, hvisits.pending_eq_zero hacquires,
    hafter.pending_eq_zero hacquires] at htokens hheld
  omega

end Phase

/-! ## What the steps of a call have removed by each phase -/

/-- The steps of a call for tokens, up to a phase. -/
structure Drawn (spins : Nat) (call : Call) (steps : List (Stride δ σ)) (phase : Phase) :
    Prop where
  /-- The phase is one of the call. -/
  visits : call.Visits phase
  /-- The call holds what its steps have removed. -/
  held_eq : phase.held = removed spins steps
  /-- A call that wants nothing only looks. -/
  idle : call.wanted = false → Idle spins steps

namespace Drawn

variable {steps : List (Stride δ σ)} {e : Stride δ σ} {call : Call} {phase : Phase}

/-- A new call has removed nothing. -/
theorem start (hacquires : call.acquires) :
    Drawn spins call ([] : List (Stride δ σ)) (.ofCall call) := by
  have hidle : Idle spins ([] : List (Stride δ σ)) := fun _ he => absurd he List.not_mem_nil
  cases call with
  | attempt demand => exact ⟨rfl, rfl, fun _ => hidle⟩
  | acquire demand patience => exact ⟨rfl, rfl, fun _ => hidle⟩
  | signal count => cases hacquires

/-- An access of a call that does not make the count wrap around. -/
theorem access {access : Cell.Access Int64} {next : access.Reply → Turn} {after : Phase}
    (hmode : e.before.mode = .calling phase) (hmove : phase.move spins = .access access next)
    (honward : Phase.Onward spins e.found.count phase after e.left.count)
    (hkernel : e.left.kernel = e.found.kernel) (hwraps : access.wraps e.found.count = false)
    (h : Drawn spins call steps phase) : Drawn spins call (steps ++ [e]) after := by
  constructor
  · rcases honward.visits_or_breaks h.visits with hvisits | ⟨⟨_, _, rfl⟩, hlow, -⟩
    · exact hvisits
    · exact absurd (Phase.wraps_of_enlist hmove hlow) (by rw [hwraps]; decide)
  · rw [removed_snoc, Stride.removes_of_access hmode hmove, ← h.held_eq]
    exact honward.held_eq hmove
  · intro hwanted
    exact (h.idle hwanted).snoc (Stride.accesses_of_move hmode hmove)
      ⟨honward.left_eq h.visits hwanted, hkernel⟩

/-- A request of a call. A call that wants nothing makes none. -/
theorem request {request : Kernel.Request} {next : Bool → Turn} {c : Circumstance}
    {granted : Bool} (hmode : e.before.mode = .calling phase)
    (hmove : phase.move spins = .request request next)
    (hserve : Kernel.Counter.step c request e.found.kernel =
      some (.answered granted, e.left.kernel))
    (hacquires : call.acquires) (h : Drawn spins call steps phase) :
    Drawn spins call (steps ++ [e]) (next granted).phase := by
  constructor
  · exact Phase.visits_of_request hmove (.inr h.visits) granted
  · rw [removed_snoc, Stride.removes_of_request hmode hmove, ← h.held_eq]
    exact Phase.held_of_request hmove hserve h.visits hacquires
  · intro hwanted
    have hwaits := Call.waits_eq_false hwanted
    have hvisits := h.visits
    rcases Phase.request_cases hmove with ⟨demand, patience, rfl⟩ | ⟨demand, rfl⟩ | ⟨count, rfl⟩
    · exact absurd hvisits.2 (Call.ne_acquire hwaits hvisits.1)
    · obtain ⟨hdemand, timeout, hcall⟩ := hvisits
      exact absurd hcall (Call.ne_acquire hwaits hdemand)
    · obtain ⟨amount, -, rfl⟩ := hvisits
      cases hacquires

end Drawn

/-- The steps of a thread have removed what its call holds, if the call is for tokens. Such a call
does not break off. -/
structure Draws (spins : Nat) (plan : Plan δ σ) (steps : List (Stride δ σ))
    (thread : Thread σ Kernel.Request) : Prop where
  /-- What the thread knows is right. -/
  sound : thread.mode.Sound
  /-- The call holds what its steps have removed. -/
  calling : ∀ phase call resume, thread.mode = .calling phase →
    plan thread.state = .call call resume → call.acquires → Drawn spins call steps phase
  /-- Only a signal breaks off. -/
  broken : ∀ fault call resume, thread.mode = .broken fault →
    plan thread.state = .call call resume → call.acquires = false

/-- A thread between two calls has removed nothing. -/
theorem Draws.of_idle {thread : Thread σ Kernel.Request} (h : thread.mode = .idle)
    (steps : List (Stride δ σ)) : Draws spins plan steps thread := by
  constructor
  · rw [h]
    trivial
  · intro phase call resume hmode
    cases h.symm.trans hmode
  · intro fault call resume hmode
    cases h.symm.trans hmode

/-- A thread in a call for tokens has removed what the call holds. -/
theorem Draws.of_calling {state : σ} {phase : Phase} {steps : List (Stride δ σ)}
    (hsound : phase.Sound)
    (hdrawn : ∀ call resume, plan state = .call call resume → call.acquires →
      Drawn spins call steps phase) : Draws spins plan steps ⟨state, .calling phase⟩ := by
  refine ⟨hsound, ?_, ?_⟩
  · intro phase' call resume hmode hplan hacquires
    cases hmode
    exact hdrawn call resume hplan hacquires
  · intro fault call resume hmode
    cases hmode

/-- Every step of a thread that does not make the count wrap around keeps that. -/
theorem Draws.step {steps : List (Stride δ σ)} {e : Stride δ σ}
    (hstep : Crowd.step Kernel.Counter.kernel spins plan e.circumstance e.number e.before e.found =
      some (e.after, e.left))
    (hwraps : e.before.wraps spins e.found.count = false) (h : Draws spins plan steps e.before) :
    Draws spins plan (if e.before.mode.inCall then steps ++ [e] else []) e.after := by
  have hsound := Crowd.step_sound hstep h.sound
  have hcourse := course_of_step hstep h.sound.whole
  generalize hafter : e.after = after at hcourse hsound
  generalize hleft : e.left = left at hcourse
  cases hcourse with
  | start first resume hmode hplan =>
    rw [hmode]
    refine .of_calling hsound fun call resume' hcall hacquires => ?_
    obtain ⟨rfl, -⟩ : first = call ∧ resume = resume' := by simpa using hplan.symm.trans hcall
    exact .start hacquires
  | touch => exact .of_idle rfl _
  | access phase access next hmode hmove =>
    have hknown := h.sound
    rw [hmode] at hknown ⊢
    refine .of_calling hsound fun call resume hcall hacquires => ?_
    have honward := Phase.onward_of_access hmove hknown
      (e.circumstance.chance == .mishap) e.found.count
    simp only [Thread.wraps, hmode, hmove] at hwraps
    refine (h.calling phase call resume hmode hcall hacquires).access hmode hmove ?_ ?_ hwraps
    · rw [hleft]
      exact honward
    · rw [hleft]
  | request phase request next granted tokens hmode hmove hserve =>
    rw [hmode]
    refine .of_calling hsound fun call resume hcall hacquires => ?_
    have hanswer : Kernel.Counter.step e.circumstance request e.found.kernel =
        some (.answered granted, e.left.kernel) := by
      rw [hleft]
      exact hserve
    exact (h.calling phase call resume hmode hcall hacquires).request hmode hmove hanswer hacquires
  | finish => exact .of_idle rfl _
  | fail phase fault hmode hmove =>
    have hknown := h.sound
    rw [hmode] at hknown
    refine ⟨trivial, ?_, ?_⟩
    · intro phase' call resume hcalling
      cases hcalling
    · intro fault' call resume _ hcall
      rw [← Bool.not_eq_true]
      intro hacquires
      have hdrawn := h.calling phase call resume hmode hcall hacquires
      rcases Phase.finish_cases hmove hknown with ⟨_, _, hok⟩ | ⟨_, rfl, _⟩
      · cases hok
      · exact hdrawn.visits

/-- As long as the count has not wrapped around, the steps of every thread have removed what its
call holds. -/
theorem Draws.of_recorded {s : Semaphore Nat} {data : δ} {states : List σ}
    {log : List (Stride δ σ)} {pool : Crowd Nat Kernel.Request δ σ}
    (hlog : (Crowd.machine Kernel.Counter.kernel spins plan).Recorded
      (Crowd.around Kernel.Request s data states) log pool)
    (hwraps : ∀ e ∈ log, e.before.wraps spins e.found.count = false) {i : Nat}
    {thread : Thread σ Kernel.Request} (hthread : pool.threads[i]? = some thread) :
    Draws spins plan (episode i log) thread := by
  refine episode_keeps_of_mem hlog ?_ (fun e he steps hstep => ?_) i thread hthread
  · intro thread hthread
    obtain ⟨state, -, rfl⟩ := List.mem_map.mp hthread
    exact .of_idle rfl []
  · exact Draws.step hstep (hwraps e he)

end Semaphore

end WordSync
