import WordSync.Proofs.Cell.Access
import WordSync.Proofs.Kernel.Counter
import WordSync.Proofs.Semaphore.Effect

/-!
# The moves of a call and their effects

Each move of a call is one access to the count, one request to the kernel semaphore, or the end
of the call. `Onward` lists the ways in which a call can go by an access, and whatever is said
about accesses later on follows from that list. Requests are served by the plain counter, which
answers in one step. In both cases the move has one of the effects of `Effect`, if the count is
far enough from both ends of its range, and the phase after it is sound again.
-/

namespace WordSync.Semaphore

namespace Phase

variable {phase after : Phase} {spins kernel : Nat}

/-- A phase before and after a move that leaves all tokens where they are. -/
theorem Holds.still {count : Int64} {tokens : Nat} (hbefore : phase.Holds tokens)
    (hafter : after.Holds tokens) :
    Effect (phase.stock count kernel) 0 (after.stock count kernel) := by
  refine .still rfl ?_
  simp only [stock, hbefore.held_eq, hbefore.registered_eq, hbefore.pending_eq, hafter.held_eq,
    hafter.registered_eq, hafter.pending_eq]

/-- A phase before and after a move that takes tokens from the count. -/
theorem Holds.take {count rest : Int64} {purse tokens : Nat} (hbefore : phase.Holds purse)
    (hafter : after.Holds (purse + tokens)) (hcount : (tokens : Int) ≤ count.toInt)
    (hrest : rest.toInt = count.toInt - tokens) :
    Effect (phase.stock count kernel) 0 (after.stock rest kernel) := by
  refine .take tokens rfl hcount ?_
  simp only [stock, hbefore.held_eq, hbefore.registered_eq, hbefore.pending_eq, hafter.held_eq,
    hafter.registered_eq, hafter.pending_eq, hrest]

/-- A move leads from a phase to a sound one, and has an effect on the stock. -/
def Leads (phase : Phase) (count : Int64) (kernel signalled : Nat) (after : Phase)
    (count' : Int64) (kernel' : Nat) : Prop :=
  after.Sound ∧ Effect (phase.stock count kernel) signalled (after.stock count' kernel')

/-- Where an access to the count leads, whatever the count is. -/
def AccessLeads (phase : Phase) (access : Cell.Access Int64) (next : access.Reply → Turn)
    (spurious : Bool) (count : Int64) (kernel : Nat) : Prop :=
  phase.Leads count kernel phase.raising (next (access.perform spurious count).1).phase
    (access.perform spurious count).2 kernel

/-- How a signal goes on that has so many tokens for waiters. -/
def posting (tokens : Nat) : Phase := if tokens = 0 then .done 0 else .post tokens

/-- A signal that goes on owes the kernel just its tokens for waiters. -/
theorem stock_posting (tokens : Nat) (count : Int64) (kernel : Nat) :
    (posting tokens).stock count kernel = ⟨count.toInt, kernel, 0, 0, tokens⟩ := by
  unfold posting
  split
  · next h =>
    rw [h]
    rfl
  · rfl

/-- A signal has no more to do with what it has seen. -/
theorem sound_posting (tokens : Nat) : (posting tokens).Sound := by
  unfold posting
  split
  · trivial
  · trivial

/-- A signal adds its tokens to the count, and goes on with one token for each waiter, as far as
they go. -/
theorem raise_move (spins amount : Nat) {count : Int64}
    (hlow : -(Count.limit : Int) ≤ count.toInt) :
    ∃ next, (raise amount).move spins = .access (.fetchAdd (Count.clamp amount)) next ∧
      (next count).phase = posting (min (min amount Count.limit) (-count.toInt).toNat) := by
  refine ⟨_, rfl, ?_⟩
  have hrange := Count.toInt_range count
  have hclamp := Count.toInt_clamp amount
  obtain ⟨waiting, hneg, hwaiting⟩ :=
    Count.exists_checked (n := -count.toInt) (by omega) (by omega)
  simp only [Count.neg, hneg]
  generalize hreleased :
    (if waiting < Count.clamp amount then waiting else Count.clamp amount) = released
  have hmin : released.toInt = min (-count.toInt) (min amount Count.limit : Nat) := by
    rw [← hreleased]
    split
    · next h =>
      have := Int64.lt_iff_toInt_lt.mp h
      omega
    · next h =>
      have := mt Int64.lt_iff_toInt_lt.mpr h
      omega
  by_cases h : 0 < released
  · have hpos := Count.pos_iff.mp h
    have hreal := Count.amount_of_nonneg (a := released) (by omega)
    have hamount : Count.amount released =
        min (min amount Count.limit) (-count.toInt).toNat := by omega
    rw [if_pos h, posting, if_neg (by omega), hamount]
  · have hnonpos : ¬0 < released.toInt := mt Count.pos_iff.mpr h
    rw [if_neg h, posting, if_pos (by omega)]

/-- A call that has taken tokens while it looked again holds them, if there were any. -/
theorem holds_spinGrabbed (demand : Demand) (patience : Patience) (tokens : Nat) :
    (if tokens = 0 then Phase.enlist demand patience else .done tokens).Holds (0 + tokens) := by
  split
  · next h =>
    rw [h]
    exact ⟨trivial, rfl, rfl, rfl⟩
  · rw [Nat.zero_add]
    exact holds_done tokens

/-- Where a call goes by an access to a count, and what it leaves there. The checks on the count
fail only below the range of counts that have a negative. -/
inductive Onward (spins : Nat) (count : Int64) : Phase → Phase → Int64 → Prop where
  /-- It has looked at the count. -/
  | look (demand : Demand) (purpose : Purpose) :
      Onward spins count (.look demand purpose) (considered spins demand purpose count) count
  /-- It has taken what there is, up to what it wants. -/
  | grab (demand : Demand) (purpose : Purpose) {tokens : Nat} {rest : Int64}
      (hcount : 0 < count.toInt) (htokens : (tokens : Int) = min demand.most.toInt count.toInt)
      (hrest : rest.toInt = count.toInt - tokens) :
      Onward spins count (.grab demand purpose count) (settled spins demand purpose tokens) rest
  /-- Its exchange has failed, and it has looked at the count. -/
  | miss (demand : Demand) (purpose : Purpose) (seen : Int64) :
      Onward spins count (.grab demand purpose seen) (considered spins demand purpose count) count
  /-- Looking again, it has found tokens. -/
  | find (demand : Demand) (patience : Patience) (left : Nat) (hcount : 0 < count.toInt) :
      Onward spins count (.spin demand patience left) (.spinGrab demand patience left count) count
  /-- Looking again, it has found none. -/
  | spin (demand : Demand) (patience : Patience) (left : Nat) (hcount : ¬0 < count) :
      Onward spins count (.spin demand patience left) (respin demand patience left) count
  /-- It has taken what it has found, up to what it wants. -/
  | spinGrab (demand : Demand) (patience : Patience) (left : Nat) {tokens : Nat} {rest : Int64}
      (hcount : 0 < count.toInt) (htokens : (tokens : Int) = min demand.most.toInt count.toInt)
      (hrest : rest.toInt = count.toInt - tokens) :
      Onward spins count (.spinGrab demand patience left count)
        (if tokens = 0 then .enlist demand patience else .done tokens) rest
  /-- The count has changed since it has found tokens, and it looks again. -/
  | lose (demand : Demand) (patience : Patience) (left : Nat) (seen : Int64) :
      Onward spins count (.spinGrab demand patience left seen) (respin demand patience left) count
  /-- Registering, it has got a token. -/
  | enter (demand : Demand) (patience : Patience) {left : Int64} (hcount : 0 < count.toInt)
      (hleft : left.toInt = count.toInt - 1) :
      Onward spins count (.enlist demand patience) (granted demand) left
  /-- It has registered as a waiter. -/
  | enlist (demand : Demand) (patience : Patience) {left : Int64} (hcount : count.toInt ≤ 0)
      (hleft : left.toInt = count.toInt - 1) :
      Onward spins count (.enlist demand patience) (.park demand patience) left
  /-- Out of time, it has seen that a token is on its way. -/
  | await (demand : Demand) (hcount : 0 ≤ count.toInt) :
      Onward spins count (.recheck demand) (.claim demand) count
  /-- Out of time, it has seen that no token is on its way. -/
  | retire (demand : Demand) (hcount : count.toInt < 0) :
      Onward spins count (.recheck demand) (.withdraw demand count) count
  /-- It has withdrawn. -/
  | withdraw (demand : Demand) {raised : Int64} (hcount : count.toInt < 0)
      (hraised : raised.toInt = count.toInt + 1) :
      Onward spins count (.withdraw demand count) (.done 0) raised
  /-- The count has changed since it was about to withdraw. -/
  | stay (demand : Demand) (seen : Int64) :
      Onward spins count (.withdraw demand seen) (.recheck demand) count
  /-- It has added tokens to the count. -/
  | raise (amount : Nat) (hlow : -(Count.limit : Int) ≤ count.toInt) :
      Onward spins count (.raise amount)
        (posting (min (min amount Count.limit) (-count.toInt).toNat)) (count + Count.clamp amount)
  /-- A check on the count has failed while it registered or signalled. -/
  | broke (phase : Phase) (fault : Fault) (left : Int64)
      (hphase : (∃ demand patience, phase = .enlist demand patience) ∨
        ∃ amount, phase = .raise amount)
      (hcount : count.toInt < -(Count.limit : Int)) : Onward spins count phase (.failed fault) left

/-- A call goes one of these ways by an access, whatever the count is. -/
def GoesBy (spins : Nat) (phase : Phase) (access : Cell.Access Int64)
    (next : access.Reply → Turn) (spurious : Bool) (count : Int64) : Prop :=
  Onward spins count phase (next (access.perform spurious count).1).phase
    (access.perform spurious count).2

/-- It is enough to look at the one answer that an access gives. -/
theorem GoesBy.of_answer {access : Cell.Access Int64} {next : access.Reply → Turn}
    {spurious : Bool} {count : Int64} (reply : access.Reply) (left : Int64)
    (hperform : access.perform spurious count = (reply, left))
    (honward : Onward spins count phase (next reply).phase left) :
    phase.GoesBy spins access next spurious count := by
  unfold GoesBy
  rw [hperform]
  exact honward

/-- An exchange that takes what a demand asks for. -/
theorem onward_grab {demand : Demand} {purpose : Purpose} {seen : Int64} (hseen : 0 < seen.toInt)
    {access : Cell.Access Int64} {next : access.Reply → Turn}
    (hmove : (grab demand purpose seen).move spins = .access access next) (spurious : Bool)
    (count : Int64) :
    (grab demand purpose seen).GoesBy spins access next spurious count := by
  obtain ⟨rest, hleft, hrest⟩ := demand.exists_left hseen
  obtain ⟨tokens, htaken, htokens⟩ := Demand.exists_taken hseen hrest
  simp only [move, hleft, exchangeFor] at hmove
  cases hmove
  rcases Cell.Access.exchangeWeak_cases spurious seen rest count with
    ⟨rfl, hperform⟩ | ⟨-, hperform⟩
  · refine .of_answer _ _ hperform ?_
    simp only [htaken, ofAmount]
    exact .grab demand purpose hseen htokens (by omega)
  · exact .of_answer _ _ hperform (.miss demand purpose seen)

/-- The exchange of a call that looks again. -/
theorem onward_spinGrab {demand : Demand} {patience : Patience} {left : Nat} {seen : Int64}
    (hseen : 0 < seen.toInt) {access : Cell.Access Int64} {next : access.Reply → Turn}
    (hmove : (spinGrab demand patience left seen).move spins = .access access next)
    (spurious : Bool) (count : Int64) :
    (spinGrab demand patience left seen).GoesBy spins access next spurious count := by
  obtain ⟨rest, hleft, hrest⟩ := Demand.exists_leaving demand.most_nonneg seen
  obtain ⟨tokens, htaken, htokens⟩ := Demand.exists_taken hseen hrest
  simp only [move, hleft, exchangeFor] at hmove
  cases hmove
  rcases Cell.Access.exchange_cases spurious seen rest count with
    ⟨rfl, hperform⟩ | ⟨-, hperform⟩
  · refine .of_answer _ _ hperform ?_
    simp only [htaken, ofAmount]
    exact .spinGrab demand patience left hseen htokens (by omega)
  · exact .of_answer _ _ hperform (.lose demand patience left seen)

/-- Registering takes a token from a positive count, and makes a waiter otherwise. -/
theorem onward_enlist {demand : Demand} {patience : Patience} {access : Cell.Access Int64}
    {next : access.Reply → Turn}
    (hmove : (enlist demand patience).move spins = .access access next) (spurious : Bool)
    (count : Int64) :
    (enlist demand patience).GoesBy spins access next spurious count := by
  have hrange := Count.toInt_range count
  have hone : Int64.toInt 1 = 1 := by decide
  have hsub (hlow : -(Count.limit : Int) ≤ count.toInt) : (count - 1).toInt = count.toInt - 1 := by
    rw [Count.toInt_sub_of_range (by omega) (by omega), hone]
  simp only [move] at hmove
  cases hmove
  refine .of_answer count (count - 1) rfl ?_
  by_cases h : 0 < count
  · have hcount := Count.pos_iff.mp h
    rw [if_pos h]
    exact .enter demand patience hcount (hsub (by omega))
  · have hcount : count.toInt ≤ 0 := by
      have := mt Count.pos_iff.mpr h
      omega
    rw [if_neg h]
    rcases Count.neg_cases count with ⟨hlow, ahead, hneg, -⟩ | ⟨hlow, hneg⟩
    · simp only [hneg]
      exact .enlist demand patience hcount (hsub hlow)
    · simp only [hneg]
      exact .broke _ _ _ (.inl ⟨demand, patience, rfl⟩) hlow

/-- A withdrawal gives back what registering took, or changes nothing. -/
theorem onward_withdraw {demand : Demand} {seen : Int64} (hseen : seen.toInt < 0)
    {access : Cell.Access Int64} {next : access.Reply → Turn}
    (hmove : (withdraw demand seen).move spins = .access access next) (spurious : Bool)
    (count : Int64) :
    (withdraw demand seen).GoesBy spins access next spurious count := by
  obtain ⟨raised, hadd, hraised⟩ := Count.exists_raised hseen
  simp only [move, hadd, exchangeFor] at hmove
  cases hmove
  rcases Cell.Access.exchange_cases spurious seen raised count with
    ⟨rfl, hperform⟩ | ⟨-, hperform⟩
  · exact .of_answer _ _ hperform (.withdraw demand hseen (by omega))
  · exact .of_answer _ _ hperform (.stay demand seen)

/-- A signal adds its tokens to the count. -/
theorem onward_raise {amount : Nat} {access : Cell.Access Int64} {next : access.Reply → Turn}
    (hmove : (raise amount).move spins = .access access next) (spurious : Bool) (count : Int64) :
    (raise amount).GoesBy spins access next spurious count := by
  rcases Count.neg_cases count with ⟨hlow, -⟩ | ⟨hlow, hneg⟩
  · obtain ⟨next', hmove', hnext⟩ := raise_move spins amount hlow
    rw [hmove] at hmove'
    cases hmove'
    refine .of_answer count (count + Count.clamp amount) rfl ?_
    rw [hnext]
    exact .raise amount hlow
  · simp only [move] at hmove
    cases hmove
    refine .of_answer count (count + Count.clamp amount) rfl ?_
    simp only [hneg]
    exact .broke _ _ _ (.inr ⟨amount, rfl⟩) hlow

/-- Every access of a sound call goes one of these ways. -/
theorem onward_of_access {access : Cell.Access Int64} {next : access.Reply → Turn}
    (hmove : phase.move spins = .access access next) (hsound : phase.Sound) (spurious : Bool)
    (count : Int64) : phase.GoesBy spins access next spurious count := by
  cases phase with
  | look demand purpose =>
    cases hmove
    exact .look demand purpose
  | grab demand purpose seen => exact onward_grab hsound hmove spurious count
  | spin demand patience left =>
    simp only [move] at hmove
    cases hmove
    refine .of_answer count count rfl ?_
    by_cases h : 0 < count
    · rw [if_pos h]
      exact .find demand patience left (Count.pos_iff.mp h)
    · rw [if_neg h]
      exact .spin demand patience left h
  | spinGrab demand patience left seen => exact onward_spinGrab hsound hmove spurious count
  | enlist demand patience => exact onward_enlist hmove spurious count
  | park demand patience => cases patience <;> cases hmove
  | recheck demand =>
    simp only [move] at hmove
    cases hmove
    refine .of_answer count count rfl ?_
    by_cases h : 0 ≤ count
    · rw [if_pos h]
      exact .await demand (Count.nonneg_iff.mp h)
    · rw [if_neg h]
      have hnegative : count.toInt < 0 := by
        have := mt Count.nonneg_iff.mpr h
        omega
      exact .retire demand hnegative
  | withdraw demand seen => exact onward_withdraw hsound hmove spurious count
  | raise amount => exact onward_raise hmove spurious count
  | claim | post | done | failed => cases hmove

/-- Whichever way a call goes by an access, it goes to a sound phase, and with an effect on the
stock, as long as a signal does not raise the count too far. It fails only where the count is at
the lower end of its range. -/
theorem Onward.leads_or_fails {count left : Int64} (h : Onward spins count phase after left)
    (hsound : phase.Sound) (hhigh : count.toInt + phase.raising ≤ Count.limit) :
    phase.Leads count kernel phase.raising after left kernel ∨
      (count.toInt < -(Count.limit : Int) ∧ ∃ fault, after = .failed fault) := by
  have hrange := Count.toInt_range count
  cases h with
  | look demand purpose =>
    have hbefore : (Phase.look demand purpose).Holds purpose.purse := ⟨trivial, rfl, rfl, rfl⟩
    have hafter := holds_considered spins demand purpose count
    exact .inl ⟨hafter.sound, hbefore.still hafter⟩
  | @grab demand purpose tokens rest hcount htokens hrest =>
    have hbefore : (Phase.grab demand purpose count).Holds purpose.purse :=
      ⟨hsound, rfl, rfl, rfl⟩
    have hlimited : tokens ≤ Count.limit := by omega
    have hafter := holds_settled spins demand purpose hlimited
    exact .inl ⟨hafter.sound, hbefore.take hafter (by omega) hrest⟩
  | miss demand purpose seen =>
    have hbefore : (Phase.grab demand purpose seen).Holds purpose.purse := ⟨hsound, rfl, rfl, rfl⟩
    have hafter := holds_considered spins demand purpose count
    exact .inl ⟨hafter.sound, hbefore.still hafter⟩
  | find demand patience left hcount => exact .inl ⟨hcount, .still rfl rfl⟩
  | spin demand patience left hcount =>
    have hbefore : (Phase.spin demand patience left).Holds 0 := ⟨trivial, rfl, rfl, rfl⟩
    have hafter := holds_respin demand patience left
    exact .inl ⟨hafter.sound, hbefore.still hafter⟩
  | @spinGrab demand patience left tokens rest hcount htokens hrest =>
    have hbefore : (Phase.spinGrab demand patience left count).Holds 0 := ⟨hsound, rfl, rfl, rfl⟩
    have hafter := holds_spinGrabbed demand patience tokens
    exact .inl ⟨hafter.sound, hbefore.take hafter (by omega) hrest⟩
  | lose demand patience left seen =>
    have hbefore : (Phase.spinGrab demand patience left seen).Holds 0 := ⟨hsound, rfl, rfl, rfl⟩
    have hafter := holds_respin demand patience left
    exact .inl ⟨hafter.sound, hbefore.still hafter⟩
  | enter demand patience hcount hleft =>
    have hbefore : (Phase.enlist demand patience).Holds 0 := ⟨trivial, rfl, rfl, rfl⟩
    have hafter : (granted demand).Holds (0 + 1) := holds_granted demand
    exact .inl ⟨hafter.sound, hbefore.take hafter (by omega) hleft⟩
  | enlist demand patience hcount hleft =>
    refine .inl ⟨trivial, .register rfl hcount rfl ?_⟩
    simp only [stock, held, registered, pending, hleft]
  | await demand hcount => exact .inl ⟨trivial, .still rfl rfl⟩
  | retire demand hcount => exact .inl ⟨hcount, .still rfl rfl⟩
  | withdraw demand hcount hraised =>
    refine .inl ⟨trivial, .withdraw rfl hcount rfl ?_⟩
    simp only [stock, held, registered, pending, hraised]
  | stay demand seen => exact .inl ⟨trivial, .still rfl rfl⟩
  | raise amount =>
    have hclamp := Count.toInt_clamp amount
    simp only [raising] at hhigh
    have hsum : (count + Count.clamp amount).toInt =
        count.toInt + (min amount Count.limit : Nat) := by
      rw [Count.toInt_add_of_range (by omega) (by omega), hclamp]
    refine .inl ⟨sound_posting _, .raise rfl ?_⟩
    rw [stock_posting, hsum]
    rfl
  | broke phase fault left _ hcount => exact .inr ⟨hcount, fault, rfl⟩

/-- Whichever way a call goes by an access, the count permitting, it goes to a sound phase, and
with an effect on the stock. -/
theorem Onward.leads {count left : Int64} (h : Onward spins count phase after left)
    (hsound : phase.Sound) (hlow : -(Count.limit : Int) ≤ count.toInt)
    (hhigh : count.toInt + phase.raising ≤ Count.limit) :
    phase.Leads count kernel phase.raising after left kernel :=
  (h.leads_or_fails hsound hhigh).resolve_right fun hfails => absurd hfails.1 (by omega)

/-- By an access a call gives back nothing that it holds, and what it takes from the count it
holds, or it waits for it; a signal brings tokens. -/
theorem Onward.sum_or_fails {count left : Int64} (h : Onward spins count phase after left)
    (hsound : phase.Sound) (hhigh : count.toInt + phase.raising ≤ Count.limit) :
    (left.toInt + after.held + after.registered =
        count.toInt + phase.raising + phase.held + phase.registered ∧ phase.held ≤ after.held) ∨
      (count.toInt < -(Count.limit : Int) ∧ ∃ fault, after = .failed fault) := by
  have hleads : phase.Leads count 0 phase.raising after left 0 ∨ _ :=
    h.leads_or_fails hsound hhigh
  exact hleads.imp_left fun ⟨_, heffect⟩ => ⟨heffect.sum, heffect.held_le⟩

/-- Every access to a count that is not about to wrap leads on, whatever its phase. -/
theorem access_leads {access : Cell.Access Int64} {next : access.Reply → Turn}
    (hmove : phase.move spins = .access access next) (hsound : phase.Sound) (spurious : Bool)
    {count : Int64} (hlow : -(Count.limit : Int) ≤ count.toInt)
    (hhigh : count.toInt + phase.raising ≤ Count.limit) :
    phase.AccessLeads access next spurious count kernel :=
  (onward_of_access hmove hsound spurious count).leads hsound hlow hhigh

/-- A waiter that was granted a token by the kernel has received it. -/
theorem receive_leads {count : Int64} {kernel' : Nat} (hregistered : phase.registered = 1)
    (hheld : phase.held = 0) (hpending : phase.pending = 0) (hkernel : kernel = kernel' + 1)
    (demand : Demand) : phase.Leads count kernel 0 (granted demand) count kernel' := by
  have hafter := holds_granted demand
  refine ⟨hafter.sound, .receive rfl ?_ hregistered ?_⟩
  · simp only [stock]
    omega
  · simp only [stock, hheld, hpending, hafter.held_eq, hafter.registered_eq, hafter.pending_eq,
      hkernel, Nat.add_sub_cancel]

/-- A call asks the kernel only to sleep, to claim a token, or to wake sleepers. -/
theorem request_cases {request : Kernel.Request} {next : Bool → Turn}
    (hmove : phase.move spins = .request request next) :
    (∃ demand patience, phase = .park demand patience) ∨ (∃ demand, phase = .claim demand) ∨
      ∃ count, phase = .post count := by
  cases phase with
  | park demand patience => exact .inl ⟨demand, patience, rfl⟩
  | claim demand => exact .inr (.inl ⟨demand, rfl⟩)
  | post count => exact .inr (.inr ⟨count, rfl⟩)
  | grab demand purpose seen =>
    simp only [move, exchangeFor] at hmove
    split at hmove <;> cases hmove
  | spinGrab demand patience left seen =>
    simp only [move, exchangeFor] at hmove
    split at hmove <;> cases hmove
  | withdraw demand seen =>
    simp only [move, exchangeFor] at hmove
    split at hmove <;> cases hmove
  | look | spin | enlist | recheck | raise | done | failed => cases hmove

/-- Every request that the plain counter has answered leads on. -/
theorem request_leads {request : Kernel.Request} {next : Bool → Turn}
    (hmove : phase.move spins = .request request next) {c : Circumstance} {kernel' : Nat}
    {granted : Bool}
    (hserve : Kernel.Counter.step c request kernel = some (.answered granted, kernel'))
    (count : Int64) :
    phase.Leads count kernel phase.raising (next granted).phase count kernel' := by
  rcases request_cases hmove with ⟨demand, patience, rfl⟩ | ⟨demand, rfl⟩ | ⟨amount, rfl⟩
  · cases patience with
    | forever =>
      cases hmove
      exact receive_leads rfl rfl rfl (Kernel.Counter.step_wait hserve).2 demand
    | within timeout =>
      cases hmove
      rcases Kernel.Counter.step_timedWait hserve with ⟨rfl, hkernel⟩ | ⟨rfl, rfl⟩
      · exact receive_leads rfl rfl rfl hkernel demand
      · exact ⟨trivial, .still rfl rfl⟩
  · cases hmove
    rcases Kernel.Counter.step_tryWait hserve with ⟨rfl, hkernel⟩ | ⟨rfl, rfl, rfl⟩
    · exact receive_leads rfl rfl rfl hkernel demand
    · exact ⟨trivial, .still rfl rfl⟩
  · cases hmove
    rw [Kernel.Counter.step_signal hserve]
    exact ⟨trivial, .post rfl rfl⟩

/-- A sound call ends only where it is over, with what it has taken or with its fault. -/
theorem finish_cases {result : Except Fault Nat} (hmove : phase.move spins = .finish result)
    (hsound : phase.Sound) :
    (∃ tokens, phase = .done tokens ∧ result = .ok tokens) ∨
      (∃ fault, phase = .failed fault ∧ result = .error fault) := by
  cases phase with
  | grab demand purpose seen =>
    obtain ⟨rest, hleft, _⟩ := demand.exists_left hsound
    simp only [move, hleft, exchangeFor] at hmove
    cases hmove
  | spinGrab demand patience left seen =>
    obtain ⟨rest, hleft, _⟩ := Demand.exists_leaving demand.most_nonneg seen
    simp only [move, hleft, exchangeFor] at hmove
    cases hmove
  | withdraw demand seen =>
    have hnegative : seen.toInt < 0 := hsound
    have hrange := Count.toInt_range seen
    have hone : Int64.toInt 1 = 1 := by decide
    obtain ⟨raised, hadd, _⟩ :=
      Count.exists_checked (n := seen.toInt + Int64.toInt 1) (by omega) (by omega)
    simp only [move, Count.add, hadd, exchangeFor] at hmove
    cases hmove
  | park demand patience => cases patience <;> cases hmove
  | done tokens =>
    cases hmove
    exact .inl ⟨tokens, rfl, rfl⟩
  | failed fault =>
    cases hmove
    exact .inr ⟨fault, rfl, rfl⟩
  | look | spin | enlist | recheck | claim | raise | post => cases hmove

end Phase

end WordSync.Semaphore
