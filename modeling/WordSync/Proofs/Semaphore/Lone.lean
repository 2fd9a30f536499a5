import WordSync.Proofs.Cell.Access
import WordSync.Proofs.Semaphore.Tokens

/-!
# The phases of a call that nobody disturbs

A call of a thread that is alone finds in the count what it has left there itself. `Phase.Lone`
lists the phases that such a call comes to, each with the count and with what has been asked of
the kernel by then: the call grabs its tokens and is over, or there are none and it looks again,
registers, asks the kernel and withdraws. No token is ever on its way to a sleeper, so the phases
in which a token is claimed or posted do not occur. A weak exchange may fail all the same, which
leads back to the same phase.
-/

namespace WordSync.Semaphore

/-- A number of tokens as a count. -/
theorem Count.toInt_ofNat {n : Nat} (h : n ≤ limit) : (Int64.ofNat n).toInt = n :=
  Int64.toInt_ofNat_of_lt (by simp only [limit] at h; omega)

/-- What a demand may take at once from the count, it takes of the tokens there are. -/
theorem Demand.min_most (demand : Demand) {tokens : Nat} (hlimit : tokens ≤ Count.limit) :
    min demand.most.toInt tokens = (min demand.bound tokens : Nat) := by
  cases demand with
  | one =>
    have hone : Int64.toInt 1 = 1 := by decide
    simp only [most, bound, hone]
    omega
  | upTo max =>
    rw [most, bound, Count.toInt_clamp]
    omega

namespace Call

variable {call : Call} {tokens : Nat} {demand : Demand} {purpose : Purpose}

/-- A call waits for nothing: it wants tokens where there are none, and will not wait for ever. -/
structure Starves (call : Call) (tokens : Nat) (demand : Demand) (timeout : Duration) :
    Prop where
  /-- There are no tokens. -/
  empty : tokens = 0
  /-- Some are wanted. -/
  wanted : demand.wanted
  /-- The call is willing to wait for some time. -/
  call_eq : call = .acquire demand (.within timeout)

/-- A call that waits for nothing asks the kernel once. -/
theorem Starves.asks_eq {timeout : Duration} (h : call.Starves tokens demand timeout) :
    call.asks tokens = [.timedWait timeout] := by
  obtain ⟨hempty, hwanted, rfl⟩ := h
  exact if_pos ⟨hempty, hwanted⟩

/-- The demand and the purpose with which a call first looks at the count. -/
inductive Opens : Call → Demand → Purpose → Prop where
  /-- A call that does not wait. -/
  | attempt (demand : Demand) : Opens (.attempt demand) demand .attempt
  /-- A call that is willing to wait. -/
  | acquire (demand : Demand) (patience : Patience) :
      Opens (.acquire demand patience) demand (.opening patience)

/-- A call takes what it looks for. -/
theorem Opens.taking_eq (h : call.Opens demand purpose) :
    call.taking tokens = min demand.bound tokens := by
  cases h <;> rfl

/-- A call leaves what it does not take. -/
theorem Opens.leaves_eq (h : call.Opens demand purpose) :
    call.leaves tokens = tokens - min demand.bound tokens := by
  cases h <;> rfl

/-- A call that gets what it wants, or is not willing to wait for it, asks the kernel for
nothing. -/
theorem Opens.asks_eq (h : call.Opens demand purpose)
    (hserved : purpose = .attempt ∨ (demand.wanted → 0 < tokens)) : call.asks tokens = [] := by
  cases h with
  | attempt => rfl
  | acquire demand patience =>
    have hsome := hserved.resolve_left nofun
    cases patience with
    | forever => rfl
    | within timeout => exact if_neg fun h => Nat.ne_of_gt (hsome h.2) h.1

end Call

namespace Phase

/-- The phases of a call that a thread makes alone where there are `tokens` tokens, each with the
count and with the requests to the kernel that the call has made. -/
inductive Lone (call : Call) (tokens : Nat) : Phase → Int64 → List Kernel.Request → Prop where
  /-- It is about to look at the count. -/
  | look {demand : Demand} {purpose : Purpose} (hopens : call.Opens demand purpose) :
      Lone call tokens (.look demand purpose) (.ofNat tokens) []
  /-- It has found tokens. -/
  | grab {demand : Demand} {purpose : Purpose} (hopens : call.Opens demand purpose)
      (hsome : 0 < tokens) :
      Lone call tokens (.grab demand purpose (.ofNat tokens)) (.ofNat tokens) []
  /-- It has found none and looks again. -/
  | spin {demand : Demand} {timeout : Duration} (left : Nat)
      (hstarves : call.Starves tokens demand timeout) :
      Lone call tokens (.spin demand (.within timeout) left) 0 []
  /-- It is about to register. -/
  | enlist {demand : Demand} {timeout : Duration} (hstarves : call.Starves tokens demand timeout) :
      Lone call tokens (.enlist demand (.within timeout)) 0 []
  /-- It is the only waiter. -/
  | park {demand : Demand} {timeout : Duration} (hstarves : call.Starves tokens demand timeout) :
      Lone call tokens (.park demand (.within timeout)) (-1) []
  /-- Its time is over. -/
  | recheck {demand : Demand} {timeout : Duration}
      (hstarves : call.Starves tokens demand timeout) :
      Lone call tokens (.recheck demand) (-1) [.timedWait timeout]
  /-- It is about to withdraw. -/
  | withdraw {demand : Demand} {timeout : Duration}
      (hstarves : call.Starves tokens demand timeout) :
      Lone call tokens (.withdraw demand (-1)) (-1) [.timedWait timeout]
  /-- It is about to add its tokens. -/
  | raise {count : Nat} (hcall : call = .signal count) :
      Lone call tokens (.raise count) (.ofNat tokens) []
  /-- It is over. -/
  | done :
      Lone call tokens (.done (call.taking tokens)) (.ofNat (call.leaves tokens))
        (call.asks tokens)

/-- How many moves a call can still make that nobody disturbs. -/
def toGo (spins : Nat) : Phase → Nat
  | .look _ _ => spins + 8
  | .grab _ _ _ => spins + 7
  | .spin _ _ left => left + 6
  | .enlist _ _ => 5
  | .park _ _ => 4
  | .recheck _ => 3
  | .withdraw _ _ => 2
  | .raise _ => 2
  | .done _ => 1
  | _ => 0

/-- Where a move leads: to a phase of the lone call that is closer to its end. If the move was
spoilt, it may be as far from its end as before. -/
def LeadsAlone (spins : Nat) (call : Call) (tokens : Nat) (phase : Phase) (spoilt : Bool)
    (after : Phase) (count : Int64) (asked : List Kernel.Request) : Prop :=
  Lone call tokens after count asked ∧ after.toGo spins ≤ phase.toGo spins ∧
    (spoilt = false → after.toGo spins < phase.toGo spins)

variable {call : Call} {tokens spins : Nat} {phase after : Phase} {count : Int64}
  {asked : List Kernel.Request} {demand : Demand} {purpose : Purpose}

/-- A move to a phase that is closer to the end leads on, spoilt or not. -/
theorem Lone.leads (hlone : Lone call tokens after count asked)
    (hless : after.toGo spins < phase.toGo spins) (spoilt : Bool) :
    phase.LeadsAlone spins call tokens spoilt after count asked :=
  ⟨hlone, Nat.le_of_lt hless, fun _ => hless⟩

/-- A lone call goes on by an access to the count, which it does not make wrap around. -/
def GoesAlone (spins : Nat) (call : Call) (tokens : Nat) (phase : Phase)
    (access : Cell.Access Int64) (next : access.Reply → Turn) (spoilt : Bool) (count : Int64)
    (asked : List Kernel.Request) : Prop :=
  access.wraps count = false ∧
    phase.LeadsAlone spins call tokens spoilt (next (access.perform spoilt count).1).phase
      (access.perform spoilt count).2 asked

/-- It is enough to look at the one answer that an access gives. -/
theorem GoesAlone.of_answer {access : Cell.Access Int64} {next : access.Reply → Turn}
    {spoilt : Bool} (hwraps : access.wraps count = false) (reply : access.Reply) (left : Int64)
    (hperform : access.perform spoilt count = (reply, left))
    (hleads : phase.LeadsAlone spins call tokens spoilt (next reply).phase left asked) :
    phase.GoesAlone spins call tokens access next spoilt count asked := by
  refine ⟨hwraps, ?_⟩
  rw [hperform]
  exact hleads

/-- A lone call always has a move to make, be it the last. -/
theorem Lone.toGo_pos (hlone : Lone call tokens phase count asked) (spins : Nat) :
    0 < phase.toGo spins := by
  cases hlone <;> exact Nat.succ_pos _

/-- A lone call asks the kernel for no more than it should. -/
theorem Lone.asked_prefix (hlone : Lone call tokens phase count asked) :
    asked <+: call.asks tokens := by
  cases hlone with
  | recheck hstarves | withdraw hstarves => exact hstarves.asks_eq ▸ List.prefix_rfl
  | done => exact List.prefix_rfl
  | look | grab | spin | enlist | park | raise => exact List.nil_prefix

/-- To look again takes one move for each look, and the rest of the call. -/
theorem toGo_respin (spins : Nat) (demand : Demand) (patience : Patience) (left : Nat) :
    (respin demand patience left).toGo spins = left + 5 := by
  cases left <;> rfl

/-- A lone call that has found nothing looks again or enlists. -/
theorem lone_respin {timeout : Duration} (hstarves : call.Starves tokens demand timeout)
    (left : Nat) : Lone call tokens (respin demand (.within timeout) left) 0 [] := by
  cases left with
  | zero => exact .enlist hstarves
  | succ left => exact .spin left hstarves

/-- A lone call begins with all tokens in the count. -/
theorem lone_ofCall (hfair : call.Fair tokens) :
    Lone call tokens (ofCall call) (.ofNat tokens) [] := by
  cases call with
  | attempt demand => exact .look (.attempt demand)
  | acquire demand patience => exact .look (.acquire demand patience)
  | signal count =>
    rw [ofCall, if_neg (Nat.ne_of_gt hfair.1)]
    exact .raise rfl

/-- A call begins with no more moves to make than it takes to look, to look again and to register
in vain. -/
theorem toGo_ofCall_le (spins : Nat) (call : Call) : (ofCall call).toGo spins ≤ spins + 8 := by
  cases call with
  | signal count =>
    simp only [ofCall]
    split
    · exact Nat.zero_le _
    · exact Nat.le_add_left 2 (spins + 6)
  | _ => exact Nat.le_refl _

/-- A lone call is over when it has taken what it wants, or is not willing to wait for it. -/
theorem Lone.over (hopens : call.Opens demand purpose)
    (hserved : purpose = .attempt ∨ (demand.wanted → 0 < tokens)) :
    Lone call tokens (.done (min demand.bound tokens))
      (.ofNat (tokens - min demand.bound tokens)) [] := by
  have hdone : Lone call tokens _ _ _ := .done
  rwa [hopens.taking_eq, hopens.leaves_eq, hopens.asks_eq hserved] at hdone

/-- A lone call that has asked the kernel in vain and withdrawn is over. -/
theorem Lone.vain {timeout : Duration} (hstarves : call.Starves tokens demand timeout) :
    Lone call tokens (.done 0) 0 [.timedWait timeout] := by
  have hdone : Lone call tokens _ _ _ := .done
  rw [hstarves.asks_eq] at hdone
  obtain ⟨rfl, -, rfl⟩ := hstarves
  rwa [Call.taking, Nat.min_zero, Call.leaves_acquire, Nat.min_zero] at hdone

/-- A lone call that sees tokens grabs them. -/
theorem considered_of_pos (hsome : 0 < tokens) (hlimit : tokens ≤ Count.limit) :
    considered spins demand purpose (.ofNat tokens) = .grab demand purpose (.ofNat tokens) := by
  have hcount := Count.toInt_ofNat hlimit
  exact if_pos (Count.pos_iff.mpr (by omega))

/-- A lone call that sees none is over, or looks again if it wants some and is willing to wait. -/
theorem lone_settled (spins : Nat) (hopens : call.Opens demand purpose) (hfair : call.Fair 0) :
    Lone call 0 (settled spins demand purpose 0) 0 [] ∧
      (settled spins demand purpose 0).toGo spins ≤ spins + 5 := by
  have hover (hserved : purpose = .attempt ∨ (demand.wanted → 0 < 0)) :
      Lone call 0 (.done 0) 0 [] := by
    have hdone := Lone.over hopens hserved
    rwa [Nat.min_zero] at hdone
  cases hopens with
  | attempt => exact ⟨hover (.inl rfl), Nat.le_add_left 1 (spins + 4)⟩
  | acquire demand patience =>
    by_cases hwanted : demand.wanted
    · rw [settled, if_pos ⟨rfl, hwanted⟩, toGo_respin]
      cases patience with
      | forever => exact absurd (hfair hwanted) (Nat.lt_irrefl 0)
      | within timeout => exact ⟨lone_respin ⟨rfl, hwanted, rfl⟩ spins, Nat.le_refl _⟩
    · rw [settled, if_neg fun h => hwanted h.2]
      exact ⟨hover (.inr fun h => absurd h hwanted), Nat.le_add_left 1 (spins + 4)⟩

/-- A lone call that has grabbed its tokens is over. -/
theorem settled_of_pos (hopens : call.Opens demand purpose) (hsome : 0 < tokens) :
    settled spins demand purpose (min demand.bound tokens) =
      .done (min demand.bound tokens) := by
  cases hopens with
  | attempt => rfl
  | acquire demand patience =>
    refine if_neg fun h => ?_
    have hbound := Demand.bound_pos h.2
    omega

/-! ## One move -/

/-- The look at the count. -/
theorem lone_look (hopens : call.Opens demand purpose) (hfair : call.Fair tokens)
    (hlimit : tokens ≤ Count.limit) (spoilt : Bool) :
    (look demand purpose).LeadsAlone spins call tokens spoilt
      (considered spins demand purpose (.ofNat tokens)) (.ofNat tokens) [] := by
  rcases Nat.eq_zero_or_pos tokens with rfl | hsome
  · obtain ⟨hlone, hless⟩ := lone_settled spins hopens hfair
    exact hlone.leads (Nat.lt_of_le_of_lt hless (by simp only [toGo]; omega)) spoilt
  · rw [considered_of_pos hsome hlimit]
    exact (Lone.grab hopens hsome).leads (Nat.lt_succ_self _) spoilt

/-- The exchange for tokens, which fails only if it is spoilt. -/
theorem lone_grab (hopens : call.Opens demand purpose) (hsome : 0 < tokens)
    (hlimit : tokens ≤ Count.limit) {access : Cell.Access Int64} {next : access.Reply → Turn}
    (hmove : (grab demand purpose (.ofNat tokens)).move spins = .access access next)
    (spoilt : Bool) :
    (grab demand purpose (.ofNat tokens)).GoesAlone spins call tokens access next spoilt
      (.ofNat tokens) [] := by
  have hcount := Count.toInt_ofNat hlimit
  have hseen : 0 < (Int64.ofNat tokens).toInt := by omega
  have hmin := demand.min_most hlimit
  obtain ⟨rest, hleft, hrest⟩ := demand.exists_left hseen
  obtain ⟨taken, htaken, htokens⟩ := Demand.exists_taken hseen hrest
  rw [hcount] at hrest htokens
  obtain rfl : taken = min demand.bound tokens := by omega
  obtain rfl : rest = .ofNat (tokens - min demand.bound tokens) := by
    rw [← Int64.toInt_inj, Count.toInt_ofNat (by omega)]
    omega
  simp only [move, hleft, exchangeFor] at hmove
  cases hmove
  -- The count is still what the call has seen, so nothing but a spoilt exchange fails.
  rcases Cell.Access.exchangeWeak_cases spoilt (.ofNat tokens) _ (Int64.ofNat tokens) with
    ⟨-, hperform⟩ | ⟨hspoilt, hperform⟩
  · refine .of_answer rfl _ _ hperform ?_
    simp only [htaken, ofAmount, settled_of_pos hopens hsome]
    refine (Lone.over hopens (.inr fun _ => hsome)).leads ?_ spoilt
    exact Nat.lt_of_lt_of_le (Nat.lt_succ_self 1) (Nat.le_add_left 2 (spins + 5))
  · refine .of_answer rfl _ _ hperform ?_
    simp only [considered_of_pos hsome hlimit]
    refine ⟨.grab hopens hsome, Nat.le_refl _, fun h => ?_⟩
    rw [hspoilt rfl] at h
    cases h

/-- A signal adds its tokens, and finds no waiter. -/
theorem lone_raise {added : Nat} (hcall : call = .signal added) (hfair : call.Fair tokens)
    {access : Cell.Access Int64} {next : access.Reply → Turn}
    (hmove : (raise added).move spins = .access access next) (spoilt : Bool) :
    (raise added).GoesAlone spins call tokens access next spoilt (.ofNat tokens) [] := by
  subst hcall
  have htotal : tokens + added ≤ Count.limit := hfair.2
  have hcount := Count.toInt_ofNat (n := tokens) (by omega)
  have hclamp := Count.toInt_clamp added
  rw [Nat.min_eq_left (by omega)] at hclamp
  have hsum := Count.toInt_add_of_range (a := .ofNat tokens) (b := Count.clamp added)
    (by omega) (by omega)
  have hleft : Int64.ofNat tokens + Count.clamp added = .ofNat (tokens + added) := by
    rw [← Int64.toInt_inj, Count.toInt_ofNat htotal]
    omega
  have hlow : -(Count.limit : Int) ≤ (Int64.ofNat tokens).toInt := by omega
  obtain ⟨next', hmove', hnext⟩ := raise_move spins added hlow
  rw [hmove] at hmove'
  cases hmove'
  -- The count is not negative, so there is nobody to hand a token to.
  have hnone : min (min added Count.limit) (-(Int64.ofNat tokens).toInt).toNat = 0 := by omega
  have hwraps : (Cell.Access.fetchAdd (Count.clamp added)).wraps (.ofNat tokens) = false := by
    simp only [Cell.Access.wraps, hsum, bne_self_eq_false]
  refine .of_answer hwraps (.ofNat tokens) _ rfl ?_
  rw [hnext, hnone, hleft]
  have hover : Lone (.signal added) tokens (.done 0) (.ofNat (tokens + added)) [] := .done
  refine hover.leads ?_ spoilt
  exact Nat.lt_succ_self 1

/-- Every access of a lone call leads on. -/
theorem Lone.access (hlone : Lone call tokens phase count asked) (hfair : call.Fair tokens)
    (hlimit : tokens ≤ Count.limit) {access : Cell.Access Int64} {next : access.Reply → Turn}
    (hmove : phase.move spins = .access access next) (spoilt : Bool) :
    phase.GoesAlone spins call tokens access next spoilt count asked := by
  cases hlone with
  | look hopens =>
    cases hmove
    exact .of_answer rfl _ _ rfl (lone_look hopens hfair hlimit spoilt)
  | grab hopens hsome => exact lone_grab hopens hsome hlimit hmove spoilt
  | @spin demand timeout left hstarves =>
    cases hmove
    refine .of_answer rfl 0 0 rfl ((lone_respin hstarves left).leads ?_ spoilt)
    rw [toGo_respin]
    exact Nat.lt_succ_self _
  | enlist hstarves =>
    cases hmove
    refine .of_answer rfl 0 (-1) rfl ((Lone.park hstarves).leads ?_ spoilt)
    exact Nat.lt_succ_self 4
  | park hstarves => cases hmove
  | recheck hstarves =>
    cases hmove
    refine .of_answer rfl (-1) (-1) rfl ((Lone.withdraw hstarves).leads ?_ spoilt)
    exact Nat.lt_succ_self 2
  | withdraw hstarves =>
    cases hmove
    refine .of_answer rfl (.ok (-1)) 0 rfl ((Lone.vain hstarves).leads ?_ spoilt)
    exact Nat.lt_succ_self 1
  | raise hcall => exact lone_raise hcall hfair hmove spoilt
  | done => cases hmove

/-- A lone call asks the kernel only for a token, and not for ever. As there is none, it goes on
without. -/
theorem Lone.request (hlone : Lone call tokens phase count asked) {request : Kernel.Request}
    {next : Bool → Turn} (hmove : phase.move spins = .request request next) :
    ∃ timeout, request = .timedWait timeout ∧ asked = [] ∧
      Lone call tokens (next false).phase count [request] ∧
      (next false).phase.toGo spins < phase.toGo spins := by
  cases hlone with
  | @park demand timeout hstarves =>
    cases hmove
    exact ⟨timeout, rfl, rfl, .recheck hstarves, Nat.lt_succ_self 3⟩
  | grab =>
    simp only [move, exchangeFor] at hmove
    split at hmove <;> cases hmove
  | look | spin | enlist | recheck | withdraw | raise | done => cases hmove

/-- A lone call ends with the tokens that it should take. -/
theorem Lone.finish (hlone : Lone call tokens phase count asked) (hlimit : tokens ≤ Count.limit)
    {result : Except Fault Nat} (hmove : phase.move spins = .finish result) :
    result = .ok (call.taking tokens) ∧ count = .ofNat (call.leaves tokens) ∧
      asked = call.asks tokens := by
  cases hlone with
  | done =>
    cases hmove
    exact ⟨rfl, rfl, rfl⟩
  | @grab demand purpose hopens hsome =>
    have hcount := Count.toInt_ofNat hlimit
    have hseen : 0 < (Int64.ofNat tokens).toInt := by omega
    obtain ⟨rest, hleft, -⟩ := demand.exists_left hseen
    simp only [move, hleft, exchangeFor] at hmove
    cases hmove
  | look | spin | enlist | park | recheck | withdraw | raise => cases hmove

end Phase

end WordSync.Semaphore
