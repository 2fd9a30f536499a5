import WordSync.Proofs.Semaphore.History
import WordSync.Proofs.Semaphore.Moves

/-!
# Calls that do not look again

A call that is willing to wait looks at the count a number of times before it registers as a
waiter. `Phase.unspun` leaves these looks out: such a call is about to register from the start.
Apart from the looks it makes the same moves. What it gets by looking again, it would also get
by registering: an exchange that takes several tokens at once takes what a subtraction of one,
which finds a positive count, and a look and an exchange for the rest take in a row.
-/

namespace WordSync.Semaphore

/-! ## Leaving out the looks -/

/-- The phase of a call that does not look again. It is about to register where the call looks
again first. -/
def Phase.unspun : Phase → Phase
  | .spin demand patience _ => .enlist demand patience
  | .spinGrab demand patience _ _ => .enlist demand patience
  | phase => phase

/-- A turn of a call that does not look again. -/
def Turn.unspun (turn : Turn) : Turn := ⟨turn.phase.unspun, turn.record⟩

/-- A move of a call that does not look again. -/
def Move.unspun : Move → Move
  | .access a next => .access a fun reply => (next reply).unspun
  | .request r next => .request r fun granted => (next granted).unspun
  | .finish result => .finish result

namespace Phase

/-- Whether a call is not just looking again. -/
abbrev Direct (phase : Phase) : Prop := phase.unspun = phase

/-- A call that has left out its looks has none left to leave out. -/
theorem unspun_unspun (phase : Phase) : phase.unspun.unspun = phase.unspun := by
  cases phase <;> rfl

/-- A call that would look again enlists at once. -/
theorem unspun_respin (demand : Demand) (patience : Patience) (left : Nat) :
    (respin demand patience left).unspun = .enlist demand patience := by
  cases left <;> rfl

/-- Looks are left out of what a checked amount leads to, and a failed check stays. -/
theorem unspun_ofAmount (amount : Except Fault Nat) (next : Nat → Phase) :
    (ofAmount amount next).unspun = ofAmount amount fun tokens => (next tokens).unspun := by
  cases amount <;> rfl

/-- Without its looks a call goes on from a grab as a call does that never looks again. -/
theorem unspun_settled (spins : Nat) (demand : Demand) (purpose : Purpose) (tokens : Nat) :
    (settled spins demand purpose tokens).unspun = settled 0 demand purpose tokens := by
  cases purpose with
  | attempt => rfl
  | opening patience =>
    simp only [settled]
    split
    · exact unspun_respin demand patience spins
    · rfl
  | topUp => exact unspun_ofAmount _ _

/-- Without its looks a call makes of a count what a call makes of it that never looks again. -/
theorem unspun_considered (spins : Nat) (demand : Demand) (purpose : Purpose) (seen : Int64) :
    (considered spins demand purpose seen).unspun = considered 0 demand purpose seen := by
  unfold considered
  split
  · rfl
  · exact unspun_settled spins demand purpose 0

/-- A call that the kernel has granted its token is not looking again. -/
theorem direct_granted (demand : Demand) : (granted demand).Direct := by
  cases demand with
  | one => rfl
  | upTo max =>
    simp only [Direct, granted]
    split <;> rfl

/-- No call begins by looking again. -/
theorem direct_ofCall (call : Call) : (ofCall call).Direct := by
  cases call with
  | signal count =>
    simp only [Direct, ofCall]
    split <;> rfl
  | _ => rfl

/-- A call that is not just looking again makes the move that it makes if it never does. -/
theorem move_unspun (spins : Nat) {phase : Phase} (hdirect : phase.Direct) :
    (phase.move spins).unspun = phase.move 0 := by
  cases phase with
  | look demand purpose =>
    simp only [move, Move.unspun, Turn.unspun, unspun_considered]
  | grab demand purpose seen =>
    simp only [move]
    cases demand.left seen with
    | error fault => rfl
    | ok left =>
      simp only [exchangeFor, Move.unspun, Move.access.injEq, heq_eq_eq, true_and]
      funext reply
      cases reply with
      | ok value => simp only [Turn.unspun, unspun_ofAmount, unspun_settled]
      | error actual => simp only [Turn.unspun, unspun_considered]
  | spin => cases hdirect
  | spinGrab => cases hdirect
  | enlist demand patience =>
    simp only [move, Move.unspun, Move.access.injEq, heq_eq_eq, true_and]
    funext before
    split
    · simp only [Turn.unspun]
      rw [direct_granted]
    · cases Count.neg before <;> rfl
  | park demand patience =>
    cases patience with
    | forever =>
      simp only [move, Move.unspun, Turn.unspun]
      rw [direct_granted]
    | within timeout =>
      simp only [move, Move.unspun, Move.request.injEq, true_and]
      funext success
      cases success with
      | true => exact congrArg (Turn.mk · none) (direct_granted demand)
      | false => rfl
  | recheck demand =>
    simp only [move, Move.unspun, Move.access.injEq, heq_eq_eq, true_and]
    funext seen
    split <;> rfl
  | claim demand =>
    simp only [move, Move.unspun, Move.request.injEq, true_and]
    funext success
    cases success with
    | true => exact congrArg (Turn.mk · (some raceRecord)) (direct_granted demand)
    | false => rfl
  | withdraw demand seen =>
    simp only [move]
    cases Count.add seen 1 with
    | error fault => rfl
    | ok raised =>
      simp only [exchangeFor, Move.unspun, Move.access.injEq, heq_eq_eq, true_and]
      funext reply
      cases reply <;> rfl
  | raise count =>
    simp only [move, Move.unspun, Move.access.injEq, heq_eq_eq, true_and]
    funext before
    cases Count.neg before with
    | error fault => rfl
    | ok waiting =>
      dsimp only
      generalize (if waiting < Count.clamp count then waiting else Count.clamp count) = released
      split <;> rfl
  | post => rfl
  | done => rfl
  | failed => rfl

/-- A call is just looking again, or it is not. -/
theorem direct_cases (phase : Phase) :
    phase.Direct ∨ (∃ demand patience left, phase = .spin demand patience left) ∨
      ∃ demand patience left seen, phase = .spinGrab demand patience left seen := by
  cases phase with
  | spin demand patience left => exact .inr (.inl ⟨demand, patience, left, rfl⟩)
  | spinGrab demand patience left seen => exact .inr (.inr ⟨demand, patience, left, seen, rfl⟩)
  | _ => exact .inl rfl

/-! ## What a call knows -/

/-- A look at the count leaves a call with nothing false. -/
theorem sound_settled (spins : Nat) (demand : Demand) (purpose : Purpose) (tokens : Nat) :
    (settled spins demand purpose tokens).Sound := by
  cases purpose with
  | attempt => trivial
  | opening patience =>
    simp only [settled]
    split
    · exact (holds_respin demand patience spins).sound
    · trivial
  | topUp =>
    simp only [settled]
    cases Count.addAmounts 1 tokens <;> trivial

/-- Whichever way a call goes by an access, it knows nothing false from it. This does not need a
count that is far from the ends of its range. -/
theorem Onward.sound {spins : Nat} {count left : Int64} {phase after : Phase}
    (h : Onward spins count phase after left) : after.Sound := by
  cases h with
  | look demand purpose => exact (holds_considered spins demand purpose count).sound
  | grab demand purpose => exact sound_settled spins demand purpose _
  | miss demand purpose => exact (holds_considered spins demand purpose count).sound
  | find demand patience left hcount => exact hcount
  | spin demand patience left => exact (holds_respin demand patience left).sound
  | spinGrab => split <;> trivial
  | lose demand patience left => exact (holds_respin demand patience left).sound
  | enter demand => exact (holds_granted demand).sound
  | retire demand hcount => exact hcount
  | raise => exact sound_posting _
  | enlist | await | withdraw | stay | broke => trivial

/-- Whatever the kernel answers, the call knows nothing false from it, and goes on directly. -/
theorem sound_of_request {spins : Nat} {phase : Phase} {request : Kernel.Request}
    {next : Bool → Turn} (hmove : phase.move spins = .request request next) (granted : Bool) :
    (next granted).phase.Sound ∧ (next granted).phase.Direct := by
  rcases request_cases hmove with ⟨demand, patience, rfl⟩ | ⟨demand, rfl⟩ | ⟨count, rfl⟩
  · cases patience with
    | forever =>
      cases hmove
      exact ⟨(holds_granted demand).sound, direct_granted demand⟩
    | within timeout =>
      cases hmove
      cases granted with
      | true => exact ⟨(holds_granted demand).sound, direct_granted demand⟩
      | false => exact ⟨trivial, rfl⟩
  · cases hmove
    cases granted with
    | true => exact ⟨(holds_granted demand).sound, direct_granted demand⟩
    | false => exact ⟨trivial, rfl⟩
  · cases hmove
    exact ⟨trivial, rfl⟩

/-- To consider the count is the end of a look, or the beginning of looking again if there are
no tokens. -/
theorem considered_cases (spins : Nat) (demand : Demand) (purpose : Purpose) (seen : Int64) :
    (considered spins demand purpose seen).Direct ∨
      ∃ patience, considered spins demand purpose seen = respin demand patience spins ∧
        ¬0 < seen := by
  by_cases hseen : 0 < seen
  · exact .inl (by simp only [Direct, considered, if_pos hseen, unspun])
  · simp only [considered, if_neg hseen]
    cases purpose with
    | attempt => exact .inl rfl
    | opening patience =>
      simp only [settled]
      split
      · exact .inr ⟨patience, rfl, hseen⟩
      · exact .inl rfl
    | topUp => exact .inl rfl

/-- A call that has taken what it wanted does not look again. -/
theorem direct_settled (spins : Nat) (demand : Demand) (purpose : Purpose) {tokens : Nat}
    (hsome : demand.wanted → 0 < tokens) : (settled spins demand purpose tokens).Direct := by
  cases purpose with
  | attempt => rfl
  | opening patience =>
    have hnot : ¬(tokens = 0 ∧ demand.wanted = true) := by
      rintro ⟨rfl, hwanted⟩
      exact absurd (hsome hwanted) (Nat.lt_irrefl 0)
    simp only [settled, if_neg hnot, Direct, unspun]
  | topUp =>
    simp only [settled]
    cases Count.addAmounts 1 tokens <;> rfl

/-- A call that is not just looking again begins to do so only where there are no tokens. -/
theorem Onward.direct {spins : Nat} {count left : Int64} {phase after : Phase}
    (h : Onward spins count phase after left) (hdirect : phase.Direct) :
    after.Direct ∨
      ∃ demand patience, after = respin demand patience spins ∧ ¬0 < left := by
  have hconsidered (demand : Demand) (purpose : Purpose) :
      (considered spins demand purpose count).Direct ∨ ∃ demand' patience,
        considered spins demand purpose count = respin demand' patience spins ∧ ¬0 < count := by
    rcases considered_cases spins demand purpose count with h | ⟨patience, h, hcount⟩
    · exact .inl h
    · exact .inr ⟨demand, patience, h, hcount⟩
  cases h with
  | look demand purpose => exact hconsidered demand purpose
  | grab demand purpose hcount htokens =>
    refine .inl (direct_settled spins demand purpose fun hwanted => ?_)
    have hmost := Demand.most_pos hwanted
    omega
  | miss demand purpose => exact hconsidered demand purpose
  | find | spin | spinGrab | lose => cases hdirect
  | enter demand => exact .inl (direct_granted demand)
  | raise amount =>
    left
    unfold posting
    split <;> rfl
  | enlist | await | retire | withdraw | stay | broke => exact .inl rfl

/-! ## Accesses in a row -/

/-- `Undisturbed spins n p q` if a call goes from `p` to `q` by `n` accesses to the count, with
nothing in between: no other thread, no request, nothing to say, and no count that wraps around.
Both are the phase and the count. -/
inductive Undisturbed (spins : Nat) : Nat → Phase × Int64 → Phase × Int64 → Prop where
  /-- No access at all. -/
  | refl (p : Phase × Int64) : Undisturbed spins 0 p p
  /-- One access, and those that follow. -/
  | head {n : Nat} {phase after : Phase} {found left : Int64} {q : Phase × Int64}
      (access : Cell.Access Int64) {next : access.Reply → Turn} (reply : access.Reply)
      (hmove : phase.move spins = .access access next)
      (hperform : access.perform false found = (reply, left))
      (hwraps : access.wraps found = false) (hnext : next reply = after)
      (hrest : Undisturbed spins n (after, left) q) : Undisturbed spins (n + 1) (phase, found) q

/-- A call can look again in vain as often as it likes where there are no tokens. -/
theorem undisturbed_respin (spins : Nat) (demand : Demand) (patience : Patience) (left : Nat)
    {count : Int64} (hcount : ¬0 < count) :
    Undisturbed spins left (respin demand patience left, count)
      (enlist demand patience, count) := by
  induction left with
  | zero => exact .refl _
  | succ left ih => exact .head .load count rfl rfl rfl (by simp only [if_neg hcount]) ih

variable {demand : Demand} {count rest : Int64} {tokens : Nat}

/-- A call that looks again takes by one exchange what there is, up to what it wants. -/
theorem undisturbed_spinGrab (spins : Nat) (patience : Patience) (left : Nat)
    (hcount : 0 < count.toInt) (hmost : 0 < demand.most.toInt)
    (hrest : rest.toInt = count.toInt - min demand.most.toInt count.toInt)
    (htokens : (tokens : Int) = min demand.most.toInt count.toInt) :
    Undisturbed spins 1 (spinGrab demand patience left count, count) (done tokens, rest) := by
  obtain ⟨rest', hleft, hrest'⟩ := Demand.exists_leaving demand.most_nonneg count
  obtain ⟨tokens', htaken, htokens'⟩ := Demand.exists_taken hcount hrest'
  obtain rfl : rest' = rest := Int64.toInt_inj.mp (hrest'.trans hrest.symm)
  obtain rfl : tokens' = tokens := by omega
  refine .head (.exchange count rest') (.ok count) (by simp only [move, hleft, exchangeFor]; rfl)
    (if_pos rfl) rfl ?_ (.refl _)
  simp only [htaken, ofAmount]
  rw [if_neg (by omega)]

/-- A call that tops up takes by a look and an exchange what is left of its demand. -/
theorem undisturbed_topUp (spins : Nat) (demand : Demand) (hcount : 0 ≤ count.toInt)
    (hrest : rest.toInt = count.toInt - min demand.most.toInt count.toInt)
    (htokens : (tokens : Int) = min demand.most.toInt count.toInt) :
    ∃ n ≤ 2, Undisturbed spins n (look demand .topUp, count) (done (1 + tokens), rest) := by
  have hrange := Count.toInt_range count
  have hmost := demand.most_nonneg
  have hfits : 1 + tokens < Count.amountLimit := by
    simp only [Count.limit, Count.amountLimit] at hrange ⊢
    omega
  by_cases hpos : 0 < count
  · have hseen := Count.pos_iff.mp hpos
    obtain ⟨rest', hleft, hrest'⟩ := demand.exists_left hseen
    obtain ⟨tokens', htaken, htokens'⟩ := Demand.exists_taken hseen hrest'
    obtain rfl : rest' = rest := Int64.toInt_inj.mp (hrest'.trans hrest.symm)
    obtain rfl : tokens' = tokens := by omega
    refine ⟨2, by omega, .head .load count rfl rfl rfl (congrArg (Turn.mk · none) (if_pos hpos))
      (.head (.exchangeWeak count rest') (.ok count)
        (by simp only [move, hleft, exchangeFor]; rfl) (if_pos ⟨rfl, rfl⟩) rfl ?_ (.refl _))⟩
    simp only [htaken, ofAmount, settled, Count.addAmounts_of_lt hfits]
  · have hzero : count.toInt = 0 := by
      have := mt Count.pos_iff.mpr hpos
      omega
    obtain rfl : tokens = 0 := by omega
    obtain rfl : rest = count := Int64.toInt_inj.mp (by omega)
    refine ⟨1, by omega, .head .load rest rfl rfl rfl ?_ (.refl _)⟩
    simp only [considered, if_neg hpos, settled, Count.addAmounts_of_lt hfits, ofAmount]

/-- A call that registers where there are tokens takes the same tokens, one by subtracting it
and the others by an exchange. -/
theorem undisturbed_enlist (spins : Nat) (patience : Patience) (hcount : 0 < count.toInt)
    (hmost : 0 < demand.most.toInt)
    (hrest : rest.toInt = count.toInt - min demand.most.toInt count.toInt)
    (htokens : (tokens : Int) = min demand.most.toInt count.toInt) :
    ∃ n ≤ 3, Undisturbed spins n (enlist demand patience, count) (done tokens, rest) := by
  have hrange := Count.toInt_range count
  have hone : Int64.toInt 1 = 1 := by decide
  have hsub : (count - 1).toInt = count.toInt - 1 := by
    rw [Count.toInt_sub_of_range (by omega) (by omega), hone]
  have hwraps : (Cell.Access.fetchSub (1 : Int64)).wraps count = false := by
    simp only [Cell.Access.wraps, hsub, hone, bne_self_eq_false]
  have hfirst {n : Nat} {after : Phase} (hgranted : granted demand = after)
      (hafter : Undisturbed spins n (after, count - 1) (done tokens, rest)) :
      Undisturbed spins (n + 1) (enlist demand patience, count) (done tokens, rest) := by
    refine .head (.fetchSub 1) count rfl rfl hwraps ?_ hafter
    simp only [if_pos (Count.pos_iff.mpr hcount), hgranted]
  by_cases hmore : ∃ max, demand = .upTo max ∧ 1 < max
  · obtain ⟨max, rfl, hmax⟩ := hmore
    simp only [Demand.most, Count.toInt_clamp] at hrest htokens
    have hless : (((tokens - 1 : Nat) : Int)) =
        min (Demand.upTo (max - 1)).most.toInt (count - 1).toInt := by
      simp only [Demand.most, Count.toInt_clamp]
      omega
    have hremain : rest.toInt = (count - 1).toInt -
        min (Demand.upTo (max - 1)).most.toInt (count - 1).toInt := by omega
    obtain ⟨n, hn, htopUp⟩ := undisturbed_topUp spins _ (by omega) hremain hless
    rw [Nat.add_sub_cancel' (by omega)] at htopUp
    exact ⟨n + 1, by omega, hfirst (by simp only [granted, if_pos hmax]) htopUp⟩
  · have hdone : granted demand = done 1 := by
      cases demand with
      | one => rfl
      | upTo max => simp only [granted, if_neg fun hmax => hmore ⟨max, rfl, hmax⟩]
    have hmost : demand.most.toInt = 1 := by
      cases demand with
      | one => exact hone
      | upTo max =>
        have hmax : ¬1 < max := fun hmax => hmore ⟨max, rfl, hmax⟩
        simp only [Demand.most, Count.toInt_clamp] at hmost ⊢
        omega
    obtain rfl : tokens = 1 := by omega
    obtain rfl : rest = count - 1 := Int64.toInt_inj.mp (by omega)
    exact ⟨1, by omega, hfirst hdone (.refl _)⟩

/-- What a call gets by one access while it looks again, it also gets by registering. -/
theorem undisturbed_unspun (spins : Nat) {phase : Phase} (hlooking : ¬phase.Direct)
    (hsound : phase.Sound) (spurious : Bool) (count : Int64) :
    ∃ access next, phase.move spins = .access access next ∧ access.wraps count = false ∧
      ∃ reply left, access.perform spurious count = (reply, left) ∧
        ∃ n, Undisturbed 0 n (phase.unspun, count) ((next reply).phase.unspun, left) := by
  rcases direct_cases phase with hdirect | ⟨demand, patience, left, rfl⟩ |
    ⟨demand, patience, left, seen, rfl⟩
  · exact absurd hdirect hlooking
  · refine ⟨.load, _, rfl, rfl, count, count, rfl, 0, ?_⟩
    split
    · exact .refl _
    · rw [unspun_respin]
      exact .refl _
  · have hseen : 0 < seen.toInt := hsound
    have hmost := demand.most_nonneg
    obtain ⟨rest, hleft, hrest⟩ := Demand.exists_leaving hmost seen
    obtain ⟨tokens, htaken, htokens⟩ := Demand.exists_taken hseen hrest
    refine ⟨.exchange seen rest, _, by simp only [move, hleft, exchangeFor]; rfl, rfl, ?_⟩
    rcases Cell.Access.exchange_cases spurious seen rest count with
      ⟨rfl, hperform⟩ | ⟨-, hperform⟩
    · refine ⟨_, _, hperform, ?_⟩
      simp only [htaken, ofAmount]
      by_cases hnone : tokens = 0
      · obtain rfl : rest = count := Int64.toInt_inj.mp (by omega)
        rw [if_pos hnone]
        exact ⟨0, .refl _⟩
      · obtain ⟨n, -, htake⟩ := undisturbed_enlist 0 patience hseen (by omega) hrest htokens
        rw [if_neg hnone]
        exact ⟨n, htake⟩
    · refine ⟨_, _, hperform, 0, ?_⟩
      simp only [unspun_respin]
      exact .refl _

end Phase

end WordSync.Semaphore
