import WordSync.Proofs.Semaphore.Serving
import WordSync.Proofs.Semaphore.Transcript

/-!
# Two forms of a call

A token can be asked for in two forms: as one token, or as many tokens as there are up to a
maximum of one. Both forms make the same moves: what is computed for the one by subtracting one
from a positive count is computed for the other by comparing the count with the maximum. So they
ask the same of the kernel, leave the same behind, and succeed together.
-/

namespace WordSync.Semaphore

variable {κ : Type}

/-! ## Translating calls and their phases -/

/-- A demand for one token as a demand for up to one. -/
def Demand.batched : Demand → Demand
  | .one => .upTo 1
  | .upTo max => .upTo max

/-- A call in the form for several tokens. -/
def Call.batched : Call → Call
  | .attempt demand => .attempt demand.batched
  | .acquire demand patience => .acquire demand.batched patience
  | .signal count => .signal count

/-- The answer of a call in the form for several tokens: it says how many were taken. -/
def Call.inBatch (call : Call) (answer : Answer) : Answer :=
  if call.acquires then .took answer.worth else answer

/-- A phase of a call in the form for several tokens. -/
def Phase.batched : Phase → Phase
  | .look demand purpose => .look demand.batched purpose
  | .grab demand purpose seen => .grab demand.batched purpose seen
  | .spin demand patience left => .spin demand.batched patience left
  | .spinGrab demand patience left seen => .spinGrab demand.batched patience left seen
  | .enlist demand patience => .enlist demand.batched patience
  | .park demand patience => .park demand.batched patience
  | .recheck demand => .recheck demand.batched
  | .claim demand => .claim demand.batched
  | .withdraw demand seen => .withdraw demand.batched seen
  | .raise count => .raise count
  | .post count => .post count
  | .done tokens => .done tokens
  | .failed fault => .failed fault

/-- A turn that leads to another phase with the same record. -/
def Turn.map (f : Phase → Phase) (turn : Turn) : Turn := ⟨f turn.phase, turn.record⟩

/-- The same move, leading to other phases. -/
def Move.map (f : Phase → Phase) : Move → Move
  | .access a next => .access a fun reply => (next reply).map f
  | .request r next => .request r fun granted => (next granted).map f
  | .finish result => .finish result

namespace Demand

variable {demand : Demand} {seen left : Int64}

/-- Both forms want a token or none. -/
theorem wanted_batched (demand : Demand) : demand.batched.wanted = demand.wanted := by
  cases demand <;> rfl

/-- Both forms take as much at once. -/
theorem most_batched (demand : Demand) : demand.batched.most = demand.most := by
  cases demand with
  | one => decide
  | upTo max => rfl

/-- Both forms leave the same of a positive count. -/
theorem left_batched (demand : Demand) (hseen : 0 < seen.toInt) :
    demand.batched.left seen = demand.left seen := by
  cases demand with
  | one =>
    obtain ⟨rest, hrest, hvalue⟩ := one.exists_left hseen
    obtain ⟨rest', hrest', hvalue'⟩ := (upTo 1).exists_left hseen
    have hmost : (upTo 1).most = one.most := one.most_batched
    rw [hmost] at hvalue'
    obtain rfl : rest' = rest := Int64.toInt_inj.mp (hvalue'.trans hvalue.symm)
    exact hrest'.trans hrest.symm
  | upTo max => rfl

/-- Both forms have taken the same if they have left the same. -/
theorem taken_batched (demand : Demand) (hseen : 0 < seen.toInt)
    (hleft : left.toInt = seen.toInt - min demand.most.toInt seen.toInt) :
    demand.batched.taken seen left = demand.taken seen left := by
  cases demand with
  | one =>
    have hmost : (upTo 1).most = one.most := one.most_batched
    rw [← hmost] at hleft
    obtain ⟨tokens, htaken, htokens⟩ := exists_taken hseen hleft
    have hone : (upTo 1).most.toInt = 1 := by decide
    obtain rfl : tokens = 1 := by omega
    exact htaken
  | upTo max => rfl

end Demand

namespace Phase

/-- The translation of what a checked amount leads to. -/
theorem batched_ofAmount (amount : Except Fault Nat) (next : Nat → Phase) :
    (ofAmount amount next).batched = ofAmount amount fun tokens => (next tokens).batched := by
  cases amount <;> rfl

/-- A call looks again in its form. -/
theorem batched_respin (demand : Demand) (patience : Patience) (left : Nat) :
    (respin demand patience left).batched = respin demand.batched patience left := by
  cases left <;> rfl

/-- A call goes on from a look in its form. -/
theorem batched_settled (spins : Nat) (demand : Demand) (purpose : Purpose) (tokens : Nat) :
    (settled spins demand purpose tokens).batched =
      settled spins demand.batched purpose tokens := by
  cases purpose with
  | attempt => rfl
  | opening patience =>
    simp only [settled, demand.wanted_batched]
    split
    · exact batched_respin demand patience spins
    · rfl
  | topUp => exact batched_ofAmount _ _

/-- A call considers the count in its form. -/
theorem batched_considered (spins : Nat) (demand : Demand) (purpose : Purpose) (seen : Int64) :
    (considered spins demand purpose seen).batched =
      considered spins demand.batched purpose seen := by
  unfold considered
  split
  · rfl
  · exact batched_settled spins demand purpose 0

/-- After its first token a call for one token is over in both forms. -/
theorem batched_granted (demand : Demand) :
    (granted demand).batched = granted demand.batched := by
  cases demand with
  | one => rfl
  | upTo max =>
    simp only [granted, Demand.batched]
    split <;> rfl

/-- Both forms begin in the same way. -/
theorem batched_ofCall (call : Call) : (ofCall call).batched = ofCall call.batched := by
  cases call with
  | signal count =>
    simp only [ofCall, Call.batched]
    split <;> rfl
  | _ => rfl

/-- Both forms make the same move, and go on in the same way. -/
theorem move_batched (spins : Nat) {phase : Phase} (hsound : phase.Sound) :
    phase.batched.move spins = (phase.move spins).map batched := by
  cases phase with
  | look demand purpose =>
    simp only [move, batched, Move.map, Move.access.injEq, heq_eq_eq, true_and]
    funext seen
    simp only [Turn.map, batched_considered]
  | grab demand purpose seen =>
    obtain ⟨rest, hleft, hrest⟩ := demand.exists_left hsound
    simp only [move, batched, demand.left_batched hsound, hleft, exchangeFor, Move.map,
      demand.taken_batched hsound hrest, Move.access.injEq, heq_eq_eq, true_and]
    funext reply
    cases reply with
    | ok value => simp only [Turn.map, batched_ofAmount, batched_settled]
    | error actual => simp only [Turn.map, batched_considered]
  | spin demand patience left =>
    simp only [move, batched, Move.map, Move.access.injEq, heq_eq_eq, true_and]
    funext seen
    split
    · rfl
    · simp only [Turn.map, batched_respin]
  | spinGrab demand patience left seen =>
    obtain ⟨rest, hleft, hrest⟩ := Demand.exists_leaving demand.most_nonneg seen
    simp only [move, batched, demand.most_batched, hleft, exchangeFor, Move.map,
      demand.taken_batched hsound hrest, Move.access.injEq, heq_eq_eq, true_and]
    funext reply
    cases reply with
    | ok value =>
      simp only [Turn.map, batched_ofAmount]
      congr 2
      funext tokens
      split <;> rfl
    | error actual => simp only [Turn.map, batched_respin]
  | enlist demand patience =>
    simp only [move, batched, Move.map, Move.access.injEq, heq_eq_eq, true_and]
    funext before
    split
    · simp only [Turn.map, batched_granted]
    · cases Count.neg before <;> rfl
  | park demand patience =>
    cases patience with
    | forever =>
      simp only [move, batched, Move.map]
      simp only [Turn.map, batched_granted]
    | within timeout =>
      simp only [move, batched, Move.map, Move.request.injEq, true_and]
      funext success
      cases success with
      | true => simp only [if_true, Turn.map, batched_granted]
      | false => rfl
  | recheck demand =>
    simp only [move, batched, Move.map, Move.access.injEq, heq_eq_eq, true_and]
    funext seen
    split <;> rfl
  | claim demand =>
    simp only [move, batched, Move.map, Move.request.injEq, true_and]
    funext success
    cases success with
    | true => simp only [if_true, Turn.map, batched_granted]
    | false => rfl
  | withdraw demand seen =>
    simp only [move, batched]
    cases Count.add seen 1 with
    | error fault => rfl
    | ok raised =>
      simp only [exchangeFor, Move.map, Move.access.injEq, heq_eq_eq, true_and]
      funext reply
      cases reply <;> rfl
  | raise count =>
    simp only [move, batched, Move.map, Move.access.injEq, heq_eq_eq, true_and]
    funext before
    cases Count.neg before with
    | error fault => rfl
    | ok waiting =>
      dsimp only
      generalize (if waiting < Count.clamp count then waiting else Count.clamp count) = released
      split <;> rfl
  | post => rfl
  | done => rfl
  | failed => rfl

end Phase

/-! ## Calls without interruption -/

/-- Whatever serves them, both forms make the same requests, leave the same semaphore, and come to
the same number of tokens or to the same fault. -/
theorem run_batched (serve : Server κ) (moves : Nat) {phase : Phase} (hsound : phase.Sound)
    (s : Semaphore κ) : run serve moves phase.batched s = run serve moves phase s := by
  induction moves generalizing phase s with
  | zero => rfl
  | succ moves ih =>
    simp only [run, Phase.move_batched s.spins hsound]
    cases hmove : phase.move s.spins with
    | access access next =>
      have honward := Phase.onward_of_access hmove hsound false s.count
      exact ih honward.sound _
    | request request next =>
      simp only [Move.map]
      rcases serve request s with ⟨_ | granted, after⟩
      · rfl
      · exact ih (Phase.sound_of_request hmove granted).1 _
    | finish result => rfl

/-- Both forms of a call come to the same number of tokens, and leave the same semaphore. -/
theorem run_ofCall_batched (serve : Server κ) (moves : Nat) (call : Call) (s : Semaphore κ) :
    run serve moves (.ofCall call.batched) s = run serve moves (.ofCall call) s := by
  rw [← Phase.batched_ofCall]
  exact run_batched serve moves (Phase.holds_ofCall call).sound s

/-- The answers of both forms tell of the same tokens. -/
theorem Call.Takes.answer_batched {call : Call} {tokens : Nat} (h : call.Takes tokens) :
    call.batched.answer tokens = call.inBatch (call.answer tokens) := by
  unfold inBatch
  split
  · next hacquires =>
    rw [h.worth_eq hacquires]
    cases call with
    | attempt demand => cases demand <;> rfl
    | acquire demand patience => cases demand <;> rfl
    | signal count => cases hacquires
  · next hsignals =>
    cases call with
    | signal count => rfl
    | _ => exact absurd rfl hsignals

/-- Both forms of a call answer the same and leave the same semaphore. -/
theorem call_batched (serve : Server κ) (c : Call) (s : Semaphore κ) :
    s.call serve c.batched = ((s.call serve c).1.map c.inBatch, (s.call serve c).2) := by
  simp only [call, run_ofCall_batched]
  rcases hrun : run serve s.movesFor (.ofCall c) s with ⟨_ | tokens, after⟩
  · rfl
  · simp only [Except.map, (run_takes hrun).answer_batched]

/-- Both forms of a call ask the same of the kernel. -/
theorem inquiries_batched (serve : Server κ) (c : Call) (s : Semaphore κ) :
    inquiries serve (.call c.batched) s = inquiries serve (.call c) s := by
  simp only [inquiries, act, call_batched]

end WordSync.Semaphore
