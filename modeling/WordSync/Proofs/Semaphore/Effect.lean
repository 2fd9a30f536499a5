import WordSync.Kernel.Counter
import WordSync.Proofs.Semaphore.Count

/-!
# What one move of a call does with tokens

Tokens are on offer in the count, in the kernel, on the way from the one to the other, or with a
call. A `Stock` says how many are where, as far as one call is concerned, and `Effect` lists the
seven ways in which a move can change it. Every move of every call has one of these effects,
provided that the count is not about to wrap; whatever is said about tokens and waiters later on
follows from that list and not from the code.
-/

namespace WordSync.Semaphore

/-- The tokens that a call had when it began to look at the count. -/
def Purpose.purse : Purpose → Nat
  | .attempt => 0
  | .opening _ => 0
  | .topUp => 1

namespace Phase

/-- The tokens that a call has taken so far. -/
def held : Phase → Nat
  | .look _ purpose => purpose.purse
  | .grab _ purpose _ => purpose.purse
  | .done tokens => tokens
  | _ => 0

/-- One for a call that is registered as a waiter, and zero for any other. A call registers when
it subtracts one from a count without tokens. It is registered until it takes a token from the
kernel or withdraws. -/
def registered : Phase → Nat
  | .park _ _ => 1
  | .recheck _ => 1
  | .claim _ => 1
  | .withdraw _ _ => 1
  | _ => 0

/-- No call is registered more than once. -/
theorem registered_le_one (phase : Phase) : phase.registered ≤ 1 := by
  unfold registered
  split <;> decide

/-- The tokens that a signal has added to the count for waiters and not yet handed to the
kernel. -/
def pending : Phase → Nat
  | .post count => count
  | _ => 0

/-- The tokens that a signal is about to add to the count. -/
def raising : Phase → Nat
  | .raise count => min count Count.limit
  | _ => 0

/-- What a call knows about the count that it has seen: it takes tokens only from a positive
count, and withdraws only from a negative one. -/
def Sound : Phase → Prop
  | .grab _ _ seen => 0 < seen.toInt
  | .spinGrab _ _ _ seen => 0 < seen.toInt
  | .withdraw _ seen => seen.toInt < 0
  | _ => True

/-- A sound phase with so many tokens in hand, in which the kernel is owed nothing. -/
structure Holds (phase : Phase) (tokens : Nat) : Prop where
  /-- What the call has seen is what it needs. -/
  sound : phase.Sound
  /-- The tokens in hand. -/
  held_eq : phase.held = tokens
  /-- The call is no waiter. -/
  registered_eq : phase.registered = 0
  /-- The call has nothing to hand to the kernel. -/
  pending_eq : phase.pending = 0

/-- A call that is over holds what it has taken. -/
theorem holds_done (tokens : Nat) : (done tokens).Holds tokens := ⟨trivial, rfl, rfl, rfl⟩

/-- A call that looks again holds nothing. -/
theorem holds_respin (demand : Demand) (patience : Patience) (left : Nat) :
    (respin demand patience left).Holds 0 := by
  cases left with
  | zero => exact ⟨trivial, rfl, rfl, rfl⟩
  | succ left => exact ⟨trivial, rfl, rfl, rfl⟩

/-- A call with its first token holds that token. -/
theorem holds_granted (demand : Demand) : (granted demand).Holds 1 := by
  cases demand with
  | one => exact holds_done 1
  | upTo max =>
    simp only [granted]
    split
    · exact ⟨trivial, rfl, rfl, rfl⟩
    · exact holds_done 1

/-- A look at the count adds what it took to what the call had. -/
theorem holds_settled (spins : Nat) (demand : Demand) (purpose : Purpose) {tokens : Nat}
    (htokens : tokens ≤ Count.limit) :
    (settled spins demand purpose tokens).Holds (purpose.purse + tokens) := by
  cases purpose with
  | attempt =>
    rw [Purpose.purse, Nat.zero_add]
    exact holds_done tokens
  | opening patience =>
    simp only [Purpose.purse, Nat.zero_add, settled]
    split
    · next h =>
      rw [h.1]
      exact holds_respin demand patience spins
    · exact holds_done tokens
  | topUp =>
    have hfits : 1 + tokens < Count.amountLimit := by
      simp only [Count.limit, Count.amountLimit] at htokens ⊢
      omega
    simp only [settled, Count.addAmounts_of_lt hfits, ofAmount]
    exact holds_done (1 + tokens)

/-- To consider the count moves no tokens. -/
theorem holds_considered (spins : Nat) (demand : Demand) (purpose : Purpose) (seen : Int64) :
    (considered spins demand purpose seen).Holds purpose.purse := by
  unfold considered
  split
  · next h =>
    have hseen := Count.pos_iff.mp h
    exact ⟨hseen, rfl, rfl, rfl⟩
  · exact holds_settled spins demand purpose (Nat.zero_le _)

/-- A new call holds nothing. -/
theorem holds_ofCall (call : Call) : (ofCall call).Holds 0 := by
  cases call with
  | attempt demand => exact ⟨trivial, rfl, rfl, rfl⟩
  | acquire demand patience => exact ⟨trivial, rfl, rfl, rfl⟩
  | signal count =>
    simp only [ofCall]
    split
    · exact ⟨trivial, rfl, rfl, rfl⟩
    · exact ⟨trivial, rfl, rfl, rfl⟩

end Phase

/-- The tokens that a semaphore has, and the part of one call in them. -/
structure Stock where
  /-- The count. -/
  count : Int
  /-- The tokens in the kernel. -/
  kernel : Nat
  /-- The tokens that the call has taken. -/
  held : Nat
  /-- Whether the call is registered as a waiter, as one or zero. -/
  registered : Nat
  /-- The tokens that the call has still to hand to the kernel. -/
  pending : Nat

/-- The stock of a semaphore and a call at a phase. -/
def Phase.stock (phase : Phase) (count : Int64) (kernel : Nat) : Stock :=
  ⟨count.toInt, kernel, phase.held, phase.registered, phase.pending⟩

/-- The ways in which a move can change a stock, with the tokens that it adds to the count. -/
inductive Effect (before : Stock) (signalled : Nat) (after : Stock) : Prop where
  /-- Nothing moves. -/
  | still (hsignalled : signalled = 0) (hafter : after = before)
  /-- The call takes tokens from the count. -/
  | take (tokens : Nat) (hsignalled : signalled = 0) (hcount : (tokens : Int) ≤ before.count)
      (hafter : after =
        { before with count := before.count - tokens, held := before.held + tokens })
  /-- The call registers as a waiter. -/
  | register (hsignalled : signalled = 0) (hcount : before.count ≤ 0)
      (hregistered : before.registered = 0)
      (hafter : after = { before with count := before.count - 1, registered := 1 })
  /-- The call takes a token from the kernel and is no waiter any more. -/
  | receive (hsignalled : signalled = 0) (hkernel : 0 < before.kernel)
      (hregistered : before.registered = 1)
      (hafter : after = { before with
        kernel := before.kernel - 1, held := before.held + 1, registered := 0 })
  /-- The call withdraws its registration. -/
  | withdraw (hsignalled : signalled = 0) (hcount : before.count < 0)
      (hregistered : before.registered = 1)
      (hafter : after = { before with count := before.count + 1, registered := 0 })
  /-- The call adds tokens to the count, as many of them for waiters as there are. -/
  | raise (hpending : before.pending = 0) (hafter : after = { before with
      count := before.count + signalled, pending := min signalled (-before.count).toNat })
  /-- The call hands tokens to the kernel. -/
  | post (hsignalled : signalled = 0) (hafter : after = { before with
      kernel := before.kernel + before.pending, pending := 0 })

namespace Effect

variable {before after : Stock} {signalled : Nat}

/-- Waiters come and go with the tokens that they wait for: those that the count owes them,
those in the kernel and those on the way there. -/
theorem waiters (h : Effect before signalled after) :
    (after.registered : Int) - (max 0 (-after.count) + after.kernel + after.pending) =
      before.registered - (max 0 (-before.count) + before.kernel + before.pending) := by
  cases h with
  | still _ hafter => subst hafter; rfl
  | take tokens _ hcount hafter => subst hafter; dsimp only; omega
  | register _ hcount hregistered hafter => subst hafter; dsimp only; omega
  | receive _ hkernel hregistered hafter => subst hafter; dsimp only; omega
  | withdraw _ hcount hregistered hafter => subst hafter; dsimp only; omega
  | raise hpending hafter => subst hafter; dsimp only; omega
  | post _ hafter => subst hafter; dsimp only; omega

/-- Tokens come from signals and stay with the calls that took them; otherwise they only change
their place. -/
theorem tokens (h : Effect before signalled after) :
    (signalled : Int) + (max 0 before.count + before.kernel + before.pending) + before.held =
      after.held + (max 0 after.count + after.kernel + after.pending) := by
  cases h with
  | still hsignalled hafter => subst hsignalled hafter; omega
  | take tokens hsignalled hcount hafter => subst hsignalled hafter; dsimp only; omega
  | register hsignalled hcount _ hafter => subst hsignalled hafter; dsimp only; omega
  | receive hsignalled hkernel _ hafter => subst hsignalled hafter; dsimp only; omega
  | withdraw hsignalled hcount _ hafter => subst hsignalled hafter; dsimp only; omega
  | raise hpending hafter => subst hafter; dsimp only; omega
  | post hsignalled hafter => subst hsignalled hafter; dsimp only; omega

/-- What a call takes from the count it holds, or it is a waiter for it; tokens from the kernel
make it a waiter no more. -/
theorem sum (h : Effect before signalled after) :
    after.count + after.held + after.registered =
      before.count + signalled + before.held + before.registered := by
  cases h with
  | still hsignalled hafter => subst hsignalled hafter; omega
  | take tokens hsignalled _ hafter => subst hsignalled hafter; dsimp only; omega
  | register hsignalled _ hregistered hafter => subst hsignalled hafter; dsimp only; omega
  | receive hsignalled _ hregistered hafter => subst hsignalled hafter; dsimp only; omega
  | withdraw hsignalled _ hregistered hafter => subst hsignalled hafter; dsimp only; omega
  | raise _ hafter => subst hafter; rfl
  | post hsignalled hafter => subst hsignalled hafter; dsimp only; omega

/-- No call gives back a token that it has taken. -/
theorem held_le (h : Effect before signalled after) : before.held ≤ after.held := by
  cases h with
  | take tokens _ _ hafter => subst hafter; exact Nat.le_add_right ..
  | receive _ _ _ hafter => subst hafter; exact Nat.le_add_right ..
  | still _ hafter => subst hafter; exact Nat.le_refl _
  | register _ _ _ hafter => subst hafter; exact Nat.le_refl _
  | withdraw _ _ _ hafter => subst hafter; exact Nat.le_refl _
  | raise _ hafter => subst hafter; exact Nat.le_refl _
  | post _ hafter => subst hafter; exact Nat.le_refl _

/-- A call becomes a waiter only by subtracting one from a count without tokens. It stops being
one only by taking a token from the kernel, or by adding one to a negative count. -/
theorem registered_cases (h : Effect before signalled after) :
    after.registered = before.registered ∨
      (before.registered = 0 ∧ after.registered = 1 ∧ before.count ≤ 0 ∧
        after.count = before.count - 1 ∧ after.kernel = before.kernel) ∨
      (before.registered = 1 ∧ after.registered = 0 ∧ after.count = before.count ∧
        before.kernel = after.kernel + 1) ∨
      (before.registered = 1 ∧ after.registered = 0 ∧ before.count < 0 ∧
        after.count = before.count + 1 ∧ after.kernel = before.kernel) := by
  cases h with
  | register _ hcount hregistered hafter =>
    subst hafter
    exact .inr (.inl ⟨hregistered, rfl, hcount, rfl, rfl⟩)
  | receive _ hkernel hregistered hafter =>
    subst hafter
    exact .inr (.inr (.inl ⟨hregistered, rfl, rfl, by dsimp only; omega⟩))
  | withdraw _ hcount hregistered hafter =>
    subst hafter
    exact .inr (.inr (.inr ⟨hregistered, rfl, hcount, rfl, rfl⟩))
  | still _ hafter => subst hafter; exact .inl rfl
  | take tokens _ _ hafter => subst hafter; exact .inl rfl
  | raise _ hafter => subst hafter; exact .inl rfl
  | post _ hafter => subst hafter; exact .inl rfl

end Effect

end WordSync.Semaphore
