import WordSync.Proofs.Semaphore.Conservation
import WordSync.Proofs.Semaphore.Serving

/-!
# Signals and the end of the range

A signal adds its tokens to the count, and the addition wraps around. The tokens that a signal
brings are cut down to the largest count, but not the sum. So a signal keeps the tokens that are
there exactly if the count has room for those that it brings. Where it has none, tokens turn into
waiters that do not exist; and a signal that finds the smallest count breaks off, as that count
has no negative. In a run in which no more tokens are outstanding than the count can hold, there
is always room.
-/

namespace WordSync.Semaphore

variable {κ π δ σ : Type} {amount spins : Nat}

/-- A count has room for signalled tokens: the sum is in range, and the number of waiters can be
computed. -/
def Count.Room (count : Int64) (amount : Nat) : Prop :=
  -(limit : Int) ≤ count.toInt ∧ count.toInt + (min amount limit : Nat) ≤ limit

instance (count : Int64) (amount : Nat) : Decidable (Count.Room count amount) :=
  inferInstanceAs (Decidable (_ ∧ _))

/-- A signal keeps the tokens of a semaphore: it is carried out, and the count is no smaller
afterwards. -/
def Keeps (serve : Server κ) (s : Semaphore κ) (amount : Nat) : Prop :=
  ∃ after, s.call serve (.signal amount) = (.ok .done, after) ∧
    s.count.toInt ≤ after.count.toInt

/-- A server that is always able to put tokens in, and leaves the count alone. -/
def Server.Posts (serve : Server κ) : Prop :=
  ∀ amount s, ∃ reply after, serve (.signal amount) s = (.ok reply, after) ∧
    after.count = s.count

namespace Count

/-- The sum of two counts that is too large comes out at the lower end of the range. -/
theorem toInt_add_of_gt {a b : Int64} (h : (limit : Int) < a.toInt + b.toInt) :
    (a + b).toInt = a.toInt + b.toInt - 2 * (limit + 1) := by
  have ha := toInt_range a
  have hb := toInt_range b
  simp only [limit] at h ha hb ⊢
  rw [Int64.toInt_add, Int.bmod_def]
  omega

/-- A count is no smaller after some tokens have been added exactly if there is room for them. -/
theorem le_add_clamp_iff (count : Int64) (hamount : 0 < amount) :
    count.toInt ≤ (count + clamp amount).toInt ↔
      count.toInt + (min amount limit : Nat) ≤ limit := by
  have hrange := toInt_range count
  have hclamp := toInt_clamp amount
  constructor
  · intro hle
    apply Decidable.byContradiction
    intro hgt
    rw [toInt_add_of_gt (by omega), hclamp] at hle
    simp only [limit] at hle hgt hrange
    omega
  · intro hfits
    rw [toInt_add_of_range (by omega) (by omega), hclamp]
    omega

end Count

/-! ## A signal that is alone -/

/-- A signal that has raised the count is over after its tokens for waiters are handed out. -/
theorem run_posting {serve : Server κ} (hposts : serve.Posts) (tokens moves : Nat)
    (s : Semaphore κ) :
    ∃ after, run serve (moves + 2) (Phase.posting tokens) s = (.ok 0, after) ∧
      after.count = s.count := by
  unfold Phase.posting
  split
  · exact ⟨s, run_finish rfl _, rfl⟩
  · obtain ⟨reply, after, hserve, hcount⟩ := hposts tokens s
    refine ⟨after.noted ⟨.done 0, none⟩, ?_, hcount⟩
    rw [run_request rfl hserve, run_finish rfl]

/-- A signal adds its tokens to the count, wrapping around, wherever the number of waiters can be
computed. -/
theorem run_raise {serve : Server κ} (hposts : serve.Posts) (amount : Nat) {s : Semaphore κ}
    (hlow : -(Count.limit : Int) ≤ s.count.toInt) (moves : Nat) :
    ∃ after, run serve (moves + 3) (.raise amount) s = (.ok 0, after) ∧
      after.count = s.count + Count.clamp amount := by
  obtain ⟨next, hmove, hnext⟩ := Phase.raise_move s.spins amount hlow
  rw [run_access hmove rfl, hnext]
  exact run_posting hposts _ moves _

/-- It breaks off where that number cannot be computed. -/
theorem run_raise_of_lt (serve : Server κ) (amount : Nat) {s : Semaphore κ}
    (hlow : s.count.toInt < -(Count.limit : Int)) (moves : Nat) :
    (run serve (moves + 2) (.raise amount) s).1 = .error .overflow := by
  rcases Count.neg_cases s.count with ⟨hhigh, -⟩ | ⟨-, hneg⟩
  · omega
  · rw [run_access rfl rfl]
    simp only [hneg]
    rw [run_finish rfl]

/-- A signal begins by raising the count. -/
theorem call_signal (serve : Server κ) (hamount : 0 < amount) (s : Semaphore κ) :
    s.call serve (.signal amount) =
      ((run serve (2 * s.spins + 253 + 3) (.raise amount) s).1.map (Call.signal amount).answer,
        (run serve (2 * s.spins + 253 + 3) (.raise amount) s).2) := by
  rw [call, Phase.ofCall, if_neg (by omega)]
  rfl

/-- A signal is carried out wherever the number of waiters can be computed. -/
theorem exists_call_signal {serve : Server κ} (hposts : serve.Posts) (hamount : 0 < amount)
    {s : Semaphore κ} (hlow : -(Count.limit : Int) ≤ s.count.toInt) :
    ∃ after, s.call serve (.signal amount) = (.ok .done, after) ∧
      after.count = s.count + Count.clamp amount := by
  obtain ⟨after, hrun, hcount⟩ := run_raise hposts amount hlow (2 * s.spins + 253)
  refine ⟨after, ?_, hcount⟩
  rw [call_signal serve hamount, hrun]
  rfl

/-- It is not carried out anywhere else. -/
theorem call_signal_of_lt (serve : Server κ) (hamount : 0 < amount) {s : Semaphore κ}
    (hlow : s.count.toInt < -(Count.limit : Int)) :
    (s.call serve (.signal amount)).1 = .error .overflow := by
  rw [call_signal serve hamount, run_raise_of_lt serve amount hlow (2 * s.spins + 254)]
  rfl

/-- A signal keeps the tokens of a semaphore exactly if the count has room for those it brings. -/
theorem keeps_iff_room {serve : Server κ} (hposts : serve.Posts) (hamount : 0 < amount)
    (s : Semaphore κ) : s.Keeps serve amount ↔ Count.Room s.count amount := by
  by_cases hlow : -(Count.limit : Int) ≤ s.count.toInt
  · obtain ⟨after, hcall, hcount⟩ := exists_call_signal hposts hamount hlow
    have hsum := Count.le_add_clamp_iff s.count hamount
    rw [← hcount] at hsum
    constructor
    · rintro ⟨after', hafter, hle⟩
      obtain ⟨-, rfl⟩ := Prod.mk.inj (hcall.symm.trans hafter)
      exact ⟨hlow, hsum.mp hle⟩
    · rintro ⟨-, hfits⟩
      exact ⟨after, hcall, hsum.mpr hfits⟩
  · have hfails := call_signal_of_lt serve hamount (s := s) (by omega)
    constructor
    · rintro ⟨after, hafter, -⟩
      rw [hafter] at hfails
      cases hfails
    · rintro ⟨hhigh, -⟩
      exact absurd hhigh hlow

/-! ## Signals among other threads -/

/-- The step in which a signal raises the count adds its tokens, wrapping around. The call fails
in it exactly if the number of waiters cannot be computed. -/
theorem Crowd.raise_spec {kernel : Kernel κ π} {plan : Plan δ σ} {c : Circumstance} {i : Nat}
    {before after : Thread σ π} {shared shared' : Shared κ δ}
    (hraise : before.mode = .calling (.raise amount))
    (hstep : step kernel spins plan c i before shared = some (after, shared')) :
    shared'.count = shared.count + Count.clamp amount ∧
      ((∃ fault, after.mode = .calling (.failed fault)) ↔
        shared.count.toInt < -(Count.limit : Int)) := by
  rcases Count.neg_cases shared.count with ⟨hlow, -⟩ | ⟨hlow, hneg⟩
  · have hmode := step_raise hstep hraise hlow
    rw [step_access kernel plan hraise rfl] at hstep
    cases hstep
    refine ⟨rfl, ?_⟩
    constructor
    · rintro ⟨fault, hfailed⟩
      rw [hmode, Phase.posting] at hfailed
      split at hfailed <;> cases hfailed
    · intro hless
      omega
  · rw [step_access kernel plan hraise rfl] at hstep
    cases hstep
    refine ⟨rfl, fun _ => hlow, fun _ => ?_⟩
    simp only [Cell.Access.perform, hneg]
    exact ⟨_, rfl⟩

/-- A signal keeps the tokens that are there exactly if the count has room for those that it
brings. This is so for a thread that is alone, with any server that can always put tokens in, and
in every step in which a thread of a crowd raises the count, over any kernel semaphore. -/
theorem signals_kept_iff {serve : Server κ} (hposts : serve.Posts) (hamount : 0 < amount) :
    (∀ s : Semaphore κ, s.Keeps serve amount ↔ Count.Room s.count amount) ∧
      ∀ {π δ σ : Type} (kernel : Kernel κ π) (spins : Nat) (plan : Plan δ σ) (c : Circumstance)
        (i : Nat) (before after : Thread σ π) (shared shared' : Shared κ δ),
        before.mode = .calling (.raise amount) →
        Crowd.step kernel spins plan c i before shared = some (after, shared') →
        ((shared.count.toInt ≤ shared'.count.toInt ∧
            ∀ fault, after.mode ≠ .calling (.failed fault)) ↔
          Count.Room shared.count amount) := by
  constructor
  · exact keeps_iff_room hposts hamount
  · intro π δ σ kernel spins plan c i before after shared shared' hraise hstep
    obtain ⟨hcount, hfails⟩ := Crowd.raise_spec hraise hstep
    rw [hcount, Count.le_add_clamp_iff shared.count hamount, ← not_exists, hfails, Int.not_lt,
      Count.Room, And.comm]

/-- A semaphore over the plain counter with as many tokens as the count can hold. -/
def brimful : Semaphore Nat := ⟨.ofNat Count.limit, 0, 0, []⟩

/-- The plain counter can always take tokens in. -/
theorem posts_counter : (serverOf Kernel.Counter.kernel).Posts :=
  fun _ _ => ⟨true, _, rfl, rfl⟩

theorem signals_kept_iff_taken :
    (serverOf Kernel.Counter.kernel).Posts ∧ 0 < 1 ∧
      (brimful.call (serverOf Kernel.Counter.kernel) (.attempt .one)).2.Keeps
        (serverOf Kernel.Counter.kernel) 1 ∧
      ¬brimful.Keeps (serverOf Kernel.Counter.kernel) 1 ∧
      ∃ (after : Thread Script Kernel.Request) (shared : Shared Nat Unit),
        Crowd.step Kernel.Counter.kernel 0 (Script.plan Unit) .usual 0
          ⟨.ofCalls [.signal 1], .calling (.raise 1)⟩ ⟨-1, 0, ()⟩ = some (after, shared) ∧
        Int64.toInt (-1) ≤ shared.count.toInt ∧
        ∀ fault, after.mode ≠ .calling (.failed fault) := by
  obtain ⟨halone, hamong⟩ := signals_kept_iff posts_counter Nat.one_pos
  have hstep : Crowd.step Kernel.Counter.kernel 0 (Script.plan Unit) .usual 0
      ⟨.ofCalls [.signal 1], .calling (.raise 1)⟩ ⟨-1, 0, ()⟩ =
        some (⟨.ofCalls [.signal 1], .calling (.post 1)⟩, ⟨0, 0, ()⟩) := rfl
  have hkept := (hamong Kernel.Counter.kernel 0 (Script.plan Unit) _ _ _ _ _ _ rfl hstep).mpr
    (by decide)
  exact ⟨posts_counter, Nat.one_pos, (halone _).mpr (by decide), mt (halone _).mp (by decide), _, _,
    hstep, hkept⟩

/-- Not every signal keeps the tokens of a semaphore that is new, or that only signals have come
to: the first token too many makes of the largest count the smallest, and the next signal breaks
off. -/
theorem not_signals_kept :
    (Semaphore.create Kernel.Counter.kernel Count.limit 0 = .ok brimful ∧
      ∃ after, brimful.call (serverOf Kernel.Counter.kernel) (.signal 1) = (.ok .done, after) ∧
        after.count = Int64.minValue ∧
        (after.call (serverOf Kernel.Counter.kernel) (.signal 1)).1 = .error .overflow) ∧
      ¬∀ (initial spins amount : Nat) (s : Semaphore Nat),
        Semaphore.create Kernel.Counter.kernel initial spins = .ok s → 0 < amount →
        s.Keeps (serverOf Kernel.Counter.kernel) amount := by
  have hcreate : Semaphore.create Kernel.Counter.kernel Count.limit 0 = .ok brimful := rfl
  obtain ⟨after, hcall, hcount⟩ := exists_call_signal posts_counter Nat.one_pos
    (s := brimful) (by decide)
  have hlowest : after.count = Int64.minValue := by
    rw [hcount]
    decide
  have hfails := call_signal_of_lt (serverOf Kernel.Counter.kernel) Nat.one_pos (s := after)
    (by rw [hlowest]; decide)
  refine ⟨⟨hcreate, after, hcall, hlowest, hfails⟩, fun hkept => ?_⟩
  have hroom := (keeps_iff_room posts_counter Nat.one_pos brimful).mp
    (hkept Count.limit 0 1 brimful hcreate Nat.one_pos)
  exact absurd hroom (by decide)

/-! ## Runs with room for every signal -/

namespace Accounted

/-- In a run in which no more tokens are outstanding than the count can hold, the count has room
for the tokens of every signal. -/
theorem room_of_bounded {initial : Nat} {plan : Plan δ σ} {data : δ} {states : List σ}
    {crowd : Crowd Nat Kernel.Request δ σ} {pool next : Accounted Nat Kernel.Request δ σ}
    {c : Circumstance} {i : Nat} {before : Thread σ Kernel.Request}
    (hcrowd : Crowd.assemble Kernel.Counter.kernel initial data states = .ok crowd)
    (hfew : states.length ≤ Count.limit)
    (hrun : (Crowd.ledgered Kernel.Counter.kernel spins plan).ReachesWithin (Bounded initial)
      (crowd.noted Ledger.empty) pool)
    (hstep : (Crowd.ledgered Kernel.Counter.kernel spins plan).advance c i pool = some next)
    (hbounded : Bounded initial next) (hthread : pool.threads[i]? = some before)
    (hraise : before.mode = .calling (.raise amount)) :
    Count.Room pool.shared.1.count amount := by
  have hbalanced := Balanced.of_reaches hcrowd hfew hrun
  have hlow := hbalanced.neg_limit_le_count
  obtain ⟨thread, after, shared, hi, hmove, rfl⟩ := Machine.observed_advance_eq_some_iff.mp hstep
  obtain rfl : before = thread := Option.some.inj (hthread.symm.trans hi)
  have hfits := hbalanced.count_add_raising_le hlow hi hmove hbounded
  rw [hraise] at hfits
  exact ⟨hlow, hfits⟩

end Accounted

end WordSync.Semaphore
