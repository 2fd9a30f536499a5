import Mathlib.Algebra.GroupWithZero.Nat
import Mathlib.Data.List.Pairwise
import WordSync.Proofs.Field.Arithmetic
import WordSync.Proofs.Field.Isolation

/-!
# Fields as counters

A counter is a field that is changed in one way only: by checked additions, by checked
subtractions, or by additions and subtractions modulo its size. What becomes of it under a list
of commands depends on the totals that they add and remove, and not on their order: on the way
through the list `Counter.final` stays the same, and the whole list can be run just if no total
leaves the field. Counters that share no bit do not disturb each other, so a word with several
of them is determined by their totals and by the bits that belong to none.
-/

namespace WordSync.Field

variable {w : Nat}

/-- The ways in which a field can be used as a counter. -/
inductive Counting where
  /-- It is only added to, without leaving the field. -/
  | up
  /-- It is only subtracted from, without leaving the field. -/
  | down
  /-- It is added to and subtracted from, modulo the size of the field. -/
  | around
  deriving DecidableEq

/-- What a mutator adds to a field when it is given `v`. -/
def Mutator.added (op : Mutator) (v : Nat) : Nat :=
  match op with
  | .add | .addWrapped => v
  | .set | .setWrapped | .sub | .subWrapped => 0

/-- What a mutator removes from a field when it is given `v`. -/
def Mutator.removed (op : Mutator) (v : Nat) : Nat :=
  match op with
  | .sub | .subWrapped => v
  | .set | .setWrapped | .add | .addWrapped => 0

namespace Counting

/-- The mutators that a way of counting makes use of. -/
def Allows (counting : Counting) (op : Mutator) : Prop :=
  match counting with
  | .up => op = .add
  | .down => op = .sub
  | .around => op = .addWrapped ∨ op = .subWrapped

instance (counting : Counting) (op : Mutator) : Decidable (counting.Allows op) :=
  match counting with
  | .up => inferInstanceAs (Decidable (op = .add))
  | .down => inferInstanceAs (Decidable (op = .sub))
  | .around => inferInstanceAs (Decidable (_ ∨ _))

/-- The totals can be counted in a field of `bits` bits that begins with `initial`. -/
def Fits (counting : Counting) (bits initial added removed : Nat) : Prop :=
  match counting with
  | .up => initial + added ≤ 2 ^ bits - 1
  | .down => removed ≤ initial
  | .around => True

instance (counting : Counting) (bits initial added removed : Nat) :
    Decidable (counting.Fits bits initial added removed) :=
  match counting with
  | .up => inferInstanceAs (Decidable (_ ≤ _))
  | .down => inferInstanceAs (Decidable (_ ≤ _))
  | .around => inferInstanceAs (Decidable True)

/-- What a field of `bits` bits comes to that begins with `initial`. -/
def final (counting : Counting) (bits initial added removed : Nat) : Int :=
  match counting with
  | .up => initial + added
  | .down => initial - removed
  | .around => ((initial : Int) + added - removed) % (2 ^ bits : Nat)

variable {counting : Counting} {bits initial added removed : Nat}

/-- Totals can be counted just if what the field comes to is a number that the field can hold. -/
theorem fits_iff_final (hinitial : initial < 2 ^ bits) :
    counting.Fits bits initial added removed ↔
      0 ≤ counting.final bits initial added removed ∧
        counting.final bits initial added removed < (2 ^ bits : Nat) := by
  cases counting with
  | up =>
    simp only [Fits, final]
    omega
  | down =>
    simp only [Fits, final]
    omega
  | around =>
    have hpos : (0 : Int) < (2 ^ bits : Nat) := by omega
    simp only [Fits, final, true_iff]
    exact ⟨Int.emod_nonneg _ (by omega), Int.emod_lt_of_pos _ hpos⟩

/-- Without anything to count a field stays what it is. -/
theorem final_zero (hinitial : initial < 2 ^ bits) :
    counting.final bits initial 0 0 = initial := by
  cases counting with
  | up => exact Int.add_zero _
  | down => exact Int.sub_zero _
  | around =>
    simp only [final]
    exact Int.emod_eq_of_lt (by omega) (by omega)

/-- A change that is let takes its share of the totals into the field. -/
theorem final_result {op : Mutator} {f v f' : Nat} (hop : counting.Allows op)
    (hresult : (f' : Int) = op.result bits f v) :
    counting.final bits f' added removed =
      counting.final bits f (op.added v + added) (op.removed v + removed) := by
  cases counting with
  | up =>
    obtain rfl := hop
    simp only [Mutator.result] at hresult
    simp only [final, Mutator.added]
    omega
  | down =>
    obtain rfl := hop
    simp only [Mutator.result] at hresult
    simp only [final, Mutator.removed]
    omega
  | around =>
    -- What the change has reduced modulo the size is reduced once more in the end.
    rcases hop with rfl | rfl
    · simp only [Mutator.result, Int.natCast_emod] at hresult
      simp only [final, Mutator.added, Mutator.removed, hresult]
      rw [Int.add_sub_assoc, Int.emod_add_emod]
      congr 1
      omega
    · simp only [Mutator.result] at hresult
      simp only [final, Mutator.added, Mutator.removed, hresult]
      rw [Int.add_sub_assoc, Int.emod_add_emod]
      congr 1
      omega

/-- Where a change is refused, the totals that it belongs to cannot be counted. -/
theorem not_fits_of_not_permits {op : Mutator} {f v : Nat} (hop : counting.Allows op)
    (hf : f < 2 ^ bits) (hpermits : ¬op.Permits bits f v) :
    ¬counting.Fits bits f (op.added v + added) (op.removed v + removed) := by
  cases counting with
  | up =>
    obtain rfl := hop
    simp only [Mutator.Permits, Mutator.result] at hpermits
    simp only [Fits, Mutator.added]
    omega
  | down =>
    obtain rfl := hop
    simp only [Mutator.Permits, Mutator.result] at hpermits
    simp only [Fits, Mutator.removed]
    omega
  | around =>
    rcases hop with rfl | rfl
    · exact absurd (Mutator.permits_addWrapped ..) hpermits
    · exact absurd (Mutator.permits_subWrapped ..) hpermits

end Counting

/-- What a command contributes to a field, where `share` says what a mutator contributes. -/
def Command.contribution (share : Mutator → Nat → Nat) (target : Target) : Command w → Nat
  | .change other op v => if other = target then share op v.toNat else 0
  | .store _ | .increase _ | .decrease _ | .ask _ => 0

/-- What a list of commands contributes to a field. -/
def total (share : Mutator → Nat → Nat) (target : Target) (commands : List (Command w)) : Nat :=
  (commands.map (Command.contribution share target)).sum

/-- A change of a field contributes what its mutator contributes. -/
theorem total_change (share : Mutator → Nat → Nat) (target : Target) (op : Mutator) (v : BitVec w)
    (rest : List (Command w)) :
    total share target (.change target op v :: rest) =
      share op v.toNat + total share target rest := by
  simp only [total, List.map_cons, List.sum_cons, Command.contribution, if_true]

/-- A change of another field contributes nothing. -/
theorem total_change_of_ne (share : Mutator → Nat → Nat) {target other : Target}
    (hne : other ≠ target) (op : Mutator) (v : BitVec w) (rest : List (Command w)) :
    total share target (.change other op v :: rest) = total share target rest := by
  simp only [total, List.map_cons, List.sum_cons, Command.contribution, if_neg hne, Nat.zero_add]

/-- A field that is used as a counter. -/
structure Counter where
  /-- The field. -/
  target : Target
  /-- The way in which it counts. -/
  counting : Counting
  deriving DecidableEq

namespace Counter

/-- The commands that count with the counter. -/
def Allows (counter : Counter) : Command w → Prop
  | .change target op _ => target = counter.target ∧ counter.counting.Allows op
  | .store _ | .increase _ | .decrease _ | .ask _ => False

instance (counter : Counter) : DecidablePred (counter.Allows (w := w)) := fun command =>
  match command with
  | .change _ _ _ => inferInstanceAs (Decidable (_ ∧ _))
  | .store _ | .increase _ | .decrease _ | .ask _ => inferInstanceAs (Decidable False)

/-- The totals of a list of commands can be counted from a word on. -/
def Fits (counter : Counter) (word : BitVec w) (commands : List (Command w)) : Prop :=
  counter.counting.Fits counter.target.span.bits (counter.target.span.value word).toNat
    (total Mutator.added counter.target commands) (total Mutator.removed counter.target commands)

instance (counter : Counter) (word : BitVec w) (commands : List (Command w)) :
    Decidable (counter.Fits word commands) :=
  inferInstanceAs (Decidable (counter.counting.Fits _ _ _ _))

/-- What a list of commands makes of the counter, from a word on. -/
def final (counter : Counter) (word : BitVec w) (commands : List (Command w)) : Int :=
  counter.counting.final counter.target.span.bits (counter.target.span.value word).toNat
    (total Mutator.added counter.target commands) (total Mutator.removed counter.target commands)

end Counter

/-- Counters in a word that share no bit with each other. -/
structure Counters (k : Width) where
  /-- The counters. -/
  all : List Counter
  /-- Each of them has its place in the word. -/
  accepted : ∀ counter ∈ all, counter.target.Accepted k.bits
  /-- No two of them have a bit in common. -/
  disjoint : all.Pairwise fun counter other => counter.target.span.Disjoint other.target.span

namespace Counters

variable {k : Width} (counters : Counters k)

/-- The command counts with one of the counters. -/
def Allows (command : Command k.bits) : Prop := ∃ counter ∈ counters.all, counter.Allows command

instance : DecidablePred counters.Allows := fun command =>
  inferInstanceAs (Decidable (∃ counter ∈ counters.all, counter.Allows command))

/-- The totals of a list of commands can be counted by all counters, from a word on. -/
def Fits (word : BitVec k.bits) (commands : List (Command k.bits)) : Prop :=
  ∀ counter ∈ counters.all, counter.Fits word commands

instance (word : BitVec k.bits) (commands : List (Command k.bits)) :
    Decidable (counters.Fits word commands) :=
  inferInstanceAs (Decidable (∀ counter ∈ counters.all, counter.Fits word commands))

/-- Bit `j` belongs to none of the counters. -/
def Spares (j : Nat) : Prop := ∀ counter ∈ counters.all, ¬counter.target.span.Covers j

/-- A word with commands that are still to be run on it agrees with another word and its
commands: every counter comes to the same, and all bits outside the counters are the same. -/
structure Agree (word : BitVec k.bits) (commands : List (Command k.bits))
    (word' : BitVec k.bits) (commands' : List (Command k.bits)) : Prop where
  /-- Every counter comes to the same. -/
  final : ∀ counter ∈ counters.all, counter.final word commands = counter.final word' commands'
  /-- All bits outside the counters are the same. -/
  spared : ∀ j, counters.Spares j → word.getLsbD j = word'.getLsbD j

variable {counters}

/-- The value of a counter fits in its bits. -/
theorem toNat_value_lt {counter : Counter} (hcounter : counter ∈ counters.all)
    (word : BitVec k.bits) :
    (counter.target.span.value word).toNat < 2 ^ counter.target.span.bits :=
  Member.toNat_value_lt (counters.accepted counter hcounter).fits word

/-- Two counters are one, or share no bit. -/
theorem eq_or_disjoint {counter other : Counter} (hcounter : counter ∈ counters.all)
    (hother : other ∈ counters.all) :
    counter = other ∨ counter.target.span.Disjoint other.target.span := by
  by_cases h : counter = other
  · exact .inl h
  · have hsymm : Std.Symm fun a b : Counter => a.target.span.Disjoint b.target.span :=
      ⟨fun _ _ hdisjoint => hdisjoint.symm⟩
    exact .inr (counters.disjoint.forall hcounter hother h)

/-- A counter is not disjoint from itself. -/
theorem not_disjoint_self {counter : Counter} (hcounter : counter ∈ counters.all) :
    ¬counter.target.span.Disjoint counter.target.span := by
  have hpos := (counters.accepted counter hcounter).fits.1
  simp only [Member.Disjoint]
  omega

/-- With nothing left to be run, a counter comes to its value. -/
theorem final_nil {counter : Counter} (hcounter : counter ∈ counters.all) (word : BitVec k.bits) :
    counter.final word [] = (counter.target.span.value word).toNat :=
  Counting.final_zero (toNat_value_lt hcounter word)

/-- Where there is nothing to count, it can be counted. -/
theorem fits_nil (word : BitVec k.bits) : counters.Fits word [] := by
  intro counter hcounter
  have hlt := toNat_value_lt hcounter word
  have hfinal := final_nil hcounter word
  rw [Counter.final] at hfinal
  rw [Counter.Fits, Counting.fits_iff_final hlt, hfinal]
  omega

namespace Agree

variable {word word' word'' : BitVec k.bits} {commands commands' commands'' : List (Command k.bits)}

/-- A word agrees with itself, in whatever order the commands are run on it. -/
theorem of_perm (word : BitVec k.bits) (hperm : commands.Perm commands') :
    counters.Agree word commands word commands' := by
  refine ⟨fun counter _ => ?_, fun _ _ => rfl⟩
  simp only [Counter.final, total, (hperm.map _).sum_nat]

/-- If a word agrees with another, then that one agrees with it. -/
theorem symm (h : counters.Agree word commands word' commands') :
    counters.Agree word' commands' word commands :=
  ⟨fun counter hcounter => (h.final counter hcounter).symm, fun j hj => (h.spared j hj).symm⟩

/-- What agrees with a word that agrees with another agrees with that one. -/
theorem trans (h : counters.Agree word commands word' commands')
    (h' : counters.Agree word' commands' word'' commands'') :
    counters.Agree word commands word'' commands'' :=
  ⟨fun counter hcounter => (h.final counter hcounter).trans (h'.final counter hcounter),
    fun j hj => (h.spared j hj).trans (h'.spared j hj)⟩

/-- Whether the totals can be counted is the same for words that agree. -/
theorem fits_iff (h : counters.Agree word commands word' commands') :
    counters.Fits word commands ↔ counters.Fits word' commands' := by
  refine forall₂_congr fun counter hcounter => ?_
  have hfinal := h.final counter hcounter
  simp only [Counter.final] at hfinal
  rw [Counter.Fits, Counter.Fits, Counting.fits_iff_final (toNat_value_lt hcounter word),
    Counting.fits_iff_final (toNat_value_lt hcounter word'), hfinal]

/-- Words that agree and on which nothing is to be run any more are the same. -/
theorem eq (h : counters.Agree word [] word' []) : word = word' := by
  apply BitVec.eq_of_getLsbD_eq
  intro j _
  by_cases hj : counters.Spares j
  · exact h.spared j hj
  · simp only [Spares, not_forall, not_not] at hj
    obtain ⟨counter, hcounter, hcovers⟩ := hj
    have hfinal := h.final counter hcounter
    rw [final_nil hcounter, final_nil hcounter] at hfinal
    have hvalue : counter.target.span.value word = counter.target.span.value word' :=
      BitVec.eq_of_toNat_eq (Int.ofNat_inj.mp hfinal)
    exact Member.getLsbD_eq_of_value_eq (counters.accepted counter hcounter).fits hvalue hcovers

end Agree

variable {counter : Counter} {op : Mutator} {v word : BitVec k.bits}

/-- The word after a change of a counter that is let agrees with the word before it and the
change. -/
theorem agree_change (hcounter : counter ∈ counters.all) (hop : counter.counting.Allows op)
    (hpermits : op.Permits counter.target.span.bits (counter.target.span.value word).toNat v.toNat)
    (rest : List (Command k.bits)) :
    counters.Agree (counter.target.span.merge word (op.drive counter.target.span v word)) rest
      word (.change counter.target op v :: rest) := by
  have hfits := (counters.accepted counter hcounter).fits
  have houtside := fun j hj => Member.getLsbD_merge_of_not_covers hfits (j := j) hj word
    (op.drive counter.target.span v word)
  refine ⟨fun other hother => ?_, fun j hj => houtside j (hj counter hcounter)⟩
  rcases eq_or_disjoint hcounter hother with rfl | hdisjoint
  · simp only [Counter.final, total_change]
    exact Counting.final_result hop (Member.toNat_value_merge_drive hfits op hpermits)
  · have hne : counter.target ≠ other.target := by
      intro heq
      rw [heq] at hdisjoint
      exact not_disjoint_self hother hdisjoint
    have hvalue := hdisjoint.value_eq (counters.accepted other hother).fits houtside
    simp only [Counter.final, hvalue, total_change_of_ne _ hne]

/-- The totals that a refused change of a counter belongs to cannot be counted. -/
theorem not_fits_change (hcounter : counter ∈ counters.all) (hop : counter.counting.Allows op)
    (hpermits : ¬op.Permits counter.target.span.bits (counter.target.span.value word).toNat
      v.toNat) (rest : List (Command k.bits)) :
    ¬counters.Fits word (.change counter.target op v :: rest) := by
  intro hfits
  have hcount := hfits counter hcounter
  simp only [Counter.Fits, total_change] at hcount
  exact Counting.not_fits_of_not_permits hop (toNat_value_lt hcounter word) hpermits hcount

/-- A command that counts with one of the counters either takes its share of the totals into the
word, or is refused, and then the totals that it belongs to cannot be counted. -/
theorem run_cases {command : Command k.bits} (hallowed : counters.Allows command)
    (word : BitVec k.bits) :
    (∃ reply next, command.run word = .ok reply next ∧
        ∀ rest, counters.Agree next rest word (command :: rest)) ∨
      ∃ fault left, command.run word = .error fault left ∧
        ∀ rest, ¬counters.Fits word (command :: rest) := by
  obtain ⟨counter, hcounter, hcounts⟩ := hallowed
  cases command with
  | store v => exact hcounts.elim
  | increase v => exact hcounts.elim
  | decrease v => exact hcounts.elim
  | ask query => exact hcounts.elim
  | change target op v =>
    obtain ⟨rfl, hop⟩ := hcounts
    have happly := Target.apply_eq (counters.accepted counter hcounter) op v word
    by_cases hpermits : op.Permits counter.target.span.bits
        (counter.target.span.value word).toNat v.toNat
    · rw [Member.outcome, if_pos hpermits] at happly
      refine .inl ⟨.done, _, ?_, agree_change hcounter hop hpermits⟩
      simp only [Command.run, bind, EStateM.bind, happly]
      rfl
    · rw [Member.outcome, if_neg hpermits] at happly
      refine .inr ⟨.contract (op.refusal counter.target.place v.toNat counter.target.span.bits),
        word, ?_, not_fits_change hcounter hop hpermits⟩
      simp only [Command.run, bind, EStateM.bind, happly]

/-- Commands that count with the counters either take their shares of the totals into the word,
or one of them is refused, and then the totals that they belong to cannot be counted. -/
theorem runAll_cases {commands : List (Command k.bits)}
    (hallowed : ∀ command ∈ commands, counters.Allows command) (word : BitVec k.bits) :
    (∃ next, runAll commands word = .ok () next ∧
        ∀ rest, counters.Agree next rest word (commands ++ rest)) ∨
      ∃ fault left, runAll commands word = .error fault left ∧
        ∀ rest, ¬counters.Fits word (commands ++ rest) := by
  -- The word and the commands that are left agree with the beginning after every command.
  induction commands generalizing word with
  | nil => exact .inl ⟨word, rfl, fun rest => .of_perm word (.refl rest)⟩
  | cons command commands ih =>
    obtain ⟨hfirst, hrest⟩ := List.forall_mem_cons.mp hallowed
    rcases run_cases hfirst word with ⟨reply, next, hrun, hagree⟩ | ⟨fault, left, hrun, hnot⟩
    · rcases ih hrest next with ⟨last, hall, hlast⟩ | ⟨fault, left, hall, hnot⟩
      · refine .inl ⟨last, ?_, fun rest => (hlast rest).trans (hagree (commands ++ rest))⟩
        simp only [runAll, bind, EStateM.bind, hrun, hall]
      · refine .inr ⟨fault, left, ?_, fun rest hfits => ?_⟩
        · simp only [runAll, bind, EStateM.bind, hrun, hall]
        · exact hnot rest ((hagree (commands ++ rest)).fits_iff.mpr hfits)
    · refine .inr ⟨fault, left, ?_, fun rest => hnot (commands ++ rest)⟩
      simp only [runAll, bind, EStateM.bind, hrun]

end Counters

end WordSync.Field
