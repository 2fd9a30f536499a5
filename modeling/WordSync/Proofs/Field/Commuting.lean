import Mathlib.Data.List.Perm.Basic
import WordSync.Proofs.Field.Arithmetic
import WordSync.Proofs.Field.Isolation

/-!
# Changes of disjoint fields commute

What a change answers, and what it leaves in its field, is settled by what the field holds. A
change of another field, let or refused, does not touch that. So changes of fields that share no
bit may be made in any order: each is let or refused as it would be on its own, and the word is
the same in the end.
-/

namespace WordSync.Field

variable {w : Nat}

/-- A change of a field: which field, in which way, and with what value. -/
structure Change (w : Nat) where
  /-- The field. -/
  target : Target
  /-- How it is changed. -/
  op : Mutator
  /-- The value that the mutator is given. -/
  value : BitVec w

/-- What a change does with the word. -/
def Change.edit (change : Change w) : Edit w Unit := change.target.apply change.op change.value

/-- Make all changes in order. A refused one leaves the word as it was, and the next one is made
all the same. The answers come in the order of the changes, with the word in the end. -/
def runEach : List (Change w) → BitVec w → List (Except Fault Unit) × BitVec w
  | [], word => ([], word)
  | change :: rest, word =>
    let (answers, last) := runEach rest (change.edit.wordAfter word)
    (change.edit.answer word :: answers, last)

namespace Target

variable {target : Target} {k : Width}

/-- The answer of a change: it is over where it is let, and its refusal where it is not. -/
theorem answer_apply (haccepted : target.Accepted k.bits) (op : Mutator)
    (v word : BitVec k.bits) :
    (target.apply op v).answer word =
      if op.Permits target.span.bits (target.span.value word).toNat v.toNat then .ok ()
      else .error (.contract (op.refusal target.place v.toNat target.span.bits)) := by
  unfold Edit.answer
  rw [apply_eq haccepted, Member.outcome]
  by_cases hpermits : op.Permits target.span.bits (target.span.value word).toNat v.toNat
  · rw [if_pos hpermits, if_pos hpermits]
  · rw [if_neg hpermits, if_neg hpermits]

/-- What a change answers is settled by what the field holds. -/
theorem answer_apply_congr (haccepted : target.Accepted k.bits) (op : Mutator)
    (v : BitVec k.bits) {word other : BitVec k.bits}
    (hvalue : target.span.value word = target.span.value other) :
    (target.apply op v).answer word = (target.apply op v).answer other := by
  rw [answer_apply haccepted, answer_apply haccepted, hvalue]

/-- What a change leaves in its field is settled by what the field holds. -/
theorem value_wordAfter_congr (haccepted : target.Accepted k.bits) (op : Mutator)
    (v : BitVec k.bits) {word other : BitVec k.bits}
    (hvalue : target.span.value word = target.span.value other) :
    target.span.value ((target.apply op v).wordAfter word) =
      target.span.value ((target.apply op v).wordAfter other) := by
  have hfits := haccepted.fits
  rw [wordAfter_apply haccepted, wordAfter_apply haccepted]
  by_cases hpermits : op.Permits target.span.bits (target.span.value word).toNat v.toNat
  · have hword := Member.toNat_value_merge_drive hfits op hpermits
    rw [hvalue] at hpermits hword
    have hother := Member.toNat_value_merge_drive hfits op hpermits
    rw [hvalue, if_pos hpermits, if_pos hpermits]
    apply BitVec.eq_of_toNat_eq
    omega
  · rw [hvalue] at hpermits
    rw [hvalue, if_neg hpermits, if_neg hpermits, hvalue]

end Target

namespace Change

/-- The field of the change has an accepted layout. -/
def Accepted (change : Change w) : Prop := change.target.Accepted w

/-- The fields of two changes have no bit in common. -/
def Apart (first second : Change w) : Prop := first.target.span.Disjoint second.target.span

instance : DecidableRel (Apart (w := w)) := fun _ _ => inferInstanceAs (Decidable (_ ∨ _))

/-- Two changes do not see each other: each answers what it answers without the other, and in
either order they leave the same word. -/
structure Commute (first second : Change w) : Prop where
  /-- The answer of the first is the same after the second. -/
  answer_first : ∀ word,
    first.edit.answer (second.edit.wordAfter word) = first.edit.answer word
  /-- The answer of the second is the same after the first. -/
  answer_second : ∀ word,
    second.edit.answer (first.edit.wordAfter word) = second.edit.answer word
  /-- The order does not matter to the word. -/
  wordAfter : ∀ word,
    second.edit.wordAfter (first.edit.wordAfter word) =
      first.edit.wordAfter (second.edit.wordAfter word)

/-- It does not matter which of the two is called the first. -/
theorem Commute.symm {first second : Change w} (h : first.Commute second) :
    second.Commute first where
  answer_first := h.answer_second
  answer_second := h.answer_first
  wordAfter word := (h.wordAfter word).symm

variable {k : Width} {first second : Change k.bits}

/-- A field reads the same after a change of another one. -/
theorem value_wordAfter (hfirst : first.Accepted) (hsecond : second.Accepted)
    (hapart : first.Apart second) (word : BitVec k.bits) :
    second.target.span.value (first.edit.wordAfter word) = second.target.span.value word :=
  hapart.value_eq hsecond.fits fun _ hj =>
    Target.getLsbD_wordAfter_apply hfirst first.op first.value word hj

/-- Inside its field, a change leaves the same bits after a change of another field as without
it, and that one leaves them alone. -/
theorem getLsbD_wordAfter_wordAfter (hfirst : first.Accepted) (hsecond : second.Accepted)
    (hapart : first.Apart second) (word : BitVec k.bits) {j : Nat}
    (hj : second.target.span.Covers j) :
    (second.edit.wordAfter (first.edit.wordAfter word)).getLsbD j =
      (first.edit.wordAfter (second.edit.wordAfter word)).getLsbD j := by
  have hvalue := value_wordAfter hfirst hsecond hapart word
  calc (second.edit.wordAfter (first.edit.wordAfter word)).getLsbD j
      = (second.edit.wordAfter word).getLsbD j :=
        Member.getLsbD_eq_of_value_eq hsecond.fits
          (Target.value_wordAfter_congr hsecond second.op second.value hvalue) hj
    _ = (first.edit.wordAfter (second.edit.wordAfter word)).getLsbD j :=
        (Target.getLsbD_wordAfter_apply hfirst first.op first.value _
          (hapart.not_covers hj)).symm

/-- Changes of two fields that share no bit do not see each other. -/
theorem Apart.commute (hfirst : first.Accepted) (hsecond : second.Accepted)
    (hapart : first.Apart second) : first.Commute second := by
  have hback : second.Apart first := Member.Disjoint.symm hapart
  refine ⟨?_, ?_, ?_⟩
  · intro word
    exact Target.answer_apply_congr hfirst first.op first.value
      (value_wordAfter hsecond hfirst hback word)
  · intro word
    exact Target.answer_apply_congr hsecond second.op second.value
      (value_wordAfter hfirst hsecond hapart word)
  · intro word
    apply BitVec.eq_of_getLsbD_eq
    intro j _
    -- Bits of the one field, bits of the other, and bits of neither.
    by_cases hj : second.target.span.Covers j
    · exact getLsbD_wordAfter_wordAfter hfirst hsecond hapart word hj
    by_cases hj' : first.target.span.Covers j
    · exact (getLsbD_wordAfter_wordAfter hsecond hfirst hback word hj').symm
    · have houtside :=
        fun word => Target.getLsbD_wordAfter_apply hfirst first.op first.value word hj'
      have houtside' :=
        fun word => Target.getLsbD_wordAfter_apply hsecond second.op second.value word hj
      calc (second.edit.wordAfter (first.edit.wordAfter word)).getLsbD j
          = word.getLsbD j := (houtside' _).trans (houtside _)
        _ = (first.edit.wordAfter (second.edit.wordAfter word)).getLsbD j :=
          ((houtside _).trans (houtside' _)).symm

end Change

/-- Changes that do not see each other answer what each of them answers on its own. -/
theorem answers_runEach {changes : List (Change w)} (hcommute : changes.Pairwise Change.Commute)
    (word : BitVec w) :
    (runEach changes word).1 = changes.map fun change => change.edit.answer word := by
  induction hcommute generalizing word with
  | nil => rfl
  | @cons change rest hhead _ ih =>
    have hsame : ∀ other ∈ rest,
        other.edit.answer (change.edit.wordAfter word) = other.edit.answer word :=
      fun other hother => (hhead other hother).answer_second word
    simp only [runEach, List.map_cons, ih, List.map_congr_left hsame]

/-- Changes that do not see each other leave the same word in any order. -/
theorem word_runEach_perm {changes order : List (Change w)} (hperm : order.Perm changes)
    (hcommute : order.Pairwise Change.Commute) (word : BitVec w) :
    (runEach order word).2 = (runEach changes word).2 := by
  induction hperm generalizing word with
  | nil => rfl
  | cons change _ ih =>
    rw [List.pairwise_cons] at hcommute
    simp only [runEach, ih hcommute.2]
  | swap first second rest =>
    rw [List.pairwise_cons] at hcommute
    have hpair := hcommute.1 first List.mem_cons_self
    simp only [runEach, hpair.wordAfter]
  | trans hleft _ ih ih' =>
    rw [ih hcommute, ih' ((hleft.pairwise_iff Change.Commute.symm).mp hcommute)]

variable {k : Width}

/-- Changes of accepted fields, of which no two share a bit, do not see each other. -/
theorem pairwise_commute {changes : List (Change k.bits)}
    (haccepted : ∀ change ∈ changes, change.Accepted)
    (hapart : changes.Pairwise Change.Apart) : changes.Pairwise Change.Commute :=
  hapart.imp_of_mem fun hfirst hsecond h => h.commute (haccepted _ hfirst) (haccepted _ hsecond)

/-- Changes of disjoint fields commute, whichever mutators they use, whatever values they are
given and whatever the word is. Of two changes each answers the same first as second, and both
orders leave the same word. Of any number of changes, made in any order, each answers what it
answers on the word as it was at the start, and the word in the end is that of the given order. -/
theorem disjoint_changes_commute (k : Width) :
    (∀ first second : Change k.bits, first.Accepted → second.Accepted → first.Apart second →
      first.Commute second) ∧
    ∀ changes : List (Change k.bits), (∀ change ∈ changes, change.Accepted) →
      changes.Pairwise Change.Apart →
      ∀ order : List (Change k.bits), order.Perm changes → ∀ word,
        (runEach order word).1 = order.map (fun change => change.edit.answer word) ∧
          (runEach order word).2 = (runEach changes word).2 := by
  refine ⟨fun first second hfirst hsecond hapart => hapart.commute hfirst hsecond, ?_⟩
  intro changes haccepted hapart order hperm word
  have hcommute : order.Pairwise Change.Commute :=
    (hperm.pairwise_iff Change.Commute.symm).mpr (pairwise_commute haccepted hapart)
  exact ⟨answers_runEach hcommute word, word_runEach_perm hperm hcommute word⟩

/-- Three fields of a byte, from the last to the first: the last is filled to the top, the middle
one refuses a sum that it has no room for, and the first loses more than it has. -/
theorem disjoint_changes_commute_byte :
    [Change.mk (.member ⟨0, 2⟩) .subWrapped 0xFF#8, .mk (.member ⟨2, 3⟩) .add 6#8,
        .mk (.element ⟨2, 3, 2⟩ 1) .set 7#8].Pairwise Change.Apart ∧
      runEach [⟨.element ⟨2, 3, 2⟩ 1, .set, 7#8⟩, ⟨.member ⟨2, 3⟩, .add, 6#8⟩,
          ⟨.member ⟨0, 2⟩, .subWrapped, 0xFF#8⟩] 0x4D#8 =
        ([.ok (), .error (.contract (.aboveMaximum .member 6 3)), .ok ()], 0xEE#8) := by
  obtain ⟨-, hlists⟩ := disjoint_changes_commute .w8
  have hapart : [Change.mk (.member ⟨0, 2⟩) .subWrapped 0xFF#8, .mk (.member ⟨2, 3⟩) .add 6#8,
      .mk (.element ⟨2, 3, 2⟩ 1) .set 7#8].Pairwise Change.Apart := by decide
  refine ⟨hapart, Prod.ext_iff.mpr (hlists _ ?_ hapart _ (List.reverse_perm _) 0x4D#8)⟩
  exact List.forall_mem_cons.mpr ⟨rfl, List.forall_mem_cons.mpr
    ⟨rfl, List.forall_mem_singleton.mpr ⟨rfl, by decide⟩⟩⟩

end WordSync.Field
