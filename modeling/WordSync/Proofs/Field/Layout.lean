import WordSync.Field.Command

/-!
# Accepted layouts

A layout is accepted just if the field has its place in the word. The checks compute with
32-bit numbers, and a computation that leaves these is a refusal of its own; no field that has
its place in a word comes near that limit. What an operation works on, a member or an element of
a row, is a run of bits either way, and `Target.span` is that run.
-/

namespace WordSync

/-- Every width is a position. -/
theorem Width.bits_lt_positionLimit (k : Width) : k.bits < Word.positionLimit :=
  Nat.lt_of_le_of_lt k.bits_le (by decide)

namespace Field

variable {w : Nat}

/-- A check is passed just if it does not refuse and what follows is passed. -/
theorem refuse_bind_eq_ok_iff {condition : Prop} [Decidable condition] {fault : LayoutFault}
    {rest : Unit → Except LayoutFault Unit} :
    (if condition then Except.error fault >>= rest else rest ()) = .ok () ↔
      ¬condition ∧ rest () = .ok () := by
  by_cases hcondition : condition
  · rw [if_pos hcondition]
    constructor
    · intro h
      cases h
    · intro h
      exact absurd hcondition h.1
  · rw [if_neg hcondition]
    exact ⟨fun h => ⟨hcondition, h⟩, fun h => h.2⟩

/-- The last check is passed just if it does not refuse. -/
theorem refuse_eq_ok_iff {condition : Prop} [Decidable condition] {fault : LayoutFault} :
    (if condition then Except.error fault else pure ()) = Except.ok () ↔ ¬condition := by
  by_cases hcondition : condition
  · rw [if_pos hcondition]
    simp only [reduceCtorEq, hcondition, not_true_eq_false]
  · rw [if_neg hcondition]
    simp only [pure, Except.pure, hcondition, not_false_eq_true]

/-- A computed end has to be a position for what follows to be passed. -/
theorem checkedEnd_bind_eq_ok_iff {n : Nat} {rest : Nat → Except LayoutFault Unit} :
    (checkedEnd (if n < Word.positionLimit then .ok n else .error .overflow) >>= rest) =
      .ok () ↔ n < Word.positionLimit ∧ rest n = .ok () := by
  by_cases hlimit : n < Word.positionLimit
  · rw [if_pos hlimit]
    exact ⟨fun h => ⟨hlimit, h⟩, fun h => h.2⟩
  · rw [if_neg hlimit]
    constructor
    · intro h
      cases h
    · intro h
      exact absurd h.1 hlimit

/-- The layout of a member is accepted just if the member has its place in the word. -/
theorem Member.checkLayout_iff_fits {m : Member} (hw : w < Word.positionLimit) :
    m.checkLayout w = .ok () ↔ m.Fits w := by
  simp only [Member.checkLayout, Word.addPosition, refuse_bind_eq_ok_iff,
    checkedEnd_bind_eq_ok_iff, refuse_eq_ok_iff, Member.Fits]
  omega

/-- The layout of a row is accepted just if its elements have their place in the word. -/
theorem Row.checkLayout_iff_fits {r : Row} (hw : w < Word.positionLimit) :
    r.checkLayout w = .ok () ↔ r.Fits w := by
  simp only [Row.checkLayout, Word.addPosition, Word.mulPosition, refuse_bind_eq_ok_iff,
    checkedEnd_bind_eq_ok_iff, refuse_eq_ok_iff, Row.Fits]
  omega

/-- The run of bits that an element of a row takes. -/
def Row.element (r : Row) (i : Nat) : Member := ⟨r.base + r.bits * i, r.bits⟩

/-- The elements of a row that has its place in the word have theirs. -/
theorem Row.Fits.element {r : Row} (hfits : r.Fits w) {i : Nat} (hi : i < r.count) :
    (r.element i).Fits w := by
  obtain ⟨hpos, hlt, hend⟩ := hfits
  have hnext : r.bits * i + r.bits ≤ r.bits * r.count := by
    rw [← Nat.mul_succ]
    exact Nat.mul_le_mul_left r.bits hi
  refine ⟨hpos, hlt, ?_⟩
  simp only [Row.element]
  omega

namespace Target

/-- The run of bits that a target takes. -/
def span : Target → Member
  | .member m => m
  | .element r i => r.element i

/-- What a target is, as fault messages name it. -/
def place : Target → Place
  | .member _ => .member
  | .element _ _ => .element

/-- The layout of the target is accepted for words of `w` bits, and an element is one that its
row has. -/
def Accepted (target : Target) (w : Nat) : Prop :=
  match target with
  | .member m => m.checkLayout w = .ok ()
  | .element r i => r.checkLayout w = .ok () ∧ i < r.count

/-- An accepted target has its place in the word. -/
theorem Accepted.fits {target : Target} {k : Width} (haccepted : target.Accepted k.bits) :
    target.span.Fits k.bits := by
  cases target with
  | member m => exact (Member.checkLayout_iff_fits k.bits_lt_positionLimit).mp haccepted
  | element r i =>
    have hrow := (Row.checkLayout_iff_fits k.bits_lt_positionLimit).mp haccepted.1
    exact hrow.element haccepted.2

end Target

end Field

end WordSync
