import WordSync.Proofs.Field.Walk

/-!
# Accepted layouts are safe

The layout checks accept a field just if it has its place in the word, by plain arithmetic and
not by the 32-bit arithmetic of the checks. No operation on a field with an accepted layout then
fails in its word arithmetic, whatever word, value and index it is given: no mask takes the whole
word, no shift leaves it, and no position overflows. What is left are the contracts that a caller
can break, and a failed operation leaves the word alone.
-/

namespace WordSync.Field

variable {w : Nat}

namespace Edit

variable {α β : Type}

/-- A fault that is at hand ends a change and leaves the word alone. -/
theorem lift_error_bind (fault : Fault) (next : α → Edit w β) (word : BitVec w) :
    ((liftM (Except.error fault : Except Fault α) : Edit w α) >>= next) word =
      .error fault word := rfl

end Edit

/-- The word with a one in a member can be computed. -/
theorem Member.one_eq {m : Member} (hfits : m.Fits w) :
    m.one (w := w) = .ok (1#w <<< m.offset) := by
  rw [one, hfits.shiftLeft_eq]
  rfl

namespace Row

variable {r : Row} {i : Nat}

/-- An element that the row does not have has no position. -/
theorem offset_of_le (hi : r.count ≤ i) :
    r.offset i = .error (.contract (.index i r.count)) := if_neg (Nat.not_lt_of_le hi)

/-- An element that the row does not have has no mask. -/
theorem mask_of_le (hfits : r.Fits w) (hi : r.count ≤ i) :
    r.mask (w := w) i = .error (.contract (.index i r.count)) := by
  simp only [mask, maximum_eq hfits i, offset_of_le hi, bind, Except.bind]

/-- No word has a one in an element that the row does not have. -/
theorem one_of_le (hi : r.count ≤ i) :
    r.one (w := w) i = .error (.contract (.index i r.count)) := by
  simp only [one, offset_of_le hi, bind, Except.bind]

/-- An element that the row does not have cannot be read. -/
theorem get_of_le (hi : r.count ≤ i) (word : BitVec w) :
    r.get i word = .error (.contract (.index i r.count)) := by
  simp only [get, offset_of_le hi, bind, Except.bind]

/-- Storing a value in an element that the row does not have is refused, for the value if that
does not fit, and else for the index. -/
theorem set_of_le (hfits : r.Fits w) (hi : r.count ≤ i) (v word : BitVec w) :
    r.set i v word =
      if v ≤ (r.element i).top then .error (.contract (.index i r.count)) word
      else .error (.contract (.tooWide .element v.toNat r.bits)) word := by
  simp only [set, maximum_eq hfits i, offset_of_le hi, Edit.lift_ok_bind, Edit.require_bind,
    Edit.lift_error_bind]

/-- Every other change of an element that the row does not have is refused for the index. -/
theorem apply_of_le (hfits : r.Fits w) (hi : r.count ≤ i) {op : Mutator} (hop : op ≠ .set)
    (v word : BitVec w) :
    r.apply i op v word = .error (.contract (.index i r.count)) word := by
  have htop : r.maximum (w := w) = .ok (r.element i).top := maximum_eq hfits i
  have hoffset := offset_of_le hi
  have hget := get_of_le (w := w) hi
  cases op with
  | set => exact absurd rfl hop
  | setWrapped => simp only [apply, setWrapped, hoffset, Edit.lift_error_bind]
  | add =>
    simp only [apply, add, htop, hget, Edit.lift_ok_bind, Edit.word_bind, Edit.lift_error_bind]
  | addWrapped => simp only [apply, addWrapped, hoffset, Edit.lift_error_bind]
  | sub => simp only [apply, sub, hget, Edit.word_bind, Edit.lift_error_bind]
  | subWrapped => simp only [apply, subWrapped, hoffset, Edit.lift_error_bind]

/-- The mask of an element can be computed. -/
theorem mask_eq (hfits : r.Fits w) (hw : w < Word.positionLimit) (hi : i < r.count) :
    r.mask (w := w) i = .ok (r.element i).stencil := by
  simp only [mask, maximum_eq hfits i, offset_eq hfits hw hi, (hfits.element hi).shiftLeft_eq,
    bind, Except.bind]
  rfl

/-- The word with a one in an element can be computed. -/
theorem one_eq (hfits : r.Fits w) (hw : w < Word.positionLimit) (hi : i < r.count) :
    r.one (w := w) i = .ok (1#w <<< (r.element i).offset) := by
  simp only [one, offset_eq hfits hw hi, (hfits.element hi).shiftLeft_eq, bind, Except.bind]
  rfl

end Row

/-- A mutator that refuses values which lead out of the field. -/
def Mutator.Checked : Mutator → Prop
  | .set | .add | .sub => True
  | .setWrapped | .addWrapped | .subWrapped => False

/-- A mutator that is ever refused is a checked one. -/
theorem Mutator.checked_of_not_permits {op : Mutator} {bits f v : Nat}
    (h : ¬op.Permits bits f v) : op.Checked := by
  cases op with
  | set | add | sub => trivial
  | setWrapped => exact h (permits_setWrapped bits f v)
  | addWrapped => exact h (permits_addWrapped bits f v)
  | subWrapped => exact h (permits_subWrapped bits f v)

/-- The violation says that a target is no element of its row. -/
def Target.Strays (target : Target) (violation : Violation) : Prop :=
  match target with
  | .member _ => False
  | .element r i => r.count ≤ i ∧ violation = .index i r.count

/-- A target is the member that a descriptor stands for, or is at some index of its row. The row
need not have so many elements. -/
def Descriptor.Bears : Descriptor → Target → Prop
  | .member m, .member m' => m' = m
  | .row r, .element r' _ => r' = r
  | _, _ => False

/-- The target of a query, if it is about a single field. -/
def Query.target? : Query → Option Target
  | .value target | .offset target | .mask target | .one target => some target
  | .whole | .bits _ | .maximum _ | .layout _ | .count _ | .isEmpty _ | .values _ => none

/-- A query is about a descriptor. -/
def Query.About (query : Query) (descriptor : Descriptor) : Prop :=
  match query with
  | .whole => True
  | .value target | .offset target | .mask target | .one target => descriptor.Bears target
  | .bits other | .maximum other | .layout other => other = descriptor
  | .count r | .isEmpty r | .values r => .row r = descriptor

/-- A command works on a descriptor. -/
def Command.About (command : Command w) (descriptor : Descriptor) : Prop :=
  match command with
  | .change target _ _ => descriptor.Bears target
  | .store _ | .increase _ | .decrease _ => True
  | .ask query => query.About descriptor

/-- The contracts that a caller of a command can break: the index, if there is one, and for the
checked mutators the value. -/
def Command.Forbids (command : Command w) (violation : Violation) : Prop :=
  match command with
  | .change target op v =>
    target.Strays violation ∨
      (op.Checked ∧ violation = op.refusal target.place v.toNat target.span.bits)
  | .store _ | .increase _ | .decrease _ => False
  | .ask query => ∃ target, query.target? = some target ∧ target.Strays violation

variable {k : Width} {descriptor : Descriptor}

/-- What a descriptor with an accepted layout bears is an accepted target, or lies beyond the
end of an accepted row. -/
theorem Descriptor.Bears.cases {target : Target} (hbears : descriptor.Bears target)
    (haccepted : descriptor.checkLayout k.bits = .ok ()) :
    target.Accepted k.bits ∨
      ∃ r i, target = .element r i ∧ r.Fits k.bits ∧ r.count ≤ i := by
  cases descriptor with
  | member m =>
    cases target with
    | member m' =>
      obtain rfl : m' = m := hbears
      exact .inl haccepted
    | element r i => exact hbears.elim
  | row r =>
    cases target with
    | member m => exact hbears.elim
    | element r' i =>
      obtain rfl : r' = r := hbears
      by_cases hi : i < r'.count
      · exact .inl ⟨haccepted, hi⟩
      · have hfits := (Row.checkLayout_iff_fits k.bits_lt_positionLimit).mp haccepted
        exact .inr ⟨r', i, rfl, hfits, Nat.le_of_not_lt hi⟩

/-- The largest value of a field with an accepted layout can be computed. -/
theorem Descriptor.exists_maximum (haccepted : descriptor.checkLayout k.bits = .ok ()) :
    ∃ top : BitVec k.bits, descriptor.maximum = .ok top := by
  cases descriptor with
  | member m =>
    have hfits := (Member.checkLayout_iff_fits k.bits_lt_positionLimit).mp haccepted
    exact ⟨_, Member.maximum_eq hfits⟩
  | row r =>
    have hfits := (Row.checkLayout_iff_fits k.bits_lt_positionLimit).mp haccepted
    exact ⟨_, Row.maximum_eq hfits 0⟩

/-- A change fails only by a broken contract, and leaves the word alone. -/
theorem Target.apply_error {target : Target} (hbears : descriptor.Bears target)
    (haccepted : descriptor.checkLayout k.bits = .ok ()) {op : Mutator}
    {v word word' : BitVec k.bits} {fault : Fault}
    (h : target.apply op v word = .error fault word') :
    word' = word ∧ ∃ violation, fault = .contract violation ∧
      (Command.change target op v).Forbids violation := by
  rcases hbears.cases haccepted with haccepted | ⟨r, i, rfl, hfits, hi⟩
  · rw [apply_eq haccepted, Member.outcome] at h
    by_cases hpermits : op.Permits target.span.bits (target.span.value word).toNat v.toNat
    · rw [if_pos hpermits] at h
      cases h
    · rw [if_neg hpermits] at h
      cases h
      exact ⟨rfl, _, rfl, .inr ⟨Mutator.checked_of_not_permits hpermits, rfl⟩⟩
  · simp only [apply] at h
    by_cases hop : op = .set
    · subst hop
      rw [Row.apply, Row.set_of_le hfits hi] at h
      by_cases hv : v ≤ (r.element i).top
      · rw [if_pos hv] at h
        cases h
        exact ⟨rfl, _, rfl, .inl ⟨hi, rfl⟩⟩
      · rw [if_neg hv] at h
        cases h
        exact ⟨rfl, _, rfl, .inr ⟨trivial, rfl⟩⟩
    · rw [Row.apply_of_le hfits hi hop] at h
      cases h
      exact ⟨rfl, _, rfl, .inl ⟨hi, rfl⟩⟩

/-- A question about a target has an answer, or the target is no element of its row. -/
def Target.Answered {α : Type} (target : Target) (answer : Except Fault α) : Prop :=
  (∃ value, answer = .ok value) ∨
    ∃ violation, target.Strays violation ∧ answer = .error (.contract violation)

/-- An answer that is put in other words is an answer. -/
theorem Target.Answered.error_cases {α β : Type} {target : Target} {answer : Except Fault α}
    (h : target.Answered answer) {f : α → β} {fault : Fault}
    (herror : answer.map f = .error fault) :
    ∃ violation, fault = .contract violation ∧ target.Strays violation := by
  rcases h with ⟨value, rfl⟩ | ⟨violation, hstrays, rfl⟩
  · cases herror
  · cases herror
    exact ⟨violation, rfl, hstrays⟩

/-- What can be asked about a target of a descriptor with an accepted layout is answered. -/
theorem Target.answered {target : Target} (hbears : descriptor.Bears target)
    (haccepted : descriptor.checkLayout k.bits = .ok ()) (word : BitVec k.bits) :
    target.Answered (target.get word) ∧ target.Answered target.offset ∧
      target.Answered (target.mask (w := k.bits)) ∧
      target.Answered (target.one (w := k.bits)) := by
  have hw := k.bits_lt_positionLimit
  rcases hbears.cases haccepted with haccepted | ⟨r, i, rfl, hfits, hi⟩
  · refine ⟨.inl ⟨_, get_eq haccepted word⟩, ?_⟩
    cases target with
    | member m =>
      have hfits : m.Fits k.bits := haccepted.fits
      exact ⟨.inl ⟨_, rfl⟩, .inl ⟨_, Member.mask_eq hfits⟩, .inl ⟨_, Member.one_eq hfits⟩⟩
    | element r i =>
      have hfits := (Row.checkLayout_iff_fits hw).mp haccepted.1
      have hi := haccepted.2
      exact ⟨.inl ⟨_, Row.offset_eq hfits hw hi⟩, .inl ⟨_, Row.mask_eq hfits hw hi⟩,
        .inl ⟨_, Row.one_eq hfits hw hi⟩⟩
  · have hstrays : (Target.element r i).Strays (.index i r.count) := ⟨hi, rfl⟩
    exact ⟨.inr ⟨_, hstrays, Row.get_of_le hi word⟩, .inr ⟨_, hstrays, Row.offset_of_le hi⟩,
      .inr ⟨_, hstrays, Row.mask_of_le hfits hi⟩, .inr ⟨_, hstrays, Row.one_of_le hi⟩⟩

/-- A query fails only if it is about an element that its row does not have. -/
theorem Query.answer_error {query : Query} (habout : query.About descriptor)
    (haccepted : descriptor.checkLayout k.bits = .ok ()) {word : BitVec k.bits} {fault : Fault}
    (h : query.answer word = .error fault) :
    ∃ violation, fault = .contract violation ∧
      ∃ target, query.target? = some target ∧ target.Strays violation := by
  cases query with
  | value target =>
    obtain ⟨hvalue, -⟩ := Target.answered habout haccepted word
    obtain ⟨violation, hfault, hstrays⟩ := hvalue.error_cases h
    exact ⟨violation, hfault, target, rfl, hstrays⟩
  | offset target =>
    obtain ⟨-, hoffset, -⟩ := Target.answered habout haccepted word
    obtain ⟨violation, hfault, hstrays⟩ := hoffset.error_cases h
    exact ⟨violation, hfault, target, rfl, hstrays⟩
  | mask target =>
    obtain ⟨-, -, hmask, -⟩ := Target.answered habout haccepted word
    obtain ⟨violation, hfault, hstrays⟩ := hmask.error_cases h
    exact ⟨violation, hfault, target, rfl, hstrays⟩
  | one target =>
    obtain ⟨-, -, -, hone⟩ := Target.answered habout haccepted word
    obtain ⟨violation, hfault, hstrays⟩ := hone.error_cases h
    exact ⟨violation, hfault, target, rfl, hstrays⟩
  | maximum other =>
    obtain rfl : other = descriptor := habout
    obtain ⟨top, htop⟩ := Descriptor.exists_maximum haccepted
    simp only [answer, htop, Except.map, reduceCtorEq] at h
  | values r =>
    obtain rfl : .row r = descriptor := habout
    have hfits := (Row.checkLayout_iff_fits k.bits_lt_positionLimit).mp haccepted
    simp only [answer, Row.values_eq hfits k.bits_lt_positionLimit, Except.map, reduceCtorEq] at h
  | whole | bits | layout | count | isEmpty => cases h

/-- A command fails only by a broken contract, and leaves the word alone. -/
theorem Command.run_error {command : Command k.bits} (habout : command.About descriptor)
    (haccepted : descriptor.checkLayout k.bits = .ok ()) {word word' : BitVec k.bits}
    {fault : Fault} (h : command.run word = .error fault word') :
    word' = word ∧ ∃ violation, fault = .contract violation ∧ command.Forbids violation := by
  cases command with
  | change target op v =>
    simp only [run, bind, EStateM.bind] at h
    cases happly : target.apply op v word with
    | ok done next =>
      simp only [happly] at h
      cases h
    | error fault' next =>
      simp only [happly] at h
      cases h
      exact Target.apply_error habout haccepted happly
  | ask query =>
    simp only [run, Edit.word_bind] at h
    cases hanswer : query.answer word with
    | ok reply =>
      simp only [hanswer] at h
      cases h
    | error fault' =>
      simp only [hanswer] at h
      cases h
      exact ⟨rfl, Query.answer_error habout haccepted hanswer⟩
  | store v | increase v | decrease v => cases h

/-- A walk over a row never fails, wherever it stands. -/
theorem Elements.exists_answers {walk : Elements w} (hfits : walk.row.Fits w)
    (hw : w < Word.positionLimit) :
    (∃ first, walk.advance = .ok first) ∧ (∀ n, ∃ answers, walk.advanceMany n = .ok answers) ∧
      (∃ values, walk.rest = .ok values) ∧ ∃ text, walk.text = .ok text := by
  refine ⟨⟨_, advance_eq hfits hw⟩, fun n => ⟨_, advanceMany_eq hw n walk hfits⟩,
    ⟨_, rest_eq hfits hw⟩, ?_⟩
  simp only [text, rest_eq hfits hw, bind, Except.bind, pure, Except.pure, Except.ok.injEq,
    exists_eq']

/-- The value of a field with an accepted layout can be written. -/
theorem Descriptor.exists_valueText (haccepted : descriptor.checkLayout k.bits = .ok ())
    (word : BitVec k.bits) : ∃ text, descriptor.valueText word = .ok text := by
  cases descriptor with
  | member m =>
    have hfits := (Member.checkLayout_iff_fits k.bits_lt_positionLimit).mp haccepted
    simp only [valueText, Member.get_eq hfits, bind, Except.bind, pure, Except.pure,
      Except.ok.injEq, exists_eq']
  | row r =>
    have hfits : (r.elements word).row.Fits k.bits :=
      (Row.checkLayout_iff_fits k.bits_lt_positionLimit).mp haccepted
    exact (Elements.exists_answers hfits k.bits_lt_positionLimit).2.2.2

/-- An index that a row has is a position, so it is not cut off where it is taken for one. -/
theorem Row.Fits.index_lt {r : Row} (hfits : r.Fits w) (hw : w < Word.positionLimit) {i : Nat}
    (hi : i < r.count) : i < Word.positionLimit := by
  obtain ⟨hpos, -, hend⟩ := hfits
  have hcount := Nat.le_mul_of_pos_left r.count hpos
  omega

/-- The layout checks are exact, and what they accept is safe. A member is accepted just if it
has at least one bit, not all bits of the word, and ends inside the word; a row just if that is
so for its elements and for its end. Commands on an accepted field fail only by a contract that
the command has, for its value or its index, and then leave the word alone. Walks over an accepted
row and texts of accepted fields never fail. -/
theorem Descriptor.accepted_safe (k : Width) :
    (∀ m : Member, m.checkLayout k.bits = .ok () ↔
        0 < m.bits ∧ m.bits < k.bits ∧ m.offset + m.bits ≤ k.bits) ∧
      (∀ r : Row, r.checkLayout k.bits = .ok () ↔
        0 < r.bits ∧ r.bits < k.bits ∧ r.base + r.bits * r.count ≤ k.bits) ∧
      ∀ descriptor : Descriptor, descriptor.checkLayout k.bits = .ok () →
        (∀ command : Command k.bits, command.About descriptor → ∀ word fault word',
          command.run word = .error fault word' →
            word' = word ∧ ∃ violation, fault = .contract violation ∧
              command.Forbids violation) ∧
        (∀ walk : Elements k.bits, .row walk.row = descriptor →
          (∃ first, walk.advance = .ok first) ∧
            (∀ n, ∃ answers, walk.advanceMany n = .ok answers) ∧
            (∃ values, walk.rest = .ok values) ∧ ∃ text, walk.text = .ok text) ∧
        (∀ word : BitVec k.bits, ∃ text, descriptor.valueText word = .ok text) ∧
        ∀ r i, .row r = descriptor → i < r.count → i < Word.positionLimit := by
  have hw := k.bits_lt_positionLimit
  refine ⟨fun m => Member.checkLayout_iff_fits hw, fun r => Row.checkLayout_iff_fits hw, ?_⟩
  intro descriptor haccepted
  refine ⟨?_, ?_, exists_valueText haccepted, ?_⟩
  · intro command habout word fault word' h
    exact Command.run_error habout haccepted h
  · rintro walk rfl
    exact Elements.exists_answers ((Row.checkLayout_iff_fits hw).mp haccepted) hw
  · rintro r i rfl hi
    exact ((Row.checkLayout_iff_fits hw).mp haccepted).index_lt hw hi

/-- An empty row may begin where the byte ends. Whatever is added to an element of it, even at an
index that is no position, all that fails is the index. -/
theorem Descriptor.accepted_safe_hollow :
    (Descriptor.row ⟨8, 3, 0⟩).checkLayout 8 = .ok () ∧
      ∀ v word : BitVec 8, ∃ violation,
        (Command.change (.element ⟨8, 3, 0⟩ 4294967297) .add v).run word =
          .error (.contract violation) word ∧ violation.message =
            "bitfield array index 4294967297 out of range 0..0" := by
  obtain ⟨-, hrows, hsafe⟩ := accepted_safe .w8
  have haccepted := (hrows ⟨8, 3, 0⟩).mpr (by decide)
  obtain ⟨hcommands, -⟩ := hsafe (.row ⟨8, 3, 0⟩) haccepted
  refine ⟨haccepted, fun v word => ?_⟩
  cases hrun : (Command.change (.element ⟨8, 3, 0⟩ 4294967297) .add v).run word with
  | ok reply word' => cases hrun
  | error fault word' =>
    obtain ⟨rfl, violation, rfl, hforbids⟩ :=
      hcommands (.change (.element ⟨8, 3, 0⟩ 4294967297) .add v) rfl _ _ _ hrun
    refine ⟨violation, rfl, ?_⟩
    rcases hforbids with ⟨-, rfl⟩ | ⟨-, rfl⟩
    · rfl
    · cases hrun

end WordSync.Field
