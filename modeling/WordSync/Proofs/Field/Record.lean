import Mathlib.Data.List.Pairwise
import WordSync.Field.Declaration
import WordSync.Proofs.Field.Arithmetic
import WordSync.Proofs.Field.Isolation
import WordSync.Proofs.Field.Walk

/-!
# A packed word as a record of its fields

The fields of a declaration, with each row taken apart into its elements, and the bits that no
field covers determine the word. If no two fields share a bit, the values of the fields can be
chosen freely: storing them one after the other, in whatever order, leads to the one word that
has them and the same bits outside.
-/

namespace WordSync.Field

namespace Target

variable {k : Width} {targets : List Target}

/-- A value that fits can be stored. The field then has the value, and all other bits are as they
were. -/
theorem exists_apply_set {target : Target} (haccepted : target.Accepted k.bits)
    {v : BitVec k.bits} (hv : v.toNat ≤ 2 ^ target.span.bits - 1) (word : BitVec k.bits) :
    ∃ word', target.apply .set v word = .ok () word' ∧ target.span.value word' = v ∧
      ∀ j, ¬target.span.Covers j → word'.getLsbD j = word.getLsbD j := by
  have hpos := Nat.two_pow_pos target.span.bits
  have hpermits : Mutator.set.Permits target.span.bits (target.span.value word).toNat v.toNat := by
    simp only [Mutator.Permits, Mutator.result]
    omega
  refine ⟨_, (apply_eq_ok_iff haccepted .set v word _).mpr ⟨hpermits, rfl⟩, ?_, fun j hj =>
    Member.getLsbD_merge_of_not_covers haccepted.fits hj word _⟩
  apply BitVec.eq_of_toNat_eq
  exact Int.ofNat_inj.mp (Member.toNat_value_merge_drive haccepted.fits .set hpermits)

/-- Words with the same values of some fields and the same bits outside them are the same. -/
theorem eq_of_value_eq (haccepted : ∀ target ∈ targets, target.Accepted k.bits)
    {a b : BitVec k.bits} (hvalue : ∀ target ∈ targets, target.span.value a = target.span.value b)
    (hspared : ∀ j, (∀ target ∈ targets, ¬target.span.Covers j) → a.getLsbD j = b.getLsbD j) :
    a = b := by
  apply BitVec.eq_of_getLsbD_eq
  intro j _
  by_cases hj : ∀ target ∈ targets, ¬target.span.Covers j
  · exact hspared j hj
  · simp only [not_forall, not_not] at hj
    obtain ⟨target, htarget, hcovers⟩ := hj
    exact Member.getLsbD_eq_of_value_eq (haccepted target htarget).fits (hvalue target htarget)
      hcovers

/-- The commands that store a value in each of some fields. -/
def stores (values : Target → BitVec k.bits) (targets : List Target) : List (Command k.bits) :=
  targets.map fun target => .change target .set (values target)

/-- Values that fit can be stored one after the other in fields that share no bit. Every field
then has its value, and all other bits are as they were. -/
theorem exists_runAll_stores {values : Target → BitVec k.bits}
    (haccepted : ∀ target ∈ targets, target.Accepted k.bits)
    (hdisjoint : targets.Pairwise fun target other => target.span.Disjoint other.span)
    (hvalues : ∀ target ∈ targets, (values target).toNat ≤ 2 ^ target.span.bits - 1)
    (word : BitVec k.bits) :
    ∃ packed, runAll (stores values targets) word = .ok () packed ∧
      (∀ target ∈ targets, target.span.value packed = values target) ∧
      ∀ j, (∀ target ∈ targets, ¬target.span.Covers j) → packed.getLsbD j = word.getLsbD j := by
  induction targets generalizing word with
  | nil => exact ⟨word, rfl, fun _ h => absurd h List.not_mem_nil, fun _ _ => rfl⟩
  | cons target rest ih =>
    obtain ⟨hfirst, hrest⟩ := List.forall_mem_cons.mp haccepted
    obtain ⟨hv, hvrest⟩ := List.forall_mem_cons.mp hvalues
    obtain ⟨hapart, hdisjoint⟩ := List.pairwise_cons.mp hdisjoint
    obtain ⟨next, happly, hvalue, houtside⟩ := exists_apply_set hfirst hv word
    obtain ⟨packed, hrun, hpacked, hspared⟩ := ih hrest hdisjoint hvrest next
    refine ⟨packed, ?_, List.forall_mem_cons.mpr ⟨?_, hpacked⟩, ?_⟩
    · simp only [stores, List.map_cons, runAll, Command.run, bind, EStateM.bind, happly]
      exact hrun
    · -- The later fields share no bit with this one, so that it keeps its value.
      rw [← hvalue]
      refine Member.value_congr hfirst.fits fun j hj => hspared j fun other hother => ?_
      exact (hapart other hother).symm.not_covers hj
    · intro j hj
      obtain ⟨hnot, hnots⟩ := List.forall_mem_cons.mp hj
      rw [hspared j hnots, houtside j hnot]

end Target

/-- The single fields of a descriptor with an accepted layout are accepted. -/
theorem Descriptor.accepted_of_mem {descriptor : Descriptor} {w : Nat}
    (haccepted : descriptor.checkLayout w = .ok ()) {target : Target}
    (htarget : target ∈ descriptor.targets) : target.Accepted w := by
  cases descriptor with
  | member m =>
    obtain rfl := List.mem_singleton.mp htarget
    exact haccepted
  | row r =>
    obtain ⟨i, hi, rfl⟩ := List.mem_map.mp htarget
    exact ⟨haccepted, List.mem_range.mp hi⟩

namespace Declaration

variable {d : Declaration}

/-- All single fields of a declaration, with its rows taken apart into their elements. -/
def targets (d : Declaration) : List Target := d.fields.flatMap fun field => field.2.targets

/-- No two single fields of the declaration share a bit. -/
def Disjoint (d : Declaration) : Prop :=
  d.targets.Pairwise fun target other => target.span.Disjoint other.span

instance (d : Declaration) : Decidable d.Disjoint :=
  inferInstanceAs (Decidable (d.targets.Pairwise _))

/-- Bit `j` belongs to no field. -/
def Spares (d : Declaration) (j : Nat) : Prop := ∀ target ∈ d.targets, ¬target.span.Covers j

/-- Each single field can hold the value that it is to be given. -/
def Admits (d : Declaration) (values : Target → d.Packed) : Prop :=
  ∀ target ∈ d.targets, (values target).toNat ≤ 2 ^ target.span.bits - 1

instance (d : Declaration) (values : Target → d.Packed) : Decidable (d.Admits values) :=
  inferInstanceAs (Decidable (∀ target ∈ d.targets, _))

/-- A declaration is accepted just if the layouts of all its fields are. -/
theorem checkLayout_eq_ok_iff :
    d.checkLayout = .ok () ↔ ∀ field ∈ d.fields, field.2.checkLayout d.width.bits = .ok () := by
  rw [checkLayout]
  induction d.fields with
  | nil => exact ⟨fun _ field h => absurd h List.not_mem_nil, fun _ => rfl⟩
  | cons field rest ih =>
    rw [List.forall_mem_cons, ← ih, List.forM]
    cases hfield : field.2.checkLayout d.width.bits with
    | error fault => simp only [bind, Except.bind, reduceCtorEq, false_and]
    | ok done => simp only [bind, Except.bind, true_and]

/-- The single fields of an accepted declaration are accepted. -/
theorem accepted_of_mem_targets (haccepted : d.checkLayout = .ok ()) :
    ∀ target ∈ d.targets, target.Accepted d.width.bits := by
  intro target htarget
  obtain ⟨field, hfield, hmem⟩ := List.mem_flatMap.mp htarget
  exact Descriptor.accepted_of_mem (checkLayout_eq_ok_iff.mp haccepted field hfield) hmem

/-- The elements of a declared row are single fields of the declaration. -/
theorem element_mem_targets {name : String} {r : Row} (hrow : (name, .row r) ∈ d.fields) {i : Nat}
    (hi : i < r.count) : .element r i ∈ d.targets :=
  List.mem_flatMap.mpr ⟨_, hrow, List.mem_map.mpr ⟨i, List.mem_range.mpr hi, rfl⟩⟩

/-- Values that the fields admit can be stored in any order, and every order leads to the same
word. -/
theorem exists_packed (haccepted : d.checkLayout = .ok ()) (hdisjoint : d.Disjoint)
    {values : Target → d.Packed} (hvalues : d.Admits values) (word : d.Packed) :
    ∃ packed : d.Packed,
      (∀ order : List Target, order.Perm d.targets →
        runAll (Target.stores values order) word = .ok () packed) ∧
      (∀ target ∈ d.targets, target.span.value packed = values target) ∧
      ∀ j, d.Spares j → packed.getLsbD j = word.getLsbD j := by
  have htargets := accepted_of_mem_targets haccepted
  obtain ⟨packed, -, hpacked, hspared⟩ :=
    Target.exists_runAll_stores htargets hdisjoint hvalues word
  refine ⟨packed, fun order horder => ?_, hpacked, hspared⟩
  have hmem : ∀ target, target ∈ order ↔ target ∈ d.targets := fun target => horder.mem_iff
  obtain ⟨other, hrun, hother, hspared'⟩ := Target.exists_runAll_stores
    (fun target htarget => htargets target ((hmem target).mp htarget))
    (horder.symm.pairwise hdisjoint fun h => h.symm)
    (fun target htarget => hvalues target ((hmem target).mp htarget)) word
  have hsame : other = packed := by
    refine Target.eq_of_value_eq htargets (fun target htarget => ?_) fun j hj => ?_
    · rw [hpacked target htarget, hother target ((hmem target).mpr htarget)]
    · rw [hspared j hj, hspared' j fun target htarget => hj target ((hmem target).mp htarget)]
  rw [hrun, hsame]

/-- Storing in every field what it has in a word makes that word out of every word with the same
bits outside the fields. -/
theorem runAll_stores_of_value_eq (haccepted : d.checkLayout = .ok ()) (hdisjoint : d.Disjoint)
    {values : Target → d.Packed} {word other : d.Packed}
    (hvalues : ∀ target ∈ d.targets, target.span.value word = values target)
    (hspared : ∀ j, d.Spares j → other.getLsbD j = word.getLsbD j) {order : List Target}
    (horder : order.Perm d.targets) :
    runAll (Target.stores values order) other = .ok () word := by
  have htargets := accepted_of_mem_targets haccepted
  have hadmits : d.Admits values := by
    intro target htarget
    have hlt := Member.toNat_value_lt (htargets target htarget).fits word
    rw [← hvalues target htarget]
    omega
  obtain ⟨packed, hrun, hpacked, houtside⟩ := exists_packed haccepted hdisjoint hadmits other
  have hsame : packed = word := by
    refine Target.eq_of_value_eq htargets (fun target htarget => ?_) fun j hj => ?_
    · rw [hpacked target htarget, hvalues target htarget]
    · rw [houtside j hj, hspared j hj]
  rw [hrun order horder, hsame]

/-- A word is the record of its fields. Where no two fields of a declaration share a bit, values
that fit in the fields can be stored in any order: every order leads to one and the same word,
which has these values, in its rows as well, and keeps all bits outside the fields. What the
fields of a word read, stored in any order in any word with the same bits outside, makes that
word again; so words are equal just if their fields and the bits outside are. -/
theorem packed_determined (haccepted : d.checkLayout = .ok ()) (hdisjoint : d.Disjoint) :
    (∀ (word : d.Packed) (values : Target → d.Packed), d.Admits values →
      ∃ packed : d.Packed,
        (∀ order : List Target, order.Perm d.targets →
          runAll (Target.stores values order) word = .ok () packed) ∧
        (∀ target ∈ d.targets, target.get packed = .ok (values target)) ∧
        (∀ name r, (name, .row r) ∈ d.fields →
          r.values packed = .ok ((List.range r.count).map fun i => values (.element r i))) ∧
        ∀ j, d.Spares j → packed.getLsbD j = word.getLsbD j) ∧
      (∀ word : d.Packed,
        (∀ target ∈ d.targets, ∃ value, target.get word = .ok value) ∧
        ∀ values : Target → d.Packed,
          (∀ target ∈ d.targets, target.get word = .ok (values target)) →
          ∀ other : d.Packed, (∀ j, d.Spares j → other.getLsbD j = word.getLsbD j) →
            ∀ order : List Target, order.Perm d.targets →
              runAll (Target.stores values order) other = .ok () word) ∧
      ∀ a b : d.Packed, a = b ↔
        (∀ target ∈ d.targets, target.get a = target.get b) ∧
          ∀ j, d.Spares j → a.getLsbD j = b.getLsbD j := by
  have htargets := accepted_of_mem_targets haccepted
  have hget := fun target htarget => Target.get_eq (htargets target htarget)
  refine ⟨fun word values hvalues => ?_, fun word => ⟨?_, ?_⟩, fun a b => ⟨?_, ?_⟩⟩
  · obtain ⟨packed, hrun, hpacked, hspared⟩ := exists_packed haccepted hdisjoint hvalues word
    refine ⟨packed, hrun, fun target htarget => ?_, fun name r hrow => ?_, hspared⟩
    · rw [hget target htarget, hpacked target htarget]
    · have hlayout := checkLayout_eq_ok_iff.mp haccepted _ hrow
      have hfits := (Row.checkLayout_iff_fits d.width.bits_lt_positionLimit).mp hlayout
      rw [Row.values_eq hfits d.width.bits_lt_positionLimit]
      refine congrArg Except.ok (List.map_congr_left fun i hi => ?_)
      exact hpacked _ (element_mem_targets hrow (List.mem_range.mp hi))
  · exact fun target htarget => ⟨_, hget target htarget word⟩
  · intro values hvalues other hspared order horder
    refine runAll_stores_of_value_eq haccepted hdisjoint (fun target htarget => ?_) hspared horder
    exact Except.ok.inj ((hget target htarget word).symm.trans (hvalues target htarget))
  · rintro rfl
    exact ⟨fun _ _ => rfl, fun _ _ => rfl⟩
  · rintro ⟨hsame, hspared⟩
    refine Target.eq_of_value_eq htargets (fun target htarget => ?_) hspared
    have hread := hsame target htarget
    rw [hget target htarget, hget target htarget] at hread
    exact Except.ok.inj hread

/-- A byte with two levels at its lower end and a mode above them; bits 4 and 7 are free. -/
def lamp : Declaration where
  name := "Lamp"
  width := .w8
  fields := [("mode", .member ⟨5, 2⟩), ("levels", .row ⟨0, 2, 2⟩)]

/-- The mode is 2, and the levels are 1 and 2. -/
def dimmed : Target → lamp.Packed
  | .member _ => 2#8
  | .element _ i => BitVec.ofNat 8 (i + 1)

theorem packed_determined_lamp :
    lamp.checkLayout = .ok () ∧ lamp.Disjoint ∧ lamp.Admits dimmed ∧
      (∀ order : List Target, order.Perm lamp.targets →
        runAll (Target.stores dimmed order) 0xFF#8 = .ok () 0xD9#8) ∧
      (Row.mk 0 2 2).values 0xD9#8 = .ok [1#8, 2#8] := by
  have haccepted : lamp.checkLayout = .ok () := rfl
  have hdisjoint : lamp.Disjoint := by decide
  have hadmits : lamp.Admits dimmed := by decide
  obtain ⟨hstore, -, -⟩ := packed_determined haccepted hdisjoint
  obtain ⟨packed, hrun, -, hrows, -⟩ := hstore 0xFF#8 dimmed hadmits
  have hpacked : .ok () 0xD9#8 = EStateM.Result.ok () packed := hrun lamp.targets (.refl _)
  obtain rfl : 0xD9#8 = packed := (EStateM.Result.ok.inj hpacked).2
  exact ⟨haccepted, hdisjoint, hadmits, hrun, hrows "levels" _ (by decide)⟩

end Declaration

end WordSync.Field
