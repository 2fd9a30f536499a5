import WordSync.Proofs.Field.Outcome

/-!
# Walks over rows

A walk over a row that has its place in the word never fails. Each request yields the element
that comes next, as it is in the copy of the word that the walk holds, and after the last
element every further request yields nothing.
-/

namespace WordSync.Field

variable {w : Nat}

namespace Elements

variable {walk : Elements w}

/-- As long as there are elements, a request yields the next one. -/
theorem advance_of_lt (hfits : walk.row.Fits w) (hw : w < Word.positionLimit)
    (hnext : walk.next < walk.row.count) :
    walk.advance = .ok (some ((walk.row.element walk.next).value walk.packed),
      ⟨walk.row, walk.packed, walk.next + 1⟩) := by
  rw [advance, if_neg (Nat.not_le_of_lt hnext), Row.get_eq hfits hw hnext]
  rfl

/-- At the end of the row a request yields nothing and the walk stays where it is. -/
theorem advance_of_le (hnext : walk.row.count ≤ walk.next) : walk.advance = .ok (none, walk) :=
  if_pos hnext

/-- The values of the elements that are still to come. -/
def left (walk : Elements w) : List (BitVec w) :=
  (List.range' walk.next walk.remaining).map fun i => (walk.row.element i).value walk.packed

/-- The walk behind the next `n` elements, or at its end if there are fewer. -/
def after (walk : Elements w) (n : Nat) : Elements w :=
  ⟨walk.row, walk.packed, walk.next + min n walk.remaining⟩

/-- There are as many values to come as elements. -/
theorem length_left (walk : Elements w) : walk.left.length = walk.remaining := by
  rw [left, List.length_map, List.length_range']

/-- Behind the next `n` elements these are no longer to come. -/
theorem left_after (walk : Elements w) (n : Nat) : (walk.after n).left = walk.left.drop n := by
  by_cases hn : n ≤ walk.remaining
  · have hremaining : (walk.after n).remaining = walk.remaining - n := by
      simp only [remaining, after] at hn ⊢
      omega
    rw [left, left, hremaining, ← List.map_drop, List.drop_range', Nat.mul_one]
    simp only [after, Nat.min_eq_left hn]
  · have hlength : walk.left.length ≤ n := by
      rw [length_left]
      omega
    have hlength' : (walk.after n).left.length = 0 := by
      rw [length_left]
      simp only [remaining, after] at hn ⊢
      omega
    rw [List.drop_eq_nil_of_le hlength, List.eq_nil_of_length_eq_zero hlength']

/-- Going on twice is going on by the sum. -/
theorem after_after (walk : Elements w) (m n : Nat) :
    (walk.after m).after n = walk.after (m + n) := by
  simp only [after, remaining, Elements.mk.injEq, true_and]
  omega

/-- A request yields the first of the values to come, and the walk goes on by one element. -/
theorem advance_eq (hfits : walk.row.Fits w) (hw : w < Word.positionLimit) :
    walk.advance = .ok (walk.left.head?, walk.after 1) := by
  by_cases hnext : walk.next < walk.row.count
  · have hremaining : walk.remaining = walk.row.count - walk.next - 1 + 1 := by
      simp only [remaining]
      omega
    rw [advance_of_lt hfits hw hnext, left, after, hremaining, List.range'_succ, List.map_cons,
      List.head?_cons, Nat.min_eq_left (Nat.le_add_left 1 _)]
  · have hremaining : walk.remaining = 0 := by
      simp only [remaining]
      omega
    rw [advance_of_le (Nat.le_of_not_lt hnext), left, after, hremaining]
    rfl

/-- Requests yield the values to come in order, and nothing beyond them. -/
theorem advanceMany_eq (hw : w < Word.positionLimit) (n : Nat) :
    ∀ walk : Elements w, walk.row.Fits w →
      walk.advanceMany n = .ok ((List.range n).map fun i => walk.left[i]?, walk.after n) := by
  induction n with
  | zero => exact fun walk _ => rfl
  | succ n ih =>
    intro walk hfits
    have hrest := ih (walk.after 1) hfits
    simp only [left_after, after_after, Nat.add_comm 1 n, List.getElem?_drop] at hrest
    simp only [advanceMany, advance_eq hfits hw, hrest, bind, Except.bind, pure, Except.pure,
      List.range_succ_eq_map, List.map_cons, List.map_map, List.head?_eq_getElem?]
    congr 3
    exact List.map_congr_left fun i _ => by rw [Nat.add_comm 1 i]; rfl

/-- As many requests as there are elements to come yield all of them. -/
theorem rest_eq (hfits : walk.row.Fits w) (hw : w < Word.positionLimit) :
    walk.rest = .ok walk.left := by
  have hanswers : ((List.range walk.remaining).map fun i => walk.left[i]?) =
      walk.left.map some := by
    rw [← length_left]
    refine List.ext_getElem (by rw [List.length_map, List.length_map, List.length_range]) ?_
    intro i hi _
    rw [List.length_map, List.length_range] at hi
    rw [List.getElem_map, List.getElem_map, List.getElem_range, List.getElem?_eq_getElem hi]
  simp only [rest, advanceMany_eq hw _ walk hfits, hanswers, bind, Except.bind, pure, Except.pure,
    List.filterMap_map]
  exact congrArg Except.ok List.filterMap_some

end Elements

/-- The values of a row that has its place in the word are those of its elements in order. -/
theorem Row.values_eq {r : Row} (hfits : r.Fits w) (hw : w < Word.positionLimit)
    (packed : BitVec w) :
    r.values packed = .ok ((List.range r.count).map fun i => (r.element i).value packed) := by
  have hwalk : (r.elements packed).row.Fits w := hfits
  rw [List.range_eq_range']
  exact Elements.rest_eq hwalk hw

end WordSync.Field
