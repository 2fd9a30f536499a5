import Mathlib.Data.List.ReduceOption
import WordSync.Proofs.Cell.Completion

/-!
# Updates that another thread interferes with

Another thread may write to the cell each time that an update asks its function. Only a write that
changes the value makes the exchange fail, and the update then asks about what has been written; a
write of the value that is there already goes unnoticed. So there is at most one question more
than there are writes. What comes of the update is what the function makes of the last value that
it was asked about, and the update gets there by an order of the steps of the two threads.
-/

namespace WordSync.Cell

variable {α ε : Type}

/-- The rule that asks a function and never fails. -/
def Rule.pure (f : α → Option α) : Rule α ε := fun seen => .ok (f seen)

namespace Update

/-- What can come of an update by `f` of a cell that holds `start`, while another thread makes
the given writes, one each time that `f` is asked. -/
inductive Contested (f : α → Option α) : List (Option α) → α → Outcome α ε → Prop where
  /-- The function declines. A write that was made meanwhile stays. -/
  | decline {writes : List (Option α)} {start : α} (hrule : f start = none) :
      Contested f writes start ⟨some (.ok (.error start)), writes.head?.join.getD start, [start]⟩
  /-- The function has an answer, and the value is still the same. -/
  | swap {writes : List (Option α)} {start next : α} (hrule : f start = some next)
      (hwrite : ∀ x, writes.head?.join = some x → x = start) :
      Contested f writes start ⟨some (.ok (.ok start)), next, [start]⟩
  /-- The function has an answer, but another value has been written meanwhile. -/
  | retry {later : List (Option α)} {start next x : α} {outcome : Outcome α ε}
      (hrule : f start = some next) (hne : x ≠ start) (hlater : Contested f later x outcome) :
      Contested f (some x :: later) start
        ⟨outcome.result, outcome.value, start :: outcome.seen⟩

/-- In a list of one there is nothing but that. -/
theorem eq_of_getElem?_singleton {a b : α} {n : Nat} (h : [a][n]? = some b) : n = 0 ∧ a = b := by
  cases n with
  | zero => exact ⟨rfl, Option.some.inj h⟩
  | succ n => cases h

/-- The write of the first round, if there is one. -/
theorem reduceOption_take_one (writes : List (Option α)) :
    (writes.take 1).reduceOption = writes.head?.join.toList := by
  cases writes with
  | nil => rfl
  | cons write later => exact List.reduceOption_singleton write

section Against

variable [DecidableEq α] [Add α] [Sub α] {f : α → Option α} {writes : List (Option α)} {start : α}

/-- One round: it is the last one, or another value has been written and the next one follows. -/
theorem contested_round {rest : List (Option α)}
    (hlater : ∀ x later, writes = some x :: later →
      Contested f later x (rounds (.pure f : Rule α ε) rest x x)) :
    Contested f writes start
      (rounds (.pure f : Rule α ε) (writes.head?.join :: rest) start start) := by
  cases hrule : f start with
  | none =>
    simp only [rounds, Rule.pure, hrule]
    exact .decline hrule
  | some next =>
    rcases Access.exchangeWeak_cases false start next (writes.head?.join.getD start) with
      ⟨hsame, hperform⟩ | ⟨hdiffer, hperform⟩
    · rw [hsame] at hperform
      simp only [rounds, Rule.pure, hrule, hsame, hperform]
      refine .swap hrule fun x hx => ?_
      rwa [hx] at hsame
    · have hne : writes.head?.join.getD start ≠ start := fun hsame => nomatch hdiffer hsame
      match writes, hne with
      | [], hne => exact absurd rfl hne
      | none :: later, hne => exact absurd rfl hne
      | some x :: later, hne =>
        simp only [rounds, Rule.pure, hrule, hperform]
        exact .retry hrule hne (hlater x later rfl)

/-- Whatever is written, one of these comes of an update. -/
theorem contested_against (f : α → Option α) (writes : List (Option α)) (start : α) :
    Contested f writes start (against (.pure f : Rule α ε) writes start) := by
  induction writes generalizing start with
  | nil => exact contested_round fun x later h => nomatch h
  | cons write later ih =>
    refine contested_round fun x later' h => ?_
    obtain ⟨rfl, rfl⟩ := List.cons.inj h
    exact ih x

end Against

namespace Contested

variable {f : α → Option α} {writes : List (Option α)} {start : α} {outcome : Outcome α ε}

/-- The function is asked at most once more than there are writes. -/
theorem seen_length_le (h : Contested f writes start outcome) :
    outcome.seen.length ≤ writes.reduceOption.length + 1 := by
  induction h with
  | decline => exact Nat.le_add_left 1 _
  | swap => exact Nat.le_add_left 1 _
  | retry _ _ _ ih =>
    rw [List.reduceOption_cons_of_some]
    exact Nat.succ_le_succ ih

/-- The function is first asked about the value that the cell holds. -/
theorem seen_zero (h : Contested f writes start outcome) : outcome.seen[0]? = some start := by
  cases h <;> rfl

/-- The function is asked again just if it had an answer and another value has been written, and
then it is asked about that value. -/
theorem seen_succ (h : Contested f writes start outcome) {n : Nat} {seen : α}
    (hseen : outcome.seen[n]? = some seen) (next : α) :
    outcome.seen[n + 1]? = some next ↔
      (f seen).isSome ∧ writes[n]? = some (some next) ∧ next ≠ seen := by
  induction h generalizing n with
  | @decline writes start hrule =>
    obtain ⟨rfl, rfl⟩ := eq_of_getElem?_singleton hseen
    simp only [hrule, Option.isSome_none, Bool.false_eq_true, false_and, iff_false]
    exact nofun
  | @swap writes start swap hrule hwrite =>
    obtain ⟨rfl, rfl⟩ := eq_of_getElem?_singleton hseen
    constructor
    · exact nofun
    · rintro ⟨-, hnext, hne⟩
      rw [← List.head?_eq_getElem?] at hnext
      exact absurd (hwrite next (congrArg Option.join hnext)) hne
  | @retry later start swap x outcome hrule hne hlater ih =>
    cases n with
    | zero =>
      obtain rfl : start = seen := Option.some.inj hseen
      rw [List.getElem?_cons_succ, hlater.seen_zero, hrule]
      simp only [List.getElem?_cons_zero, Option.some.injEq, Option.isSome_some, true_and]
      constructor
      · rintro rfl
        exact ⟨rfl, hne⟩
      · exact fun h => h.1
    | succ n => exact ih hseen

/-- What comes of the update is what the function makes of the last value that it was asked about.
If it declined, the cell holds what was written last. -/
theorem ends (h : Contested f writes start outcome) :
    ∃ last result, outcome.seen.getLast? = some last ∧ outcome.result = some (.ok result) ∧
      ((∃ next, f last = some next ∧ result = .ok last ∧ outcome.value = next) ∨
        (f last = none ∧ result = .error last ∧
          outcome.value = (writes.take outcome.seen.length).reduceOption.getLastD start)) := by
  induction h with
  | @decline writes start hrule =>
    refine ⟨start, _, rfl, rfl, .inr ⟨hrule, rfl, ?_⟩⟩
    rw [List.length_singleton, reduceOption_take_one]
    cases writes.head?.join <;> rfl
  | @swap writes start next hrule hwrite =>
    exact ⟨start, _, rfl, rfl, .inl ⟨next, hrule, rfl, rfl⟩⟩
  | @retry later start next x outcome hrule hne hlater ih =>
    obtain ⟨last, result, hlast, hresult, hend⟩ := ih
    refine ⟨last, result, ?_, hresult, ?_⟩
    · rw [List.getLast?_cons, hlast]
      rfl
    · rw [List.length_cons, List.take_succ_cons, List.reduceOption_cons_of_some,
        List.getLastD_cons]
      exact hend

end Contested

variable [DecidableEq α] [Add α] [Sub α]

/-- A thread that is updating beside one that still has some writes to make. -/
def versus (f : α → Option α) (stage : Update α ε) (writes : List α) (value : α) : Threads α ε :=
  ⟨value, [⟨[.update (.pure f)], stage, []⟩, .ready (writes.map fun x => .access (.store x))]⟩

/-- A step of the first of two threads. -/
theorem reaches_first {thread after other : Thread α ε} {value left : α}
    (hstep : thread.step false value = some (after, left)) :
    (machine ε).Reaches ⟨value, [thread, other]⟩ ⟨left, [after, other]⟩ :=
  (Thread.alone_of_step 0 hstep).reaches rfl

/-- The second of two threads makes its next write. -/
theorem reaches_store (thread : Thread α ε) (x value : α) (writes : List α) :
    (machine ε).Reaches
      ⟨value, [thread, .ready ((x :: writes).map fun x => .access (.store x))]⟩
      ⟨x, [thread, .ready (writes.map fun x => .access (.store x))]⟩ :=
  (Thread.alone_of_step 1 rfl).reaches rfl

/-- The second of two threads makes the write of one round, if there is one. -/
theorem reaches_write (thread : Thread α ε) (write : Option α) (value : α) :
    (machine ε).Reaches
      ⟨value, [thread, .ready (write.toList.map fun x => .access (.store x))]⟩
      ⟨write.getD value, [thread, .ready []]⟩ := by
  cases write with
  | none => exact .refl _
  | some x => exact reaches_store thread x value []

/-- The exchange of an update that finds another value has its rule asked about that. -/
theorem step_swap_of_ne {rule : Rule α ε} {seen next value : α} (hne : value ≠ seen) :
    step rule false (.swap seen next) value = some (consider rule value, value) := by
  rcases Access.exchangeWeak_cases false seen next value with ⟨hsame, -⟩ | ⟨-, hperform⟩
  · exact absurd hsame hne
  · simp only [step, hperform]

/-- An update whose rule has an answer to the value that is there has an exchange to try next. -/
theorem reaches_plan {f : α → Option α} {stage : Update α ε} {start next : α}
    (hasks : step (.pure f) false stage start = some (consider (.pure f) start, start))
    (hrule : f start = some next) (other : Thread α ε) :
    (machine ε).Reaches ⟨start, [⟨[.update (.pure f)], stage, []⟩, other]⟩
      ⟨start, [⟨[.update (.pure f)], .swap start next, []⟩, other]⟩ := by
  refine reaches_first ?_
  simp only [Thread.step, hasks, consider, Rule.pure, hrule]

/-- The exchange of an update that finds the value that its rule was asked about ends it. -/
theorem reaches_commit (rule : Rule α ε) (seen next : α) (other : Thread α ε) :
    (machine ε).Reaches ⟨seen, [⟨[.update rule], .swap seen next, []⟩, other]⟩
      ⟨next, [⟨[], .fetch, [.ok seen]⟩, other]⟩ := by
  have hperform : (Access.exchangeWeak seen next).perform false seen = (.ok seen, next) :=
    if_pos ⟨rfl, rfl⟩
  refine reaches_first ?_
  simp only [Thread.step, step, hperform]

/-- What comes of an update, comes of it by steps of the two threads. From where the update is
about to ask about the value that is there, it gets to its end while the other thread makes its
writes up to then. -/
theorem Contested.reaches {f : α → Option α} {writes : List (Option α)} {start : α}
    {outcome : Outcome α ε} (h : Contested f writes start outcome) {result : Except α α}
    (hresult : outcome.result = some (.ok result)) {stage : Update α ε}
    (hasks : step (.pure f) false stage start = some (consider (.pure f) start, start)) :
    (machine ε).Reaches (versus f stage (writes.take outcome.seen.length).reduceOption start)
      ⟨outcome.value, [⟨[], .fetch, [result]⟩, .ready []]⟩ := by
  induction h generalizing stage with
  | @decline writes start hrule =>
    cases hresult
    have hstep : Thread.step false ⟨[.update (.pure f)], stage, []⟩ start =
        some (⟨[], .fetch, [.error start]⟩, start) := by
      simp only [Thread.step, hasks, consider, Rule.pure, hrule]
    refine (reaches_first hstep).trans ?_
    rw [List.length_singleton, reduceOption_take_one]
    exact reaches_write _ _ start
  | @swap writes start next hrule hwrite =>
    cases hresult
    have hvalue : writes.head?.join.getD start = start := by
      cases hjoin : writes.head?.join with
      | none => rfl
      | some x => exact hwrite x hjoin
    have hround := reaches_write (⟨[.update (.pure f)], .swap start next, []⟩ : Thread α ε)
      writes.head?.join start
    rw [hvalue, ← reduceOption_take_one] at hround
    exact (reaches_plan hasks hrule _).trans (hround.trans (reaches_commit _ start next _))
  | @retry later start next x outcome hrule hne hlater ih =>
    refine (reaches_plan hasks hrule _).trans ?_
    rw [List.length_cons, List.take_succ_cons, List.reduceOption_cons_of_some]
    exact (reaches_store _ x start _).trans (ih hresult (step_swap_of_ne hne))

/-- The questions of an update are exact. Whatever another thread writes meanwhile, the update
comes to an end, and its function is asked at most once more than there are writes: first about
the value that the cell held, and then about each value that was written while the function had an
answer to another one. If the function has an answer to the last of them, the cell holds that and
the update has succeeded with the last value. If it declines, the update has failed with that
value, and the cell holds what the other thread wrote last, if it wrote at all. The two threads can
make their steps so that this comes of them. -/
theorem retries_exact (f : α → Option α) (writes : List (Option α)) (start : α) :
    let outcome := against (.pure f : Rule α ε) writes start
    let made := (writes.take outcome.seen.length).reduceOption
    outcome.seen.length ≤ writes.reduceOption.length + 1 ∧
      outcome.seen[0]? = some start ∧
      (∀ n seen, outcome.seen[n]? = some seen → ∀ next, outcome.seen[n + 1]? = some next ↔
        (f seen).isSome ∧ writes[n]? = some (some next) ∧ next ≠ seen) ∧
      ∃ last result, outcome.seen.getLast? = some last ∧ outcome.result = some (.ok result) ∧
        ((∃ next, f last = some next ∧ result = .ok last ∧ outcome.value = next) ∨
          (f last = none ∧ result = .error last ∧ outcome.value = made.getLastD start)) ∧
        (machine ε).Reaches (versus f .fetch made start)
          ⟨outcome.value, [⟨[], .fetch, [result]⟩, .ready []]⟩ := by
  intro outcome made
  have h : Contested f writes start outcome := contested_against f writes start
  obtain ⟨last, result, hlast, hresult, hend⟩ := h.ends
  exact ⟨h.seen_length_le, h.seen_zero, fun _ _ => h.seen_succ, last, result, hlast, hresult, hend,
    h.reaches hresult rfl⟩

/-- A write of the value that is there already goes unnoticed, and after the last question no write
is made. -/
example :
    (against (.pure fun seen => if seen < 7#8 then some (seen + 1#8) else none : Rule _ Empty)
      [some 5#8, some 5#8, some 9#8] 3#8).seen = [3#8, 5#8] := by
  decide

end Update

end WordSync.Cell
