import WordSync.Pool

/-!
# Observed runs

What has happened in a run is often not to be seen in its last pool. An observer keeps notes
beside the shared state: it sees each step, and no thread sees the notes. Observation changes
nothing about the runs, which `observed_reaches` and `Reaches.exists_observed` state in the two
directions.

`ReachesWithin` relates a pool to those that some order of steps leads to through pools which
all meet a condition, such as a bound on what has been noted.
-/

namespace WordSync

/-- What all threads have, and the thread that makes a step has after it, all threads have after
it. -/
theorem Pool.forall_mem_set {τ : Type} {threads : List τ} {P : τ → Prop}
    (h : ∀ thread ∈ threads, P thread) {i : Nat} {after : τ} (hafter : P after) :
    ∀ thread ∈ threads.set i after, P thread := by
  intro thread hthread
  rcases List.mem_or_eq_of_mem_set hthread with hold | rfl
  · exact h thread hold
  · exact hafter

namespace Machine

variable {γ σ τ α : Type}

/-- A step of thread `i` replaces that thread and the shared state, and nothing else. -/
theorem advance_eq_some_iff {m : Machine γ σ τ} {c : γ} {i : Nat} {p q : Pool σ τ} :
    m.advance c i p = some q ↔ ∃ before after shared, p.threads[i]? = some before ∧
      m.step c i before p.shared = some (after, shared) ∧ q = ⟨shared, p.threads.set i after⟩ := by
  constructor
  · intro h
    unfold advance at h
    cases hi : p.threads[i]? with
    | none => simp only [hi, reduceCtorEq] at h
    | some before =>
      simp only [hi] at h
      cases hstep : m.step c i before p.shared with
      | none => simp only [hstep, reduceCtorEq] at h
      | some result =>
        obtain ⟨after, shared⟩ := result
        simp only [hstep, Option.some.injEq] at h
        exact ⟨before, after, shared, rfl, hstep, h.symm⟩
  · rintro ⟨before, after, shared, hi, hstep, rfl⟩
    simp only [advance, hi, hstep]

/-- A step of a pool with one thread is a step of that thread. -/
theorem exists_step_of_single {m : Machine γ σ τ} {c : γ} {i : Nat} {shared : σ} {thread : τ}
    {next : Pool σ τ} (h : m.advance c i ⟨shared, [thread]⟩ = some next) :
    ∃ after left, m.step c i thread shared = some (after, left) ∧ next = ⟨left, [after]⟩ := by
  obtain ⟨before, after, left, hthread, hstep, rfl⟩ := advance_eq_some_iff.mp h
  obtain ⟨hi, rfl⟩ := List.getElem?_eq_some_iff.mp hthread
  obtain rfl := Nat.lt_one_iff.mp hi
  exact ⟨after, left, hstep, rfl⟩

/-- No step makes or ends a thread. -/
theorem Reaches.length_eq {m : Machine γ σ τ} {p q : Pool σ τ} (h : m.Reaches p q) :
    q.threads.length = p.threads.length := by
  induction h with
  | refl => rfl
  | tail c i _ hstep ih =>
    obtain ⟨before, after, shared, -, -, rfl⟩ := advance_eq_some_iff.mp hstep
    rw [List.length_set, ih]

/-- A given sequence of steps is one of the orders that `Reaches` ranges over. -/
theorem run_reaches {m : Machine γ σ τ} (steps : List (γ × Nat)) {p q : Pool σ τ}
    (h : m.run steps p = some q) : m.Reaches p q := by
  induction steps generalizing p with
  | nil =>
    cases h
    exact .refl _
  | cons step rest ih =>
    obtain ⟨c, i⟩ := step
    unfold run at h
    cases hstep : m.advance c i p with
    | none => simp only [hstep, reduceCtorEq] at h
    | some next =>
      simp only [hstep] at h
      exact ((Reaches.refl p).tail c i hstep).trans (ih h)

/-- A given sequence of steps begins with the first of them. -/
theorem run_cons {m : Machine γ σ τ} {c : γ} {i : Nat} {p q : Pool σ τ}
    (h : m.advance c i p = some q) (rest : List (γ × Nat)) :
    m.run ((c, i) :: rest) p = m.run rest q := by
  simp only [run, h]

/-- `m.ReachesWithin P p q` if some sequence of steps leads from `p` to `q` through pools that
all meet `P`, with `p` and `q` among them. -/
inductive ReachesWithin (m : Machine γ σ τ) (P : Pool σ τ → Prop) (p : Pool σ τ) :
    Pool σ τ → Prop where
  /-- No step at all. -/
  | refl (hp : P p) : ReachesWithin m P p p
  /-- One more step of some thread. -/
  | tail {q r : Pool σ τ} (c : γ) (i : Nat) (hreach : ReachesWithin m P p q)
      (hstep : m.advance c i q = some r) (hr : P r) : ReachesWithin m P p r

namespace ReachesWithin

variable {m : Machine γ σ τ} {P : Pool σ τ → Prop} {p q : Pool σ τ}

/-- The last pool meets the condition as all others do. -/
theorem meets (h : m.ReachesWithin P p q) : P q := by
  cases h with
  | refl hp => exact hp
  | tail _ _ _ _ hr => exact hr

/-- A run under a condition is a run. -/
theorem reaches (h : m.ReachesWithin P p q) : m.Reaches p q := by
  induction h with
  | refl => exact .refl p
  | tail c i _ hstep _ ih => exact ih.tail c i hstep

/-- What holds at the start of a run and is kept by each of its steps holds at its end. A step
may count on the condition before and after it. -/
theorem keeps {Inv : Pool σ τ → Prop} (h : m.ReachesWithin P p q) (hstart : Inv p)
    (hkeep : ∀ c i r s, P r → Inv r → m.advance c i r = some s → P s → Inv s) : Inv q := by
  induction h with
  | refl => exact hstart
  | tail c i hreach hstep hr ih => exact hkeep c i _ _ hreach.meets ih hstep hr

end ReachesWithin

/-- The machine in which thread `i` makes no step. -/
def without (m : Machine γ σ τ) (i : Nat) : Machine γ σ τ where
  step c j thread shared := if j = i then none else m.step c j thread shared

/-- A step without thread `i` is a step of another thread. -/
theorem advance_of_without {m : Machine γ σ τ} {c : γ} {i j : Nat} {p q : Pool σ τ}
    (h : (m.without i).advance c j p = some q) : j ≠ i ∧ m.advance c j p = some q := by
  obtain ⟨before, after, shared, hj, hstep, rfl⟩ := advance_eq_some_iff.mp h
  simp only [without] at hstep
  split at hstep
  · cases hstep
  · next hother =>
    exact ⟨hother, advance_eq_some_iff.mpr ⟨before, after, shared, hj, hstep, rfl⟩⟩

/-- A run without thread `i` is a run, and leaves that thread as it is. -/
theorem ReachesWithin.of_without {m : Machine γ σ τ} {P : Pool σ τ → Prop} {i : Nat}
    {p q : Pool σ τ} (h : (m.without i).ReachesWithin P p q) :
    m.ReachesWithin P p q ∧ q.threads[i]? = p.threads[i]? := by
  induction h with
  | refl hp => exact ⟨.refl hp, rfl⟩
  | tail c j _ hstep hr ih =>
    obtain ⟨hreach, hthread⟩ := ih
    obtain ⟨hother, hmove⟩ := advance_of_without hstep
    refine ⟨hreach.tail c j hmove hr, ?_⟩
    obtain ⟨before, after, shared, -, -, rfl⟩ := advance_eq_some_iff.mp hmove
    rw [List.getElem?_set_ne hother, hthread]

/-- The pool after a given sequence of steps, if all of them can be made and every pool on the
way meets the condition. -/
def runWithin (m : Machine γ σ τ) (P : Pool σ τ → Prop) [DecidablePred P] :
    List (γ × Nat) → Pool σ τ → Option (Pool σ τ)
  | [], pool => if P pool then some pool else none
  | (c, i) :: rest, pool =>
    if P pool then
      match m.advance c i pool with
      | none => none
      | some next => m.runWithin P rest next
    else none

/-- One more step in front of a run under a condition. -/
theorem ReachesWithin.head {m : Machine γ σ τ} {P : Pool σ τ → Prop} {p q r : Pool σ τ} (c : γ)
    (i : Nat) (hp : P p) (hstep : m.advance c i p = some q) (hreach : m.ReachesWithin P q r) :
    m.ReachesWithin P p r := by
  induction hreach with
  | refl hq => exact (ReachesWithin.refl hp).tail c i hstep hq
  | tail c' i' _ hstep' hr ih => exact ih.tail c' i' hstep' hr

/-- A given sequence of steps is one of the orders that `ReachesWithin` ranges over. -/
theorem runWithin_reaches {m : Machine γ σ τ} {P : Pool σ τ → Prop} [DecidablePred P]
    (steps : List (γ × Nat)) {p q : Pool σ τ} (h : m.runWithin P steps p = some q) :
    m.ReachesWithin P p q := by
  induction steps generalizing p with
  | nil =>
    unfold runWithin at h
    split at h
    · next hp =>
      cases h
      exact .refl hp
    · cases h
  | cons step rest ih =>
    obtain ⟨c, i⟩ := step
    unfold runWithin at h
    split at h
    · next hp =>
      cases hstep : m.advance c i p with
      | none => simp only [hstep, reduceCtorEq] at h
      | some next =>
        simp only [hstep] at h
        exact (ih h).head c i hp hstep
    · cases h

end Machine

/-- What an observer adds to its notes at a step. It sees the number of the thread, and the
thread and the shared state before and after the step. -/
abbrev Observer (σ τ α : Type) := Nat → τ × σ → τ × σ → α → α

/-- The machine under observation. The notes are kept beside the shared state. -/
def Machine.observed {γ σ τ α : Type} (m : Machine γ σ τ) (note : Observer σ τ α) :
    Machine γ (σ × α) τ where
  step c i before shared :=
    match m.step c i before shared.1 with
    | none => none
    | some (after, state) =>
      some (after, state, note i (before, shared.1) (after, state) shared.2)

/-- A pool with the notes of an observer. -/
def Pool.noted {σ τ α : Type} (pool : Pool σ τ) (notes : α) : Pool (σ × α) τ :=
  ⟨(pool.shared, notes), pool.threads⟩

/-- A pool without the notes of an observer. -/
def Pool.unnoted {σ τ α : Type} (pool : Pool (σ × α) τ) : Pool σ τ :=
  ⟨pool.shared.1, pool.threads⟩

namespace Machine

variable {γ σ τ α : Type}

/-- A step of a thread under observation is a step of the thread. -/
theorem step_of_observed {m : Machine γ σ τ} {note : Observer σ τ α} {c : γ} {i : Nat}
    {before after : τ} {found left : σ × α}
    (h : (m.observed note).step c i before found = some (after, left)) :
    m.step c i before found.1 = some (after, left.1) := by
  cases hstep : m.step c i before found.1 with
  | none => simp only [observed, hstep, reduceCtorEq] at h
  | some result =>
    simp only [observed, hstep, Option.some.injEq, Prod.mk.injEq] at h
    obtain ⟨rfl, rfl⟩ := h
    rfl

/-- A step under observation is a step of the machine and an entry in the notes. -/
theorem observed_advance_eq_some_iff {m : Machine γ σ τ} {note : Observer σ τ α} {c : γ}
    {i : Nat} {p q : Pool (σ × α) τ} :
    (m.observed note).advance c i p = some q ↔ ∃ before after state,
      p.threads[i]? = some before ∧ m.step c i before p.shared.1 = some (after, state) ∧
      q = ⟨(state, note i (before, p.shared.1) (after, state) p.shared.2),
        p.threads.set i after⟩ := by
  rw [advance_eq_some_iff]
  constructor
  · rintro ⟨before, after, shared, hi, hstep, rfl⟩
    cases h : m.step c i before p.shared.1 with
    | none => simp only [observed, h, reduceCtorEq] at hstep
    | some result =>
      obtain ⟨after', state⟩ := result
      simp only [observed, h, Option.some.injEq, Prod.mk.injEq] at hstep
      obtain ⟨rfl, rfl⟩ := hstep
      exact ⟨before, after', state, hi, h, rfl⟩
  · rintro ⟨before, after, state, hi, hstep, rfl⟩
    exact ⟨before, after, _, hi, by simp only [observed, hstep], rfl⟩

/-- An observed run is a run. -/
theorem observed_reaches {m : Machine γ σ τ} {note : Observer σ τ α} {p q : Pool (σ × α) τ}
    (h : (m.observed note).Reaches p q) : m.Reaches p.unnoted q.unnoted := by
  induction h with
  | refl => exact .refl _
  | tail c i _ hstep ih =>
    obtain ⟨before, after, state, hi, hmove, rfl⟩ := observed_advance_eq_some_iff.mp hstep
    exact ih.tail c i (advance_eq_some_iff.mpr ⟨before, after, state, hi, hmove, rfl⟩)

/-- Every run can be observed. -/
theorem Reaches.exists_observed {m : Machine γ σ τ} (note : Observer σ τ α) (start : α)
    {p q : Pool σ τ} (h : m.Reaches p q) :
    ∃ notes, (m.observed note).Reaches (p.noted start) (q.noted notes) := by
  induction h with
  | refl => exact ⟨start, .refl _⟩
  | tail c i _ hstep ih =>
    obtain ⟨notes, hreach⟩ := ih
    obtain ⟨before, after, state, hi, hmove, rfl⟩ := advance_eq_some_iff.mp hstep
    exact ⟨_, hreach.tail c i
      (observed_advance_eq_some_iff.mpr ⟨before, after, state, hi, hmove, rfl⟩)⟩

end Machine

end WordSync
