import WordSync.Proofs.Observation

/-!
# Recorded runs

What a statement says about a run may concern all of its steps, one after the other. A recorded
run keeps them in a list, each with its circumstance and with what the thread and the shared
state were before and after it. Every run can be recorded, and what is recorded is a run.
-/

namespace WordSync

/-- One step in a run. -/
structure Moment (γ σ τ : Type) where
  /-- The circumstance of the step. -/
  circumstance : γ
  /-- The number of the thread that made the step. -/
  number : Nat
  /-- The thread before the step. -/
  before : τ
  /-- The shared state that the step found. -/
  found : σ
  /-- The thread after the step. -/
  after : τ
  /-- The shared state that the step left. -/
  left : σ

/-- The threads after a step are the one that made it and the others as they were. -/
theorem Pool.thread_cases {τ : Type} {threads : List τ} {i j : Nat} {after thread : τ}
    (h : (threads.set i after)[j]? = some thread) :
    (j = i ∧ thread = after) ∨ (j ≠ i ∧ threads[j]? = some thread) := by
  rw [List.getElem?_set] at h
  split at h
  · next hij =>
    split at h
    · exact .inl ⟨hij.symm, (Option.some.inj h).symm⟩
    · cases h
  · next hij => exact .inr ⟨Ne.symm hij, h⟩

namespace Machine

variable {γ σ τ : Type}

/-- `m.Recorded p log q` if the steps in `log`, made in this order, lead from `p` to `q`. -/
inductive Recorded (m : Machine γ σ τ) (p : Pool σ τ) :
    List (Moment γ σ τ) → Pool σ τ → Prop where
  /-- No step at all. -/
  | nil : Recorded m p [] p
  /-- One more step of some thread. -/
  | snoc {log : List (Moment γ σ τ)} {q : Pool σ τ} (e : Moment γ σ τ)
      (hlog : Recorded m p log q) (hthread : q.threads[e.number]? = some e.before)
      (hfound : q.shared = e.found)
      (hstep : m.step e.circumstance e.number e.before e.found = some (e.after, e.left)) :
      Recorded m p (log ++ [e]) ⟨e.left, q.threads.set e.number e.after⟩

namespace Recorded

variable {m : Machine γ σ τ} {p q : Pool σ τ} {log : List (Moment γ σ τ)}

/-- What is recorded is a run. -/
theorem reaches (h : m.Recorded p log q) : m.Reaches p q := by
  induction h with
  | nil => exact .refl p
  | snoc e _ hthread hfound hstep ih =>
    rw [← hfound] at hstep
    exact ih.tail e.circumstance e.number
      (advance_eq_some_iff.mpr ⟨_, _, _, hthread, hstep, rfl⟩)

/-- What the threads of a pool have, and every step keeps, the threads have at every moment. -/
theorem keeps {Inv : τ → Prop} (h : m.Recorded p log q) (hstart : ∀ t ∈ p.threads, Inv t)
    (hkeep : ∀ c i t s t' s', m.step c i t s = some (t', s') → Inv t → Inv t') :
    (∀ t ∈ q.threads, Inv t) ∧ ∀ e ∈ log, Inv e.before := by
  induction h with
  | nil => exact ⟨hstart, fun e he => absurd he List.not_mem_nil⟩
  | snoc e hlog hthread _ hstep ih =>
    obtain ⟨hthreads, hbefore⟩ := ih
    have hinv := hthreads e.before (List.mem_of_getElem? hthread)
    refine ⟨Pool.forall_mem_set hthreads (hkeep _ _ _ _ _ _ hstep hinv), ?_⟩
    intro d hd
    rcases List.mem_append.mp hd with hold | hnew
    · exact hbefore d hold
    · rw [List.mem_singleton.mp hnew]
      exact hinv

/-- Every moment of a recorded run is a step of the machine. -/
theorem step_of_mem (h : m.Recorded p log q) {e : Moment γ σ τ} (he : e ∈ log) :
    m.step e.circumstance e.number e.before e.found = some (e.after, e.left) := by
  induction h with
  | nil => exact absurd he List.not_mem_nil
  | snoc d _ _ _ hstep ih =>
    rcases List.mem_append.mp he with hold | hnew
    · exact ih hold
    · rw [List.mem_singleton.mp hnew]
      exact hstep

/-- The steps before a given one lead to the pool that it was made in. -/
theorem exists_before (h : m.Recorded p log q) {e : Moment γ σ τ}
    {earlier later : List (Moment γ σ τ)} (hlog : log = earlier ++ e :: later) :
    ∃ r, m.Recorded p earlier r ∧ r.threads[e.number]? = some e.before ∧ r.shared = e.found := by
  induction h generalizing later with
  | nil => exact absurd hlog.symm (List.append_ne_nil_of_right_ne_nil _ (List.cons_ne_nil _ _))
  | @snoc log q d hrun hthread hfound _ ih =>
    rcases List.eq_nil_or_concat later with rfl | ⟨later, last, rfl⟩
    · obtain ⟨rfl, hlast⟩ := List.append_inj' hlog rfl
      obtain rfl := List.singleton_inj.mp hlast
      exact ⟨q, hrun, hthread, hfound⟩
    · rw [List.concat_eq_append, ← List.cons_append, ← List.append_assoc] at hlog
      exact ih (List.append_inj' hlog rfl).1

/-- One more step in front of a recorded run. -/
theorem cons {e : Moment γ σ τ} (hthread : p.threads[e.number]? = some e.before)
    (hfound : p.shared = e.found)
    (hstep : m.step e.circumstance e.number e.before e.found = some (e.after, e.left))
    (h : m.Recorded ⟨e.left, p.threads.set e.number e.after⟩ log q) :
    m.Recorded p (e :: log) q := by
  induction h with
  | nil =>
    have hfirst : m.Recorded p ([] ++ [e]) ⟨e.left, p.threads.set e.number e.after⟩ :=
      .snoc e .nil hthread hfound hstep
    exact hfirst
  | snoc d _ hthread' hfound' hstep' ih => exact .snoc d ih hthread' hfound' hstep'

end Recorded

/-- Every run can be recorded. -/
theorem Reaches.exists_recorded {m : Machine γ σ τ} {p q : Pool σ τ} (h : m.Reaches p q) :
    ∃ log, m.Recorded p log q := by
  induction h with
  | refl => exact ⟨[], .nil⟩
  | tail c i _ hstep ih =>
    obtain ⟨log, hlog⟩ := ih
    obtain ⟨before, after, left, hthread, hmove, rfl⟩ := advance_eq_some_iff.mp hstep
    exact ⟨_, hlog.snoc ⟨c, i, before, _, after, left⟩ hthread rfl hmove⟩

/-- The record of a given sequence of steps, and the pool after it, if all of them can be
made. -/
def record (m : Machine γ σ τ) :
    List (γ × Nat) → Pool σ τ → Option (List (Moment γ σ τ) × Pool σ τ)
  | [], pool => some ([], pool)
  | (c, i) :: rest, pool =>
    match pool.threads[i]? with
    | none => none
    | some before =>
      match m.step c i before pool.shared with
      | none => none
      | some (after, left) =>
        match m.record rest ⟨left, pool.threads.set i after⟩ with
        | none => none
        | some (log, last) => some (⟨c, i, before, pool.shared, after, left⟩ :: log, last)

/-- The record of a given sequence of steps is that of a run. -/
theorem recorded_of_record {m : Machine γ σ τ} (steps : List (γ × Nat)) {p q : Pool σ τ}
    {log : List (Moment γ σ τ)} (h : m.record steps p = some (log, q)) :
    m.Recorded p log q := by
  induction steps generalizing p log with
  | nil =>
    cases h
    exact .nil
  | cons step rest ih =>
    obtain ⟨c, i⟩ := step
    unfold record at h
    cases hthread : p.threads[i]? with
    | none => simp only [hthread, reduceCtorEq] at h
    | some before =>
      simp only [hthread] at h
      cases hstep : m.step c i before p.shared with
      | none => simp only [hstep, reduceCtorEq] at h
      | some result =>
        obtain ⟨after, left⟩ := result
        simp only [hstep] at h
        cases hrest : m.record rest ⟨left, p.threads.set i after⟩ with
        | none => simp only [hrest, reduceCtorEq] at h
        | some result =>
          obtain ⟨later, last⟩ := result
          simp only [hrest, Option.some.injEq, Prod.mk.injEq] at h
          obtain ⟨rfl, rfl⟩ := h
          exact Recorded.cons hthread rfl hstep (ih hrest)

end Machine

end WordSync
