import WordSync.Proofs.Recording

/-!
# One machine doing the work of another

A step of one machine may take another machine several steps, or none. As long as the thread
that makes them is not interrupted, the other threads cannot tell the difference. `Alone`
relates what one thread and the shared state are before and after such steps, and
`Reaches.simulate` carries a whole run over when every single step can be carried over. Where
each step of the one is just a step of the other, seen differently, their recorded runs
correspond to each other.
-/

namespace WordSync

/-- A pool with another view of every thread. -/
def Pool.map {σ τ τ' : Type} (view : τ → τ') (pool : Pool σ τ) : Pool σ τ' :=
  ⟨pool.shared, pool.threads.map view⟩

/-- A view that changes no thread changes nothing. -/
theorem Pool.map_eq_self {σ τ : Type} {view : τ → τ} {pool : Pool σ τ}
    (h : ∀ thread ∈ pool.threads, view thread = thread) : pool.map view = pool := by
  obtain ⟨shared, threads⟩ := pool
  simp only [map, Pool.mk.injEq, true_and]
  exact (List.map_congr_left h).trans (List.map_id threads)

/-- A moment with another view of the thread. -/
def Moment.map {γ σ τ τ' : Type} (view : τ → τ') (e : Moment γ σ τ) : Moment γ σ τ' :=
  ⟨e.circumstance, e.number, view e.before, e.found, view e.after, e.left⟩

namespace Machine

variable {γ γ' σ τ τ' : Type}

/-- `m.Alone i p q` if some steps of thread `i`, without a step of another thread among them,
lead from `p` to `q`. Both are the thread and the shared state. -/
inductive Alone (m : Machine γ σ τ) (i : Nat) (p : τ × σ) : τ × σ → Prop where
  /-- No step at all. -/
  | refl : Alone m i p p
  /-- One more step. -/
  | tail {q r : τ × σ} (c : γ) (halone : Alone m i p q) (hstep : m.step c i q.1 q.2 = some r) :
      Alone m i p r

namespace Alone

variable {m : Machine γ σ τ} {i : Nat} {p q r : τ × σ}

/-- A single step. -/
theorem step (c : γ) (h : m.step c i p.1 p.2 = some q) : m.Alone i p q := refl.tail c h

/-- One sequence of steps after the other. -/
theorem trans (hpq : m.Alone i p q) (hqr : m.Alone i q r) : m.Alone i p r := by
  induction hqr with
  | refl => exact hpq
  | tail c _ hstep ih => exact ih.tail c hstep

/-- Steps of one thread are a run of every pool in which that thread is. -/
theorem reaches (h : m.Alone i p q) {threads : List τ} (hi : threads[i]? = some p.1) :
    m.Reaches ⟨p.2, threads⟩ ⟨q.2, threads.set i q.1⟩ := by
  obtain ⟨hlt, hget⟩ := List.getElem?_eq_some_iff.mp hi
  induction h with
  | refl =>
    rw [← hget, List.set_getElem_self]
    exact .refl _
  | @tail q r c _ hstep ih =>
    refine ih.tail c i (advance_eq_some_iff.mpr ⟨q.1, r.1, r.2, ?_, hstep, ?_⟩)
    · exact List.getElem?_set_self hlt
    · simp only [List.set_set]

end Alone

/-- If every step of one machine can be carried over to steps of the same thread in another,
then so can every run. `view` is what the other machine has for a thread, and `Fit` is what the
threads have that makes the steps fit. -/
theorem Reaches.simulate {m : Machine γ σ τ} {m' : Machine γ' σ τ'} {view : τ → τ'}
    {Fit : τ → Prop}
    (hsim : ∀ c i t s t' s', Fit t → m.step c i t s = some (t', s') →
      Fit t' ∧ m'.Alone i (view t, s) (view t', s'))
    {p q : Pool σ τ} (h : m.Reaches p q) (hfit : ∀ t ∈ p.threads, Fit t) :
    (∀ t ∈ q.threads, Fit t) ∧ m'.Reaches (p.map view) (q.map view) := by
  induction h with
  | refl => exact ⟨hfit, .refl _⟩
  | @tail q r c i _ hstep ih =>
    obtain ⟨hthreads, hreach⟩ := ih
    obtain ⟨before, after, shared, hi, hmove, rfl⟩ := advance_eq_some_iff.mp hstep
    obtain ⟨hafter, halone⟩ := hsim c i _ _ _ _ (hthreads before (List.mem_of_getElem? hi)) hmove
    refine ⟨Pool.forall_mem_set hthreads hafter, ?_⟩
    have hview : (q.threads.map view)[i]? = some (view before) := by
      rw [List.getElem?_map, hi]
      rfl
    have hsteps := halone.reaches hview
    simp only [← List.map_set] at hsteps
    exact hreach.trans hsteps

section Lockstep

variable {m : Machine γ σ τ} {m' : Machine γ σ τ'} {view : τ → τ'} {Fit : τ → Prop}
  {p q : Pool σ τ} {log : List (Moment γ σ τ)}

/-- If the steps of one machine are those of another, seen differently, then so are its recorded
runs. `view` is what the other machine has for a thread, and `Fit` is what the threads have that
makes the steps the same. -/
theorem Recorded.map
    (hsame : ∀ c i t s, Fit t → m'.step c i (view t) s = (m.step c i t s).map (Prod.map view id))
    (hkeep : ∀ c i t s t' s', m.step c i t s = some (t', s') → Fit t → Fit t')
    (h : m.Recorded p log q) (hfit : ∀ t ∈ p.threads, Fit t) :
    m'.Recorded (p.map view) (log.map (Moment.map view)) (q.map view) := by
  induction h with
  | nil => exact .nil
  | @snoc log q e hlog hthread hfound hstep ih =>
    have hbefore := (hlog.keeps hfit hkeep).1 e.before (List.mem_of_getElem? hthread)
    have hview : (q.map view).threads[e.number]? = some (view e.before) := by
      rw [Pool.map, List.getElem?_map, hthread]
      rfl
    have hnext := ih.snoc (Moment.map view e) hview hfound
      (by simp only [Moment.map, hsame _ _ _ _ hbefore, hstep]; rfl)
    simpa only [Pool.map, Moment.map, List.map_set, List.map_append, List.map_cons,
      List.map_nil] using hnext

/-- The recorded runs of the other machine are no others. -/
theorem Recorded.exists_of_map
    (hsame : ∀ c i t s, Fit t → m'.step c i (view t) s = (m.step c i t s).map (Prod.map view id))
    (hkeep : ∀ c i t s t' s', m.step c i t s = some (t', s') → Fit t → Fit t')
    {log' : List (Moment γ σ τ')} {q' : Pool σ τ'} (h : m'.Recorded (p.map view) log' q')
    (hfit : ∀ t ∈ p.threads, Fit t) :
    ∃ log q, m.Recorded p log q ∧ log.map (Moment.map view) = log' ∧ q.map view = q' := by
  induction h with
  | nil => exact ⟨[], p, .nil, rfl, rfl⟩
  | snoc e hlog hthread hfound hstep ih =>
    obtain ⟨log, q, hrun, rfl, rfl⟩ := ih
    rw [Pool.map, List.getElem?_map, Option.map_eq_some_iff] at hthread
    obtain ⟨before, hi, hbefore⟩ := hthread
    have hfits := (hrun.keeps hfit hkeep).1 before (List.mem_of_getElem? hi)
    rw [← hbefore, hsame _ _ _ _ hfits, Option.map_eq_some_iff] at hstep
    obtain ⟨⟨after, left⟩, hmove, hresult⟩ := hstep
    simp only [Prod.map_apply, id_eq, Prod.mk.injEq] at hresult
    obtain ⟨hafter, rfl⟩ := hresult
    refine ⟨_, _, hrun.snoc ⟨e.circumstance, e.number, before, e.found, after, e.left⟩ hi hfound
      hmove, ?_, ?_⟩
    · simp only [List.map_append, List.map_cons, List.map_nil, Moment.map, hbefore, hafter]
    · simp only [Pool.map, List.map_set, hafter]

end Lockstep

end Machine

end WordSync
