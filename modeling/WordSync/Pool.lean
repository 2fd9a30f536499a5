/-!
# Pools of threads

Threads that work on one shared state, and the runs that arise when their steps are mixed in
any order. A machine says what one step of a thread does; `Reaches` relates a pool to every
pool that some order of steps leads to. `sweep` and `settle` run one such order, in which every
thread that can move moves once in turn, so `settle_reaches` makes what they compute an
instance of what holds for all orders.
-/

namespace WordSync

/-- What one step of a thread does. It sees the circumstance `γ`, its own number, its own state
`τ` and the shared state `σ`; a thread that has finished or is blocked has no step. -/
structure Machine (γ σ τ : Type) where
  /-- The thread and the shared state after the step. -/
  step : γ → Nat → τ → σ → Option (τ × σ)

/-- Threads and the state that they share. -/
structure Pool (σ τ : Type) where
  /-- The shared state. -/
  shared : σ
  /-- The threads, each with its own state. -/
  threads : List τ
  deriving DecidableEq

namespace Machine

variable {γ σ τ : Type}

/-- The pool after thread `i` has made a step. -/
def advance (m : Machine γ σ τ) (c : γ) (i : Nat) (pool : Pool σ τ) : Option (Pool σ τ) :=
  match pool.threads[i]? with
  | none => none
  | some thread =>
    match m.step c i thread pool.shared with
    | none => none
    | some (thread, shared) => some ⟨shared, pool.threads.set i thread⟩

/-- `m.Reaches p q` if some sequence of steps leads from `p` to `q`. -/
inductive Reaches (m : Machine γ σ τ) : Pool σ τ → Pool σ τ → Prop where
  /-- No step at all. -/
  | refl (p : Pool σ τ) : Reaches m p p
  /-- One more step of some thread. -/
  | tail {p q r : Pool σ τ} (c : γ) (i : Nat) (hreach : Reaches m p q)
      (hstep : m.advance c i q = some r) : Reaches m p r

/-- Runs can be put one behind the other. -/
theorem Reaches.trans {m : Machine γ σ τ} {p q r : Pool σ τ} (hpq : m.Reaches p q)
    (hqr : m.Reaches q r) : m.Reaches p r := by
  induction hqr with
  | refl => exact hpq
  | tail c i _ hstep ih => exact ih.tail c i hstep

/-- The pool after a given sequence of steps, if all of them can be made. -/
def run (m : Machine γ σ τ) : List (γ × Nat) → Pool σ τ → Option (Pool σ τ)
  | [], pool => some pool
  | (c, i) :: rest, pool =>
    match m.advance c i pool with
    | none => none
    | some pool => m.run rest pool

/-- Let the threads `i`, `i + 1`, … make one step each, as far as they can. The flag says
whether any of them moved. -/
def sweepFrom (m : Machine γ σ τ) (c : γ) (i : Nat) : Nat → Pool σ τ → Pool σ τ × Bool
  | 0, pool => (pool, false)
  | n + 1, pool =>
    match m.advance c i pool with
    | none => m.sweepFrom c (i + 1) n pool
    | some pool => ((m.sweepFrom c (i + 1) n pool).1, true)

/-- Let every thread make one step in turn, as far as it can. -/
def sweep (m : Machine γ σ τ) (c : γ) (pool : Pool σ τ) : Pool σ τ × Bool :=
  m.sweepFrom c 0 pool.threads.length pool

/-- A number of sweeps in a row, and how many of them found no thread that could move. -/
def sweeps (m : Machine γ σ τ) (c : γ) : Nat → Pool σ τ → Pool σ τ × Nat
  | 0, pool => (pool, 0)
  | n + 1, pool =>
    match m.sweep c pool with
    | (pool, true) => m.sweeps c n pool
    | (pool, false) => (pool, n + 1)

/-- Sweep until no thread moves, at most `n` times. When no thread can move under the usual
circumstance, the other one is tried, and after it the usual one again. -/
def settle (m : Machine γ σ τ) (usual : γ) (other : Option γ) : Nat → Pool σ τ → Pool σ τ
  | 0, pool => pool
  | n + 1, pool =>
    match m.sweep usual pool with
    | (pool, true) => m.settle usual other n pool
    | (pool, false) =>
      match other with
      | none => pool
      | some c =>
        match m.sweep c pool with
        | (pool, true) => m.settle usual other n pool
        | (pool, false) => pool

/-- A sweep is a run. -/
theorem sweepFrom_reaches (m : Machine γ σ τ) (c : γ) (n : Nat) :
    ∀ (i : Nat) (pool : Pool σ τ), m.Reaches pool (m.sweepFrom c i n pool).1 := by
  induction n with
  | zero => exact fun _ pool => .refl pool
  | succ n ih =>
    intro i pool
    simp only [sweepFrom]
    cases hstep : m.advance c i pool with
    | none => exact ih (i + 1) pool
    | some next => exact ((Reaches.refl pool).tail c i hstep).trans (ih (i + 1) next)

/-- A sweep over all threads is a run. -/
theorem sweep_reaches (m : Machine γ σ τ) (c : γ) (pool : Pool σ τ) :
    m.Reaches pool (m.sweep c pool).1 :=
  m.sweepFrom_reaches c _ 0 pool

/-- A number of sweeps is a run. -/
theorem sweeps_reaches (m : Machine γ σ τ) (c : γ) (n : Nat) :
    ∀ pool : Pool σ τ, m.Reaches pool (m.sweeps c n pool).1 := by
  induction n with
  | zero => exact fun pool => .refl pool
  | succ n ih =>
    intro pool
    have hsweep := m.sweep_reaches c pool
    unfold sweeps
    split
    · next next hnext =>
      rw [hnext] at hsweep
      exact hsweep.trans (ih next)
    · next next hnext =>
      rw [hnext] at hsweep
      exact hsweep

/-- Settling is a run: what it computes is what some order of steps leads to. -/
theorem settle_reaches (m : Machine γ σ τ) (usual : γ) (other : Option γ) (n : Nat) :
    ∀ pool : Pool σ τ, m.Reaches pool (m.settle usual other n pool) := by
  induction n with
  | zero => exact fun pool => .refl pool
  | succ n ih =>
    intro pool
    have husual := m.sweep_reaches usual pool
    unfold settle
    split
    · next next hnext =>
      rw [hnext] at husual
      exact husual.trans (ih next)
    · next next hnext =>
      rw [hnext] at husual
      cases other with
      | none => exact husual
      | some c =>
        have hother := m.sweep_reaches c next
        dsimp only
        split
        · next last hlast =>
          rw [hlast] at hother
          exact husual.trans (hother.trans (ih last))
        · next last hlast =>
          rw [hlast] at hother
          exact husual.trans hother

end Machine

end WordSync
