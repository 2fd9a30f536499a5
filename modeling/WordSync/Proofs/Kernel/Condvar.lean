import Mathlib.Data.List.Nodup
import WordSync.Kernel.Clients
import WordSync.Kernel.Condvar

/-!
# The steps of a semaphore from a lock and a condition

Every step of a request takes a token, finds that there is none, goes to sleep, wakes up, puts
tokens in, or wakes sleepers. `Stage.Goes` lists these cases with what they do to the tokens and
to the sleepers, and `Clients.Course` adds the beginning and the end of a request.
-/

namespace WordSync.Kernel

/-- Whether a request is for a token. -/
def Request.acquires : Request → Bool
  | .signal _ => false
  | _ => true

namespace Condvar

namespace Stage

/-- Whether a stage belongs to a request for a token. -/
def acquires : Stage → Bool
  | .depositing _ => false
  | .notifying _ => false
  | _ => true

/-- Whether a stage takes a token if there is one. -/
def looks : Stage → Bool
  | .trying => true
  | .looking _ => true
  | .leaving => true
  | _ => false

/-- The tokens that a stage puts in. -/
def deposit : Stage → Nat
  | .depositing count => count
  | _ => 0

/-- A stage that takes a token belongs to a request for one. -/
theorem acquires_of_looks {stage : Stage} (h : stage.looks) : stage.acquires := by
  cases stage with
  | depositing count => cases h
  | notifying count => cases h
  | _ => rfl

/-- A stage that takes a token puts none in. -/
theorem deposit_of_looks {stage : Stage} (h : stage.looks) : stage.deposit = 0 := by
  cases stage with
  | depositing count => cases h
  | _ => rfl

/-- The first stage of a request belongs to it. -/
theorem acquires_ofRequest (request : Request) :
    (ofRequest request).acquires = request.acquires := by
  cases request <;> rfl

/-- How a request of thread `i` goes on from a stage, and what it leaves of the semaphore. -/
inductive Goes (i : Nat) (s : Semaphore) : Stage → Progress Stage → Semaphore → Prop where
  /-- It takes a token. -/
  | take {stage : Stage} {tokens : Nat} (hlooks : stage.looks) (htokens : s.tokens = tokens + 1) :
      Goes i s stage (.answered true) ⟨tokens, s.asleep⟩
  /-- It finds no token and gives up. -/
  | refuse {stage : Stage} (hlooks : stage.looks) (htokens : s.tokens = 0) :
      Goes i s stage (.answered false) s
  /-- It finds no token and goes to sleep. -/
  | sleep (timed : Bool) (htokens : s.tokens = 0) :
      Goes i s (.looking timed) (.working (.sleeping timed)) ⟨0, s.asleep ++ [i]⟩
  /-- It wakes by itself or because its time is over, and is about to look again. -/
  | wake {timed : Bool} {stage : Stage} (hasleep : i ∈ s.asleep) (hlooks : stage.looks) :
      Goes i s (.sleeping timed) (.working stage) ⟨s.tokens, s.asleep.erase i⟩
  /-- It has been woken, and is about to look again. -/
  | woken (timed : Bool) (hwoken : i ∉ s.asleep) :
      Goes i s (.sleeping timed) (.working (.looking timed)) s
  /-- It has no token to put in. -/
  | nothing : Goes i s (.depositing 0) (.answered true) s
  /-- It puts tokens in, as far as they fit. -/
  | deposit (count : Nat) :
      Goes i s (.depositing (count + 1)) (.working (.notifying (count + 1)))
        ⟨min limit (s.tokens + (count + 1)), s.asleep⟩
  /-- It wakes one sleeper, if there is any. -/
  | notifyOne (pick : Nat) :
      Goes i s (.notifying 1) (.answered true)
        ⟨s.tokens, s.asleep.eraseIdx (pick % s.asleep.length)⟩
  /-- It wakes all sleepers. -/
  | notifyAll {count : Nat} (hcount : count ≠ 1) :
      Goes i s (.notifying count) (.answered true) ⟨s.tokens, []⟩

/-- A thread that looks for a token and does not wait for one gets it or gives up. -/
theorem goes_take {i : Nat} {stage : Stage} {s s' : Semaphore} {progress : Progress Stage}
    (hlooks : stage.looks) (h : s.take = (progress, s')) : Goes i s stage progress s' := by
  unfold Semaphore.take at h
  cases htokens : s.tokens with
  | zero =>
    simp only [htokens, Prod.mk.injEq] at h
    obtain ⟨rfl, rfl⟩ := h
    exact .refuse hlooks htokens
  | succ tokens =>
    simp only [htokens, Prod.mk.injEq] at h
    obtain ⟨rfl, rfl⟩ := h
    exact .take hlooks htokens

/-- Every step of a request is one of those. -/
theorem goes_of_step {c : Circumstance} {i : Nat} {stage : Stage} {s s' : Semaphore}
    {progress : Progress Stage} (h : stage.step c i s = some (progress, s')) :
    Goes i s stage progress s' := by
  cases stage with
  | trying => exact goes_take rfl (Option.some.inj h)
  | leaving => exact goes_take rfl (Option.some.inj h)
  | looking timed =>
    simp only [step] at h
    cases htokens : s.tokens with
    | succ tokens =>
      simp only [htokens, Option.some.injEq, Prod.mk.injEq] at h
      obtain ⟨rfl, rfl⟩ := h
      exact .take rfl htokens
    | zero =>
      simp only [htokens] at h
      split at h
      · obtain ⟨rfl, rfl⟩ := Prod.mk.inj (Option.some.inj h)
        exact .refuse rfl htokens
      · obtain ⟨rfl, rfl⟩ := Prod.mk.inj (Option.some.inj h)
        exact .sleep timed htokens
  | sleeping timed =>
    simp only [step] at h
    split at h
    · next hasleep =>
      split at h
      · cases h
      · obtain ⟨rfl, rfl⟩ := Prod.mk.inj (Option.some.inj h)
        exact .wake hasleep rfl
      · split at h
        · obtain ⟨rfl, rfl⟩ := Prod.mk.inj (Option.some.inj h)
          exact .wake hasleep rfl
        · cases h
    · next hwoken =>
      obtain ⟨rfl, rfl⟩ := Prod.mk.inj (Option.some.inj h)
      exact .woken timed hwoken
  | depositing count =>
    cases count with
    | zero =>
      obtain ⟨rfl, rfl⟩ := Prod.mk.inj (Option.some.inj h)
      exact .nothing
    | succ count =>
      obtain ⟨rfl, rfl⟩ := Prod.mk.inj (Option.some.inj h)
      exact .deposit count
  | notifying count =>
    rcases count with _ | _ | count
    · obtain ⟨rfl, rfl⟩ := Prod.mk.inj (Option.some.inj h)
      exact .notifyAll (by omega)
    · obtain ⟨rfl, rfl⟩ := Prod.mk.inj (Option.some.inj h)
      exact .notifyOne c.pick
    · obtain ⟨rfl, rfl⟩ := Prod.mk.inj (Option.some.inj h)
      exact .notifyAll (by omega)

namespace Goes

variable {i : Nat} {stage next : Stage} {s s' : Semaphore} {progress : Progress Stage}
  {granted : Bool}

/-- A request that goes on stays what it is. -/
theorem acquires_eq (h : Goes i s stage (.working next) s') : next.acquires = stage.acquires := by
  cases h with
  | sleep => rfl
  | wake hasleep hlooks => exact acquires_of_looks hlooks
  | woken => rfl
  | deposit => rfl

/-- A request that goes on has taken no token. -/
theorem le_tokens (h : Goes i s stage (.working next) s') (hlimit : s.tokens ≤ limit) :
    s.tokens ≤ s'.tokens := by
  cases h with
  | sleep timed htokens => exact Nat.le_of_eq htokens
  | wake => exact Nat.le_refl _
  | woken => exact Nat.le_refl _
  | deposit count => exact Nat.le_min.mpr ⟨hlimit, Nat.le_add_right _ _⟩

/-- A request for a token that is answered with success has just taken one token, and any other
that is answered has taken none. -/
theorem taken_eq (h : Goes i s stage (.answered granted) s') :
    s.tokens - s'.tokens = if stage.acquires && granted then 1 else 0 := by
  cases h with
  | take hlooks htokens =>
    rw [acquires_of_looks hlooks, htokens]
    exact Nat.add_sub_cancel_left _ 1
  | refuse hlooks =>
    rw [acquires_of_looks hlooks]
    exact Nat.sub_self _
  | nothing => exact Nat.sub_self _
  | notifyOne => exact Nat.sub_self _
  | notifyAll => exact Nat.sub_self _

/-- Tokens that fit are not lost. -/
theorem tokens_eq (h : Goes i s stage progress s')
    (hfits : s.tokens + stage.deposit ≤ s.tokens - s'.tokens + limit) :
    s'.tokens + (s.tokens - s'.tokens) = s.tokens + stage.deposit := by
  cases h with
  | take hlooks htokens =>
    have hdeposit := deposit_of_looks hlooks
    simp only
    omega
  | refuse hlooks =>
    have hdeposit := deposit_of_looks hlooks
    omega
  | _ =>
    simp only [Stage.deposit] at hfits ⊢
    omega

/-- No more tokens than fit are there after a step, if there were no more before. -/
theorem tokens_le (h : Goes i s stage progress s') (hlimit : s.tokens ≤ limit) :
    s'.tokens ≤ limit := by
  cases h with
  | take _ htokens =>
    simp only
    omega
  | deposit => exact Nat.min_le_left _ _
  | sleep => exact Nat.zero_le _
  | _ => exact hlimit

/-- Nobody else falls asleep by a step. -/
theorem mem_asleep {j : Nat} (h : Goes i s stage progress s') (hj : j ∈ s'.asleep) (hne : j ≠ i) :
    j ∈ s.asleep := by
  cases h with
  | sleep =>
    rcases List.mem_append.mp hj with hold | hnew
    · exact hold
    · exact absurd (List.mem_singleton.mp hnew) hne
  | wake => exact List.mem_of_mem_erase hj
  | notifyOne => exact List.mem_of_mem_eraseIdx hj
  | notifyAll => exact absurd hj List.not_mem_nil
  | _ => exact hj

/-- A thread that sleeps after a step of its own has gone to sleep in it. -/
theorem sleeps (h : Goes i s stage progress s') (hnodup : s.asleep.Nodup)
    (honly : i ∈ s.asleep → ∃ timed, stage = .sleeping timed) (hi : i ∈ s'.asleep) :
    ∃ timed, progress = .working (.sleeping timed) := by
  -- A thread that slept before has woken by the step.
  have hawake (hold : i ∈ s.asleep) (hother : ∀ timed, stage ≠ .sleeping timed) : False := by
    obtain ⟨timed, htimed⟩ := honly hold
    exact hother timed htimed
  cases h with
  | take hlooks =>
    refine (hawake hi ?_).elim
    rintro timed rfl
    cases hlooks
  | refuse hlooks =>
    refine (hawake hi ?_).elim
    rintro timed rfl
    cases hlooks
  | sleep timed => exact ⟨timed, rfl⟩
  | wake => exact absurd hi hnodup.not_mem_erase
  | woken timed hwoken => exact absurd hi hwoken
  | nothing => exact (hawake hi nofun).elim
  | deposit => exact (hawake hi nofun).elim
  | notifyOne => exact (hawake (List.mem_of_mem_eraseIdx hi) nofun).elim
  | notifyAll => exact absurd hi List.not_mem_nil

/-- No thread is asleep twice. -/
theorem nodup (h : Goes i s stage progress s') (hnodup : s.asleep.Nodup)
    (honly : i ∈ s.asleep → ∃ timed, stage = .sleeping timed) : s'.asleep.Nodup := by
  cases h with
  | sleep =>
    refine List.nodup_append.mpr ⟨hnodup, List.nodup_singleton i, ?_⟩
    rintro j hj _ hi rfl
    obtain rfl := List.mem_singleton.mp hi
    obtain ⟨timed, htimed⟩ := honly hj
    cases htimed
  | wake => exact hnodup.erase i
  | notifyOne => exact hnodup.sublist (List.eraseIdx_sublist _ _)
  | notifyAll => exact List.nodup_nil
  | _ => exact hnodup

end Goes

end Stage

end Condvar

namespace Clients

open Condvar

variable {σ : Type}

/-- What one step of a client does with a semaphore from a lock and a condition. -/
inductive Course (agenda : Agenda σ) (i : Nat) (before : Client σ Stage) (s : Semaphore) :
    Client σ Stage → Semaphore → Prop where
  /-- Begin a request. -/
  | start (request : Request) (resume : Bool → σ) (hidle : before.occupation = .idle)
      (hagenda : agenda before.state = some (request, resume)) :
      Course agenda i before s ⟨before.state, .requesting (.ofRequest request)⟩ s
  /-- Go on with a request. -/
  | work (stage next : Stage) (s' : Semaphore) (hstage : before.occupation = .requesting stage)
      (hgoes : stage.Goes i s (.working next) s') :
      Course agenda i before s ⟨before.state, .requesting next⟩ s'
  /-- Have a request answered. -/
  | answer (stage : Stage) (granted : Bool) (s' : Semaphore)
      (hstage : before.occupation = .requesting stage)
      (hgoes : stage.Goes i s (.answered granted) s') :
      Course agenda i before s ⟨before.state, .answered granted⟩ s'
  /-- Go on from an answer. -/
  | resume (granted : Bool) (request : Request) (resume : Bool → σ)
      (hanswered : before.occupation = .answered granted)
      (hagenda : agenda before.state = some (request, resume)) :
      Course agenda i before s ⟨resume granted, .idle⟩ s

/-- Every step of a client is one of those. -/
theorem course_of_step {agenda : Agenda σ} {c : Circumstance} {i : Nat}
    {before after : Client σ Stage} {s s' : Semaphore}
    (h : step Condvar.kernel agenda c i before s = some (after, s')) :
    Course agenda i before s after s' := by
  obtain ⟨state, occupation⟩ := before
  cases occupation with
  | idle =>
    simp only [step] at h
    cases hagenda : agenda state with
    | none => simp only [hagenda, reduceCtorEq] at h
    | some next =>
      simp only [hagenda, Option.some.injEq, Prod.mk.injEq] at h
      obtain ⟨rfl, rfl⟩ := h
      exact .start next.1 next.2 rfl hagenda
  | requesting stage =>
    simp only [step] at h
    cases hserve : Condvar.kernel.step c i stage s with
    | none => simp only [hserve, reduceCtorEq] at h
    | some result =>
      obtain ⟨progress, left⟩ := result
      simp only [hserve, Option.some.injEq, Prod.mk.injEq] at h
      obtain ⟨rfl, rfl⟩ := h
      have hgoes := Stage.goes_of_step hserve
      cases progress with
      | working next => exact .work stage next left rfl hgoes
      | answered granted => exact .answer stage granted left rfl hgoes
      | broken fault => cases hgoes
  | answered granted =>
    simp only [step] at h
    cases hagenda : agenda state with
    | none => simp only [hagenda, reduceCtorEq] at h
    | some next =>
      simp only [hagenda, Option.some.injEq, Prod.mk.injEq] at h
      obtain ⟨rfl, rfl⟩ := h
      exact .resume granted next.1 next.2 rfl hagenda
  | broken fault => simp only [step, reduceCtorEq] at h

end Clients

end WordSync.Kernel
