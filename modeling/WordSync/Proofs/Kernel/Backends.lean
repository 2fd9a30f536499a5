import WordSync.Kernel.Condvar
import WordSync.Proofs.Kernel.Posix
import WordSync.Proofs.Kernel.Usage

/-!
# Two semaphores that count alike

The semaphore of the system and the one from a lock and a condition answer all requests as a
number of tokens does: the one through system calls that may be interrupted, with a post for every
token, the other by looking at a number behind a lock and sleeping on a condition. So a thread
that has one of them for itself cannot tell which one it is.
-/

namespace WordSync.Kernel

/-- A step that is made at once is the step of a thread that is alone. -/
theorem stepAlone_of_some {κ π : Type} {kernel : Kernel κ π} {c : Circumstance} {stage : π}
    {semaphore : κ} {result : Progress π × κ}
    (h : kernel.step c 0 stage semaphore = some result) :
    kernel.stepAlone c stage semaphore = some result := by
  rw [stepAlone, h]
  rfl

/-- A thread that is alone and sleeps goes on when its time is over. -/
theorem stepAlone_of_none {κ π : Type} {kernel : Kernel κ π} {c : Circumstance} {stage : π}
    {semaphore : κ} (h : kernel.step c 0 stage semaphore = none) :
    kernel.stepAlone c stage semaphore = kernel.step .expired 0 stage semaphore := by
  rw [stepAlone, h]
  rfl

namespace Posix

/-- A stage that a request comes to that was made when there were `tokens` tokens, with the number
of steps before the last one, and the value of the semaphore. -/
inductive Due (tokens : Nat) : Request → Nat → Stage → Nat → Prop where
  /-- A wait for a token that is there. -/
  | waiting (htokens : 0 < tokens) : Due tokens .wait 0 .waiting tokens
  /-- An attempt. -/
  | trying : Due tokens .tryWait 0 .trying tokens
  /-- A timed wait. -/
  | timing (timeout : Duration) : Due tokens (.timedWait timeout) 1 (.timing timeout) tokens
  /-- A timed wait with its deadline. -/
  | waitingUntil (timeout : Duration) {deadline : Timespec} (hnormal : deadline.Normalized) :
      Due tokens (.timedWait timeout) 0 (.waitingUntil deadline) tokens
  /-- A signal some of whose tokens are there already. -/
  | posting (count : Nat) {left value : Nat} (hvalue : value + left = tokens + count) :
      Due tokens (.signal count) left (.posting left) value

/-- A step that is made at once is the step of a thread that is alone. -/
theorem stepAlone_eq {c : Circumstance} {stage : Stage} {value : Nat}
    {result : Progress Stage × Nat} (h : stage.step c value = some result) :
    kernel.stepAlone c stage value = some result := stepAlone_of_some h

/-- A system call that takes a token does so if there is one, and otherwise fails; if it is
interrupted, it is made again. -/
theorem nears_of_takes {c : Circumstance} {stage : Stage} {tokens : Nat}
    {Due : Nat → Stage → Nat → Prop} (hchance : c.chance ≠ .expire) (htakes : stage.Takes)
    (hwait : stage = .waiting → 0 < tokens) (hdue : Due 0 stage tokens) :
    Nears Due (decide (0 < tokens)) (tokens - 1) c 0 (kernel.stepAlone c stage tokens) := by
  rcases stage.goes_or_sleeps c tokens with ⟨progress, left, hstep, hgoes⟩ | ⟨hstep, hsleeps⟩
  · rw [stepAlone_eq hstep]
    cases hgoes with
    | take _ hvalue =>
      subst hvalue
      rw [decide_eq_true (Nat.succ_pos left)]
      exact .answered
    | again _ hmishap => exact .back hmishap hdue (Nat.zero_le _)
    | refuse hvalue =>
      subst hvalue
      exact .answered
    | expire _ hexpire => exact absurd hexpire hchance
    | invalid hnormal => exact absurd htakes hnormal
    | time | post | posted | full => exact absurd htakes id
  · have hasleep : kernel.step c 0 stage tokens = none := hstep
    rw [stepAlone_of_none hasleep]
    cases hsleeps with
    | wait => exact absurd (hwait rfl) (Nat.lt_irrefl 0)
    | @timedWait deadline hnormal =>
      -- The time of the sleeper is over.
      have hover : kernel.step .expired 0 (.waitingUntil deadline) 0 =
          some (.answered false, 0) := by
        simp only [kernel, Stage.step, Stage.make, SysCall.perform, if_neg (not_not_intro hnormal)]
        rfl
      rw [hover]
      exact .answered

/-- Every step brings a request nearer to its answer, unless it is interrupted. -/
theorem Due.nears {tokens effort value : Nat} {request : Request} {stage : Stage}
    {c : Circumstance} (h : Due tokens request effort stage value)
    (hroom : (request.count tokens).2 ≤ limit) (hchance : c.chance ≠ .expire) :
    Nears (Due tokens request) (request.count tokens).1 (request.count tokens).2 c effort
      (kernel.stepAlone c stage value) := by
  cases h with
  | waiting htokens => exact nears_of_takes hchance trivial (fun _ => htokens) (.waiting htokens)
  | trying => exact nears_of_takes hchance trivial nofun .trying
  | waitingUntil timeout hnormal =>
    exact nears_of_takes hchance hnormal nofun (.waitingUntil timeout hnormal)
  | timing timeout =>
    rcases Stage.goes_or_sleeps c (.timing timeout) tokens with
      ⟨progress, left, hstep, hgoes⟩ | ⟨-, hsleeps⟩
    · rw [stepAlone_eq hstep]
      cases hgoes with
      | time _ hnormal => exact .nearer (.waitingUntil timeout hnormal) Nat.zero_lt_one
      | take htakes => exact absurd htakes id
      | again htakes => exact absurd htakes id
    · cases hsleeps
  | posting count hvalue =>
    rcases Stage.goes_or_sleeps c (.posting effort) value with
      ⟨progress, left, hstep, hgoes⟩ | ⟨-, hsleeps⟩
    · rw [stepAlone_eq hstep]
      cases hgoes with
      | post left =>
        exact .nearer (.posting count (by omega)) (Nat.lt_succ_self left)
      | posted =>
        have hall : value = ((Request.signal count).count tokens).2 := hvalue
        rw [← hall]
        exact .answered
      | full left hfull =>
        simp only [Request.count] at hroom
        omega
      | take htakes => exact absurd htakes id
      | again htakes => exact absurd htakes id
    · cases hsleeps

/-- The semaphore of the system counts up to its limit. -/
theorem counts : kernel.Counts limit id := by
  constructor
  · intro tokens htokens
    have hargument : ¬argumentLimit ≤ tokens := by
      simp only [limit, argumentLimit] at htokens ⊢
      omega
    simp only [kernel, create, if_neg hargument, if_neg (Nat.not_lt.mpr htokens), id_eq]
  · intro troubles request tokens htroubles hwait htokens hroom
    have hnears {c : Circumstance} {effort value : Nat} {stage : Stage}
        (hchance : c.chance ≠ .expire) (hdue : Due tokens request effort stage value) :=
      hdue.nears hroom hchance
    cases request with
    | wait => exact serveAmid_eq htroubles hnears (.waiting (hwait rfl)) (by decide)
    | tryWait => exact serveAmid_eq htroubles hnears .trying (by decide)
    | timedWait timeout =>
      refine serveAmid_eq htroubles hnears (.timing timeout) ?_
      simp only [Request.effort, Nat.reduceLT]
    | signal count =>
      exact serveAmid_eq htroubles hnears (.posting count rfl) (Nat.lt_add_of_pos_right (by decide))

end Posix

namespace Condvar

/-- A stage that a request comes to that was made when there were `tokens` tokens and nobody slept,
with the number of steps before the last one, and the semaphore. -/
inductive Due (tokens : Nat) : Request → Nat → Stage → Semaphore → Prop where
  /-- A wait for a token that is there. -/
  | waiting (htokens : 0 < tokens) : Due tokens .wait 0 (.looking false) ⟨tokens, []⟩
  /-- An attempt. -/
  | trying : Due tokens .tryWait 0 .trying ⟨tokens, []⟩
  /-- A timed wait that looks for a token. -/
  | looking (timeout : Duration) :
      Due tokens (.timedWait timeout) 2 (.looking true) ⟨tokens, []⟩
  /-- A timed wait that sleeps, as there is no token. -/
  | sleeping (timeout : Duration) (htokens : tokens = 0) :
      Due tokens (.timedWait timeout) 1 (.sleeping true) ⟨0, [0]⟩
  /-- A timed wait whose time is over. -/
  | leaving (timeout : Duration) : Due tokens (.timedWait timeout) 0 .leaving ⟨tokens, []⟩
  /-- A signal. -/
  | depositing (count : Nat) : Due tokens (.signal count) 1 (.depositing count) ⟨tokens, []⟩
  /-- A signal whose tokens are there. -/
  | notifying (count : Nat) : Due tokens (.signal count) 0 (.notifying count) ⟨tokens + count, []⟩

/-- A thread that looks for a token and does not wait for one takes it if it is there. -/
theorem take_eq (tokens : Nat) :
    Semaphore.take ⟨tokens, []⟩ = (.answered (decide (0 < tokens)), ⟨tokens - 1, []⟩) := by
  cases tokens <;> rfl

/-- Every step brings a request nearer to its answer, unless a sleeper wakes for no reason. -/
theorem Due.nears {tokens effort : Nat} {request : Request} {stage : Stage} {s : Semaphore}
    {c : Circumstance} (h : Due tokens request effort stage s)
    (hroom : (request.count tokens).2 ≤ limit) (hchance : c.chance ≠ .expire) :
    Nears (Due tokens request) (request.count tokens).1 ⟨(request.count tokens).2, []⟩ c effort
      (kernel.stepAlone c stage s) := by
  cases h with
  | waiting htokens =>
    obtain ⟨tokens, rfl⟩ := Nat.exists_eq_succ_of_ne_zero (Nat.ne_of_gt htokens)
    exact .answered
  | trying =>
    have hstep : kernel.step c 0 .trying ⟨tokens, []⟩ = some _ := congrArg some (take_eq tokens)
    rw [stepAlone_of_some hstep]
    exact .answered
  | looking timeout =>
    cases tokens with
    | zero =>
      have hstep : kernel.step c 0 (.looking true) ⟨0, []⟩ =
          some (.working (.sleeping true), ⟨0, [0]⟩) := by
        simp only [kernel, Stage.step, hchance, and_false, if_false, List.nil_append]
      rw [stepAlone_of_some hstep]
      exact .nearer (.sleeping timeout rfl) (Nat.lt_succ_self 1)
    | succ tokens => exact .answered
  | sleeping timeout htokens =>
    subst htokens
    cases hluck : c.chance with
    | expire => exact absurd hluck hchance
    | mishap =>
      have hstep : kernel.step c 0 (.sleeping true) ⟨0, [0]⟩ =
          some (.working (.looking true), ⟨0, []⟩) := by
        simp only [kernel, Stage.step, hluck, List.mem_singleton, if_true, List.erase_cons_head]
      rw [stepAlone_of_some hstep]
      exact .back hluck (.looking timeout) (Nat.le_refl 2)
    | regular =>
      have hstep : kernel.step c 0 (.sleeping true) ⟨0, [0]⟩ = none := by
        simp only [kernel, Stage.step, hluck, List.mem_singleton, if_true]
      rw [stepAlone_of_none hstep]
      exact .nearer (.leaving timeout) Nat.zero_lt_one
  | leaving timeout =>
    have hstep : kernel.step c 0 .leaving ⟨tokens, []⟩ = some _ := congrArg some (take_eq tokens)
    rw [stepAlone_of_some hstep]
    exact .answered
  | depositing count =>
    cases count with
    | zero => exact .answered
    | succ count =>
      have hstep : kernel.step c 0 (.depositing (count + 1)) ⟨tokens, []⟩ =
          some (.working (.notifying (count + 1)), ⟨tokens + (count + 1), []⟩) := by
        have hfits : tokens + (count + 1) ≤ limit := hroom
        simp only [kernel, Stage.step, Nat.min_eq_right hfits]
      rw [stepAlone_of_some hstep]
      exact .nearer (.notifying (count + 1)) Nat.zero_lt_one
  | notifying count =>
    rcases count with _ | _ | count <;> exact .answered

/-- The semaphore from a lock and a condition counts up to its limit, and nobody sleeps on it
while nobody uses it. -/
theorem counts : kernel.Counts limit fun tokens => ⟨tokens, []⟩ := by
  constructor
  · exact fun _ => rfl
  · intro troubles request tokens htroubles hwait htokens hroom
    have hnears {c : Circumstance} {effort : Nat} {stage : Stage} {s : Semaphore}
        (hchance : c.chance ≠ .expire) (hdue : Due tokens request effort stage s) :=
      hdue.nears hroom hchance
    cases request with
    | wait => exact serveAmid_eq htroubles hnears (.waiting (hwait rfl)) (by decide)
    | tryWait => exact serveAmid_eq htroubles hnears .trying (by decide)
    | timedWait timeout =>
      refine serveAmid_eq htroubles hnears (.looking timeout) ?_
      simp only [Request.effort, Nat.reduceLT]
    | signal count =>
      refine serveAmid_eq htroubles hnears (.depositing count) ?_
      simp only [Request.effort]
      omega

end Condvar

/-- Both semaphores give the answers of a number of tokens to all sensible uses in any order,
however often their system calls are interrupted and their sleepers wake for no reason; neither
fails, and neither has anything to log. -/
theorem backends_agree {initial attempts : Nat} {uses : List Use}
    {troubles troubles' : Nat → Nat → Troubles} (hsensible : Sensible Posix.limit uses initial)
    (hattempts : Posix.limit < attempts) (htroubles : ∀ k j, (troubles k j).Passing)
    (htroubles' : ∀ k j, (troubles' k j).Passing) :
    Posix.kernel.report attempts initial uses troubles =
        (.ok ((tally uses initial).1, (tally uses initial).2), []) ∧
      Condvar.kernel.report attempts initial uses troubles' =
        (.ok ((tally uses initial).1, ⟨(tally uses initial).2, []⟩), []) :=
  ⟨Posix.counts.report_eq htroubles hattempts hsensible,
    (Condvar.counts.mono (by decide)).report_eq htroubles' hattempts hsensible⟩

/-- Uses that find tokens and miss them in all ways. -/
def assortedUses : List Use :=
  [.request .tryWait, .request .tryWait, .request .tryWait, .request (.signal 3), .request .wait,
    .request (.timedWait (.ofNanos 0)), .request .tryWait, .request .tryWait,
    .request (.signal 0), .request (.timedWait (.ofMicros 20)), .request (.signal 4), .drain]

/-- Every request is interrupted more often than the one before. -/
def growingTroubles (k j : Nat) : Troubles := List.replicate (k + j) ⟨.mishap, .zero, 0⟩

theorem backends_agree_interrupted :
    Sensible Posix.limit assortedUses 2 ∧ Posix.limit < 0x80000000 ∧
      (∀ k j, (growingTroubles k j).Passing) ∧
      Posix.kernel.report 0x80000000 2 assortedUses growingTroubles =
        (.ok ([.answered true, .answered true, .answered false, .answered true, .answered true,
          .answered true, .answered true, .answered false, .answered true, .answered false,
          .answered true, .drained 4], 0), []) ∧
      Condvar.kernel.report 0x80000000 2 assortedUses growingTroubles =
        (.ok ([.answered true, .answered true, .answered false, .answered true, .answered true,
          .answered true, .answered true, .answered false, .answered true, .answered false,
          .answered true, .drained 4], ⟨0, []⟩), []) := by
  have hsensible : Sensible Posix.limit assortedUses 2 := by decide
  have hpassing (k j : Nat) : (growingTroubles k j).Passing := by
    intro c hc
    rw [List.eq_of_mem_replicate hc]
    exact nofun
  exact ⟨hsensible, by decide, hpassing,
    backends_agree hsensible (by decide) hpassing hpassing⟩

end WordSync.Kernel
