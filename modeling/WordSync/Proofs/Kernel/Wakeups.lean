import Mathlib.Data.Finset.Card
import Mathlib.Logic.Function.Basic
import WordSync.Proofs.Kernel.Condvar
import WordSync.Proofs.Recording

/-!
# No wake-up is lost

A signal puts its tokens in first and wakes sleepers afterwards, one of them for one token and all
of them for more. In between other clients may take the tokens, and a sleeper whose time is over
may be the one that is woken. Still no token is left lying while everybody sleeps. As long as
there is a sleeper, either all sleepers are about to be woken, or there is for each token a client
that has been woken and is about to look, or a signal that is about to wake one. Whoever takes a
token makes both sides of this count one smaller at most.
-/

namespace WordSync.Kernel.Condvar

variable {σ : Type}

/-! ## What is noted -/

/-- What is noted of one request. -/
structure Diary where
  /-- Whether it has gone to sleep. -/
  slept : Bool
  /-- The tokens that it has taken. -/
  took : Nat
  deriving DecidableEq

/-- The diary of a client after a step that has taken some tokens. A new request begins a new
one. -/
def Diary.next (diary : Diary) (before after : Occupation Stage) (taken : Nat) : Diary :=
  match before, after with
  | .idle, _ => ⟨false, 0⟩
  | _, .requesting (.sleeping _) => ⟨true, diary.took + taken⟩
  | _, _ => ⟨diary.slept, diary.took + taken⟩

/-- What is noted of a run. -/
structure Notes where
  /-- The tokens that signals have put in. -/
  signalled : Nat
  /-- The tokens that have been taken. -/
  taken : Nat
  /-- The diary of each client about the request that it makes or has made last. -/
  diary : Nat → Diary

/-- The stage of a client that is in a request. -/
def stageOf : Occupation Stage → Option Stage
  | .requesting stage => some stage
  | _ => none

namespace Notes

/-- The notes on a run that has not begun. -/
def empty : Notes := ⟨0, 0, fun _ => ⟨false, 0⟩⟩

/-- The notes after a step of client `i`. -/
def note : Observer Semaphore (Client σ Stage) Notes := fun i before after notes =>
  let taken := before.2.tokens - after.2.tokens
  { signalled := notes.signalled + ((stageOf before.1.occupation).map Stage.deposit).getD 0
    taken := notes.taken + taken
    diary := Function.update notes.diary i
      ((notes.diary i).next before.1.occupation after.1.occupation taken) }

end Notes

/-- The machine of clients with notes on what they do. -/
def watched (agenda : Agenda σ) : Machine Circumstance (Semaphore × Notes) (Client σ Stage) :=
  (Clients.machine kernel agenda).observed Notes.note

/-- Clients with notes on what they have done. -/
abbrev Watched (σ : Type) := Pool (Semaphore × Notes) (Client σ Stage)

namespace Watched

/-- The tokens in the semaphore. -/
def tokens (pool : Watched σ) : Nat := pool.shared.1.tokens

/-- The clients that sleep and have not been woken. -/
def asleep (pool : Watched σ) : List Nat := pool.shared.1.asleep

/-- The notes. -/
def notes (pool : Watched σ) : Notes := pool.shared.2

/-- The stage of the request that a client makes, if it makes one. -/
def stage? (pool : Watched σ) (i : Nat) : Option Stage :=
  pool.threads[i]?.bind fun client => stageOf client.occupation

/-- The clients that have slept and have been woken, and whose request is not over. -/
def woken (pool : Watched σ) : Finset Nat :=
  (Finset.range pool.threads.length).filter fun i =>
    (pool.notes.diary i).slept ∧ i ∉ pool.asleep ∧ (pool.stage? i).isSome

/-- The clients that are about to wake one sleeper. -/
def notifying (pool : Watched σ) : Finset Nat :=
  (Finset.range pool.threads.length).filter fun i => pool.stage? i = some (.notifying 1)

/-- All sleepers are about to be woken, or there is for each token somebody who has been woken or
who is about to wake somebody. -/
def Served (pool : Watched σ) : Prop :=
  (∃ i count, 2 ≤ count ∧ pool.stage? i = some (.notifying count)) ∨
    pool.tokens ≤ pool.woken.card + pool.notifying.card

/-- The tokens that the semaphore began with or that were signalled, less those taken, are no more
than it can hold. -/
def Fits (initial : Nat) (pool : Watched σ) : Prop :=
  initial + pool.notes.signalled ≤ pool.notes.taken + limit

/-- The tokens that the semaphore began with or that were signalled have been taken or are
there. -/
def Conserved (initial : Nat) (pool : Watched σ) : Prop :=
  initial + pool.notes.signalled = pool.notes.taken + pool.tokens

instance (initial : Nat) : DecidablePred (Fits (σ := σ) initial) :=
  fun _ => inferInstanceAs (Decidable (_ ≤ _))

variable {pool : Watched σ} {i j : Nat}

/-- A client that is in a request is one of the clients. -/
theorem lt_length {stage : Stage} (h : pool.stage? i = some stage) : i < pool.threads.length := by
  obtain ⟨client, hi, -⟩ := Option.bind_eq_some_iff.mp h
  exact (List.getElem?_eq_some_iff.mp hi).1

/-- A client has been woken if its request has slept, sleeps no more and is not over. -/
theorem mem_woken : i ∈ pool.woken ↔
    (pool.notes.diary i).slept ∧ i ∉ pool.asleep ∧ ∃ stage, pool.stage? i = some stage := by
  simp only [woken, Finset.mem_filter, Finset.mem_range, Option.isSome_iff_exists]
  exact ⟨fun h => h.2, fun h => ⟨h.2.2.elim fun _ => lt_length, h⟩⟩

/-- A client is about to wake one sleeper if it is at that stage of a signal. -/
theorem mem_notifying : i ∈ pool.notifying ↔ pool.stage? i = some (.notifying 1) := by
  simp only [notifying, Finset.mem_filter, Finset.mem_range]
  exact ⟨fun h => h.2, fun h => ⟨lt_length h, h⟩⟩

/-- The clients after a step of client `i`, with the notes on it. -/
def moved (pool : Watched σ) (i : Nat) (before after : Client σ Stage) (left : Semaphore) :
    Watched σ :=
  ⟨(left, Notes.note i (before, pool.shared.1) (after, left) pool.notes), pool.threads.set i after⟩

variable {before after : Client σ Stage} {left : Semaphore}

/-- Every step of the machine is a step of a client. -/
theorem exists_moved {agenda : Agenda σ} {c : Circumstance} {next : Watched σ}
    (hstep : (watched agenda).advance c i pool = some next) :
    ∃ before after left, pool.threads[i]? = some before ∧
      Clients.Course agenda i before pool.shared.1 after left ∧
      next = pool.moved i before after left := by
  obtain ⟨before, after, left, hi, hmove, rfl⟩ := Machine.observed_advance_eq_some_iff.mp hstep
  exact ⟨before, after, left, hi, Clients.course_of_step hmove, rfl⟩

/-- The stage of a client. -/
theorem stage?_eq (hi : pool.threads[i]? = some before) :
    pool.stage? i = stageOf before.occupation := by
  rw [stage?, hi, Option.bind_some]

/-- The client that makes a step comes to the stage that the step leads to. -/
theorem stage?_moved_self (hi : pool.threads[i]? = some before) :
    (pool.moved i before after left).stage? i = stageOf after.occupation := by
  obtain ⟨hlt, -⟩ := List.getElem?_eq_some_iff.mp hi
  exact stage?_eq (List.getElem?_set_self hlt)

/-- All other clients stay at their stages. -/
theorem stage?_moved_ne (hne : j ≠ i) :
    (pool.moved i before after left).stage? j = pool.stage? j := by
  rw [stage?, moved, List.getElem?_set_ne (Ne.symm hne), stage?]

/-- The step of a client is entered in its diary, with the tokens that it took. -/
theorem diary_moved_self : (pool.moved i before after left).notes.diary i =
    (pool.notes.diary i).next before.occupation after.occupation (pool.tokens - left.tokens) :=
  Function.update_self ..

/-- Nothing is entered in the diaries of the others. -/
theorem diary_moved_ne (hne : j ≠ i) :
    (pool.moved i before after left).notes.diary j = pool.notes.diary j :=
  Function.update_of_ne hne ..

end Watched

/-- A request that has slept after a step has slept before, or has gone to sleep in it. -/
theorem Diary.slept_of_next {diary : Diary} {before after : Occupation Stage} {taken : Nat}
    (h : (diary.next before after taken).slept) :
    diary.slept ∨ ∃ timed, after = .requesting (.sleeping timed) := by
  unfold Diary.next at h
  split at h
  · cases h
  · exact .inr ⟨_, rfl⟩
  · exact .inl h

/-- What a request has taken by a step is added to what it had taken before. -/
theorem Diary.took_next {diary : Diary} {before after : Occupation Stage} {taken : Nat}
    (hbefore : before ≠ .idle) : (diary.next before after taken).took = diary.took + taken := by
  unfold Diary.next
  split
  · exact absurd rfl hbefore
  · rfl
  · rfl

/-- A request that goes to sleep has slept. -/
theorem Diary.slept_next {diary : Diary} {before : Occupation Stage} (hbefore : before ≠ .idle)
    (timed : Bool) (taken : Nat) :
    (diary.next before (.requesting (.sleeping timed)) taken).slept := by
  cases before with
  | idle => exact absurd rfl hbefore
  | _ => rfl

/-! ## Sleepers -/

/-- What is known of sleepers. -/
structure Bedded (pool : Watched σ) : Prop where
  /-- Nobody is asleep twice. -/
  nodup : pool.asleep.Nodup
  /-- Who is asleep has gone to sleep in its request. -/
  sleeping : ∀ i ∈ pool.asleep,
    (∃ timed, pool.stage? i = some (.sleeping timed)) ∧ (pool.notes.diary i).slept
  /-- Only requests for tokens go to sleep. -/
  acquires : ∀ i stage, pool.stage? i = some stage → (pool.notes.diary i).slept → stage.acquires

namespace Bedded

variable {agenda : Agenda σ} {pool : Watched σ} {i : Nat} {before after : Client σ Stage}
  {left : Semaphore}

/-- A client that is asleep is in a request, and sleeps in it. -/
theorem occupation_of_asleep (h : Bedded pool) (hi : pool.threads[i]? = some before)
    (hasleep : i ∈ pool.asleep) :
    ∃ timed, before.occupation = .requesting (.sleeping timed) := by
  obtain ⟨⟨timed, hstage⟩, -⟩ := h.sleeping i hasleep
  rw [Watched.stage?_eq hi] at hstage
  refine ⟨timed, ?_⟩
  cases hoccupation : before.occupation with
  | requesting stage =>
    rw [hoccupation] at hstage
    exact congrArg _ (Option.some.inj hstage)
  | _ =>
    rw [hoccupation] at hstage
    cases hstage

/-- Nobody else falls asleep by a step of a client. -/
theorem mem_asleep_of_ne {j : Nat} {s : Semaphore}
    (hcourse : Clients.Course agenda i before s after left) (hj : j ∈ left.asleep) (hne : j ≠ i) :
    j ∈ s.asleep := by
  cases hcourse with
  | start => exact hj
  | work stage next _ hstage hgoes => exact hgoes.mem_asleep hj hne
  | answer stage granted _ hstage hgoes => exact hgoes.mem_asleep hj hne
  | resume => exact hj

/-- A client that is asleep after its own step has gone to sleep in it. -/
theorem sleeps (h : Bedded pool) (hi : pool.threads[i]? = some before)
    (hcourse : Clients.Course agenda i before pool.shared.1 after left) (hself : i ∈ left.asleep) :
    before.occupation ≠ .idle ∧ ∃ timed, after.occupation = .requesting (.sleeping timed) := by
  have hasleep := h.occupation_of_asleep hi
  cases hcourse with
  | start request resume hidle =>
    obtain ⟨timed, htimed⟩ := hasleep hself
    exact absurd (hidle.symm.trans htimed) nofun
  | work stage next _ hstage hgoes =>
    rw [hstage] at hasleep ⊢
    obtain ⟨timed, htimed⟩ := hgoes.sleeps h.nodup
      (fun hold => (hasleep hold).imp fun _ => Occupation.requesting.inj) hself
    cases htimed
    exact ⟨nofun, timed, rfl⟩
  | answer stage granted _ hstage hgoes =>
    rw [hstage] at hasleep
    obtain ⟨timed, htimed⟩ := hgoes.sleeps h.nodup
      (fun hold => (hasleep hold).imp fun _ => Occupation.requesting.inj) hself
    cases htimed
  | resume granted request resume hanswered =>
    obtain ⟨timed, htimed⟩ := hasleep hself
    exact absurd (hanswered.symm.trans htimed) nofun

/-- Nobody is asleep twice after a step of a client. -/
theorem nodup_left (h : Bedded pool) (hi : pool.threads[i]? = some before)
    (hcourse : Clients.Course agenda i before pool.shared.1 after left) : left.asleep.Nodup := by
  have hasleep := h.occupation_of_asleep hi
  cases hcourse with
  | start => exact h.nodup
  | work stage next _ hstage hgoes =>
    rw [hstage] at hasleep
    exact hgoes.nodup h.nodup fun hold => (hasleep hold).imp fun _ => Occupation.requesting.inj
  | answer stage granted _ hstage hgoes =>
    rw [hstage] at hasleep
    exact hgoes.nodup h.nodup fun hold => (hasleep hold).imp fun _ => Occupation.requesting.inj
  | resume => exact h.nodup

/-- Every step of a client keeps to what is known of sleepers. -/
theorem moved (h : Bedded pool) (hi : pool.threads[i]? = some before)
    (hcourse : Clients.Course agenda i before pool.shared.1 after left) :
    Bedded (pool.moved i before after left) := by
  refine ⟨h.nodup_left hi hcourse, fun j hj => ?_, fun j stage hstage hslept => ?_⟩
  · by_cases hne : j = i
    · subst hne
      obtain ⟨hbefore, timed, hafter⟩ := h.sleeps hi hcourse hj
      rw [Watched.stage?_moved_self hi, Watched.diary_moved_self, hafter]
      exact ⟨⟨timed, rfl⟩, Diary.slept_next hbefore timed _⟩
    · rw [Watched.stage?_moved_ne hne, Watched.diary_moved_ne hne]
      exact h.sleeping j (mem_asleep_of_ne hcourse hj hne)
  · by_cases hne : j = i
    · subst hne
      rw [Watched.stage?_moved_self hi] at hstage
      rw [Watched.diary_moved_self] at hslept
      cases hcourse with
      | start request resume hidle =>
        rw [hidle] at hslept
        cases hslept
      | work was next _ hwas hgoes =>
        obtain rfl : next = stage := Option.some.inj hstage
        rcases Diary.slept_of_next hslept with hold | ⟨timed, htimed⟩
        · rw [hgoes.acquires_eq]
          exact h.acquires j was (by rw [Watched.stage?_eq hi, hwas, stageOf]) hold
        · cases htimed
          rfl
      | answer => cases hstage
      | resume => cases hstage
    · rw [Watched.stage?_moved_ne hne] at hstage
      rw [Watched.diary_moved_ne hne] at hslept
      exact h.acquires j stage hstage hslept

end Bedded

/-! ## Sleepers and tokens -/

/-- A set of numbers is no larger than one that has all of them but perhaps one, and that one as
well if the first has it. -/
theorem card_le_of_erase_subset {A B : Finset Nat} {i : Nat} (hrest : A.erase i ⊆ B)
    (hone : i ∈ A → i ∈ B) : A.card ≤ B.card := by
  refine Finset.card_le_card fun j hj => ?_
  by_cases hne : j = i
  · rw [hne] at hj ⊢
    exact hone hj
  · exact hrest (Finset.mem_erase.mpr ⟨hne, hj⟩)

/-- A set of numbers is smaller than one that has all of them and one more. -/
theorem card_lt_of_erase_subset {A B : Finset Nat} {i : Nat} (hrest : A.erase i ⊆ B) {k : Nat}
    (hold : i ∉ A) (hnew : k ∈ B) (hother : k ∉ A) : A.card + 1 ≤ B.card := by
  rw [Finset.erase_eq_of_notMem hold] at hrest
  rw [← Finset.card_insert_of_notMem hother]
  exact Finset.card_le_card (Finset.insert_subset hnew hrest)

namespace Watched

variable {agenda : Agenda σ} {pool : Watched σ} {i : Nat} {before after : Client σ Stage}
  {left : Semaphore}

/-- Whoever has been woken still is after a step of another client. -/
theorem woken_erase_subset (before after : Client σ Stage)
    (hframe : ∀ j ∈ left.asleep, j ≠ i → j ∈ pool.asleep) :
    pool.woken.erase i ⊆ (pool.moved i before after left).woken := by
  intro j hj
  obtain ⟨hne, hj⟩ := Finset.mem_erase.mp hj
  obtain ⟨hslept, hwoken, hstage⟩ := mem_woken.mp hj
  rw [mem_woken, stage?_moved_ne hne, diary_moved_ne hne]
  exact ⟨hslept, fun hasleep => hwoken (hframe j hasleep hne), hstage⟩

/-- Whoever is about to wake a sleeper still is after a step of another client. -/
theorem notifying_erase_subset (pool : Watched σ) (i : Nat) (before after : Client σ Stage)
    (left : Semaphore) :
    pool.notifying.erase i ⊆ (pool.moved i before after left).notifying := by
  intro j hj
  obtain ⟨hne, hj⟩ := Finset.mem_erase.mp hj
  rw [mem_notifying, stage?_moved_ne hne]
  exact mem_notifying.mp hj

/-- A client whose request does not sleep has not been woken. -/
theorem not_mem_woken (h : Bedded pool) {stage : Stage} (hstage : pool.stage? i = some stage)
    (hacquires : stage.acquires = false) : i ∉ pool.woken := by
  intro hwoken
  have htrue := h.acquires i stage hstage (mem_woken.mp hwoken).1
  rw [hacquires] at htrue
  cases htrue

/-- Where sleepers were served, they are after a step, if the tokens are still matched. -/
theorem Served.moved (h : pool.Served)
    (hnotify : ∀ count, 2 ≤ count → pool.stage? i ≠ some (.notifying count))
    (hmatch : pool.tokens ≤ pool.woken.card + pool.notifying.card →
      left.tokens ≤ (pool.moved i before after left).woken.card +
        (pool.moved i before after left).notifying.card) :
    (pool.moved i before after left).Served := by
  rcases h with ⟨j, count, hcount, hstage⟩ | htokens
  · have hne : j ≠ i := by
      rintro rfl
      exact hnotify count hcount hstage
    exact .inl ⟨j, count, hcount, by rw [stage?_moved_ne hne, hstage]⟩
  · exact .inr (hmatch htokens)

/-- A step that leaves the tokens and the sleepers alone leaves sleepers served, if it is made by
nobody who has been woken or is about to wake somebody. -/
theorem Served.aside (h : pool.Served)
    (hframe : ∀ j ∈ left.asleep, j ≠ i → j ∈ pool.asleep)
    (hnotify : ∀ count, pool.stage? i ≠ some (.notifying count))
    (hwoken : i ∈ pool.woken → i ∈ (pool.moved i before after left).woken)
    (htokens : left.tokens = pool.tokens) : (pool.moved i before after left).Served := by
  refine h.moved (fun count _ => hnotify count) fun hmatch => ?_
  have hw := card_le_of_erase_subset (woken_erase_subset before after hframe) hwoken
  have hn := card_le_of_erase_subset (pool.notifying_erase_subset i before after left)
    fun hmem => absurd (mem_notifying.mp hmem) (hnotify 1)
  omega

/-- A step of a client between two requests leaves sleepers served. -/
theorem Served.outside (h : pool.Served) (hstage : pool.stage? i = none) :
    (pool.moved i before after pool.shared.1).Served := by
  refine h.aside (fun _ hj _ => hj) (fun count => ?_) (fun hwoken => ?_) rfl
  · rw [hstage]
    exact nofun
  · obtain ⟨-, -, stage, hsome⟩ := mem_woken.mp hwoken
    rw [hstage] at hsome
    cases hsome

/-- Sleepers stay served when a request goes on. -/
theorem served_work {was next : Stage} (h : Bedded pool)
    (hserved : 0 < pool.tokens → pool.asleep ≠ [] → pool.Served)
    (hi : pool.threads[i]? = some before) (hwas : before.occupation = .requesting was)
    (hgoes : was.Goes i pool.shared.1 (.working next) left) (htokens : 0 < left.tokens)
    (hsleepers : left.asleep ≠ []) :
    (pool.moved i before ⟨before.state, .requesting next⟩ left).Served := by
  have hframe : ∀ j ∈ left.asleep, j ≠ i → j ∈ pool.asleep := fun _ hj => hgoes.mem_asleep hj
  have hw := woken_erase_subset before ⟨before.state, .requesting next⟩ hframe
  have hn := pool.notifying_erase_subset i before ⟨before.state, .requesting next⟩ left
  have hstage : pool.stage? i = some was := by rw [stage?_eq hi, hwas, stageOf]
  have hnext : (pool.moved i before ⟨before.state, .requesting next⟩ left).stage? i =
    some next := stage?_moved_self hi
  cases hgoes with
  | sleep => exact absurd htokens (Nat.lt_irrefl 0)
  | wake hasleep hlooks =>
    refine (hserved htokens (List.ne_nil_of_mem hasleep)).aside hframe (fun count => ?_)
      (fun hwoken => ?_) rfl
    · rw [hstage]
      exact nofun
    · exact absurd hasleep (mem_woken.mp hwoken).2.1
  | woken timed hwoken =>
    refine (hserved htokens hsleepers).aside hframe (fun count => ?_) (fun hmem => ?_) rfl
    · rw [hstage]
      exact nofun
    · rw [mem_woken, diary_moved_self, hwas]
      exact ⟨(mem_woken.mp hmem).1, hwoken, _, hnext⟩
  | deposit count =>
    by_cases hone : count = 0
    · -- The token that comes in is matched by the sleeper that is about to be woken for it.
      subst hone
      have hquiet : i ∉ pool.notifying := fun hmem => by
        rw [mem_notifying, hstage] at hmem
        cases hmem
      have hcard := card_le_of_erase_subset hw fun hmem =>
        absurd hmem (not_mem_woken h hstage rfl)
      have hmore := card_lt_of_erase_subset hn hquiet (mem_notifying.mpr hnext) hquiet
      have hadded : min limit (pool.tokens + 1) ≤ pool.tokens + 1 := Nat.min_le_right _ _
      by_cases hpos : 0 < pool.tokens
      · refine (hserved hpos hsleepers).moved (fun count _ => ?_) fun hmatch => ?_
        · rw [hstage]
          exact nofun
        · exact Nat.le_trans hadded (by omega)
      · exact .inr (Nat.le_trans hadded (by omega))
    · exact .inl ⟨i, count + 1, by omega, hnext⟩

/-- The sleeper that a notification picks has been woken by it. -/
theorem exists_woken (h : Bedded pool) (hstage : pool.stage? i = some (.notifying 1))
    (hsleepers : pool.asleep ≠ []) (before after : Client σ Stage) (pick : Nat) :
    ∃ k, k ∉ pool.woken ∧ k ∈ (pool.moved i before after
      ⟨pool.tokens, pool.asleep.eraseIdx (pick % pool.asleep.length)⟩).woken := by
  have hlt : pick % pool.asleep.length < pool.asleep.length :=
    Nat.mod_lt _ (List.length_pos_of_ne_nil hsleepers)
  have hmem := List.getElem_mem hlt
  have hgone := h.nodup.not_mem_erase (a := pool.asleep[pick % pool.asleep.length])
  rw [h.nodup.erase_getElem _ hlt] at hgone
  generalize pool.asleep[pick % pool.asleep.length] = k at hmem hgone
  obtain ⟨⟨timed, hsleeping⟩, hslept⟩ := h.sleeping k hmem
  have hne : k ≠ i := by
    rintro rfl
    rw [hstage] at hsleeping
    cases hsleeping
  refine ⟨k, fun hold => (mem_woken.mp hold).2.1 hmem, ?_⟩
  rw [mem_woken, diary_moved_ne hne, stage?_moved_ne hne]
  exact ⟨hslept, hgone, _, hsleeping⟩

/-- Sleepers stay served when a request is answered. -/
theorem served_answer {was : Stage} {granted : Bool} (h : Bedded pool)
    (hserved : 0 < pool.tokens → pool.asleep ≠ [] → pool.Served)
    (hi : pool.threads[i]? = some before) (hwas : before.occupation = .requesting was)
    (hgoes : was.Goes i pool.shared.1 (.answered granted) left) (htokens : 0 < left.tokens)
    (hsleepers : left.asleep ≠ []) :
    (pool.moved i before ⟨before.state, .answered granted⟩ left).Served := by
  have hframe : ∀ j ∈ left.asleep, j ≠ i → j ∈ pool.asleep := fun _ hj => hgoes.mem_asleep hj
  have hw := woken_erase_subset before ⟨before.state, .answered granted⟩ hframe
  have hn := pool.notifying_erase_subset i before ⟨before.state, .answered granted⟩ left
  have hstage : pool.stage? i = some was := by rw [stage?_eq hi, hwas, stageOf]
  cases hgoes with
  | @take _ tokens hlooks hsome =>
    -- Nobody but the client itself is no longer about to look.
    have hquiet : ∀ count, pool.stage? i ≠ some (.notifying count) := fun count => by
      rw [hstage]
      rintro ⟨⟩
      cases hlooks
    have hbefore : pool.tokens = tokens + 1 := hsome
    have hafter : 0 < tokens := htokens
    refine (hserved (by omega) hsleepers).moved (fun count _ => hquiet count) fun hmatch => ?_
    have hcard := Finset.card_le_card hw
    have herase := Finset.pred_card_le_card_erase (s := pool.woken) (a := i)
    have hsame := card_le_of_erase_subset hn fun hmem => absurd (mem_notifying.mp hmem) (hquiet 1)
    simp only
    omega
  | refuse hlooks hnone => exact absurd htokens (by rw [hnone]; exact Nat.lt_irrefl 0)
  | nothing =>
    refine (hserved htokens hsleepers).aside hframe (fun count => ?_) (fun hmem => ?_) rfl
    · rw [hstage]
      exact nofun
    · exact absurd hmem (not_mem_woken h hstage rfl)
  | notifyOne pick =>
    -- The sleeper that is woken takes the place of the signal that wakes it.
    have hbefore : pool.asleep ≠ [] := by
      intro hnil
      exact hsleepers (by rw [show pool.shared.1.asleep = [] from hnil]; rfl)
    obtain ⟨k, hasleep, hwoken⟩ :=
      exists_woken h hstage hbefore before ⟨before.state, .answered true⟩ pick
    have hmore := card_lt_of_erase_subset hw (not_mem_woken h hstage rfl) hwoken hasleep
    have hcard := Finset.card_le_card hn
    have herase := Finset.pred_card_le_card_erase (s := pool.notifying) (a := i)
    refine (hserved htokens hbefore).moved (fun count hcount => ?_) fun hmatch => ?_
    · rw [hstage]
      rintro ⟨⟩
      omega
    · exact Nat.le_trans hmatch (by omega)
  | notifyAll => exact absurd rfl hsleepers

end Watched

/-- Sleepers are looked after: none of them sleeps for good while there are tokens. -/
structure Tended (pool : Watched σ) : Prop where
  /-- What is known of sleepers. -/
  bedded : Bedded pool
  /-- Where there are tokens, sleepers are served. -/
  served : 0 < pool.tokens → pool.asleep ≠ [] → pool.Served

/-! ## Tokens and answers -/

/-- A client has taken just the tokens that it says it has: none in a request that is not over,
and one in a request for a token that was answered with success. -/
def Truthful (agenda : Agenda σ) (client : Client σ Stage) (diary : Diary) : Prop :=
  match client.occupation with
  | .requesting stage => diary.took = 0 ∧
      ∀ request resume, agenda client.state = some (request, resume) →
        stage.acquires = request.acquires
  | .answered granted =>
      ∀ request resume, agenda client.state = some (request, resume) →
        diary.took = if request.acquires && granted then 1 else 0
  | _ => True

/-- What holds of clients and their semaphore at any time. -/
structure Sane (agenda : Agenda σ) (pool : Watched σ) : Prop where
  /-- No more tokens are there than fit. -/
  tokens_le : pool.tokens ≤ limit
  /-- Every client has taken what it says. -/
  truthful : ∀ i client, pool.threads[i]? = some client →
    Truthful agenda client (pool.notes.diary i)
  /-- Sleepers are looked after. -/
  tended : Tended pool

section Runs

variable {agenda : Agenda σ} {pool next : Watched σ} {initial i : Nat}
  {before after : Client σ Stage} {left : Semaphore} {c : Circumstance} {states : List σ}
  {clients : Clients Semaphore Stage σ}

/-- Sleepers are looked after by every step. -/
theorem Tended.moved (h : Tended pool) (hi : pool.threads[i]? = some before)
    (hcourse : Clients.Course agenda i before pool.shared.1 after left) :
    Tended (pool.moved i before after left) := by
  refine ⟨h.bedded.moved hi hcourse, fun htokens hsleepers => ?_⟩
  cases hcourse with
  | start request resume hidle =>
    exact (h.served htokens hsleepers).outside (by rw [Watched.stage?_eq hi, hidle]; rfl)
  | work was next _ hwas hgoes =>
    exact Watched.served_work h.bedded h.served hi hwas hgoes htokens hsleepers
  | answer was granted _ hwas hgoes =>
    exact Watched.served_answer h.bedded h.served hi hwas hgoes htokens hsleepers
  | resume granted request resume hanswered =>
    exact (h.served htokens hsleepers).outside (by rw [Watched.stage?_eq hi, hanswered]; rfl)

/-- A client stays truthful by a step of its own. -/
theorem Truthful.step {s : Semaphore} {diary : Diary} (h : Truthful agenda before diary)
    (hlimit : s.tokens ≤ limit) (hcourse : Clients.Course agenda i before s after left) :
    Truthful agenda after
      (diary.next before.occupation after.occupation (s.tokens - left.tokens)) := by
  obtain ⟨state, occupation⟩ := before
  cases hcourse with
  | start request resume hidle hagenda =>
    obtain rfl : occupation = .idle := hidle
    refine ⟨rfl, fun request' resume' hagenda' => ?_⟩
    obtain ⟨rfl, -⟩ : request = request' ∧ resume = resume' := by
      simpa using hagenda.symm.trans hagenda'
    exact Stage.acquires_ofRequest request
  | work was next _ hwas hgoes =>
    obtain rfl : occupation = .requesting was := hwas
    obtain ⟨hnone, hacquires⟩ := h
    refine ⟨?_, fun request resume hagenda => ?_⟩
    · rw [Diary.took_next, hnone, Nat.sub_eq_zero_of_le (hgoes.le_tokens hlimit)]
      exact nofun
    · rw [hgoes.acquires_eq]
      exact hacquires request resume hagenda
  | answer was granted _ hwas hgoes =>
    obtain rfl : occupation = .requesting was := hwas
    obtain ⟨hnone, hacquires⟩ := h
    intro request resume hagenda
    rw [Diary.took_next, hnone, hgoes.taken_eq, hacquires request resume hagenda, Nat.zero_add]
    exact nofun
  | resume => trivial

/-- Every step keeps clients and their semaphore sane. -/
theorem Sane.advance (h : Sane agenda pool)
    (hstep : (watched agenda).advance c i pool = some next) : Sane agenda next := by
  obtain ⟨before, after, left, hi, hcourse, rfl⟩ := Watched.exists_moved hstep
  refine ⟨?_, fun j client hj => ?_, h.tended.moved hi hcourse⟩
  · cases hcourse with
    | start => exact h.tokens_le
    | work was next _ hwas hgoes => exact hgoes.tokens_le h.tokens_le
    | answer was granted _ hwas hgoes => exact hgoes.tokens_le h.tokens_le
    | resume => exact h.tokens_le
  · rcases Pool.thread_cases hj with ⟨rfl, rfl⟩ | ⟨hne, hj⟩
    · rw [Watched.diary_moved_self]
      exact (h.truthful j before hi).step h.tokens_le hcourse
    · rw [Watched.diary_moved_ne hne]
      exact h.truthful j client hj

/-- New clients stand around a semaphore that has all tokens and no sleepers. -/
theorem assemble_eq_ok (h : Clients.assemble kernel initial states = .ok clients) :
    clients = ⟨⟨initial, []⟩, states.map fun state => ⟨state, .idle⟩⟩ :=
  (Except.ok.inj h).symm

/-- New clients and their semaphore are sane. -/
theorem Sane.start (hclients : Clients.assemble kernel initial states = .ok clients)
    (hinitial : initial ≤ limit) : Sane agenda (clients.noted Notes.empty) := by
  obtain rfl := assemble_eq_ok hclients
  refine ⟨hinitial, fun i client hi => ?_, ⟨List.nodup_nil, ?_, ?_⟩, ?_⟩
  · obtain ⟨state, -, rfl⟩ := List.mem_map.mp (List.mem_of_getElem? hi)
    trivial
  · exact fun i hi => absurd hi List.not_mem_nil
  · exact fun i stage _ hslept => absurd hslept nofun
  · exact fun _ hsleepers => absurd rfl hsleepers

/-- Clients and their semaphore are sane in every run. -/
theorem Sane.of_reaches (hclients : Clients.assemble kernel initial states = .ok clients)
    (hinitial : initial ≤ limit)
    (hrun : (watched agenda).Reaches (clients.noted Notes.empty) pool) : Sane agenda pool := by
  induction hrun with
  | refl => exact .start hclients hinitial
  | tail c i _ hstep ih => exact ih.advance hstep

/-- A step moves tokens from a deposit to the semaphore, or from there to a client. -/
theorem conserved_moved (hi : pool.threads[i]? = some before)
    (hcourse : Clients.Course agenda i before pool.shared.1 after left)
    (h : pool.Conserved initial) (hfits : (pool.moved i before after left).Fits initial) :
    (pool.moved i before after left).Conserved initial := by
  obtain ⟨state, occupation⟩ := before
  have htokens : initial + pool.notes.signalled = pool.notes.taken + pool.tokens := h
  simp only [Watched.Conserved, Watched.Fits, Watched.moved, Watched.notes, Watched.tokens,
    Notes.note] at htokens hfits ⊢
  cases hcourse with
  | start request resume hidle =>
    obtain rfl : occupation = .idle := hidle
    simp only [stageOf, Option.map_none, Option.getD_none]
    omega
  | work was next _ hwas hgoes =>
    obtain rfl : occupation = .requesting was := hwas
    simp only [stageOf, Option.map_some, Option.getD_some] at hfits ⊢
    have := hgoes.tokens_eq (by omega)
    omega
  | answer was granted _ hwas hgoes =>
    obtain rfl : occupation = .requesting was := hwas
    simp only [stageOf, Option.map_some, Option.getD_some] at hfits ⊢
    have := hgoes.tokens_eq (by omega)
    omega
  | resume granted request resume hanswered =>
    obtain rfl : occupation = .answered granted := hanswered
    simp only [stageOf, Option.map_none, Option.getD_none]
    omega

/-- Tokens are conserved in every run in which they fit. -/
theorem conserved_of_reaches (hclients : Clients.assemble kernel initial states = .ok clients)
    (hrun : (watched agenda).ReachesWithin (Watched.Fits initial) (clients.noted Notes.empty)
      pool) : pool.Conserved initial := by
  obtain rfl := assemble_eq_ok hclients
  have hstart : Watched.Conserved initial (Pool.noted (τ := Client σ Stage)
    ⟨⟨initial, []⟩, states.map fun state => ⟨state, .idle⟩⟩ Notes.empty) := Nat.add_comm _ _
  refine hrun.keeps hstart fun c i pool next _ htokens hstep hfits => ?_
  obtain ⟨before, after, left, hi, hcourse, rfl⟩ := Watched.exists_moved hstep
  exact conserved_moved hi hcourse htokens hfits

/-- Where there are tokens, some request that is not over does not sleep, if there is any. -/
theorem Tended.exists_awake (h : Tended pool) (htokens : 0 < pool.tokens)
    (hbusy : ∃ i stage, pool.stage? i = some stage) :
    ∃ i stage, pool.stage? i = some stage ∧ i ∉ pool.asleep := by
  by_cases hsleepers : pool.asleep = []
  · obtain ⟨i, stage, hstage⟩ := hbusy
    exact ⟨i, stage, hstage, by rw [hsleepers]; exact List.not_mem_nil⟩
  -- A signal that is about to wake somebody does not sleep.
  have hnotify {i count : Nat} (hstage : pool.stage? i = some (.notifying count)) :
      i ∉ pool.asleep := by
    intro hasleep
    obtain ⟨⟨timed, hsleeping⟩, -⟩ := h.bedded.sleeping i hasleep
    rw [hstage] at hsleeping
    cases hsleeping
  rcases h.served htokens hsleepers with ⟨i, count, -, hstage⟩ | hmatch
  · exact ⟨i, _, hstage, hnotify hstage⟩
  · rcases Nat.eq_zero_or_pos pool.woken.card with hnone | hsome
    · obtain ⟨i, hi⟩ := Finset.card_pos.mp (show 0 < pool.notifying.card by omega)
      have hstage := Watched.mem_notifying.mp hi
      exact ⟨i, _, hstage, hnotify hstage⟩
    · obtain ⟨i, hi⟩ := Finset.card_pos.mp hsome
      obtain ⟨-, hwoken, stage, hstage⟩ := Watched.mem_woken.mp hi
      exact ⟨i, stage, hstage, hwoken⟩

/-- No wake-up is lost and no token is made up, in every run of any number of clients. Tokens are
conserved as long as they fit, and a request for a token that is answered has taken one if the
answer says so and none otherwise. While there are tokens and somebody sleeps, either all sleepers
are about to be woken, or those who have been woken and are about to look, together with the
signals that are about to wake one, are no fewer than the tokens. So there are never tokens while
every request that is not over sleeps. -/
theorem wakeups_kept (hclients : Clients.assemble kernel initial states = .ok clients)
    (hinitial : initial ≤ limit)
    (hrun : (watched agenda).Reaches (clients.noted Notes.empty) pool) :
    ((watched agenda).ReachesWithin (Watched.Fits initial) (clients.noted Notes.empty) pool →
        initial + pool.notes.signalled = pool.notes.taken + pool.tokens) ∧
      (∀ i client granted request resume, pool.threads[i]? = some client →
        client.occupation = .answered granted →
        agenda client.state = some (request, resume) → request.acquires →
        (pool.notes.diary i).took = if granted then 1 else 0) ∧
      (0 < pool.tokens → pool.asleep ≠ [] → pool.Served) ∧
      (0 < pool.tokens → (∃ i stage, pool.stage? i = some stage) →
        ∃ i stage, pool.stage? i = some stage ∧ i ∉ pool.asleep) := by
  have hsane := Sane.of_reaches hclients hinitial hrun
  refine ⟨conserved_of_reaches hclients, ?_, hsane.tended.served, hsane.tended.exists_awake⟩
  intro i client granted request resume hi hanswered hagenda hacquires
  have htruthful := hsane.truthful i client hi
  rw [Truthful, hanswered] at htruthful
  have htook := htruthful request resume hagenda
  rw [hacquires, Bool.true_and] at htook
  exact htook

end Runs

/-- Two clients that wait, one that only tries, and a signal of one token. -/
def visitors : List (List Request) := [[.wait], [.timedWait (.ofNanos 5)], [.tryWait], [.signal 1]]

theorem wakeups_kept_visitors :
    ∃ (clients : Clients Semaphore Stage (List Request)) (pool : Watched (List Request)),
      Clients.assemble kernel 0 visitors = .ok clients ∧ 0 ≤ limit ∧
      (watched Agenda.inOrder).ReachesWithin (Watched.Fits 0) (clients.noted Notes.empty) pool ∧
      0 + pool.notes.signalled = pool.notes.taken + pool.tokens ∧
      (∀ i client granted request resume, pool.threads[i]? = some client →
        client.occupation = .answered granted →
        Agenda.inOrder client.state = some (request, resume) → request.acquires →
        (pool.notes.diary i).took = if granted then 1 else 0) ∧
      pool.Served ∧ (∃ i stage, pool.stage? i = some stage ∧ i ∉ pool.asleep) ∧
      pool.tokens = 1 ∧ pool.asleep = [1] ∧ pool.woken = {0} := by
  -- Both clients that wait go to sleep before the token comes, and the first of them is woken.
  have hclients : Clients.assemble kernel 0 visitors =
      .ok ⟨⟨0, []⟩, visitors.map fun state => ⟨state, .idle⟩⟩ := rfl
  have hrun := Machine.runWithin_reaches (m := watched Agenda.inOrder) (P := Watched.Fits 0)
    (p := Pool.noted ⟨⟨0, []⟩, visitors.map fun state => ⟨state, .idle⟩⟩ Notes.empty)
    [(.usual, 0), (.usual, 0), (.usual, 1), (.usual, 1), (.usual, 2), (.usual, 2), (.usual, 3),
      (.usual, 3), (.usual, 3)] rfl
  obtain ⟨htokens, hanswers, hserved, hawake⟩ :=
    wakeups_kept hclients (Nat.zero_le _) hrun.reaches
  exact ⟨_, _, hclients, Nat.zero_le _, hrun, htokens hrun, hanswers, hserved (by decide) nofun,
    hawake (by decide) ⟨0, _, rfl⟩, rfl, rfl, by decide⟩

end WordSync.Kernel.Condvar
