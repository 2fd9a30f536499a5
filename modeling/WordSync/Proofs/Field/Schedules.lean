import Mathlib.Data.List.Perm.Basic
import WordSync.Proofs.Cell.Completion
import WordSync.Proofs.Cell.Linearity
import WordSync.Proofs.Field.Counter

/-!
# Counters under any schedule

Threads share a word and update it with lists of commands that count in its fields. In whatever
order their steps are mixed, and however often an update has to ask again, the word and the
commands that are still to be run on it agree with what there was at the start. So the order
decides neither whether a thread breaks off nor what the word is in the end: the totals do.
-/

namespace WordSync.Field

variable {w : Nat}

/-- An update that runs commands on the word that it finds. -/
def updateBy (commands : List (Command w)) : Cell.Task (BitVec w) Fault :=
  .update (Revision.mk none commands).apply

/-- The threads of a program before their first step. Each thread is given its updates, and each
update the commands that it runs. -/
def crew (start : BitVec w) (program : List (List (List (Command w)))) :
    Cell.Threads (BitVec w) Fault :=
  ⟨start, program.map fun updates => .ready (updates.map updateBy)⟩

/-- Some schedule of the program ends in the pool. -/
def EndsIn (start : BitVec w) (program : List (List (List (Command w))))
    (pool : Cell.Threads (BitVec w) Fault) : Prop :=
  (Cell.machine Fault).Reaches (crew start program) pool ∧ pool.Complete

/-- All commands of all threads. -/
def workload (program : List (List (List (Command w)))) : List (Command w) :=
  program.flatten.flatten

namespace Revision

/-- An update by commands runs them, and puts in place of the word what they make of it. -/
theorem apply_eq (commands : List (Command w)) (word : BitVec w) :
    (Revision.mk none commands).apply word =
      match runAll commands word with
      | .ok _ next => .ok (some next)
      | .error fault _ => .error fault := rfl

/-- An update by commands has an answer just if all of them succeed. -/
theorem apply_eq_ok_iff {commands : List (Command w)} {word : BitVec w}
    {answer : Option (BitVec w)} :
    (Revision.mk none commands).apply word = .ok answer ↔
      ∃ next, runAll commands word = .ok () next ∧ answer = some next := by
  rw [apply_eq]
  cases runAll commands word with
  | ok reply next =>
    simp only [Except.ok.injEq, EStateM.Result.ok.injEq, true_and, exists_eq_left', eq_comm]
  | error fault left => simp only [reduceCtorEq, false_and, exists_false]

/-- An update by commands fails just if one of them fails. -/
theorem apply_eq_error_iff {commands : List (Command w)} {word : BitVec w} {fault : Fault} :
    (Revision.mk none commands).apply word = .error fault ↔
      ∃ left, runAll commands word = .error fault left := by
  rw [apply_eq]
  cases runAll commands word with
  | ok reply next => simp only [reduceCtorEq, exists_false]
  | error fault' left =>
    simp only [Except.error.injEq, EStateM.Result.error.injEq, exists_and_left, exists_eq',
      and_true]

end Revision

/-- When a thread ends an update, all commands are left but those of the update. -/
theorem workload_perm {left : List (List (List (Command w)))} {i : Nat}
    {commands : List (Command w)} {rest : List (List (Command w))}
    (hi : left[i]? = some (commands :: rest)) :
    (workload left).Perm (commands ++ workload (left.set i rest)) := by
  obtain ⟨hlt, hget⟩ := List.getElem?_eq_some_iff.mp hi
  have hbefore : left.Perm ((commands :: rest) :: left.eraseIdx i) := by
    rw [← hget]
    exact (List.getElem_cons_eraseIdx_perm hlt).symm
  have hafter : (rest :: left.eraseIdx i).Perm (left.set i rest) :=
    (List.set_perm_cons_eraseIdx hlt rest).symm
  calc List.Perm (workload left) (workload ((commands :: rest) :: left.eraseIdx i)) :=
        hbefore.flatten.flatten
    _ = commands ++ workload (rest :: left.eraseIdx i) := by
        simp only [workload, List.flatten_cons, List.cons_append]
    List.Perm _ (commands ++ workload (left.set i rest)) :=
        hafter.flatten.flatten.append_left commands

/-- A run on the way: `left` holds the updates that the threads have still to make, those under
way and those that have broken off among them. -/
structure Underway {k : Width} (counters : Counters k) (start : BitVec k.bits)
    (program left : List (List (List (Command k.bits))))
    (pool : Cell.Threads (BitVec k.bits) Fault) : Prop where
  /-- The threads have these updates to make. -/
  todo : pool.threads.map Cell.Thread.todo = left.map (List.map updateBy)
  /-- What the threads are about to put in place of the word is what their rules have asked for. -/
  consistent : ∀ thread ∈ pool.threads, thread.Consistent
  /-- All commands that are left count with the counters. -/
  allowed : ∀ command ∈ workload left, counters.Allows command
  /-- The word and the commands that are left agree with the start. -/
  agree : counters.Agree pool.shared (workload left) start (workload program)
  /-- If a thread has broken off then the totals cannot be counted. -/
  broken : ∀ thread ∈ pool.threads, ∀ fault, thread.fault? = some fault →
    ¬counters.Fits start (workload program)

namespace Underway

variable {k : Width} {counters : Counters k} {start : BitVec k.bits}
  {program left : List (List (List (Command k.bits)))}
  {pool next : Cell.Threads (BitVec k.bits) Fault}

/-- A program is under way before its first step. -/
theorem of_crew (hallowed : ∀ command ∈ workload program, counters.Allows command) :
    Underway counters start program program (crew start program) := by
  refine ⟨?_, ?_, hallowed, .of_perm start (.refl _), ?_⟩
  · simp only [crew, List.map_map]
    rfl
  · intro thread hthread seen next hstage
    obtain ⟨updates, -, rfl⟩ := List.mem_map.mp hthread
    cases hstage
  · intro thread hthread fault hfault
    obtain ⟨updates, -, rfl⟩ := List.mem_map.mp hthread
    cases hfault

variable {i : Nat} {before after : Cell.Thread (BitVec k.bits) Fault}

/-- A thread has updates to make that are left, and nothing else. -/
theorem exists_updates (h : Underway counters start program left pool)
    (hi : pool.threads[i]? = some before) :
    ∃ updates, left[i]? = some updates ∧ before.todo = updates.map updateBy := by
  have htodo := congrArg (·[i]?) h.todo
  simp only [List.getElem?_map, hi, Option.map_some] at htodo
  obtain ⟨updates, hleft, hmap⟩ := Option.map_eq_some_iff.mp htodo.symm
  exact ⟨updates, hleft, hmap.symm⟩

/-- The update that a thread has under way is one by commands that are left. -/
theorem exists_commands (h : Underway counters start program left pool)
    (hi : pool.threads[i]? = some before) {rule : Cell.Rule (BitVec k.bits) Fault}
    {rest : List (Cell.Task (BitVec k.bits) Fault)} (htodo : before.todo = .update rule :: rest) :
    ∃ commands more, left[i]? = some (commands :: more) ∧
      rule = (Revision.mk none commands).apply ∧ rest = more.map updateBy := by
  obtain ⟨updates, hleft, hupdates⟩ := h.exists_updates hi
  rw [htodo] at hupdates
  cases updates with
  | nil => cases hupdates
  | cons commands more =>
    rw [List.map_cons, List.cons.injEq, updateBy, Cell.Task.update.injEq] at hupdates
    exact ⟨commands, more, hleft, hupdates.1, hupdates.2⟩

/-- The commands of an update that is left count with the counters. -/
theorem allowed_of_left (h : Underway counters start program left pool)
    {commands : List (Command k.bits)} {more : List (List (Command k.bits))}
    (hleft : left[i]? = some (commands :: more)) :
    ∀ command ∈ commands, counters.Allows command := fun command hcommand =>
  h.allowed command ((workload_perm hleft).mem_iff.mpr (List.mem_append_left _ hcommand))

/-- A step after which its update goes on, or has broken off, leaves the word alone. -/
theorem quiet (h : Underway counters start program left pool)
    (hi : pool.threads[i]? = some before) (htodo : after.todo = before.todo)
    (hconsistent : after.Consistent)
    (hbroken : ∀ fault, after.fault? = some fault → ¬counters.Fits start (workload program)) :
    Underway counters start program left ⟨pool.shared, pool.threads.set i after⟩ := by
  refine ⟨?_, Pool.forall_mem_set h.consistent hconsistent, h.allowed, h.agree,
    Pool.forall_mem_set h.broken hbroken⟩
  obtain ⟨hlt, rfl⟩ := List.getElem?_eq_some_iff.mp hi
  rw [List.map_set, htodo, ← List.map_set, List.set_getElem_self, h.todo]

/-- The word that an update puts in place agrees, with what is left then, with the start. -/
theorem agree_of_ok (h : Underway counters start program left pool)
    {commands : List (Command k.bits)} {more : List (List (Command k.bits))}
    (hleft : left[i]? = some (commands :: more)) {shared : BitVec k.bits}
    (hrun : runAll commands pool.shared = .ok () shared) :
    counters.Agree shared (workload (left.set i more)) start (workload program) := by
  rcases Counters.runAll_cases (h.allowed_of_left hleft) pool.shared with
    ⟨next, hok, hagree⟩ | ⟨fault, left, herror, -⟩
  · rw [hrun, EStateM.Result.ok.injEq] at hok
    obtain ⟨-, rfl⟩ := hok
    exact (hagree _).trans ((Counters.Agree.of_perm _ (workload_perm hleft).symm).trans h.agree)
  · cases hrun.symm.trans herror

/-- An update that ends puts in place of the word what its commands make of it. -/
theorem commit (h : Underway counters start program left pool)
    {commands : List (Command k.bits)} {more : List (List (Command k.bits))}
    (hleft : left[i]? = some (commands :: more)) {shared : BitVec k.bits}
    (hrun : runAll commands pool.shared = .ok () shared)
    (htodo : after.todo = more.map updateBy) (hconsistent : after.Consistent)
    (hfault : after.fault? = none) :
    Underway counters start program (left.set i more) ⟨shared, pool.threads.set i after⟩ := by
  refine ⟨?_, Pool.forall_mem_set h.consistent hconsistent, ?_, h.agree_of_ok hleft hrun,
    Pool.forall_mem_set h.broken fun fault hbroken => ?_⟩
  · rw [List.map_set, List.map_set, htodo, h.todo]
  · intro command hcommand
    exact h.allowed command
      ((workload_perm hleft).mem_iff.mpr (List.mem_append_right _ hcommand))
  · cases hfault.symm.trans hbroken

/-- Where the commands of an update fail, the totals cannot be counted. -/
theorem not_fits_of_error (h : Underway counters start program left pool)
    {commands : List (Command k.bits)} {more : List (List (Command k.bits))}
    (hleft : left[i]? = some (commands :: more)) {fault : Fault} {word : BitVec k.bits}
    (hrun : runAll commands pool.shared = .error fault word) :
    ¬counters.Fits start (workload program) := by
  intro hfits
  rcases Counters.runAll_cases (h.allowed_of_left hleft) pool.shared with
    ⟨next, hok, -⟩ | ⟨fault', word', -, hnot⟩
  · cases hrun.symm.trans hok
  · have hagree := (Counters.Agree.of_perm pool.shared (workload_perm hleft).symm).trans h.agree
    exact hnot _ (hagree.fits_iff.mpr hfits)

/-- A step of a thread keeps a program under way. -/
theorem advance (h : Underway counters start program left pool) {c : Circumstance}
    (hstep : (Cell.machine Fault).advance c i pool = some next) :
    ∃ left', Underway counters start program left' next := by
  obtain ⟨before, after, shared, hi, hmove, rfl⟩ := Machine.advance_eq_some_iff.mp hstep
  have hcase := Cell.Thread.step_cases hmove
  have hafter := hcase.consistent
  have hconsistent := h.consistent before (List.mem_of_getElem? hi)
  cases hcase with
  | access access rest htodo =>
    obtain ⟨updates, -, hupdates⟩ := h.exists_updates hi
    rw [htodo] at hupdates
    cases updates with
    | nil => cases hupdates
    | cons commands more => cases hupdates
  | decline rule rest htodo hrule =>
    -- An update by commands has no condition under which it leaves the word alone.
    obtain ⟨commands, more, -, rfl, -⟩ := h.exists_commands hi htodo
    obtain ⟨next, -, hanswer⟩ := Revision.apply_eq_ok_iff.mp hrule
    cases hanswer
  | plan rule rest next htodo hrule =>
    refine ⟨left, h.quiet hi rfl hafter fun fault hfault => ?_⟩
    cases hfault
  | fail rule rest fault htodo hrule =>
    obtain ⟨commands, more, hleft, rfl, -⟩ := h.exists_commands hi htodo
    obtain ⟨word, hrun⟩ := Revision.apply_eq_error_iff.mp hrule
    exact ⟨left, h.quiet hi rfl hafter fun _ _ => h.not_fits_of_error hleft hrun⟩
  | commit rule rest next htodo hstage =>
    -- What is put in place was computed from the same word, however long ago that was.
    obtain ⟨rule', rest', htodo', hrule⟩ := hconsistent _ _ hstage
    rw [htodo, List.cons.injEq, Cell.Task.update.injEq] at htodo'
    obtain ⟨rfl, -⟩ := htodo'
    obtain ⟨commands, more, hleft, rfl, hrest⟩ := h.exists_commands hi htodo
    obtain ⟨next', hrun, hanswer⟩ := Revision.apply_eq_ok_iff.mp hrule
    obtain rfl := Option.some.inj hanswer
    exact ⟨left.set i more, h.commit hleft hrun hrest hafter rfl⟩

/-- Every pool that a program can reach is under way. -/
theorem of_reaches (hallowed : ∀ command ∈ workload program, counters.Allows command)
    (hreach : (Cell.machine Fault).Reaches (crew start program) pool) :
    ∃ left, Underway counters start program left pool := by
  induction hreach with
  | refl => exact ⟨program, .of_crew hallowed⟩
  | tail c i _ hstep ih =>
    obtain ⟨left, h⟩ := ih
    exact h.advance hstep

/-- If all threads have ended and none has broken off, the word agrees with the start. -/
theorem agree_of_complete (h : Underway counters start program left pool)
    (hcomplete : pool.Complete) (hfault : pool.fault? = none) :
    counters.Agree pool.shared [] start (workload program) := by
  have hdone : ∀ updates ∈ left, updates = [] := by
    intro updates hupdates
    have hmem : updates.map updateBy ∈ pool.threads.map Cell.Thread.todo := by
      rw [h.todo]
      exact List.mem_map_of_mem hupdates
    obtain ⟨thread, hthread, htodo⟩ := List.mem_map.mp hmem
    rcases hcomplete thread hthread with hempty | ⟨fault, hbroken⟩
    · exact List.map_eq_nil_iff.mp (htodo.symm.trans hempty)
    · have hnone := List.findSome?_eq_none_iff.mp hfault thread hthread
      cases hnone.symm.trans hbroken
  have hnothing : workload left = [] := by
    rw [workload, List.flatten_eq_nil_iff.mpr hdone, List.flatten_nil]
  have hagree := h.agree
  rwa [hnothing] at hagree

/-- When all threads have ended, none has broken off just if the totals can be counted. -/
theorem fault?_eq_none_iff (h : Underway counters start program left pool)
    (hcomplete : pool.Complete) :
    pool.fault? = none ↔ counters.Fits start (workload program) := by
  constructor
  · intro hfault
    exact (h.agree_of_complete hcomplete hfault).fits_iff.mp (Counters.fits_nil _)
  · intro hfits
    refine List.findSome?_eq_none_iff.mpr fun thread hthread => ?_
    cases hfault : thread.fault? with
    | none => rfl
    | some fault => exact absurd hfits (h.broken thread hthread fault hfault)

end Underway

/-- Where the totals can be counted, there is a word that the counters come to. -/
theorem Counters.exists_last {k : Width} {counters : Counters k} {start : BitVec k.bits}
    {commands : List (Command k.bits)}
    (hallowed : ∀ command ∈ commands, counters.Allows command)
    (hfits : counters.Fits start commands) : ∃ last, counters.Agree last [] start commands := by
  rcases runAll_cases hallowed start with ⟨last, -, hagree⟩ | ⟨fault, left, -, hnot⟩
  · have hlast := hagree []
    rw [List.append_nil] at hlast
    exact ⟨last, hlast⟩
  · have hnever := hnot []
    rw [List.append_nil] at hnever
    exact absurd hfits hnever

/-- Every program has a schedule in which it ends. -/
theorem exists_endsIn (start : BitVec w) (program : List (List (List (Command w)))) :
    ∃ pool, EndsIn start program pool := by
  have hopen : ∀ thread ∈ (crew start program).threads, thread.Open := by
    intro thread hthread
    obtain ⟨updates, -, rfl⟩ := List.mem_map.mp hthread
    exact Cell.Thread.open_of_fetch rfl
  exact Cell.exists_complete hopen (.refl _)

/-- Counters in a shared word do not depend on the schedule. Some schedule ends, and when all
threads have ended, none has broken off just if every counter can count its totals. Then the word
is the same after every schedule: each counter has come to what its totals make of it, and all
other bits are as they were. An update that breaks off leaves the word alone. -/
theorem schedules_agree {k : Width} (counters : Counters k) (start : BitVec k.bits)
    (program : List (List (List (Command k.bits))))
    (hallowed : ∀ command ∈ workload program, counters.Allows command) :
    (∃ pool, EndsIn start program pool) ∧
      (∀ pool, EndsIn start program pool →
        (pool.fault? = none ↔ counters.Fits start (workload program))) ∧
      (counters.Fits start (workload program) → ∃ last : BitVec k.bits,
        (∀ counter ∈ counters.all, ∃ value : BitVec k.bits,
          counter.target.get last = .ok value ∧
            (value.toNat : Int) = counter.final start (workload program)) ∧
        (∀ j, counters.Spares j → last.getLsbD j = start.getLsbD j) ∧
        ∀ pool, EndsIn start program pool → pool.shared = last) ∧
      ∀ log pool, (Cell.machine Fault).Recorded (crew start program) log pool →
        ∀ e ∈ log, ∀ fault, e.after.fault? = some fault →
          ∀ d ∈ Cell.Event.ofTask log e, d.left = d.found := by
  refine ⟨exists_endsIn start program, ?_, ?_, ?_⟩
  · rintro pool ⟨hreach, hcomplete⟩
    obtain ⟨left, h⟩ := Underway.of_reaches hallowed hreach
    exact h.fault?_eq_none_iff hcomplete
  · intro hfits
    obtain ⟨last, hlast⟩ := Counters.exists_last hallowed hfits
    refine ⟨last, ?_, hlast.spared, ?_⟩
    · intro counter hcounter
      refine ⟨_, Target.get_eq (counters.accepted counter hcounter) last, ?_⟩
      rw [← hlast.final counter hcounter, Counters.final_nil hcounter]
    · rintro pool ⟨hreach, hcomplete⟩
      obtain ⟨left, h⟩ := Underway.of_reaches hallowed hreach
      have hfault := (h.fault?_eq_none_iff hcomplete).mpr hfits
      exact ((h.agree_of_complete hcomplete hfault).trans hlast.symm).eq
  · intro log pool hrun e he fault hfault d hd
    exact (Cell.quiet_of_fault hrun he hfault d hd).left_eq

/-- A byte with three counters: its lowest bit counts up, and of the two elements of a row the
lower one counts down and the upper one around. The second bit is no counter. -/
def scoreboard : Counters .w8 where
  all := [⟨.member ⟨0, 1⟩, .up⟩, ⟨.element ⟨2, 3, 2⟩ 0, .down⟩, ⟨.element ⟨2, 3, 2⟩ 1, .around⟩]
  accepted := by
    intro counter hcounter
    simp only [List.mem_cons, List.not_mem_nil, or_false] at hcounter
    rcases hcounter with rfl | rfl | rfl
    · rfl
    · exact ⟨rfl, by decide⟩
    · exact ⟨rfl, by decide⟩
  disjoint := by decide

/-- The byte before anything is scored. -/
def opening : BitVec Width.w8.bits := 0xAE#8

/-- Two threads that keep the score. -/
def scorers : List (List (List (Command Width.w8.bits))) :=
  [[[.change (.member ⟨0, 1⟩) .add 1#8, .change (.element ⟨2, 3, 2⟩ 1) .subWrapped 7#8]],
    [[.change (.element ⟨2, 3, 2⟩ 0) .sub 2#8],
      [.change (.element ⟨2, 3, 2⟩ 0) .sub 1#8, .change (.element ⟨2, 3, 2⟩ 1) .addWrapped 4#8]]]

/-- The byte with the score, and the two threads when they have kept it. -/
def score : Cell.Threads (BitVec Width.w8.bits) Fault :=
  ⟨0x43#8, [⟨[], .fetch, [.ok 0xA6#8]⟩, ⟨[], .fetch, [.ok 0xC7#8, .ok 0xAE#8]⟩]⟩

theorem schedules_agree_scorers :
    (∀ command ∈ workload scorers, scoreboard.Allows command) ∧ EndsIn opening scorers score ∧
      ∀ pool, EndsIn opening scorers pool → pool.fault? = none ∧ pool.shared = 0x43#8 := by
  have hallowed : ∀ command ∈ workload scorers, scoreboard.Allows command := by decide
  have hfits : scoreboard.Fits opening (workload scorers) := by decide
  obtain ⟨-, hfault, hlast, -⟩ := schedules_agree scoreboard opening scorers hallowed
  obtain ⟨last, -, -, hshared⟩ := hlast hfits
  -- Both threads read the byte. The second exchanges it first, so that the first has to ask again;
  -- later the second has to ask again twice, the last time for no reason.
  have hrun : (Cell.machine Fault).Reaches (crew opening scorers) score :=
    Machine.run_reaches
      [(.usual, 0), (.usual, 1), (.usual, 1), (.usual, 0), (.usual, 1), (.usual, 0), (.usual, 1),
        (⟨.mishap, .zero, 0⟩, 1), (.usual, 1)] rfl
  have hends : EndsIn opening scorers score :=
    ⟨hrun, List.forall_mem_cons.mpr ⟨.inl rfl, List.forall_mem_singleton.mpr (.inl rfl)⟩⟩
  refine ⟨hallowed, hends, fun pool hpool => ⟨(hfault pool hpool).mpr hfits, ?_⟩⟩
  rw [hshared pool hpool, ← hshared score hends, score]

end WordSync.Field
