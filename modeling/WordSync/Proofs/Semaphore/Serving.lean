import WordSync.Proofs.Semaphore.Looking
import WordSync.Proofs.Semaphore.Visits
import WordSync.Semaphore.Solo

/-!
# Calls under any server

A server may do anything to a semaphore while it serves a request. What is said here of a call
depends on its own moves alone: what they and the answers to its requests keep, still holds when
it returns, and so no server makes a call return more tokens than it may take. A server can be
made to write down what it does; the calls do not see that.
-/

namespace WordSync.Semaphore

variable {κ α : Type}

/-! ## The moves of a call one by one -/

section Moves

variable {serve : Server κ} {phase : Phase} {s : Semaphore κ}

/-- A call whose next move is an access goes on from its answer. -/
theorem run_access {access : Cell.Access Int64} {next : access.Reply → Turn}
    {reply : access.Reply} {count : Int64} (hmove : phase.move s.spins = .access access next)
    (hperform : access.perform false s.count = (reply, count)) (moves : Nat) :
    run serve (moves + 1) phase s =
      run serve moves (next reply).phase ({ s with count := count }.noted (next reply)) := by
  simp only [run, hmove, hperform]

/-- A call whose next move is a request goes on from its answer. -/
theorem run_request {request : Kernel.Request} {next : Bool → Turn} {granted : Bool}
    {after : Semaphore κ} (hmove : phase.move s.spins = .request request next)
    (hserve : serve request s = (.ok granted, after)) (moves : Nat) :
    run serve (moves + 1) phase s =
      run serve moves (next granted).phase (after.noted (next granted)) := by
  simp only [run, hmove, hserve]

/-- A call that has nothing more to do is over. -/
theorem run_finish {result : Except Fault Nat} (hmove : phase.move s.spins = .finish result)
    (moves : Nat) : run serve (moves + 1) phase s = (result, s) := by
  simp only [run, hmove]

end Moves

/-! ## What the moves of a call keep -/

/-- What every access of a call keeps, and every request that is answered, still holds when the
call returns. -/
theorem run_keeps {serve : Server κ} (Inv : Phase → Semaphore κ → Prop)
    (haccess : ∀ (phase : Phase) (s : Semaphore κ) (access : Cell.Access Int64)
      (next : access.Reply → Turn) (reply : access.Reply) (count : Int64),
      phase.move s.spins = .access access next → access.perform false s.count = (reply, count) →
      Inv phase s → Inv (next reply).phase ({ s with count := count }.noted (next reply)))
    (hrequest : ∀ (phase : Phase) (s : Semaphore κ) (request : Kernel.Request)
      (next : Bool → Turn) (granted : Bool) (after : Semaphore κ),
      phase.move s.spins = .request request next → serve request s = (.ok granted, after) →
      Inv phase s → Inv (next granted).phase (after.noted (next granted)))
    {moves : Nat} {phase : Phase} {s after : Semaphore κ} {tokens : Nat} (hstart : Inv phase s)
    (hrun : run serve moves phase s = (.ok tokens, after)) :
    ∃ last, Inv last after ∧ last.move after.spins = .finish (.ok tokens) := by
  induction moves generalizing phase s with
  | zero => cases hrun
  | succ moves ih =>
    cases hmove : phase.move s.spins with
    | access access next =>
      rw [run_access hmove rfl] at hrun
      exact ih (haccess phase s access next _ _ hmove rfl hstart) hrun
    | request request next =>
      rcases hserve : serve request s with ⟨_ | granted, served⟩
      · simp only [run, hmove, hserve, Prod.mk.injEq, reduceCtorEq, false_and] at hrun
      · rw [run_request hmove hserve] at hrun
        exact ih (hrequest phase s request next granted served hmove hserve hstart) hrun
    | finish result =>
      rw [run_finish hmove] at hrun
      obtain ⟨rfl, rfl⟩ := Prod.mk.inj hrun
      exact ⟨phase, hstart, hmove⟩

/-- A call is where it may be: it knows nothing false, and it is at a phase of its own unless it
has been broken off. -/
structure Call.At (call : Call) (phase : Phase) : Prop where
  /-- What the call knows is right. -/
  sound : phase.Sound
  /-- The phase is one that the call comes to. -/
  comes : call.Comes phase ∨ ∃ fault, phase = .failed fault

namespace Call.At

variable {call : Call} {phase : Phase} {spins : Nat}

/-- A call begins where it may be. -/
theorem start (call : Call) : call.At (.ofCall call) :=
  ⟨(Phase.holds_ofCall call).sound, .inl (.inl rfl)⟩

/-- An access leads a call to where it may be, whatever the count is. -/
theorem access {access : Cell.Access Int64} {next : access.Reply → Turn}
    (hmove : phase.move spins = .access access next) (h : call.At phase) (spurious : Bool)
    (count : Int64) : call.At (next (access.perform spurious count).1).phase := by
  have honward := Phase.onward_of_access hmove h.sound spurious count
  constructor
  · exact honward.sound
  · rcases h.comes with hcomes | ⟨fault, rfl⟩
    · rcases honward.comes_or_fails hcomes with hvisits | ⟨-, hfails⟩
      · exact .inl (.inr hvisits)
      · exact .inr hfails
    · cases hmove

/-- An answer of the kernel leads a call to where it may be. -/
theorem request {request : Kernel.Request} {next : Bool → Turn}
    (hmove : phase.move spins = .request request next) (h : call.At phase) (granted : Bool) :
    call.At (next granted).phase := by
  constructor
  · exact (Phase.sound_of_request hmove granted).1
  · rcases h.comes with hcomes | ⟨fault, rfl⟩
    · exact .inl (.inr (Phase.visits_of_request hmove hcomes granted))
    · cases hmove

/-- A call that returns is over, and it has taken what it may take. -/
theorem finish {tokens : Nat} (hmove : phase.move spins = .finish (.ok tokens))
    (h : call.At phase) : phase = .done tokens ∧ call.Takes tokens := by
  rcases Phase.finish_cases hmove h.sound with ⟨taken, rfl, htaken⟩ | ⟨_, _, hfault⟩
  · cases htaken
    refine ⟨rfl, ?_⟩
    rcases h.comes with hcomes | ⟨_, hfailed⟩
    · exact hcomes.takes
    · cases hfailed
  · cases hfault

end Call.At

/-- Whatever the server does, a call that returns has taken what it may take. -/
theorem run_takes {serve : Server κ} {call : Call} {moves tokens : Nat} {s after : Semaphore κ}
    (hrun : run serve moves (.ofCall call) s = (.ok tokens, after)) : call.Takes tokens := by
  obtain ⟨last, hat, hmove⟩ := run_keeps (fun phase _ => call.At phase)
    (fun phase s access next reply count hmove hperform hat => by
      have hnext := hat.access hmove false s.count
      rwa [hperform] at hnext)
    (fun _ _ _ _ granted _ hmove _ hat => hat.request hmove granted) (.start call) hrun
  exact (hat.finish hmove).2

/-! ## Notes of a server -/

/-- A semaphore with notes beside its kernel semaphore. -/
def withNotes (s : Semaphore κ) (notes : List α) : Semaphore (κ × List α) :=
  ⟨s.count, s.spins, (s.kernel, notes), s.journal⟩

/-- A semaphore without them. -/
def withoutNotes (s : Semaphore (κ × List α)) : Semaphore κ :=
  ⟨s.count, s.spins, s.kernel.1, s.journal⟩

/-- Serve requests, and make a note of each: it may tell of the request, of the semaphore that it
found, and of what has come of it. -/
def Server.annotated (serve : Server κ)
    (note : Kernel.Request → Semaphore κ → Except Kernel.Fault Bool → α) :
    Server (κ × List α) := fun request s =>
  let (result, after) := serve request s.withoutNotes
  (result, after.withNotes (s.kernel.2 ++ [note request s.withoutNotes result]))

/-- What a request leaves has one more note. -/
theorem Server.exists_of_annotated {serve : Server κ}
    {note : Kernel.Request → Semaphore κ → Except Kernel.Fault Bool → α}
    {request : Kernel.Request} {s noted : Semaphore (κ × List α)}
    {result : Except Kernel.Fault Bool} (h : serve.annotated note request s = (result, noted)) :
    ∃ after, serve request s.withoutNotes = (result, after) ∧
      noted = after.withNotes (s.kernel.2 ++ [note request s.withoutNotes result]) := by
  unfold Server.annotated at h
  rcases hserve : serve request s.withoutNotes with ⟨answer, after⟩
  rw [hserve] at h
  obtain ⟨rfl, rfl⟩ := Prod.mk.inj h
  exact ⟨after, rfl, rfl⟩

/-- Making notes does not change how a call goes on. -/
theorem run_annotated (serve : Server κ)
    (note : Kernel.Request → Semaphore κ → Except Kernel.Fault Bool → α) (moves : Nat)
    (phase : Phase) (s : Semaphore (κ × List α)) :
    (run (serve.annotated note) moves phase s).map id withoutNotes =
      run serve moves phase s.withoutNotes := by
  induction moves generalizing phase s with
  | zero => rfl
  | succ moves ih =>
    have hspins : s.withoutNotes.spins = s.spins := rfl
    simp only [run, hspins]
    cases phase.move s.spins with
    | access access next => exact ih _ _
    | request request next =>
      simp only [Server.annotated]
      rcases serve request s.withoutNotes with ⟨result, after⟩
      cases result with
      | ok granted => exact ih _ _
      | error fault => rfl
    | finish result => rfl

/-- What a call that returns leaves, it also leaves with the notes beside it. -/
theorem exists_run_annotated {serve : Server κ}
    (note : Kernel.Request → Semaphore κ → Except Kernel.Fault Bool → α) {moves tokens : Nat}
    {phase : Phase} {s after : Semaphore κ}
    (hrun : run serve moves phase s = (.ok tokens, after)) :
    ∃ noted, run (serve.annotated note) moves phase (s.withNotes []) = (.ok tokens, noted) ∧
      noted.withoutNotes = after := by
  have hsame := run_annotated serve note moves phase (s.withNotes [])
  rcases hnoted : run (serve.annotated note) moves phase (s.withNotes []) with ⟨result, noted⟩
  have hplain : (s.withNotes ([] : List α)).withoutNotes = s := rfl
  rw [hnoted, hplain, hrun] at hsame
  obtain ⟨rfl, rfl⟩ := Prod.mk.inj hsame
  exact ⟨noted, rfl, rfl⟩

end WordSync.Semaphore
