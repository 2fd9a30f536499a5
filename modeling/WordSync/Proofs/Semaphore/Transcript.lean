import WordSync.Proofs.Semaphore.Lone
import WordSync.Proofs.Semaphore.Serving

/-!
# Transcripts of a semaphore

A transcript says of each action of a thread that is alone what it has answered, what it has
asked of the kernel with what outcome, and what it has left. The requests are written down by the
server that answers them, which changes nothing about the actions. Over a new kernel semaphore
the transcript is that of a plain number of tokens, as long as the thread does nothing that a
thread may not do which is alone.
-/

namespace WordSync.Semaphore

variable {κ : Type}

/-- A request to the kernel, and what has come of it. -/
abbrev Inquiry := Kernel.Request × Except Kernel.Fault Bool

/-- A semaphore with the requests that have been made to the kernel. -/
def withInquiries (s : Semaphore κ) (inquiries : List Inquiry) :
    Semaphore (κ × List Inquiry) :=
  ⟨s.count, s.spins, (s.kernel, inquiries), s.journal⟩

/-- A semaphore without them. -/
def withoutInquiries (s : Semaphore (κ × List Inquiry)) : Semaphore κ :=
  ⟨s.count, s.spins, s.kernel.1, s.journal⟩

/-- Serve requests, and write them down. -/
def Server.noting (serve : Server κ) : Server (κ × List Inquiry) := fun request s =>
  let (result, after) := serve request s.withoutInquiries
  (result, after.withInquiries (s.kernel.2 ++ [(request, result)]))

/-- The requests that an action makes to the kernel. -/
def inquiries (serve : Server κ) (action : Action) (s : Semaphore κ) : List Inquiry :=
  (act serve.noting action (s.withInquiries [])).2.kernel.2

/-- Writing the requests down does not change how a call goes on. -/
theorem run_noting (serve : Server κ) (moves : Nat) (phase : Phase)
    (s : Semaphore (κ × List Inquiry)) :
    (run serve.noting moves phase s).map id withoutInquiries =
      run serve moves phase s.withoutInquiries :=
  run_annotated serve (fun request _ result => (request, result)) moves phase s

/-- Writing the requests down does not change what an action answers and leaves. -/
theorem act_noting (serve : Server κ) (action : Action) (s : Semaphore κ)
    (inquiries : List Inquiry) :
    (act serve.noting action (s.withInquiries inquiries)).map id withoutInquiries =
      act serve action s := by
  cases action with
  | ask question => cases question <;> rfl
  | call c =>
    have hrun := run_noting serve s.movesFor (.ofCall c) (s.withInquiries inquiries)
    have hsame : (s.withInquiries inquiries).withoutInquiries = s := rfl
    rw [hsame] at hrun
    simp only [act, call, ← hrun]
    rfl

/-- What can be told of an action that is over. -/
structure Entry (κ : Type) where
  /-- What it has answered. -/
  reply : Except Fault Reply
  /-- What it has asked of the kernel. -/
  inquiries : List Inquiry
  /-- The count afterwards. -/
  count : Int64
  /-- The kernel semaphore afterwards. -/
  kernel : κ

/-- Do some actions one after the other, and tell of each. -/
def transcript (serve : Server κ) : List Action → Semaphore κ → List (Entry κ)
  | [], _ => []
  | action :: rest, s =>
    let (reply, after) := act serve action s
    ⟨reply, inquiries serve action s, after.count, after.kernel⟩ :: transcript serve rest after

/-! ## The transcript of a plain number of tokens -/

/-- The tokens that there are after an action. -/
def Action.leaves : Action → Nat → Nat
  | .call c, tokens => c.leaves tokens
  | .ask _, tokens => tokens

/-- What an action asks of the kernel. -/
def Action.asks : Action → Nat → List Kernel.Request
  | .call c, tokens => c.asks tokens
  | .ask _, _ => []

/-- What an action answers. -/
def Action.reply (spins tokens : Nat) : Action → Reply
  | .call c => .answer (c.answer (c.taking tokens))
  | .ask .available => .available tokens
  | .ask .spins => .spins spins
  | .ask .text =>
    .text (Text.openRecord "LightweightSemaphore"
      [("count", toString (tokens : Int)), ("spin_count", toString spins)])

/-- A request that has been answered without a token. -/
def denied (request : Kernel.Request) : Inquiry := (request, .ok false)

/-- What can be told of actions on a plain number of tokens. All of them are answered, no request
to the kernel is granted, and the kernel never has a token. -/
def plainTranscript (spins : Nat) : List Action → Nat → List (Entry Nat)
  | [], _ => []
  | action :: rest, tokens =>
    ⟨.ok (action.reply spins tokens), (action.asks tokens).map denied,
      .ofNat (action.leaves tokens), 0⟩ :: plainTranscript spins rest (action.leaves tokens)

/-! ## The two agree -/

variable {spins tokens : Nat} {call : Call}

/-- A lone call that has enough moves is over, with the tokens that it should take. -/
theorem run_lone {phase : Phase} {count : Int64} {asked : List Kernel.Request}
    (hlone : phase.Lone call tokens count asked) (hfair : call.Fair tokens)
    (hlimit : tokens ≤ Count.limit) {moves : Nat} (hmoves : phase.toGo spins ≤ moves)
    (journal : Journal) :
    ∃ journal',
      run (serverOf Kernel.Counter.kernel).noting moves phase
          ⟨count, spins, (0, asked.map denied), journal⟩ =
        (.ok (call.taking tokens),
          ⟨.ofNat (call.leaves tokens), spins, (0, (call.asks tokens).map denied), journal'⟩) := by
  -- Every move uses up one of those allowed, and brings the call as much closer to its end.
  induction moves generalizing phase count asked journal with
  | zero => exact absurd (hlone.toGo_pos spins) (Nat.not_lt.mpr hmoves)
  | succ moves ih =>
    cases hmove : phase.move spins with
    | access access next =>
      obtain ⟨-, hafter, -, hless⟩ := hlone.access hfair hlimit hmove false
      have hless := hless rfl
      simp only [run, hmove]
      exact ih hafter (by omega) _
    | request request next =>
      obtain ⟨timeout, rfl, rfl, hafter, hless⟩ := hlone.request hmove
      simp only [run, hmove]
      exact ih hafter (by omega) _
    | finish result =>
      obtain ⟨rfl, rfl, rfl⟩ := hlone.finish hlimit hmove
      simp only [run, hmove]
      exact ⟨journal, rfl⟩

/-- The tokens on offer are those there are. -/
theorem available_ofNat (hlimit : tokens ≤ Count.limit) :
    Count.available (.ofNat tokens) = tokens := by
  have hcount := Count.toInt_ofNat hlimit
  unfold Count.available
  split
  · have hamount := Count.amount_of_nonneg (a := .ofNat tokens) (by omega)
    omega
  · next hnone =>
    have hnone := mt Count.pos_iff.mpr hnone
    omega

/-- A question leaves everything alone, and is answered by the tokens there are. -/
theorem ask_eq_reply (hlimit : tokens ≤ Count.limit) (question : Question) (kernel : κ)
    (journal : Journal) :
    ask ⟨.ofNat tokens, spins, kernel, journal⟩ question =
      (Action.ask question).reply spins tokens := by
  cases question with
  | available => exact congrArg Reply.available (available_ofNat hlimit)
  | spins => rfl
  | text => simp only [ask, text, Count.toInt_ofNat hlimit, Action.reply]

/-- An action of a thread that is alone does to the semaphore what it does to a plain number of
tokens. -/
theorem act_alone (spins : Nat) {action : Action} (hfair : ∀ c ∈ action.calls, c.Fair tokens)
    (hlimit : tokens ≤ Count.limit) (journal : Journal) :
    ∃ journal',
      act (serverOf Kernel.Counter.kernel) action ⟨.ofNat tokens, spins, 0, journal⟩ =
          (.ok (action.reply spins tokens), ⟨.ofNat (action.leaves tokens), spins, 0, journal'⟩) ∧
        inquiries (serverOf Kernel.Counter.kernel) action ⟨.ofNat tokens, spins, 0, journal⟩ =
          (action.asks tokens).map denied := by
  cases action with
  | ask question =>
    refine ⟨journal, ?_, rfl⟩
    simp only [act, ask_eq_reply hlimit, Action.leaves]
  | call c =>
    have hcall : c.Fair tokens := hfair c (List.mem_singleton_self c)
    have hmoves : (Phase.ofCall c).toGo spins ≤ 2 * spins + 256 :=
      Nat.le_trans (Phase.toGo_ofCall_le spins c) (by omega)
    obtain ⟨journal', hrun⟩ := run_lone (Phase.lone_ofCall hcall) hcall hlimit hmoves journal
    rw [List.map_nil] at hrun
    have hact : act (serverOf Kernel.Counter.kernel).noting (.call c)
        (withInquiries ⟨.ofNat tokens, spins, 0, journal⟩ []) =
          (.ok (.answer (c.answer (c.taking tokens))),
            ⟨.ofNat (c.leaves tokens), spins, (0, (c.asks tokens).map denied), journal'⟩) := by
      simp only [act, call, movesFor, withInquiries]
      rw [hrun]
      rfl
    refine ⟨journal', ?_, ?_⟩
    · rw [← act_noting _ _ _ [], hact]
      rfl
    · rw [inquiries, hact]
      rfl

/-- What the calls of some actions may do, the first action may do, and the others after it. -/
theorem Fair.of_action {action : Action} {rest : List Action}
    (hfair : Fair ((action :: rest).flatMap Action.calls) tokens) (hlimit : tokens ≤ Count.limit) :
    (∀ c ∈ action.calls, c.Fair tokens) ∧
      Fair (rest.flatMap Action.calls) (action.leaves tokens) ∧
      action.leaves tokens ≤ Count.limit := by
  cases action with
  | ask question => exact ⟨nofun, hfair, hlimit⟩
  | call c =>
    obtain ⟨hcall, hrest⟩ := hfair
    refine ⟨fun d hd => ?_, hrest, hcall.leaves_le hlimit⟩
    rwa [List.mem_singleton.mp hd]

/-- Actions of a thread that is alone have the transcript of a plain number of tokens. -/
theorem transcript_eq_plain {actions : List Action}
    (hfair : Fair (actions.flatMap Action.calls) tokens) (hlimit : tokens ≤ Count.limit)
    (journal : Journal) :
    transcript (serverOf Kernel.Counter.kernel) actions ⟨.ofNat tokens, spins, 0, journal⟩ =
      plainTranscript spins actions tokens := by
  induction actions generalizing tokens journal with
  | nil => rfl
  | cons action rest ih =>
    obtain ⟨haction, hrest, hlimit'⟩ := hfair.of_action hlimit
    obtain ⟨journal', hact, hinquiries⟩ := act_alone spins haction hlimit journal
    simp only [transcript, hact, hinquiries, plainTranscript]
    rw [ih hrest hlimit' journal']

end WordSync.Semaphore
