import Mathlib.Algebra.BigOperators.Group.List.Basic
import Mathlib.Algebra.Ring.Int.Defs
import WordSync.Proofs.Semaphore.Serving
import WordSync.Semaphore.Rehearsal

/-!
# Interludes

While a call with limited patience is in the kernel, other threads act on the semaphore; what
they do during one request is an interlude. They may take tokens and put tokens in, register and
withdraw, and each of their own calls may be interrupted in the same way. The call itself settles
its account whatever happens in its interludes: besides what the others have done, the count has
lost just what the call answers to have taken, and the kernel a token if it has granted one.
-/

namespace WordSync

/-- A request that the kernel may refuse, leaving the thread that made it without a token. -/
def Kernel.Request.refusable : Kernel.Request → Bool
  | .timedWait _ => true
  | .tryWait => true
  | _ => false

namespace Semaphore

variable {κ : Type}

/-- A server that lets others act before it answers. In a request that may be refused they make
of the semaphore what `met` says. Then the kernel, which has so many `tokens`, hands out just one
of them, or it hands out none, even if there is one. How other requests are served, and whether a
request fails, is left open. -/
structure Server.Interrupted (serve : Server κ) (tokens : κ → Nat)
    (met : Kernel.Request → Semaphore κ → Semaphore κ) : Prop where
  /-- A request that is granted takes one token from what the others have left. -/
  granted : ∀ request s after, request.refusable → serve request s = (.ok true, after) →
    after.count = (met request s).count ∧
      tokens (met request s).kernel = tokens after.kernel + 1
  /-- A request that is refused leaves what the others have left. -/
  refused : ∀ request s after, request.refusable → serve request s = (.ok false, after) →
    after.count = (met request s).count ∧ tokens after.kernel = tokens (met request s).kernel

/-- What has happened in a request. -/
structure Interlude where
  /-- What the others have added to the count. -/
  count : Int
  /-- What the others have added to the tokens in the kernel. -/
  tokens : Int
  /-- Whether the call has got a token from the kernel in the end. -/
  granted : Bool
  deriving DecidableEq

namespace Interlude

/-- The interlude of a request, by what it has found and what has come of it. -/
def of (tokens : κ → Nat) (met : Kernel.Request → Semaphore κ → Semaphore κ)
    (request : Kernel.Request) (s : Semaphore κ) (result : Except Kernel.Fault Bool) :
    Interlude where
  count := (met request s).count.toInt - s.count.toInt
  tokens := tokens (met request s).kernel - tokens s.kernel
  granted := result matches .ok true

/-- What the others have added in some interludes. -/
def total (number : Interlude → Int) (between : List Interlude) : Int :=
  (between.map number).sum

/-- The number of interludes that have ended with a token. -/
def grants (between : List Interlude) : Nat := between.countP granted

variable {between : List Interlude} {last : Interlude}

/-- One more interlude adds what the others add in it. -/
theorem total_snoc (number : Interlude → Int) (between : List Interlude) (last : Interlude) :
    total number (between ++ [last]) = total number between + number last := by
  simp only [total, List.map_append, List.map_cons, List.map_nil, List.sum_append,
    List.sum_cons, List.sum_nil, Int.add_zero]

/-- One more interlude with a token. -/
theorem grants_snoc_granted (h : last.granted = true) :
    grants (between ++ [last]) = grants between + 1 := by
  simp only [grants, List.countP_append, List.countP_singleton, h, if_true]

/-- One more interlude without a token. -/
theorem grants_snoc_refused (h : last.granted = false) :
    grants (between ++ [last]) = grants between := by
  simp only [grants, List.countP_append, List.countP_singleton, h, Bool.false_eq_true, if_false,
    Nat.add_zero]

end Interlude

/-- The interludes of a call that makes so many moves at most. -/
def interludes (serve : Server κ) (tokens : κ → Nat)
    (met : Kernel.Request → Semaphore κ → Semaphore κ) (moves : Nat) (call : Call)
    (s : Semaphore κ) : List Interlude :=
  (run (serve.annotated (Interlude.of tokens met)) moves (.ofCall call) (s.withNotes [])).2.kernel.2

/-- A call whose answer is worth so many tokens, and others in its interludes, have made `after`
of a semaphore. -/
structure Settled (tokens : κ → Nat) (s : Semaphore κ) (between : List Interlude) (worth : Nat)
    (after : Semaphore κ) : Prop where
  /-- The count has lost what the call answers to have taken. -/
  count_eq : after.count.toInt = s.count.toInt + Interlude.total Interlude.count between - worth
  /-- The kernel has lost one token if it has granted one, and none otherwise. -/
  tokens_eq : (tokens after.kernel : Int) =
    tokens s.kernel + Interlude.total Interlude.tokens between -
      (between.any Interlude.granted).toNat
  /-- A call that comes away with nothing has got nothing from the kernel. -/
  refused : worth = 0 → ∀ interlude ∈ between, interlude.granted = false

/-! ## The account of a call by each of its phases -/

/-- A call with limited patience asks the kernel for a token only while it is registered, and only
in a way that may be refused. It goes on with its first token, or it looks at the count again. -/
theorem Call.Visits.request_cases {demand : Demand} {timeout : Duration} {phase : Phase}
    {spins : Nat} {request : Kernel.Request} {next : Bool → Turn}
    (h : (Call.acquire demand (.within timeout)).Visits phase)
    (hmove : phase.move spins = .request request next) :
    request.refusable ∧ demand.wanted ∧ (phase.held = 0 ∧ phase.registered = 1) ∧
      (next true).phase = .granted demand ∧ (next false).phase = .recheck demand := by
  rcases Phase.request_cases hmove with ⟨wanted, patience, rfl⟩ | ⟨wanted, rfl⟩ | ⟨amount, rfl⟩
  · obtain ⟨hwanted, hcall⟩ := h
    cases hcall
    cases hmove
    exact ⟨rfl, hwanted, ⟨rfl, rfl⟩, rfl, rfl⟩
  · obtain ⟨hwanted, limit, hcall⟩ := h
    cases hcall
    cases hmove
    exact ⟨rfl, hwanted, ⟨rfl, rfl⟩, rfl, rfl⟩
  · obtain ⟨amount, -, hcall⟩ := h
    cases hcall

/-- The account of a call that began with `s`, at a phase at which it finds `t`. -/
structure Balances (call : Call) (tokens : κ → Nat) (s : Semaphore κ) (phase : Phase)
    (t : Semaphore (κ × List Interlude)) : Prop where
  /-- The phase is one of the call. -/
  visits : call.Visits phase
  /-- What the call knows is right. -/
  sound : phase.Sound
  /-- What the count has lost apart from the interludes, the call holds or waits for. -/
  count_eq : t.count.toInt + phase.held + phase.registered =
    s.count.toInt + Interlude.total Interlude.count t.kernel.2
  /-- What the kernel has lost apart from the interludes, it has granted to the call. -/
  tokens_eq : (tokens t.kernel.1 : Int) + Interlude.grants t.kernel.2 =
    tokens s.kernel + Interlude.total Interlude.tokens t.kernel.2
  /-- The kernel has granted one token at most. -/
  grants_le_one : Interlude.grants t.kernel.2 ≤ 1
  /-- The call still holds it. -/
  grants_le_held : Interlude.grants t.kernel.2 ≤ phase.held

namespace Balances

variable {call : Call} {demand : Demand} {timeout : Duration} {tokens : κ → Nat}
  {s : Semaphore κ} {phase : Phase} {t : Semaphore (κ × List Interlude)} {spins : Nat}

/-- A new call has nothing on its account. -/
theorem start (demand : Demand) (patience : Patience) (tokens : κ → Nat) (s : Semaphore κ) :
    Balances (.acquire demand patience) tokens s (.ofCall (.acquire demand patience))
      (s.withNotes []) := by
  refine ⟨rfl, trivial, ?_, ?_, Nat.zero_le 1, Nat.le_refl 0⟩
  · simp only [withNotes, Phase.ofCall, Phase.held, Purpose.purse, Phase.registered,
      Interlude.total, List.map_nil, List.sum_nil]
    omega
  · simp only [withNotes, Interlude.grants, Interlude.total, List.countP_nil, List.map_nil,
      List.sum_nil]
    omega

/-- An access moves tokens between the count and the call, or the call is broken off. -/
theorem access {access : Cell.Access Int64} {next : access.Reply → Turn} {reply : access.Reply}
    {count : Int64} (hmove : phase.move spins = .access access next)
    (hperform : access.perform false t.count = (reply, count)) (h : Balances call tokens s phase t)
    (turn : Turn) :
    Balances call tokens s (next reply).phase ({ t with count := count }.noted turn) ∨
      ∃ fault, (next reply).phase = .failed fault := by
  have honward : Phase.Onward spins t.count phase (next reply).phase count := by
    have hgoes := Phase.onward_of_access hmove h.sound false t.count
    rwa [Phase.GoesBy, hperform] at hgoes
  have hrange := Count.toInt_range t.count
  have hraising := h.visits.raising_eq_zero
  rcases honward.visits_or_fails h.visits with hvisits | ⟨-, hfails⟩
  · rcases honward.sum_or_fails h.sound (by omega) with ⟨hsum, hheld⟩ | ⟨-, hfails⟩
    · have hcount := h.count_eq
      have hgrants := h.grants_le_held
      refine .inl ⟨hvisits, honward.sound, ?_, h.tokens_eq, h.grants_le_one, ?_⟩
      · simp only [noted]
        omega
      · simp only [noted]
        omega
    · exact .inr hfails
  · exact .inr hfails

variable {serve : Server κ} {met : Kernel.Request → Semaphore κ → Semaphore κ}

/-- A call that is registered and is granted a token holds that token. -/
theorem grant (hserve : serve.Interrupted tokens met) {request : Kernel.Request}
    (hrefusable : request.refusable) {after : Semaphore κ}
    (hserved : serve request t.withoutNotes = (.ok true, after))
    (hwanted : demand.wanted) (hphase : phase.held = 0 ∧ phase.registered = 1)
    (h : Balances (.acquire demand (.within timeout)) tokens s phase t) (turn : Turn) :
    Balances (.acquire demand (.within timeout)) tokens s (Phase.granted demand)
      ((after.withNotes (t.kernel.2 ++
        [Interlude.of tokens met request t.withoutNotes (.ok true)])).noted turn) := by
  obtain ⟨hmet, htoken⟩ := hserve.granted _ _ _ hrefusable hserved
  have hholds := Phase.holds_granted demand
  have hcount := h.count_eq
  have htokens := h.tokens_eq
  have hnone := h.grants_le_held
  have hplain : t.withoutNotes.count = t.count := rfl
  have hkernel : t.withoutNotes.kernel = t.kernel.1 := rfl
  refine ⟨Phase.visits_granted hwanted rfl, hholds.sound, ?_, ?_, ?_, ?_⟩
  · simp only [noted, withNotes, Interlude.total_snoc, Interlude.of, hholds.held_eq,
      hholds.registered_eq, hmet, hplain]
    omega
  · simp only [noted, withNotes, Interlude.total_snoc, Interlude.of, hkernel,
      Interlude.grants_snoc_granted]
    omega
  · simp only [noted, withNotes, Interlude.of, Interlude.grants_snoc_granted]
    omega
  · simp only [noted, withNotes, Interlude.of, Interlude.grants_snoc_granted, hholds.held_eq]
    omega

/-- A call that is registered and is refused a token is registered still. -/
theorem refuse (hserve : serve.Interrupted tokens met) {request : Kernel.Request}
    (hrefusable : request.refusable) {after : Semaphore κ}
    (hserved : serve request t.withoutNotes = (.ok false, after))
    (hwanted : demand.wanted) (hphase : phase.held = 0 ∧ phase.registered = 1)
    (h : Balances (.acquire demand (.within timeout)) tokens s phase t) (turn : Turn) :
    Balances (.acquire demand (.within timeout)) tokens s (.recheck demand)
      ((after.withNotes (t.kernel.2 ++
        [Interlude.of tokens met request t.withoutNotes (.ok false)])).noted turn) := by
  obtain ⟨hmet, htoken⟩ := hserve.refused _ _ _ hrefusable hserved
  have hcount := h.count_eq
  have htokens := h.tokens_eq
  have hnone := h.grants_le_held
  have hplain : t.withoutNotes.count = t.count := rfl
  have hkernel : t.withoutNotes.kernel = t.kernel.1 := rfl
  refine ⟨⟨hwanted, timeout, rfl⟩, trivial, ?_, ?_, ?_, ?_⟩
  · simp only [noted, withNotes, Interlude.total_snoc, Interlude.of, Phase.held,
      Phase.registered, hmet, hplain]
    omega
  · simp only [noted, withNotes, Interlude.total_snoc, Interlude.of, hkernel,
      Interlude.grants_snoc_refused]
    omega
  · simp only [noted, withNotes, Interlude.of, Interlude.grants_snoc_refused]
    omega
  · simp only [noted, withNotes, Interlude.of, Interlude.grants_snoc_refused, Phase.held]
    omega

/-- An interlude and the answer of the kernel leave the account in order. -/
theorem request (hserve : serve.Interrupted tokens met) {request : Kernel.Request}
    {next : Bool → Turn} (hmove : phase.move spins = .request request next) {granted : Bool}
    {after : Semaphore κ} (hserved : serve request t.withoutNotes = (.ok granted, after))
    (h : Balances (.acquire demand (.within timeout)) tokens s phase t) (turn : Turn) :
    Balances (.acquire demand (.within timeout)) tokens s (next granted).phase
      ((after.withNotes (t.kernel.2 ++
        [Interlude.of tokens met request t.withoutNotes (.ok granted)])).noted turn) := by
  obtain ⟨hrefusable, hwanted, hphase, hgranted, hrefused⟩ := h.visits.request_cases hmove
  cases granted with
  | true =>
    rw [hgranted]
    exact h.grant hserve hrefusable hserved hwanted hphase turn
  | false =>
    rw [hrefused]
    exact h.refuse hserve hrefusable hserved hwanted hphase turn

end Balances

/-! ## The account of a call that returns -/

/-- One grant at most is told apart from none by looking for it. -/
theorem Interlude.grants_eq {between : List Interlude} (h : grants between ≤ 1) :
    (between.any granted).toNat = grants between := by
  cases hany : between.any granted with
  | true =>
    have hsome : 0 < grants between := by
      rw [grants, List.countP_pos_iff]
      exact List.any_eq_true.mp hany
    simp only [Bool.toNat_true]
    omega
  | false =>
    have hnone : grants between = 0 := by
      rw [grants, List.countP_eq_zero]
      exact fun interlude hmem => List.any_eq_false.mp hany interlude hmem
    rw [hnone, Bool.toNat_false]

/-- A call with limited patience settles its account, whatever others do in its interludes. What
it answers to have taken is gone from the count. The kernel has lost one token if it was there
that the call got its first one, and otherwise none. A call that comes away with nothing leaves
the count and the kernel as the others have made them. -/
theorem interruptions_settled {serve : Server κ} {tokens : κ → Nat}
    {met : Kernel.Request → Semaphore κ → Semaphore κ} (hserve : serve.Interrupted tokens met)
    {demand : Demand} {timeout : Duration} {moves taken : Nat} {s after : Semaphore κ}
    (hrun : run serve moves (.ofCall (.acquire demand (.within timeout))) s =
      (.ok taken, after)) :
    Settled tokens s
      (interludes serve tokens met moves (.acquire demand (.within timeout)) s)
      ((Call.acquire demand (.within timeout)).answer taken).worth after := by
  obtain ⟨noted, hnoted, rfl⟩ := exists_run_annotated (Interlude.of tokens met) hrun
  obtain ⟨last, hlast, hmove⟩ := run_keeps
    (fun phase t => Balances (.acquire demand (.within timeout)) tokens s phase t ∨
      ∃ fault, phase = .failed fault)
    (fun phase t access next reply count hmove hperform h => by
      rcases h with h | ⟨fault, rfl⟩
      · exact h.access hmove hperform (next reply)
      · cases hmove)
    (fun phase t request next granted served hmove hserved h => by
      rcases h with h | ⟨fault, rfl⟩
      · obtain ⟨left, hleft, rfl⟩ := Server.exists_of_annotated hserved
        exact .inl (h.request hserve hmove hleft (next granted))
      · cases hmove)
    (.inl (.start demand (.within timeout) tokens s)) hnoted
  rcases hlast with hlast | ⟨fault, rfl⟩
  · rcases Phase.finish_cases hmove hlast.sound with ⟨tokens', rfl, htokens⟩ | ⟨_, _, hfault⟩
    · cases htokens
      have htakes : (Call.acquire demand (.within timeout)).Takes taken := hlast.visits
      have hworth := htakes.worth_eq rfl
      have hcount := hlast.count_eq
      have hkernel := hlast.tokens_eq
      have hheld := hlast.grants_le_held
      have hany := Interlude.grants_eq hlast.grants_le_one
      have hnoted : interludes serve tokens met moves (.acquire demand (.within timeout)) s =
          noted.kernel.2 := by
        unfold interludes
        rw [hnoted]
      simp only [Phase.held, Phase.registered] at hcount hheld
      rw [hworth, hnoted]
      refine ⟨?_, ?_, fun hnone => ?_⟩
      · simp only [withoutNotes]
        omega
      · simp only [withoutNotes]
        omega
      · have hrefused : Interlude.grants noted.kernel.2 = 0 := by omega
        rw [Interlude.grants, List.countP_eq_zero] at hrefused
        exact fun interlude hmem => Bool.not_eq_true _ ▸ hrefused interlude hmem
    · cases hfault
  · cases hmove

/-! ## Interludes that are played by a script -/

namespace Rehearsal

/-- What the others make of a semaphore during a request, by the cue that it takes. Their own
requests are served in the same way, one level deeper. -/
def meanwhile (depth : Nat) (request : Kernel.Request) (s : Semaphore Rehearsal) :
    Semaphore Rehearsal :=
  let s := onKernel s fun r => { r.traced (.asked request) with asked := r.asked + 1 }
  perform (serve depth) (s.kernel.cues.head?.elim [] Cue.during)
    (onKernel s fun r => { r with cues := r.cues.tail })

/-- A request that may be refused is answered after the others are done. -/
theorem serve_of_refusable (depth : Nat) {request : Kernel.Request} (h : request.refusable)
    (s : Semaphore Rehearsal) :
    serve (depth + 1) request s =
      if patience < s.kernel.asked + 1 then
        (.error .overrun,
          onKernel s fun r => { r.traced (.asked request) with asked := r.asked + 1 })
      else if refuses request s.kernel.cues.head? ||
          (meanwhile depth request s).kernel.tokens == 0 then
        (.ok false, onKernel (meanwhile depth request s) fun r => r.traced (.answered false))
      else
        (.ok true, onKernel (meanwhile depth request s) fun r =>
          { r.traced (.answered true) with tokens := r.tokens - 1 }) := by
  cases request with
  | wait => cases h
  | tryWait => rfl
  | timedWait timeout => rfl
  | signal count => cases h

/-- A rehearsal lets others act, and then it hands out one of its tokens or none. -/
theorem serve_interrupted (depth : Nat) :
    (serve (depth + 1)).Interrupted Rehearsal.tokens (meanwhile depth) := by
  constructor
  · intro request s after hrequest hserve
    rw [serve_of_refusable depth hrequest] at hserve
    split at hserve
    · cases hserve
    · split at hserve
      · cases hserve
      · next hsome =>
        cases hserve
        simp only [Bool.or_eq_true, beq_iff_eq, not_or] at hsome
        refine ⟨rfl, ?_⟩
        simp only [onKernel]
        omega
  · intro request s after hrequest hserve
    rw [serve_of_refusable depth hrequest] at hserve
    split at hserve
    · cases hserve
    · split at hserve
      · cases hserve
        exact ⟨rfl, rfl⟩
      · cases hserve

end Rehearsal

/-- While a first thread waits, a second one comes and waits as well; while that one waits, two
tokens are signalled. Both waits are refused nevertheless, and both threads take their token
afterwards. -/
def refusedTwice : Semaphore Rehearsal :=
  ⟨0, 1, (Rehearsal.create 0).scripted
    [⟨[.call (.acquire .one (.within (.ofNanos 1)))], true⟩, ⟨[.call (.signal 2)], true⟩,
      ⟨[], false⟩, ⟨[], false⟩], []⟩

theorem interruptions_settled_refusedTwice :
    ∃ after, run (Rehearsal.serve 4) 16 (.ofCall (.acquire .one (.within (.ofNanos 1))))
        refusedTwice = (.ok 1, after) ∧
      interludes (Rehearsal.serve 4) Rehearsal.tokens (Rehearsal.meanwhile 3) 16
        (.acquire .one (.within (.ofNanos 1))) refusedTwice = [⟨1, 1, false⟩, ⟨0, 0, true⟩] ∧
      Settled Rehearsal.tokens refusedTwice [⟨1, 1, false⟩, ⟨0, 0, true⟩] 1 after := by
  have hrun : run (Rehearsal.serve 4) 16 (.ofCall (.acquire .one (.within (.ofNanos 1))))
      refusedTwice = (.ok 1, _) := rfl
  have hsettled := interruptions_settled (Rehearsal.serve_interrupted 3) hrun
  exact ⟨_, hrun, rfl, hsettled⟩

end Semaphore

end WordSync
