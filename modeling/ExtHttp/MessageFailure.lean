import ExtHttp.MessageParser

/-!
# The exits of the message parser with a failure

Two of them leave the state `FAILURE` on the stack, and the parser stays in it. Two forget to push
it.
-/
namespace ExtHttp
open BufferLoop

variable {Url : Type} (E : Engine Url)

/-- The calls on a fresh parser, each with its flags and the data that is appended to the buffer
before. None comes after one that follows a NULL pointer. -/
def messageOutcomes (calls : List (MessageCall × Bytes)) :
    List (Option MessageState × MessageConfig Url × Bytes) :=
  outcomes (messageLoop E) (· = none) messageParserInit.config [] calls

/-- A failure is the parser's state from then on; later calls fail, too, and leave the messages
alone. -/
def FailureSticky (os : List (Option MessageState × MessageConfig Url × Bytes)) : Prop :=
  (∀ o ∈ os, o.1 = some .failure → o.2.1.parser.state = .failure) ∧
    os.Pairwise fun o o' => o.1 = some .failure →
      o'.1 = some .failure ∧ o'.2.1.parser.message = o.2.1.parser.message

instance [DecidableEq Url] (os : List (Option MessageState × MessageConfig Url × Bytes)) :
    Decidable (FailureSticky os) := by
  unfold FailureSticky
  infer_instance

/-- The turn fails in the header parser or in the dechunk stream. -/
def FailsUnpushed (call : MessageCall) (c : MessageConfig Url) (b : Bytes) : Prop :=
  c.parser.state = .header ∧
      ((headerLoop E.urls messageSink ⟨call.cleanup, call.beyond⟩).run
        (c.parser.header, c.parser.message) b).1 = .failure ∨
    c.parser.state = .bodyChunked ∧ b ≠ [] ∧
      c.parser.dechunk.join.any (fun ctx => (dechunkUpdate false ctx b).1.isNone) = true

instance (call : MessageCall) (c : MessageConfig Url) (b : Bytes) :
    Decidable (FailsUnpushed E call c b) := inferInstanceAs (Decidable (_ ∨ _))

/-- There is no `FAILURE` under the top of the stack. -/
def FailureOnTop (c : MessageConfig Url) : Prop := .failure ∉ c.parser.stack.tail

section Turn
variable {E} {call : MessageCall} {c d : MessageConfig Url} {b b' : Bytes}

theorem FailsUnpushed.turn (h : FailsUnpushed E call c b) :
    ∃ d b', messageTurn E call c b = .ret (some .failure) d b' ∧
      d.parser.stack = c.parser.stack.tail := by
  obtain ⟨hs, hf⟩ | ⟨hs, hb, hf⟩ := h
  · rw [messageTurn_pop (by simp [hs, MessageState.needData]), hs]
    change ∃ d b', messageHeaderTurn E call c.parser.pop b = _ ∧ _
    unfold messageHeaderTurn
    dsimp only [MessageParser.pop]
    rw [hf]
    exact ⟨_, _, rfl, rfl⟩
  · rw [messageTurn_pop fun _ => hb, hs]
    change ∃ d b', bodyChunkedTurn c.parser.pop b = _ ∧ _
    unfold bodyChunkedTurn
    dsimp only [MessageParser.pop]
    obtain ⟨ctx, hctx, hnone⟩ := (Option.any_eq_true _ _).mp hf
    have hdechunk := Option.join_eq_some_iff.mp hctx
    rcases hu : dechunkUpdate false ctx b with ⟨_ | dec, ctx'⟩
    · simp only [hdechunk, hu]
      exact ⟨_, _, rfl, rfl⟩
    · simp [hu] at hnone

/-- The other failures are pushed. -/
theorem messageTurn_failure (h : messageTurn E call c b = .ret (some .failure) d b') :
    FailsUnpushed E call c b ∨ d.parser.state = .failure := by
  by_cases hdata : c.parser.state.needData = true → b ≠ []
  · rw [messageTurn_pop hdata] at h
    unfold FailsUnpushed
    generalize c.parser.state = state at h hdata
    cases state
    case failure =>
      cases h
      exact .inr rfl
    case start =>
      change startTurn _ b = _ at h
      unfold startTurn at h
      split at h <;> cases h
    case header =>
      change messageHeaderTurn E call _ b = _ at h
      unfold messageHeaderTurn at h
      dsimp only at h
      split at h
      · next hf => exact .inl (.inl ⟨rfl, hf⟩)
      · cases h
      · split_ifs at h <;> cases h
    case headerDone =>
      change messageHeaderDoneTurn E call _ b = _ at h
      unfold messageHeaderDoneTurn at h
      split at h <;> cases h
    case body =>
      change bodyTurn E _ _ _ b = _ at h
      unfold bodyTurn at h
      split_ifs at h
      dsimp only at h
      split at h <;> cases h
      exact .inr rfl
    case bodyDumb => cases h
    case bodyLength => cases h
    case bodyChunked =>
      change bodyChunkedTurn _ b = _ at h
      unfold bodyChunkedTurn at h
      split at h
      · next ctx hctx =>
        split at h
        · next hf =>
          have hjoin : c.parser.dechunk.join = some ctx := congrArg Option.join hctx
          exact .inl (.inr ⟨rfl, hdata rfl, by simp [hjoin, hf]⟩)
        · dsimp only at h
          split_ifs at h <;> cases h
      · cases h
    case bodyDone => cases h
    case updateCl =>
      change updateClTurn _ b = _ at h
      unfold updateClTurn at h
      split at h <;> cases h
    case done =>
      change doneTurn call _ b = _ at h
      unfold doneTurn at h
      split at h <;> cases h
  · push Not at hdata
    rw [hdata.2, messageTurn_wait _ hdata.1] at h
    have hstate : some c.parser.state = some .failure := congrArg (fun t : MessageTurn Url =>
      match t with | .ret r _ _ => r | .next _ _ => none) h
    rw [Option.some.inj hstate] at hdata
    cases hdata.1

/-- What a turn in a state pushes: nothing, one state, or `BODY` on top of one. `BODY` and `FAILURE`
push nothing but `FAILURE`. -/
inductive Pushes (state : MessageState) : List MessageState → Prop
  | none : Pushes state []
  | one {s : MessageState} : state = .body ∨ state = .failure → s = .failure → Pushes state [s]
  | other {s : MessageState} : state ≠ .body → state ≠ .failure → Pushes state [s]
  | body {s : MessageState} : state ≠ .body → state ≠ .failure → s ≠ .failure →
    Pushes state [.body, s]

theorem Pushes.failure {state : MessageState} {pushed : List MessageState}
    (h : Pushes state pushed) :
    .failure ∉ pushed.tail := by
  cases h with
  | none => simp
  | one => simp
  | other => simp
  | body _ _ hs => simpa using hs.symm

/-- A turn pushes states on the others. -/
theorem stateTurn_stack (call : MessageCall) (state : MessageState) (mp : MessageParser Url)
    (str : Bytes) (cut : ℕ) (b : Bytes) :
    ∃ pushed, (stateTurn E call state mp str cut b).state.parser.stack =
      pushed ++ mp.stack ∧ Pushes state pushed := by
  have hnone : ∃ pushed, mp.stack = pushed ++ mp.stack ∧ Pushes state pushed := ⟨[], rfl, .none⟩
  have hone : ∀ s, state ≠ .body ∧ state ≠ .failure →
      ∃ pushed, s :: mp.stack = pushed ++ mp.stack ∧ Pushes state pushed :=
    fun s hs => ⟨[s], rfl, .other hs.1 hs.2⟩
  have htwo : ∀ s ≠ .failure, state ≠ .body ∧ state ≠ .failure →
      ∃ pushed, .body :: s :: mp.stack = pushed ++ mp.stack ∧ Pushes state pushed :=
    fun s hs hstate => ⟨[.body, s], rfl, .body hstate.1 hstate.2 hs⟩
  have hfailure : state = .body ∨ state = .failure →
      ∃ pushed, .failure :: mp.stack = pushed ++ mp.stack ∧ Pushes state pushed :=
    fun hs => ⟨[.failure], rfl, .one hs rfl⟩
  cases state <;> dsimp only [stateTurn]
  case failure => exact hfailure (.inr rfl)
  case start =>
    unfold startTurn
    split_ifs
    · exact hnone
    · exact hone .header (by simp)
  case header =>
    unfold messageHeaderTurn
    dsimp only
    split
    · exact hnone
    · exact hone .headerDone (by simp)
    · split_ifs
      · exact hone .header (by simp)
      · exact hone .headerDone (by simp)
  case headerDone =>
    unfold messageHeaderDoneTurn
    split
    · exact hnone
    · next m parents _ =>
      exact ⟨[(messageHeaderDone E call mp m).2.2],
        congrArg (_ :: ·) (messageHeaderDone_keeps m).1, .other (by simp) (by simp)⟩
  case body =>
    unfold bodyTurn
    split_ifs
    · exact hnone
    · dsimp only
      split
      · exact hfailure (.inl rfl)
      · exact hnone
      · exact hnone
  case bodyDumb => exact htwo .bodyDone (by decide) (by simp)
  case bodyLength =>
    refine htwo _ ?_ (by simp)
    split_ifs <;> simp
  case bodyChunked =>
    unfold bodyChunkedTurn
    split
    · split
      · exact hnone
      · dsimp only
        split_ifs
        · exact htwo .bodyDone (by decide) (by simp)
        · exact htwo .bodyChunked (by decide) (by simp)
    · exact hnone
  case bodyDone => exact hone .done (by simp)
  case updateCl =>
    unfold updateClTurn
    split <;> exact hnone
  case done =>
    unfold doneTurn
    split_ifs <;> exact hnone

theorem messageLoop_failureOnTop {c : MessageConfig Url} (b : Bytes) (h : FailureOnTop c) :
    FailureOnTop ((messageLoop E call).turn c b).state := by
  change FailureOnTop (messageTurn E call c b).state
  by_cases hdata : c.parser.state.needData = true → b ≠ []
  · rw [messageTurn_pop hdata]
    obtain ⟨pushed, hstack, hpushed⟩ :=
      stateTurn_stack (E := E) call c.parser.state c.parser.pop c.str c.cut b
    rw [FailureOnTop, hstack]
    have hpop : .failure ∉ c.parser.pop.stack := h
    cases pushed with
    | nil => exact fun hmem => hpop (List.mem_of_mem_tail hmem)
    | cons s pushed => simpa using ⟨hpushed.failure, hpop⟩
  · push Not at hdata
    rw [hdata.2, messageTurn_wait _ hdata.1]
    exact h

end Turn

/-! ### Runs -/

section Run
variable {E}

theorem messageLoop_failed (call : MessageCall) {c : MessageConfig Url} (b : Bytes)
    (h : c.parser.state = .failure) :
    (messageLoop E call).run c b =
      (some .failure, { c.parser.pop with stack := .failure :: c.parser.pop.stack }.config, b) := by
  refine Machine.run_ret ?_
  change messageTurn E call c b = _
  rw [messageTurn_pop (by simp [h, MessageState.needData]), h]
  rfl

theorem outcomes_failed {c : MessageConfig Url} (b : Bytes) (h : c.parser.state = .failure)
    (calls : List (MessageCall × Bytes)) :
    ∀ o ∈ outcomes (messageLoop E) (· = none) c b calls,
      o.1 = some .failure ∧ o.2.1.parser.state = .failure ∧
        o.2.1.parser.message = c.parser.message := by
  refine outcomes_of_absorbing (I := fun d => d.parser.state = .failure ∧
    d.parser.message = c.parser.message) ?_ ⟨h, rfl⟩ calls
  intro call d b hd
  rw [messageLoop_failed call b hd.1]
  exact ⟨⟨rfl, hd.2⟩, rfl, rfl, hd.2⟩

theorem failureSticky_cons {o : Option MessageState × MessageConfig Url × Bytes}
    {os : List (Option MessageState × MessageConfig Url × Bytes)}
    (h : o.2.1.parser.state = .failure →
      ∀ o' ∈ os, o'.1 = some .failure ∧ o'.2.1.parser.message = o.2.1.parser.message) :
    FailureSticky (o :: os) ↔
      (o.1 = some .failure → o.2.1.parser.state = .failure) ∧ FailureSticky os := by
  unfold FailureSticky
  rw [List.forall_mem_cons, List.pairwise_cons]
  constructor
  · rintro ⟨⟨ho, hos⟩, -, hpair⟩
    exact ⟨ho, hos, hpair⟩
  · rintro ⟨ho, hos, hpair⟩
    exact ⟨⟨ho, hos⟩, fun o' ho' hf => h (ho hf) o' ho', hpair⟩

/-- A call that fails is in state `FAILURE` afterwards if it has not failed unpushed. -/
theorem messageLoop_failure_iff (call : MessageCall) {c : MessageConfig Url} (b : Bytes)
    (h : FailureOnTop c) :
    (((messageLoop E call).run c b).1 = some .failure →
        ((messageLoop E call).run c b).2.1.parser.state = .failure) ↔
      ∀ d, (messageLoop E call).Visits (c, b) d → ¬ FailsUnpushed E call d.1 d.2 := by
  constructor
  · intro hf d hd hu
    obtain ⟨e, b', hturn, hstack⟩ := hu.turn
    rw [Machine.run_visits hd, Machine.run_ret hturn] at hf
    have htop : .failure ∉ e.parser.stack :=
      hstack ▸ hd.state_invariant messageLoop_failureOnTop h
    have hstate := hf rfl
    unfold MessageParser.state at hstate
    cases hs : e.parser.stack with
    | nil => rw [hs] at hstate; cases hstate
    | cons s stack => rw [hs] at hstate htop; exact htop (List.mem_cons.mpr (.inl hstate.symm))
  · intro hall hf
    obtain ⟨d, hd, hlast⟩ := (messageLoop E call).exists_last_turn c b
    rw [hf] at hlast
    exact (messageTurn_failure hlast).resolve_left (hall d hd)

theorem failureSticky_outcomes {c : MessageConfig Url} {b : Bytes} (h : FailureOnTop c)
    (calls : List (MessageCall × Bytes)) :
    FailureSticky (outcomes (messageLoop E) (· = none) c b calls) ↔
      Throughout (messageLoop E) (· = none) (fun call _ c b => ¬ FailsUnpushed E call c b) c b
        calls := by
  induction calls generalizing c b with
  | nil => simp [outcomes, FailureSticky, Throughout]
  | cons kp calls ih =>
    obtain ⟨call, p⟩ := kp
    have hrun : FailureOnTop ((messageLoop E call).run c (b ++ p)).2.1 :=
      Machine.run_state_invariant messageLoop_failureOnTop _ h
    have hiff := messageLoop_failure_iff (E := E) call (b ++ p) h
    rw [outcomes, Throughout, ← hiff]
    by_cases hnull : ((messageLoop E call).run c (b ++ p)).1 = none
    · rw [if_pos hnull, failureSticky_cons (by simp)]
      simp [hnull, FailureSticky]
    · rw [if_neg hnull, failureSticky_cons fun hf o ho => ?_, ih hrun]
      · simp [hnull]
      · obtain ⟨hr, -, hm⟩ := outcomes_failed _ hf calls o ho
        exact ⟨hr, hm⟩

end Run

/-- A failure is sticky in just the runs where neither the header parser nor the dechunk stream
fails. -/
theorem failureSticky_iff (calls : List (MessageCall × Bytes)) :
    FailureSticky (messageOutcomes E calls) ↔
      Throughout (messageLoop E) (· = none) (fun call _ c b => ¬ FailsUnpushed E call c b)
        messageParserInit.config [] calls :=
  failureSticky_outcomes (by simp [FailureOnTop, messageParserInit, MessageParser.config]) calls

/-- Behind a broken chunk the parser starts over: the next call takes it for a header. -/
theorem chunk_failure_not_sticky :
    ¬ FailureSticky (messageOutcomes plainEngine
      [(plainCall, ascii "HTTP/1.1 200 OK\r\nTransfer-Encoding: chunked\r\n\r\nX: y\r\n\r\n"),
        (plainCall, [])]) := by
  simp only [ascii, String.reduceToList, List.map_cons, List.map_nil]
  decide +kernel

end ExtHttp
