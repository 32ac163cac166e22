import ExtHttp.MessageStream

/-!
# The message parser comes to an end

The loop of `php_http_message_parser_parse` ends within a number of turns that is known beforehand,
and what it returns is no state that `php_http_message_parser_parse_stream` would abort in.
-/
namespace ExtHttp
open BufferLoop

/-- The states that the stream aborts in. -/
def MessageState.internal : MessageState → Bool
  | .body | .bodyDone | .updateCl => true
  | _ => false

variable {Url : Type} (E : Engine Url)

/-- The states, parsers and buffers with which the loop of `php_http_message_parser_parse_stream`
comes to its `switch`, whatever the stream brings. -/
inductive StreamReached (flags : MessageCall) (mp₀ : MessageParser Url) (b₀ : Bytes) :
    MessageState → MessageParser Url → Bytes → Prop
  | init : StreamReached flags mp₀ b₀ .start mp₀ b₀
  | round {state state' : MessageState} {mp mp' mp'' : MessageParser Url} {b b' b'' : Bytes}
      (r : StreamRead) (justread : ℕ) :
      StreamReached flags mp₀ b₀ state mp b → state ≠ .done → state ≠ .failure →
      streamRead state mp b r = some (justread, mp', b') → justread ≠ 0 →
      messageParse E flags mp' b' = (some state', mp'', b'') →
      StreamReached flags mp₀ b₀ state' mp'' b''

variable {E} {call : MessageCall}

/-- The `switch` leaves the loop with one of three states, or follows a NULL pointer. -/
theorem stateTurn_ret {state : MessageState} {mp : MessageParser Url} {str b b' : Bytes} {cut : ℕ}
    {r : Option MessageState} {d : MessageConfig Url}
    (h : stateTurn E call state mp str cut b = .ret r d b') :
    ∀ s ∈ r, s ∈ [MessageState.failure, .header, .done] := by
  have hnone : ∀ s ∈ (none : Option MessageState), s ∈ [MessageState.failure, .header, .done] :=
    fun s hs => by cases hs
  have hsome : ∀ state ∈ [MessageState.failure, .header, .done],
      ∀ s ∈ some state, s ∈ [MessageState.failure, .header, .done] := by
    rintro state hstate s ⟨⟩
    exact hstate
  cases state <;> dsimp only [stateTurn] at h
  case failure =>
    cases h
    exact hsome _ (by simp)
  case start =>
    unfold startTurn at h
    split_ifs at h
    cases h
  case header =>
    unfold messageHeaderTurn at h
    dsimp only at h
    split at h
    · cases h
      exact hsome _ (by simp)
    · cases h
    · split_ifs at h <;> cases h
      exact hsome _ (by simp)
  case headerDone =>
    unfold messageHeaderDoneTurn at h
    split at h <;> cases h
    exact hnone
  case body =>
    unfold bodyTurn at h
    split_ifs at h
    dsimp only at h
    split at h <;> cases h
    · exact hsome _ (by simp)
    · exact hnone
  case bodyDumb => cases h
  case bodyLength => cases h
  case bodyChunked =>
    unfold bodyChunkedTurn at h
    split at h
    · split at h
      · cases h
        exact hsome _ (by simp)
      · dsimp only at h
        split_ifs at h <;> cases h
    · cases h
      exact hnone
  case bodyDone => cases h
  case updateCl =>
    unfold updateClTurn at h
    split at h <;> cases h
    exact hnone
  case done =>
    unfold doneTurn at h
    split_ifs at h
    cases h
    exact hsome _ (by simp)

/-- A turn leaves the loop with one of these states, or it waits for data. -/
theorem messageTurn_ret {c d : MessageConfig Url} {r : Option MessageState} {b b' : Bytes}
    (h : messageTurn E call c b = .ret r d b') :
    (∀ s ∈ r, s ∈ [MessageState.failure, .header, .done]) ∨
      r = some c.parser.state ∧ c.parser.state.needData = true ∧ d.parser = c.parser ∧ b' = [] := by
  by_cases hdata : c.parser.state.needData = true → b ≠ []
  · rw [messageTurn_pop hdata] at h
    exact .inl (stateTurn_ret h)
  · push Not at hdata
    obtain ⟨hneed, rfl⟩ := hdata
    rw [messageTurn_wait _ hneed] at h
    cases h
    exact .inr ⟨rfl, hneed, rfl, rfl⟩

/-- A call returns no internal state, and one that needs data only with an empty buffer, when it is
the state of the parser. -/
theorem messageParse_ret {mp mp' : MessageParser Url} {b b' : Bytes} {state : MessageState}
    (h : messageParse E call mp b = (some state, mp', b')) : state.internal = false ∧
      (state.needData = true → mp'.state = state ∧ b' = []) := by
  obtain ⟨d, -, ht⟩ := (messageLoop E call).exists_last_turn mp.config b
  have hparts : ((messageLoop E call).run mp.config b).1 = some state ∧
      ((messageLoop E call).run mp.config b).2.1.parser = mp' ∧
      ((messageLoop E call).run mp.config b).2.2 = b' := by
    obtain ⟨hr, hrest⟩ := Prod.mk.inj h
    exact ⟨hr, Prod.mk.inj hrest⟩
  rcases messageTurn_ret ht with hleft | ⟨hr, hneed, hparser, hempty⟩
  · have hmem := hleft state hparts.1
    constructor
    · revert hmem
      cases state <;> simp [MessageState.internal]
    · revert hmem
      cases state <;> simp [MessageState.needData]
  · obtain rfl : state = d.1.parser.state := Option.some.inj (hparts.1.symm.trans hr)
    refine ⟨?_, fun _ => ⟨?_, hparts.2.2.symm.trans hempty⟩⟩
    · revert hneed
      cases d.1.parser.state <;> simp [MessageState.internal, MessageState.needData]
    · rw [← hparts.2.1, hparser]

/-- The stream comes to its `switch` with an empty buffer, unless it is to read a line. -/
def Drained (state : MessageState) (b : Bytes) : Prop :=
  state.needData = true → state = .start ∨ b = []

theorem Drained.of_parse {mp mp' : MessageParser Url} {b b' : Bytes} {state : MessageState}
    (h : messageParse E call mp b = (some state, mp', b')) : Drained state b' :=
  fun hneed => .inr ((messageParse_ret h).2 hneed).2

theorem StreamReached.internal {mp₀ mp : MessageParser Url} {b₀ b : Bytes} {state : MessageState}
    (h : StreamReached E call mp₀ b₀ state mp b) : state.internal = false := by
  cases h with
  | init => rfl
  | round r justread _ _ _ _ _ hparse => exact (messageParse_ret hparse).1

/-- From any parser, with any buffer, flags and chain, the loop ends after a number of turns that
weight and length bound, and what it returns, if it has not followed a NULL pointer, is no internal
state. So the stream does not abort, whatever it reads. -/
theorem messageParse_ends (E : Engine Url) (call : MessageCall) (mp : MessageParser Url)
    (b : Bytes) :
    (∃ n ≤ 32 * b.length + mp.stackWeight + mp.headerWeight + 10,
      (messageLoop E call).runWithin n mp.config b = some ((messageLoop E call).run mp.config b)) ∧
    (∀ s ∈ (messageParse E call mp b).1, s ∉ [MessageState.body, .bodyDone, .updateCl]) ∧
    ∀ state mp' b', StreamReached E call mp b state mp' b' →
      state ∉ [MessageState.body, .bodyDone, .updateCl] := by
  have hinternal : ∀ s : MessageState, s.internal = false →
      s ∉ [MessageState.body, .bodyDone, .updateCl] := by
    intro s hs
    cases s <;> first | decide | cases hs
  refine ⟨⟨_, ?_, (messageLoop E call).runWithin_weight (Nat.lt_succ_self _)⟩, fun s hs => ?_,
    fun state mp' b' h => hinternal state h.internal⟩
  case refine_2 =>
    have hparse : messageParse E call mp b =
        (some s, (messageParse E call mp b).2.1, (messageParse E call mp b).2.2) := Prod.ext hs rfl
    exact hinternal s (messageParse_ret hparse).1
  exact Nat.succ_le_succ (messageWeight_le mp.config b)

end ExtHttp
