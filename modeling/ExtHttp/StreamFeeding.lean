import ExtHttp.ChunkedRest
import ExtHttp.HeaderCalls
import ExtHttp.MessageFailure
import ExtHttp.MessageTermination

/-!
# What the streams feed

`php_http_header_parser_parse_stream` and `php_http_message_parser_parse_stream` against the calls
of the parser on the pieces that the stream brings.
-/
namespace ExtHttp
open BufferLoop

/-! ### The header parser -/

/-- Read a line, or a single character: `justread` and the buffer. -/
def headerStreamRead (b : Bytes) (r : StreamRead) : ℕ × Bytes :=
  if r.data ≠ [] then (r.data.length, b ++ r.data)
  else match r.char with
    -- appended, and then accounted once more
    | some c => (1, b ++ [c, byteAt r.stale 1])
    | none => (0, b)

/-- The bytes that leave the stream where a line is read. -/
def StreamRead.linePiece (r : StreamRead) : Bytes := if r.data ≠ [] then r.data else r.char.toList

/-- No line is there, but then a single character is. -/
def StreamRead.Single (r : StreamRead) : Prop := r.data = [] ∧ r.char.isSome = true

instance (r : StreamRead) : Decidable r.Single := inferInstanceAs (Decidable (_ ∧ _))

section Header
variable {Url S : Type} (P : UrlParsers Url) (sink : HeaderSink Url S) (flags : HeaderCall)

/-- `php_http_header_parser_parse_stream`: the calls it makes, and its state, parser, headers and
buffer when it returns. Where the list of rounds ends the loop is still going on. -/
def headerParseStream (state : HeaderState) (c : HeaderConfig S) (b : Bytes) :
    List StreamRead → List (HeaderParse S) × Option (HeaderState × HeaderConfig S × Bytes)
  | [] => ([], if state = .done ∨ state = .failure then some (state, c, b) else none)
  | r :: rs =>
      if state = .done ∨ state = .failure then ([], some (state, c, b))
      else
        let (justread, b) := headerStreamRead b r
        if justread ≠ 0 then
          let o := (headerLoop P sink flags).run c b
          let rest := headerParseStream o.1 o.2.1 o.2.2 rs
          (⟨flags, c.1, c.2, b⟩ :: rest.1, rest.2)
        else if r.eof then
          let flags := { flags with cleanup := true }
          ([⟨flags, c.1, c.2, b⟩], some ((headerLoop P sink flags).run c b))
        else ([], some (state, c, b))

/-- The rounds of the stream that the loop takes. -/
def headerRounds (state : HeaderState) (c : HeaderConfig S) (b : Bytes) :
    List StreamRead → List StreamRead
  | [] => []
  | r :: rs =>
      if state = .done ∨ state = .failure then []
      else
        let (justread, b) := headerStreamRead b r
        if justread ≠ 0 then
          let o := (headerLoop P sink flags).run c b
          r :: headerRounds o.1 o.2.1 o.2.2 rs
        else [r]

/-- The calls that rounds of a stream are to make: one for every piece, and one to clean up at the
end. -/
def piecesOf (rounds : List StreamRead) : List (HeaderCall × Bytes) :=
  rounds.filterMap fun r =>
    if r.linePiece ≠ [] then some (flags, r.linePiece)
    else if r.eof then some ({ flags with cleanup := true }, []) else none

/-- The calls of the parser on pieces, each behind what the buffer still holds, and where the last
one leads. -/
def headerPieceCalls (state : HeaderState) (c : HeaderConfig S) (b : Bytes) :
    List (HeaderCall × Bytes) → List (HeaderParse S) × (HeaderState × HeaderConfig S × Bytes)
  | [] => ([], (state, c, b))
  | (flags, p) :: ps =>
      let o := (headerLoop P sink flags).run c (b ++ p)
      let rest := headerPieceCalls o.1 o.2.1 o.2.2 ps
      (⟨flags, c.1, c.2, b ++ p⟩ :: rest.1, rest.2)

/-- The stream calls the parser as the pieces do, and returns what they come to. -/
def HeaderFaithful (state : HeaderState) (c : HeaderConfig S) (b : Bytes)
    (rs : List StreamRead) : Prop :=
  let stream := headerParseStream P sink flags state c b rs
  let pieces := headerPieceCalls P sink state c b
    (piecesOf flags (headerRounds P sink flags state c b rs))
  stream.1 = pieces.1 ∧ ∀ o ∈ stream.2, o = pieces.2

variable {P sink flags}

theorem headerStreamRead_piece {r : StreamRead} (h : ¬ r.Single) (b : Bytes) :
    headerStreamRead b r = (r.linePiece.length, b ++ r.linePiece) := by
  unfold headerStreamRead StreamRead.linePiece
  split_ifs with hdata
  · rfl
  · push Not at hdata
    have hchar : r.char = none := by
      rw [← Option.not_isSome_iff_eq_none]
      exact fun hs => h ⟨hdata, hs⟩
    simp [hchar]

theorem headerStreamRead_single {r : StreamRead} (h : r.Single) (b : Bytes) :
    (headerStreamRead b r).1 = 1 ∧ r.linePiece ≠ [] ∧
      (headerStreamRead b r).2 ≠ b ++ r.linePiece := by
  obtain ⟨hdata, hchar⟩ := h
  obtain ⟨c, hc⟩ := Option.isSome_iff_exists.mp hchar
  simp [headerStreamRead, StreamRead.linePiece, hdata, hc]

theorem headerFaithful_iff (state : HeaderState) (c : HeaderConfig S) (b : Bytes)
    (rs : List StreamRead) :
    HeaderFaithful P sink flags state c b rs ↔
      ∀ r ∈ headerRounds P sink flags state c b rs, ¬ r.Single := by
  induction rs generalizing state c b with
  | nil =>
    simp only [HeaderFaithful, headerParseStream, headerRounds, piecesOf, List.filterMap_nil,
      headerPieceCalls, true_and]
    split_ifs <;> simp
  | cons r rs ih =>
    by_cases hend : state = .done ∨ state = .failure
    · simp [HeaderFaithful, headerParseStream, headerRounds, piecesOf, headerPieceCalls, hend]
    by_cases hsingle : r.Single
    · obtain ⟨hone, hpiece, hne⟩ := headerStreamRead_single hsingle b
      refine iff_of_false (fun h => ?_) (fun h => ?_)
      · have hcalls := h.1
        simp only [headerParseStream, headerRounds, hend, if_false, hone, piecesOf,
          List.filterMap_cons, hpiece, headerPieceCalls, ne_eq, one_ne_zero,
          not_false_eq_true, if_true, List.cons.injEq, HeaderParse.mk.injEq] at hcalls
        exact hne hcalls.1.2.2.2
      · refine h r ?_ hsingle
        simp [headerRounds, hend, hone]
    · have hread := headerStreamRead_piece hsingle b
      by_cases hpiece : r.linePiece = []
      · have hrounds : headerRounds P sink flags state c b (r :: rs) = [r] := by
          simp [headerRounds, hend, hread, hpiece]
        refine iff_of_true ?_ (by simp [hrounds, hsingle])
        rw [HeaderFaithful, hrounds]
        by_cases heof : r.eof = true <;>
          simp [headerParseStream, piecesOf, headerPieceCalls, hend, hread, hpiece, heof]
      · have hpos : r.linePiece.length ≠ 0 := fun h0 => hpiece (List.length_eq_zero_iff.mp h0)
        have hrest := ih ((headerLoop P sink flags).run c (b ++ r.linePiece)).1
          ((headerLoop P sink flags).run c (b ++ r.linePiece)).2.1
          ((headerLoop P sink flags).run c (b ++ r.linePiece)).2.2
        have hrounds : headerRounds P sink flags state c b (r :: rs) = r ::
            headerRounds P sink flags ((headerLoop P sink flags).run c (b ++ r.linePiece)).1
              ((headerLoop P sink flags).run c (b ++ r.linePiece)).2.1
              ((headerLoop P sink flags).run c (b ++ r.linePiece)).2.2 rs := by
          simp [headerRounds, hend, hread, hpos]
        rw [hrounds, List.forall_mem_cons, and_iff_right hsingle, ← hrest, HeaderFaithful,
          HeaderFaithful, hrounds]
        simp only [headerParseStream, hend, if_false, hread, hpos, ne_eq,
          not_false_eq_true, if_true, piecesOf, List.filterMap_cons, hpiece, headerPieceCalls,
          List.cons.injEq, true_and]

end Header

/-! ### Parsers that agree -/

section Agrees
variable {Url : Type} {E : Engine Url} {call : MessageCall}

/-- The parsers differ in `body_length` at most, and there only while it does not count a body. -/
structure MessageParser.Agrees (mp mp' : MessageParser Url) : Prop where
  same : mp' = { mp with bodyLength := mp'.bodyLength }
  length : .bodyLength ∈ mp.stack → mp'.bodyLength = mp.bodyLength

theorem MessageParser.Agrees.refl (mp : MessageParser Url) : mp.Agrees mp := ⟨rfl, fun _ => rfl⟩

/-- What becomes of agreeing parsers agrees if it is the same but for the counter, and `BODY_LENGTH`
is on the stack only if it has been there. -/
theorem MessageParser.Agrees.keep {mp mp' : MessageParser Url} (h : mp.Agrees mp')
    {f : MessageParser Url → MessageParser Url}
    (hsame : ∀ n, f { mp with bodyLength := n } = { f mp with bodyLength := n })
    (hlength : (f mp).bodyLength = mp.bodyLength)
    (hstack : .bodyLength ∈ (f mp).stack → .bodyLength ∈ mp.stack) : (f mp).Agrees (f mp') := by
  have heq : f mp' = { f mp with bodyLength := mp'.bodyLength } := by
    conv_lhs => rw [h.same]
    exact hsame _
  refine ⟨?_, fun hmem => ?_⟩
  · rw [heq]
  · rw [heq, hlength]
    exact h.length (hstack hmem)

/-- The configurations of calls on agreeing parsers. -/
structure MessageConfig.Agrees (c c' : MessageConfig Url) : Prop where
  parser : c.parser.Agrees c'.parser
  str : c'.str = c.str
  cut : c'.cut = c.cut

theorem MessageParser.Agrees.config {mp mp' : MessageParser Url} (h : mp.Agrees mp') :
    mp.config.Agrees mp'.config := ⟨h, rfl, rfl⟩

theorem MessageParser.Agrees.push {mp mp' : MessageParser Url} (h : mp.Agrees mp')
    {state : MessageState} (hstate : state ≠ .bodyLength ∨ mp'.bodyLength = mp.bodyLength) :
    ({ mp with stack := state :: mp.stack } : MessageParser Url).Agrees
      { mp' with stack := state :: mp'.stack } := by
  have hstack : mp'.stack = mp.stack := by rw [h.same]
  refine ⟨?_, fun hmem => ?_⟩
  · rw [hstack]
    conv_lhs => rw [h.same]
  · rcases List.mem_cons.mp hmem with hs | hmem
    · exact hstate.resolve_left fun hne => hne hs.symm
    · exact h.length hmem

abbrev TurnsAgree : MessageTurn Url → MessageTurn Url → Prop := Machine.Related MessageConfig.Agrees

theorem MessageParser.Agrees.leave {mp mp' : MessageParser Url} (h : mp.Agrees mp')
    (r : Option MessageState) (b : Bytes) :
    TurnsAgree (ExtHttp.leave r mp b) (ExtHttp.leave r mp' b) :=
  .ret h.config

theorem MessageParser.Agrees.leaveIn {mp mp' : MessageParser Url} (h : mp.Agrees mp')
    {state : MessageState} (hstate : state ≠ .bodyLength) (b : Bytes) :
    TurnsAgree (ExtHttp.leaveIn state mp b) (ExtHttp.leaveIn state mp' b) :=
  .ret (h.push (.inl hstate)).config

theorem MessageParser.Agrees.goIn {mp mp' : MessageParser Url} (h : mp.Agrees mp')
    {state : MessageState} (hstate : state ≠ .bodyLength ∨ mp'.bodyLength = mp.bodyLength)
    (b : Bytes) :
    TurnsAgree (ExtHttp.goIn state mp b) (ExtHttp.goIn state mp' b) :=
  .next (h.push hstate).config

theorem MessageParser.Agrees.goBody {mp mp' : MessageParser Url} (h : mp.Agrees mp')
    {state : MessageState} (hstate : state ≠ .bodyLength ∨ mp'.bodyLength = mp.bodyLength)
    (str : Bytes) (cut : ℕ) (b : Bytes) :
    TurnsAgree (ExtHttp.goBody state mp str cut b) (ExtHttp.goBody state mp' str cut b) := by
  have hbody : MessageState.body ≠ .bodyLength := by decide
  exact .next ⟨(h.push hstate).push (.inl hbody), rfl, rfl⟩

/-- The counter is set where a body is to be counted, and left alone elsewhere. -/
theorem messageHeaderDone_length (mp : MessageParser Url) (m : Message Url) (n : ℕ) :
    let o := messageHeaderDone E call mp m
    let o' := messageHeaderDone E call { mp with bodyLength := n } m
    o'.2 = o.2 ∧ (o'.1 = o.1 ∨
      o'.1 = { o.1 with bodyLength := n } ∧ o.1.bodyLength = mp.bodyLength ∧
        o.2.2 ≠ .bodyLength) := by
  unfold messageHeaderDone
  dsimp only
  split
  · exact ⟨rfl, .inr ⟨rfl, rfl, by simp⟩⟩
  · split
    · exact ⟨rfl, .inr ⟨rfl, rfl, by simp⟩⟩
    · split
      · exact ⟨rfl, .inr ⟨rfl, rfl, by simp⟩⟩
      · split
        · exact ⟨rfl, .inl rfl⟩
        · split
          · exact ⟨rfl, .inl rfl⟩
          · exact ⟨rfl, .inr ⟨rfl, rfl, by dsimp only; split <;> simp⟩⟩

theorem messageHeaderDoneTurn_agrees {mp mp' : MessageParser Url} (h : mp.Agrees mp') (b : Bytes) :
    TurnsAgree (messageHeaderDoneTurn E call mp b) (messageHeaderDoneTurn E call mp' b) := by
  obtain ⟨heq, hlength⟩ := h
  generalize mp'.bodyLength = n at heq hlength
  subst heq
  unfold messageHeaderDoneTurn
  dsimp only
  split
  · exact MessageParser.Agrees.leave ⟨rfl, hlength⟩ none b
  · next m parents _ =>
    obtain ⟨hmessage, hparser⟩ := @messageHeaderDone_length _ E call mp m n
    have hstack := (@messageHeaderDone_keeps _ E call mp m).1
    generalize messageHeaderDone E call mp m = o,
      messageHeaderDone E call { mp with bodyLength := n } m = o'
      at hmessage hparser hstack
    obtain ⟨mp₁, m₁, state⟩ := o
    obtain ⟨mp₂, m₂, state₂⟩ := o'
    obtain ⟨rfl, rfl⟩ := Prod.mk.inj hmessage
    rcases hparser with rfl | ⟨rfl, hsame, hstate⟩
    · exact MessageParser.Agrees.goIn (.refl _) (.inr rfl) b
    · refine MessageParser.Agrees.goIn ⟨rfl, fun hmem => ?_⟩ (.inl hstate) b
      dsimp only at hstack hmem hsame ⊢
      rw [hsame]
      exact hlength (by rwa [← hstack])

theorem stateTurn_agrees {state : MessageState} {mp mp' : MessageParser Url} (h : mp.Agrees mp')
    (hstate : state = .bodyLength → mp'.bodyLength = mp.bodyLength) (str : Bytes) (cut : ℕ)
    (b : Bytes) :
    TurnsAgree (stateTurn E call state mp str cut b) (stateTurn E call state mp' str cut b) := by
  cases state
  case headerDone => exact messageHeaderDoneTurn_agrees h b
  all_goals
    obtain ⟨heq, hlength⟩ := h
    generalize mp'.bodyLength = n at heq hlength hstate
    subst heq
    dsimp only [stateTurn]
  case failure => exact MessageParser.Agrees.leaveIn ⟨rfl, hlength⟩ (by decide) b
  case start =>
    unfold startTurn
    split_ifs
    · exact .next (MessageParser.Agrees.config ⟨rfl, hlength⟩)
    · exact MessageParser.Agrees.goIn ⟨rfl, hlength⟩ (.inl (by decide)) _
  case header =>
    unfold messageHeaderTurn
    dsimp only
    split
    · exact MessageParser.Agrees.leave ⟨rfl, hlength⟩ _ _
    · exact MessageParser.Agrees.goIn ⟨rfl, hlength⟩ (.inl (by decide)) _
    · split_ifs
      · exact MessageParser.Agrees.leaveIn ⟨rfl, hlength⟩ (by decide) _
      · exact MessageParser.Agrees.goIn ⟨rfl, hlength⟩ (.inl (by decide)) _
  case body =>
    unfold bodyTurn
    split_ifs
    · exact .next (MessageParser.Agrees.config ⟨rfl, hlength⟩)
    · dsimp only
      split
      · exact MessageParser.Agrees.leaveIn ⟨rfl, hlength⟩ (by decide) _
      · exact MessageParser.Agrees.leave ⟨rfl, hlength⟩ _ _
      · exact .next (MessageParser.Agrees.config ⟨rfl, hlength⟩)
  case bodyDumb => exact MessageParser.Agrees.goBody ⟨rfl, hlength⟩ (.inl (by decide)) _ _ _
  case bodyLength =>
    obtain rfl := hstate rfl
    unfold bodyLengthTurn
    exact MessageParser.Agrees.goBody (.refl _) (.inr rfl) _ _ _
  case bodyChunked =>
    unfold bodyChunkedTurn
    dsimp only
    split
    · split
      · exact MessageParser.Agrees.leave ⟨rfl, hlength⟩ _ _
      · split_ifs
        · exact MessageParser.Agrees.goBody ⟨rfl, hlength⟩ (.inl (by decide)) _ _ _
        · exact MessageParser.Agrees.goBody ⟨rfl, hlength⟩ (.inl (by decide)) _ _ _
    · exact MessageParser.Agrees.leave ⟨rfl, hlength⟩ _ _
  case bodyDone => exact MessageParser.Agrees.goIn ⟨rfl, hlength⟩ (.inl (by decide)) _
  case updateCl =>
    unfold updateClTurn
    dsimp only
    split
    · exact MessageParser.Agrees.leave ⟨rfl, hlength⟩ _ _
    · exact .next (MessageParser.Agrees.config ⟨rfl, hlength⟩)
  case done =>
    unfold doneTurn
    split_ifs
    · exact .next (MessageParser.Agrees.config ⟨rfl, hlength⟩)
    · exact MessageParser.Agrees.leave ⟨rfl, hlength⟩ _ _

theorem messageTurn_agrees {c c' : MessageConfig Url} (h : c.Agrees c') (b : Bytes) :
    TurnsAgree (messageTurn E call c b) (messageTurn E call c' b) := by
  have hstack : c'.parser.stack = c.parser.stack := by rw [h.parser.same]
  have hstate : c'.parser.state = c.parser.state := by rw [MessageParser.state, hstack]; rfl
  by_cases hdata : c.parser.state.needData = true → b ≠ []
  · rw [messageTurn_pop hdata, messageTurn_pop (by rwa [hstate]), hstate, h.str, h.cut]
    refine stateTurn_agrees (h.parser.keep (f := MessageParser.pop) (fun _ => rfl) rfl
      List.mem_of_mem_tail) (fun hs => ?_) _ _ b
    exact h.parser.length (state_mem hs (by decide))
  · push Not at hdata
    rw [hdata.2, messageTurn_wait _ hdata.1,
      messageTurn_wait _ (by rw [hstate]; exact hdata.1), hstate]
    exact h.parser.leave _ _

/-- Calls on agreeing parsers return the same and leave agreeing parsers and the same buffer. -/
theorem messageParse_agrees (E : Engine Url) (call : MessageCall) {mp mp' : MessageParser Url}
    (h : mp.Agrees mp') (b : Bytes) :
    let o := messageParse E call mp b
    let o' := messageParse E call mp' b
    o'.1 = o.1 ∧ o.2.1.Agrees o'.2.1 ∧ o'.2.2 = o.2.2 := by
  have hrun := Machine.run_related (M := messageLoop E call) (N := messageLoop E call)
    (fun {c c'} b hc => messageTurn_agrees hc b) b h.config
  exact ⟨hrun.1, hrun.2.1.parser, hrun.2.2⟩

end Agrees

/-! ### The stack -/

section Shallow
variable {Url : Type} {E : Engine Url} {call : MessageCall}

/-- Below the state on top there is at most one, and only if the top is `BODY` or `FAILURE`. -/
inductive Shallow : List MessageState → Prop
  | nil : Shallow []
  | one (s : MessageState) : Shallow [s]
  | two {top : MessageState} (s : MessageState) : top = .body ∨ top = .failure → Shallow [top, s]

theorem Shallow.pop {mp : MessageParser Url} (h : Shallow mp.stack) :
    mp.pop.stack = [] ∨ (∃ s, mp.pop.stack = [s]) ∧ (mp.state = .body ∨ mp.state = .failure) := by
  obtain ⟨stack, _, _, _, _, _⟩ := mp
  cases h with
  | nil => exact .inl rfl
  | one s => exact .inl rfl
  | two s htop => exact .inr ⟨⟨s, rfl⟩, htop⟩

theorem messageTurn_shallow {c : MessageConfig Url} (b : Bytes) (h : Shallow c.parser.stack) :
    Shallow (messageTurn E call c b).state.parser.stack := by
  by_cases hdata : c.parser.state.needData = true → b ≠ []
  · rw [messageTurn_pop hdata]
    obtain ⟨pushed, hstack, hpushed⟩ :=
      stateTurn_stack (E := E) call c.parser.state c.parser.pop c.str c.cut b
    rw [hstack]
    rcases h.pop with hpop | ⟨⟨s, hpop⟩, htop⟩ <;> rw [hpop]
    · cases hpushed with
      | none => exact .nil
      | one _ _ => exact .one _
      | other _ _ => exact .one _
      | body _ _ _ => exact .two _ (.inl rfl)
    · cases hpushed with
      | none => exact .one s
      | one _ hs => exact .two s (.inr hs)
      | other hbody hfailure => exact absurd htop (by simp [hbody, hfailure])
      | body hbody hfailure _ => exact absurd htop (by simp [hbody, hfailure])
  · push Not at hdata
    rw [hdata.2, messageTurn_wait _ hdata.1]
    exact h

theorem ParserReached.shallow {mp : MessageParser Url} (h : ParserReached E mp) :
    Shallow mp.stack := by
  induction h with
  | init => exact .nil
  | parse call b _ ih =>
    exact Machine.run_state_invariant (M := messageLoop E call)
      (I := fun c => Shallow c.parser.stack)
      (fun b h => messageTurn_shallow b h) b ih
  | length n _ ih => exact ih

end Shallow

/-! ### The state that a call leaves -/

section Kept
variable {Url : Type} {E : Engine Url} {call : MessageCall} {c d : MessageConfig Url} {b b' : Bytes}

variable (E call) in
/-- The turn ends the call in `DONE` or `FAILURE` without the state on the stack. -/
def EndsUnpushed (c : MessageConfig Url) (b : Bytes) : Prop :=
  FailsUnpushed E call c b ∨ c.parser.state = .done ∧ call.greedy = false

instance (c : MessageConfig Url) (b : Bytes) : Decidable (EndsUnpushed E call c b) :=
  inferInstanceAs (Decidable (_ ∨ _))

theorem messageTurn_done (b : Bytes) (hs : c.parser.state = .done) (hg : call.greedy = false) :
    messageTurn E call c b = .ret (some .done) c.parser.pop.config (b.dropWhile isSpace) := by
  rw [messageTurn_pop (by simp [hs, MessageState.needData]), hs]
  simp [stateTurn, doneTurn, hg, leave]

/-- `DONE` is what that state alone returns. -/
theorem done_of_messageTurn (h : messageTurn E call c b = .ret (some .done) d b') :
    c.parser.state = .done ∧ call.greedy = false := by
  by_cases hdata : c.parser.state.needData = true → b ≠ []
  · rw [messageTurn_pop hdata] at h
    generalize c.parser.state = state at h
    cases state <;> dsimp only [stateTurn] at h
    case failure => cases h
    case start =>
      unfold startTurn at h
      split_ifs at h
      cases h
    case header =>
      unfold messageHeaderTurn at h
      dsimp only at h
      split at h
      · cases h
      · cases h
      · split_ifs at h <;> cases h
    case headerDone =>
      unfold messageHeaderDoneTurn at h
      split at h <;> cases h
    case body =>
      unfold bodyTurn at h
      split_ifs at h
      dsimp only at h
      split at h <;> cases h
    case bodyDumb => cases h
    case bodyLength => cases h
    case bodyChunked =>
      unfold bodyChunkedTurn at h
      split at h
      · split at h
        · cases h
        · dsimp only at h
          split_ifs at h <;> cases h
      · cases h
    case bodyDone => cases h
    case updateCl =>
      unfold updateClTurn at h
      split at h <;> cases h
    case done =>
      unfold doneTurn at h
      split_ifs at h with hg
      exact ⟨rfl, by simpa using hg⟩
  · push Not at hdata
    obtain ⟨hneed, rfl⟩ := hdata
    rw [messageTurn_wait _ hneed] at h
    have hstate : c.parser.state = .done := by
      injection h with hr
      exact Option.some.inj hr
    rw [hstate] at hneed
    cases hneed

/-- `DONE` has nothing below it that a call could come upon. -/
theorem Shallow.done {mp : MessageParser Url} (h : Shallow mp.stack) (hs : mp.state = .done) :
    mp.pop.state = .start := by
  rcases h.pop with hpop | ⟨-, htop⟩
  · simp [MessageParser.state, hpop]
  · rw [hs] at htop
    simp at htop

theorem messageLoop_done_iff (call : MessageCall) (b : Bytes) (h : Shallow c.parser.stack) :
    (((messageLoop E call).run c b).1 = some .done →
        ((messageLoop E call).run c b).2.1.parser.state = .done) ↔
      ∀ d, (messageLoop E call).Visits (c, b) d →
        ¬ (d.1.parser.state = .done ∧ call.greedy = false) := by
  constructor
  · rintro hdone d hd ⟨hs, hg⟩
    have hshallow : Shallow d.1.parser.stack :=
      hd.state_invariant (I := fun c => Shallow c.parser.stack)
        (fun b h => messageTurn_shallow b h) h
    have hturn : (messageLoop E call).turn d.1 d.2 = _ := messageTurn_done d.2 hs hg
    rw [Machine.run_visits hd, Machine.run_ret hturn] at hdone
    have hstart := hshallow.done hs
    rw [show d.1.parser.pop.state = .done from hdone rfl] at hstart
    cases hstart
  · intro hall hdone
    obtain ⟨d, hd, hlast⟩ := (messageLoop E call).exists_last_turn c b
    rw [hdone] at hlast
    exact absurd (done_of_messageTurn hlast) (hall d hd)

theorem ParserReached.failureOnTop {mp : MessageParser Url} (h : ParserReached E mp) :
    FailureOnTop mp.config := by
  induction h with
  | init => simp [FailureOnTop, messageParserInit, MessageParser.config]
  | parse call b _ ih => exact Machine.run_state_invariant messageLoop_failureOnTop b ih
  | length n _ ih => exact ih

/-- `DONE` and `FAILURE` are the state of the parser behind a call that returns them if no turn of
it ends the call without the state on the stack. -/
theorem ParserReached.kept_iff {mp : MessageParser Url} (h : ParserReached E mp)
    (call : MessageCall) (b : Bytes) :
    (∀ s ∈ (messageParse E call mp b).1, s = .done ∨ s = .failure →
        (messageParse E call mp b).2.1.state = s) ↔
      ∀ d, (messageLoop E call).Visits (mp.config, b) d → ¬ EndsUnpushed E call d.1 d.2 := by
  have hdone := messageLoop_done_iff (E := E) (c := mp.config) call b h.shallow
  have hfailure := messageLoop_failure_iff (E := E) (c := mp.config) call b h.failureOnTop
  simp only [EndsUnpushed, not_or, imp_and, forall_and]
  rw [← hdone, ← hfailure]
  constructor
  · intro hall
    exact ⟨fun hf => hall _ hf (.inr rfl), fun hd => hall _ hd (.inl rfl)⟩
  · rintro ⟨hf, hd⟩ s hs (rfl | rfl)
    · exact hd hs
    · exact hf hs

end Kept

/-! ### The message parser -/

section Message
variable {Url : Type} (E : Engine Url) (flags : MessageCall)

/-- The states that lines are read in. -/
def MessageState.readsLine : MessageState → Bool
  | .bodyDumb | .bodyLength | .bodyChunked => false
  | _ => true

/-- A round of the stream: state, parser and buffer where it is taken, and what the stream does. -/
structure StreamRound (Url : Type) where
  state : MessageState
  parser : MessageParser Url
  buffer : Bytes
  read : StreamRead

/-- Where a line is to be read, a single character comes. -/
def StreamRound.Single (r : StreamRound Url) : Prop := r.state.readsLine = true ∧ r.read.Single

instance (r : StreamRound Url) : Decidable r.Single := inferInstanceAs (Decidable (_ ∧ _))

/-- `php_stream_read`, which is to read a body or what is left of a chunk, fails. -/
def StreamRound.Failed (r : StreamRound Url) : Prop :=
  (r.state = .bodyDumb ∨ r.state = .bodyLength ∨ r.state = .bodyChunked ∧ r.parser.bodyLength ≠ 0) ∧
    r.read.failed = true

instance (r : StreamRound Url) : Decidable r.Failed := inferInstanceAs (Decidable (_ ∧ _))

/-- The bytes that leave the stream in a round. -/
def StreamRound.piece (r : StreamRound Url) : Bytes :=
  if r.Failed then []
  else match r.state with
    | .bodyDumb => r.read.data
    | .bodyLength => r.read.data.take r.parser.bodyLength
    | .bodyChunked =>
        if r.parser.bodyLength ≠ 0 then r.read.data.take r.parser.bodyLength else r.read.data
    | _ => r.read.linePiece

/-- The call on the piece leaves the state that it returns. -/
def StreamRound.Kept (r : StreamRound Url) : Prop :=
  ∀ d, (messageLoop E flags).Visits (r.parser.config, r.buffer ++ r.piece) d →
    ¬ EndsUnpushed E flags d.1 d.2

instance (r : StreamRound Url) : Decidable (r.Kept E flags) :=
  (messageLoop E flags).decidableVisits (fun c b => ¬ EndsUnpushed E flags c b) _

/-- What the loop relies on in a round. -/
structure StreamRound.Fair (r : StreamRound Url) : Prop where
  line : ¬ r.Single
  read : ¬ r.Failed
  state : r.piece ≠ [] → r.Kept E flags

instance (r : StreamRound Url) : Decidable (r.Fair E flags) :=
  decidable_of_iff (¬ r.Single ∧ ¬ r.Failed ∧ (r.piece ≠ [] → r.Kept E flags))
    ⟨fun h => ⟨h.1, h.2.1, h.2.2⟩, fun h => ⟨h.line, h.read, h.state⟩⟩

/-- The rounds of the stream that the loop takes. -/
def streamRounds (state : MessageState) (mp : MessageParser Url) (b : Bytes) :
    List StreamRead → List (StreamRound Url)
  | [] => []
  | r :: rs =>
      if state = .done ∨ state = .failure then []
      else ⟨state, mp, b, r⟩ :: match streamRead state mp b r with
        | none => []
        | some (justread, mp, b) =>
            if justread ≠ 0 then
              let o := messageParse E flags mp b
              match o.1 with
              | some state => streamRounds state o.2.1 o.2.2 rs
              | none => []
            else []

/-- The calls that rounds of a stream are to make. -/
def messagePieces (rounds : List (StreamRound Url)) : List (MessageCall × Bytes) :=
  rounds.filterMap fun r =>
    if r.piece ≠ [] then some (flags, r.piece)
    else if r.read.eof then some ({ flags with cleanup := true }, []) else none

/-- The calls of the parser on pieces, and where the last one leads. None comes after a NULL
pointer. -/
def messagePieceCalls (state : MessageState) (mp : MessageParser Url) (b : Bytes) :
    List (MessageCall × Bytes) →
      List (ParseCall Url) × (Option MessageState × MessageParser Url × Bytes)
  | [] => ([], (some state, mp, b))
  | (flags, p) :: ps =>
      let o := messageParse E flags mp (b ++ p)
      let rest := match o.1 with
        | some state => messagePieceCalls state o.2.1 o.2.2 ps
        | none => ([], o)
      (⟨flags, mp, b ++ p⟩ :: rest.1, rest.2)

/-- The same call on a parser that agrees. -/
structure ParseCall.Agrees (call call' : ParseCall Url) : Prop where
  flags : call'.flags = call.flags
  parser : call.parser.Agrees call'.parser
  buffer : call'.buffer = call.buffer

/-- The outcome of the stream is that of the last call. -/
structure SameOutcome (stream : MessageState × MessageParser Url × Bytes)
    (last : Option MessageState × MessageParser Url × Bytes) : Prop where
  state : last.1 = some stream.1
  parser : last.2.1.Agrees stream.2.1
  buffer : stream.2.2 = last.2.2

/-- The stream on a parser `mp'` never counts more bytes than there is memory, makes the calls that
the pieces make on `mp`, and returns what they come to. -/
def MessageFaithful (state : MessageState) (mp mp' : MessageParser Url) (b : Bytes)
    (rs : List StreamRead) : Prop :=
  let rounds := streamRounds E flags state mp' b rs
  let stream := parseStream E flags state mp' b rs
  let pieces := messagePieceCalls E state mp b (messagePieces flags rounds)
  (∀ r ∈ rounds, streamRead r.state r.parser r.buffer r.read ≠ none) ∧
    List.Forall₂ ParseCall.Agrees pieces.1 stream.1 ∧ ∀ o ∈ stream.2, SameOutcome o pieces.2

variable {E flags} {mp mp' : MessageParser Url} {state : MessageState} {b : Bytes}

theorem MessageParser.Agrees.trans {mp'' : MessageParser Url} (h : mp.Agrees mp')
    (g : mp'.Agrees mp'') :
    mp.Agrees mp'' := by
  have hstack : mp'.stack = mp.stack := by rw [h.same]
  refine ⟨?_, fun hmem => ?_⟩
  · rw [g.same, h.same]
  · rw [g.length (by rwa [hstack]), h.length hmem]

theorem MessageParser.Agrees.state_eq (h : mp.Agrees mp') : mp'.state = mp.state := by
  rw [h.same]
  rfl

/-- What is known where the stream comes to read. -/
structure StreamReady (state : MessageState) (mp : MessageParser Url) (b : Bytes) : Prop where
  internal : state.internal = false
  drained : Drained state b
  chunked : state = .bodyChunked → mp.stack = [.bodyChunked]

theorem StreamReady.of_parse {b' : Bytes} (hmp : ParserReached E mp)
    (h : messageParse E flags mp b = (some state, mp', b')) : StreamReady state mp' b' := by
  obtain ⟨hinternal, hwait⟩ := messageParse_ret h
  refine ⟨hinternal, .of_parse h, ?_⟩
  rintro rfl
  obtain ⟨hstate, -⟩ := hwait rfl
  have hreached : ParserReached E mp' := by
    have hparsed := ParserReached.parse flags b hmp
    rwa [h] at hparsed
  have hshallow := hreached.shallow
  unfold MessageParser.state at hstate
  generalize mp'.stack = stack at hstate hshallow
  cases hshallow with
  | nil => cases hstate
  | one s => exact congrArg (· :: []) hstate
  | two s htop =>
    rcases htop with rfl | rfl <;> cases hstate

theorem streamRead_line (h : state.readsLine = true) (r : StreamRead) :
    streamRead state mp b r = some ((headerStreamRead b r).1, mp, (headerStreamRead b r).2) := by
  unfold headerStreamRead
  cases state
  case bodyDumb | bodyLength | bodyChunked => cases h
  all_goals
    dsimp only [streamRead]
    split_ifs
    · rfl
    · cases r.char <;> rfl

/-- A failing read finds the buffer empty, so that `used` wraps. -/
theorem streamRead_failed (hready : StreamReady state mp b) {r : StreamRead}
    (h : (⟨state, mp, b, r⟩ : StreamRound Url).Failed) : streamRead state mp b r = none := by
  obtain ⟨hstate, hfailed⟩ := h
  dsimp only at hstate hfailed
  have hdrained := hready.drained
  rcases hstate with rfl | rfl | ⟨rfl, hlen⟩ <;>
    obtain rfl := (hdrained rfl).resolve_left (by decide)
  · simp [streamRead, StreamRead.account, hfailed]
  · simp [streamRead, StreamRead.account, hfailed]
  · simp [streamRead, StreamRead.account, hfailed, hlen]

/-- In a chunked body the counter takes what is left of the chunk, or what the line says. -/
theorem streamRead_chunked {r : StreamRead}
    (h : ¬ (⟨.bodyChunked, mp, [], r⟩ : StreamRound Url).Failed) :
    ∃ n, streamRead .bodyChunked mp [] r =
      some ((⟨.bodyChunked, mp, [], r⟩ : StreamRound Url).piece.length, { mp with bodyLength := n },
        (⟨.bodyChunked, mp, [], r⟩ : StreamRound Url).piece) := by
  rw [StreamRound.piece, if_neg h]
  by_cases hzero : mp.bodyLength = 0
  · by_cases hdata : r.data = []
    · exact ⟨_, by simp only [streamRead, hzero, hdata]; rfl⟩
    · refine ⟨(strtoul 16 (r.data ++ nul :: (([] : Bytes) ++ r.stale).drop (r.data.length + 1))).1,
        ?_⟩
      simp only [streamRead, hzero, hdata, ne_eq, not_true_eq_false, if_false, List.length_nil,
        List.drop_zero, Nat.zero_add, List.take_left]
  · have hfailed : r.failed = false := by
      rw [Bool.eq_false_iff]
      exact fun hfailed => h ⟨.inr (.inr ⟨rfl, hzero⟩), hfailed⟩
    exact ⟨_, by
      simp only [streamRead, StreamRead.account, hfailed, ne_eq, hzero, not_false_eq_true, if_true,
        Bool.false_eq_true, if_false, List.nil_append, Option.map_some]; rfl⟩

/-- In other rounds what is read goes behind the buffer, and the parser agrees. -/
theorem streamRead_piece (hready : StreamReady state mp b) {r : StreamRead}
    (hsingle : ¬ (⟨state, mp, b, r⟩ : StreamRound Url).Single)
    (hfailed : ¬ (⟨state, mp, b, r⟩ : StreamRound Url).Failed) : ∃ mp',
    streamRead state mp b r = some ((⟨state, mp, b, r⟩ : StreamRound Url).piece.length, mp',
      b ++ (⟨state, mp, b, r⟩ : StreamRound Url).piece) ∧ mp.Agrees mp' := by
  have hline : state.readsLine = true → streamRead state mp b r =
      some (r.linePiece.length, mp, b ++ r.linePiece) := by
    intro hreads
    rw [streamRead_line hreads, headerStreamRead_piece (fun hs => hsingle ⟨hreads, hs⟩) b]
  cases state
  case bodyDumb | bodyLength =>
    rw [StreamRound.piece, if_neg hfailed]
    have hread : r.failed = false := by
      rw [Bool.eq_false_iff]
      exact fun hread => hfailed ⟨by simp, hread⟩
    exact ⟨mp, by simp [streamRead, StreamRead.account, hread], .refl mp⟩
  case bodyChunked =>
    obtain rfl := (hready.drained rfl).resolve_left (by decide)
    obtain ⟨n, hn⟩ := streamRead_chunked hfailed
    exact ⟨_, hn, rfl, fun hmem => by simp [hready.chunked rfl] at hmem⟩
  all_goals
    rw [StreamRound.piece, if_neg hfailed]
    exact ⟨mp, hline rfl, .refl mp⟩

/-- A single character makes the buffer longer than the piece does. -/
theorem not_messageFaithful_of_single {r : StreamRead} (rs : List StreamRead)
    (hend : ¬ (state = .done ∨ state = .failure)) (hinternal : state.internal = false)
    (hreads : state.readsLine = true) (hsingle : r.Single) :
    ¬ MessageFaithful E flags state mp mp' b (r :: rs) := by
  obtain ⟨hone, hpiece, hne⟩ := headerStreamRead_single hsingle b
  have hfailed : ¬ (⟨state, mp', b, r⟩ : StreamRound Url).Failed := by
    rintro ⟨rfl | rfl | ⟨rfl, -⟩, -⟩ <;> cases hreads
  have hpiece' : (⟨state, mp', b, r⟩ : StreamRound Url).piece = r.linePiece := by
    rw [StreamRound.piece, if_neg hfailed]
    cases state <;> first | rfl | cases hreads
  have hloop : ¬ (state = .body ∨ state = .bodyDone ∨ state = .updateCl) := by
    rintro (rfl | rfl | rfl) <;> cases hinternal
  rintro ⟨-, hcalls, -⟩
  simp only [parseStream, streamRounds, hend, hloop, if_false, streamRead_line hreads, hone,
    messagePieces, List.filterMap_cons, hpiece', hpiece, messagePieceCalls, ne_eq, one_ne_zero,
    not_false_eq_true, if_true, List.forall₂_cons] at hcalls
  exact hne hcalls.1.buffer

/-- Where the loop goes no further the stream is faithful if the parser has kept the state. -/
theorem messageFaithful_end {rs : List StreamRead} (hagrees : mp.Agrees mp')
    (hrounds : streamRounds E flags state mp' b rs = [])
    (hstream : parseStream E flags state mp' b rs =
      ([], if state = .done ∨ state = .failure then some (mp'.state, mp', b) else none)) :
    MessageFaithful E flags state mp mp' b rs ↔
      (state = .done ∨ state = .failure → mp'.state = state) := by
  rw [MessageFaithful, hrounds, hstream]
  simp only [List.not_mem_nil, false_imp_iff, implies_true, messagePieces, List.filterMap_nil,
    messagePieceCalls, List.Forall₂.nil, true_and]
  constructor
  · intro h hend
    rw [if_pos hend] at h
    exact (Option.some.inj (h _ rfl).state).symm
  · intro h o ho
    split_ifs at ho with hend
    · cases ho
      exact ⟨by rw [h hend], hagrees, rfl⟩
    · cases ho

/-- A round without a piece is the last one. -/
theorem messageFaithful_last {r : StreamRead} {mp₂ : MessageParser Url} (rs : List StreamRead)
    (hend : ¬ (state = .done ∨ state = .failure))
    (hloop : ¬ (state = .body ∨ state = .bodyDone ∨ state = .updateCl)) (hagrees : mp.Agrees mp₂)
    (hpiece : (⟨state, mp', b, r⟩ : StreamRound Url).piece = [])
    (hread : streamRead state mp' b r = some (0, mp₂, b)) :
    streamRounds E flags state mp' b (r :: rs) = [⟨state, mp', b, r⟩] ∧
      MessageFaithful E flags state mp mp' b (r :: rs) := by
  have hrounds : streamRounds E flags state mp' b (r :: rs) = [⟨state, mp', b, r⟩] := by
    simp [streamRounds, hend, hread]
  refine ⟨hrounds, ?_⟩
  rw [MessageFaithful, hrounds]
  refine ⟨by simp [hread], ?_⟩
  by_cases heof : r.eof = true
  · obtain ⟨hret, hparser, hbuffer⟩ :=
      messageParse_agrees E { flags with cleanup := true } hagrees b
    simp only [parseStream, messagePieces, messagePieceCalls, hend, hloop, hread, hpiece, heof,
      List.filterMap_cons, List.filterMap_nil, List.append_nil, ne_eq, not_true_eq_false, if_false,
      if_true]
    refine ⟨.cons ⟨rfl, hagrees, rfl⟩ ?_, ?_⟩
    · split <;> exact .nil
    · intro o ho
      obtain ⟨s, hs, rfl⟩ := Option.map_eq_some_iff.mp ho
      rw [hret] at hs
      simp only [hs]
      exact ⟨rfl, hparser, hbuffer⟩
  · simp only [parseStream, messagePieces, messagePieceCalls, hend, hloop, hread, hpiece, heof,
      List.filterMap_cons, List.filterMap_nil, ne_eq, not_true_eq_false, if_false, List.Forall₂.nil,
      true_and, Bool.false_eq_true]
    rintro o ⟨⟩
    exact ⟨rfl, hagrees, rfl⟩

theorem messageFaithful_iff (rs : List StreamRead) (hagrees : mp.Agrees mp')
    (hready : StreamReady state mp' b) (hreached : ParserReached E mp') :
    MessageFaithful E flags state mp mp' b rs ↔
      (state = .done ∨ state = .failure → mp'.state = state) ∧
        ∀ r ∈ streamRounds E flags state mp' b rs, r.Fair E flags := by
  induction rs generalizing state mp mp' b with
  | nil =>
    rw [messageFaithful_end hagrees rfl rfl]
    simp [streamRounds]
  | cons r rs ih =>
    by_cases hend : state = .done ∨ state = .failure
    · have hrounds : streamRounds E flags state mp' b (r :: rs) = [] := by simp [streamRounds, hend]
      rw [messageFaithful_end hagrees hrounds (by simp [parseStream, hend]), hrounds]
      simp
    rw [and_iff_right fun h => absurd h hend]
    have hloop : ¬ (state = .body ∨ state = .bodyDone ∨ state = .updateCl) := by
      have hinternal := hready.internal
      rintro (rfl | rfl | rfl) <;> cases hinternal
    have hfirst : (⟨state, mp', b, r⟩ : StreamRound Url) ∈
        streamRounds E flags state mp' b (r :: rs) := by
      rw [streamRounds, if_neg hend]
      exact List.mem_cons_self
    by_cases hfailed : (⟨state, mp', b, r⟩ : StreamRound Url).Failed
    · exact iff_of_false (fun h => h.1 _ hfirst (streamRead_failed hready hfailed))
        fun h => (h _ hfirst).read hfailed
    by_cases hsingle : (⟨state, mp', b, r⟩ : StreamRound Url).Single
    · exact iff_of_false
        (not_messageFaithful_of_single rs hend hready.internal hsingle.1 hsingle.2)
        fun h => (h _ hfirst).line hsingle
    obtain ⟨mp₂, hread, hagrees₂⟩ := streamRead_piece hready hsingle hfailed
    clear hfirst
    by_cases hpiece : (⟨state, mp', b, r⟩ : StreamRound Url).piece = []
    · rw [hpiece, List.append_nil] at hread
      obtain ⟨hrounds, hfaithful⟩ := @messageFaithful_last _ E flags _ _ _ _ _ _ rs hend hloop
        (hagrees.trans hagrees₂) hpiece hread
      refine iff_of_true hfaithful ?_
      rw [hrounds, List.forall_mem_singleton]
      exact ⟨hsingle, hfailed, fun h => absurd hpiece h⟩
    have hreached₂ : ParserReached E mp₂ := by
      rw [hagrees₂.same]
      exact hreached.length _
    generalize hp : (⟨state, mp', b, r⟩ : StreamRound Url).piece = p at hpiece hread
    have hpos : p.length ≠ 0 := fun h0 => hpiece (List.length_eq_zero_iff.mp h0)
    -- the call on `mp₂` goes as the one on `mp'` does, and as the one on `mp`
    have hfair : (⟨state, mp', b, r⟩ : StreamRound Url).Fair E flags ↔
        ∀ s ∈ (messageParse E flags mp₂ (b ++ p)).1, s = .done ∨ s = .failure →
          (messageParse E flags mp₂ (b ++ p)).2.1.state = s := by
      obtain ⟨hret, hparser, -⟩ := messageParse_agrees E flags hagrees₂ (b ++ p)
      rw [hret, hparser.state_eq, hreached.kept_iff]
      refine ⟨fun h => ?_, fun h => ⟨hsingle, hfailed, fun _ => ?_⟩⟩
      · have hstate := h.state (by rwa [hp])
        rwa [StreamRound.Kept, hp] at hstate
      · rwa [StreamRound.Kept, hp]
    obtain ⟨hret, hparser, hbuffer⟩ := messageParse_agrees E flags (hagrees.trans hagrees₂) (b ++ p)
    have hcall : (⟨flags, mp, b ++ p⟩ : ParseCall Url).Agrees ⟨flags, mp₂, b ++ p⟩ :=
      ⟨rfl, hagrees.trans hagrees₂, rfl⟩
    simp only [MessageFaithful, parseStream, streamRounds, hend, hloop, hread, hpos,
      if_false, ne_eq, not_false_eq_true, if_true, messagePieces, List.filterMap_cons, hp, hpiece,
      messagePieceCalls, List.forall_mem_cons, hfair, List.forall₂_cons, reduceCtorEq, true_and]
    rw [and_iff_right hcall]
    cases hs : (messageParse E flags mp₂ (b ++ p)).1 with
    | none =>
      rw [hs] at hret
      simp [← hret]
    | some next =>
      rw [hs] at hret
      have hready₂ : StreamReady next _ (messageParse E flags mp₂ (b ++ p)).2.2 :=
        .of_parse hreached₂ (Prod.ext hs rfl)
      have hrest := ih hparser hready₂ (hreached₂.parse flags _)
      rw [hbuffer] at hrest ⊢
      rw [← hret]
      simpa [MessageFaithful, messagePieces] using hrest

end Message

/-- The stream of headers feeds its parser faithfully exactly if in no round `php_stream_get_line`
brings nothing and then `php_stream_getc` a character. For messages no `php_stream_read` may fail,
either, and no call may end in `DONE` or `FAILURE` without leaving the state for the stream to
return. -/
theorem streamFeeding_iff {Url S : Type} (P : UrlParsers Url) (sink : HeaderSink Url S)
    (headerFlags : HeaderCall) (c : HeaderConfig S) (E : Engine Url) (flags : MessageCall)
    {mp : MessageParser Url} (hmp : ParserReached E mp) (b : Bytes) (rs : List StreamRead) :
    (HeaderFaithful P sink headerFlags .start c b rs ↔
      ∀ r ∈ headerRounds P sink headerFlags .start c b rs, ¬ r.Single) ∧
    (MessageFaithful E flags .start mp mp b rs ↔
      ∀ r ∈ streamRounds E flags .start mp b rs, r.Fair E flags) := by
  refine ⟨headerFaithful_iff .start c b rs, ?_⟩
  have hready : StreamReady .start mp b := ⟨rfl, fun _ => .inl rfl, fun h => by cases h⟩
  rw [messageFaithful_iff rs (.refl mp) hready hmp, and_iff_right]
  rintro (h | h) <;> cases h

/-- A line without its end, a body that is read at once, and the end, with `GREEDY`. -/
theorem streamFeeding_lines :
    let rs : List StreamRead := [⟨ascii "HTTP/1.1 200 OK\r\n", none, false, [], false⟩,
      ⟨ascii "Content-Length:", none, false, [], false⟩, ⟨ascii " 2\r\n", none, false, [], false⟩,
      ⟨ascii "\r\n", none, false, [], false⟩, ⟨ascii "ab", none, true, [], false⟩,
      ⟨[], none, true, [], false⟩]
    HeaderFaithful rawUrls headerLog ⟨false, fun _ => []⟩ .start
      (headerParserInit, ⟨[], []⟩) [] rs ∧
      MessageFaithful plainEngine { plainCall with greedy := true } .start messageParserInit
        messageParserInit [] rs := by
  intro rs
  have hiff := streamFeeding_iff rawUrls headerLog ⟨false, fun _ => []⟩ (headerParserInit, ⟨[], []⟩)
    plainEngine { plainCall with greedy := true } .init [] rs
  exact ⟨hiff.1.mpr (by decide +kernel), hiff.2.mpr (by decide +kernel)⟩

/-- A single `A` is counted twice. -/
theorem streamFeeding_single :
    let rs : List StreamRead := [⟨[], some 65, false, [], false⟩]
    ¬ HeaderFaithful rawUrls headerLog ⟨false, fun _ => []⟩ .start
      (headerParserInit, ⟨[], []⟩) [] rs ∧
      ¬ MessageFaithful plainEngine plainCall .start messageParserInit messageParserInit [] rs := by
  have hsingle : (⟨[], some 65, false, [], false⟩ : StreamRead).Single := by decide
  refine ⟨fun h => ?_, not_messageFaithful_of_single [] (by decide) rfl rfl hsingle⟩
  exact (headerFaithful_iff _ _ _ _).mp h _ (by simp [headerRounds, headerStreamRead]) hsingle

-- the read of a body fails
example :
    let rs : List StreamRead := [⟨ascii "HTTP/1.1 200 OK\r\n", none, false, [], false⟩,
      ⟨ascii "\r\n", none, false, [], false⟩, ⟨[], none, false, [], true⟩]
    ∃ r ∈ streamRounds plainEngine plainCall .start messageParserInit [] rs,
      streamRead r.state r.parser r.buffer r.read = none := by
  decide +kernel

end ExtHttp
