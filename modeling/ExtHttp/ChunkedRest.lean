import ExtHttp.DechunkLedger
import ExtHttp.MessageNull
import ExtHttp.MessageText

/-!
# What is behind a chunked body

The dechunk stream keeps bytes of earlier feeds while a size line or the data of a chunk is
incomplete. At its end it holds back bytes of the last feed only, and these stay in the buffer of
the parser.
-/
namespace ExtHttp
open BufferLoop

/-! ### The dechunk stream between two feeds -/

/-- What is buffered completes neither a line nor the data of the chunk. -/
structure DechunkCtx.Resting (ctx : DechunkCtx) : Prop where
  zeroed : ctx.zeroed = false
  line : ctx.hexlen = 0 → NoEol ctx.buffer
  data : ctx.hexlen ≠ 0 → ctx.buffer.length < ctx.hexlen

theorem dechunkInit_resting : dechunkInit.Resting :=
  ⟨rfl, fun _ => by simp [dechunkInit], fun h => absurd rfl h⟩

section Turns
variable {flushFull : Bool} {s s' : DechunkState} {b b' : Bytes} {e : DechunkExit}

/-- Where the loop is left for more data, there is no complete line, and not all of the data. -/
theorem dechunkTurn_more (h : dechunkTurn flushFull s b = .ret .more s' b') :
    (s'.hexlen = 0 → NoEol b') ∧ (s'.hexlen ≠ 0 → b'.length < s'.hexlen) := by
  unfold dechunkTurn at h
  split_ifs at h with hb hhex hshort hflush heol
  · cases h
    subst hb
    exact ⟨fun _ => by simp, Nat.pos_of_ne_zero⟩
  · cases h
    exact ⟨fun hzero => absurd hzero hhex, fun _ => hshort⟩
  · cases h
    exact ⟨fun _ => by simp, fun hne => absurd hne hhex⟩
  · unfold dechunkSizeLine at h
    split at h
    · next he =>
      cases h
      exact ⟨fun _ => locateBinEol_eq_none.mp he, fun hne => absurd hne hhex⟩
    · split_ifs at h <;> cases h

/-- What is left behind a line that the data has completed is of the data. -/
theorem dechunkSizeLine_feed {w : Bytes} (hw : NoEol w) (s : DechunkState) (data : Bytes) :
    (∃ s', dechunkSizeLine s (w ++ data) = .ret .more s' (w ++ data)) ∨
      (∃ s', dechunkSizeLine s (w ++ data) = .ret .failure s' (w ++ data)) ∨
      (dechunkSizeLine s (w ++ data)).buffer <:+ data := by
  unfold dechunkSizeLine
  cases he : locateBinEol (w ++ data) with
  | none => exact .inl ⟨s, rfl⟩
  | some e =>
    rw [locateBinEol_append_noEol hw] at he
    obtain ⟨⟨i, l⟩, -, rfl⟩ := Option.map_eq_some_iff.mp he
    have hdrop : (w ++ data).drop (w.length + i + l) <:+ data := by
      rw [Nat.add_assoc, List.drop_length_add_append]
      exact List.drop_suffix _ _
    dsimp only
    split_ifs
    · exact .inr (.inl ⟨s, rfl⟩)
    · exact .inr (.inr ((List.dropWhile_suffix isEol).trans hdrop))
    · exact .inr (.inr hdrop)

/-- The first turn after a feed asks for more, fails, or takes all the bytes of earlier feeds. -/
theorem dechunkTurn_feed {ctx : DechunkCtx} (h : ctx.Resting) (out data : Bytes) :
    (∃ s b, dechunkTurn false ⟨ctx.hexlen, out⟩ (ctx.buffer ++ data) = .ret .more s b) ∨
      (∃ s b, dechunkTurn false ⟨ctx.hexlen, out⟩ (ctx.buffer ++ data) = .ret .failure s b) ∨
      (dechunkTurn false ⟨ctx.hexlen, out⟩ (ctx.buffer ++ data)).buffer <:+ data := by
  by_cases hhex : ctx.hexlen = 0
  · have hnoEol := h.line hhex
    have hdrop := dechunkTurn_dropWhile false (s := ⟨ctx.hexlen, out⟩)
      (b := ctx.buffer ++ data) hhex
    by_cases hb : (ctx.buffer ++ data).dropWhile isEol = []
    · rw [hb, dechunkTurn_nil] at hdrop
      exact .inl ⟨_, _, hdrop.symm⟩
    · rw [dechunkTurn_size false (s := ⟨ctx.hexlen, out⟩) hhex hb]
      by_cases hnil : ctx.buffer = []
      · rw [hnil, List.nil_append]
        exact .inr (.inr ((dechunkSizeLine_suffix _ _).trans (List.dropWhile_suffix isEol)))
      · have hhead : (ctx.buffer ++ data).dropWhile isEol = ctx.buffer ++ data := by
          refine dropWhile_of_head fun c hc => ?_
          rw [List.head?_append_of_ne_nil _ hnil] at hc
          exact hnoEol c (List.mem_of_mem_head? hc)
        rw [hhead]
        obtain ⟨s, hs⟩ | ⟨s, hs⟩ | hs := dechunkSizeLine_feed hnoEol ⟨ctx.hexlen, out⟩ data
        · exact .inl ⟨s, _, hs⟩
        · exact .inr (.inl ⟨s, _, hs⟩)
        · exact .inr (.inr hs)
  · have hlt := h.data hhex
    by_cases hshort : (ctx.buffer ++ data).length < ctx.hexlen
    · exact .inl ⟨_, _, dechunkTurn_short (s := ⟨ctx.hexlen, out⟩) hhex hshort⟩
    · have hne : ctx.buffer ++ data ≠ [] :=
        fun hnil => hshort (by rw [hnil]; exact Nat.pos_of_ne_zero hhex)
      have hdrop : (ctx.buffer ++ data).drop ctx.hexlen <:+ data := by
        rw [List.drop_append, List.drop_of_length_le hlt.le, List.nil_append]
        exact List.drop_suffix _ _
      rw [dechunkTurn_data false (s := ⟨ctx.hexlen, out⟩) hne hhex (Nat.not_lt.mp hshort)]
      exact .inr (.inr hdrop)

/-- From a turn on that has taken the bytes of earlier feeds, none of them comes back. -/
theorem dechunkLoop_suffix (s : DechunkState) {b data : Bytes} (h : b <:+ data) :
    ((dechunkLoop false).run s b).2.2 <:+ data := by
  have hturn : ∀ {s b t}, dechunkTurn false s b = t → b <:+ data → t.buffer <:+ data := by
    rintro s b t rfl hb
    exact (dechunkTurn_suffix false s b).trans hb
  exact Machine.run_rule (M := dechunkLoop false) (I := fun _ b => b <:+ data)
    (Q := fun _ _ b => b <:+ data) (fun hb ht => hturn ht hb) (fun hb ht => hturn ht hb) h

end Turns

/-- After a feed the stream rests again, or what it holds back at its end is of this feed. -/
theorem dechunkUpdate_rest {ctx ctx' : DechunkCtx} (h : ctx.Resting) {data dec : Bytes}
    (hu : dechunkUpdate false ctx data = (some dec, ctx')) :
    if dechunkDone ctx' then ctx'.buffer <:+ data else ctx'.Resting := by
  unfold dechunkUpdate at hu
  rw [h.zeroed, if_neg Bool.false_ne_true] at hu
  have hmore : ∀ s b, (dechunkLoop false).run ⟨ctx.hexlen, []⟩ (ctx.buffer ++ data) =
      (.more, s, b) →
      (s.hexlen = 0 → NoEol b) ∧ (s.hexlen ≠ 0 → b.length < s.hexlen) := by
    intro s b hrun
    obtain ⟨d, -, ht⟩ := (dechunkLoop false).exists_last_turn ⟨ctx.hexlen, []⟩ (ctx.buffer ++ data)
    rw [hrun] at ht
    exact dechunkTurn_more ht
  have hdone : ∀ s b, (dechunkLoop false).run ⟨ctx.hexlen, []⟩ (ctx.buffer ++ data) =
      (.zeroed, s, b) →
      b <:+ data := by
    intro s b hrun
    cases ht : dechunkTurn false ⟨ctx.hexlen, []⟩ (ctx.buffer ++ data) with
    | next s₁ b₁ =>
      rw [Machine.run_next (M := dechunkLoop false) ht] at hrun
      have hfeed := dechunkTurn_feed h [] data
      rw [ht] at hfeed
      obtain ⟨_, _, hret⟩ | ⟨_, _, hret⟩ | hfeed := hfeed
      · cases hret
      · cases hret
      · have hsuffix := dechunkLoop_suffix s₁ (show b₁ <:+ data from hfeed)
        rwa [hrun] at hsuffix
    | ret e s₁ b₁ =>
      rw [Machine.run_ret (M := dechunkLoop false) ht] at hrun
      cases hrun
      have hfeed := dechunkTurn_feed h [] data
      rw [ht] at hfeed
      obtain ⟨_, _, hret⟩ | ⟨_, _, hret⟩ | hfeed := hfeed
      · cases hret
      · cases hret
      · exact hfeed
  generalize (dechunkLoop false).run ⟨ctx.hexlen, []⟩ (ctx.buffer ++ data) = o at hu hmore hdone
  obtain ⟨e, s, b⟩ := o
  cases e with
  | failure => cases hu
  | more =>
    cases hu
    obtain ⟨hline, hdata⟩ := hmore s b rfl
    exact ⟨rfl, hline, hdata⟩
  | zeroed =>
    cases hu
    exact hdone s b rfl

/-! ### The parser -/

variable {Url : Type} {E : Engine Url} {call : MessageCall}

/-- Where a chunked body is being read, there is a message, and the dechunk stream is there and
rests. The state is on top of the stack, or right under the one that writes the body or failed
to. -/
structure ChunkedReady (mp : MessageParser Url) : Prop where
  under : .bodyChunked ∈ mp.stack.tail → mp.state = .body ∨ mp.state = .failure
  deep : .bodyChunked ∉ mp.stack.tail.tail
  message : .bodyChunked ∈ mp.stack → mp.message ≠ []
  stream : .bodyChunked ∈ mp.stack → ∃ ctx, mp.dechunk = some (some ctx) ∧ ctx.Resting

/-- No chunked body is being read. -/
theorem ChunkedReady.of_not_mem {mp : MessageParser Url} (h : .bodyChunked ∉ mp.stack) :
    ChunkedReady mp :=
  ⟨fun hmem => absurd (List.mem_of_mem_tail hmem) h,
    fun hmem => h (List.mem_of_mem_tail (List.mem_of_mem_tail hmem)),
    fun hmem => absurd hmem h, fun hmem => absurd hmem h⟩

theorem ChunkedReady.rest {mp : MessageParser Url} (h : ChunkedReady mp)
    (hstate : mp.state ≠ .body) (hfailure : mp.state ≠ .failure) : .bodyChunked ∉ mp.pop.stack :=
  fun hmem => (h.under hmem).elim hstate hfailure

/-- What a turn pushes is no chunked body, or it is the state behind the headers, or that of the
turn. -/
theorem stateTurn_ready {mp : MessageParser Url} {state : MessageState} (str : Bytes) (cut : ℕ)
    (b : Bytes) (hrest : .bodyChunked ∉ mp.stack)
    (hstate : state ≠ .headerDone ∧ state ≠ .bodyChunked) :
    .bodyChunked ∉ (stateTurn E call state mp str cut b).state.parser.stack := by
  obtain ⟨hdone, hchunked⟩ := hstate
  have hpush : ∀ s : MessageState, s ≠ .bodyChunked → .bodyChunked ∉ s :: mp.stack := by
    intro s hs hmem
    rcases List.mem_cons.mp hmem with h | h
    · exact hs h.symm
    · exact hrest h
  have hpush' : ∀ s : MessageState, s ≠ .bodyChunked → .bodyChunked ∉ .body :: s :: mp.stack := by
    intro s hs hmem
    rcases List.mem_cons.mp hmem with h | h
    · cases h
    · exact hpush s hs h
  cases state <;> dsimp only [stateTurn]
  case failure => exact hpush .failure (by simp)
  case start =>
    unfold startTurn
    split_ifs
    · exact hrest
    · exact hpush .header (by simp)
  case header =>
    unfold messageHeaderTurn
    dsimp only
    split
    · exact hrest
    · exact hpush .headerDone (by simp)
    · split_ifs
      · exact hpush .header (by simp)
      · exact hpush .headerDone (by simp)
  case headerDone => exact absurd rfl hdone
  case body =>
    unfold bodyTurn
    split_ifs
    · exact hrest
    · dsimp only
      split
      · exact hpush .failure (by simp)
      · exact hrest
      · exact hrest
  case bodyDumb => exact hpush' .bodyDone (by simp)
  case bodyLength =>
    refine hpush' _ ?_
    split_ifs <;> simp
  case bodyChunked => exact absurd rfl hchunked
  case bodyDone => exact hpush .done (by simp)
  case updateCl =>
    unfold updateClTurn
    split
    · exact hrest
    · exact hrest
  case done =>
    unfold doneTurn
    split_ifs <;> exact hrest

/-- The state on top goes, or it becomes a failure. -/
theorem ChunkedReady.tail {mp mp' : MessageParser Url} (h : ChunkedReady mp)
    (hstack : mp'.stack = mp.stack.tail ∨ mp'.stack = .failure :: mp.stack.tail)
    (hmessage : mp.message ≠ [] → mp'.message ≠ []) (hdechunk : mp'.dechunk = mp.dechunk) :
    ChunkedReady mp' := by
  have hmem : .bodyChunked ∈ mp'.stack → .bodyChunked ∈ mp.stack := by
    intro hmem
    rcases hstack with hs | hs <;> rw [hs] at hmem
    · exact List.mem_of_mem_tail hmem
    · rcases List.mem_cons.mp hmem with h | h
      · cases h
      · exact List.mem_of_mem_tail h
  refine ⟨fun hunder => ?_, fun hdeep => ?_, fun hm => hmessage (h.message (hmem hm)), fun hm => ?_⟩
  · rcases hstack with hs | hs
    · rw [hs] at hunder
      exact absurd hunder h.deep
    · exact .inr (by rw [MessageParser.state, hs]; rfl)
  · rcases hstack with hs | hs <;> rw [hs] at hdeep
    · exact h.deep (List.mem_of_mem_tail hdeep)
    · exact h.deep hdeep
  · rw [hdechunk]
    exact h.stream (hmem hm)

theorem messageHeaderDoneTurn_ready {mp : MessageParser Url} (hrest : .bodyChunked ∉ mp.stack)
    (b : Bytes) : ChunkedReady (messageHeaderDoneTurn E call mp b).state.parser := by
  unfold messageHeaderDoneTurn
  split
  · exact .of_not_mem hrest
  · next m parents _ =>
    obtain ⟨-, -, hstream, -, hstack, -⟩ := messageHeaderDone_fresh (E := E) call mp m
    generalize messageHeaderDone E call mp m = o at hstream hstack
    obtain ⟨mp', m', state⟩ := o
    dsimp only at hstream hstack
    have hrest' : .bodyChunked ∉ mp'.stack := by rwa [hstack]
    change ChunkedReady { mp' with stack := state :: mp'.stack, message := m' :: parents }
    refine ⟨fun hunder => absurd hunder hrest', fun hdeep => hrest' (List.mem_of_mem_tail hdeep),
      fun _ => List.cons_ne_nil _ _, fun hmem => ?_⟩
    obtain rfl : state = .bodyChunked := by
      rcases List.mem_cons.mp hmem with h | h
      · exact h.symm
      · exact absurd h hrest'
    exact ⟨dechunkInit, hstream rfl, dechunkInit_resting⟩

theorem bodyChunkedTurn_ready {mp : MessageParser Url} (hrest : .bodyChunked ∉ mp.stack)
    (hmessage : mp.message ≠ []) {ctx : DechunkCtx} (hctx : mp.dechunk = some (some ctx))
    (h : ctx.Resting) (b : Bytes) : ChunkedReady (bodyChunkedTurn mp b).state.parser := by
  unfold bodyChunkedTurn
  rw [hctx]
  dsimp only
  cases hu : dechunkUpdate false ctx b with
  | mk dec ctx' =>
    cases dec with
    | none => exact .of_not_mem hrest
    | some dec =>
      have hnext := dechunkUpdate_rest h hu
      dsimp only
      split_ifs at hnext ⊢ with hdone
      · refine .of_not_mem ?_
        simpa [goBody, Turn.state] using hrest
      · refine ⟨fun _ => .inl rfl, fun hdeep => hrest hdeep, fun _ => hmessage,
          fun _ => ⟨ctx', rfl, hnext⟩⟩

theorem bodyTurn_keeps (mp : MessageParser Url) (str : Bytes) (cut : ℕ) (b : Bytes) :
    ((bodyTurn E mp str cut b).state.parser.stack = mp.stack ∨
      (bodyTurn E mp str cut b).state.parser.stack = .failure :: mp.stack) ∧
      (bodyTurn E mp str cut b).state.parser.dechunk = mp.dechunk := by
  unfold bodyTurn
  split_ifs
  · exact ⟨.inl rfl, rfl⟩
  · dsimp only
    split
    · exact ⟨.inr rfl, rfl⟩
    · exact ⟨.inl rfl, rfl⟩
    · exact ⟨.inl rfl, rfl⟩

theorem state_mem {mp : MessageParser Url} {state : MessageState} (h : mp.state = state)
    (hstart : state ≠ .start) : state ∈ mp.stack := by
  cases hs : mp.stack with
  | nil =>
    rw [MessageParser.state, hs] at h
    exact absurd h.symm hstart
  | cons s stack =>
    rw [MessageParser.state, hs] at h
    rw [← h]
    exact List.mem_cons_self

theorem messageTurn_ready {c : MessageConfig Url} (b : Bytes) (h : ChunkedReady c.parser) :
    ChunkedReady ((messageLoop E call).turn c b).state.parser := by
  have hmessage : c.parser.message ≠ [] → (messageTurn E call c b).state.parser.message ≠ [] :=
    messageTurn_message_ne b
  change ChunkedReady (messageTurn E call c b).state.parser
  by_cases hdata : c.parser.state.needData = true → b ≠ []
  case neg =>
    push Not at hdata
    rw [hdata.2, messageTurn_wait _ hdata.1]
    exact h
  rw [messageTurn_pop hdata] at hmessage ⊢
  cases hs : c.parser.state <;> rw [hs] at hmessage
  case failure => exact h.tail (.inr rfl) id rfl
  case body =>
    obtain ⟨hstack, hdechunk⟩ := bodyTurn_keeps (E := E) c.parser.pop c.str c.cut b
    exact h.tail hstack hmessage hdechunk
  case headerDone => exact messageHeaderDoneTurn_ready (h.rest (by simp [hs]) (by simp [hs])) b
  case bodyChunked =>
    have hmem := state_mem hs (by simp)
    obtain ⟨ctx, hctx, hrest⟩ := h.stream hmem
    exact bodyChunkedTurn_ready (h.rest (by simp [hs]) (by simp [hs])) (h.message hmem) hctx hrest b
  all_goals exact .of_not_mem (stateTurn_ready _ _ _ (h.rest (by simp [hs]) (by simp [hs]))
    (by simp))

/-- The parsers that any calls, each on any buffer, make of a fresh one. `parse_stream` keeps count
of a chunk in `body_length`. -/
inductive ParserReached (E : Engine Url) : MessageParser Url → Prop
  | init : ParserReached E messageParserInit
  | parse {mp : MessageParser Url} (call : MessageCall) (b : Bytes) : ParserReached E mp →
      ParserReached E (messageParse E call mp b).2.1
  | length {mp : MessageParser Url} (n : ℕ) : ParserReached E mp →
      ParserReached E { mp with bodyLength := n }

theorem ParserReached.ready {mp : MessageParser Url} (h : ParserReached E mp) :
    ChunkedReady mp := by
  induction h with
  | init => exact .of_not_mem (by simp [messageParserInit])
  | parse call b _ ih =>
    exact Machine.run_state_invariant (M := messageLoop E call)
      (I := fun c => ChunkedReady c.parser) (fun b h => messageTurn_ready b h) b ih
  | length n _ ih => exact ⟨ih.under, ih.deep, ih.message, ih.stream⟩

/-- Where the dechunk stream comes to its end, it holds back the last bytes of the buffer. The state
`BODY` comes next, and it has all but these to cut. What its turn leaves in the buffer is `left`. -/
def RemainderKept (E : Engine Url) (call : MessageCall) (c : MessageConfig Url) (b : Bytes)
    (left : MessageConfig Url → Bytes → Prop) : Prop :=
  ∃ ctx, c.parser.dechunk = some (some ctx) ∧ ∀ dec ctx',
    dechunkUpdate false ctx b = (some dec, ctx') →
    dechunkDone ctx' = true → ctx'.buffer <:+ b ∧
      ∃ d, messageTurn E call c b = .next d b ∧ d.parser.state = .body ∧ d.str = dec ∧
        d.cut + ctx'.buffer.length = b.length ∧ left d ctx'.buffer

theorem remainderKept_of_ready {c : MessageConfig Url} (h : ChunkedReady c.parser)
    (hstate : c.parser.state = .bodyChunked) {b : Bytes} (hb : b ≠ []) (hlen : b.length < 2 ^ 64) :
    RemainderKept E call c b fun d rest => match decodeBody E d.parser.inflate d.str with
      | none => messageTurn E call d b = leaveIn .failure d.parser.pop b
      | some _ => ∃ d', messageTurn E call d b = .next d' rest := by
  have hmem := state_mem hstate (by simp)
  obtain ⟨ctx, hctx, hrest⟩ := h.stream hmem
  obtain ⟨m, parents, hm⟩ := List.exists_cons_of_ne_nil (h.message hmem)
  refine ⟨ctx, hctx, fun dec ctx' hu hdone => ?_⟩
  have hsuffix := dechunkUpdate_rest hrest hu
  rw [if_pos hdone] at hsuffix
  have hle := hsuffix.length_le
  have hturn : messageTurn E call c b = goBody .bodyDone
      { c.parser.pop with dechunk := some (some ctx') } dec
      (sizeSub b.length ctx'.buffer.length) b := by
    rw [messageTurn_pop fun _ => hb, hstate]
    change bodyChunkedTurn c.parser.pop b = _
    have hpop : c.parser.pop.dechunk = some (some ctx) := hctx
    unfold bodyChunkedTurn
    simp only [hpop, hu, hdone, if_true]
  rw [sizeSub_of_le hle hlen] at hturn
  refine ⟨hsuffix, _, hturn, rfl, rfl, Nat.sub_add_cancel hle, ?_⟩
  have hbody := body_turn (E := E) call
    { c.parser.pop with stack := .bodyDone :: c.parser.pop.stack, dechunk := some (some ctx') } hm
      dec (b.length - ctx'.buffer.length) b
  have hdrop : b.drop (b.length - ctx'.buffer.length) = ctx'.buffer :=
    (List.suffix_iff_eq_drop.mp hsuffix).symm
  dsimp only at hbody ⊢
  cases hdec : decodeBody E c.parser.pop.inflate dec with
  | none =>
    simp only [hdec] at hbody ⊢
    exact hbody
  | some o =>
    simp only [hdec, hdrop] at hbody ⊢
    exact ⟨_, hbody⟩

/-- In any run, at the end of a chunked body the dechunk stream holds back the last bytes of what
the parser's buffer holds. These are what the buffer holds behind the state `BODY`, unless the body
cannot be inflated and the call fails. -/
theorem chunked_remainder {mp : MessageParser Url} (hmp : ParserReached E mp) (call : MessageCall)
    (b₀ : Bytes) (c : MessageConfig Url) (b : Bytes)
    (hvisit : (messageLoop E call).Visits (mp.config, b₀) (c, b))
    (hstate : c.parser.state = .bodyChunked) (hb : b ≠ []) (hlen : b.length < 2 ^ 64) :
    RemainderKept E call c b fun d rest => match decodeBody E d.parser.inflate d.str with
      | none => messageTurn E call d b = leaveIn .failure d.parser.pop b
      | some _ => ∃ d', messageTurn E call d b = .next d' rest := by
  have hready : ChunkedReady c.parser := hvisit.state_invariant
    (I := fun c => ChunkedReady c.parser)
    (fun b h => messageTurn_ready b h) hmp.ready
  exact remainderKept_of_ready hready hstate hb hlen

/-- A parser that has read the headers of a chunked response. -/
def behindChunkedHeaders (fields : Bytes) : MessageParser Bytes :=
  (messageParse plainEngine plainCall messageParserInit
    (ascii "HTTP/1.1 200 OK\r\nTransfer-Encoding: chunked\r\n" ++ fields ++ crlf)).2.1

theorem behindChunkedHeaders_reached (fields : Bytes) :
    ParserReached plainEngine (behindChunkedHeaders fields) := .parse plainCall _ .init

theorem chunked_remainder_example :
    let c := (behindChunkedHeaders []).config
    RemainderKept plainEngine plainCall c (ascii "1\r\na\r\n0\r\n\r\nrest") fun d rest =>
      match decodeBody plainEngine d.parser.inflate d.str with
      | none => messageTurn plainEngine plainCall d (ascii "1\r\na\r\n0\r\n\r\nrest") =
          leaveIn .failure d.parser.pop (ascii "1\r\na\r\n0\r\n\r\nrest")
      | some _ => ∃ d', messageTurn plainEngine plainCall d (ascii "1\r\na\r\n0\r\n\r\nrest") =
          .next d' rest :=
  chunked_remainder (behindChunkedHeaders_reached []) plainCall _ _ _ (Machine.Visits.refl _)
    (by decide +kernel) (by decide) (by decide)

/-- Where the body cannot be inflated, nothing is cut. -/
theorem chunked_remainder_not_cut :
    let b := ascii "4\r\n" ++ [255, 255, 255, 255] ++ ascii "\r\n0\r\n\r\nrest"
    let mp := behindChunkedHeaders (ascii "Content-Encoding: gzip\r\n")
    ParserReached plainEngine mp ∧ mp.state = .bodyChunked ∧
      ¬ RemainderKept plainEngine plainCall mp.config b fun d rest =>
        (messageTurn plainEngine plainCall d b).buffer = rest := by
  intro b mp
  have hupdate : dechunkUpdate false dechunkInit b =
      (some [255, 255, 255, 255], ⟨ascii "rest", 0, true⟩) := by
    decide +kernel
  obtain ⟨hstate, hstream, hleft⟩ : mp.state = .bodyChunked ∧ mp.dechunk = some (some dechunkInit) ∧
      (messageTurn plainEngine plainCall
        (messageTurn plainEngine plainCall mp.config b).state b).buffer = b := by decide +kernel
  refine ⟨behindChunkedHeaders_reached _, hstate, ?_⟩
  rintro ⟨ctx, hctx, h⟩
  obtain rfl : ctx = dechunkInit := Option.some.inj (Option.some.inj (hctx.symm.trans hstream))
  obtain ⟨-, d, hturn, -, -, -, hbuffer⟩ := h _ _ hupdate rfl
  rw [hturn] at hleft
  exact absurd (hbuffer.symm.trans hleft) (by decide)

end ExtHttp
