import ExtHttp.BlankHeaders
import ExtHttp.MessageTermination

/-!
# The states that need a message

`HEADER_DONE`, `BODY` and `UPDATE_CL` follow the pointer to the current message. It is NULL there if
the first block of headers is one of `BlankHeaders`.
-/
namespace ExtHttp
open BufferLoop

variable {Url : Type} (E : Engine Url)

/-- `p` holds at every turn of the loop in the calls. -/
def AtEveryTurn (p : MessageCall → MessageConfig Url → Bytes → Prop)
    (calls : List (ParseCall Url)) :
    Prop :=
  ∀ call ∈ calls, ∀ d, (messageLoop E call.flags).Visits (call.parser.config, call.buffer) d →
    p call.flags d.1 d.2

instance (p : MessageCall → MessageConfig Url → Bytes → Prop)
    [∀ flags c b, Decidable (p flags c b)] (calls : List (ParseCall Url)) :
    Decidable (AtEveryTurn E p calls) :=
  have (call : ParseCall Url) := (messageLoop E call.flags).decidableVisits (p call.flags)
    (call.parser.config, call.buffer)
  inferInstanceAs (Decidable (∀ call ∈ calls, _))

/-- A state that follows the pointer has a message there. -/
def MessageThere (c : MessageConfig Url) : Prop :=
  c.parser.state ∈ [MessageState.headerDone, .body, .updateCl] → c.parser.message ≠ []

instance (c : MessageConfig Url) : Decidable (MessageThere c) :=
  inferInstanceAs (Decidable (_ → c.parser.message ≠ []))

/-- The headers are parsed without a message, and what is left of them brings none. -/
def HeadersWithout (flags : MessageCall) (c : MessageConfig Url) (b : Bytes) : Prop :=
  c.parser.state = .header ∧ c.parser.message = [] ∧ c.parser.header.val = none ∧
    BlankHeaders flags.cleanup c.parser.header.state b

/-- As long as there is no message, the parser is in front of the headers or within. -/
def BeforeMessage (mp : MessageParser Url) (b : Bytes) : Prop :=
  mp.message = [] → mp.header.Pending b ∧
    (mp.stack = [] ∧ (mp.header.state = .start ∨ mp.header.state = .failure) ∨ mp.stack = [.header])

theorem BeforeMessage.there {c : MessageConfig Url} {b : Bytes} (h : BeforeMessage c.parser b) :
    MessageThere c := by
  intro hs hm
  obtain ⟨-, ⟨hstack, -⟩ | hstack⟩ := h hm <;> simp [MessageParser.state, hstack] at hs

theorem BeforeMessage.of_ne {mp : MessageParser Url} (b : Bytes) (h : mp.message ≠ []) :
    BeforeMessage mp b := fun hm => absurd hm h

section Turn
variable {E} {flags : MessageCall} {c : MessageConfig Url} {b : Bytes}

theorem messageSink_header_ne (key val : Bytes) (ms : Chain Url) :
    messageSink.header key val ms ≠ [] := by
  cases ms <;> simp [messageSink, infoCallback]

theorem messageSink_info_ne (info : Info Url) (ms : Chain Url) : messageSink.info info ms ≠ [] := by
  cases ms with
  | nil => simp [messageSink, infoCallback]
  | cons m parents =>
    simp only [messageSink, infoCallback]
    split_ifs <;> simp

/-- A turn takes no messages away. -/
theorem messageTurn_message_ne (b : Bytes) (h : c.parser.message ≠ []) :
    ((messageLoop E flags).turn c b).state.parser.message ≠ [] := by
  change (messageTurn E flags c b).state.parser.message ≠ []
  by_cases hdata : c.parser.state.needData = true → b ≠ []
  case neg =>
    push Not at hdata
    rw [hdata.2, messageTurn_wait _ hdata.1]
    exact h
  rw [messageTurn_pop hdata]
  have h : c.parser.pop.message ≠ [] := h
  cases hs : c.parser.state <;> dsimp only [stateTurn]
  case failure => exact h
  case start =>
    unfold startTurn
    split_ifs <;> exact h
  case header =>
    have hrun := headerLoop_sink E.urls messageSink (I := fun ms => ms ≠ [])
      (fun info ms _ => messageSink_info_ne info ms)
      (fun key val ms _ => messageSink_header_ne key val ms) ⟨flags.cleanup, flags.beyond⟩
      (c := (c.parser.pop.header, c.parser.pop.message)) b h
    unfold messageHeaderTurn
    dsimp only
    split
    · exact hrun
    · exact hrun
    · split_ifs <;> exact hrun
  case headerDone =>
    unfold messageHeaderDoneTurn
    split
    · exact h
    · exact List.cons_ne_nil _ _
  case body =>
    unfold bodyTurn
    split_ifs
    · exact h
    · dsimp only
      split
      · exact h
      · exact h
      · exact List.cons_ne_nil _ _
  case bodyDumb => exact h
  case bodyLength => exact h
  case bodyChunked =>
    unfold bodyChunkedTurn
    split
    · split
      · exact h
      · dsimp only
        split_ifs <;> exact h
    · exact h
  case bodyDone => exact h
  case updateCl =>
    unfold updateClTurn
    split
    · exact h
    · exact List.cons_ne_nil _ _
  case done =>
    unfold doneTurn
    split_ifs <;> exact h

/-- Behind headers that bring no message the state is `HEADER_DONE` and there is none. -/
theorem messageHeaderTurn_without (mp : MessageParser Url) (hm : mp.message = [])
    (hp : mp.header.Pending b)
    (h : mp.header.val = none ∧ BlankHeaders flags.cleanup mp.header.state b) :
    ∃ d b', messageHeaderTurn E flags mp b = .next d b' ∧ d.parser.state = .headerDone ∧
      d.parser.message = [] := by
  obtain ⟨-, hends⟩ := headerLoop_blank E.urls ⟨flags.cleanup, flags.beyond⟩ hp
  obtain ⟨hnone, hends⟩ := hends.mpr h
  unfold messageHeaderTurn
  rw [hm]
  dsimp only
  generalize (headerLoop E.urls messageSink ⟨flags.cleanup, flags.beyond⟩).run
    (mp.header, []) b = o at hnone hends
  split
  · next hr => simp [hr] at hends
  · exact ⟨_, _, rfl, rfl, hnone⟩
  · next hf hd =>
    obtain ⟨-, hb, hc⟩ := hends.resolve_left hd
    rw [if_neg (by simp [hb, show flags.cleanup = true from hc])]
    exact ⟨_, _, rfl, rfl, hnone⟩

/-- Behind others there is a message, or they go on. -/
theorem messageHeaderTurn_with {mp : MessageParser Url} (hm : mp.message = [])
    (hp : mp.header.Pending b) (hs : mp.stack = [])
    (h : ¬ (mp.header.val = none ∧ BlankHeaders flags.cleanup mp.header.state b)) :
    BeforeMessage (messageHeaderTurn E flags mp b).state.parser
      (messageHeaderTurn E flags mp b).buffer := by
  obtain ⟨hpending, hends⟩ :=
    headerLoop_blank E.urls ⟨flags.cleanup, flags.beyond⟩ hp
  have hends := mt hends.mp h
  have hfailure := headerLoop_failure E.urls messageSink ⟨flags.cleanup, flags.beyond⟩
    (mp.header, mp.message) b
  unfold messageHeaderTurn
  rw [hm] at hfailure ⊢
  dsimp only
  generalize (headerLoop E.urls messageSink ⟨flags.cleanup, flags.beyond⟩).run
    (mp.header, []) b = o at hends hpending hfailure
  split
  · next hr => exact fun hnone => ⟨hpending, .inl ⟨hs, .inr (hfailure hr)⟩⟩
  · next hr => exact .of_ne _ fun hnone => hends ⟨hnone, .inl hr⟩
  · next hf hd =>
    split_ifs with hmore
    · exact fun _ => ⟨hpending, .inr (congrArg (MessageState.header :: ·) hs)⟩
    · push Not at hmore
      exact .of_ne _ fun hnone => hends ⟨hnone, .inr ⟨hf, hmore.1, by simpa using hmore.2⟩⟩

theorem HeaderParser.Pending.of_start {hp : HeaderParser} {b : Bytes} (h : hp.Pending b)
    (b' : Bytes) (hs : hp.state = .start ∨ hp.state = .failure) : hp.Pending b' := by
  refine ⟨h.key, fun hv => ?_⟩
  rcases hs with hs | hs <;> simpa [hs] using (h.val hv).2

theorem messageTurn_before (h : BeforeMessage c.parser b) (hw : ¬ HeadersWithout flags c b) :
    BeforeMessage ((messageLoop E flags).turn c b).state.parser
      ((messageLoop E flags).turn c b).buffer := by
  by_cases hm : c.parser.message = []
  case neg => exact .of_ne _ (messageTurn_message_ne b hm)
  change BeforeMessage (messageTurn E flags c b).state.parser (messageTurn E flags c b).buffer
  obtain ⟨hp, ⟨hstack, hstart⟩ | hstack⟩ := h hm
  · have hs : c.parser.state = .start := by simp [MessageParser.state, hstack]
    by_cases hb : b = []
    · rw [hb, messageTurn_wait _ (by simp [hs, MessageState.needData])]
      exact fun _ => ⟨hp.of_start _ hstart, .inl ⟨hstack, hstart⟩⟩
    · rw [messageTurn_pop fun _ => hb, hs]
      change BeforeMessage (startTurn _ b).state.parser (startTurn _ b).buffer
      unfold startTurn
      split_ifs
      · exact fun _ => ⟨hp.of_start _ hstart, .inl ⟨congrArg List.tail hstack, hstart⟩⟩
      · exact fun _ => ⟨hp.of_start _ hstart,
          .inr (congrArg (MessageState.header :: List.tail ·) hstack)⟩
  · have hs : c.parser.state = .header := by simp [MessageParser.state, hstack]
    rw [messageTurn_pop (by simp [hs, MessageState.needData]), hs]
    exact messageHeaderTurn_with hm hp (by simp [MessageParser.pop, hstack])
      fun hblank => hw ⟨hs, hm, hblank⟩

theorem messageTurn_without (h : BeforeMessage c.parser b) (hw : HeadersWithout flags c b) :
    ∃ d b', (messageLoop E flags).turn c b = .next d b' ∧ ¬ MessageThere d := by
  obtain ⟨hs, hm, hblank⟩ := hw
  obtain ⟨d, b', ht, hd, hnone⟩ :=
    messageHeaderTurn_without (E := E) c.parser.pop hm (h hm).1 hblank
  refine ⟨d, b', ?_, fun hthere => hthere (by simp [hd]) hnone⟩
  change messageTurn E flags c b = _
  rw [messageTurn_pop (by simp [hs, MessageState.needData]), hs]
  exact ht

end Turn

/-! ### The methods -/

section Methods
variable {E}

theorem BeforeMessage.feed {mp : MessageParser Url} {b b' : Bytes} (h : BeforeMessage mp b) (n : ℕ)
    (hb : b' = b ∨ b' ≠ []) : BeforeMessage { mp with bodyLength := n } b' := by
  intro hm
  obtain ⟨hp, hs⟩ := h hm
  refine ⟨⟨hp.key, fun hv => ⟨(hp.val hv).1, ?_⟩⟩, hs⟩
  obtain ⟨-, h | h | ⟨hvalue, hne⟩⟩ := hp.val hv
  · exact .inl h
  · exact .inr (.inl h)
  · exact .inr (.inr ⟨hvalue, hb.elim (· ▸ hne) id⟩)

@[simp] theorem atEveryTurn_nil {p : MessageCall → MessageConfig Url → Bytes → Prop} :
    AtEveryTurn E p [] := by simp [AtEveryTurn]

/-- There is a message where one is needed. -/
abbrev MessagesThere (E : Engine Url) (calls : List (ParseCall Url)) : Prop :=
  AtEveryTurn E (fun _ c _ => MessageThere c) calls

/-- No block of headers without a start line and without a value is the first. -/
abbrev NoHeadersWithout (E : Engine Url) (calls : List (ParseCall Url)) : Prop :=
  AtEveryTurn E (fun flags c b => ¬ HeadersWithout flags c b) calls

theorem there_append {calls calls' : List (ParseCall Url)}
    (h : MessagesThere E calls ↔ NoHeadersWithout E calls)
    (h' : NoHeadersWithout E calls → (MessagesThere E calls' ↔ NoHeadersWithout E calls')) :
    MessagesThere E (calls ++ calls') ↔ NoHeadersWithout E (calls ++ calls') := by
  have happend : ∀ p, AtEveryTurn E p (calls ++ calls') ↔
      AtEveryTurn E p calls ∧ AtEveryTurn E p calls' := by
    simp [AtEveryTurn, or_imp, forall_and]
  rw [MessagesThere, NoHeadersWithout, happend, happend]
  exact (and_congr_left' h).trans (and_congr_right h')

theorem messageParse_there (flags : MessageCall) {mp : MessageParser Url} {b : Bytes}
    (h : BeforeMessage mp b) :
    (MessagesThere E [⟨flags, mp, b⟩] ↔ NoHeadersWithout E [⟨flags, mp, b⟩]) ∧
      (NoHeadersWithout E [⟨flags, mp, b⟩] →
        BeforeMessage (messageParse E flags mp b).2.1 (messageParse E flags mp b).2.2) := by
  have hnext : ∀ {c : MessageConfig Url} {b d b'}, BeforeMessage c.parser b →
      ¬ HeadersWithout flags c b → (messageLoop E flags).turn c b = .next d b' →
      BeforeMessage d.parser b' := by
    intro c b d b' hc hw ht
    simpa [ht, Turn.state, Turn.buffer] using messageTurn_before (E := E) hc hw
  have hiff := Machine.visits_iff (M := messageLoop E flags) (c := (mp.config, b))
    (I := fun c b => BeforeMessage c.parser b) (P := fun c _ => MessageThere c)
    (B := HeadersWithout flags) BeforeMessage.there hnext messageTurn_without h
  have hone : ∀ p, AtEveryTurn E p [⟨flags, mp, b⟩] ↔
      ∀ d, (messageLoop E flags).Visits (mp.config, b) d → p flags d.1 d.2 := by
    simp [AtEveryTurn]
  rw [MessagesThere, NoHeadersWithout, hone, hone]
  refine ⟨hiff, fun hall => ?_⟩
  obtain ⟨d, hd, ht⟩ := (messageLoop E flags).exists_last_turn mp.config b
  have hbefore := messageTurn_before (E := E) (hd.guarded hnext h hall) (hall d hd)
  rw [ht] at hbefore
  exact hbefore

/-- A read changes no more of the parser than `body_length`, and leaves nothing in the buffer only
if there was nothing. -/
theorem streamRead_buffer {state : MessageState} {mp mp' : MessageParser Url} {b b' : Bytes}
    {r : StreamRead} {justread : ℕ} (hb : Drained state b)
    (h : streamRead state mp b r = some (justread, mp', b')) :
    ∃ n, mp' = { mp with bodyLength := n } ∧ (b' = b ∨ b' ≠ []) := by
  have happend : ∀ p : Bytes, b ++ p = b ∨ b ++ p ≠ [] := by
    intro p
    cases p <;> simp
  have haccount : ∀ data o, state.needData = true → state ≠ .start → r.account data b = some o →
      o.2 = b ∨ o.2 ≠ [] := by
    intro data o hneed hstart ho
    obtain rfl := (hb hneed).resolve_left hstart
    rw [StreamRead.account, if_pos (rfl : ([] : Bytes) = [])] at ho
    split_ifs at ho
    cases ho
    exact happend data
  cases state
  case bodyDumb =>
    obtain ⟨o, ho, hread⟩ := Option.map_eq_some_iff.mp h
    cases hread
    exact ⟨mp.bodyLength, rfl, haccount _ o rfl (by decide) ho⟩
  case bodyLength =>
    obtain ⟨o, ho, hread⟩ := Option.map_eq_some_iff.mp h
    cases hread
    exact ⟨mp.bodyLength, rfl, haccount _ o rfl (by decide) ho⟩
  case bodyChunked =>
    unfold streamRead at h
    dsimp only at h
    split_ifs at h with hlen hdata
    · obtain ⟨o, ho, hread⟩ := Option.map_eq_some_iff.mp h
      cases hread
      exact ⟨_, rfl, haccount _ o rfl (by decide) ho⟩
    · cases h
      exact ⟨_, rfl, .inl (by simp [hdata])⟩
    · cases h
      refine ⟨_, rfl, .inr ?_⟩
      obtain ⟨c, data, hr⟩ := List.exists_cons_of_ne_nil hdata
      simp [hr]
  all_goals
    dsimp only [streamRead] at h
    split_ifs at h
    · cases h
      exact ⟨mp.bodyLength, rfl, happend _⟩
    · split at h <;> cases h
      · exact ⟨mp.bodyLength, rfl, happend _⟩
      · exact ⟨mp.bodyLength, rfl, .inl rfl⟩

theorem parseStream_there (flags : MessageCall) (reads : List StreamRead) (state : MessageState)
    {mp : MessageParser Url} {b : Bytes} (h : BeforeMessage mp b) (hb : Drained state b) :
    (MessagesThere E (parseStream E flags state mp b reads).1 ↔
        NoHeadersWithout E (parseStream E flags state mp b reads).1) ∧
      (NoHeadersWithout E (parseStream E flags state mp b reads).1 →
        ∀ o ∈ (parseStream E flags state mp b reads).2, BeforeMessage o.2.1 o.2.2) := by
  have hnil : MessagesThere E [] ↔ NoHeadersWithout E [] :=
    iff_of_true atEveryTurn_nil atEveryTurn_nil
  induction reads generalizing state mp b with
  | nil =>
    refine ⟨hnil, fun _ o ho => ?_⟩
    simp only [parseStream, Option.mem_def, Option.ite_none_right_eq_some, Option.some.injEq] at ho
    obtain ⟨-, rfl⟩ := ho
    exact h
  | cons r reads ih =>
    rw [parseStream]
    by_cases hend : state = .done ∨ state = .failure
    · rw [if_pos hend]
      refine ⟨hnil, fun _ o ho => ?_⟩
      cases ho
      exact h
    rw [if_neg hend]
    by_cases habort : state = .body ∨ state = .bodyDone ∨ state = .updateCl
    · rw [if_pos habort]
      exact ⟨hnil, fun _ o ho => absurd ho (Option.not_mem_none o)⟩
    rw [if_neg habort]
    cases hs : streamRead state mp b r with
    | none => exact ⟨hnil, fun _ o ho => absurd ho (Option.not_mem_none o)⟩
    | some read =>
    obtain ⟨justread, mp', b'⟩ := read
    obtain ⟨n, rfl, hb'⟩ := streamRead_buffer hb hs
    have hread := h.feed n hb'
    dsimp only
    by_cases hjust : justread ≠ 0
    · rw [if_pos hjust]
      obtain ⟨hiff, hafter⟩ := messageParse_there (E := E) flags hread
      cases hr : (messageParse E flags { mp with bodyLength := n } b').1 with
      | none => exact ⟨hiff, fun _ o ho => absurd ho (Option.not_mem_none o)⟩
      | some state' =>
        have hrest := fun hfirst => ih state' (hafter hfirst) (.of_parse (Prod.ext hr rfl))
        refine ⟨there_append hiff fun hfirst => (hrest hfirst).1, fun hall o ho => ?_⟩
        have hfirst : NoHeadersWithout E
            [⟨flags, { mp with bodyLength := n }, b'⟩] := fun call hc => hall call (by
          simpa using Or.inl (List.mem_singleton.mp hc))
        exact (hrest hfirst).2 (fun call hc => hall call (List.mem_cons_of_mem _ hc)) o ho
    rw [if_neg hjust]
    by_cases heof : r.eof = true
    · rw [if_pos heof]
      obtain ⟨hiff, hafter⟩ :=
        messageParse_there (E := E) { flags with cleanup := true } hread
      refine ⟨hiff, fun hall o ho => ?_⟩
      obtain ⟨s, -, rfl⟩ := Option.map_eq_some_iff.mp ho
      exact hafter hall
    · rw [if_neg heof]
      refine ⟨hnil, fun _ o ho => ?_⟩
      cases ho
      exact hread

theorem parserCalls_there {mp : MessageParser Url} {b : Bytes} (h : BeforeMessage mp b)
    (methods : List ParserMethod) :
    MessagesThere E (parserCalls E mp b methods) ↔
      NoHeadersWithout E (parserCalls E mp b methods) := by
  have hnil : MessagesThere E [] ↔ NoHeadersWithout E [] :=
    iff_of_true atEveryTurn_nil atEveryTurn_nil
  induction methods generalizing mp b with
  | nil => exact hnil
  | cons method methods ih =>
    cases method with
    | parse flags data =>
      have hdata : b ++ data = b ∨ b ++ data ≠ [] := by cases data <;> simp
      obtain ⟨hiff, hafter⟩ :=
        messageParse_there (E := E) flags (h.feed mp.bodyLength hdata)
      rw [parserCalls, ← List.singleton_append]
      refine there_append hiff fun hfirst => ?_
      by_cases hnull : (messageParse E flags mp (b ++ data)).1 = none
      · rw [if_pos hnull]
        exact hnil
      · rw [if_neg hnull]
        exact ih (hafter hfirst)
    | stream flags reads =>
      obtain ⟨hiff, hafter⟩ := parseStream_there (E := E) flags reads .start h fun _ => .inl rfl
      rw [parserCalls]
      refine there_append hiff fun hfirst => ?_
      cases ho : (parseStream E flags .start mp b reads).2 with
      | none => exact hnil
      | some o => exact ih (hafter hfirst o ho)

end Methods

/-- There is a message wherever one is needed in just the runs that come upon no block of headers
without a value while there is none. -/
theorem messagesThere_iff (methods : List ParserMethod) :
    MessagesThere E (objectCalls E methods) ↔ NoHeadersWithout E (objectCalls E methods) := by
  refine parserCalls_there (fun _ => ⟨?_, .inl ⟨rfl, .inl rfl⟩⟩) methods
  exact ⟨by simp [messageParserInit, headerParserInit], by
    simp [messageParserInit, headerParserInit]⟩

/-- A field without a value, with the end of the headers or the input behind it. -/
theorem blank_headers_no_message :
    ¬ MessagesThere plainEngine (objectCalls plainEngine [.parse plainCall (ascii "A:\r\n\r\n")]) ∧
      ¬ MessagesThere plainEngine
        (objectCalls plainEngine [.stream plainCall [⟨ascii "A:", none, false, [], false⟩,
          ⟨[], none, true, [], false⟩]]) := by
  decide +kernel

end ExtHttp
