import ExtHttp.MessageBody

/-!
# The end of a message's headers

Where a fresh parser comes by reading headers alone, and how the loop goes on from there.
-/
namespace ExtHttp
open BufferLoop

variable {Url : Type}

/-- Where a fresh parser comes while it is fed and takes turns in START and HEADER only. -/
inductive ReadingHeaders (E : Engine Url) : MessageConfig Url → Bytes → Prop
  | init : ReadingHeaders E messageParserInit.config []
  | feed {c : MessageConfig Url} {b : Bytes} (p : Bytes) :
      ReadingHeaders E c b → ReadingHeaders E c (b ++ p)
  | turn {c : MessageConfig Url} {b : Bytes} (call : MessageCall) : ReadingHeaders E c b →
      c.parser.state = .start ∨ c.parser.state = .header →
      ReadingHeaders E (messageTurn E call c b).state (messageTurn E call c b).buffer

/-- Nothing but headers has been read. -/
structure BeforeBody (mp : MessageParser Url) : Prop where
  stack : mp.stack = [] ∨ mp.stack = [.header] ∨ mp.stack = [.headerDone]
  inflate : mp.inflate = none
  body : ∀ m ∈ mp.message, m.body = []

theorem messageSink_body (P : UrlParsers Url) (call : HeaderCall) (hp : HeaderParser)
    (ms : Chain Url) (h : ∀ m ∈ ms, m.body = []) (b : Bytes) :
    ∀ m ∈ ((headerLoop P messageSink call).run (hp, ms) b).2.1.2, m.body = [] := by
  have hcallback : ∀ (info : Option (Info Url)) (ms : Chain Url), (∀ m ∈ ms, m.body = []) →
      ∀ m ∈ infoCallback info ms, m.body = [] := by
    intro info ms h
    unfold infoCallback
    split
    · next m parents =>
      have hbody : m.body = [] := h m (by simp)
      split_ifs
      · exact List.forall_mem_cons.mpr ⟨rfl, h⟩
      · exact List.forall_mem_cons.mpr ⟨hbody, fun m hm => h m (by simp [hm])⟩
    · simp
  refine headerLoop_sink P messageSink (I := fun ms : Chain Url => ∀ m ∈ ms, m.body = [])
    (fun info ms h => hcallback (some info) ms h) (fun key val ms h => ?_) call b h
  have hms : ∀ m ∈ (if ms = [] then infoCallback none ms else ms), m.body = [] := by
    split_ifs
    · exact hcallback none ms h
    · exact h
  unfold messageSink
  dsimp only
  split
  · next m parents heq =>
    rw [heq] at hms
    exact List.forall_mem_cons.mpr ⟨hms m (by simp), fun x hx => hms x (by simp [hx])⟩
  · simp

variable {E : Engine Url} {call : MessageCall} {mp : MessageParser Url}

theorem ReadingHeaders.beforeBody {c : MessageConfig Url} {b : Bytes} (h : ReadingHeaders E c b) :
    BeforeBody c.parser := by
  induction h with
  | init => exact ⟨.inl rfl, rfl, by simp [messageParserInit, MessageParser.config]⟩
  | feed p _ ih => exact ih
  | @turn c b call _ hstate ih =>
    unfold messageTurn
    split_ifs
    · exact ih
    · have hpop : c.parser.pop.stack = [] := by
        rcases ih.stack with hs | hs | hs
        · simp [MessageParser.pop, hs]
        · simp [MessageParser.pop, hs]
        · simp [MessageParser.state, hs] at hstate
      rcases hstate with hs | hs <;> rw [hs]
      · change BeforeBody (startTurn c.parser.pop b).state.parser
        unfold startTurn
        split_ifs
        · exact ⟨.inl hpop, ih.inflate, ih.body⟩
        · exact ⟨.inr (.inl (by simp [goIn, Turn.state, MessageParser.config, hpop])), ih.inflate,
            ih.body⟩
      · change BeforeBody (messageHeaderTurn E call c.parser.pop b).state.parser
        have hbody := messageSink_body E.urls ⟨call.cleanup, call.beyond⟩ c.parser.header _
          ih.body b
        unfold messageHeaderTurn
        dsimp only
        split
        · exact ⟨.inl hpop, ih.inflate, hbody⟩
        · exact ⟨.inr (.inr (by simp [goIn, Turn.state, MessageParser.config, hpop])), ih.inflate,
            hbody⟩
        · split_ifs
          · exact ⟨.inr (.inl (by simp [leaveIn, leave, Turn.state, MessageParser.config, hpop])),
              ih.inflate, hbody⟩
          · exact ⟨.inr (.inr (by simp [goIn, Turn.state, MessageParser.config, hpop])), ih.inflate,
              hbody⟩

/-- From the end of headers on. -/
theorem headerDone_turn (call : MessageCall) (mp : MessageParser Url) {m : Message Url}
    {parents : Chain Url} (hm : mp.message = m :: parents)
    (str : Bytes) (cut : ℕ) (b : Bytes) :
    (messageLoop E call).turn ⟨{ mp with stack := .headerDone :: mp.stack }, str, cut⟩ b =
      .next (MessageParser.config { (messageHeaderDone E call mp m).1 with
        stack := (messageHeaderDone E call mp m).2.2 :: mp.stack
        message := (messageHeaderDone E call mp m).2.1 :: parents }) b := by
  have hturn : (messageLoop E call).turn ⟨{ mp with stack := .headerDone :: mp.stack },
      str, cut⟩ b = messageHeaderDoneTurn E call mp b := if_neg fun h => by cases h.2
  have hnext : messageHeaderDoneTurn E call mp b =
      goIn (messageHeaderDone E call mp m).2.2 { (messageHeaderDone E call mp m).1 with
        message := (messageHeaderDone E call mp m).2.1 :: parents } b := by
    unfold messageHeaderDoneTurn
    split
    · next h => simp [hm] at h
    · next h =>
      obtain ⟨rfl, rfl⟩ := List.cons_eq_cons.mp (hm.symm.trans h)
      rfl
  rw [hturn, hnext, goIn, (messageHeaderDone_keeps m).1]

/-! ### Where the body ends -/

/-- The flags that make the parser decide otherwise about a body are not in force for `m`. -/
structure MessageCall.Framed (call : MessageCall) (m : Message Url) : Prop where
  dumbBodies : call.dumbBodies = false
  emptyRedirects : call.emptyRedirects = true → closedRedirect m m.hdrs = false

variable {E : Engine Url} {call : MessageCall} {mp : MessageParser Url}

/-- The headers that are written or deleted where the framing is decided. -/
def framingKeys : List Bytes :=
  [ascii "X-Original-Transfer-Encoding", ascii "Transfer-Encoding", ascii "Content-Length",
    ascii "X-Original-Content-Length", ascii "Content-Range", ascii "X-Original-Content-Encoding",
    ascii "Content-Encoding"]

theorem framing_find (hdrs : Headers) {key : Bytes}
    (h : key ∉ framingKeys ∨ key = ascii "Content-Range" ∨ key = ascii "Content-Encoding") :
    (framing E hdrs).1.find key = hdrs.find key := by
  have hne : ∀ k ∈ [ascii "X-Original-Transfer-Encoding", ascii "Transfer-Encoding",
      ascii "Content-Length", ascii "X-Original-Content-Length"], k ≠ key := by
    rintro k hk rfl
    revert k
    decide
  unfold framing
  split
  · simp [hne _]
  · split <;> simp [hne _]

theorem contentEncoding_find (hdrs : Headers) (inflate : Option InflateStream) {key : Bytes}
    (h : ascii "X-Original-Content-Encoding" ≠ key ∧ ascii "Content-Encoding" ≠ key) :
    (contentEncoding hdrs inflate).1.find key = hdrs.find key := by
  unfold contentEncoding
  split
  · split_ifs <;> simp [h.1, h.2]
  · rfl

/-- `content_range` -/
def Message.contentRange (m : Message Url) : Option Bytes :=
  (m.hdrs.find (ascii "Content-Range")).map HeaderValue.join

/-- The state behind the headers of `m` and the `body_length` then. -/
def bodyFraming (E : Engine Url) (call : MessageCall) (mp : MessageParser Url) (m : Message Url) :
    MessageState × ℕ :=
  let (_, chunked, contentLength) := framing E m.hdrs
  if chunked then (.bodyChunked, mp.bodyLength)
  else match m.contentRange.bind (contentRangeLength call) with
    | some n => (lengthState n, n)
    | none =>
        if 0 ≤ contentLength then (lengthState contentLength.toNat, contentLength.toNat)
        else (if m.isRequest then .done else .bodyDumb, mp.bodyLength)

theorem closedRedirect_congr (m : Message Url) {hdrs hdrs' : Headers}
    (h : ∀ key, key ∉ framingKeys → hdrs'.find key = hdrs.find key) :
    closedRedirect m hdrs' = closedRedirect m hdrs := by
  unfold closedRedirect
  rw [h (ascii "Location") (by decide), h (ascii "Connection") (by decide)]

/-- The closing redirect is looked for in the headers as they stand then. -/
theorem closedRedirect_framing (E : Engine Url) (m : Message Url) :
    closedRedirect m
      ((((framing E m.hdrs).1.find (ascii "Content-Range")).map HeaderValue.join).elim
      (framing E m.hdrs).1 fun v =>
        (framing E m.hdrs).1.update (ascii "Content-Range") (.scalar (.str v))) =
      closedRedirect m m.hdrs := by
  refine closedRedirect_congr m fun key hkey => ?_
  have hne : ascii "Content-Range" ≠ key := by
    rintro rfl
    exact hkey (by decide)
  cases (framing E m.hdrs).1.find (ascii "Content-Range") with
  | none => exact framing_find m.hdrs (.inl hkey)
  | some v =>
    rw [Option.map_some, Option.elim_some, Headers.find_update, if_neg hne]
    exact framing_find m.hdrs (.inl hkey)

instance (call : MessageCall) (m : Message Url) : Decidable (call.Framed m) :=
  decidable_of_iff (call.dumbBodies = false ∧
    (call.emptyRedirects = true → closedRedirect m m.hdrs = false))
    ⟨fun h => ⟨h.1, h.2⟩, fun h => ⟨h.1, h.2⟩⟩

/-- The state behind the headers of `m` where a flag decides. -/
def flagState (call : MessageCall) (m : Message Url) : MessageState :=
  if call.emptyRedirects && closedRedirect m m.hdrs then .done else .bodyDumb

/-- Where a flag decides, no length is taken. -/
theorem messageHeaderDone_flags {m : Message Url} (hcall : ¬ call.Framed m) :
    ((messageHeaderDone E call mp m).2.2, (messageHeaderDone E call mp m).1.bodyLength) =
      (flagState call m, mp.bodyLength) := by
  have hredirect := closedRedirect_framing E m
  unfold messageHeaderDone
  dsimp only
  rw [hredirect]
  by_cases hclosed : (call.emptyRedirects && closedRedirect m m.hdrs) = true
  · rw [flagState, if_pos hclosed, if_pos hclosed]
  · rw [flagState, if_neg hclosed, if_neg hclosed]
    have hdumb : call.dumbBodies = true := by
      by_contra hdumb
      refine hcall ⟨by simpa using hdumb, fun hempty => ?_⟩
      simpa [hempty] using hclosed
    rw [if_pos hdumb]

theorem messageHeaderDone_unframed {m : Message Url} (hcall : ¬ call.Framed m) :
    (messageHeaderDone E call mp m).2.2 = .done ∨
      (messageHeaderDone E call mp m).2.2 = .bodyDumb := by
  have hstate : (messageHeaderDone E call mp m).2.2 = flagState call m :=
    congrArg Prod.fst (messageHeaderDone_flags hcall)
  rw [hstate]
  unfold flagState
  split_ifs
  · exact .inl rfl
  · exact .inr rfl

theorem messageHeaderDone_framed {m : Message Url} (hcall : call.Framed m) :
    ((messageHeaderDone E call mp m).2.2, (messageHeaderDone E call mp m).1.bodyLength) =
      bodyFraming E call mp m := by
  have hrange : (framing E m.hdrs).1.find (ascii "Content-Range") =
      m.hdrs.find (ascii "Content-Range") := framing_find m.hdrs (.inr (.inl rfl))
  have hredirect := closedRedirect_framing E m
  have hopen : ¬ (call.emptyRedirects && closedRedirect m m.hdrs) = true := by
    rw [Bool.and_eq_true, not_and]
    intro hempty
    simp [hcall.emptyRedirects hempty]
  unfold messageHeaderDone bodyFraming Message.contentRange
  dsimp only
  rw [hredirect, if_neg hopen, hcall.dumbBodies, hrange]
  generalize framing E m.hdrs = f
  obtain ⟨hdrs, chunked, contentLength⟩ := f
  simp only [Bool.false_eq_true, if_false]
  cases chunked with
  | true => rfl
  | false =>
    cases ((m.hdrs.find (ascii "Content-Range")).map HeaderValue.join).bind
      (contentRangeLength call) with
    | some n => rfl
    | none =>
      by_cases hlength : 0 ≤ contentLength
      · simp [hlength]
      · simp only [hlength, if_false, Bool.false_eq_true]
        rfl

/-- What the turn at the end of the headers makes of the parser. -/
theorem headerDone_state {c : MessageConfig Url} {m : Message Url} {parents : Chain Url}
    (hstate : c.parser.state = .headerDone) (hm : c.parser.message = m :: parents) (b : Bytes) :
    (messageTurn E call c b).state.parser.state = (messageHeaderDone E call c.parser.pop m).2.2 ∧
      (messageTurn E call c b).state.parser.bodyLength =
        (messageHeaderDone E call c.parser.pop m).1.bodyLength ∧
      (messageTurn E call c b).state.parser.message =
        (messageHeaderDone E call c.parser.pop m).2.1 :: parents := by
  have hdata : c.parser.state.needData = true → b ≠ [] := by
    rw [hstate]
    intro h
    cases h
  rw [messageTurn_pop hdata, hstate]
  change (messageHeaderDoneTurn E call c.parser.pop b).state.parser.state = _ ∧
    (messageHeaderDoneTurn E call c.parser.pop b).state.parser.bodyLength = _ ∧
    (messageHeaderDoneTurn E call c.parser.pop b).state.parser.message = _
  have hpop : c.parser.pop.message = m :: parents := hm
  unfold messageHeaderDoneTurn
  split
  · next h => simp [hpop] at h
  · next h =>
    obtain ⟨rfl, rfl⟩ := List.cons_eq_cons.mp (hpop.symm.trans h)
    exact ⟨rfl, rfl, rfl⟩

/-! ### Between two messages -/

theorem idle_wait (call : MessageCall) (hstack : mp.stack = []) :
    (messageLoop E call).turn mp.config [] = .ret (some .start) mp.config [] := by
  have hstate : mp.config.parser.state = .start := by
    change mp.state = .start
    rw [MessageParser.state, hstack]
    rfl
  have hturn := messageTurn_wait (E := E) call (c := mp.config) (by rw [hstate]; rfl)
  rwa [hstate] at hturn

theorem idle_turn (call : MessageCall) (hstack : mp.stack = []) {b : Bytes} (hb : b ≠ []) :
    (messageLoop E call).turn mp.config b = startTurn mp b := by
  obtain ⟨stack, bodyLength, header, dechunk, inflate, message⟩ := mp
  obtain rfl : stack = [] := hstack
  exact if_neg fun h => hb h.1

/-- Leading blanks make no difference. -/
theorem idle_run_dropWhile (hstack : mp.stack = []) (b : Bytes) :
    (messageLoop E call).run mp.config (b.dropWhile isSpace) =
      (messageLoop E call).run mp.config b := by
  by_cases hb : b.dropWhile isSpace = []
  · by_cases hnil : b = []
    · rw [hnil, List.dropWhile_nil]
    · have hturn := idle_turn (E := E) call hstack hnil
      rw [startTurn, if_pos hb] at hturn
      rw [hb, Machine.run_next hturn]
  · have hne : b ≠ [] := fun h => hb (by rw [h, List.dropWhile_nil])
    have hturn := idle_turn (E := E) call hstack hb
    have hturn' := idle_turn (E := E) call hstack hne
    rw [startTurn, List.dropWhile_idempotent, if_neg hb] at hturn
    rw [startTurn, if_neg hb] at hturn'
    rw [Machine.run_next hturn, Machine.run_next hturn']

end ExtHttp
