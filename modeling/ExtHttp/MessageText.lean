import ExtHttp.HeaderBlock
import ExtHttp.MessageHead

/-!
# The text of a message

A block of headers and a body that end themselves, and what a greedy parser makes of them, whatever
messages it has parsed before and whatever text follows.
-/
namespace ExtHttp
open BufferLoop

variable {Url : Type} {E : Engine Url}

/-! ### A block of headers -/

/-- Behind this chain the next start line begins another message. -/
def Begun (ms : Chain Url) : Prop := ∀ m ∈ ms.head?, m.begun = true

/-- A block of headers that is read as those of `m`, whatever follows it. -/
structure HeadBlock (E : Engine Url) (beyond : Bytes → Bytes) (head : Bytes) (m : Message Url) :
    Prop where
  info : m.info.isSome = true
  read : ∀ cleanup rest, (headerLoop E.urls messageSink ⟨cleanup, beyond⟩).run
    (headerParserInit, []) (head ++ rest) = (.done, (headerParserInit, [m]), rest)

/-- The oldest message is one that fields have begun. -/
def Headless (ms : Chain Url) : Prop :=
  ∃ m ∈ ms.getLast?, m.info = none ∧ m.hdrs ≠ []

/-- `s'` is what `s` is with `ms` behind it, as long as a start line comes first. -/
def BehindChain (ms s s' : Chain Url) : Prop :=
  s = [] ∧ s' = ms ∨ s ≠ [] ∧ s' = s ++ ms ∨ Headless s

theorem headers_add_ne_nil (hs : Headers) (key val : Bytes) : hs.add key val ≠ [] :=
  Assoc.set_ne_nil hs key _

theorem behindChain_info {ms : Chain Url} (hms : Begun ms) (info : Info Url) {s s' : Chain Url}
    (h : BehindChain ms s s') :
    BehindChain ms (infoCallback (some info) s) (infoCallback (some info) s') := by
  obtain ⟨rfl, hs'⟩ | ⟨hs, rfl⟩ | hs := h
  · refine .inr (.inl ⟨by simp [infoCallback], ?_⟩)
    rw [hs']
    cases ms with
    | nil => rfl
    | cons m ms => simp [infoCallback, hms m rfl]
  · obtain ⟨m, parents, rfl⟩ := List.exists_cons_of_ne_nil hs
    refine .inr (.inl ?_)
    simp only [infoCallback, List.cons_append]
    split_ifs <;> simp
  · refine .inr (.inr ?_)
    obtain ⟨last, hlast, hinfo, hhdrs⟩ := hs
    cases s with
    | nil => simp at hlast
    | cons m parents =>
      unfold infoCallback
      dsimp only
      split_ifs with hbegun
      · exact ⟨last, by simpa [List.getLast?_cons_cons] using hlast, hinfo, hhdrs⟩
      · cases parents with
        | nil =>
          obtain rfl : m = last := by simpa using hlast
          simp [Message.begun, hhdrs] at hbegun
        | cons m' parents =>
          exact ⟨last, by simpa [List.getLast?_cons_cons] using hlast, hinfo, hhdrs⟩

theorem behindChain_header {ms : Chain Url} (key val : Bytes) {s s' : Chain Url}
    (h : BehindChain ms s s') :
    BehindChain ms (messageSink.header key val s) (messageSink.header key val s') := by
  obtain ⟨rfl, rfl⟩ | ⟨hs, rfl⟩ | hs := h
  · refine .inr (.inr ?_)
    simp [messageSink, infoCallback, Headless, headers_add_ne_nil]
  · obtain ⟨m, parents, rfl⟩ := List.exists_cons_of_ne_nil hs
    exact .inr (.inl (by simp [messageSink]))
  · refine .inr (.inr ?_)
    obtain ⟨last, hlast, hinfo, hhdrs⟩ := hs
    cases s with
    | nil => simp at hlast
    | cons m parents =>
      simp only [messageSink, reduceCtorEq, if_false]
      cases parents with
      | nil =>
        obtain rfl : m = last := by simpa using hlast
        exact ⟨_, rfl, hinfo, headers_add_ne_nil _ _ _⟩
      | cons m' parents =>
        exact ⟨last, by simpa [List.getLast?_cons_cons] using hlast, hinfo, hhdrs⟩

/-- The block is read in the same way when there are messages already. -/
theorem HeadBlock.read_behind {beyond : Bytes → Bytes} {head : Bytes} {m : Message Url}
    (h : HeadBlock E beyond head m) {ms : Chain Url} (hms : Begun ms) (cleanup : Bool)
    (rest : Bytes) : (headerLoop E.urls messageSink ⟨cleanup, beyond⟩).run (headerParserInit, ms)
      (head ++ rest) = (.done, (headerParserInit, m :: ms), rest) := by
  have hrel := headerLoop_related E.urls messageSink (R := BehindChain ms)
    (fun info {_ _} h => behindChain_info hms info h)
    (fun key val {_ _} h => behindChain_header key val h) ⟨cleanup, beyond⟩ headerParserInit
    (head ++ rest) (.inl ⟨rfl, rfl⟩)
  rw [h.read cleanup rest] at hrel
  generalize (headerLoop E.urls messageSink ⟨cleanup, beyond⟩).run (headerParserInit, ms)
    (head ++ rest) = o at hrel ⊢
  obtain ⟨r, ⟨hp, s⟩, b⟩ := o
  obtain ⟨hr, hhp, hchain, hb⟩ := hrel
  dsimp only at hr hhp hchain hb
  subst hr hb hhp
  obtain ⟨hnil, -⟩ | ⟨-, hs⟩ | ⟨last, hlast, hinfo, -⟩ := hchain
  · cases hnil
  · obtain rfl : s = m :: ms := hs
    rfl
  · obtain rfl : m = last := by simpa using hlast
    have hsome := h.info
    rw [hinfo] at hsome
    cases hsome

/-- A message without type, headers and body. -/
def blankMessage : Message Url := ⟨none, [], []⟩

/-- A blank message is as good as none. -/
def OrBlank (s s' : Chain Url) : Prop := s = s' ∨ s = [] ∧ s' = [blankMessage]

theorem orBlank_info (info : Info Url) {s s' : Chain Url} (h : OrBlank s s') :
    OrBlank (messageSink.info info s) (messageSink.info info s') := by
  obtain rfl | ⟨rfl, rfl⟩ := h
  · exact .inl rfl
  · exact .inl rfl

theorem orBlank_header (key val : Bytes) {s s' : Chain Url} (h : OrBlank s s') :
    OrBlank (messageSink.header key val s) (messageSink.header key val s') := by
  obtain rfl | ⟨rfl, rfl⟩ := h
  · exact .inl rfl
  · exact .inl rfl

/-- The block is read in the same way when there is a blank message to read it into. -/
theorem HeadBlock.read_blank {beyond : Bytes → Bytes} {head : Bytes} {m : Message Url}
    (h : HeadBlock E beyond head m) (cleanup : Bool) (rest : Bytes) :
    (headerLoop E.urls messageSink ⟨cleanup, beyond⟩).run (headerParserInit, [blankMessage])
      (head ++ rest) = (.done, (headerParserInit, [m]), rest) := by
  have hrel := headerLoop_related E.urls messageSink (R := OrBlank)
    (fun info {_ _} h => orBlank_info info h)
    (fun key val {_ _} h => orBlank_header key val h) ⟨cleanup, beyond⟩ headerParserInit
    (head ++ rest) (.inr ⟨rfl, rfl⟩)
  rw [h.read cleanup rest] at hrel
  generalize (headerLoop E.urls messageSink ⟨cleanup, beyond⟩).run
    (headerParserInit, [blankMessage]) (head ++ rest) = o at hrel ⊢
  obtain ⟨r, ⟨hp, s⟩, b⟩ := o
  obtain ⟨hr, hhp, hchain, hb⟩ := hrel
  dsimp only at hr hhp hchain hb
  subst hr hb hhp
  obtain rfl | ⟨hnil, -⟩ := hchain
  · rfl
  · cases hnil

/-- The text of a start line, fields and an empty line. -/
def headText (line : Bytes) (fs : List (Bytes × Bytes)) : Bytes :=
  line ++ crlf ++ (fs.flatMap fieldLine ++ crlf)

/-- Such a text is a block of headers that ends itself. -/
theorem headBlock_fields (beyond : Bytes → Bytes) {line : Bytes} {info : Info Url} (hne : line ≠ [])
    (hspace : ∀ c, line.head? = some c → isSpace c = false) (hline : NoEol line) (hnul : nul ∉ line)
    (hinfo : infoParse E.urls (line ++ crlf) = some info) {fs : List (Bytes × Bytes)}
    (hfs : ∀ f ∈ fs, BlockField E.urls f) :
    HeadBlock E beyond (headText line fs) ⟨some info, headerBlock fs, []⟩ := by
  refine ⟨rfl, fun cleanup rest => ?_⟩
  have htext : headText line fs ++ rest =
      line ++ crlf ++ (fs.flatMap fieldLine ++ (crlf ++ rest)) := by
    simp [headText]
  have hhead : ∀ c, (headText line fs ++ rest).head? = some c → isSpace c = false := by
    intro c hc
    rw [headText, List.append_assoc, List.append_assoc, List.head?_append_of_ne_nil _ hne] at hc
    exact hspace c hc
  have hbegun : messageSink.info info ([] : Chain Url) = [⟨some info, [], []⟩] := rfl
  rw [headerLoop_start (by simp [headText, crlf]) hhead, htext,
    headerLoop_startLine hne hline hnul hinfo, headerLoop_block _ hfs _ (lineEnds_end rest),
    headerLoop_end, hbegun, messageSink_store]
  rfl

/-- Fields that are stored as they stand. -/
theorem headBlock_text (beyond : Bytes → Bytes) {line : Bytes} {info : Info Url} (hne : line ≠ [])
    (hspace : ∀ c, line.head? = some c → isSpace c = false) (hline : NoEol line) (hnul : nul ∉ line)
    (hinfo : infoParse E.urls (line ++ crlf) = some info) {fs : List (Bytes × Bytes)}
    (hfs : ∀ f ∈ fs, PlainField f) : HeadBlock E beyond (headText line fs)
      ⟨some info, fs.foldl (fun hs f => Headers.add hs f.1 f.2) [], []⟩ := by
  rw [← headerBlock_plain hfs]
  exact headBlock_fields beyond hne hspace hline hnul hinfo fun f hf => (hfs f hf).block E.urls

/-! ### The body -/

inductive Payload
  | plain (b : Bytes)
  | chunked (cs : List Chunk)

def Payload.text : Payload → Bytes
  | .plain b => b
  | .chunked cs => chunkedText cs

def Payload.data : Payload → Bytes
  | .plain b => b
  | .chunked cs => chunkedData cs

/-- The payload ends where the parser, in this state behind the headers, takes it to end. -/
inductive Payload.Ends (mp : MessageParser Url) : MessageState → Payload → Prop
  | done : Payload.Ends mp .done (.plain [])
  | bodyDone : Payload.Ends mp .bodyDone (.plain [])
  | length {b : Bytes} : b ≠ [] → b.length = mp.bodyLength → Payload.Ends mp .bodyLength (.plain b)
  | chunked (cs : List Chunk) : mp.dechunk = some (some dechunkInit) →
      Payload.Ends mp .bodyChunked (.chunked cs)

variable {call : MessageCall} {mp : MessageParser Url}

theorem contentEncoding_fresh (hdrs : Headers) (inflate : Option InflateStream) :
    contentEncoding hdrs inflate = ((contentEncoding hdrs none).1,
      if (contentEncoding hdrs none).2.isSome then some (inflateReset inflate) else inflate) := by
  unfold contentEncoding
  split
  · next ce _ =>
    by_cases h : (matchWord ce.toStr (ascii "gzip") || matchWord ce.toStr (ascii "x-gzip") ||
      matchWord ce.toStr (ascii "deflate")) = true
    · simp only [if_pos h]
      rfl
    · simp only [if_neg h]
      rfl
  · rfl

/-- What is decided behind the headers does not depend on the parser. It keeps its inflate stream
when the message is not compressed, and the flags of the stream when it is. -/
theorem messageHeaderDone_fresh (call : MessageCall) (mp : MessageParser Url) (m : Message Url) :
    let o := messageHeaderDone E call mp m
    let o' := messageHeaderDone E call messageParserInit m
    o.2 = o'.2 ∧ (o.2.2 = .bodyLength → o.1.bodyLength = o'.1.bodyLength) ∧
      (o.2.2 = .bodyChunked → o.1.dechunk = some (some dechunkInit)) ∧
      o.1.inflate = (if o'.1.inflate.isSome then some (inflateReset mp.inflate) else mp.inflate) ∧
      o.1.stack = mp.stack ∧ o.1.header = mp.header := by
  have hstate : ∀ n, lengthState n ≠ .bodyChunked := by
    intro n
    unfold lengthState
    split_ifs <;> simp
  unfold messageHeaderDone
  simp only [contentEncoding_fresh _ mp.inflate, contentEncoding_fresh _ messageParserInit.inflate]
  generalize framing E m.hdrs = f
  obtain ⟨hdrs, chunked, contentLength⟩ := f
  dsimp only
  generalize Option.map HeaderValue.join (hdrs.find (ascii "Content-Range")) = range
  generalize (range.elim hdrs fun v =>
    hdrs.update (ascii "Content-Range") (.scalar (.str v))) = hdrs'
  cases call.emptyRedirects && closedRedirect m hdrs' with
  | true => simp [messageParserInit]
  | false =>
    simp only [Bool.false_eq_true, if_false]
    cases call.dumbBodies with
    | true => simp [messageParserInit]
    | false =>
      simp only [Bool.false_eq_true, if_false]
      cases chunked with
      | true => simp [messageParserInit]
      | false =>
        simp only [Bool.false_eq_true, if_false]
        split
        · exact ⟨rfl, fun _ => rfl, fun h => absurd h (hstate _),
            by simp [messageParserInit], rfl, rfl⟩
        · split
          · exact ⟨rfl, fun _ => rfl, fun h => absurd h (hstate _),
              by simp [messageParserInit], rfl, rfl⟩
          · generalize Message.isRequest _ = request
            cases request <;> simp [messageParserInit]

/-- A message as it comes over the wire: the text of its headers, what they are read as, and its
payload. -/
structure MessageText (Url : Type) where
  head : Bytes
  message : Message Url
  payload : Payload

def MessageText.text (t : MessageText Url) : Bytes := t.head ++ t.payload.text

/-- Whether the headers of `t` set up an inflate stream. -/
def MessageText.compressed (t : MessageText Url) (E : Engine Url) (call : MessageCall) : Bool :=
  (messageHeaderDone E call messageParserInit t.message).1.inflate.isSome

/-- The inflate stream behind the headers of `t`, and `inflate` in front of them. -/
def MessageText.stream (t : MessageText Url) (E : Engine Url) (call : MessageCall)
    (inflate : Option InflateStream) : Option InflateStream :=
  if t.compressed E call then some (inflateReset inflate) else inflate

/-- The message with `dec` as its body. -/
def MessageText.parsed (t : MessageText Url) (E : Engine Url) (call : MessageCall) (dec : Bytes) :
    Message Url :=
  { (messageHeaderDone E call messageParserInit t.message).2.1 with body := dec }

/-- The headers and the body end themselves. -/
structure MessageText.Delimited (t : MessageText Url) (E : Engine Url) (call : MessageCall) :
    Prop where
  head : HeadBlock E call.beyond t.head t.message
  payload : t.payload.Ends (messageHeaderDone E call messageParserInit t.message).1
    (messageHeaderDone E call messageParserInit t.message).2.2

/-- A parser between two messages. -/
structure Idle (mp : MessageParser Url) : Prop where
  stack : mp.stack = []
  header : mp.header = headerParserInit
  message : Begun mp.message

theorem dropWhile_isEol_isSpace (b : Bytes) :
    (b.dropWhile isEol).dropWhile isSpace = b.dropWhile isSpace := by
  induction b with
  | nil => rfl
  | cons c b ih =>
    by_cases hc : isEol c = true
    · rw [List.dropWhile_cons_of_pos hc, List.dropWhile_cons_of_pos (isEol_isSpace hc), ih]
    · rw [List.dropWhile_cons_of_neg hc]

theorem MessageText.Delimited.ends {t : MessageText Url} (h : t.Delimited E call)
    (mp : MessageParser Url) :
    t.payload.Ends (messageHeaderDone E call mp t.message).1
      (messageHeaderDone E call mp t.message).2.2 := by
  obtain ⟨hstate, hlength, hchunked, -⟩ := messageHeaderDone_fresh (E := E) call mp t.message
  have hends := h.payload
  rw [← hstate] at hends
  generalize messageHeaderDone E call mp t.message = o at hlength hchunked hends ⊢
  generalize t.payload = p at hends ⊢
  obtain ⟨mp', m', state⟩ := o
  cases hends with
  | done => exact .done
  | bodyDone => exact .bodyDone
  | length hne hb => exact .length hne (hb.trans (hlength rfl).symm)
  | chunked cs _ => exact .chunked cs (hchunked rfl)

/-- What becomes of a message whose data `data` is to be written. -/
structure Consumed (E : Engine Url) (call : MessageCall) (mp : MessageParser Url) (m : Message Url)
    (parents : Chain Url) (data rest : Bytes)
    (o : Option MessageState × MessageConfig Url × Bytes) : Prop where
  failed : decodeBody E mp.inflate data = none → o.1 = some .failure
  done : ∀ dec inflate, decodeBody E mp.inflate data = some (dec, inflate) →
    ∃ mp' : MessageParser Url, mp'.stack = [] ∧ mp'.header = mp.header ∧ mp'.inflate = inflate ∧
      mp'.message = { m with body := m.body ++ dec } :: parents ∧
      o = (messageLoop E call).run mp'.config (rest.dropWhile isSpace)

theorem consumed_bodyDone (hgreedy : call.greedy = true) (mp : MessageParser Url) (m : Message Url)
    (parents : Chain Url) (data : Bytes) {cut : ℕ} {b rest : Bytes}
    (hstack : mp.stack = [.bodyDone])
    (hcut : (b.drop cut).dropWhile isSpace = rest.dropWhile isSpace) :
    Consumed E call mp m parents data rest (goWrite E call mp m parents data cut b) := by
  obtain ⟨stack, bodyLength, header, dechunk, inflate, message⟩ := mp
  obtain rfl : stack = [.bodyDone] := hstack
  constructor
  · intro hdec
    simp [goWrite, hdec]
  · intro dec inflate' hdec
    refine ⟨⟨[], bodyLength, header, dechunk.map fun _ => none, inflate',
      { m with body := m.body ++ dec } :: parents⟩, rfl, rfl, rfl, rfl, ?_⟩
    simp only [goWrite, hdec, MessageParser.written]
    rw [Machine.run_next (bodyDone_turn call ⟨[], bodyLength, header, dechunk, inflate',
        { m with body := m.body ++ dec } :: parents⟩ (b.drop cut)),
      Machine.run_next (done_turn_next ⟨[], bodyLength, header, dechunk.map fun _ => none,
        inflate', { m with body := m.body ++ dec } :: parents⟩ hgreedy (b.drop cut)), hcut]

/-- A payload that is there as a whole is written, and the message is done. -/
theorem Payload.Ends.run {state : MessageState} {p : Payload} (h : p.Ends mp state)
    (hgreedy : call.greedy = true) {m : Message Url} {parents : Chain Url}
    (hm : mp.message = m :: parents) (hstack : mp.stack = []) (rest : Bytes)
    (hlen : (p.text ++ rest).length < 2 ^ 64) :
    Consumed E call mp m parents p.data rest
      ((messageLoop E call).run { mp with stack := [state] }.config (p.text ++ rest)) := by
  obtain ⟨stack, bodyLength, header, dechunk, inflate, message⟩ := mp
  obtain rfl : stack = [] := hstack
  obtain rfl : message = m :: parents := hm
  cases h with
  | done =>
    rw [Machine.run_next (done_turn_next ⟨[], bodyLength, header, dechunk, inflate, m :: parents⟩
      hgreedy _)]
    refine ⟨fun hdec => by simp [Payload.data] at hdec, fun dec inflate' hdec => ?_⟩
    obtain ⟨rfl, rfl⟩ : [] = dec ∧ inflate = inflate' := by simpa [Payload.data] using hdec
    exact ⟨_, rfl, rfl, rfl, by simp, rfl⟩
  | bodyDone =>
    have hwrite : goWrite E call ⟨[.bodyDone], bodyLength, header, dechunk, inflate, m :: parents⟩ m
        parents [] 0 rest = (messageLoop E call).run (MessageParser.config
          ⟨[.bodyDone], bodyLength, header, dechunk, inflate, m :: parents⟩) rest := by
      simp [goWrite, MessageParser.written]
    have hconsumed := consumed_bodyDone (E := E) hgreedy
      ⟨[.bodyDone], bodyLength, header, dechunk, inflate, m :: parents⟩ m parents [] rfl
      (congrArg (List.dropWhile isSpace) (List.drop_zero (l := rest)))
    rw [hwrite] at hconsumed
    exact ⟨hconsumed.failed, hconsumed.done⟩
  | @length b hne hb =>
    have hb' : b.length = bodyLength := hb
    have hrun := run_bodyLength (E := E) call
      ⟨[], bodyLength, header, dechunk, inflate, m :: parents⟩ rfl (b := b ++ rest)
      (by simp [hne])
    have hle : bodyLength ≤ (b ++ rest).length := by
      rw [List.length_append]
      omega
    simp only [if_pos hle, min_eq_left hle, List.take_left' hb'] at hrun
    rw [show Payload.text (.plain b) = b from rfl, hrun]
    have hconsumed := consumed_bodyDone (E := E) hgreedy ⟨[.bodyDone],
      bodyLength - (b ++ rest).length, header, dechunk, inflate, m :: parents⟩ m parents b rfl
      (congrArg (List.dropWhile isSpace) (List.drop_left' hb' : (b ++ rest).drop bodyLength = rest))
    exact ⟨hconsumed.failed, hconsumed.done⟩
  | chunked cs hdechunk =>
    have hrun := run_bodyChunked (E := E) call
      ⟨[], bodyLength, header, dechunk, inflate, m :: parents⟩ rfl hdechunk cs rest hlen
    rw [show Payload.text (.chunked cs) = chunkedText cs from rfl, hrun]
    have hdrop : (chunkedText cs ++ rest).drop
        ((chunkedText cs ++ rest).length - (rest.dropWhile isEol).length) =
          rest.dropWhile isEol := by
      have hsuffix : rest.dropWhile isEol <:+ chunkedText cs ++ rest :=
        (List.dropWhile_suffix isEol).trans (List.suffix_append _ _)
      exact (List.suffix_iff_eq_drop.mp hsuffix).symm
    have hconsumed := consumed_bodyDone (E := E) hgreedy ⟨[.bodyDone], bodyLength, header,
      some (some ⟨rest.dropWhile isEol, 0, true⟩), inflate,
      m :: parents⟩ m parents (chunkedData cs) rfl
      ((congrArg (List.dropWhile isSpace) hdrop).trans (dropWhile_isEol_isSpace rest))
    exact ⟨hconsumed.failed, hconsumed.done⟩

/-! ### From one message to the next -/

/-- The header parser drops leading blanks. -/
theorem headerLoop_dropWhile (P : UrlParsers Url) (call : HeaderCall) (ms : Chain Url) {b : Bytes}
    (hb : b.dropWhile isSpace ≠ []) :
    (headerLoop P messageSink call).run (headerParserInit, ms) (b.dropWhile isSpace) =
      (headerLoop P messageSink call).run (headerParserInit, ms) b := by
  have hne : b ≠ [] := fun h => hb (by rw [h, List.dropWhile_nil])
  have hturn : (headerLoop P messageSink call).turn (headerParserInit, ms) (b.dropWhile isSpace) =
      .next (headerParserKey, ms) ((b.dropWhile isSpace).dropWhile isSpace) := if_neg hb
  have hturn' : (headerLoop P messageSink call).turn (headerParserInit, ms) b =
      .next (headerParserKey, ms) (b.dropWhile isSpace) := if_neg hne
  rw [Machine.run_next hturn, Machine.run_next hturn', List.dropWhile_idempotent]

theorem HeadBlock.not_blank {beyond : Bytes → Bytes} {head : Bytes} {m : Message Url}
    (h : HeadBlock E beyond head m) (b : Bytes) : (head ++ b).dropWhile isSpace ≠ [] := by
  intro hblank
  have hread := h.read true b
  by_cases hne : head ++ b = []
  · have hturn : (headerLoop E.urls messageSink ⟨true, beyond⟩).turn (headerParserInit, [])
        (head ++ b) = .ret .start (headerParserInit, []) (head ++ b) := if_pos hne
    rw [Machine.run_ret hturn] at hread
    cases hread
  · have hturn : (headerLoop E.urls messageSink ⟨true, beyond⟩).turn (headerParserInit, [])
        (head ++ b) = .next (headerParserKey, []) ((head ++ b).dropWhile isSpace) := if_neg hne
    have hwait : (headerLoop E.urls messageSink ⟨true, beyond⟩).turn (headerParserKey, []) [] =
        .ret .key (headerParserKey, []) [] := rfl
    rw [Machine.run_next hturn, hblank, Machine.run_ret hwait] at hread
    cases hread

theorem HeadBlock.body {beyond : Bytes → Bytes} {head : Bytes} {m : Message Url}
    (h : HeadBlock E beyond head m) : m.body = [] := by
  have hbody := messageSink_body E.urls ⟨true, beyond⟩ headerParserInit [] (by simp)
    (head ++ [])
  rw [h.read true []] at hbody
  exact hbody m (by simp)

theorem messageHeaderDone_message (call : MessageCall) (mp : MessageParser Url) (m : Message Url) :
    (messageHeaderDone E call mp m).2.1.body = m.body ∧
      (messageHeaderDone E call mp m).2.1.info = m.info := by
  unfold messageHeaderDone
  dsimp only
  split
  · exact ⟨rfl, rfl⟩
  · split
    · exact ⟨rfl, rfl⟩
    · split
      · exact ⟨rfl, rfl⟩
      · split
        · exact ⟨rfl, rfl⟩
        · split <;> exact ⟨rfl, rfl⟩

/-- Where a block of headers is read as those of a message in front of `ms`, the loop goes on with
what is behind it. -/
theorem HeadBlock.run_of_read {head : Bytes} {m : Message Url} (h : HeadBlock E call.beyond head m)
    {ms : Chain Url} (hstack : mp.stack = []) (hheader : mp.header = headerParserInit)
    (hread : ∀ rest, (headerLoop E.urls messageSink ⟨call.cleanup, call.beyond⟩).run
      (headerParserInit, mp.message) (head ++ rest) = (.done, (headerParserInit, m :: ms), rest))
      (b : Bytes) :
    (messageLoop E call).run mp.config (head ++ b) = (messageLoop E call).run (MessageParser.config
      { (messageHeaderDone E call { mp with message := m :: ms } m).1 with
        stack := [(messageHeaderDone E call { mp with message := m :: ms } m).2.2]
        message := (messageHeaderDone E call { mp with message := m :: ms } m).2.1 :: ms }) b := by
  obtain ⟨stack, bodyLength, header, dechunk, inflate, old⟩ := mp
  obtain rfl : stack = [] := hstack
  obtain rfl : header = headerParserInit := hheader
  dsimp only at hread
  have hblank : (head ++ b).dropWhile isSpace ≠ [] := h.not_blank b
  have hne : head ++ b ≠ [] := fun hnil => hblank (by rw [hnil, List.dropWhile_nil])
  have hstart := idle_turn (E := E) call
    (show MessageParser.stack ⟨[], bodyLength, headerParserInit, dechunk, inflate, old⟩ =
      [] from rfl) hne
  rw [startTurn, if_neg hblank] at hstart
  have hheader : (messageLoop E call).turn (MessageParser.config
      ⟨[.header], bodyLength, headerParserInit, dechunk, inflate, old⟩)
      ((head ++ b).dropWhile isSpace) = .next (MessageParser.config
        ⟨[.headerDone], bodyLength, headerParserInit, dechunk, inflate, m :: ms⟩) b := by
    have hhead : (headerLoop E.urls messageSink ⟨call.cleanup, call.beyond⟩).run
        (headerParserInit, old) ((head ++ b).dropWhile isSpace) =
          (.done, (headerParserInit, m :: ms), b) := by
      rw [headerLoop_dropWhile _ _ _ hblank, hread]
    refine (if_neg fun hdata => hblank hdata.1).trans ?_
    change messageHeaderTurn E call ⟨[], bodyLength, headerParserInit, dechunk, inflate, old⟩ _ = _
    unfold messageHeaderTurn
    simp only [hhead]
    rfl
  have hdone := headerDone_turn (E := E) call
    ⟨[], bodyLength, headerParserInit, dechunk, inflate, m :: ms⟩ rfl [] 0 b
  exact (Machine.run_next hstart).trans ((Machine.run_next hheader).trans (Machine.run_next hdone))

/-- One message text: where its headers are read as those of a message in front of `ms`, a greedy
parser goes on behind it between two messages. -/
theorem MessageText.Delimited.run_of_read {t : MessageText Url} (h : t.Delimited E call)
    {ms : Chain Url} (hstack : mp.stack = []) (hheader : mp.header = headerParserInit)
    (hread : ∀ rest, (headerLoop E.urls messageSink ⟨call.cleanup, call.beyond⟩).run
      (headerParserInit, mp.message)
      (t.head ++ rest) = (.done, (headerParserInit, t.message :: ms), rest))
    (hgreedy : call.greedy = true) (rest : Bytes) (hlen : (t.text ++ rest).length < 2 ^ 64) :
    let o := (messageLoop E call).run mp.config (t.text ++ rest)
    let inflate := t.stream E call mp.inflate
    (decodeBody E inflate t.payload.data = none → o.1 = some .failure) ∧
      ∀ dec inflate', decodeBody E inflate t.payload.data = some (dec, inflate') →
        ∃ mp' : MessageParser Url, Idle mp' ∧ mp'.inflate = inflate' ∧
          mp'.message = t.parsed E call dec :: ms ∧
          o = (messageLoop E call).run mp'.config rest := by
  have hrun := h.head.run_of_read hstack hheader hread (t.payload.text ++ rest)
  rw [← List.append_assoc] at hrun
  have hmp : { mp with message := t.message :: ms }.header = headerParserInit := hheader
  have hinit : { mp with message := t.message :: ms }.inflate = mp.inflate := rfl
  rw [← hinit]
  generalize ({ mp with message := t.message :: ms } : MessageParser Url) = mp₁ at hrun hmp ⊢
  have hends := h.ends mp₁
  obtain ⟨hstate, -, -, hinflate, -, hkept⟩ := messageHeaderDone_fresh (E := E) call mp₁ t.message
  obtain ⟨hbody, hinfo⟩ := messageHeaderDone_message (E := E) call mp₁ t.message
  generalize messageHeaderDone E call mp₁ t.message = o
    at hrun hends hstate hinflate hkept hbody hinfo
  obtain ⟨mp₂, m, state⟩ := o
  have hlen' : (t.payload.text ++ rest).length < 2 ^ 64 := by
    rw [MessageText.text, List.append_assoc, List.length_append] at hlen
    omega
  have hends' : t.payload.Ends { mp₂ with stack := [], message := m :: ms } state := by
    generalize t.payload = p at hends ⊢
    cases hends with
    | done => exact .done
    | bodyDone => exact .bodyDone
    | length hne hb => exact .length hne hb
    | chunked cs hd => exact .chunked cs hd
  have hconsumed := hends'.run (E := E) hgreedy rfl rfl rest hlen'
  have hparsed : (messageHeaderDone E call messageParserInit t.message).2.1 = m := by
    rw [← hstate]
  change (messageLoop E call).run mp.config (t.text ++ rest) = _ at hrun
  dsimp only at hrun hinflate hbody hinfo hkept hconsumed ⊢
  rw [hrun]
  refine ⟨fun hdec => hconsumed.failed ?_, fun dec inflate' hdec => ?_⟩
  · rw [hinflate]
    exact hdec
  · obtain ⟨mp', hs, hh, hi, hm, ho⟩ := hconsumed.done dec inflate' (by rw [hinflate]; exact hdec)
    have hbegun : Begun mp'.message := by
      rw [hm]
      rintro _ ⟨⟩
      simp [Message.begun, hinfo, h.head.info]
    refine ⟨mp', ⟨hs, hh.trans (hkept.trans hmp), hbegun⟩, hi, ?_, ?_⟩
    · rw [hm, MessageText.parsed, hparsed, hbody, h.head.body, List.nil_append]
    · rw [← idle_run_dropWhile hs rest]
      exact ho

/-- A parser between two messages reads the text and is there again, with the message in front of
the chain. -/
theorem MessageText.Delimited.run {t : MessageText Url} (h : t.Delimited E call) (hmp : Idle mp)
    (hgreedy : call.greedy = true) (rest : Bytes) (hlen : (t.text ++ rest).length < 2 ^ 64) :
    let o := (messageLoop E call).run mp.config (t.text ++ rest)
    let inflate := t.stream E call mp.inflate
    (decodeBody E inflate t.payload.data = none → o.1 = some .failure) ∧
      ∀ dec inflate', decodeBody E inflate t.payload.data = some (dec, inflate') →
        ∃ mp' : MessageParser Url, Idle mp' ∧ mp'.inflate = inflate' ∧
          mp'.message = t.parsed E call dec :: mp.message ∧
          o = (messageLoop E call).run mp'.config rest :=
  h.run_of_read hmp.stack hmp.header (fun rest => h.head.read_behind hmp.message call.cleanup rest)
    hgreedy rest hlen

end ExtHttp
