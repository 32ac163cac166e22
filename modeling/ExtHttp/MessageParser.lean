import ExtHttp.Dechunk
import ExtHttp.Message

/-!
# The message parser

One turn of the loop of `php_http_message_parser_parse` and the loop. The result of a call is the
state it returns, or nothing where the source follows a NULL pointer.
-/
namespace ExtHttp
open BufferLoop

inductive MessageState
  | failure
  | start
  | header
  | headerDone
  | body
  | bodyDumb
  | bodyLength
  | bodyChunked
  | bodyDone
  | updateCl
  | done
  deriving DecidableEq, Repr

/-- What `php_http_inflate_rounds` comes to: the data and how many bytes of the input are left, or
for a data error how much has come out of the stream in all. -/
inductive InflateRounds
  | ok (dec : Bytes) (left : ℕ)
  | dataError (totalOut : ℕ)
  | error

/-- What the parser takes from elsewhere: the URL parsers, PHP's conversion of a string to a long,
and zlib, which inflates raw data or data with a header; the inputs it has seen so far come before
the new one. -/
structure Engine (Url : Type) where
  urls : UrlParsers Url
  strToLong : Bytes → ℤ
  inflateRounds : Bool → List Bytes → Bytes → InflateRounds

/-! ### The inflate stream -/

/-- The stream with the inflate operations: whether `PHP_HTTP_INFLATE_TYPE_RAW` is set, what zlib
has been given since it was initialised, and the buffer with what zlib has left of it. -/
structure InflateStream where
  raw : Bool
  inputs : List Bytes
  buffer : Bytes
  deriving DecidableEq, Repr

/-- `inflate_init` -/
def inflateInit (raw : Bool) : InflateStream := ⟨raw, [], []⟩

/-- `php_http_encoding_stream_init`, or `php_http_encoding_stream_reset` where there is a stream:
that keeps its flags. -/
def inflateReset (inflate : Option InflateStream) : InflateStream :=
  inflateInit (inflate.elim false InflateStream.raw)

/-- `inflate_update`. The parser takes no notice of a stream that has failed. -/
def inflateUpdate {Url : Type} (E : Engine Url) (s : InflateStream) (data : Bytes) :
    Option (Bytes × InflateStream) :=
  let buffer := s.buffer ++ data
  match E.inflateRounds s.raw s.inputs buffer with
  | .ok dec left => some (dec, ⟨s.raw, s.inputs ++ [buffer], buffer.drop (buffer.length - left)⟩)
  | .dataError totalOut =>
      -- raw deflated data?
      if s.raw = false ∧ totalOut = 0 then
        match E.inflateRounds true [] buffer with
        | .ok dec left => some (dec, ⟨true, [buffer], buffer.drop (buffer.length - left)⟩)
        | _ => none
      else none
  | .error => none

/-- The flags of a call, and the memory behind the NUL of a string. -/
structure MessageCall where
  cleanup : Bool
  dumbBodies : Bool
  emptyRedirects : Bool
  greedy : Bool
  beyond : Bytes → Bytes

def zendLongMax : ℤ := 2 ^ 63 - 1

/-- URLs as they stand, numerals without a sign, and no compression. -/
def plainEngine : Engine Bytes :=
  ⟨rawUrls, fun v => min (strtoul 10 v).1 zendLongMax, fun _ _ _ => .error⟩

/-- No flags, and nothing but zeros behind the strings. -/
def plainCall : MessageCall := ⟨false, false, false, false, fun _ => []⟩

/-- `php_http_message_parser_t` and the chain it parses into. The top of the stack of states comes
first. A dechunk stream can be there without a context. -/
structure MessageParser (Url : Type) where
  stack : List MessageState
  bodyLength : ℕ
  header : HeaderParser
  dechunk : Option (Option DechunkCtx)
  inflate : Option InflateStream
  message : Chain Url
  deriving DecidableEq, Repr

def messageParserInit {Url : Type} : MessageParser Url := ⟨[], 0, headerParserInit, none, none, []⟩

/-- The parser with the locals `str` (of length `len`) and `cut` of a call. -/
structure MessageConfig (Url : Type) where
  parser : MessageParser Url
  str : Bytes
  cut : ℕ
  deriving DecidableEq, Repr

/-- Outside the calls the locals are empty. -/
def MessageParser.config {Url : Type} (mp : MessageParser Url) : MessageConfig Url := ⟨mp, [], 0⟩

/-- `php_http_message_parser_state_is` -/
def MessageParser.state {Url : Type} (mp : MessageParser Url) : MessageState :=
  mp.stack.headD .start

abbrev MessageTurn (Url : Type) := Turn (MessageConfig Url) Byte (Option MessageState)

section Turn
variable {Url : Type} (E : Engine Url) (call : MessageCall)

/-! ### `PHP_HTTP_MESSAGE_PARSER_STATE_HEADER_DONE` -/

/-- `zval_get_long`, of an array whether it has elements. -/
def headerToLong : HeaderValue → ℤ
  | .scalar (.str v) => E.strToLong v
  | .scalar (.long n) => n
  | .scalar (.bool b) => if b then 1 else 0
  | .array vs => if vs = [] then 0 else 1

/-- Transfer-Encoding and Content-Length: the headers, `chunked` and `content_length`. -/
def framing (hdrs : Headers) : Headers × Bool × ℤ :=
  match hdrs.find (ascii "Transfer-Encoding") with
  | some h =>
      (((hdrs.update (ascii "X-Original-Transfer-Encoding") h).delete
        (ascii "Transfer-Encoding")).update (ascii "Content-Length") (.scalar (.long 0)),
        h.toStr = ascii "chunked", -1)
  | none => match hdrs.find (ascii "Content-Length") with
    | some h => (hdrs.update (ascii "X-Original-Content-Length") h, false, headerToLong E h)
    | none => (hdrs, false, -1)

/-- The length of a body with Content-Range `v`, if `v` is in order. -/
def contentRangeLength (v : Bytes) : Option ℕ :=
  let mem := v ++ nul :: call.beyond v
  if (v.take 5).map toLower = ascii "bytes" ∧ byteAt mem 5 ∈ ascii ": =" then
    let start := strtoul 10 (mem.drop 6)
    let endAt := 6 + start.2
    let stop := strtoul 10 (mem.drop (endAt + 1))
    let totalAt := endAt + 1 + stop.2
    let total := if byteAt mem (totalAt + 1) = 42 then 0
      else (strtoul 10 (mem.drop (totalAt + 1))).1
    if start.1 ≤ stop.1 ∧ (total = 0 ∨ stop.1 ≤ total) then
      some ((stop.1 + 1 - start.1) % 2 ^ 64)
    else none
  else none

/-- Whether a redirect has a Location and closes the connection. -/
def closedRedirect (m : Message Url) (hdrs : Headers) : Bool :=
  m.isRedirect && (hdrs.find (ascii "Location")).isSome &&
    match hdrs.find (ascii "Connection") with
    | some con => matchWord con.toStr (ascii "close")
    | none => false

/-- Content-Encoding: the headers and the inflate stream, which is there from the first compressed
message on. -/
def contentEncoding (hdrs : Headers) (inflate : Option InflateStream) :
    Headers × Option InflateStream :=
  match hdrs.find (ascii "Content-Encoding") with
  | some ce =>
      if matchWord ce.toStr (ascii "gzip") || matchWord ce.toStr (ascii "x-gzip") ||
          matchWord ce.toStr (ascii "deflate") then
        ((hdrs.update (ascii "X-Original-Content-Encoding") ce).delete (ascii "Content-Encoding"),
          some (inflateReset inflate))
      else (hdrs, inflate)
  | none => (hdrs, inflate)

/-- The state for a body of `n` bytes. -/
def lengthState (n : ℕ) : MessageState := if n ≠ 0 then .bodyLength else .bodyDone

/-- What is behind the headers of `m`: the parser without its new state, `m` and that state. -/
def messageHeaderDone (mp : MessageParser Url) (m : Message Url) :
    MessageParser Url × Message Url × MessageState :=
  let (hdrs, chunked, contentLength) := framing E m.hdrs
  let contentRange := (hdrs.find (ascii "Content-Range")).map HeaderValue.join
  let hdrs := contentRange.elim hdrs fun v =>
    hdrs.update (ascii "Content-Range") (.scalar (.str v))
  if call.emptyRedirects && closedRedirect m hdrs then (mp, { m with hdrs := hdrs }, .done)
  else
    let (hdrs, inflate) := contentEncoding hdrs mp.inflate
    let mp := { mp with inflate := inflate }
    let m := { m with hdrs := hdrs }
    if call.dumbBodies then (mp, m, .bodyDumb)
    else if chunked then ({ mp with dechunk := some (some dechunkInit) }, m, .bodyChunked)
    else match contentRange.bind (contentRangeLength call) with
      | some n => ({ mp with bodyLength := n }, m, lengthState n)
      | none =>
          if 0 ≤ contentLength then
            ({ mp with bodyLength := contentLength.toNat }, m, lengthState contentLength.toNat)
          else (mp, m, if m.isRequest then .done else .bodyDumb)

/-! ### The turns -/

/-- Leave the loop; the locals are gone. -/
def leave (r : Option MessageState) (mp : MessageParser Url) (b : Bytes) : MessageTurn Url :=
  .ret r mp.config b

/-- `return php_http_message_parser_state_push(parser, state)` -/
def leaveIn (state : MessageState) (mp : MessageParser Url) (b : Bytes) : MessageTurn Url :=
  leave (some state) { mp with stack := state :: mp.stack } b

/-- Push a state and go round again. -/
def goIn (state : MessageState) (mp : MessageParser Url) (b : Bytes) : MessageTurn Url :=
  .next { mp with stack := state :: mp.stack }.config b

/-- Push a state and `BODY` on top of it, which has `str` to write and `cut` bytes to remove. -/
def goBody (state : MessageState) (mp : MessageParser Url) (str : Bytes) (cut : ℕ) (b : Bytes) :
    MessageTurn Url :=
  .next ⟨{ mp with stack := .body :: state :: mp.stack }, str, cut⟩ b

def startTurn (mp : MessageParser Url) (b : Bytes) : MessageTurn Url :=
  if b.dropWhile isSpace = [] then .next mp.config []
  else goIn .header mp (b.dropWhile isSpace)

def messageHeaderTurn (mp : MessageParser Url) (b : Bytes) : MessageTurn Url :=
  let o := (headerLoop E.urls messageSink ⟨call.cleanup, call.beyond⟩).run (mp.header, mp.message) b
  let mp := { mp with header := o.2.1.1, message := o.2.1.2 }
  match o.1 with
  -- the state has been popped and is not pushed
  | .failure => leave (some .failure) mp o.2.2
  | .done => goIn .headerDone mp o.2.2
  | _ =>
      if o.2.2 ≠ [] ∨ call.cleanup = false then leaveIn .header mp o.2.2
      else goIn .headerDone mp o.2.2

def messageHeaderDoneTurn (mp : MessageParser Url) (b : Bytes) : MessageTurn Url :=
  match mp.message with
  | [] => leave none mp b
  | m :: parents =>
      let (mp, m, state) := messageHeaderDone E call mp m
      goIn state { mp with message := m :: parents } b

/-- Write the body data `str`, decoded. -/
def bodyTurn (mp : MessageParser Url) (str : Bytes) (cut : ℕ) (b : Bytes) : MessageTurn Url :=
  if str = [] then .next mp.config (b.drop cut)
  else
    let written := match mp.inflate with
      | none => some (str, none)
      | some stream => (inflateUpdate E stream str).map fun o => (o.1, some o.2)
    match written, mp.message with
    | none, _ => leaveIn .failure mp b
    | some _, [] => leave none mp b
    | some (dec, inflate), m :: parents =>
        let ms := { m with body := m.body ++ dec } :: parents
        .next { mp with inflate := inflate, message := ms }.config (b.drop cut)

def bodyLengthTurn (mp : MessageParser Url) (b : Bytes) : MessageTurn Url :=
  let len := min mp.bodyLength b.length
  goBody (if mp.bodyLength - len ≠ 0 then .bodyLength else .bodyDone)
    { mp with bodyLength := mp.bodyLength - len } (b.take len) len b

def bodyChunkedTurn (mp : MessageParser Url) (b : Bytes) : MessageTurn Url :=
  match mp.dechunk with
  | some (some ctx) =>
      match dechunkUpdate false ctx b with
      -- the state has been popped and is not pushed
      | (none, ctx) => leave (some .failure) { mp with dechunk := some (some ctx) } b
      | (some dec, ctx) =>
          let mp := { mp with dechunk := some (some ctx) }
          if dechunkDone ctx then goBody .bodyDone mp dec (sizeSub b.length ctx.buffer.length) b
          else goBody .bodyChunked mp dec b.length b
  | _ => leave none mp b

/-- The dechunk stream has no `finish` operation, so there is never more data to write here. -/
def bodyDoneTurn (mp : MessageParser Url) (b : Bytes) : MessageTurn Url :=
  goIn .done { mp with dechunk := mp.dechunk.map fun _ => none } b

def updateClTurn (mp : MessageParser Url) (b : Bytes) : MessageTurn Url :=
  match mp.message with
  | [] => leave none mp b
  | m :: parents =>
      let hdrs := m.hdrs.update (ascii "Content-Length") (.scalar (.long m.body.length))
      .next { mp with message := { m with hdrs := hdrs } :: parents }.config b

def doneTurn (mp : MessageParser Url) (b : Bytes) : MessageTurn Url :=
  if call.greedy then .next mp.config (b.dropWhile isSpace)
  else leave (some .done) mp (b.dropWhile isSpace)

/-- The states whose `need_data` is set leave the loop when the buffer is empty. -/
def MessageState.needData : MessageState → Bool
  | .start | .bodyDumb | .bodyLength | .bodyChunked => true
  | _ => false

/-- The `switch` on the state that has been popped off `mp`. -/
def stateTurn (state : MessageState) (mp : MessageParser Url) (str : Bytes) (cut : ℕ) (b : Bytes) :
    MessageTurn Url :=
  match state with
  | .failure => leaveIn .failure mp b
  | .start => startTurn mp b
  | .header => messageHeaderTurn E call mp b
  | .headerDone => messageHeaderDoneTurn E call mp b
  | .body => bodyTurn E mp str cut b
  | .bodyDumb => goBody .bodyDone mp b b.length b
  | .bodyLength => bodyLengthTurn mp b
  | .bodyChunked => bodyChunkedTurn mp b
  | .bodyDone => bodyDoneTurn mp b
  | .updateCl => updateClTurn mp b
  | .done => doneTurn call mp b

def MessageParser.pop (mp : MessageParser Url) : MessageParser Url :=
  { mp with stack := mp.stack.tail }

def messageTurn (c : MessageConfig Url) (b : Bytes) : MessageTurn Url :=
  if b = [] ∧ c.parser.state.needData = true then leave (some c.parser.state) c.parser b
  else stateTurn E call c.parser.state c.parser.pop c.str c.cut b

variable {E} in
theorem messageTurn_wait {c : MessageConfig Url} (h : c.parser.state.needData = true) :
    messageTurn E call c [] = leave (some c.parser.state) c.parser [] := if_pos ⟨rfl, h⟩

variable {E call} in
theorem messageTurn_pop {c : MessageConfig Url} {b : Bytes}
    (h : c.parser.state.needData = true → b ≠ []) :
    messageTurn E call c b = stateTurn E call c.parser.state c.parser.pop c.str c.cut b :=
  if_neg fun hdata => h hdata.2 hdata.1

/-! ### The loop ends -/

def MessageState.rank : MessageState → ℕ
  | .failure | .start => 0
  | .header => 8
  | .headerDone => 7
  | .bodyDumb | .bodyLength | .bodyChunked => 6
  | .bodyDone => 4
  | .body | .updateCl | .done => 1

/-- The bytes in the buffer that are not about to be cut. -/
def MessageConfig.uncut {Url : Type} (c : MessageConfig Url) (b : Bytes) : ℕ :=
  if c.parser.state = .body then b.length - c.cut else b.length

def MessageParser.stackWeight (mp : MessageParser Url) : ℕ := (mp.stack.map MessageState.rank).sum

def MessageParser.headerWeight (mp : MessageParser Url) : ℕ :=
  if mp.header.state = .done then 17 else 0

/-- The states push smaller ones, but `START` pushes `HEADER` if there is data and `HEADER` pushes
`HEADER_DONE`. The second takes data or had none, or the header parser was at its end before. -/
def messageWeight (c : MessageConfig Url) (b : Bytes) : ℕ :=
  32 * c.uncut b + c.parser.stackWeight + c.parser.headerWeight +
    if c.parser.state = .header ∧ 0 < b.length then 0 else 9

section Weight
variable {E call} {mp : MessageParser Url} {d : MessageConfig Url} {b b' : Bytes}

theorem messageWeight_le (c : MessageConfig Url) (b : Bytes) :
    messageWeight c b ≤ 32 * b.length + c.parser.stackWeight + c.parser.headerWeight + 9 := by
  have huncut : c.uncut b ≤ b.length := by
    unfold MessageConfig.uncut
    split_ifs <;> omega
  unfold messageWeight
  split_ifs <;> omega

theorem stackWeight_push (mp : MessageParser Url) (state : MessageState) :
    { mp with stack := state :: mp.stack }.stackWeight = state.rank + mp.stackWeight := by
  simp [MessageParser.stackWeight]

theorem stackWeight_pop (mp : MessageParser Url) :
    mp.stackWeight = mp.state.rank + mp.pop.stackWeight := by
  cases h : mp.stack <;>
    simp [MessageParser.stackWeight, MessageParser.state, MessageParser.pop, h, MessageState.rank]

theorem goIn_weight {state : MessageState} (h : goIn state mp b = .next d b') :
    messageWeight d b' ≤ 32 * b.length + (state.rank + mp.stackWeight) + mp.headerWeight + 9 := by
  cases h
  rw [← stackWeight_push]
  exact messageWeight_le _ _

theorem goIn_header_weight (hb : b ≠ []) (h : goIn .header mp b = .next d b') :
    messageWeight d b' ≤ 32 * b.length + (8 + mp.stackWeight) + mp.headerWeight := by
  cases h
  have hpush := stackWeight_push mp .header
  have hpos := List.length_pos_of_ne_nil hb
  rw [messageWeight, MessageConfig.uncut,
    if_neg (by simp [MessageParser.config, MessageParser.state]), if_pos ⟨rfl, hpos⟩]
  change 32 * b.length + { mp with stack := .header :: mp.stack }.stackWeight +
    mp.headerWeight + 0 ≤ _
  rw [hpush]
  exact le_rfl

theorem goBody_weight {state : MessageState} {str : Bytes} {cut : ℕ}
    (h : goBody state mp str cut b = .next d b') :
    messageWeight d b' =
      32 * (b.length - cut) + (1 + (state.rank + mp.stackWeight)) + mp.headerWeight + 9 := by
  cases h
  have hstate : ({ mp with stack := .body :: state :: mp.stack } : MessageParser Url).state =
      .body :=
    rfl
  have hstack : ({ mp with stack := .body :: state :: mp.stack } : MessageParser Url).stackWeight =
      1 + (state.rank + mp.stackWeight) := by
    simp [MessageParser.stackWeight, MessageState.rank]
  simp only [messageWeight, MessageConfig.uncut, hstate, hstack, if_true, reduceCtorEq, false_and,
    if_false]
  rfl

theorem startTurn_weight (hb : b ≠ []) (h : startTurn mp b = .next d b') :
    messageWeight d b' < 32 * b.length + mp.stackWeight + mp.headerWeight + 9 := by
  have hlen : (b.dropWhile isSpace).length ≤ b.length := (List.dropWhile_sublist isSpace).length_le
  have hpos := List.length_pos_of_ne_nil hb
  unfold startTurn at h
  split_ifs at h with hspace
  · cases h
    have hle : messageWeight mp.config [] ≤ 0 + mp.stackWeight + mp.headerWeight + 9 :=
      messageWeight_le mp.config []
    omega
  · have := goIn_header_weight hspace h
    omega

theorem messageHeaderTurn_weight (h : messageHeaderTurn E call mp b = .next d b') :
    messageWeight d b' < 32 * b.length + (8 + mp.stackWeight) + mp.headerWeight +
      if 0 < b.length then 0 else 9 := by
  obtain ⟨hlen, hstate, hdone⟩ := headerLoop_length E.urls messageSink
    ⟨call.cleanup, call.beyond⟩ (mp.header, mp.message) b
  unfold messageHeaderTurn at h
  dsimp only at h hlen hstate hdone
  generalize (headerLoop E.urls messageSink ⟨call.cleanup, call.beyond⟩).run
    (mp.header, mp.message) b = o at h hlen hstate hdone
  set mp' : MessageParser Url := { mp with header := o.2.1.1, message := o.2.1.2 }
  have hstack : mp'.stackWeight = mp.stackWeight := rfl
  have hheader : mp'.headerWeight = 0 := if_neg hstate
  split at h
  · cases h
  · next hr =>
    have hle := goIn_weight h
    rw [hstack, hheader] at hle
    simp only [MessageState.rank] at hle
    unfold MessageParser.headerWeight
    by_cases hs : mp.header.state = .done
    · rw [if_pos hs]
      split_ifs <;> omega
    · have hlt := hdone hr hs
      rw [if_neg hs, if_pos (by omega)]
      omega
  · split_ifs at h with hmore
    · cases h
    · push Not at hmore
      have := goIn_weight h
      rw [hstack, hheader, hmore.1, List.length_nil] at this
      simp only [MessageState.rank] at this
      split_ifs <;> omega

theorem messageHeaderDone_keeps (m : Message Url) :
    (messageHeaderDone E call mp m).1.stack = mp.stack ∧
      (messageHeaderDone E call mp m).1.header = mp.header ∧
      (messageHeaderDone E call mp m).2.2 ∈
        [MessageState.bodyDumb, .bodyLength, .bodyChunked, .bodyDone, .done] := by
  have hlength : ∀ n, lengthState n ∈
      [MessageState.bodyDumb, .bodyLength, .bodyChunked, .bodyDone, .done] := by
    intro n
    unfold lengthState
    split_ifs <;> decide
  unfold messageHeaderDone
  dsimp only
  split
  · exact ⟨rfl, rfl, by simp⟩
  · split
    · exact ⟨rfl, rfl, by simp⟩
    · split
      · exact ⟨rfl, rfl, by simp⟩
      · split
        · exact ⟨rfl, rfl, hlength _⟩
        · split
          · exact ⟨rfl, rfl, hlength _⟩
          · exact ⟨rfl, rfl, by dsimp only; split <;> simp⟩

theorem messageHeaderDoneTurn_weight (h : messageHeaderDoneTurn E call mp b = .next d b') :
    messageWeight d b' < 32 * b.length + (7 + mp.stackWeight) + mp.headerWeight + 9 := by
  unfold messageHeaderDoneTurn at h
  split at h
  · cases h
  · next m parents _ =>
    obtain ⟨hstack, hheader, hstate⟩ := @messageHeaderDone_keeps _ E call mp m
    generalize messageHeaderDone E call mp m = o at h hstack hheader hstate
    obtain ⟨mp', m', state⟩ := o
    have hle := goIn_weight h
    change _ ≤ 32 * b.length + (state.rank + mp'.stackWeight) + mp'.headerWeight + 9 at hle
    have hrank : ∀ s ∈ [MessageState.bodyDumb, .bodyLength, .bodyChunked, .bodyDone, .done],
        s.rank ≤ 6 := by decide
    have hstackWeight : mp'.stackWeight = mp.stackWeight := by
      unfold MessageParser.stackWeight
      exact congrArg _ (congrArg _ hstack)
    have hheaderWeight : mp'.headerWeight = mp.headerWeight := by
      unfold MessageParser.headerWeight
      rw [show mp'.header = mp.header from hheader]
    have hsix : state.rank ≤ 6 := hrank state hstate
    omega

theorem next_config_weight {n : ℕ}
    (h : (.next mp.config (b.drop n) : MessageTurn Url) = .next d b') :
    messageWeight d b' ≤ 32 * (b.length - n) + mp.stackWeight + mp.headerWeight + 9 := by
  cases h
  have := messageWeight_le mp.config (b.drop n)
  rwa [List.length_drop] at this

theorem bodyTurn_weight {str : Bytes} {cut : ℕ} (h : bodyTurn E mp str cut b = .next d b') :
    messageWeight d b' < 32 * (b.length - cut) + (1 + mp.stackWeight) + mp.headerWeight + 9 := by
  unfold bodyTurn at h
  split_ifs at h
  · have := next_config_weight h
    omega
  · dsimp only at h
    split at h
    · cases h
    · cases h
    · have := next_config_weight h
      simp only [MessageParser.stackWeight, MessageParser.headerWeight] at this ⊢
      omega

theorem bodyLengthTurn_weight (hb : b ≠ []) (h : bodyLengthTurn mp b = .next d b') :
    messageWeight d b' < 32 * b.length + (6 + mp.stackWeight) + mp.headerWeight + 9 := by
  have hpos := List.length_pos_of_ne_nil hb
  unfold bodyLengthTurn at h
  have hle := goBody_weight h
  change _ = 32 * (b.length - min mp.bodyLength b.length) +
    (1 + ((if mp.bodyLength - min mp.bodyLength b.length ≠ 0 then MessageState.bodyLength
      else .bodyDone).rank + mp.stackWeight)) + mp.headerWeight + 9 at hle
  rw [apply_ite MessageState.rank] at hle
  simp only [MessageState.rank] at hle
  split_ifs at hle with hmore <;> omega

theorem bodyChunkedTurn_weight (hb : b ≠ []) (h : bodyChunkedTurn mp b = .next d b') :
    messageWeight d b' < 32 * b.length + (6 + mp.stackWeight) + mp.headerWeight + 9 := by
  have hpos := List.length_pos_of_ne_nil hb
  unfold bodyChunkedTurn at h
  split at h
  · split at h
    · cases h
    · dsimp only at h
      split_ifs at h <;> have hle := goBody_weight h <;>
        simp only [MessageParser.stackWeight, MessageParser.headerWeight,
          MessageState.rank] at hle ⊢ <;>
        omega
  · cases h

theorem stateTurn_weight {state : MessageState} {str : Bytes} {cut : ℕ}
    (hdata : state.needData = true → b ≠ [])
    (h : stateTurn E call state mp str cut b = .next d b') :
    messageWeight d b' < 32 * (if state = .body then b.length - cut else b.length) +
      (state.rank + mp.stackWeight) + mp.headerWeight +
      if state = .header ∧ 0 < b.length then 0 else 9 := by
  cases state <;>
    simp only [MessageState.rank, reduceCtorEq, false_and, true_and, if_false, if_true]
  case failure => cases h
  case start =>
    have := startTurn_weight (hdata rfl) h
    omega
  case header => exact messageHeaderTurn_weight h
  case headerDone => exact messageHeaderDoneTurn_weight h
  case body => exact bodyTurn_weight h
  case bodyDumb =>
    have hle := goBody_weight h
    have hpos := List.length_pos_of_ne_nil (hdata rfl)
    simp only [MessageState.rank] at hle
    omega
  case bodyLength => exact bodyLengthTurn_weight (hdata rfl) h
  case bodyChunked => exact bodyChunkedTurn_weight (hdata rfl) h
  case bodyDone =>
    have hle : messageWeight d b' ≤ 32 * b.length + (1 + mp.stackWeight) + mp.headerWeight + 9 :=
      goIn_weight h
    omega
  case updateCl =>
    change updateClTurn mp b = _ at h
    unfold updateClTurn at h
    split at h
    · cases h
    · cases h
      refine (messageWeight_le _ _).trans_lt ?_
      change 32 * b.length + mp.stackWeight + mp.headerWeight + 9 <
        32 * b.length + (1 + mp.stackWeight) + mp.headerWeight + 9
      omega
  case done =>
    change doneTurn call mp b = _ at h
    unfold doneTurn at h
    split at h
    case isFalse => cases h
    cases h
    have hle : messageWeight mp.config (b.dropWhile isSpace) ≤
        32 * (b.dropWhile isSpace).length + mp.stackWeight + mp.headerWeight + 9 :=
      messageWeight_le _ _
    have hlen : (b.dropWhile isSpace).length ≤ b.length :=
      (List.dropWhile_sublist isSpace).length_le
    omega

theorem messageTurn_weight {c : MessageConfig Url} (h : messageTurn E call c b = .next d b') :
    messageWeight d b' < messageWeight c b := by
  by_cases hdata : c.parser.state.needData = true → b ≠ []
  · rw [messageTurn_pop hdata] at h
    refine (stateTurn_weight hdata h).trans_eq ?_
    rw [messageWeight, stackWeight_pop c.parser]
    rfl
  · push Not at hdata
    rw [hdata.2, messageTurn_wait _ hdata.1] at h
    cases h

end Weight

/-- The loop of `php_http_message_parser_parse` -/
def messageLoop : Machine (MessageConfig Url) Byte (Option MessageState) where
  turn := messageTurn E call
  weight := messageWeight
  weight_lt := messageTurn_weight

/-- `php_http_message_parser_parse`: what it returns, the parser and the buffer. -/
def messageParse (mp : MessageParser Url) (b : Bytes) :
    Option MessageState × MessageParser Url × Bytes :=
  let o := (messageLoop E call).run mp.config b
  (o.1, o.2.1.parser, o.2.2)

end Turn

end ExtHttp
