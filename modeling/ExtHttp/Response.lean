import ExtHttp.BufferOutput
import ExtHttp.CookieText
import ExtHttp.EntityTags
import ExtHttp.NegotiateQuality
import ExtHttp.Operations
import ExtHttp.ParamsWrite
import ExtHttp.RequestRanges
import ExtHttp.StreamResponse

/-!
# Sending a response

`php_http_env_response_send` with head and body, over any operations of a response: those of a
stream, of the SAPI, or others. The options are the properties of an `http\Env\Response`, as they
are converted when they are read.
-/
namespace ExtHttp

/-- `php_http_env_response_ops_t`, working on its context. -/
structure ResponseOps (σ : Type) where
  step : σ → StreamOp → Bool × σ
  getStatus : σ → ℤ

/-- The same operations, with a record of what they have been asked for. -/
def ResponseOps.recorded {σ : Type} (ops : ResponseOps σ) :
    ResponseOps (σ × List (StreamOp × Bool)) :=
  ⟨Operations.record ops.step, fun s => ops.getStatus s.1⟩

/-- An encoding stream: `none` is a failure, and there may be nothing to send yet. -/
structure BodyEncoder (ε : Type) where
  update : ε → Bytes → Option (ε × Option Bytes)
  finish : ε → Option (ε × Option Bytes)

/-- What the source takes from PHP and from zlib: the tag and the time of a body, dates, numbers, a
boundary, and encoders for gzip and for deflate. -/
structure ResponseLib (ε : Type) where
  bodyEtag : MessageBody → Option CString
  mtime : MessageBody → ℤ
  parseDate : Bytes → ℤ
  formatDate : ℤ → CString
  params : ParamsLib
  number : Value → ℚ
  boundary : CString
  initEncoder : Bool → Option ε
  encoding : BodyEncoder ε

/-- What is asked of a request: headers, and the method it came by. -/
structure SentRequest where
  headers : Headers
  method : Bytes

/-- The options of a response. An array that is not there is an empty one; a cookie is `none` if it
is no `http\Cookie`. -/
structure SendOptions where
  body : Option MessageBody
  headers : List (ArrayKey × HeaderValue)
  responseCode : ℤ
  httpVersion : Bytes
  cookies : List (Option CookieList)
  contentType : Bytes
  cacheControl : Bytes
  contentDisposition : Entries
  contentEncoding : ℤ
  etag : Option Bytes
  lastModified : ℤ
  throttleDelay : Bool
  throttleChunk : ℤ

section
variable {ε : Type} (L : ResponseLib ε)

/-- `php_http_env_is_response_cached_by_etag` -/
def SendOptions.cachedByEtag (o : SendOptions) (headers : Headers) (name : Bytes) :
    CacheStatus × SendOptions :=
  let c := isResponseCachedByEtag L.bodyEtag ⟨o.body, o.etag⟩ headers name
  (c.1, { o with etag := c.2.etag })

/-- `php_http_env_is_response_cached_by_last_modified` -/
def SendOptions.cachedByLastModified (o : SendOptions) (headers : Headers) (name : Bytes) :
    CacheStatus × SendOptions :=
  match o.body with
  | none => (.no, o)
  | some body =>
      let kept := if o.lastModified ≤ 0 then { o with lastModified := L.mtime body } else o
      match getRequestHeader headers name with
      | none => (.no, kept)
      | some header =>
          let ums := L.parseDate header
          (if 0 < ums ∧ kept.lastModified ≤ ums then .hit else .miss, kept)

/-- `php_http_env_got_request_header` -/
def gotRequestHeader (headers : Headers) (name : Bytes) : Bool :=
  (headers.find (prettyKey true true name)).isSome

/-- `php_http_negotiate_encoding` -/
def negotiateEncoding (supported : List Bytes) (headers : Headers) :
    Except ParamsFault (Option (List (Bytes × ℚ))) :=
  match headers.find (prettyKey true true (ascii "Accept-Encoding")) with
  | none => .ok none
  | some v => negotiate L.params L.number v.toStr supported []

end

/-- `PHP_HTTP_SENDBUF_SIZE` -/
def sendbufSize : ℕ := 40960

/-- `PHP_HTTP_CONTENT_ENCODING_GZIP` -/
def contentEncodingGzip : ℤ := 1

/-- `php_http_env_response_t`, where `state` is the context of the operations. -/
structure Response (σ ε : Type) where
  options : SendOptions
  state : σ
  buffer : Option Bytes
  throttled : Bool
  chunk : ℕ
  rangeStatus : RangeStatus
  ranges : List (List ℤ)
  boundary : CString
  contentLength : ℕ
  contentType : Option CString
  encoder : Option ε
  done : Bool

/-- `php_http_env_response_init` -/
def responseInit {σ : Type} (ε : Type) (options : SendOptions) (state : σ) : Response σ ε where
  options := options
  state := state
  buffer := some []
  throttled := false
  chunk := 0
  rangeStatus := .no
  ranges := []
  boundary := ⟨[], by simp⟩
  contentLength := 0
  contentType := none
  encoder := none
  done := false

namespace Response
variable {σ ε : Type}

/-- One step after another, unless the first one fails. -/
def andThen (o : Bool × Response σ ε) (f : Response σ ε → Bool × Response σ ε) :
    Bool × Response σ ε :=
  if o.1 then f o.2 else o

section
variable (L : ResponseLib ε) (ops : ResponseOps σ) (request : SentRequest)

/-- An operation on the context of the response. -/
def op (r : Response σ ε) (o : StreamOp) : Bool × Response σ ε :=
  ((ops.step r.state o).1, { r with state := (ops.step r.state o).2 })

/-! ### The head -/

/-- `php_http_env_response_is_cacheable` -/
def isCacheable (r : Response σ ε) : Bool :=
  let status := ops.getStatus r.state
  if status ≠ 0 ∧ status.tdiv 100 ≠ 2 then false
  else if gotRequestHeader request.headers (ascii "Authorization") then false
  else strcaseEq request.method (ascii "HEAD") || strcaseEq request.method (ascii "GET")

/-- The headers of the message. Nobody asks whether they are taken. -/
def sendHeaders (r : Response σ ε) : Response σ ε :=
  (headerToCallback false r.options.headers).foldl (fun r text => (r.op ops (.setHeader text)).2) r

def sendResponseCode (r : Response σ ε) : Bool × Response σ ε :=
  if 0 < r.options.responseCode then r.op ops (.setStatus r.options.responseCode) else (true, r)

def sendVersion (r : Response σ ε) : Bool × Response σ ε :=
  if r.options.httpVersion = [] then (true, r)
  else match versionParse (r.options.httpVersion ++ [nul]) with
  | some v => r.op ops (.setProtocolVersion v)
  | none => (true, r)

/-- The loop over the cookies stops at one that is not taken. -/
def sendCookies : List (Option CookieList) → Response σ ε → Bool × Response σ ε
  | [], r => (true, r)
  | none :: cookies, r => sendCookies cookies r
  | some list :: cookies, r =>
      andThen (r.op ops (.addHeader (ascii "Set-Cookie: " ++
        cString (cookieListToString L.formatDate list))))
        (sendCookies cookies)

/-- What `estrndup` makes a `char *` of. -/
def toCString (s : Bytes) : CString where
  bytes := cString s
  noNul h := by simpa using List.mem_takeWhile_imp h

def sendContentType (r : Response σ ε) : Bool × Response σ ε :=
  if slash ∈ cString r.options.contentType then
    andThen (r.op ops (.setHeader (ascii "Content-Type: " ++ cString r.options.contentType)))
      fun r => (true, { r with contentType := some (toCString r.options.contentType) })
  else (true, r)

/-- The head of a response with ranges. -/
def sendRangeHead (r : Response σ ε) : Bool × Response σ ε :=
  match r.ranges with
  | [[first, last]] =>
      andThen (r.op ops (.setStatus 206)) fun r =>
        r.op ops (.setHeader (ascii "Content-Range: bytes " ++ formatLong first ++ ascii "-" ++
          formatLong last ++
          ascii "/" ++ formatLong r.contentLength))
  -- this should never happen
  | [_] => (false, { r with ranges := [] })
  | _ =>
      andThen ({ r with boundary := L.boundary }.op ops (.setStatus 206)) fun r =>
        r.op ops (.setHeader (ascii "Content-Type: multipart/byteranges; boundary=" ++
          r.boundary.bytes))

def sendCacheControl (r : Response σ ε) : Bool × Response σ ε :=
  if r.options.cacheControl = [] then (true, r)
  else r.op ops (.setHeader (ascii "Cache-Control: " ++ cString r.options.cacheControl))

def sendContentDisposition (r : Response σ ε) : Bool × Response σ ε :=
  let text := paramsToString L.params paramsFormatDefault [] r.options.contentDisposition
  if text = [] then (true, r) else r.op ops (.setHeader
    (ascii "Content-Disposition: " ++ cString text))

/-- What is done about the best one of the encodings. -/
def chooseEncoding (r : Response σ ε) (key : Bytes) : Bool × Response σ ε :=
  if key = ascii "gzip" then
    match L.initEncoder true with
    | none => (false, r)
    | some encoder => { r with encoder := some encoder }.op ops
      (.setHeader (ascii "Content-Encoding: gzip"))
  else if key = ascii "deflate" then
    match L.initEncoder false with
    | none => (false, r)
    | some encoder => { r with encoder := some encoder }.op ops
      (.setHeader (ascii "Content-Encoding: deflate"))
  else r.op ops (.delHeader (ascii "Content-Encoding"))

def sendContentEncoding (r : Response σ ε) : Except ParamsFault (Bool × Response σ ε) :=
  if r.options.contentEncoding = contentEncodingGzip then
    match negotiateEncoding L [ascii "none", ascii "gzip", ascii "deflate"] request.headers with
    | .error fault => .error fault
    | .ok (some ((key, _) :: _)) =>
        .ok (andThen (r.chooseEncoding L ops key) fun r =>
          r.op ops (.addHeader (ascii "Vary: Accept-Encoding")))
    | .ok _ => .ok (true, r)
  else .ok (r.op ops (.delHeader (ascii "Content-Encoding")))

/-- The text of the header for an entity tag. -/
def etagHeader (etag : Bytes) : Bytes :=
  if quotation ∈ etag.head? ∨ weakMark ++ [quotation] <+: etag then ascii "ETag: " ++ etag
  else ascii "ETag: " ++ quoted etag

/-- Whether what the client has is still good, and the response that knows its tag and its time. -/
def notModified (r : Response σ ε) : Bool × Response σ ε :=
  let etag := r.options.cachedByEtag L request.headers (ascii "If-None-Match")
  match etag.1 with
  | .miss => (false, { r with options := etag.2 })
  | .hit => (true, { r with options := etag.2 })
  | .no =>
      let modified := etag.2.cachedByLastModified L request.headers (ascii "If-Modified-Since")
      (modified.1 = .hit, { r with options := modified.2 })

/-- Tag and time of the response, of which the last one that is sent tells whether that has
worked. -/
def sendValidators (r : Response σ ε) : Bool × Response σ ε :=
  let o := r.op ops (.setHeader (etagHeader (cString (r.options.etag.getD []))))
  if r.options.lastModified = 0 then o
  else o.2.op ops (.setHeader (ascii "Last-Modified: " ++
    (L.formatDate r.options.lastModified).bytes))

def sendCaching (r : Response σ ε) : Bool × Response σ ε :=
  if r.isCacheable ops request then
    let o := r.notModified L request
    if o.1 then { (o.2.op ops (.setStatus 304)).2 with done := true }.sendValidators L ops
    else o.2.sendValidators L ops
  else (true, r)

/-- What every head says. -/
def sendFront (r : Response σ ε) : Bool × Response σ ε :=
  andThen (andThen (andThen (sendResponseCode ops (r.sendHeaders ops)) (sendVersion ops))
    fun r => sendCookies L ops r.options.cookies r) (sendContentType ops)

/-- What the head of a response without ranges says besides. -/
def sendEntityHead (r : Response σ ε) : Except ParamsFault (Bool × Response σ ε) :=
  let o := andThen (r.sendCacheControl ops) (sendContentDisposition L ops)
  if o.1 then
    match o.2.sendContentEncoding L ops request with
    | .error fault => .error fault
    | .ok o => .ok (andThen o (sendCaching L ops request))
  else .ok o

/-- `php_http_env_response_send_head` -/
def sendHead (r : Response σ ε) : Except ParamsFault (Bool × Response σ ε) :=
  if r.done then .ok (true, r)
  else
    let o := r.sendFront L ops
    if o.1 then
      if o.2.rangeStatus = .ok then .ok (o.2.sendRangeHead L ops)
        else o.2.sendEntityHead L ops request
    else .ok o

/-! ### The body -/

/-- `output` -/
def pushOut (throttled : Bool) : PassCallback σ := fun s buf =>
  let o := ops.step s (.write buf)
  if o.1 then (true, if throttled then (ops.step o.2 .flush).2 else o.2) else (false, o.2)

/-- `php_http_buffer_chunked_output` to `output`, of the last chunk if there is no `buf`. -/
def output (r : Response σ ε) (data : Bytes) (buf : Option Bytes) : Bool × Response σ ε :=
  let chunk := if r.chunk ≠ 0 then r.chunk else sendbufSize
  let o := chunkedOutput (pushOut ops r.throttled) r.buffer data
    (if buf.isSome then chunk else 0) r.state
  (o.1, { r with buffer := o.2.1, state := o.2.2 })

/-- `php_http_env_response_send_data` -/
def sendData (r : Response σ ε) (buf : Option Bytes) : Bool × Response σ ε :=
  match r.encoder with
  | none => r.output ops (buf.getD []) buf
  | some encoder =>
      match buf.elim (L.encoding.finish encoder) (L.encoding.update encoder) with
      | none => (false, r)
      | some (encoder, none) => (true, { r with encoder := some encoder })
      | some (encoder, some str) => { r with encoder := some encoder }.output ops str buf

/-- `php_http_env_response_send_data` as a callback: the `int` -1 of a failure is not the `size_t`
that the caller looks for, which goes on. -/
def sendCallback :
    PassCallback (Response σ ε) := fun r buf => (true, (r.sendData L ops (some buf)).2)

/-- `php_http_env_response_send_done` -/
def sendDone (r : Response σ ε) : Bool × Response σ ε := r.sendData L ops none

/-- `php_http_buffer_appendf` on the buffer of the response. -/
def appendf (r : Response σ ε) (text : Bytes) : Response σ ε :=
  { r with buffer := some (r.buffer.getD [] ++ text) }

/-- The head of a part of a `multipart/byteranges` message. -/
def rangeHead (r : Response σ ε) (first last : ℤ) : Bytes :=
  crlf ++ ascii "--" ++ r.boundary.bytes ++ crlf ++
    ascii "Content-Type: " ++ (r.contentType.map CString.bytes).getD
      (ascii "application/octet-stream") ++
    crlf ++ ascii "Content-Range: bytes " ++ formatLong first ++ ascii "-" ++ formatLong last ++
    ascii "/" ++ formatLong r.contentLength ++ crlf ++ crlf

def rangeEnd (r : Response σ ε) : Bytes := crlf ++ ascii "--" ++ r.boundary.bytes ++ ascii "--"

/-- `php_http_message_body_to_callback` on a range, whose size is a `size_t`. -/
def sendRange (r : Response σ ε) (body : MessageBody) (first last : ℤ) : Bool × Response σ ε :=
  body.toCallback (sendCallback L ops) r first.toNat ((last - first + 1) % 2 ^ 64).toNat

/-- A turn of the loop over several ranges: one without two ends is passed over, and what has become
of the one before is forgotten. -/
def sendPart (body : MessageBody) (o : Bool × Response σ ε) (range : List ℤ) :
    Bool × Response σ ε :=
  match range with
  | [first, last] => (o.2.appendf (o.2.rangeHead first last)).sendRange L ops body first last
  | _ => o

/-- What is sent of a body if the status of its ranges is `PHP_HTTP_RANGE_OK`. -/
def sendRanges (r : Response σ ε) (body : MessageBody) : Bool × Response σ ε :=
  match r.ranges with
  | [[first, last]] => andThen (r.sendRange L ops body first last) (sendDone L ops)
  -- this should never happen
  | [_] => (false, (r.op ops (.setStatus 500)).2)
  | ranges =>
      andThen (ranges.foldl (sendPart L ops body) (true, r)) fun r =>
        (r.appendf r.rangeEnd).sendDone L ops

/-- The throttle is what the options say. -/
def throttle (r : Response σ ε) : Response σ ε :=
  { r with throttled := r.options.throttleDelay, chunk := (r.options.throttleChunk % 2 ^ 64).toNat }

/-- The whole body, or its ranges, which are there no longer then. -/
def sendEntity (body : MessageBody) (r : Response σ ε) : Bool × Response σ ε :=
  if r.rangeStatus = .ok then
    let o := r.sendRanges L ops body
    (o.1, { o.2 with ranges := [] })
  else andThen (body.toCallback (sendCallback L ops) r 0 0) (sendDone L ops)

/-- `php_http_env_response_send_body` -/
def sendBody (r : Response σ ε) : Bool × Response σ ε :=
  if r.done then (true, r)
  else match r.options.body with
  | none => (true, r)
  | some body => r.throttle.sendEntity L ops body

/-! ### Ranges, head, body -/

/-- A response whose ranges are not going to be sent. -/
def withoutRanges (r : Response σ ε) : Response σ ε := { r with rangeStatus := .no, ranges := [] }

/-- A check of a validator: whether it misses, and the response. -/
def missesEtag (r : Response σ ε) (name : Bytes) : Bool × Response σ ε :=
  let c := r.options.cachedByEtag L request.headers name
  (c.1 = .miss, { r with options := c.2 })

def missesLastModified (r : Response σ ε) (name : Bytes) : Bool × Response σ ε :=
  let c := r.options.cachedByLastModified L request.headers name
  (c.1 = .miss, { r with options := c.2 })

/-- The operator `||` -/
def orElse (o : Bool × Response σ ε) (f : Response σ ε → Bool × Response σ ε) :
    Bool × Response σ ε :=
  if o.1 then o else f o.2

/-- The conditions under which ranges are not sent, for a response that has some. -/
def checkRanges (r : Response σ ε) : Bool × Response σ ε :=
  let ifRange := orElse (r.missesEtag L request (ascii "If-Range")) fun r =>
    r.missesLastModified L request (ascii "If-Range")
  if ifRange.1 then (true, ifRange.2.withoutRanges)
  else
    let ifMatch := orElse (orElse (ifRange.2.missesEtag L request (ascii "If-Match")) fun r =>
      r.missesLastModified L request (ascii "If-Unmodified-Since")) fun r =>
        r.missesLastModified L request (ascii "Unless-Modified-Since")
    if ifMatch.1 then { ifMatch.2 with done := true, ranges := [] }.op ops (.setStatus 412)
    else (true, ifMatch.2)

/-- The ranges cannot be satisfied. -/
def refuseRanges (r : Response σ ε) : Bool × Response σ ε :=
  andThen ({ r with rangeStatus := .err, ranges := [], done := true }.op ops
    (.setStatus 416)) fun r =>
    r.op ops (.setHeader (ascii "Content-Range: bytes */" ++ formatLong r.contentLength))

/-- A response that has ranges, as arrays of two integers. -/
def withRanges (r : Response σ ε) (ranges : List (ℤ × ℤ)) : Response σ ε :=
  { r with rangeStatus := .ok, ranges := ranges.map fun range => [range.1, range.2] }

/-- The `switch` over the status of the ranges. -/
def takeRanges (r : Response σ ε) : Bool × Response σ ε :=
  let got := getRequestRanges r.contentLength request.headers
  match got.1 with
  | .no => (true, r.withoutRanges)
  | .err =>
      if gotRequestHeader request.headers (ascii "If-Range") then (true, r.withoutRanges)
        else r.refuseRanges ops
  | .ok => (r.withRanges got.2).checkRanges L ops request

/-- What `php_http_env_response_send` does about ranges. -/
def prepareRanges (r : Response σ ε) (body : MessageBody) : Bool × Response σ ε :=
  andThen ({ r with contentLength := body.size }.op ops (.setHeader (ascii "Accept-Ranges: bytes")))
    (takeRanges L ops request)

/-- `php_http_env_response_send` -/
def send (r : Response σ ε) : Except ParamsFault (Bool × Response σ ε) :=
  let prepared := r.options.body.elim (true, r) (r.prepareRanges L ops request)
  if prepared.1 then
    match prepared.2.sendHead L ops request with
    | .error fault => .error fault
    | .ok head => .ok (andThen (andThen head (sendBody L ops)) fun r => r.op ops .finish)
  else .ok prepared

end

end Response

end ExtHttp
