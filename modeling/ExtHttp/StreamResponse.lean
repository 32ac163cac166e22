import ExtHttp.ArrayKey
import ExtHttp.ChunkedEncode
import ExtHttp.Headers
import ExtHttp.MessageWrite

/-!
# Responses on streams

The operations `php_http_env_response_stream_*`, on a stream that may take any part of what is
written to it, or fail.
-/
namespace ExtHttp

/-- `php_http_response_codes.h` -/
def responseCodes : List (ℕ × String) :=
  [(100, "Continue"), (101, "Switching Protocols"), (102, "Processing"), (200, "OK"),
    (201, "Created"), (202, "Accepted"), (203, "Non-Authoritative Information"),
    (204, "No Content"),
    (205, "Reset Content"), (206, "Partial Content"), (207, "Multi-Status"),
    (208, "Already Reported"), (226, "IM Used"), (300, "Multiple Choices"),
    (301, "Moved Permanently"), (302, "Found"), (303, "See Other"), (304, "Not Modified"),
    (305, "Use Proxy"), (307, "Temporary Redirect"), (308, "Permanent Redirect"),
    (400, "Bad Request"), (401, "Unauthorized"), (402, "Payment Required"), (403, "Forbidden"),
    (404, "Not Found"), (405, "Method Not Allowed"), (406, "Not Acceptable"),
    (407, "Proxy Authentication Required"), (408, "Request Timeout"), (409, "Conflict"),
    (410, "Gone"), (411, "Length Required"), (412, "Precondition Failed"),
    (413, "Request Entity Too Large"), (414, "Request URI Too Long"),
    (415, "Unsupported Media Type"), (416, "Requested Range Not Satisfiable"),
    (417, "Expectation Failed"), (422, "Unprocessible Entity"), (423, "Locked"),
    (424, "Failed Dependency"), (426, "Upgrade Required"), (428, "Precondition Required"),
    (429, "Too Many Requests"), (431, "Request Header Fields Too Large"),
    (500, "Internal Server Error"), (501, "Not Implemented"), (502, "Bad Gateway"),
    (503, "Service Unavailable"), (504, "Gateway Timeout"), (505, "HTTP Version Not Supported"),
    (506, "Variant Also Negotiates"), (507, "Insufficient Storage"), (508, "Loop Detected"),
    (510, "Not Extended"), (511, "Network Authentication Required")]

/-- `php_http_env_get_response_status_for_code`, as `%s` prints it. -/
def responseStatus (code : ℤ) : Bytes :=
  match responseCodes.find? fun c => (c.1 : ℤ) = code % 2 ^ 32 with
  | some c => ascii c.2
  | none => ascii "(null)"

/-! ### The stream -/

/-- What a response has done to its stream: the header block and data as they were written, with
what of them has gone out, the end of a chunked body, and a filter that was put on the stream. -/
inductive StreamEvent
  | head (block sent : Bytes)
  | body (data sent : Bytes)
  | last (sent : Bytes)
  | filter
  deriving DecidableEq, Repr

def StreamEvent.sent : StreamEvent → Bytes
  | .head _ sent => sent
  | .body _ sent => sent
  | .last sent => sent
  | .filter => []

def StreamEvent.isHead : StreamEvent → Bool
  | .head .. => true
  | _ => false

/-- The underlying stream, which may go by all that has happened: how much of a write it takes, if
that does not fail, behind what has already gone out in the same operation; whether it is at its
end; whether it can be flushed; and whether a filter for it can be created. -/
structure StreamEnv where
  take : List StreamEvent → Bytes → Bytes → Option ℕ
  eof : List StreamEvent → Bool
  flush : List StreamEvent → Bool
  filter : List StreamEvent → Bool

/-- What one bucket becomes in the filter `http.chunked_encode`. -/
def encodeChunk (data : Bytes) : Bytes := formatHex data.length ++ crlf ++ (data ++ crlf)

/-- The filter writes what `encodeBucket` does. -/
theorem encodeChunk_eq (b : Bucket) : encodeChunk b.data = encodeBucket b := rfl

/-- Buckets on their way through a number of these filters. -/
def encodeChain (closing : Bool) : ℕ → List Bytes → List Bytes
  | 0, buckets => buckets
  | n + 1, buckets =>
      encodeChain closing n (buckets.map encodeChunk ++ if closing then [lastChunk] else [])

/-- Write buckets to the underlying stream: whether no write failed, and what has gone out. -/
def writeBuckets (env : StreamEnv) (log : List StreamEvent) : Bytes → List Bytes → Bool × Bytes
  | sent, [] => (true, sent)
  | sent, bucket :: buckets =>
      match env.take log sent bucket with
      | some n => writeBuckets env log (sent ++ bucket.take n) buckets
      | none => (false, (writeBuckets env log sent buckets).2)

/-- `php_stream_write`: the bytes it says it has written, and what has gone out. Filters take all
they are given. -/
def streamWrite (env : StreamEnv) (log : List StreamEvent) (filters : ℕ) (buf : Bytes) :
    Option ℕ × Bytes :=
  if buf = [] then (some 0, [])
  else if filters = 0 then
    match env.take log [] buf with
    | some n => (some (min n buf.length), buf.take n)
    | none => (none, [])
  else
    let o := writeBuckets env log [] (encodeChain (env.eof log) filters [buf])
    (if o.1 then some buf.length else none, o.2)

/-! ### The response -/

/-- `php_http_env_response_stream_ctx_t` with what has happened to its stream, on which there are
`filters`. A header stands under its name with the lines it has been given. Of the request it
matters by which method it came. -/
structure StreamResponse where
  header : List (Bytes × List Bytes)
  version : Version
  statusCode : ℤ
  chunkedFilter : Bool
  request : Option Bytes
  started : Bool
  finished : Bool
  chunked : Bool
  filters : ℕ
  log : List StreamEvent
  deriving DecidableEq, Repr

/-- `php_http_env_response_stream_init` -/
def streamInit (request : Option (Version × Bytes)) : StreamResponse where
  header := []
  version := if request.map Prod.fst = some ⟨1, 0⟩ then ⟨1, 0⟩ else ⟨1, 1⟩
  statusCode := 200
  chunkedFilter := false
  request := request.map Prod.snd
  started := false
  finished := false
  chunked := true
  filters := 0
  log := []

namespace StreamResponse

/-- Whether `php_http_env_response_stream_start` still thinks of a chunked body when it has seen the
headers. -/
def keepsChunked (r : StreamResponse) : Bool :=
  r.chunked && !(r.version = ⟨1, 0⟩ || (r.statusCode = 204 || r.statusCode.tdiv 100 = 1) ||
    (r.statusCode.tdiv 100 = 2 && r.request.any (strcaseEq connect))) &&
    !(r.header.flatMap Prod.snd).any fun line =>
      ((cString line).take 15).map toLower = ascii "content-length:"

/-- Status line and headers, with the empty line. -/
def headerBlock (r : StreamResponse) : Bytes :=
  httpSlash ++ formatLong r.version.major ++ [dot] ++ formatLong r.version.minor ++ [space] ++
    formatLong r.statusCode ++ [space] ++ responseStatus r.statusCode ++ crlf ++
    (r.header.flatMap Prod.snd).flatMap (· ++ crlf) ++
    (if r.keepsChunked then ascii "Transfer-Encoding: chunked" ++ crlf else []) ++ crlf

/-- `php_stream_flush`: filters on a stream that is at its end are closed each time. -/
def flushStream (env : StreamEnv) (r : StreamResponse) : Bool × StreamResponse :=
  let sent := if r.filters ≠ 0 && env.eof r.log then
      (writeBuckets env r.log [] (encodeChain true r.filters [])).2 else []
  (env.flush r.log, { r with log := r.log ++ [.last sent] })

/-- `php_stream_filter_create` and `php_stream_filter_append`. -/
def installFilter (env : StreamEnv) (r : StreamResponse) : StreamResponse :=
  if env.filter r.log then
    { r with chunkedFilter := true, filters := r.filters + 1, log := r.log ++ [.filter] }
  else { r with chunkedFilter := false }

/-- The header block is written; the response has started if all of it has been. -/
def writeHead (env : StreamEnv) (r : StreamResponse) : StreamResponse :=
  let o := streamWrite env r.log r.filters r.headerBlock
  { r with
    chunked := r.keepsChunked
    started := o.1 = some r.headerBlock.length
    log := r.log ++ [.head r.headerBlock o.2] }

/-- `php_http_env_response_stream_start` -/
def start (env : StreamEnv) (r : StreamResponse) : Bool × StreamResponse :=
  if r.started || r.finished then (false, r)
  else
    let flushed := ((r.writeHead env).flushStream env).2
    let out := if flushed.chunked then flushed.installFilter env else flushed
    (out.started, out)

/-- The operations may start a response. -/
def ensureStarted (env : StreamEnv) (r : StreamResponse) : Bool × StreamResponse :=
  if r.started then (true, r) else r.start env

/-- `php_http_env_response_stream_set_header_ex` -/
def setHeader (replace : Bool) (r : StreamResponse) (str : Bytes) : Bool × StreamResponse :=
  if r.started || r.finished then (false, r)
  else if colon ∈ cString str then
    let key := (cString str).takeWhile (· ≠ colon)
    let old := (r.header.find? fun h => h.1 = key).map Prod.snd
    let lines := if replace then [str] else old.getD [] ++ [str]
    (true, { r with header :=
      if old.isSome then r.header.map fun h => if h.1 = key then (key, lines) else h
      else r.header ++ [(key, lines)] })
  else (false, r)

end StreamResponse

/-- The operations on a response. -/
inductive StreamOp
  | setStatus (code : ℤ)
  | setProtocolVersion (version : Version)
  | setHeader (str : Bytes)
  | addHeader (str : Bytes)
  | delHeader (key : Bytes)
  | write (data : Bytes)
  | flush
  | finish
  deriving DecidableEq, Repr

/-- The operations that say what is in the header block. -/
def StreamOp.isSetter : StreamOp → Bool
  | .write _ | .flush | .finish => false
  | _ => true

namespace StreamResponse

/-- `php_http_env_response_stream_write` -/
def write (env : StreamEnv) (r : StreamResponse) (data : Bytes) : Bool × StreamResponse :=
  if r.finished then (false, r)
  else
    let s := r.ensureStarted env
    if s.1 then
      let o := streamWrite env s.2.log s.2.filters data
      (o.1 = some data.length, { s.2 with log := s.2.log ++ [.body data o.2] })
    else s

/-- `php_http_env_response_stream_flush` -/
def flush (env : StreamEnv) (r : StreamResponse) : Bool × StreamResponse :=
  if r.finished then (false, r)
  else
    let s := r.ensureStarted env
    if s.1 then s.2.flushStream env else s

/-- `php_stream_filter_flush` of the last filter, and `php_stream_filter_remove`. -/
def removeFilter (env : StreamEnv) (r : StreamResponse) : StreamResponse :=
  { r with
    chunkedFilter := false
    filters := r.filters - 1
    log := r.log ++ [.last (writeBuckets env r.log [] [lastChunk]).2] }

/-- `php_http_env_response_stream_finish` -/
def finish (env : StreamEnv) (r : StreamResponse) : Bool × StreamResponse :=
  if r.finished then (false, r)
  else
    let s := r.ensureStarted env
    if s.1 then
      let flushed := (s.2.flushStream env).2
      let out := if flushed.chunked && flushed.chunkedFilter then flushed.removeFilter env
        else flushed
      (true, { out with finished := true })
    else s

/-- An operation, and whether it succeeds. -/
def step (env : StreamEnv) (r : StreamResponse) : StreamOp → Bool × StreamResponse
  | .setStatus code => if r.started || r.finished then (false, r)
    else (true, { r with statusCode := code })
  | .setProtocolVersion version =>
      if r.started || r.finished then (false, r) else (true, { r with version := version })
  | .setHeader str => r.setHeader true str
  | .addHeader str => r.setHeader false str
  | .delHeader key =>
      if r.started || r.finished then (false, r)
      else (true, { r with header := r.header.filter fun h => h.1 ≠ key })
  | .write data => r.write env data
  | .flush => r.flush env
  | .finish => r.finish env

def run (env : StreamEnv) (r : StreamResponse) (ops : List StreamOp) : StreamResponse :=
  ops.foldl (fun r op => (r.step env op).2) r

end StreamResponse

end ExtHttp
