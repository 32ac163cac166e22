import ExtHttp.MessageParser

/-!
# Reading messages from a stream

`php_http_message_parser_parse_stream` and the methods of `http\Message\Parser`, as far as they call
`php_http_message_parser_parse`. What the stream does is a list with one entry for each round of the
loop; where the list ends the loop is still going on.
-/
namespace ExtHttp

/-- One round of a stream: what `php_stream_get_line` or `php_stream_read` brings, which is never
more than the buffer has room for, what `php_stream_getc` brings where they bring nothing, and
whether the stream is at its end. `stale` is in the memory of the buffer behind what is used of it.
If the stream has `failed` then `php_stream_read` brings -1. -/
structure StreamRead where
  data : Bytes
  char : Option Byte
  eof : Bool
  stale : Bytes
  failed : Bool

/-- A call of `php_http_message_parser_parse`. -/
structure ParseCall (Url : Type) where
  flags : MessageCall
  parser : MessageParser Url
  buffer : Bytes

variable {Url : Type} (E : Engine Url)

/-- `php_stream_read` and `php_http_buffer_account`: `justread` and the buffer. The -1 of a failure
goes into a `size_t`, and takes the last byte away. None if there is no such byte: then `used`
wraps, and counts more bytes than there is memory. -/
def StreamRead.account (r : StreamRead) (data b : Bytes) : Option (ℕ × Bytes) :=
  if r.failed then if b = [] then none else some (2 ^ 64 - 1, b.dropLast)
  else some (data.length, b ++ data)

/-- Read in a state: `justread`, the parser and the buffer. -/
def streamRead (state : MessageState) (mp : MessageParser Url) (b : Bytes) (r : StreamRead) :
    Option (ℕ × MessageParser Url × Bytes) :=
  match state with
  | .bodyDumb => (r.account r.data b).map fun (justread, b) => (justread, mp, b)
  | .bodyLength =>
      (r.account (r.data.take mp.bodyLength) b).map fun (justread, b) => (justread, mp, b)
  | .bodyChunked =>
      if mp.bodyLength ≠ 0 then
        (r.account (r.data.take mp.bodyLength) b).map fun (justread, b) =>
          let bodyLength := (mp.bodyLength + 2 ^ 64 - justread) % 2 ^ 64
          (justread, { mp with bodyLength := bodyLength }, b)
      else
        -- the line goes to the beginning of the buffer
        let mem := if r.data = [] then b ++ r.stale
          else r.data ++ nul :: (b ++ r.stale).drop (r.data.length + 1)
        some (r.data.length, { mp with bodyLength := (strtoul 16 (mem.drop b.length)).1 },
          mem.take (b.length + r.data.length))
  | _ =>
      if r.data ≠ [] then some (r.data.length, mp, b ++ r.data)
      else match r.char with
        -- appended, and then accounted once more
        | some c => some (1, mp, b ++ [c, byteAt r.stale 1])
        | none => some (0, mp, b)

/-- `php_http_message_parser_parse_stream`: the calls it makes, and its state, the parser and the
buffer when it returns. It does not where a call would read more bytes than there is memory. -/
def parseStream (flags : MessageCall) (state : MessageState) (mp : MessageParser Url) (b : Bytes) :
    List StreamRead → List (ParseCall Url) × Option (MessageState × MessageParser Url × Bytes)
  | [] => ([], if state = .done ∨ state = .failure then some (mp.state, mp, b) else none)
  | r :: rs =>
      if state = .done ∨ state = .failure then ([], some (mp.state, mp, b))
      -- `abort()`
      else if state = .body ∨ state = .bodyDone ∨ state = .updateCl then ([], none)
      else match streamRead state mp b r with
        | none => ([], none)
        | some (justread, mp, b) =>
            if justread ≠ 0 then
              let o := messageParse E flags mp b
              let rest := match o.1 with
                | some state => parseStream flags state o.2.1 o.2.2 rs
                | none => ([], none)
              (⟨flags, mp, b⟩ :: rest.1, rest.2)
            else if r.eof then
              let flags := { flags with cleanup := true }
              let o := messageParse E flags mp b
              ([⟨flags, mp, b⟩], o.1.map (·, o.2))
            else ([], some (state, mp, b))

inductive ParserMethod
  | parse (flags : MessageCall) (data : Bytes)
  | stream (flags : MessageCall) (reads : List StreamRead)

/-- The calls that a series of method calls makes; none comes after one that does not return. -/
def parserCalls (mp : MessageParser Url) (b : Bytes) : List ParserMethod → List (ParseCall Url)
  | [] => []
  | .parse flags data :: ms =>
      let o := messageParse E flags mp (b ++ data)
      ⟨flags, mp, b ++ data⟩ :: if o.1 = none then [] else parserCalls o.2.1 o.2.2 ms
  | .stream flags reads :: ms =>
      let o := parseStream E flags .start mp b reads
      o.1 ++ match o.2 with
        | some (_, mp, b) => parserCalls mp b ms
        | none => []

/-- The calls that the methods make on a fresh object. -/
def objectCalls (ms : List ParserMethod) : List (ParseCall Url) :=
  parserCalls E messageParserInit [] ms

end ExtHttp
