import ExtHttp.HeaderParser
import ExtHttp.ArrayKey
import ExtHttp.Headers

/-! Messages, the chain they form, and how the header parser's findings get into it. -/
namespace ExtHttp

/-- `php_http_message_t` without its parent; without an `info` its type is `PHP_HTTP_NONE`. -/
structure Message (Url : Type) where
  info : Option (Info Url)
  hdrs : Headers
  body : Bytes
  deriving DecidableEq, Repr

/-- A chain of messages, the current one first and its parents behind it. -/
abbrev Chain (Url : Type) := List (Message Url)

variable {Url : Type}

/-- Whether `php_http_message_info_callback` leaves a message alone and begins another. -/
def Message.begun (m : Message Url) : Bool := m.info.isSome || !m.hdrs.isEmpty

/-- `php_http_message_info_callback` -/
def infoCallback (info : Option (Info Url)) (ms : Chain Url) : Chain Url :=
  match ms with
  | m :: parents =>
      if m.begun then ⟨info, [], []⟩ :: m :: parents
      else { m with info := info <|> m.info } :: parents
  | [] => [⟨info, [], []⟩]

/-- Start lines go to the callback, fields to the current message. Without a message the callback is
asked for one first. -/
def messageSink : HeaderSink Url (Chain Url) where
  info info ms := infoCallback (some info) ms
  header key val ms :=
    match if ms = [] then infoCallback none ms else ms with
    | m :: parents => { m with hdrs := m.hdrs.add key val } :: parents
    | [] => []

def Message.isRequest (m : Message Url) : Bool :=
  match m.info with
  | some (.request ..) => true
  | _ => false

/-- A response with a 3xx code. -/
def Message.isRedirect (m : Message Url) : Bool :=
  match m.info with
  | some (.response _ code _) => code / 100 = 3
  | _ => false

/-! ### Values as strings -/

/-- `zval_get_string` on a scalar -/
def HeaderScalar.toStr : HeaderScalar → Bytes
  | .str v => v
  | .long n => formatLong n
  | .bool b => if b then ascii "1" else []

/-- `zval_get_string`, which gives every array the same string. -/
def HeaderValue.toStr : HeaderValue → Bytes
  | .scalar v => v.toStr
  | .array _ => ascii "Array"

/-- `php_http_header_value_to_string` on a scalar -/
def HeaderScalar.valueString : HeaderScalar → Bytes
  | .bool b => if b then ascii "true" else ascii "false"
  | v => v.toStr

/-- `php_http_header_value_to_string`: the elements of an array are joined. -/
def HeaderValue.join : HeaderValue → Bytes
  | .scalar v => v.valueString
  | .array vs => vs.foldl (fun str v =>
      if str = [] then cString v.valueString else str ++ ascii ", " ++ cString v.valueString) []

/-- `php_http_match` with `PHP_HTTP_MATCH_WORD`: only the first occurrence is looked at. -/
def matchWord (haystack needle : Bytes) : Bool :=
  let haystack := (haystack.takeWhile (· ≠ nul)).map toLower
  match locateStr (needle.map toLower) haystack with
  | none => false
  | some found =>
      (found = 0 || !isAlnum (byteAt haystack (found - 1))) &&
        !isAlnum (byteAt haystack (found + needle.length))

example : matchWord (ascii "x-gzip, br") (ascii "gzip") = true := by decide

end ExtHttp
