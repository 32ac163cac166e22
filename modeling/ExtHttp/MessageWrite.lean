import ExtHttp.BodyStream
import ExtHttp.HeaderText
import ExtHttp.Message
import ExtHttp.Url

/-! How messages are written: their start line, what is done to their headers before, and the
body. -/
namespace ExtHttp

/-- A message with its body as it is given to the writer: the boundary its body may have, and a size
that `off_t` holds. -/
structure OutgoingMessage where
  message : Message HttpUrl
  boundary : Option CString
  size_lt : message.body.length < 2 ^ 63

def OutgoingMessage.body (out : OutgoingMessage) : MessageBody :=
  ⟨⟨out.message.body, 0⟩, out.boundary⟩

/-- `!strcasecmp(a, b)` -/
def strcaseEq (a b : Bytes) : Bool := (cString a).map toLower = (cString b).map toLower

/-! ### Start lines -/

/-- The version in a start line; an unset one is taken for 1.1. -/
def formatVersion (version : Version) : Bytes :=
  if version.major = 2 then ascii "HTTP/2"
  else if version.major ≠ 0 ∨ version.minor ≠ 0 then
    httpSlash ++ formatLong version.major ++ [dot] ++ formatLong version.minor
  else ascii "HTTP/1.1"

/-- What a request line names: `CONNECT` presents an authority only. -/
def requestTarget (method : Bytes) (url : HttpUrl) : Bytes :=
  if strcaseEq method connect then urlAuthorityToString url else urlToString url

/-- `php_http_info_to_string` -/
def infoToString (eol : Bytes) : Info HttpUrl → Bytes
  | .request version method url =>
      cString method ++ [space] ++ cString (requestTarget method url) ++ [space] ++
        formatVersion version ++ eol
  | .response version code status =>
      let status := cString (status.getD [])
      formatVersion version ++ [space] ++ formatLong (if code ≠ 0 then code else 200) ++
        (if status ≠ [] then [space] else []) ++ status ++ eol

example : infoToString crlf (.response ⟨2, 0⟩ 0 none) = ascii "HTTP/2 200\r\n" := by decide

/-! ### Headers -/

/-- `php_http_message_header_string` -/
def Message.headerString {Url : Type} (m : Message Url) (key : Bytes) : Option Bytes :=
  (m.hdrs.find key).map HeaderValue.join

/-- The methods that say something about the body a request goes without. -/
def meansBody (method : Bytes) : Bool :=
  [ascii "POST", ascii "PUT", ascii "PATCH"].any (strcaseEq method)

/-- What `php_http_message_update_headers` makes of the type of a body with a boundary. -/
def multipartType (boundary : CString) (contentType : Option Bytes) : Option Bytes :=
  match contentType with
  | none => some (ascii "multipart/form-data; boundary=\"" ++ boundary.bytes ++ ascii "\"")
  | some ct =>
      if matchWord ct (ascii "boundary=") then none
      else some (cString ct ++ ascii "; boundary=\"" ++ boundary.bytes ++ ascii "\"")

/-- `php_http_message_update_headers`, without read filters on the body. -/
def updateHeaders (out : OutgoingMessage) : Headers :=
  let m := out.message
  if (m.hdrs.find (ascii "Content-Range")).isSome then m.hdrs
  else if m.body.length ≠ 0 then
    let hdrs := m.hdrs.update (ascii "Content-Length") (.scalar (.long m.body.length))
    match out.boundary.bind fun b => multipartType b (m.headerString (ascii "Content-Type")) with
    | some ct => hdrs.update (ascii "Content-Type") (.scalar (.str ct))
    | none => hdrs
  else match m.headerString (ascii "Content-Length"), m.info with
    | some cl, _ => if cl ≠ ascii "0" then m.hdrs.delete (ascii "Content-Length") else m.hdrs
    | none, some (.request _ method _) =>
        if (m.hdrs.find (ascii "Transfer-Encoding")).isNone && meansBody method then
          m.hdrs.update (ascii "Content-Length") (.scalar (.long 0))
        else m.hdrs
    | none, _ => m.hdrs

/-- `message_headers` -/
def messageHeaders (out : OutgoingMessage) : Bytes :=
  (out.message.info.map (infoToString crlf)).getD [] ++ headerToString (updateHeaders out).table

/-- `php_http_message_to_callback`, which does not ask whether the callback has failed. -/
def messageToCallback {σ : Type} (out : OutgoingMessage) (cb : PassCallback σ) (s : σ) : σ :=
  let s := (cb s (messageHeaders out)).2
  if out.body.size ≠ 0 then (out.body.toCallback cb (cb s crlf).2 0 0).2 else s

/-- All that `php_http_message_to_callback` passes. -/
def messageText (out : OutgoingMessage) : Bytes :=
  messageHeaders out ++ if out.message.body = [] then [] else crlf ++ out.message.body

/-- What every call of the callback keeps up holds of the text of the message in the end. -/
theorem messageToCallback_invariant {σ : Type} {cb : PassCallback σ} {I : σ → Bytes → Prop}
    (hcb : ∀ s done buf, I s done → (cb s buf).1 = true ∧ I (cb s buf).2 (done ++ buf)) {s : σ}
    {done : Bytes} (h : I s done) (out : OutgoingMessage) :
    I (messageToCallback out cb s) (done ++ messageText out) := by
  have hheaders := (hcb s done (messageHeaders out) h).2
  unfold messageToCallback messageText
  by_cases hbody : out.message.body = []
  · have hsize : out.body.size = 0 := List.length_eq_zero_iff.mpr hbody
    simpa [hsize, hbody] using hheaders
  · have hsize : out.body.size ≠ 0 := fun h0 => hbody (List.length_eq_zero_iff.mp h0)
    have hlt : out.body.size < 2 ^ 64 := out.size_lt.trans (by norm_num)
    have hall := (MessageBody.toCallback_all hcb (hcb _ _ crlf hheaders).2 hlt).2
    rw [List.append_assoc, List.append_assoc] at hall
    rw [if_pos hsize, if_neg hbody]
    exact hall

end ExtHttp
