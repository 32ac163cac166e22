import ExtHttp.MessageWrite

/-!
# Multipart bodies

What `php_http_message_body_add_form_field`, `php_http_message_body_add_form_file` and
`php_http_message_body_add_part` make of a body. Each of them opens the multipart again that the
last one has closed.
-/
namespace ExtHttp

/-- `php_addslashes` -/
def addslashes (s : Bytes) : Bytes :=
  s.flatMap fun c => if c = nul then ascii "\\0" else if (ascii "'\"\\").contains c then [92,
    c] else [c]

example : addslashes (ascii "a\"b\\") = ascii "a\\\"b\\\\" := by decide

/-- A call that adds to a body. -/
inductive AddCall
  | formField (name value : Bytes)
  | formFile (name ctype path input : Bytes)
  | part (message : OutgoingMessage)

def dashes : Bytes := [hyphen, hyphen]

namespace MessageBody

/-- The size that `BOUNDARY_OPEN` truncates to, a `size_t`. -/
def openSize (size : ℕ) : ℕ :=
  if (dashes ++ crlf).length ≤ size then size - (dashes ++ crlf).length
  else size + 2 ^ 64 - (dashes ++ crlf).length

/-- `BOUNDARY_OPEN` -/
def boundaryOpen (num : UInt32 × UInt32) (body : MessageBody) : MessageBody :=
  if body.size ≠ 0 then (body.truncate (openSize body.size)).append crlf
  else (body.getBoundary num).2.append (dashes ++ (body.getBoundary num).1.bytes ++ crlf)

/-- `BOUNDARY_CLOSE` -/
def boundaryClose (num : UInt32 × UInt32) (body : MessageBody) : MessageBody :=
  (body.getBoundary num).2.append
    (crlf ++ dashes ++ (body.getBoundary num).1.bytes ++ dashes ++ crlf)

/-- What is written before the value of a form field. -/
def fieldHead (name : Bytes) : Bytes :=
  ascii "Content-Disposition: form-data; name=\"" ++ addslashes (cString name) ++
    ascii "\"" ++ crlf ++
    crlf

/-- What is written before the contents of a file; `basename` is `php_basename`. -/
def fileHead (basename : Bytes → Bytes) (name ctype path : Bytes) : Bytes :=
  ascii "Content-Disposition: form-data; name=\"" ++ addslashes (cString name) ++
    ascii "\"; filename=\"" ++ cString (basename (cString path)) ++ ascii "\"" ++ crlf ++
    ascii "Content-Transfer-Encoding: binary" ++ crlf ++
    ascii "Content-Type: " ++ cString ctype ++ crlf ++ crlf

/-- `php_http_message_body_add_form_field` -/
def addFormField (num : UInt32 × UInt32) (body : MessageBody) (name value : Bytes) : MessageBody :=
  (((body.boundaryOpen num).append (fieldHead name)).append value).boundaryClose num

/-- `php_http_message_body_add_form_file` -/
def addFormFile (basename : Bytes → Bytes) (num : UInt32 × UInt32) (body : MessageBody)
    (name ctype path input : Bytes) : MessageBody :=
  (((body.boundaryOpen num).append (fileHead basename name ctype path)).copyFrom
    input).boundaryClose
    num

/-- `php_http_message_body_append` as a callback -/
def appendCallback : PassCallback MessageBody := fun body buf => (true, body.append buf)

/-- `php_http_message_body_add_part` -/
def addPart (num : UInt32 × UInt32) (body : MessageBody) (message : OutgoingMessage) :
    MessageBody :=
  (messageToCallback message appendCallback (body.boundaryOpen num)).boundaryClose num

end MessageBody

/-- A call on a body, with what the random generator would give in it. -/
def AddCall.run (basename : Bytes → Bytes) (body : MessageBody)
    (call : (UInt32 × UInt32) × AddCall) :
    MessageBody :=
  match call.2 with
  | .formField name value => body.addFormField call.1 name value
  | .formFile name ctype path input => body.addFormFile basename call.1 name ctype path input
  | .part message => body.addPart call.1 message

/-- The text of a part as the call contributes it. -/
def AddCall.text (basename : Bytes → Bytes) : AddCall → Bytes
  | .formField name value => MessageBody.fieldHead name ++ value
  | .formFile name ctype path input => MessageBody.fileHead basename name ctype path ++ input
  | .part message => messageText message

/-- A multipart body up to the dashes that close it. -/
def multipartOpen (boundary : Bytes) (parts : List Bytes) : Bytes :=
  (parts.map fun p => dashes ++ boundary ++ crlf ++ p ++ crlf).flatten ++ dashes ++ boundary

/-- A multipart body. -/
def multipart (boundary : Bytes) (parts : List Bytes) : Bytes :=
  multipartOpen boundary parts ++ dashes ++ crlf

/-- The body consists of these parts. -/
structure MessageBody.Holds (body : MessageBody) (boundary : CString) (parts : List Bytes) :
    Prop where
  boundary_eq : body.boundary = some boundary
  data_eq : body.stream.data = multipart boundary.bytes parts

theorem multipart_concat (boundary : Bytes) (parts : List Bytes) (p : Bytes) :
    multipart boundary (parts ++ [p]) =
      multipartOpen boundary parts ++ crlf ++ p ++ crlf ++ dashes ++ boundary ++ dashes ++
        crlf := by
  simp [multipart, multipartOpen, List.append_assoc]

namespace MessageBody

/-- A part lies open at the end of the body, behind others. -/
structure Opened (body : MessageBody) (boundary : CString) (parts : List Bytes) (part : Bytes) :
    Prop where
  boundary_eq : body.boundary = some boundary
  data_eq : body.stream.data = multipartOpen boundary.bytes parts ++ crlf ++ part

variable {body : MessageBody} {boundary : CString} {parts : List Bytes} {part : Bytes}

theorem Opened.append (h : body.Opened boundary parts part) (buf : Bytes) :
    (body.append buf).Opened boundary parts (part ++ buf) :=
  ⟨h.boundary_eq, by rw [append_data, h.data_eq, List.append_assoc]⟩

theorem Opened.copyFrom (h : body.Opened boundary parts part) (hend : body.stream.AtEnd)
    (input : Bytes) : (body.copyFrom input).Opened boundary parts (part ++ input) :=
  ⟨h.boundary_eq, by rw [copyFrom_data hend, h.data_eq, List.append_assoc]⟩

theorem Opened.message (h : body.Opened boundary parts part) (out : OutgoingMessage) :
    (messageToCallback out appendCallback body).Opened boundary parts (part ++ messageText out) :=
  messageToCallback_invariant (I := fun (b : MessageBody) p => b.Opened boundary parts p)
    (fun _ _ buf hb => ⟨rfl, hb.append buf⟩) h out

/-- Opening a closed multipart cuts off its last dashes and the end of line behind them. -/
theorem Holds.boundaryOpen (h : body.Holds boundary parts) (num : UInt32 × UInt32) :
    (body.boundaryOpen num).Opened boundary parts [] := by
  have hcut : body.stream.data = multipartOpen boundary.bytes parts ++ (dashes ++ crlf) := by
    rw [h.data_eq, multipart, List.append_assoc]
  have hlength : body.size = (multipartOpen boundary.bytes parts).length +
      (dashes ++ crlf).length := by
    rw [size, hcut, List.length_append]
  have hsize : body.size ≠ 0 := by
    rw [hlength]
    simp [dashes]
  have hopen : openSize body.size = (multipartOpen boundary.bytes parts).length := by
    rw [openSize, if_pos (by omega)]
    omega
  rw [MessageBody.boundaryOpen, if_pos hsize, hopen]
  refine ⟨h.boundary_eq, ?_⟩
  rw [append_data, List.append_nil]
  exact congrArg (· ++ crlf) (SeekStream.truncate_append hcut nul)

theorem getBoundary_boundary (body : MessageBody) (num : UInt32 × UInt32) :
    (body.getBoundary num).2.boundary = some (body.getBoundary num).1 := by
  unfold getBoundary
  cases h : body.boundary with
  | none => rfl
  | some boundary => exact h

theorem getBoundary_stream (body : MessageBody) (num : UInt32 × UInt32) :
    (body.getBoundary num).2.stream = body.stream := by
  unfold getBoundary
  cases h : body.boundary <;> rfl

theorem getBoundary_some (h : body.boundary = some boundary) (num : UInt32 × UInt32) :
    body.getBoundary num = (boundary, body) := by
  rw [getBoundary, h]

theorem boundaryOpen_empty (h : body.stream.data = []) (num : UInt32 × UInt32) :
    (body.boundaryOpen num).Opened (body.getBoundary num).1 [] [] := by
  have hsize : ¬ body.size ≠ 0 := not_not.mpr (List.length_eq_zero_iff.mpr h)
  rw [MessageBody.boundaryOpen, if_neg hsize]
  refine ⟨getBoundary_boundary body num, ?_⟩
  rw [append_data, getBoundary_stream, h]
  simp [multipartOpen]

theorem Opened.boundaryClose (h : body.Opened boundary parts part) (num : UInt32 × UInt32) :
    (body.boundaryClose num).Holds boundary (parts ++ [part]) := by
  rw [MessageBody.boundaryClose, getBoundary_some h.boundary_eq]
  refine ⟨h.boundary_eq, ?_⟩
  rw [append_data, h.data_eq, multipart_concat]
  simp only [List.append_assoc]

end MessageBody

open MessageBody

/-- Once a multipart is open, every call puts its text there and closes it. -/
theorem AddCall.run_opened (basename : Bytes → Bytes) {body : MessageBody}
    (call : (UInt32 × UInt32) × AddCall) {boundary : CString} {parts : List Bytes}
    (h : (body.boundaryOpen call.1).Opened boundary parts []) :
    (AddCall.run basename body call).Holds boundary (parts ++ [call.2.text basename]) := by
  obtain ⟨num, call⟩ := call
  cases call with
  | formField name value => exact ((h.append (fieldHead name)).append value).boundaryClose num
  | formFile name ctype path input =>
    have hend := append_atEnd (body.boundaryOpen num) (fileHead basename name ctype path)
    exact ((h.append (fileHead basename name ctype path)).copyFrom hend input).boundaryClose num
  | part message => exact (h.message message).boundaryClose num

theorem MessageBody.Holds.calls (basename : Bytes → Bytes) {body : MessageBody} {boundary : CString}
    {parts : List Bytes} (h : body.Holds boundary parts)
    (calls : List ((UInt32 × UInt32) × AddCall)) :
    (calls.foldl (AddCall.run basename) body).Holds boundary
      (parts ++ calls.map fun call => call.2.text basename) := by
  induction calls generalizing body parts with
  | nil => simpa using h
  | cons call calls ih =>
    have hnext := ih (AddCall.run_opened basename call (h.boundaryOpen call.1))
    rwa [List.append_assoc] at hnext

/-- Whatever is added to an empty body, the body is the multipart of exactly these texts, between
the boundary it has had from the first call on. -/
theorem addCalls_multipart (basename : Bytes → Bytes) (body : MessageBody)
    (hempty : body.stream.data = []) (call : (UInt32 × UInt32) × AddCall) :
    ∃ boundary : CString, ∀ calls : List ((UInt32 × UInt32) × AddCall),
      let out := (call :: calls).foldl (AddCall.run basename) body
      out.boundary = some boundary ∧
        out.stream.data = multipart boundary.bytes ((call :: calls).map fun c =>
          c.2.text basename) := by
  refine ⟨(body.getBoundary call.1).1, fun calls => ?_⟩
  have hfirst := AddCall.run_opened basename call (boundaryOpen_empty hempty call.1)
  have hall := hfirst.calls basename calls
  exact ⟨hall.boundary_eq, hall.data_eq⟩

/-- A new body that gets a field first. -/
theorem addCalls_multipart_field :
    ∃ boundary : CString, ∀ calls : List ((UInt32 × UInt32) × AddCall),
      let first : (UInt32 × UInt32) × AddCall := ((1, 2), .formField (ascii "a") [nul])
      let out := (first :: calls).foldl (AddCall.run id) ⟨⟨[], 0⟩, none⟩
      out.boundary = some boundary ∧
        out.stream.data = multipart boundary.bytes ((first :: calls).map fun c => c.2.text id) :=
  addCalls_multipart id ⟨⟨[], 0⟩, none⟩ rfl ((1, 2), .formField (ascii "a") [nul])

end ExtHttp
