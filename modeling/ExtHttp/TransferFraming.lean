import ExtHttp.LengthFraming

/-!
# Framing by Transfer-Encoding

Transfer-Encoding is deleted whenever it is there, and the body is read through the dechunk stream
only if the value is one certain string.
-/
namespace ExtHttp
open BufferLoop

variable {Url : Type} {E : Engine Url} {call : MessageCall}

/-- The last transfer coding of a list of values, in lower case. -/
def lastCoding (vs : List Bytes) : Option Bytes :=
  vs.getLast?.map fun v => (trim (v.rtakeWhile (· ≠ comma))).map toLower

example : lastCoding [ascii "gzip", ascii "br , Chunked "] = some (ascii "chunked") := by decide

/-- The turn deletes Transfer-Encoding only to read the body through the dechunk stream, it does so
when the last of the codings `vs` is `chunked`, and it does not leave the message without a body. -/
structure TransferDecoded (t : MessageTurn Url) (vs : List Bytes) : Prop where
  deleted : (∀ m ∈ t.state.parser.message.head?, m.hdrs.find (ascii "Transfer-Encoding") = none) →
    t.state.parser.state = .bodyChunked
  chunked : lastCoding vs = some (ascii "chunked") → t.state.parser.state = .bodyChunked
  body : t.state.parser.state ≠ .done ∧ t.state.parser.state ≠ .bodyDone

theorem framing_transferEncoding (E : Engine Url) (hdrs : Headers) :
    (framing E hdrs).1.find (ascii "Transfer-Encoding") = none := by
  have hne : ascii "Content-Length" ≠ ascii "Transfer-Encoding" ∧
      ascii "X-Original-Content-Length" ≠ ascii "Transfer-Encoding" := by decide
  unfold framing
  split
  · simp [hne.1]
  · next h => split <;> simp [hne.2, h]

/-- The headers that are written behind the framing are those of ranges and compression. -/
theorem messageHeaderDone_find (E : Engine Url) (call : MessageCall) (mp : MessageParser Url)
    (m : Message Url) (key : Bytes) (hrange : ascii "Content-Range" ≠ key)
    (hencoding : ascii "X-Original-Content-Encoding" ≠ key ∧ ascii "Content-Encoding" ≠ key) :
    (messageHeaderDone E call mp m).2.1.hdrs.find key = (framing E m.hdrs).1.find key := by
  unfold messageHeaderDone
  generalize framing E m.hdrs = f
  obtain ⟨hdrs, chunked, contentLength⟩ := f
  dsimp only
  generalize (hdrs.find (ascii "Content-Range")).map HeaderValue.join = range
  have hkept : (range.elim hdrs fun v =>
      hdrs.update (ascii "Content-Range") (.scalar (.str v))).find key = hdrs.find key := by
    cases range with
    | none => rfl
    | some v => rw [Option.elim_some, Headers.find_update, if_neg hrange]
  have hlast := (contentEncoding_find (range.elim hdrs fun v =>
    hdrs.update (ascii "Content-Range") (.scalar (.str v))) mp.inflate hencoding).trans hkept
  split
  · exact hkept
  · split
    · exact hlast
    · split
      · exact hlast
      · split
        · exact hlast
        · split <;> exact hlast

theorem messageHeaderDone_transferEncoding (E : Engine Url) (call : MessageCall)
    (mp : MessageParser Url) (m : Message Url) :
    (messageHeaderDone E call mp m).2.1.hdrs.find (ascii "Transfer-Encoding") = none :=
  (messageHeaderDone_find E call mp m _ (by decide) (by decide)).trans
    (framing_transferEncoding E m.hdrs)

theorem formatLong_ne_chunked (n : ℤ) : formatLong n ≠ ascii "chunked" := by
  have hdigit : ∀ n : ℕ, formatLong n ≠ ascii "chunked" := by
    intro n h
    have hc := formatLong_isDigit n 99
    rw [h] at hc
    exact absurd (hc (by decide)) (by decide)
  cases n with
  | ofNat n => exact hdigit n
  | negSucc n =>
    intro h
    have hminus : formatLong (Int.negSucc n) = ascii ("-" ++ toString (n + 1)) := rfl
    rw [hminus, ascii, String.toList_append, List.map_append] at h
    exact absurd (congrArg List.head? h) (by simp [ascii])

theorem toStr_eq_chunked {h : HeaderValue} :
    h.toStr = ascii "chunked" ↔ h = .scalar (.str (ascii "chunked")) := by
  constructor
  · intro hstr
    match h with
    | .scalar (.str v) => exact congrArg (fun v => HeaderValue.scalar (.str v)) hstr
    | .scalar (.long n) => exact absurd hstr (formatLong_ne_chunked n)
    | .scalar (.bool b) =>
      revert hstr
      cases b <;> decide
    | .array vs => exact absurd (show ascii "Array" = ascii "chunked" from hstr) (by decide)
  · rintro rfl
    rfl

/-- Transfer-Encoding is handled as it should be if and only if it is one value, and that value is
`chunked` as it stands. -/
theorem transferEncoding_decoded_iff (call : MessageCall) (hdumb : call.dumbBodies = false)
    (hredirects : call.emptyRedirects = false) (c : MessageConfig Url) (m : Message Url)
    (parents : Chain Url) (hstate : c.parser.state = .headerDone)
    (hm : c.parser.message = m :: parents) (h : HeaderValue)
    (hcoding : m.hdrs.find (ascii "Transfer-Encoding") = some h) (b : Bytes) :
    TransferDecoded (messageTurn E call c b) h.strings ↔ h = .scalar (.str (ascii "chunked")) := by
  have hcall : call.Framed m := ⟨hdumb, fun hempty => by rw [hredirects] at hempty; cases hempty⟩
  obtain ⟨hto, -, hmessage⟩ := headerDone_state hstate hm b
  obtain ⟨hto', -⟩ := Prod.ext_iff.mp (messageHeaderDone_framed hcall)
  dsimp only at hto'
  rw [hto'] at hto
  have hdeleted : ∀ x ∈ (messageTurn E call c b).state.parser.message.head?,
      x.hdrs.find (ascii "Transfer-Encoding") = none := by
    rw [hmessage]
    rintro x ⟨⟩
    exact messageHeaderDone_transferEncoding E call c.parser.pop m
  have hchunked : (framing E m.hdrs).2.1 = decide (h = .scalar (.str (ascii "chunked"))) := by
    unfold framing
    rw [hcoding]
    exact decide_eq_decide.mpr toStr_eq_chunked
  unfold bodyFraming at hto
  dsimp only at hto
  rw [hchunked] at hto
  by_cases hvalue : h = .scalar (.str (ascii "chunked"))
  · rw [decide_eq_true hvalue, if_pos rfl] at hto
    refine iff_of_true ⟨fun _ => hto, fun _ => hto, ?_⟩ hvalue
    rw [hto]
    simp
  · rw [decide_eq_false hvalue, if_neg Bool.false_ne_true] at hto
    refine iff_of_false (fun hall => ?_) hvalue
    have hstream := hall.deleted hdeleted
    rw [hto] at hstream
    have hlength : ∀ n, lengthState n ≠ .bodyChunked := by
      intro n
      unfold lengthState
      split_ifs <;> simp
    generalize m.contentRange.bind (contentRangeLength call) = range at hstream
    cases range with
    | some n => exact hlength n hstream
    | none =>
      dsimp only at hstream
      split_ifs at hstream
      exact hlength _ hstream

theorem transferEncoding_decoded_example :
    TransferDecoded (messageTurn plainEngine plainCall
        (behindFields [(ascii "Transfer-Encoding", ascii "chunked")]) [])
        (HeaderValue.scalar (.str (ascii "chunked"))).strings ↔
      HeaderValue.scalar (.str (ascii "chunked")) = .scalar (.str (ascii "chunked")) :=
  transferEncoding_decoded_iff plainCall rfl rfl
    (behindFields [(ascii "Transfer-Encoding", ascii "chunked")]) _ [] rfl rfl _ (by decide) []

/-- Other spellings, other codings in front, and several fields. A request has no body then. -/
theorem transferEncoding_not_decoded :
    [[ascii "Chunked"], [ascii "gzip, chunked"], [ascii "gzip", ascii "chunked"]].Forall fun vs =>
      lastCoding vs = some (ascii "chunked") ∧
      ∀ info ∈ [none, infoParse rawUrls (ascii "POST / HTTP/1.1\r\n")],
        let c : MessageConfig Bytes := ⟨⟨[.headerDone], 0, headerParserInit, none, none,
          [⟨info, headerBlock (vs.map fun v => (ascii "Transfer-Encoding", v)), []⟩]⟩, [], 0⟩
        ¬ TransferDecoded (messageTurn plainEngine plainCall c []) vs ∧
          (info ≠ none → (messageTurn plainEngine plainCall c []).state.parser.state = .done) := by
  have hstates :
      ∀ vs ∈ [[ascii "Chunked"], [ascii "gzip, chunked"], [ascii "gzip", ascii "chunked"]],
      lastCoding vs = some (ascii "chunked") ∧
      ∀ info ∈ [none, infoParse rawUrls (ascii "POST / HTTP/1.1\r\n")],
        let c : MessageConfig Bytes := ⟨⟨[.headerDone], 0, headerParserInit, none, none,
          [⟨info, headerBlock (vs.map fun v => (ascii "Transfer-Encoding", v)), []⟩]⟩, [], 0⟩
        (messageTurn plainEngine plainCall c []).state.parser.state ≠ .bodyChunked ∧
          (info ≠ none → (messageTurn plainEngine plainCall c []).state.parser.state = .done) := by
    decide +kernel
  refine List.forall_iff_forall_mem.mpr fun vs hvs => ?_
  obtain ⟨hlast, hall⟩ := hstates vs hvs
  refine ⟨hlast, fun info hinfo => ?_⟩
  obtain ⟨hne, hdone⟩ := hall info hinfo
  exact ⟨fun h => hne (h.chunked hlast), hdone⟩

end ExtHttp
