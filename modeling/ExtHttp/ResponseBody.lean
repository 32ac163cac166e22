import ExtHttp.ResponseCalls

/-!
# The bytes of a response

What operations that take every write get to see: the body, its ranges, or what an encoder makes of
it, whatever the size of the chunks is.
-/
namespace ExtHttp

namespace BodyEncoder
variable {ε : Type} (E : BodyEncoder ε)

/-- All that an encoder gives for some pieces and their end, at which it does give something. -/
def run : ε → List Bytes → Option Bytes
  | e, [] => (E.finish e).bind Prod.snd
  | e, buf :: bufs => (E.update e buf).bind fun o => (run o.1 bufs).map fun out =>
    o.2.getD [] ++ out

/-- Whatever the pieces are, the encoder takes them, and decoding gives them back. -/
def Encodes (decode : Bytes → Option Bytes) (e : ε) : Prop :=
  ∀ bufs : List Bytes, ∃ out, E.run e bufs = some out ∧ decode out = some bufs.flatten

end BodyEncoder

/-- A range of a body: its ends are integers of PHP. -/
structure ByteRange (body : MessageBody) where
  first : ℕ
  last : ℕ
  first_le : first ≤ last
  last_lt : last < body.size
  last_long : last < 2 ^ 63

namespace ByteRange
variable {body : MessageBody}

/-- The array that stands for the range. -/
def ends (g : ByteRange body) : List ℤ := [(g.first : ℤ), (g.last : ℤ)]

/-- `body[first..last]` -/
def slice (g : ByteRange body) : Bytes :=
  (body.stream.data.drop g.first).take (g.last + 1 - g.first)

theorem forlen_eq (g : ByteRange body) :
    (((g.last : ℤ) - g.first + 1) % 2 ^ 64).toNat = g.last + 1 - g.first := by
  have := g.first_le
  have := g.last_long
  omega

end ByteRange

/-- The bytes that have been written. -/
def emitted (log : List (StreamOp × Bool)) : Bytes :=
  log.flatMap fun
    | (.write data, true) => data
    | _ => []

@[simp] theorem emitted_append (log log' : List (StreamOp × Bool)) :
    emitted (log ++ log') = emitted log ++ emitted log' := List.flatMap_append ..

/-- Operations that take every write, with what has been written in each of their states. -/
structure TakesWrites {σ : Type} (ops : ResponseOps σ) (I : σ → Bytes → Prop) : Prop where
  write : ∀ s done buf, I s done → (ops.step s (.write buf)).1 = true ∧
    I (ops.step s (.write buf)).2 (done ++ buf)
  flush : ∀ s done, I s done → I (ops.step s .flush).2 done

/-- The record of operations whose writes succeed tells what has been written. -/
theorem takesWrites_recorded {σ : Type} {ops : ResponseOps σ}
    (hwrites : ∀ s data, (ops.step s (.write data)).1 = true) :
    TakesWrites ops.recorded fun s done => emitted s.2 = done where
  write s done data h := by
    refine ⟨hwrites s.1 data, ?_⟩
    simp [ResponseOps.recorded, Operations.record, hwrites, emitted, ← h]
  flush s done h := by
    cases hflush : (ops.step s.1 .flush).1 <;>
      simp [ResponseOps.recorded, Operations.record, emitted, ← h]

namespace Response
variable {σ ε : Type} {L : ResponseLib ε} {ops : ResponseOps σ} {I : σ → Bytes → Prop}
    {r₀ r : Response σ ε}
  {out : Bytes}

/-- A response has taken bytes since it was `r₀`: they have been written or are in its buffer, in
their order. -/
structure Passed (I : σ → Bytes → Prop) (r₀ r : Response σ ε) (out : Bytes) : Prop where
  same : r = { r₀ with buffer := r.buffer, state := r.state, encoder := r.encoder }
  bytes : ∃ written, I r.state written ∧ written ++ r.buffer.getD [] = out

theorem pushOut_takes (htakes : TakesWrites ops I) (throttled : Bool) (s : σ) (done buf : Bytes)
    (h : I s done) :
    (pushOut ops throttled s buf).1 = true ∧ I (pushOut ops throttled s buf).2 (done ++ buf) := by
  obtain ⟨hok, hwritten⟩ := htakes.write s done buf h
  rw [pushOut, if_pos hok]
  cases throttled with
  | false => exact ⟨rfl, hwritten⟩
  | true => exact ⟨rfl, htakes.flush _ _ hwritten⟩

namespace Passed

theorem with_encoder (h : Passed I r₀ r out) (encoder : Option ε) :
    Passed I r₀ { r with encoder := encoder } out := by
  refine ⟨?_, h.bytes⟩
  rw [h.same]

theorem appendf (h : Passed I r₀ r out) (text : Bytes) :
    Passed I r₀ (r.appendf text) (out ++ text) := by
  obtain ⟨written, hI, hout⟩ := h.bytes
  refine ⟨?_, written, hI, ?_⟩
  · rw [Response.appendf, h.same]
  · change written ++ (r.buffer.getD [] ++ text) = out ++ text
    rw [← List.append_assoc, hout]

theorem output (htakes : TakesWrites ops I) (h : Passed I r₀ r out) (data : Bytes)
    (buf : Option Bytes) :
    (r.output ops data buf).1 = true ∧ Passed I r₀ (r.output ops data buf).2 (out ++ data) ∧
      (r.output ops data buf).2.encoder = r.encoder ∧
        (buf = none → (r.output ops data buf).2.buffer = none) := by
  obtain ⟨written, hI, hout⟩ := h.bytes
  obtain ⟨hok, hfree, sent, hsent, hI'⟩ := chunkedOutput_invariant (pushOut ops r.throttled)
    (pushOut_takes htakes r.throttled) r.buffer data
    (if buf.isSome then (if r.chunk ≠ 0 then r.chunk else sendbufSize) else 0) hI
  refine ⟨hok, ⟨?_, sent, hI', ?_⟩, rfl, ?_⟩
  · rw [Response.output, h.same]
  · rw [← hout, List.append_assoc]
    exact hsent
  · intro hbuf
    subst hbuf
    exact hfree rfl

/-- Without an encoder every byte goes to the buffer and through it. -/
theorem sendData (htakes : TakesWrites ops I) (h : Passed I r₀ r out) (hencoder : r.encoder = none)
    (buf : Option Bytes) :
    (r.sendData L ops buf).1 = true ∧ Passed I r₀ (r.sendData L ops buf).2 (out ++ buf.getD []) ∧
      (r.sendData L ops buf).2.encoder = none ∧
        (buf = none → (r.sendData L ops buf).2.buffer = none) := by
  have hplain : r.sendData L ops buf = r.output ops (buf.getD []) buf := by
    rw [Response.sendData, hencoder]
  obtain ⟨hok, hpassed, hsame, hfree⟩ := h.output htakes (buf.getD []) buf
  rw [hplain]
  exact ⟨hok, hpassed, hsame.trans hencoder, hfree⟩

/-- With one, it is what the encoder gives. -/
theorem sendData_encoded (htakes : TakesWrites ops I) (h : Passed I r₀ r out) {e e' : ε}
    (hencoder : r.encoder = some e) (buf : Option Bytes) {str : Option Bytes}
    (he : buf.elim (L.encoding.finish e) (L.encoding.update e) = some (e', str)) :
    (r.sendData L ops buf).1 = true ∧ Passed I r₀ (r.sendData L ops buf).2 (out ++ str.getD []) ∧
      (r.sendData L ops buf).2.encoder = some e' ∧
      (buf = none → str.isSome = true → (r.sendData L ops buf).2.buffer = none) := by
  have hkept := h.with_encoder (some e')
  cases str with
  | none =>
    have hdata : r.sendData L ops buf = (true, { r with encoder := some e' }) := by
      rw [Response.sendData, hencoder]
      dsimp only
      rw [he]
    rw [hdata, Option.getD_none, List.append_nil]
    exact ⟨rfl, hkept, rfl, by simp⟩
  | some str =>
    have hdata : r.sendData L ops buf = { r with encoder := some e' }.output ops str buf := by
      rw [Response.sendData, hencoder]
      dsimp only
      rw [he]
    obtain ⟨hok, hpassed, hsame, hfree⟩ := hkept.output htakes str buf
    rw [hdata]
    exact ⟨hok, hpassed, hsame, fun hbuf _ => hfree hbuf⟩

/-! ### Ranges -/

/-- A range of the body arrives piece by piece. -/
theorem sendRange (htakes : TakesWrites ops I) (h : Passed I r₀ r out) (hencoder : r.encoder = none)
    {body : MessageBody} (g : ByteRange body) :
    (r.sendRange L ops body g.first g.last).1 = true ∧
      Passed I r₀ (r.sendRange L ops body g.first g.last).2 (out ++ g.slice) ∧
      (r.sendRange L ops body g.first g.last).2.encoder = none := by
  have hforlen : g.last + 1 - g.first ≠ 0 := by
    have := g.first_le
    omega
  rw [Response.sendRange, g.forlen_eq, Int.toNat_natCast]
  refine MessageBody.toCallback_invariant (I := fun r done => Passed I r₀ r done ∧ r.encoder = none)
    (fun r done buf hr => ?_) ⟨h, hencoder⟩ body g.first hforlen
  obtain ⟨-, hpassed, hnone, -⟩ := hr.1.sendData (L := L) htakes hr.2 (some buf)
  exact ⟨rfl, hpassed, hnone⟩

theorem rangeHead (h : Passed I r₀ r out) (first last : ℤ) :
    r.rangeHead first last = r₀.rangeHead first last := by
  rw [h.same]
  rfl

theorem rangeEnd (h : Passed I r₀ r out) : r.rangeEnd = r₀.rangeEnd := by
  rw [h.same]
  rfl

end Passed

/-- The part of a range in a `multipart/byteranges` message. -/
def rangePart (r : Response σ ε) {body : MessageBody} (g : ByteRange body) : Bytes :=
  r.rangeHead g.first g.last ++ g.slice

/-- The message for ranges: one of them comes as it is, several come in parts. -/
def rangesText (r : Response σ ε) {body : MessageBody} : List (ByteRange body) → Bytes
  | [g] => g.slice
  | gs => (gs.map r.rangePart).flatten ++ r.rangeEnd

namespace Passed

/-- One part after the other. -/
theorem sendParts (htakes : TakesWrites ops I) (h : Passed I r₀ r out) (hencoder : r.encoder = none)
    {body : MessageBody} (gs : List (ByteRange body)) :
    let o := (gs.map ByteRange.ends).foldl (Response.sendPart L ops body) (true, r)
    o.1 = true ∧ Passed I r₀ o.2 (out ++ (gs.map r₀.rangePart).flatten) ∧ o.2.encoder = none := by
  induction gs generalizing r out with
  | nil => exact ⟨rfl, by simpa using h, hencoder⟩
  | cons g gs ih =>
    obtain ⟨hok, hpart, hnone⟩ := (h.appendf (r.rangeHead g.first g.last)).sendRange
      (L := L) htakes hencoder g
    have hstep : Response.sendPart L ops body (true, r) g.ends =
        (true, ((r.appendf (r.rangeHead g.first g.last)).sendRange L ops body g.first g.last).2) :=
          Prod.ext hok rfl
    rw [List.append_assoc, h.rangeHead] at hpart
    rw [List.map_cons, List.foldl_cons, hstep, List.map_cons, List.flatten_cons,
      ← List.append_assoc]
    rw [h.rangeHead] at hnone ⊢
    exact ih hpart hnone

/-- All that is sent of ranges. -/
theorem sendRanges (htakes : TakesWrites ops I) (h : Passed I r₀ r out)
    (hencoder : r.encoder = none) {body : MessageBody} {gs : List (ByteRange body)} (hgs : gs ≠ [])
    (hranges : r.ranges = gs.map ByteRange.ends) :
    (r.sendRanges L ops body).1 = true ∧
      Passed I r₀ (r.sendRanges L ops body).2 (out ++ r₀.rangesText gs) ∧
      (r.sendRanges L ops body).2.buffer = none := by
  cases gs with
  | nil => exact absurd rfl hgs
  | cons g gs =>
    cases gs with
    | nil =>
      obtain ⟨hok, hslice, hnone⟩ := h.sendRange (L := L) htakes hencoder g
      have hone : r.sendRanges L ops body =
          andThen (r.sendRange L ops body g.first g.last) (sendDone L ops) := by
        rw [Response.sendRanges, hranges]
        rfl
      rw [hone, andThen, if_pos hok]
      obtain ⟨hdone, hpassed, -, hfree⟩ := hslice.sendData (L := L) htakes hnone none
      rw [Option.getD_none, List.append_nil] at hpassed
      exact ⟨hdone, hpassed, hfree rfl⟩
    | cons g' gs =>
      obtain ⟨hok, hparts, hnone⟩ := h.sendParts (L := L) htakes hencoder (g :: g' :: gs)
      have hseveral : r.sendRanges L ops body =
          andThen (((g :: g' :: gs).map ByteRange.ends).foldl (sendPart L ops body)
            (true, r)) fun r =>
            (r.appendf r.rangeEnd).sendDone L ops := by
        rw [Response.sendRanges, hranges]
        rfl
      rw [hseveral, andThen, if_pos hok, hparts.rangeEnd]
      obtain ⟨hdone, hpassed, -, hfree⟩ :=
        (hparts.appendf r₀.rangeEnd).sendData (L := L) htakes hnone none
      rw [Option.getD_none, List.append_nil, List.append_assoc] at hpassed
      exact ⟨hdone, hpassed, hfree rfl⟩

/-! ### The whole body -/

theorem sendAll (htakes : TakesWrites ops I) (h : Passed I r₀ r out) (hencoder : r.encoder = none)
    {body : MessageBody} (hsize : body.size < 2 ^ 64) :
    (andThen (body.toCallback (sendCallback L ops) r 0 0) (sendDone L ops)).1 = true ∧
      Passed I r₀ (andThen (body.toCallback (sendCallback L ops) r 0 0) (sendDone L ops)).2
        (out ++ body.stream.data) ∧
      (andThen (body.toCallback (sendCallback L ops) r 0 0) (sendDone L ops)).2.buffer = none := by
  have hcall : ∀ r done buf, (Passed I r₀ r done ∧ r.encoder = none) →
      (sendCallback L ops r buf).1 = true ∧
      Passed I r₀ (sendCallback L ops r buf).2 (done ++ buf) ∧
        (sendCallback L ops r buf).2.encoder = none := by
    intro r done buf hr
    obtain ⟨-, hpassed, hnone, -⟩ := hr.1.sendData (L := L) htakes hr.2 (some buf)
    exact ⟨rfl, hpassed, hnone⟩
  obtain ⟨hok, hall, hnone⟩ := MessageBody.toCallback_all hcall ⟨h, hencoder⟩ hsize
  rw [andThen, if_pos hok]
  obtain ⟨hdone, hpassed, -, hfree⟩ := hall.sendData (L := L) htakes hnone none
  rw [Option.getD_none, List.append_nil] at hpassed
  exact ⟨hdone, hpassed, hfree rfl⟩

/-- The pieces go through the encoder, and what it gives goes on. -/
theorem sendPieces (htakes : TakesWrites ops I) (h : Passed I r₀ r out) {e : ε}
    (hencoder : r.encoder = some e) {bufs : List Bytes} {text : Bytes}
    (hrun : L.encoding.run e bufs = some text) :
    (andThen (passAll (sendCallback L ops) r bufs) (sendDone L ops)).1 = true ∧
      Passed I r₀ (andThen (passAll (sendCallback L ops) r bufs) (sendDone L ops)).2 (out ++ text) ∧
      (andThen (passAll (sendCallback L ops) r bufs) (sendDone L ops)).2.buffer = none := by
  induction bufs generalizing r out e text with
  | nil =>
    obtain ⟨⟨e', str⟩, he, hstr⟩ := Option.bind_eq_some_iff.mp hrun
    obtain ⟨hok, hpassed, -, hfree⟩ := h.sendData_encoded htakes hencoder none he
    rw [show str = some text from hstr] at hpassed hfree
    exact ⟨hok, hpassed, hfree rfl rfl⟩
  | cons buf bufs ih =>
    obtain ⟨⟨e', str⟩, he, hmore⟩ := Option.bind_eq_some_iff.mp hrun
    obtain ⟨rest, hrest, rfl⟩ := Option.map_eq_some_iff.mp hmore
    obtain ⟨-, hpassed, hkept, -⟩ := h.sendData_encoded htakes hencoder (some buf) he
    have hpass : passAll (sendCallback L ops) r (buf :: bufs) =
        passAll (sendCallback L ops) (r.sendData L ops (some buf)).2 bufs := by
      rw [passAll]
      rfl
    rw [hpass, ← List.append_assoc]
    exact ih hpassed hkept hrest

/-- An encoded body is one that decodes to the body. -/
theorem sendEncoded (htakes : TakesWrites ops I) (h : Passed I r₀ r out) {e : ε}
    (hencoder : r.encoder = some e) {decode : Bytes → Option Bytes}
    (hencodes : L.encoding.Encodes decode e) {body : MessageBody} (hsize : body.size < 2 ^ 64) :
    ∃ text, decode text = some body.stream.data ∧
      (andThen (body.toCallback (sendCallback L ops) r 0 0) (sendDone L ops)).1 = true ∧
      Passed I r₀ (andThen (body.toCallback (sendCallback L ops) r 0 0) (sendDone L ops)).2
        (out ++ text) ∧
      (andThen (body.toCallback (sendCallback L ops) r 0 0) (sendDone L ops)).2.buffer = none := by
  obtain ⟨bufs, hbufs, hpieces⟩ := MessageBody.toCallbackLoop_pieces (sendCallback L ops) r
    (2 ^ 64 - 1) (body.stream.seek 0).rest
  have hdata : bufs.flatten = body.stream.data := by
    rw [hbufs]
    exact List.take_of_length_le
      (by rw [MessageBody.size] at hsize; simp [SeekStream.rest, SeekStream.seek]; omega)
  obtain ⟨text, hrun, hdecode⟩ := hencodes bufs
  rw [hdata] at hdecode
  rw [MessageBody.toCallback, if_pos rfl, hpieces]
  exact ⟨text, hdecode, h.sendPieces htakes hencoder hrun⟩

theorem written (h : Passed I r₀ r out) (hbuffer : r.buffer = none) : I r.state out := by
  obtain ⟨written, hI, hout⟩ := h.bytes
  rw [hbuffer, Option.getD_none, List.append_nil] at hout
  exact hout ▸ hI

theorem throttle (h : I r.state out) (hbuffer : r.buffer = some []) :
    Passed I r.throttle r.throttle out :=
  ⟨rfl, out, h, by simp [Response.throttle, hbuffer]⟩

end Passed

/-- Two responses make the same message of ranges. -/
structure SameParts (r r' : Response σ ε) : Prop where
  contentType : r'.contentType = r.contentType
  contentLength : r'.contentLength = r.contentLength
  boundary : r'.boundary = r.boundary

theorem SameParts.rangesText_eq {r' : Response σ ε} (h : SameParts r r') {body : MessageBody}
    (gs : List (ByteRange body)) : r'.rangesText gs = r.rangesText gs := by
  have hhead : ∀ first last : ℤ, r'.rangeHead first last =
      r.rangeHead first last := fun first last => by
    rw [rangeHead, rangeHead, h.contentType, h.contentLength, h.boundary]
  have hpart : (r'.rangePart : ByteRange body → Bytes) = r.rangePart := by
    funext g
    rw [rangePart, rangePart, hhead]
  have hend : r'.rangeEnd = r.rangeEnd := by rw [rangeEnd, rangeEnd, h.boundary]
  cases gs with
  | nil => exact hend
  | cons g gs =>
    cases gs with
    | nil => rfl
    | cons g' gs => rw [rangesText, rangesText, hpart, hend] <;> simp

/-- A response that has the ranges sends them. -/
theorem sendBody_ranges_taken (htakes : TakesWrites ops I) (L : ResponseLib ε) (h : I r.state out)
    (hbuffer : r.buffer = some []) (hdone : r.done = false) (hencoder : r.encoder = none)
    {body : MessageBody} (hbody : r.options.body = some body) (hstatus : r.rangeStatus = .ok)
    {gs : List (ByteRange body)} (hgs : gs ≠ []) (hranges : r.ranges = gs.map ByteRange.ends) :
    (r.sendBody L ops).1 = true ∧ I (r.sendBody L ops).2.state (out ++ r.rangesText gs) ∧
      SameParts r (r.sendBody L ops).2 := by
  have hpassed := Passed.throttle h hbuffer
  obtain ⟨hok, hsent, hfree⟩ := hpassed.sendRanges (L := L) htakes hencoder hgs hranges
  have hsend : r.sendBody L ops = ((r.throttle.sendRanges L ops body).1,
      { (r.throttle.sendRanges L ops body).2 with ranges := [] }) := by
    rw [sendBody, if_neg (by simp [hdone]), hbody]
    exact if_pos hstatus
  have hthrottle : SameParts r r.throttle := ⟨rfl, rfl, rfl⟩
  rw [hsend, ← hthrottle.rangesText_eq gs]
  refine ⟨hok, hsent.written hfree, ?_, ?_, ?_⟩ <;> dsimp only <;> rw [hsent.same] <;> rfl

/-- The bytes that a response emits for ranges of its body are those of the ranges, however they are
cut into chunks on their way. -/
theorem sendBody_ranges (L : ResponseLib ε) {ops : ResponseOps σ}
    (hwrites : ∀ s data, (ops.step s (.write data)).1 = true)
    (r : Response (σ × List (StreamOp × Bool)) ε) {body : MessageBody} {gs : List (ByteRange body)}
    (hgs : gs ≠ []) (hdone : r.done = false) (hbody : r.options.body = some body)
    (hstatus : r.rangeStatus = .ok) (hranges : r.ranges = gs.map ByteRange.ends)
    (hencoder : r.encoder = none) (hbuffer : r.buffer = some []) :
    let o := r.sendBody L ops.recorded
    o.1 = true ∧ emitted o.2.state.2 = emitted r.state.2 ++ r.rangesText gs := by
  obtain ⟨hok, hsent, -⟩ := sendBody_ranges_taken (takesWrites_recorded hwrites)
    L rfl hbuffer hdone hencoder hbody hstatus hgs hranges
  exact ⟨hok, hsent⟩

/-- Two ranges of a body, sent in chunks of three bytes. -/
theorem sendBody_ranges_example :
    let body : MessageBody := ⟨⟨ascii "0123456789", 0⟩, none⟩
    let gs : List (ByteRange body) :=
      [⟨0, 1, by decide, by decide, by decide⟩, ⟨5, 9, by decide, by decide, by decide⟩]
    let r : Response (Unit × List (StreamOp × Bool)) Unit :=
      { responseInit Unit { plainOptions (some body) with throttleChunk := 3 } ((), []) with
        rangeStatus := .ok, ranges := gs.map ByteRange.ends, boundary :=
          ⟨ascii "b", by decide⟩, contentLength := 10 }
    let ops : ResponseOps Unit := ⟨fun s _ => (true, s), fun _ => 206⟩
    let o := r.sendBody plainResponseLib ops.recorded
    o.1 = true ∧ emitted o.2.state.2 = emitted r.state.2 ++ r.rangesText gs :=
  sendBody_ranges plainResponseLib (fun _ _ => rfl) _ (by simp) rfl rfl rfl rfl rfl rfl

end Response

end ExtHttp
