import ExtHttp.ResponseHead

/-!
# What a response is put to

However its operations answer, a response that is sent is first told what its head says, then it
gets body data and flushes, and it is finished in the end, unless an operation that matters has
failed.
-/
namespace ExtHttp
open Operations

/-! ### Callbacks that operate -/

section
variable {σ α : Type} {step : σ → α → Bool × σ} {P H : α → Prop} {X : Prop}

theorem chunkedOutput_goes {passout : PassCallback σ}
    (hpass : ∀ s buf, Goes step P H X s (passout s buf).1 (passout s buf).2)
    (storage : Option Bytes) (data : Bytes) (chunkLen : ℕ) (s : σ) :
    Goes step P H X s (chunkedOutput passout storage data chunkLen s).1
      (chunkedOutput passout storage data chunkLen s).2.2 := by
  fun_induction chunkedOutput passout storage data chunkLen s with
  | case1 => exact .refl _
  | case2 storage data s got hgot o hfail =>
    have hout := hpass s got.1
    rwa [hfail] at hout
  | case3 storage data s got hgot o hpassed hlen =>
    have hout := hpass s got.1
    rwa [(Bool.not_eq_false _).mp hpassed] at hout
  | case4 storage data s got hgot o hpassed hlen ih =>
    have hout := hpass s got.1
    rw [(Bool.not_eq_false _).mp hpassed] at hout
    exact hout.trans ih

/-- A relation that a callback keeps from one call to the next. -/
theorem passAll_rel {τ : Type} {R : τ → τ → Prop} (hrefl : ∀ s, R s s)
    (htrans : ∀ s t u, R s t → R t u → R s u) {cb : PassCallback τ}
    (hcb : ∀ s buf, R s (cb s buf).2) (s : τ) (bufs : List Bytes) : R s (passAll cb s bufs).2 := by
  induction bufs generalizing s with
  | nil => exact hrefl s
  | cons buf bufs ih =>
    rw [passAll]
    split_ifs
    · exact htrans _ _ _ (hcb s buf) (ih _)
    · exact hcb s buf

theorem toCallback_rel {τ : Type} {R : τ → τ → Prop} (hrefl : ∀ s, R s s)
    (htrans : ∀ s t u, R s t → R t u → R s u) {cb : PassCallback τ}
    (hcb : ∀ s buf, R s (cb s buf).2) (s : τ) (body : MessageBody) (offset forlen : ℕ) :
    R s (body.toCallback cb s offset forlen).2 := by
  obtain ⟨bufs, -, hrun⟩ := MessageBody.toCallbackLoop_pieces cb s
    (if forlen = 0 then 2 ^ 64 - 1 else forlen) (body.stream.seek offset).rest
  rw [MessageBody.toCallback, hrun]
  exact passAll_rel hrefl htrans hcb s bufs

/-- A callback that never stops the body. -/
theorem toCallback_ok {τ : Type} {cb : PassCallback τ} (hcb : ∀ s buf, (cb s buf).1 = true) (s : τ)
    (body : MessageBody) (offset forlen : ℕ) : (body.toCallback cb s offset forlen).1 = true := by
  obtain ⟨bufs, -, hrun⟩ := MessageBody.toCallbackLoop_pieces cb s
    (if forlen = 0 then 2 ^ 64 - 1 else forlen) (body.stream.seek offset).rest
  rw [MessageBody.toCallback, hrun]
  clear hrun
  induction bufs generalizing s with
  | nil => rfl
  | cons buf bufs ih =>
    rw [passAll, if_pos (hcb s buf)]
    exact ih _

end

/-- The operations that a body is sent with. -/
def StreamOp.isBody : StreamOp → Bool
  | .write _ | .flush => true
  | _ => false

theorem StreamOp.unheeded_of_isBody (headers : List (ArrayKey × HeaderValue)) {o : StreamOp}
    (h : o.isBody = true) :
    o.Unheeded headers := by
  cases o with
  | write data => exact trivial
  | flush => exact trivial
  | _ => cases h

namespace Response
variable {σ ε : Type} {L : ResponseLib ε} {ops : ResponseOps σ} {request : SentRequest}
    {r r' r'' : Response σ ε}

/-! ### Steps -/

/-- An encoder cannot be made, or it does not come to its end. -/
def EncoderFails (L : ResponseLib ε) : Prop :=
  (∃ gzip, L.initEncoder gzip = none) ∨ ∃ encoder, L.encoding.finish encoder = none

/-- A step that puts the operations to something of this kind, and keeps up a relation. -/
structure Asks (L : ResponseLib ε) (ops : ResponseOps σ) (P : StreamOp → Bool)
    (K : Response σ ε → Response σ ε → Prop)
    (r : Response σ ε) (o : Bool × Response σ ε) : Prop where
  goes : Goes ops.step (fun op => P op = true) (StreamOp.Unheeded r.options.headers)
    (EncoderFails L) r.state o.1
    o.2.state
  headers : o.2.options.headers = r.options.headers
  keeps : K r o.2

/-- A relation that does not depend on the context. -/
structure Keeping (K : Response σ ε → Response σ ε → Prop) : Prop where
  state : ∀ r s, K r { r with state := s }
  trans : ∀ {r r' r''}, K r r' → K r' r'' → K r r''

namespace Asks
variable {P : StreamOp → Bool} {K : Response σ ε → Response σ ε → Prop} {o o' : Bool × Response σ ε}

theorem refl (hK : Keeping K) (r : Response σ ε) : Asks L ops P K r (true, r) :=
  ⟨.refl _, rfl, hK.state r r.state⟩

theorem op (hK : Keeping K) {op : StreamOp} (hop : P op = true) : Asks L ops P K r (r.op ops op) :=
  ⟨.op hop, rfl, hK.state r _⟩

theorem pass (hK : Keeping K) {op : StreamOp} (hop : P op = true)
    (hH : op.Unheeded r.options.headers) :
    Asks L ops P K r (true, (r.op ops op).2) := ⟨.pass hop hH, rfl, hK.state r _⟩

theorem seq (hK : Keeping K) (h : Asks L ops P K r o) (hok : o.1 = true)
    (h' : Asks L ops P K o.2 o') :
    Asks L ops P K r o' := by
  have hfirst := h.goes
  rw [hok] at hfirst
  have hsecond := h'.goes
  rw [h.headers] at hsecond
  exact ⟨hfirst.trans hsecond, h'.headers.trans h.headers, hK.trans h.keeps h'.keeps⟩

theorem andThen (hK : Keeping K) {f : Response σ ε → Bool × Response σ ε} (h : Asks L ops P K r o)
    (hf : ∀ r, Asks L ops P K r (f r)) : Asks L ops P K r (Response.andThen o f) := by
  unfold Response.andThen
  split_ifs with hok
  · exact h.seq hK hok (hf o.2)
  · exact h

/-- What is changed besides the context goes in front of a step, -/
theorem after (hK : Keeping K) (h : Asks L ops P K r' o) (hstate : r'.state = r.state)
    (hheaders : r'.options.headers = r.options.headers) (hkeeps : K r r') : Asks L ops P K r o := by
  have hgoes := h.goes
  rw [hstate, hheaders] at hgoes
  exact ⟨hgoes, h.headers.trans hheaders, hK.trans hkeeps h.keeps⟩

/-- or behind it. -/
theorem before (hK : Keeping K) (h : Asks L ops P K r (o.1, r')) (hstate : o.2.state = r'.state)
    (hheaders : o.2.options.headers = r'.options.headers) (hkeeps : K r' o.2) :
    Asks L ops P K r o := by
  have hgoes := h.goes
  dsimp only at hgoes
  rw [← hstate] at hgoes
  exact ⟨hgoes, hheaders.trans h.headers, hK.trans h.keeps hkeeps⟩

theorem fail (hK : Keeping K) (hfails : EncoderFails L) (r : Response σ ε) :
    Asks L ops P K r (false, r) :=
  ⟨.fail hfails _, rfl, hK.state r r.state⟩

end Asks

/-! ### The head -/

/-- The ranges of a response have two ends each. -/
def Paired (r : Response σ ε) : Prop := ∀ range ∈ r.ranges, ∃ first last, range = [first, last]

/-- A step on the way to a head: the operations are told what it says, and ranges keep their two
ends. -/
abbrev HeadStep (L : ResponseLib ε) (ops : ResponseOps σ) :
    Response σ ε → Bool × Response σ ε → Prop :=
  Asks L ops StreamOp.isSetter fun r r' => r.Paired → r'.Paired

theorem keeping_paired : Keeping fun r r' : Response σ ε => r.Paired → r'.Paired :=
  ⟨fun _ _ => id, fun h h' => h' ∘ h⟩

namespace HeadStep

theorem refl (r : Response σ ε) : HeadStep L ops r (true, r) := Asks.refl keeping_paired r

theorem op {o : StreamOp} (ho : o.isSetter = true) : HeadStep L ops r (r.op ops o) :=
  Asks.op keeping_paired ho

theorem andThen {o : Bool × Response σ ε} {f : Response σ ε → Bool × Response σ ε}
    (h : HeadStep L ops r o) (hf : ∀ r, HeadStep L ops r (f r)) :
    HeadStep L ops r (Response.andThen o f) := Asks.andThen keeping_paired h hf

theorem seq {o o' : Bool × Response σ ε} (h : HeadStep L ops r o) (hok : o.1 = true)
    (h' : HeadStep L ops o.2 o') :
    HeadStep L ops r o' := Asks.seq keeping_paired h hok h'

/-- What is changed besides the context goes in front of a step. -/
theorem after {o : Bool × Response σ ε} (h : HeadStep L ops r' o) (hstate : r'.state = r.state)
    (hheaders : r'.options.headers = r.options.headers) (hpaired : r.Paired → r'.Paired) :
    HeadStep L ops r o :=
  Asks.after keeping_paired h hstate hheaders hpaired

theorem missesEtag (name : Bytes) (r : Response σ ε) :
    HeadStep L ops r (true, (r.missesEtag L request name).2) :=
  ⟨.refl _, rfl, id⟩

theorem missesLastModified (name : Bytes) (r : Response σ ε) :
    HeadStep L ops r (true, (r.missesLastModified L request name).2) := by
  refine ⟨.refl _, ?_, id⟩
  unfold Response.missesLastModified SendOptions.cachedByLastModified
  cases r.options.body with
  | none => rfl
  | some body => cases getRequestHeader request.headers name <;> dsimp only <;> split_ifs <;> rfl

/-- The steps of a head are such steps. -/
theorem rule (L : ResponseLib ε) (ops : ResponseOps σ) (request : SentRequest) :
    HeadRule L ops request (fun _ => True) (HeadStep L ops) where
  op _ ho := .op (StreamOp.tells_isSetter ho)
  pass _ ho hH := Asks.pass keeping_paired (StreamOp.tells_isSetter ho) hH
  seq h hok h' := h.seq hok (h' trivial)
  keep _ := .refl _
  missesEtag name _ := missesEtag name _
  missesLastModified name _ := missesLastModified name _

theorem sendFront (L : ResponseLib ε) (ops : ResponseOps σ) (request : SentRequest)
    (r : Response σ ε) :
    HeadStep L ops r (r.sendFront L ops) := by
  have hcode : ∀ r : Response σ ε, HeadStep L ops r (r.sendResponseCode ops) := fun r => by
    unfold sendResponseCode
    split_ifs
    · exact .op rfl
    · exact .refl r
  have htype : ∀ r : Response σ ε, HeadStep L ops r (r.sendContentType ops) := fun r => by
    unfold sendContentType
    split_ifs
    · exact HeadStep.andThen (.op rfl) fun r => ⟨.refl _, rfl, id⟩
    · exact .refl r
  have hheaders : HeadStep L ops r (true, r.sendHeaders ops) :=
    (rule L ops request).sendHeaders trivial
  exact (((hheaders.seq rfl (hcode _)).andThen fun r =>
    (rule L ops request).sendVersion trivial).andThen
    fun r => (rule L ops request).sendCookies r.options.cookies trivial).andThen htype

/-- Ranges with two ends each are not what should never happen. -/
theorem sendRangeHead (L : ResponseLib ε) (ops : ResponseOps σ) (hpaired : r.Paired) :
    HeadStep L ops r (r.sendRangeHead L ops) := by
  unfold Response.sendRangeHead
  split
  · exact HeadStep.andThen (.op rfl) fun r => .op rfl
  · rename_i range hnot hranges
    obtain ⟨first, last, rfl⟩ := hpaired range (by simp [hranges])
    exact absurd rfl (hnot first last)
  · have hstatus : HeadStep L ops r ({ r with boundary := L.boundary }.op ops (.setStatus 206)) :=
      HeadStep.after (.op rfl) rfl rfl id
    exact hstatus.andThen fun r => .op rfl

theorem sendCaching (L : ResponseLib ε) (ops : ResponseOps σ) (request : SentRequest)
    (r : Response σ ε) :
    HeadStep L ops r (r.sendCaching L ops request) := by
  have hlook : HeadStep L ops r (true, (r.notModified L request).2) :=
    (rule L ops request).notModified trivial
  unfold Response.sendCaching
  split_ifs
  · dsimp only
    split_ifs
    · have hstatus : HeadStep L ops (r.notModified L request).2
          (true, ((r.notModified L request).2.op ops (.setStatus 304)).2) :=
            Asks.pass keeping_paired rfl rfl
      have hrest := (rule L ops request).sendValidators
        (r := { ((r.notModified L request).2.op ops (.setStatus 304)).2 with done := true }) trivial
      exact hlook.seq rfl (hstatus.seq rfl (hrest.after rfl rfl id))
    · exact hlook.seq rfl ((rule L ops request).sendValidators trivial)
  · exact .refl r

theorem chooseEncoding (ops : ResponseOps σ) (key : Bytes) :
    HeadStep L ops r (r.chooseEncoding L ops key) := by
  have hfail : ∀ gzip, L.initEncoder gzip = none → HeadStep L ops r (false, r) := fun gzip hnone =>
    Asks.fail keeping_paired (.inl ⟨gzip, hnone⟩) r
  have htext : ∀ (encoder : ε) (text : Bytes),
      HeadStep L ops r ({ r with encoder := some encoder }.op ops
        (.setHeader text)) := fun encoder text => by
    have hop : HeadStep L ops { r with encoder := some encoder }
        ({ r with encoder := some encoder }.op ops (.setHeader text)) := .op rfl
    exact hop.after rfl rfl id
  unfold Response.chooseEncoding
  split_ifs
  · split
    · exact hfail true ‹_›
    · exact htext _ _
  · split
    · exact hfail false ‹_›
    · exact htext _ _
  · exact .op rfl

theorem sendContentEncoding {o : Bool × Response σ ε}
    (h : r.sendContentEncoding L ops request = .ok o) :
    HeadStep L ops r o := by
  unfold Response.sendContentEncoding at h
  split_ifs at h
  · split at h
    · cases h
    · cases h
      exact (chooseEncoding ops _).andThen fun r => .op rfl
    · cases h
      exact .refl r
  · cases h
    exact .op rfl

theorem sendEntityHead {o : Bool × Response σ ε} (h : r.sendEntityHead L ops request = .ok o) :
    HeadStep L ops r o := by
  have hfront : HeadStep L ops r (Response.andThen (r.sendCacheControl ops)
      (sendContentDisposition L ops)) :=
    HeadStep.andThen ((rule L ops request).sendCacheControl trivial) fun r =>
      (rule L ops request).sendContentDisposition trivial
  unfold Response.sendEntityHead at h
  dsimp only at h
  split_ifs at h with hok
  · split at h
    · cases h
    · rename_i hencoding
      cases h
      exact (hfront.seq hok (sendContentEncoding hencoding)).andThen (sendCaching L ops request)
  · cases h
    exact hfront

theorem sendHead {o : Bool × Response σ ε} (hpaired : r.Paired)
    (h : r.sendHead L ops request = .ok o) :
    HeadStep L ops r o := by
  have hfront := sendFront L ops request r
  unfold Response.sendHead at h
  dsimp only at h
  split_ifs at h with hdone hok hstatus
  · cases h
    exact .refl r
  · cases h
    exact hfront.seq hok (sendRangeHead L ops (hfront.keeps hpaired))
  · exact hfront.seq hok (sendEntityHead h)
  · cases h
    exact hfront

/-! ### Ranges -/

/-- A check that does not put the operations to anything. -/
theorem orElse {o : Bool × Response σ ε} {f : Response σ ε → Bool × Response σ ε}
    (h : HeadStep L ops r (true, o.2)) (hf : ∀ r, HeadStep L ops r (true, (f r).2)) :
    HeadStep L ops r (true, (Response.orElse o f).2) := by
  unfold Response.orElse
  split_ifs
  · exact h
  · exact h.seq rfl (hf o.2)

theorem withoutRanges (r : Response σ ε) : HeadStep L ops r (true, r.withoutRanges) :=
  ⟨.refl _, rfl, fun _ => by simp [Paired, Response.withoutRanges]⟩

theorem checkRanges (L : ResponseLib ε) (ops : ResponseOps σ) (r : Response σ ε) :
    HeadStep L ops r (r.checkRanges L ops request) := by
  have hrange : HeadStep L ops r
      (true, (Response.orElse (r.missesEtag L request (ascii "If-Range")) fun r =>
      r.missesLastModified L request (ascii "If-Range")).2) :=
        orElse (missesEtag _ r) (missesLastModified _)
  have hmatch : ∀ r : Response σ ε, HeadStep L ops r (true, (Response.orElse (Response.orElse
      (r.missesEtag L request (ascii "If-Match")) fun r => r.missesLastModified L request
        (ascii "If-Unmodified-Since")) fun r =>
          r.missesLastModified L request (ascii "Unless-Modified-Since")).2) :=
    fun r => orElse (orElse (missesEtag _ r) (missesLastModified _)) (missesLastModified _)
  unfold Response.checkRanges
  dsimp only
  split_ifs
  · exact hrange.seq rfl (withoutRanges _)
  · refine hrange.seq rfl ((hmatch _).seq rfl ?_)
    refine HeadStep.after (.op rfl) rfl rfl fun _ => ?_
    simp [Paired]
  · exact hrange.seq rfl (hmatch _)

theorem refuseRanges (L : ResponseLib ε) (ops : ResponseOps σ) (r : Response σ ε) :
    HeadStep L ops r (r.refuseRanges ops) := by
  have hstatus : HeadStep L ops r
      ({ r with rangeStatus := .err, ranges := [], done := true }.op ops (.setStatus 416)) :=
    HeadStep.after (.op rfl) rfl rfl fun _ => by simp [Paired]
  exact hstatus.andThen fun r => .op rfl

theorem takeRanges (L : ResponseLib ε) (ops : ResponseOps σ) (request : SentRequest)
    (r : Response σ ε) :
    HeadStep L ops r (r.takeRanges L ops request) := by
  unfold Response.takeRanges
  dsimp only
  split
  · exact withoutRanges r
  · split_ifs
    · exact withoutRanges r
    · exact refuseRanges L ops r
  · refine (checkRanges L ops _).after rfl rfl fun _ range hrange => ?_
    obtain ⟨pair, -, rfl⟩ := List.mem_map.mp hrange
    exact ⟨pair.1, pair.2, rfl⟩

theorem prepareRanges (L : ResponseLib ε) (ops : ResponseOps σ) (request : SentRequest)
    (body : MessageBody) (r : Response σ ε) :
    HeadStep L ops r (r.prepareRanges L ops request body) := by
  have haccept : HeadStep L ops r
      ({ r with contentLength := body.size }.op ops (.setHeader (ascii "Accept-Ranges: bytes"))) :=
    HeadStep.after (.op rfl) rfl rfl id
  exact haccept.andThen (takeRanges L ops request)

end HeadStep

/-! ### The body -/

/-- A step on the way to a body: data and flushes. -/
abbrev BodyStep (L : ResponseLib ε) (ops : ResponseOps σ) :
    Response σ ε → Bool × Response σ ε → Prop :=
  Asks L ops StreamOp.isBody fun r r' => r'.done = r.done

theorem keeping_done : Keeping fun r r' : Response σ ε => r'.done = r.done :=
  ⟨fun _ _ => rfl, fun h h' => h'.trans h⟩

namespace BodyStep

theorem refl (r : Response σ ε) : BodyStep L ops r (true, r) := Asks.refl keeping_done r

theorem andThen {o : Bool × Response σ ε} {f : Response σ ε → Bool × Response σ ε}
    (h : BodyStep L ops r o) (hf : ∀ r, BodyStep L ops r (f r)) :
    BodyStep L ops r (Response.andThen o f) := Asks.andThen keeping_done h hf

theorem after {o : Bool × Response σ ε} (h : BodyStep L ops r' o) (hstate : r'.state = r.state)
    (hheaders : r'.options.headers = r.options.headers) (hdone : r'.done = r.done) :
    BodyStep L ops r o :=
  Asks.after keeping_done h hstate hheaders hdone

/-- Nobody asks. -/
theorem ignore {o : Bool × Response σ ε} (h : BodyStep L ops r o) : BodyStep L ops r (true, o.2) :=
  ⟨h.goes.ignore fun _ => StreamOp.unheeded_of_isBody _, h.headers, h.keeps⟩

theorem pushOut (X : Prop) (headers : List (ArrayKey × HeaderValue)) (throttled : Bool) (s : σ)
    (buf : Bytes) :
    Goes ops.step (fun op => op.isBody = true) (StreamOp.Unheeded headers) X s
      (pushOut ops throttled s buf).1 (pushOut ops throttled s buf).2 := by
  have hwrite : Goes ops.step (fun op => op.isBody = true) (StreamOp.Unheeded headers) X s
      (ops.step s (.write buf)).1 (ops.step s (.write buf)).2 := .op rfl
  unfold Response.pushOut
  dsimp only
  split_ifs with hok
  · rw [hok] at hwrite
    exact hwrite.trans (.pass rfl trivial)
  · rwa [hok] at hwrite
  · rwa [(Bool.not_eq_true _).mp hok] at hwrite

theorem output (data : Bytes) (buf : Option Bytes) (r : Response σ ε) :
    BodyStep L ops r (r.output ops data buf) :=
  ⟨chunkedOutput_goes (pushOut _ _ r.throttled) _ _ _ _, rfl, rfl⟩

/-- Only the end of an encoder matters. -/
theorem sendDone (r : Response σ ε) : BodyStep L ops r (r.sendDone L ops) := by
  unfold Response.sendDone sendData
  split
  · exact output _ _ r
  · rename_i encoder hencoder
    split
    · rename_i hfails
      exact Asks.fail keeping_done (.inr ⟨encoder, hfails⟩) r
    · exact ⟨.refl _, rfl, rfl⟩
    · exact (output _ _ _).after rfl rfl rfl

theorem sendCallback (r : Response σ ε) (buf : Bytes) :
    BodyStep L ops r (true, (sendCallback L ops r buf).2) := by
  unfold Response.sendCallback sendData
  split
  · exact (output _ _ r).ignore
  · split
    · exact .refl r
    · exact ⟨.refl _, rfl, rfl⟩
    · exact ((output _ _ _).ignore).after rfl rfl rfl

/-- The callback never stops the body. -/
theorem toCallback (body : MessageBody) (offset forlen : ℕ) (r : Response σ ε) :
    BodyStep L ops r (body.toCallback (Response.sendCallback L ops) r offset forlen) := by
  have hrel := toCallback_rel (R := fun r r' => BodyStep L ops r (true, r')) refl
    (fun _ _ _ h => Asks.seq keeping_done h rfl) sendCallback r body offset forlen
  have hok : (body.toCallback (Response.sendCallback L ops) r offset forlen).1 = true :=
    toCallback_ok (fun _ _ => rfl) r body offset forlen
  rwa [← hok] at hrel

/-- The parts of several ranges. -/
theorem sendParts (body : MessageBody) (ranges : List (List ℤ)) (o : Bool × Response σ ε)
    (h : o.1 = true) :
    BodyStep L ops o.2 (ranges.foldl (sendPart L ops body) o) := by
  induction ranges generalizing o with
  | nil =>
    have hrefl : BodyStep L ops o.2 (true, o.2) := refl o.2
    rwa [← h] at hrefl
  | cons range ranges ih =>
    have hpart : (sendPart L ops body o range).1 = true ∧
        BodyStep L ops o.2 (sendPart L ops body o range) := by
      unfold sendPart
      split
      · exact ⟨toCallback_ok (fun _ _ => rfl) _ _ _ _, (toCallback _ _ _ _).after rfl rfl rfl⟩
      · have hrefl : BodyStep L ops o.2 (true, o.2) := refl o.2
        rw [← h] at hrefl
        exact ⟨h, hrefl⟩
    exact Asks.seq keeping_done hpart.2 hpart.1 (ih _ hpart.1)

theorem sendRanges (L : ResponseLib ε) (ops : ResponseOps σ) (body : MessageBody)
    (hpaired : r.Paired) :
    BodyStep L ops r (r.sendRanges L ops body) := by
  unfold Response.sendRanges
  split
  · exact (toCallback body _ _ r).andThen sendDone
  · rename_i range hnot hranges
    -- the branch that should never happen
    obtain ⟨first, last, rfl⟩ := hpaired range (by simp [hranges])
    exact absurd rfl (hnot first last)
  · exact (sendParts body r.ranges (true, r) rfl).andThen fun r => (sendDone _).after rfl rfl rfl

theorem sendEntity (L : ResponseLib ε) (ops : ResponseOps σ) (body : MessageBody)
    (hpaired : r.Paired) :
    BodyStep L ops r (r.sendEntity L ops body) := by
  unfold Response.sendEntity
  split_ifs
  · have hranges := sendRanges L ops body hpaired
    exact ⟨hranges.goes, hranges.headers, hranges.keeps⟩
  · exact (toCallback body _ _ r).andThen sendDone

theorem sendBody (L : ResponseLib ε) (ops : ResponseOps σ) (hpaired : r.Paired) :
    BodyStep L ops r (r.sendBody L ops) := by
  unfold Response.sendBody
  split_ifs
  · exact refl r
  · split
    · exact refl r
    · have hthrottle : r.throttle.Paired := hpaired
      exact (sendEntity L ops _ hthrottle).after rfl rfl rfl

end BodyStep

theorem sendBody_done (h : r.done = true) : r.sendBody L ops = (true, r) := if_pos h

/-! ### Phases -/

/-- The operations about a head, and those that send a body, unless the response is complete
without. -/
structure Parts (complete : Bool) (head body : List (StreamOp × Bool)) : Prop where
  setters : ∀ e ∈ head, e.1.isSetter = true
  data : ∀ e ∈ body, e.1.isBody = true
  complete : complete = true → body = []

/-- What a response has been put to, and what has come of that. It is finished in the end, and what
that operation tells has come of it all, if nothing has failed before but what nobody heeds;
otherwise the last thing it was put to has failed, or an encoder has. -/
inductive Phases (L : ResponseLib ε) (options : SendOptions) (complete : Bool) :
    List (StreamOp × Bool) → Bool → Prop
  | stopped {head body : List (StreamOp × Bool)} : Parts complete head body →
      (EncoderFails L ∨ ∃ op, (head ++ body).getLast? = some (op, false)) →
      Phases L options complete (head ++ body) false
  | finished {head body : List (StreamOp × Bool)} (result : Bool) : Parts complete head body →
      (∀ e ∈ head ++ body, e.2 = false → e.1.Unheeded options.headers) →
      Phases L options complete (head ++ body ++ [(.finish, result)]) result

section Sent
variable {σ ε : Type} {L : ResponseLib ε} {ops : ResponseOps σ}
    {r : Response (σ × List (StreamOp × Bool)) ε}
    {o : Bool × Response (σ × List (StreamOp × Bool)) ε}

/-- A head that has failed is all that there is. -/
theorem stopped_phases (h : HeadStep L ops.recorded r o) (hlog : r.state.2 = [])
    (hfailed : o.1 = false) : Phases L r.options o.2.done o.2.state.2 o.1 := by
  obtain ⟨log, hstate, hsetters, houtcome⟩ := h.goes.recorded
  rw [hstate, hlog, List.nil_append, hfailed, ← List.append_nil log]
  refine .stopped ⟨hsetters, by simp, fun _ => rfl⟩ ?_
  rw [List.append_nil]
  exact houtcome.bad hfailed

/-- Behind a head that has not failed, the body is sent and the response is finished. -/
theorem sent_phases (h : HeadStep L ops.recorded r o) (hpaired : r.Paired)
    (hlog : r.state.2 = []) (hok : o.1 = true) :
    let sent := andThen (o.2.sendBody L ops.recorded) fun r => r.op ops.recorded .finish
    Phases L r.options sent.2.done sent.2.state.2 sent.1 := by
  intro sent
  have hbody := BodyStep.sendBody L ops.recorded (h.keeps hpaired)
  obtain ⟨log, hstate, hsetters, houtcome⟩ := h.goes.recorded
  obtain ⟨log', hstate', hdata, houtcome'⟩ := hbody.goes.recorded
  rw [hstate, hlog, List.nil_append] at hstate'
  rw [h.headers] at houtcome'
  have hparts : Parts (o.2.sendBody L ops.recorded).2.done log log' := by
    refine ⟨hsetters, hdata, fun hdone => ?_⟩
    rw [hbody.keeps] at hdone
    rw [sendBody_done hdone, hstate, hlog, List.nil_append] at hstate'
    simpa using hstate'
  cases hsent : (o.2.sendBody L ops.recorded).1 with
  | false =>
    have hall : sent = o.2.sendBody L ops.recorded := by simp [sent, andThen, hsent]
    rw [hall, hstate', hsent]
    refine .stopped hparts ((houtcome'.bad hsent).imp_right fun ⟨op, hop⟩ => ⟨op, ?_⟩)
    rw [List.getLast?_append, hop]
    rfl
  | true =>
    have hend : ((o.2.sendBody L ops.recorded).2.op ops.recorded .finish).2.state.2 =
        log ++ log' ++
          [(.finish, ((o.2.sendBody L ops.recorded).2.op ops.recorded .finish).1)] := by
      rw [← hstate']
      rfl
    have hall : sent = (o.2.sendBody L ops.recorded).2.op ops.recorded .finish := by
      simp [sent, andThen, hsent]
    rw [hall, hend]
    refine .finished _ hparts (List.forall_mem_append.mpr ⟨?_, ?_⟩)
    · exact houtcome.good hok
    · exact houtcome'.good hsent

end Sent

/-- Options that say nothing. -/
def plainOptions (body : Option MessageBody) : SendOptions :=
  ⟨body, [], 0, [], [], [], [], [], 0, none, 0, false, 0⟩

/-- A library for texts in which there is nothing to find. -/
def plainResponseLib : ResponseLib Unit where
  bodyEtag _ := none
  mtime _ := 1
  parseDate _ := -1
  formatDate _ := ⟨ascii "now", by decide⟩
  params := plainParamsLib
  number _ := 1
  boundary := ⟨ascii "b", by decide⟩
  initEncoder _ := none
  encoding := ⟨fun _ _ => none, fun _ => none⟩

/-- Operations that refuse a header of the message, and flushes. -/
def fickleOps : ResponseOps Unit :=
  ⟨fun s op => (op ≠ .setHeader (ascii "A: b") ∧ op ≠ .flush, s), fun _ => 200⟩

end Response

end ExtHttp
