import ExtHttp.ResponseSent

/-!
# The answer to a request

A response that is sent on operations that take everything gives the answer that is called for.
-/
namespace ExtHttp

/-! ### Ranges inside a body -/

/-- A range as a pair of integers. -/
def ByteRange.pair {body : MessageBody} (g : ByteRange body) : ℤ × ℤ :=
  ((g.first : ℤ), (g.last : ℤ))

theorem exists_byteRanges {body : MessageBody} (hsize : body.size < 2 ^ 63) {ranges : List (ℤ × ℤ)}
    (h : ∀ range ∈ ranges, Inside body.size range) : ∃ gs : List (ByteRange body),
      ranges = gs.map ByteRange.pair := by
  induction ranges with
  | nil => exact ⟨[], rfl⟩
  | cons range ranges ih =>
    rw [List.forall_mem_cons] at h
    obtain ⟨hlow, hle, hlt⟩ := h.1
    obtain ⟨gs, hgs⟩ := ih h.2
    refine ⟨⟨range.1.toNat, range.2.toNat, by omega, by omega, by omega⟩ :: gs, ?_⟩
    have hpair : range = (((range.1.toNat : ℕ) : ℤ), ((range.2.toNat : ℕ) : ℤ)) := by
      rw [Int.toNat_of_nonneg hlow, Int.toNat_of_nonneg (hlow.trans hle)]
    rw [List.map_cons, ← hgs, ByteRange.pair]
    exact congrArg (· :: ranges) hpair

/-- A request that has ranges has one of them at least. -/
theorem getRequestRanges_ne_nil {length : ℕ} {headers : Headers}
    (h : (getRequestRanges length headers).1 = .ok) :
    (getRequestRanges length headers).2 ≠ [] := by
  revert h
  unfold getRequestRanges
  cases getRequestHeader headers (ascii "Range") with
  | none => simp
  | some range =>
    dsimp only
    split_ifs
    · intro h
      obtain ⟨-, new, hnew, spec, more, g, later, -, rfl, -⟩ :=
        (requestRangesLoop_ok_iff length (range.drop bytesUnit.length) .init [] _).mp
          (Prod.ext h rfl)
      exact fun hnil => absurd (hnew.symm.trans hnil) (by simp)
    · simp

theorem ends_map_pair {body : MessageBody} (gs : List (ByteRange body)) :
    ((gs.map ByteRange.pair).map fun g : ℤ × ℤ => [g.1, g.2]) = gs.map ByteRange.ends := by
  rw [List.map_map]
  rfl

namespace Response
variable {σ ε : Type} {L : ResponseLib ε} {ops : ResponseOps σ} {request : SentRequest}
    {J : ℤ → σ → Prop}
  {I F : ℤ → σ → Bytes → Prop} {c : ℤ} {r : Response σ ε}

/-- What follows a head. -/
def conclude (L : ResponseLib ε) (ops : ResponseOps σ) (head : Bool × Response σ ε) :
    Bool × Response σ ε :=
  andThen (andThen head (sendBody L ops)) fun r => r.op ops .finish

theorem conclude_spec (hops : TakesResponse ops J I F) {head : Bool × Response σ ε}
    (hhead : head.1 = true) (hbody : (head.2.sendBody L ops).1 = true) {c : ℤ} {content : Bytes}
    (h : I c (head.2.sendBody L ops).2.state content) :
    (conclude L ops head).1 = true ∧ F c (conclude L ops head).2.state content ∧
      (conclude L ops head).2 =
        { (head.2.sendBody L
          ops).2 with state := (ops.step (head.2.sendBody L ops).2.state .finish).2 } := by
  obtain ⟨hok, hend⟩ := hops.finish c _ content h
  have hconclude : conclude L ops head = (head.2.sendBody L ops).2.op ops .finish := by
    simp only [conclude, andThen, hhead, hbody, if_true]
  rw [hconclude]
  exact ⟨hok, hend, rfl⟩

/-- After a head that is all there is. -/
theorem conclude_done (hops : TakesResponse ops J I F) {head : Bool × Response σ ε}
    (hhead : head.1 = true) (hdone : head.2.done = true) (h : J c head.2.state) :
    (conclude L ops head).1 = true ∧ F c (conclude L ops head).2.state [] := by
  have hbody : head.2.sendBody L ops = (true, head.2) := sendBody_done hdone
  have hbegun : I c (head.2.sendBody L ops).2.state [] := by
    rw [hbody]
    exact hops.begins c _ h
  obtain ⟨hok, hend, -⟩ := conclude_spec hops hhead (by rw [hbody]) hbegun
  exact ⟨hok, hend⟩

/-- The parts of a message for ranges carry the type that the options give, the size of the body,
and the boundary. -/
structure PartsOf (L : ResponseLib ε) (options : SendOptions) {body : MessageBody}
    (gs : List (ByteRange body))
    (r : Response σ ε) : Prop where
  contentType : r.contentType = partType options none
  contentLength : r.contentLength = body.size
  boundary : gs.length ≠ 1 → r.boundary = L.boundary

/-- The answer that follows a verdict on a body, where `r` is the response that has been sent: its
status and what has been sent as its body. -/
def AnswersBody (L : ResponseLib ε) (decode : Bool → Bytes → Option Bytes) (options : SendOptions)
    (request : SentRequest) (c : ℤ) (body : MessageBody) (r : Response σ ε) (status : ℤ)
    (content : Bytes) :
    Verdict → Prop
  | .notSatisfiable => status = 416 ∧ content = []
  | .preconditionFailed => status = 412 ∧ content = []
  | .notModified => status = 304 ∧ content = []
  | .ranges => status = 206 ∧ ∃ gs : List (ByteRange body),
      (getRequestRanges body.size request.headers).2 = gs.map ByteRange.pair ∧
        PartsOf L options gs r ∧
        content = r.rangesText gs
  | .whole => status = wantedStatus c options ∧
      ∃ k, coding L options request = .ok k ∧ Delivered decode k content body.stream.data

/-- The answer to a request. -/
def Answers (L : ResponseLib ε) (decode : Bool → Bytes → Option Bytes) (options : SendOptions)
    (request : SentRequest) (c : ℤ) (r : Response σ ε) (status : ℤ) (content : Bytes) : Prop :=
  match options.body with
  | none => status = wantedStatus c options ∧ content = []
  | some body => AnswersBody L decode options request c body r status content
      (verdict L.parseDate (options.validators L body) body.size (wantedStatus c options) request)

/-- What operations that take everything have got in the end. -/
def Gets (F : ℤ → σ → Bytes → Prop) (o : Bool × Response σ ε)
    (P : Response σ ε → ℤ → Bytes → Prop) : Prop :=
  o.1 = true ∧ ∃ status content, F status o.2.state content ∧ P o.2 status content

theorem send_head_done (hops : TakesResponse ops J I F) {head : Bool × Response σ ε}
    (hhead : head.1 = true) (hdone : head.2.done = true) {status : ℤ} (h : J status head.2.state) :
    Gets F (conclude L ops head) fun _ status' content => status' = status ∧ content = [] := by
  obtain ⟨hok, hend⟩ := conclude_done (L := L) hops hhead hdone h
  exact ⟨hok, status, [], hend, rfl, rfl⟩

/-- The head and what follows it, for a response that has ranges. -/
theorem send_head_ranges (hops : TakesResponse ops J I F) (h : J c r.state)
    (hbuffer : r.buffer = some []) (hdone : r.done = false) (hencoder : r.encoder = none)
    (htype : r.contentType = none) {body : MessageBody} (hbody : r.options.body = some body)
    (hlength : r.contentLength = body.size) (hstatus : r.rangeStatus = .ok)
    {gs : List (ByteRange body)} (hgs : gs ≠ []) (hranges : r.ranges = gs.map ByteRange.ends)
    {head : Bool × Response σ ε} (ho : r.sendHead L ops request = .ok head) :
    Gets F (conclude L ops head) fun r' status content =>
      status = 206 ∧ PartsOf L r.options gs r' ∧ content = r'.rangesText gs := by
  have hfront := sendFront_tells hops L request h
  have hfrontRanges : (r.sendFront L ops).2.ranges = gs.map ByteRange.ends := by
    rw [hfront.told.same]
    exact hranges
  obtain ⟨b, hb, hhead⟩ := sendRangeHead_tells hops L request hfront.state gs hfrontRanges
  have hfrontStatus : (r.sendFront L ops).2.rangeStatus = .ok := by
    rw [hfront.told.same]
    exact hstatus
  unfold sendHead at ho
  dsimp only at ho
  rw [if_neg (by simp [hdone]), if_pos hfront.ok, if_pos hfrontStatus] at ho
  cases ho
  generalize (r.sendFront L ops).2.sendRangeHead L ops = head at hhead ⊢
  have hsame : head.2 = { r with
      options := head.2.options, state := head.2.state, boundary := b
      contentType := partType r.options r.contentType } := by
    rw [hhead.told.same, hfront.told.same]
  have hbody' : head.2.options.body = some body :=
    (sameEntity_body (hfront.told.options.trans hhead.told.options)).trans hbody
  obtain ⟨hok, hsent, hparts⟩ := sendBody_ranges_taken (r := head.2) (hops.writes 206) L
    (hops.begins 206 _ hhead.state) (by rw [hsame]; exact hbuffer) (by rw [hsame]; exact hdone)
    (by rw [hsame]; exact hencoder) hbody' (by rw [hsame]; exact hstatus) hgs
      (by rw [hsame]; exact hranges)
  rw [List.nil_append] at hsent
  obtain ⟨hend, hF, hfinal⟩ := conclude_spec hops hhead.ok hok hsent
  have hall : SameParts head.2 (conclude L ops head).2 := by
    rw [hfinal]
    exact ⟨hparts.contentType, hparts.contentLength, hparts.boundary⟩
  have hhere : SameParts { r with boundary := b, contentType := partType r.options r.contentType }
      head.2 := by
    rw [hsame]
    exact ⟨rfl, rfl, rfl⟩
  refine ⟨hend, 206, _, hF, rfl, ⟨?_, ?_, fun hlen => ?_⟩, (hall.rangesText_eq gs).symm⟩
  · rw [hall.contentType, hhere.contentType, htype]
  · rw [hall.contentLength, hhere.contentLength, hlength]
  · rw [hall.boundary, hhere.boundary, hb hlen]

/-- A library whose encoders are there, and that decodes what they give. -/
structure Decodes (L : ResponseLib ε) (decode : Bool → Bytes → Option Bytes) : Prop where
  there : ∀ gzip, L.initEncoder gzip ≠ none
  encodes : ∀ gzip e, L.initEncoder gzip = some e → L.encoding.Encodes (decode gzip) e

/-- What is sent of a body, if there is one. -/
def DeliveredBody (decode : Bool → Bytes → Option Bytes) (k : Option Bool) (content : Bytes) :
    Option MessageBody → Prop
  | none => content = []
  | some body => Delivered decode k content body.stream.data

/-- The head and what follows it, for a response without ranges. -/
theorem send_head_entity (hops : TakesResponse ops J I F) {decode : Bool → Bytes → Option Bytes}
    (hdecode : Decodes L decode) (h : J c r.state) (hbuffer : r.buffer = some [])
    (hdone : r.done = false) (hencoder : r.encoder = none)
    (hsize : ∀ body ∈ r.options.body, body.size < 2 ^ 64) (hstatus : r.rangeStatus ≠ .ok)
    {head : Bool × Response σ ε} (ho : r.sendHead L ops request = .ok head) :
    Gets F (conclude L ops head) fun _ status content =>
      SaysUnchanged L request (wantedStatus c r.options) r ∧ status = 304 ∧ content = [] ∨
        ¬ SaysUnchanged L request (wantedStatus c r.options) r ∧ status = wantedStatus c r.options ∧
          ∃ k, coding L r.options request = .ok k ∧
            DeliveredBody decode k content r.options.body := by
  have hfront := sendFront_tells hops L request h
  have hfrontStatus : (r.sendFront L ops).2.rangeStatus ≠ .ok := by
    rw [hfront.told.same]
    exact hstatus
  unfold sendHead at ho
  dsimp only at ho
  rw [if_neg (by simp [hdone]), if_pos hfront.ok, if_neg hfrontStatus] at ho
  obtain ⟨k, hk, hcases⟩ := sendEntityHead_tells hops hdecode.there hfront.state ho
  have hkr : coding L r.options request = .ok k := by
    rw [← hk]
    unfold coding
    rw [hfront.told.options.same]
  rw [saysUnchanged_same hfront.told.options] at hcases
  have hnone : (r.sendFront L ops).2.encoder = none := by
    rw [hfront.told.same]
    exact hencoder
  rw [hnone, Option.or_none] at hcases
  rcases hcases with ⟨hfresh, hhead⟩ | ⟨hfresh, hhead⟩
  · have hend : head.2.done = true := by rw [hhead.told.same]
    obtain ⟨hok, status, content, hF, hs, hc⟩ :=
      send_head_done (L := L) hops hhead.ok hend hhead.state
    exact ⟨hok, status, content, hF, .inl ⟨hfresh, hs, hc⟩⟩
  · have hsame : head.2 = { r with
        options := head.2.options, state := head.2.state, encoder := k.bind L.initEncoder
        contentType := partType r.options r.contentType } := by
      rw [hhead.told.same, hfront.told.same]
    have hbodies : head.2.options.body = r.options.body :=
      sameEntity_body (hfront.told.options.trans hhead.told.options)
    have hopen : head.2.done = false := by
      rw [hsame]
      exact hdone
    suffices hbody : (head.2.sendBody L ops).1 = true ∧ ∃ content,
        DeliveredBody decode k content r.options.body ∧
        I (wantedStatus c r.options) (head.2.sendBody L ops).2.state content by
      obtain ⟨hok, content, hdelivered, hI⟩ := hbody
      obtain ⟨hend, hF, -⟩ := conclude_spec hops hhead.ok hok hI
      exact ⟨hend, _, content, hF, .inr ⟨hfresh, rfl, k, hkr, hdelivered⟩⟩
    cases hbody : r.options.body with
    | none =>
      have hsend : head.2.sendBody L ops = (true, head.2) := by
        rw [sendBody, if_neg (by simp [hopen]), hbodies, hbody]
      rw [hsend]
      exact ⟨rfl, [], rfl, hops.begins _ _ hhead.state⟩
    | some body =>
      exact sendBody_whole_sent hops hdecode.there hdecode.encodes hhead.state
        (by rw [hsame]; exact hbuffer) hopen
        (by rw [hsame]) (hsize body hbody) (hbodies.trans hbody) (by rw [hsame]; exact hstatus)

/-- The head and what follows it, for a response whose ranges have been looked after. -/
theorem send_head_ready (hops : TakesResponse ops J I F) {decode : Bool → Bytes → Option Bytes}
    (hdecode : Decodes L decode) {p : Response σ ε} {body : MessageBody}
    (hbody : r.options.body = some body) (hbuffer : r.buffer = some [])
    (hencoder : r.encoder = none) (htype : r.contentType = none) (hsize : body.size < 2 ^ 63)
    (hinside : (getRequestRanges body.size request.headers).1 = .ok →
      ∀ range ∈ (getRequestRanges body.size request.headers).2, Inside body.size range)
    (hprepared : Prepared L { r with contentLength := body.size } p) {v : Verdict}
    (hready : RangesReady J c request body.size
      (entityVerdict L.parseDate (r.options.validators L body) (wantedStatus c r.options) request)
      p v)
    {head : Bool × Response σ ε} (ho : p.sendHead L ops request = .ok head) :
    Gets F (conclude L ops head) fun r' status content =>
      AnswersBody L decode r.options request c body r' status content v := by
  have hpbody : p.options.body = some body := (sameEntity_body hprepared.options).trans hbody
  have hdone : p.done = true → p.sendHead L ops request = .ok (true, p) := fun hdone => by
    rw [sendHead, if_pos hdone]
  cases hready with
  | notSatisfiable hstate hend =>
    cases (hdone hend).symm.trans ho
    exact send_head_done hops rfl hend hstate
  | preconditionFailed hstate hend =>
    cases (hdone hend).symm.trans ho
    exact send_head_done hops rfl hend hstate
  | ranges hstate hopen hstatus hgot hranges =>
    obtain ⟨gs, hgs⟩ := exists_byteRanges hsize (hinside hgot)
    have hne : gs ≠ [] := fun hnil => getRequestRanges_ne_nil hgot (by rw [hgs, hnil, List.map_nil])
    rw [hgs, ends_map_pair] at hranges
    obtain ⟨hok, status, content, hF, hs, hparts, hc⟩ := send_head_ranges hops hstate
      (hprepared.buffer.trans hbuffer)
      hopen (hprepared.encoder.trans hencoder) (hprepared.contentType.trans htype)
      hpbody hprepared.contentLength hstatus hne hranges ho
    have hparts' : PartsOf L r.options gs (conclude L ops head).2 := by
      refine ⟨?_, hparts.contentLength, hparts.boundary⟩
      rw [hparts.contentType, partType, partType, hprepared.options.same]
    exact ⟨hok, status, content, hF, hs, gs, hgs, hparts', hc⟩
  | entity hstate hopen hstatus =>
    have hlt : ∀ body' ∈ p.options.body, body'.size < 2 ^ 64 := fun body' hbody' => by
      obtain rfl : body = body' := Option.some.inj (hpbody.symm.trans hbody')
      exact hsize.trans (by norm_num)
    have hwanted : wantedStatus c p.options = wantedStatus c r.options := by
      rw [wantedStatus, wantedStatus, hprepared.options.same]
    have hcoding : coding L p.options request = coding L r.options request := by
      rw [coding, coding, hprepared.options.same]
    have hfresh : SaysUnchanged L request (wantedStatus c r.options) p ↔
        Cacheable (wantedStatus c r.options) request ∧
          (r.options.validators L body).Unchanged L.parseDate request.headers := by
      rw [saysUnchanged_same hprepared.options, SaysUnchanged]
      simp [hbody]
    obtain ⟨hok, status, content, hF, hcases⟩ := send_head_entity hops hdecode hstate
      (hprepared.buffer.trans hbuffer) hopen (hprepared.encoder.trans hencoder) hlt hstatus ho
    refine ⟨hok, status, content, hF, ?_⟩
    rw [hwanted, hfresh, hcoding, hpbody] at hcases
    rcases hcases with ⟨hunchanged, hs, hc⟩ | ⟨hunchanged, hs, k, hk, hdelivered⟩
    · have hv : entityVerdict L.parseDate (r.options.validators L body)
          (wantedStatus c r.options) request = .notModified := if_pos hunchanged
      rw [hv]
      exact ⟨hs, hc⟩
    · have hv : entityVerdict L.parseDate (r.options.validators L body)
          (wantedStatus c r.options) request = .whole := if_neg hunchanged
      rw [hv]
      exact ⟨hs, k, hk, hdelivered⟩

/-- A response is sent if the encodings that are accepted can be read. -/
theorem send_ok (hops : TakesResponse ops J I F) {s : σ} (hs : J c s) (options : SendOptions)
    (hreads : ∀ fault, coding L options request ≠ .error fault) :
    ∃ o, (responseInit ε options s).send L ops request = .ok o := by
  have hstate : J c (responseInit ε options s).state := hs
  have hoptions : (responseInit ε options s).options = options := rfl
  have hdone : (responseInit ε options s).done = false := rfl
  rw [← hoptions] at hreads
  generalize responseInit ε options s = r at hstate hreads hdone ⊢
  obtain ⟨hok, ⟨c', hstate'⟩, hsame⟩ :
      (r.options.body.elim (true, r) (r.prepareRanges L ops request)).1 = true ∧
      (∃ c, J c (r.options.body.elim (true, r) (r.prepareRanges L ops request)).2.state) ∧
      r.options.SameEntity L (r.options.body.elim (true, r)
        (r.prepareRanges L ops request)).2.options := by
    cases hbody : r.options.body with
    | none => exact ⟨rfl, ⟨c, hstate⟩, .refl _⟩
    | some body =>
      obtain ⟨hok, hprepared, hready⟩ := prepareRanges_spec L request hops hstate hdone hbody c
      refine ⟨hok, ?_, hprepared.options⟩
      generalize verdict L.parseDate _ _ _ _ = v at hready
      cases hready with
      | notSatisfiable hstate _ => exact ⟨416, hstate⟩
      | preconditionFailed hstate _ => exact ⟨412, hstate⟩
      | ranges hstate _ _ _ _ => exact ⟨c, hstate⟩
      | entity hstate _ _ => exact ⟨c, hstate⟩
  have hcoding : coding L (r.options.body.elim (true, r)
      (r.prepareRanges L ops request)).2.options request = coding L r.options request := by
    unfold coding
    rw [hsame.same]
  obtain ⟨head, hhead⟩ := sendHead_ok hops hstate' (by rwa [hcoding])
  refine ⟨conclude L ops head, ?_⟩
  unfold send
  dsimp only
  rw [if_pos hok, hhead]
  rfl

theorem send_gets (hops : TakesResponse ops J I F) {decode : Bool → Bytes → Option Bytes}
    (hdecode : Decodes L decode) (request : SentRequest) (options : SendOptions)
    (hsize : ∀ body ∈ options.body, body.size < 2 ^ 63)
    (hinside : ∀ body ∈ options.body, (getRequestRanges body.size request.headers).1 = .ok →
      ∀ range ∈ (getRequestRanges body.size request.headers).2, Inside body.size range)
    {s : σ} (hs : J c s) {o : Bool × Response σ ε}
    (h : (responseInit ε options s).send L ops request = .ok o) :
    Gets F o (Answers L decode options request c) := by
  set r := responseInit ε options s with hr
  have hstate : J c r.state := hs
  have hoptions : r.options = options := rfl
  rw [← hoptions] at hsize hinside ⊢
  unfold send at h
  dsimp only at h
  unfold Answers
  cases hbody : r.options.body with
  | none =>
    simp only [hbody, Option.elim_none, if_true] at h
    cases hhead : r.sendHead L ops request with
    | error fault => simp [hhead] at h
    | ok head =>
      rw [hhead] at h
      cases h
      obtain ⟨hok, status, content, hF, hcases⟩ := send_head_entity hops hdecode hstate rfl rfl rfl
        (by simp [hbody]) (by simp [hr, responseInit]) hhead
      have hnot : ¬ SaysUnchanged L request (wantedStatus c r.options) r := by
        simp [SaysUnchanged, hbody]
      rw [hbody] at hcases
      obtain ⟨-, hs, k, -, hdelivered⟩ := hcases.resolve_left fun hfresh => hnot hfresh.1
      exact ⟨hok, status, content, hF, hs, hdelivered⟩
  | some body =>
    obtain ⟨hok, hprepared, hready⟩ := prepareRanges_spec L request hops hstate rfl hbody
      (wantedStatus c r.options)
    simp only [hbody, Option.elim_some, hok, if_true] at h
    cases hhead : (r.prepareRanges L ops request body).2.sendHead L ops request with
    | error fault => simp [hhead] at h
    | ok head =>
      rw [hhead] at h
      cases h
      exact send_head_ready hops hdecode hbody rfl rfl rfl (hsize body hbody)
        (hinside body hbody) hprepared hready hhead

/-- A response that is sent on operations that take everything succeeds, and gives the answer that
the request and the options call for: if the ranges of the request are inside the body, and once the
encodings that are accepted can be read. -/
theorem send_answers (hops : TakesResponse ops J I F) {decode : Bool → Bytes → Option Bytes}
    (hdecode : Decodes L decode) (request : SentRequest) (options : SendOptions)
    (hsize : ∀ body ∈ options.body, body.size < 2 ^ 63)
    (hinside : ∀ body ∈ options.body, (getRequestRanges body.size request.headers).1 = .ok →
      ∀ range ∈ (getRequestRanges body.size request.headers).2, Inside body.size range)
    {s : σ} (hs : J c s) :
    (∀ o, (responseInit ε options s).send L ops request = .ok o →
      Gets F o (Answers L decode options request c)) ∧
      ((∀ fault, coding L options request ≠ .error fault) →
        ∃ o, (responseInit ε options s).send L ops request = .ok o) :=
  ⟨fun _ => send_gets hops hdecode request options hsize hinside hs, send_ok hops hs options⟩

/-- Operations that keep the status and what has been written. -/
def keepingOps : ResponseOps (ℤ × Bytes) where
  step s op := match op with
    | .setStatus code => (true, code, s.2)
    | .write data => (true, s.1, s.2 ++ data)
    | _ => (true, s)
  getStatus := Prod.fst

theorem keepingOps_takes :
    TakesResponse keepingOps (fun c s => s = (c, [])) (fun c s done => s = (c, done))
    fun c s done => s = (c, done) where
  status c s h := by rw [h, keepingOps]
  tells c s op h hop := by
    cases op with
    | setStatus code => cases hop
    | write data => cases hop
    | _ => exact ⟨rfl, h⟩
  setStatus c s c' h := by
    rw [h]
    exact ⟨rfl, rfl⟩
  begins c s h := h
  writes c := by
    refine ⟨fun s done buf h => ?_, fun s done h => h⟩
    rw [h]
    exact ⟨rfl, rfl⟩
  finish c s done h := ⟨rfl, h⟩

/-- A library with encoders that leave everything as it is. -/
def copyingResponseLib : ResponseLib Unit :=
  { plainResponseLib with
    initEncoder := fun _ => some ()
    encoding := ⟨fun e buf => some (e, some buf), fun e => some (e, some [])⟩ }

theorem copyingResponseLib_decodes : Decodes copyingResponseLib fun _ => some := by
  refine ⟨fun gzip => Option.some_ne_none (), fun gzip e _ bufs => ⟨bufs.flatten, ?_, rfl⟩⟩
  induction bufs with
  | nil => rfl
  | cons buf bufs ih =>
    simp only [BodyEncoder.run]
    rw [show copyingResponseLib.encoding.update e buf = some (e, some buf) from rfl]
    simp [ih]

/-- A request for the first and for the last two bytes. -/
def partsRequest : SentRequest := ⟨rangeHeader "bytes=0-1,-2", ascii "GET"⟩

theorem coding_plain (body : Option MessageBody) (fault : ParamsFault) :
    coding copyingResponseLib (plainOptions body) partsRequest ≠ .error fault := by
  simp [coding, plainOptions, contentEncodingGzip]

/-- The first and the last two bytes of a small body. -/
theorem send_answers_parts :
    let body : MessageBody := ⟨⟨ascii "0123456789", 0⟩, none⟩
    ∃ o : Bool × Response (ℤ × Bytes) Unit,
      (responseInit Unit (plainOptions (some body)) (200, [])).send copyingResponseLib keepingOps
        partsRequest = .ok o ∧
      o.1 = true ∧ o.2.state = (206,
        ascii ("\r\n--b\r\nContent-Type: application/octet-stream\r\n" ++
        "Content-Range: bytes 0-1/10\r\n\r\n01\r\n--b\r\nContent-Type: application/octet-stream\r\n" ++
        "Content-Range: bytes 8-9/10\r\n\r\n89\r\n--b--")) := by
  intro body
  have hranges : getRequestRanges body.size partsRequest.headers = (.ok, [(0, 1), (8, 9)]) := by
    decide +kernel
  obtain ⟨hgets, hok⟩ := send_answers (L := copyingResponseLib)
    keepingOps_takes copyingResponseLib_decodes
    partsRequest (plainOptions (some body))
      (by simp [plainOptions, body, MessageBody.size, ascii]) (by
      rintro body' ⟨⟩ -
      rw [hranges]
      simp [Inside, body, MessageBody.size, ascii])
        (show ((200 : ℤ), ([] : Bytes)) = (200, []) from rfl)
  obtain ⟨o, ho⟩ := hok (coding_plain _)
  obtain ⟨hsent, status, content, hF, hanswers⟩ := hgets o ho
  have hverdict : verdict copyingResponseLib.parseDate
      ((plainOptions (some body)).validators copyingResponseLib body) body.size
      (wantedStatus 200 (plainOptions (some body))) partsRequest = .ranges := by decide +kernel
  have hanswers : AnswersBody copyingResponseLib (fun _ => some)
      (plainOptions (some body)) partsRequest 200 body o.2
      status content (verdict copyingResponseLib.parseDate
        ((plainOptions (some body)).validators copyingResponseLib body)
        body.size (wantedStatus 200 (plainOptions (some body))) partsRequest) := hanswers
  rw [hverdict] at hanswers
  obtain ⟨rfl, gs, hgs, hparts, rfl⟩ := hanswers
  refine ⟨o, ho, hsent, hF.trans (congrArg (Prod.mk 206) ?_)⟩
  rw [hranges] at hgs
  obtain ⟨g, gs, rfl, hg, hgs⟩ := List.map_eq_cons_iff.mp hgs.symm
  obtain ⟨g', gs, rfl, hg', hgs⟩ := List.map_eq_cons_iff.mp hgs
  obtain rfl := List.map_eq_nil_iff.mp hgs
  have hends : g.first = 0 ∧ g.last = 1 := by simpa [ByteRange.pair] using hg
  have hends' : g'.first = 8 ∧ g'.last = 9 := by
    obtain ⟨hfirst, hlast⟩ := Prod.mk.inj hg'
    omega
  have hboundary : o.2.boundary.bytes = ascii "b" := by rw [hparts.boundary (by simp)]; rfl
  have htype : o.2.contentType = none := hparts.contentType
  have hlength : o.2.contentLength = 10 := hparts.contentLength
  simp only [rangesText, List.map_cons, List.map_nil, rangePart, rangeHead, rangeEnd,
    ByteRange.slice, hboundary, htype, hlength, hends, hends']
  decide +kernel

end Response

end ExtHttp
