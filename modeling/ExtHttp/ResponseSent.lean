import ExtHttp.ResponseAnswer

/-!
# A response that is sent

`php_http_env_response_send` on operations that take everything: it succeeds, and gives the answer
that the request and the options call for.
-/
namespace ExtHttp
namespace Response
variable {σ ε : Type} {L : ResponseLib ε} {ops : ResponseOps σ} {request : SentRequest}
    {J : ℤ → σ → Prop}
  {I F : ℤ → σ → Bytes → Prop} {c : ℤ} {r : Response σ ε}

/-! ### The head -/

/-- The status that a response is given by its options. -/
def wantedStatus (c : ℤ) (options : SendOptions) : ℤ :=
  if 0 < options.responseCode then options.responseCode else c

theorem setStatus_tells (hops : TakesResponse ops J I F) (h : J c r.state) (c' : ℤ) :
    Tells L J c' r (r.op ops (.setStatus c')) :=
  ⟨(hops.setStatus c _ c' h).1, (hops.setStatus c _ c' h).2, ⟨rfl, .refl _⟩⟩

/-- The type of the content that the parts of a message get, if the options give one. -/
def partType (options : SendOptions) (old : Option CString) : Option CString :=
  if slash ∈ cString options.contentType then some (toCString options.contentType) else old

theorem sendContentType_tells (hops : TakesResponse ops J I F) (L : ResponseLib ε)
    (request : SentRequest) (h : J c r.state) :
    Tells L J c { r with contentType := partType r.options r.contentType }
      (r.sendContentType ops) := by
  have R := tells_rule hops L request c
  unfold sendContentType partType
  split_ifs
  · have hop := R.op h (setHeader_tells (s := ascii "Content-Type: ")
      (cString r.options.contentType) (by decide) (by decide))
    rw [andThen, if_pos hop.ok]
    exact ⟨rfl, hop.state, ⟨rfl, .refl _⟩⟩
  · exact R.keep h

theorem sendFront_tells (hops : TakesResponse ops J I F) (L : ResponseLib ε) (request : SentRequest)
    (h : J c r.state) :
    Tells L J (wantedStatus c r.options) { r with contentType := partType r.options r.contentType }
      (r.sendFront L ops) := by
  have hheaders := (tells_rule hops L request c).sendHeaders h
  have hoptions : (r.sendHeaders ops).options.responseCode = r.options.responseCode := by
    rw [hheaders.told.options.same]
  have hcode : Tells L J (wantedStatus c r.options) (r.sendHeaders ops)
      (sendResponseCode ops (r.sendHeaders ops)) := by
    unfold sendResponseCode wantedStatus
    rw [hoptions]
    split_ifs
    · exact setStatus_tells hops hheaders.state _
    · exact (tells_rule hops L request c).keep hheaders.state
  have R := tells_rule hops L request (wantedStatus c r.options)
  have hfront := R.andThen (R.andThen (hheaders.trans hcode) fun r => R.sendVersion)
    fun r => R.sendCookies r.options.cookies
  have htype := sendContentType_tells hops L request hfront.state
  have hsame : partType (andThen (andThen (sendResponseCode ops (r.sendHeaders ops))
      (sendVersion ops))
      fun r => sendCookies L ops r.options.cookies r).2.options
        (andThen (andThen (sendResponseCode ops (r.sendHeaders ops))
        (sendVersion ops)) fun r => sendCookies L ops r.options.cookies r).2.contentType =
      partType r.options r.contentType := by
    rw [hfront.told.same, partType, partType, hfront.told.options.same]
  rw [sendFront, andThen, if_pos hfront.ok]
  rw [hsame] at htype
  exact htype.after (hfront.told.with_contentType _)

/-- The head of a response with ranges. -/
theorem sendRangeHead_tells (hops : TakesResponse ops J I F) (L : ResponseLib ε)
    (request : SentRequest) (h : J c r.state) {body : MessageBody} (gs : List (ByteRange body))
    (hranges : r.ranges = gs.map ByteRange.ends) :
    ∃ b, (gs.length ≠ 1 → b = L.boundary) ∧
      Tells L J 206 { r with boundary := b } (r.sendRangeHead L ops) := by
  have R := tells_rule hops L request 206
  have htext : ∀ (r : Response σ ε) (first last : ℤ),
      (StreamOp.setHeader (ascii "Content-Range: bytes " ++
      formatLong first ++ ascii "-" ++ formatLong last ++ ascii "/" ++
        formatLong r.contentLength)).tells = true := by
    intro r first last
    simp only [List.append_assoc]
    exact setHeader_tells _ (by decide) (by decide)
  unfold sendRangeHead
  split
  · rename_i hone
    refine ⟨r.boundary, fun hlen => ?_, ?_⟩
    · have hlength := congrArg List.length (hone.symm.trans hranges)
      rw [List.length_map] at hlength
      exact absurd hlength.symm hlen
    · exact R.andThen (setStatus_tells hops h 206) fun r hr => R.op hr (htext r _ _)
  · rename_i range hnot hone
    -- a range of the request has two ends
    rw [hone] at hranges
    cases gs with
    | nil => cases hranges
    | cons g gs =>
      obtain ⟨hrange, -⟩ := List.cons_eq_cons.mp hranges
      exact absurd hrange (hnot _ _)
  · refine ⟨L.boundary, fun _ => rfl, ?_⟩
    have hstate : J c { r with boundary := L.boundary }.state := h
    exact R.andThen (setStatus_tells hops hstate 206) fun r hr =>
      R.op hr (setHeader_tells _ (by decide) (by decide))

theorem chooseEncoding_tells (hops : TakesResponse ops J I F)
    (hencoders : ∀ gzip, L.initEncoder gzip ≠ none) (request : SentRequest) (h : J c r.state)
    (key : Bytes) :
    Tells L J c { r with encoder := ((codingOf key).bind L.initEncoder).or r.encoder }
      (r.chooseEncoding L ops key) := by
  have R := tells_rule hops L request c
  unfold chooseEncoding codingOf
  split_ifs
  · cases hinit : L.initEncoder true with
    | none => exact absurd hinit (hencoders true)
    | some e =>
      simp only [Option.bind_some, hinit, Option.some_or]
      exact R.op h (by decide)
  · cases hinit : L.initEncoder false with
    | none => exact absurd hinit (hencoders false)
    | some e =>
      simp only [Option.bind_some, hinit, Option.some_or]
      exact R.op h (by decide)
  · exact R.op h rfl

/-- The encoder is the one for the coding. -/
theorem sendContentEncoding_tells (hops : TakesResponse ops J I F)
    (hencoders : ∀ gzip, L.initEncoder gzip ≠ none) (h : J c r.state) {o : Bool × Response σ ε}
    (ho : r.sendContentEncoding L ops request = .ok o) :
    ∃ k, coding L r.options request = .ok k ∧
      Tells L J c { r with encoder := (k.bind L.initEncoder).or r.encoder } o := by
  have R := tells_rule hops L request c
  unfold coding
  unfold sendContentEncoding at ho
  split_ifs at ho with hgzip
  · rw [if_pos hgzip]
    split at ho
    · cases ho
    · rename_i key q more hnegotiated
      cases ho
      rw [hnegotiated]
      exact ⟨_, rfl, R.andThen (chooseEncoding_tells hops hencoders request h key)
        fun r hr => R.op hr
          (show (StreamOp.addHeader (ascii "Vary: Accept-Encoding")).tells = true by decide)⟩
    · rename_i result hnot hnegotiated
      cases ho
      rw [hnegotiated]
      refine ⟨none, ?_, R.keep h⟩
      cases result with
      | none => rfl
      | some result =>
        cases result with
        | nil => rfl
        | cons e more => exact absurd rfl (hnot e.1 e.2 more)
  · rw [if_neg hgzip]
    cases ho
    exact ⟨none, rfl, R.op h rfl⟩

theorem sameEntity_body {o o' : SendOptions} (h : o.SameEntity L o') : o'.body = o.body := by
  rw [h.same]

/-- The client has the entity, if there is one. -/
theorem notModified_iff (r : Response σ ε) :
    (r.notModified L request).1 = true ↔
      ∃ body ∈ r.options.body, (r.options.validators L body).Unchanged L.parseDate
        request.headers := by
  cases hbody : r.options.body with
  | none =>
    have hetag := SendOptions.cachedByEtag_none (L := L) request.headers
      (ascii "If-None-Match") hbody
    have htime := SendOptions.cachedByLastModified_none (L := L) request.headers
      (ascii "If-Modified-Since") hbody
    unfold notModified
    simp [hetag, htime]
  | some body =>
    obtain ⟨hetag, hsame⟩ := SendOptions.cachedByEtag_spec (L := L) request.headers
      (ascii "If-None-Match") hbody
    have hbody' := (sameEntity_body hsame).trans hbody
    obtain ⟨htime, -⟩ := SendOptions.cachedByLastModified_spec (L := L) request.headers
      (ascii "If-Modified-Since") hbody'
    rw [hsame.validators body hbody] at htime
    simp only [Option.mem_some_iff, exists_eq_left', Validators.Unchanged]
    unfold notModified
    dsimp only
    rw [hetag]
    cases etagStatus (r.options.validators L body).tag request.headers (ascii "If-None-Match") with
    | no => simp [htime]
    | hit => simp
    | miss => simp

theorem isCacheable_iff (hops : TakesResponse ops J I F) (h : J c r.state) :
    r.isCacheable ops request = true ↔ Cacheable c request := by
  unfold isCacheable Cacheable
  dsimp only
  rw [hops.status c _ h]
  by_cases hc : c = 0
  · cases gotRequestHeader request.headers (ascii "Authorization") <;> simp [hc]
  · by_cases hsuccess : c.tdiv 100 = 2
    · cases gotRequestHeader request.headers (ascii "Authorization") <;> simp [hsuccess]
    · simp [hc, hsuccess]

/-- The response may say that nothing has changed. -/
def SaysUnchanged (L : ResponseLib ε) (request : SentRequest) (c : ℤ) (r : Response σ ε) : Prop :=
  Cacheable c request ∧ ∃ body ∈ r.options.body,
    (r.options.validators L body).Unchanged L.parseDate request.headers

theorem sendCaching_tells (L : ResponseLib ε) (request : SentRequest)
    (hops : TakesResponse ops J I F) (h : J c r.state) :
    SaysUnchanged L request c r ∧ Tells L J 304 { r with done := true }
      (r.sendCaching L ops request) ∨
      ¬ SaysUnchanged L request c r ∧ Tells L J c r (r.sendCaching L ops request) := by
  have hlook := (tells_rule hops L request c).notModified h
  unfold SaysUnchanged sendCaching
  rw [← isCacheable_iff hops h, ← notModified_iff]
  dsimp only
  split_ifs with hcacheable hunchanged
  · have hset : Told L (r.notModified L request).2
        ((r.notModified L request).2.op ops (.setStatus 304)).2 :=
      ⟨rfl, .refl _⟩
    have hstatus :
        J 304 { ((r.notModified L request).2.op ops (.setStatus 304)).2 with done := true }.state :=
      (hops.setStatus c _ 304 hlook.state).2
    have hafter := (tells_rule hops L request 304).sendValidators hstatus
    exact .inl ⟨⟨hcacheable, hunchanged⟩, hafter.after ((hlook.told.trans hset).with_done true)⟩
  · exact .inr ⟨fun hfresh => hunchanged hfresh.2,
      hlook.trans ((tells_rule hops L request c).sendValidators hlook.state)⟩
  · exact .inr ⟨fun hfresh => hcacheable hfresh.1, rfl, h, .refl r⟩

theorem saysUnchanged_same {r' : Response σ ε} (h : r.options.SameEntity L r'.options) :
    SaysUnchanged L request c r' ↔ SaysUnchanged L request c r := by
  unfold SaysUnchanged
  rw [sameEntity_body h]
  refine and_congr_right fun _ => exists_congr fun body => and_congr_right fun hbody => ?_
  rw [h.validators body hbody]

theorem coding_told {r' : Response σ ε} (h : Told L r r') :
    coding L r'.options request = coding L r.options request := by
  unfold coding
  rw [h.options.same]

/-- The head of a response without ranges. -/
theorem sendEntityHead_tells (hops : TakesResponse ops J I F)
    (hencoders : ∀ gzip, L.initEncoder gzip ≠ none) (h : J c r.state) {o : Bool × Response σ ε}
    (ho : r.sendEntityHead L ops request = .ok o) :
    ∃ k, coding L r.options request = .ok k ∧
      (SaysUnchanged L request c r ∧
          Tells L J 304 { r with encoder := (k.bind L.initEncoder).or r.encoder, done := true } o ∨
        ¬ SaysUnchanged L request c r ∧
          Tells L J c { r with encoder := (k.bind L.initEncoder).or r.encoder } o) := by
  have R := tells_rule hops L request c
  have hfront : Tells L J c r (andThen (r.sendCacheControl ops) (sendContentDisposition L ops)) :=
    R.andThen (R.sendCacheControl h) fun r => R.sendContentDisposition
  unfold sendEntityHead at ho
  dsimp only at ho
  rw [if_pos hfront.ok] at ho
  split at ho
  · cases ho
  · rename_i mid hmid
    cases ho
    obtain ⟨k, hk, hmidtells⟩ := sendContentEncoding_tells hops hencoders hfront.state hmid
    have hencoder : (andThen (r.sendCacheControl ops) (sendContentDisposition L ops)).2.encoder =
        r.encoder := by
      rw [hfront.told.same]
    rw [hencoder] at hmidtells
    have htold := (hfront.told.with_encoder ((k.bind L.initEncoder).or r.encoder)).trans
      hmidtells.told
    have hfresh : SaysUnchanged L request c mid.2 ↔ SaysUnchanged L request c r :=
      saysUnchanged_same htold.options
    rw [andThen, if_pos hmidtells.ok]
    refine ⟨k, (coding_told hfront.told).symm.trans hk, ?_⟩
    rw [← hfresh]
    exact (sendCaching_tells L request hops hmidtells.state).imp
      (fun hcached => ⟨hcached.1, hcached.2.after (htold.with_done true)⟩)
      fun hcached => ⟨hcached.1, hcached.2.after htold⟩

/-- The encodings that are accepted are read for the coding. -/
theorem coding_error {fault : ParamsFault}
    (h : r.sendContentEncoding L ops request = .error fault) :
    coding L r.options request = .error fault := by
  unfold sendContentEncoding at h
  unfold coding
  split_ifs at h with hgzip
  rw [if_pos hgzip]
  split at h
  · rename_i hnegotiated
    cases h
    rw [hnegotiated]
    rfl
  · cases h
  · cases h

theorem sendHead_ok (hops : TakesResponse ops J I F) (h : J c r.state)
    (hreads : ∀ fault, coding L r.options request ≠ .error fault) :
    ∃ o, r.sendHead L ops request = .ok o := by
  have hfront := sendFront_tells hops L request h
  have hcoding : coding L (r.sendFront L ops).2.options request = coding L r.options request := by
    unfold coding
    rw [hfront.told.options.same]
  have R := tells_rule hops L request (wantedStatus c r.options)
  have hentity : Tells L J (wantedStatus c r.options) (r.sendFront L ops).2
      (andThen ((r.sendFront L ops).2.sendCacheControl ops) (sendContentDisposition L ops)) :=
    R.andThen (R.sendCacheControl hfront.state) fun r => R.sendContentDisposition
  unfold sendHead sendEntityHead
  dsimp only
  rw [if_pos hfront.ok, if_pos hentity.ok]
  split_ifs
  · exact ⟨_, rfl⟩
  · exact ⟨_, rfl⟩
  · cases hencoding : (andThen ((r.sendFront L ops).2.sendCacheControl ops)
        (sendContentDisposition L ops)).2.sendContentEncoding L ops request with
    | error fault =>
      have herror := coding_error hencoding
      rw [coding_told hentity.told, hcoding] at herror
      exact absurd herror (hreads fault)
    | ok o => exact ⟨_, rfl⟩

/-! ### The body -/

/-- What is sent of data: the data, or what decodes to it. -/
def Delivered (decode : Bool → Bytes → Option Bytes) (k : Option Bool) (text data : Bytes) : Prop :=
  match k with
  | none => text = data
  | some gzip => decode gzip text = some data

/-- A response without ranges sends the whole body. -/
theorem sendBody_whole_sent (hops : TakesResponse ops J I F)
    (hencoders : ∀ gzip, L.initEncoder gzip ≠ none) {decode : Bool → Bytes → Option Bytes}
    (hencodes : ∀ gzip e, L.initEncoder gzip = some e → L.encoding.Encodes (decode gzip) e)
    (h : J c r.state) (hbuffer : r.buffer = some []) (hdone : r.done = false) {k : Option Bool}
    (hencoder : r.encoder = k.bind L.initEncoder) {body : MessageBody} (hsize : body.size < 2 ^ 64)
    (hbody : r.options.body = some body) (hstatus : r.rangeStatus ≠ .ok) :
    (r.sendBody L ops).1 = true ∧
      ∃ text, Delivered decode k text body.stream.data ∧ I c (r.sendBody L ops).2.state text := by
  have hpassed := Passed.throttle (hops.begins c _ h) hbuffer
  have hsend : r.sendBody L ops =
      andThen (body.toCallback (sendCallback L ops) r.throttle 0 0) (sendDone L ops) := by
    rw [sendBody, if_neg (by simp [hdone]), hbody]
    exact if_neg hstatus
  rw [hsend]
  cases k with
  | none =>
    obtain ⟨hok, hsent, hfree⟩ := hpassed.sendAll (L := L) (hops.writes c) hencoder hsize
    exact ⟨hok, _, rfl, hsent.written hfree⟩
  | some gzip =>
    cases hinit : L.initEncoder gzip with
    | none => exact absurd hinit (hencoders gzip)
    | some e =>
      have he : r.throttle.encoder = some e := by rw [← hinit]; exact hencoder
      obtain ⟨text, hdecode, hok, hsent, hfree⟩ :=
        hpassed.sendEncoded (L := L) (hops.writes c) he (hencodes gzip e hinit) hsize
      exact ⟨hok, text, hdecode, hsent.written hfree⟩

/-! ### Ranges -/

theorem orElse_fst {o : Bool × Response σ ε} {f : Response σ ε → Bool × Response σ ε} :
    (orElse o f).1 = true ↔ o.1 = true ∨ (f o.2).1 = true := by
  unfold orElse
  cases ho : o.1 <;> simp [ho]

/-- What a check of validators leaves: everything but the options, which come to the same. -/
structure Looked (L : ResponseLib ε) (r r' : Response σ ε) : Prop where
  same : r' = { r with options := r'.options }
  options : r.options.SameEntity L r'.options

theorem Looked.trans {r' r'' : Response σ ε} (h : Looked L r r') (h' : Looked L r' r'') :
    Looked L r r'' := by
  refine ⟨h'.same.trans ?_, h.options.trans h'.options⟩
  rw [h.same]

theorem looked_missesEtag (L : ResponseLib ε) (request : SentRequest) (r : Response σ ε)
    (name : Bytes) : Looked L r (r.missesEtag L request name).2 :=
  ⟨rfl, sameEntity_missesEtag r name⟩

theorem looked_missesLastModified (L : ResponseLib ε) (request : SentRequest) (r : Response σ ε)
    (name : Bytes) :
    Looked L r (r.missesLastModified L request name).2 :=
  ⟨rfl, sameEntity_missesLastModified r name⟩

theorem looked_orElse {o : Bool × Response σ ε} {f : Response σ ε → Bool × Response σ ε}
    (h : Looked L r o.2) (hf : ∀ r, Looked L r (f r).2) : Looked L r (orElse o f).2 := by
  unfold orElse
  split_ifs
  · exact h
  · exact h.trans (hf o.2)

theorem Looked.body {r' : Response σ ε} (h : Looked L r r') {body : MessageBody}
    (hbody : r.options.body = some body) :
    r'.options.body = some body ∧ r'.options.validators L body = r.options.validators L body :=
  ⟨(sameEntity_body h.options).trans hbody, h.options.validators body hbody⟩

/-- The checks for an entity with these validators. -/
theorem missesRange_iff (L : ResponseLib ε) (request : SentRequest) {body : MessageBody}
    (hbody : r.options.body = some body) :
    (orElse (r.missesEtag L request (ascii "If-Range")) fun r =>
        r.missesLastModified L request (ascii "If-Range")).1 = true ↔
      (r.options.validators L body).MissesRange L.parseDate request.headers := by
  obtain ⟨hbody', hsame⟩ := (looked_missesEtag L request r (ascii "If-Range")).body hbody
  rw [orElse_fst, (missesEtag_spec hbody _).1, (missesLastModified_spec hbody' _).1, hsame]
  rfl

theorem missesMatch_iff (L : ResponseLib ε) (request : SentRequest) {body : MessageBody}
    (hbody : r.options.body = some body) :
    (orElse (orElse (r.missesEtag L request (ascii "If-Match")) fun r =>
        r.missesLastModified L request (ascii "If-Unmodified-Since")) fun r =>
          r.missesLastModified L request (ascii "Unless-Modified-Since")).1 = true ↔
      (r.options.validators L body).MissesMatch L.parseDate request.headers := by
  have hfirst := looked_missesEtag L request r (ascii "If-Match")
  have hsecond := looked_orElse hfirst
    (looked_missesLastModified L request · (ascii "If-Unmodified-Since"))
  obtain ⟨hbody', hsame⟩ := hfirst.body hbody
  obtain ⟨hbody'', hsame'⟩ := hsecond.body hbody
  rw [orElse_fst, orElse_fst, (missesEtag_spec hbody _).1, (missesLastModified_spec hbody' _).1,
    (missesLastModified_spec hbody'' _).1, hsame, hsame']
  rfl

/-- What is left as it is while ranges are looked after. -/
structure Prepared (L : ResponseLib ε) (r r' : Response σ ε) : Prop where
  options : r.options.SameEntity L r'.options
  buffer : r'.buffer = r.buffer
  encoder : r'.encoder = r.encoder
  contentType : r'.contentType = r.contentType
  contentLength : r'.contentLength = r.contentLength

theorem Looked.prepared {r' : Response σ ε} (h : Looked L r r') : Prepared L r r' := by
  refine ⟨h.options, ?_, ?_, ?_, ?_⟩ <;> rw [h.same]

theorem Prepared.trans {r' r'' : Response σ ε} (h : Prepared L r r') (h' : Prepared L r' r'') :
    Prepared L r r'' :=
  ⟨h.options.trans h'.options, h'.buffer.trans h.buffer, h'.encoder.trans h.encoder,
    h'.contentType.trans h.contentType, h'.contentLength.trans h.contentLength⟩

/-- The conditions for ranges. -/
theorem checkRanges_spec (L : ResponseLib ε) (request : SentRequest) (r : Response σ ε)
    (hops : TakesResponse ops J I F) (h : J c r.state) {body : MessageBody}
    (hbody : r.options.body = some body) :
    let v := r.options.validators L body
    let o := r.checkRanges L ops request
    o.1 = true ∧ Prepared L r o.2 ∧
      (v.MissesRange L.parseDate request.headers ∧ J c o.2.state ∧ o.2.done = r.done ∧
        o.2.rangeStatus ≠ .ok ∨
        ¬ v.MissesRange L.parseDate request.headers ∧
          (v.MissesMatch L.parseDate request.headers ∧ J 412 o.2.state ∧ o.2.done = true ∨
            ¬ v.MissesMatch L.parseDate request.headers ∧ J c o.2.state ∧ o.2.done = r.done ∧
              o.2.rangeStatus = r.rangeStatus ∧ o.2.ranges = r.ranges)) := by
  have hrange : Looked L r (orElse (r.missesEtag L request (ascii "If-Range")) fun r =>
      r.missesLastModified L request (ascii "If-Range")).2 :=
    looked_orElse (looked_missesEtag L request r _) (looked_missesLastModified L request · _)
  have hmiss := missesRange_iff L request hbody
  obtain ⟨hbody', hsame⟩ := hrange.body hbody
  unfold checkRanges
  dsimp only
  generalize (orElse (r.missesEtag L request (ascii "If-Range")) fun r =>
      r.missesLastModified L request (ascii "If-Range")) = first at hrange hmiss hbody' hsame ⊢
  have hmatch := missesMatch_iff L request hbody'
  have hlooked : Looked L first.2
      (orElse (orElse (first.2.missesEtag L request (ascii "If-Match")) fun r =>
      r.missesLastModified L request (ascii "If-Unmodified-Since")) fun r =>
        r.missesLastModified L request (ascii "Unless-Modified-Since")).2 :=
    looked_orElse (looked_orElse (looked_missesEtag L request _ _)
      (looked_missesLastModified L request · _)) (looked_missesLastModified L request · _)
  generalize (orElse (orElse (first.2.missesEtag L request (ascii "If-Match")) fun r =>
      r.missesLastModified L request (ascii "If-Unmodified-Since")) fun r =>
        r.missesLastModified L request (ascii "Unless-Modified-Since")) = second at hmatch hlooked ⊢
  rw [hsame] at hmatch
  rw [← hmiss, ← hmatch]
  have hstate : J c first.2.state := by
    rw [hrange.same]
    exact h
  have hboth := hrange.trans hlooked
  have hsecond : J c second.2.state := by
    rw [hboth.same]
    exact h
  have hdone : first.2.done = r.done ∧ second.2.done = r.done :=
    ⟨by rw [hrange.same], by rw [hboth.same]⟩
  split_ifs with hfirst hsecondmiss
  · exact ⟨rfl, hrange.prepared.trans ⟨.refl _, rfl, rfl, rfl, rfl⟩,
      .inl ⟨hfirst, hstate, hdone.1, by simp [withoutRanges]⟩⟩
  · have hset := hops.setStatus c _ 412 hsecond
    exact ⟨hset.1, hboth.prepared.trans ⟨.refl _, rfl, rfl, rfl, rfl⟩,
      .inr ⟨hfirst, .inl ⟨hsecondmiss, hset.2, rfl⟩⟩⟩
  · refine ⟨rfl, hboth.prepared, .inr ⟨hfirst, .inr ⟨hsecondmiss, hsecond, hdone.2, ?_, ?_⟩⟩⟩
    · rw [hboth.same]
    · rw [hboth.same]

/-- What becomes of a response in the end of the preparations for ranges of an entity, for which
there is a verdict if they do not matter. -/
inductive RangesReady (J : ℤ → σ → Prop) (c : ℤ) (request : SentRequest) (size : ℕ) (e : Verdict)
    (r' : Response σ ε) : Verdict → Prop
  | notSatisfiable (state : J 416 r'.state) (done : r'.done = true) :
      RangesReady J c request size e r' .notSatisfiable
  | preconditionFailed (state : J 412 r'.state) (done : r'.done = true) :
      RangesReady J c request size e r' .preconditionFailed
  | ranges (state : J c r'.state) (done : r'.done = false) (status : r'.rangeStatus = .ok)
      (hgot : (getRequestRanges size request.headers).1 = .ok)
      (ranges : r'.ranges = (getRequestRanges size request.headers).2.map fun g => [g.1, g.2]) :
      RangesReady J c request size e r' .ranges
  | entity (state : J c r'.state) (done : r'.done = false) (status : r'.rangeStatus ≠ .ok) :
      RangesReady J c request size e r' e

@[simp] theorem withRanges_options (r : Response σ ε) (ranges : List (ℤ × ℤ)) :
    (r.withRanges ranges).options = r.options := rfl

theorem refuseRanges_spec (hops : TakesResponse ops J I F) (L : ResponseLib ε) (h : J c r.state) :
    let o := r.refuseRanges ops
    o.1 = true ∧ Prepared L r o.2 ∧ J 416 o.2.state ∧ o.2.done = true := by
  have hset := hops.setStatus c _ 416 h
  have hok : ({ r with rangeStatus := .err, ranges := [], done := true }.op ops
      (.setStatus 416)).1 = true := hset.1
  have htext := hops.tells 416 _
    (.setHeader (ascii "Content-Range: bytes */" ++ formatLong r.contentLength)) hset.2
    (setHeader_tells _ (by decide) (by decide))
  unfold refuseRanges
  rw [andThen, if_pos hok]
  exact ⟨htext.1, ⟨.refl _, rfl, rfl, rfl, rfl⟩, htext.2, rfl⟩

theorem takeRanges_spec (L : ResponseLib ε) (request : SentRequest) (r : Response σ ε)
    (hops : TakesResponse ops J I F) (h : J c r.state) (hdone : r.done = false)
    {body : MessageBody} (hbody : r.options.body = some body) (status : ℤ) :
    let v := r.options.validators L body
    let o := r.takeRanges L ops request
    o.1 = true ∧ Prepared L r o.2 ∧
      RangesReady J c request r.contentLength (entityVerdict L.parseDate v status request) o.2
        (verdict L.parseDate v r.contentLength status request) := by
  have hnone : r.withoutRanges.rangeStatus ≠ .ok := by simp [withoutRanges]
  have hkept : Prepared L r r.withoutRanges := ⟨.refl _, rfl, rfl, rfl, rfl⟩
  unfold takeRanges verdict
  dsimp only
  cases hgot : (getRequestRanges r.contentLength request.headers).1 with
  | no =>
    simp only [reduceCtorEq, false_and, if_false]
    exact ⟨trivial, hkept, .entity h hdone hnone⟩
  | err =>
    cases hif : gotRequestHeader request.headers (ascii "If-Range") with
    | true =>
      simp only [reduceCtorEq, false_and, and_false, if_false, if_true]
      exact ⟨trivial, hkept, .entity h hdone hnone⟩
    | false =>
      obtain ⟨hok, hprepared, hstate, hend⟩ := refuseRanges_spec hops L h
      simp only [Bool.false_eq_true, and_self, if_true, if_false]
      exact ⟨hok, hprepared, .notSatisfiable hstate hend⟩
  | ok =>
    obtain ⟨hchecked, hprepared, hcases⟩ := checkRanges_spec L request
      (r.withRanges (getRequestRanges r.contentLength request.headers).2) hops h hbody
    simp only [withRanges_options] at hcases
    simp only [reduceCtorEq, false_and, if_false, true_and]
    refine ⟨hchecked, ⟨hprepared.options, hprepared.buffer, hprepared.encoder,
      hprepared.contentType, hprepared.contentLength⟩, ?_⟩
    rcases hcases with ⟨hmiss, hJ, hd, hs⟩ | ⟨hrange, ⟨hmatch, hJ, hd⟩ | ⟨hmatch, hJ, hd, hs, hr⟩⟩
    · rw [if_neg (not_not.mpr hmiss)]
      exact .entity hJ (hd.trans hdone) hs
    · rw [if_pos hrange, if_pos hmatch]
      exact .preconditionFailed hJ hd
    · rw [if_pos hrange, if_neg hmatch]
      exact .ranges hJ (hd.trans hdone) hs hgot hr

theorem prepareRanges_spec (L : ResponseLib ε) (request : SentRequest)
    (hops : TakesResponse ops J I F) (h : J c r.state) (hdone : r.done = false)
    {body : MessageBody} (hbody : r.options.body = some body) (status : ℤ) :
    let v := r.options.validators L body
    let o := r.prepareRanges L ops request body
    o.1 = true ∧ Prepared L { r with contentLength := body.size } o.2 ∧
      RangesReady J c request body.size (entityVerdict L.parseDate v status request) o.2
        (verdict L.parseDate v body.size status request) := by
  have haccept := hops.tells c _ (.setHeader (ascii "Accept-Ranges: bytes")) h (by decide)
  have hok : ({ r with contentLength := body.size }.op ops
      (.setHeader (ascii "Accept-Ranges: bytes"))).1 = true :=
    haccept.1
  unfold prepareRanges
  rw [andThen, if_pos hok]
  obtain ⟨htaken, hprepared, hready⟩ := takeRanges_spec L request
    ({ r with contentLength := body.size }.op ops (.setHeader (ascii "Accept-Ranges: bytes"))).2
    hops haccept.2 hdone hbody status
  exact ⟨htaken, ⟨hprepared.options, hprepared.buffer, hprepared.encoder, hprepared.contentType,
    hprepared.contentLength⟩, hready⟩

end Response
end ExtHttp
