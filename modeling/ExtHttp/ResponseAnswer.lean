import ExtHttp.ResponseBody

/-!
# What a request is answered with

Status and body of a response, as they follow from the request and from the options, on operations
that take everything.
-/
namespace ExtHttp

/-! ### Validators -/

/-- What `If-None-Match` and the like come to for an entity with this tag. -/
def etagStatus (tag : Option Bytes) (headers : Headers) (name : Bytes) : CacheStatus :=
  match tag, getRequestHeader headers name with
  | some etag, some header => if matchWord header etag then .hit else .miss
  | _, _ => .no

/-- What `If-Modified-Since` and the like come to for an entity of this time. -/
def modifiedStatus (parseDate : Bytes → ℤ) (time : ℤ) (headers : Headers) (name : Bytes) :
    CacheStatus :=
  match getRequestHeader headers name with
  | some header => if 0 < parseDate header ∧ time ≤ parseDate header then .hit else .miss
  | none => .no

/-- Tag and time of an entity. -/
structure Validators where
  tag : Option Bytes
  time : ℤ

namespace SendOptions
variable {ε : Type} (L : ResponseLib ε)

/-- The validators of a body: the ones that have been given, or its own. -/
def validators (o : SendOptions) (body : MessageBody) : Validators where
  tag := responseEtag L.bodyEtag body o.etag
  time := if o.lastModified ≤ 0 then L.mtime body else o.lastModified

/-- Options that differ in validators only, which come to the same. -/
structure SameEntity (o o' : SendOptions) : Prop where
  same : o' = { o with etag := o'.etag, lastModified := o'.lastModified }
  validators : ∀ body ∈ o.body, o'.validators L body = o.validators L body

variable {L} {o o' o'' : SendOptions}

theorem SameEntity.refl (o : SendOptions) : o.SameEntity L o := ⟨rfl, fun _ _ => rfl⟩

theorem SameEntity.trans (h : o.SameEntity L o') (h' : o'.SameEntity L o'') :
    o.SameEntity L o'' where
  same := by
    refine h'.same.trans ?_
    rw [h.same]
  validators body hbody := by
    have hbody' : body ∈ o'.body := by
      rw [h.same]
      exact hbody
    rw [h'.validators body hbody', h.validators body hbody]

theorem responseEtag_kept {bodyEtag : MessageBody → Option CString} {body : MessageBody}
    {etag : Option Bytes} {tag : Bytes} (h : responseEtag bodyEtag body etag = some tag) :
    responseEtag bodyEtag body (etag.or (some tag)) = some tag := by
  cases etag with
  | some v => exact h
  | none =>
    obtain ⟨own, -, rfl⟩ := Option.map_eq_some_iff.mp h
    exact congrArg some (cString_of_noNul own.noNul)

theorem sameEntity_etag {body : MessageBody} (hbody : o.body = some body) {tag : Bytes}
    (h : responseEtag L.bodyEtag body o.etag = some tag) :
    o.SameEntity L { o with etag := o.etag.or (some tag) } := by
  refine ⟨rfl, fun body' hbody' => ?_⟩
  obtain rfl : body = body' := Option.some.inj (hbody.symm.trans hbody')
  simp only [SendOptions.validators, responseEtag_kept h, h]

theorem sameEntity_time {body : MessageBody} (hbody : o.body = some body) (h : o.lastModified ≤ 0) :
    o.SameEntity L { o with lastModified := L.mtime body } := by
  refine ⟨rfl, fun body' hbody' => ?_⟩
  obtain rfl : body = body' := Option.some.inj (hbody.symm.trans hbody')
  simp only [SendOptions.validators, h, if_true, ite_self]

/-- The check of a tag goes by the validators and leaves them. -/
theorem cachedByEtag_spec (headers : Headers) (name : Bytes) {body : MessageBody}
    (hbody : o.body = some body) :
    (o.cachedByEtag L headers name).1 = etagStatus (o.validators L body).tag headers name ∧
      o.SameEntity L (o.cachedByEtag L headers name).2 := by
  have hchecked : o.cachedByEtag L headers name =
      (etagStatus (o.validators L body).tag headers name,
      (responseEtag L.bodyEtag body o.etag).elim o fun tag =>
        { o with etag := o.etag.or (some tag) }) := by
    cases o
    dsimp only at hbody
    subst hbody
    unfold cachedByEtag isResponseCachedByEtag etagStatus SendOptions.validators
    dsimp only
    generalize responseEtag L.bodyEtag body _ = tag
    cases tag with
    | none => rfl
    | some tag => cases getRequestHeader headers name <;> rfl
  rw [hchecked]
  refine ⟨rfl, ?_⟩
  cases htag : responseEtag L.bodyEtag body o.etag with
  | none => exact .refl o
  | some tag => exact sameEntity_etag hbody htag

theorem cachedByLastModified_spec (headers : Headers) (name : Bytes) {body : MessageBody}
    (hbody : o.body = some body) :
    (o.cachedByLastModified L headers name).1 =
        modifiedStatus L.parseDate (o.validators L body).time headers name ∧
      o.SameEntity L (o.cachedByLastModified L headers name).2 := by
  have hchecked : o.cachedByLastModified L headers name =
      (modifiedStatus L.parseDate (o.validators L body).time headers name,
        if o.lastModified ≤ 0 then { o with lastModified := L.mtime body } else o) := by
    cases o
    dsimp only at hbody
    subst hbody
    unfold cachedByLastModified modifiedStatus SendOptions.validators
    dsimp only
    cases getRequestHeader headers name with
    | none => rfl
    | some header => split_ifs <;> simp_all
  rw [hchecked]
  refine ⟨rfl, ?_⟩
  dsimp only
  split_ifs with htime
  · exact sameEntity_time hbody htime
  · exact .refl o

theorem cachedByEtag_none (headers : Headers) (name : Bytes) (hbody : o.body = none) :
    o.cachedByEtag L headers name = (.no, o) := by
  cases o
  dsimp only at hbody
  subst hbody
  rfl

theorem cachedByLastModified_none (headers : Headers) (name : Bytes) (hbody : o.body = none) :
    o.cachedByLastModified L headers name = (.no, o) := by
  cases o
  dsimp only at hbody
  subst hbody
  rfl

end SendOptions

/-! ### Verdicts -/

/-- The answers to a request for an entity. -/
inductive Verdict
  | notSatisfiable
  | preconditionFailed
  | ranges
  | notModified
  | whole
  deriving DecidableEq, Repr

namespace Validators
variable (parseDate : Bytes → ℤ) (v : Validators) (headers : Headers)

/-- The ranges are for another entity. -/
def MissesRange : Prop :=
  etagStatus v.tag headers (ascii "If-Range") = .miss ∨
    modifiedStatus parseDate v.time headers (ascii "If-Range") = .miss

/-- The condition for the ranges does not hold. -/
def MissesMatch : Prop :=
  (etagStatus v.tag headers (ascii "If-Match") = .miss ∨
      modifiedStatus parseDate v.time headers (ascii "If-Unmodified-Since") = .miss) ∨
    modifiedStatus parseDate v.time headers (ascii "Unless-Modified-Since") = .miss

/-- The client has the entity: by its tag, or by its time if nothing is said about tags. -/
def Unchanged : Prop :=
  etagStatus v.tag headers (ascii "If-None-Match") = .hit ∨
    etagStatus v.tag headers (ascii "If-None-Match") = .no ∧
      modifiedStatus parseDate v.time headers (ascii "If-Modified-Since") = .hit

instance : Decidable (v.MissesRange parseDate headers) := inferInstanceAs (Decidable (_ ∨ _))
instance : Decidable (v.MissesMatch parseDate headers) := inferInstanceAs (Decidable (_ ∨ _))
instance : Decidable (v.Unchanged parseDate headers) := inferInstanceAs (Decidable (_ ∨ _))

end Validators

/-- A response with this status to this request may be cached. -/
def Cacheable (status : ℤ) (request : SentRequest) : Prop :=
  (status = 0 ∨ status.tdiv 100 = 2) ∧
    gotRequestHeader request.headers (ascii "Authorization") = false ∧
    (strcaseEq request.method (ascii "HEAD") = true ∨ strcaseEq request.method (ascii "GET") = true)

instance (status : ℤ) (request : SentRequest) : Decidable (Cacheable status request) :=
  inferInstanceAs (Decidable (_ ∧ _))

/-- What a request for an entity with these validators is answered with if ranges do not matter, and
if nothing else would give the status. -/
def entityVerdict (parseDate : Bytes → ℤ) (v : Validators) (status : ℤ) (request : SentRequest) :
    Verdict :=
  if Cacheable status request ∧ v.Unchanged parseDate request.headers then .notModified else .whole

/-- What a request for an entity of some size is answered with. -/
def verdict (parseDate : Bytes → ℤ) (v : Validators) (size : ℕ) (status : ℤ)
    (request : SentRequest) : Verdict :=
  let ranges := (getRequestRanges size request.headers).1
  if ranges = .err ∧ gotRequestHeader request.headers
    (ascii "If-Range") = false then .notSatisfiable
  else if ranges = .ok ∧ ¬ v.MissesRange parseDate request.headers then
    if v.MissesMatch parseDate request.headers then .preconditionFailed else .ranges
  else entityVerdict parseDate v status request

/-- The coding of this name: whether it is gzip, if it is one. -/
def codingOf (key : Bytes) : Option Bool :=
  if key = ascii "gzip" then some true else if key = ascii "deflate" then some false else none

/-- The coding of a whole entity. -/
def coding {ε : Type} (L : ResponseLib ε) (options : SendOptions) (request : SentRequest) :
    Except ParamsFault (Option Bool) :=
  if options.contentEncoding = contentEncodingGzip then
    (negotiateEncoding L [ascii "none", ascii "gzip", ascii "deflate"] request.headers).map fun
      | some ((key, _) :: _) => codingOf key
      | _ => none
  else .ok none

/-- Operations that take everything: those about the head in states `J` with a status, data in
states `I` with a status and with what has been written, and the end in these. -/
structure TakesResponse {σ : Type} (ops : ResponseOps σ) (J : ℤ → σ → Prop)
    (I F : ℤ → σ → Bytes → Prop) : Prop where
  status : ∀ c s, J c s → ops.getStatus s = c
  tells : ∀ c s op, J c s → op.tells = true → (ops.step s op).1 = true ∧ J c (ops.step s op).2
  setStatus : ∀ c s c', J c s → (ops.step s (.setStatus c')).1 = true ∧
    J c' (ops.step s (.setStatus c')).2
  begins : ∀ c s, J c s → I c s []
  writes : ∀ c, TakesWrites ops (I c)
  finish : ∀ c s done, I c s done → (ops.step s .finish).1 = true ∧ F c (ops.step s .finish).2 done

namespace Response
variable {σ ε : Type} {L : ResponseLib ε} {ops : ResponseOps σ} {request : SentRequest}
    {J : ℤ → σ → Prop}
  {I F : ℤ → σ → Bytes → Prop} {c : ℤ} {r r' r'' : Response σ ε}

/-! ### The head -/

/-- What the steps of a head leave as it is: everything but the context, and validators that come to
the same. -/
structure Told (L : ResponseLib ε) (r r' : Response σ ε) : Prop where
  same : r' = { r with options := r'.options, state := r'.state }
  options : r.options.SameEntity L r'.options

namespace Told

theorem refl (r : Response σ ε) : Told L r r := ⟨rfl, .refl _⟩

theorem trans (h : Told L r r') (h' : Told L r' r'') : Told L r r'' := by
  refine ⟨h'.same.trans ?_, h.options.trans h'.options⟩
  rw [h.same]

theorem with_encoder (h : Told L r r') (e : Option ε) :
    Told L { r with encoder := e } { r' with encoder := e } := by
  refine ⟨?_, h.options⟩
  rw [h.same]

theorem with_done (h : Told L r r') (d : Bool) :
    Told L { r with done := d } { r' with done := d } := by
  refine ⟨?_, h.options⟩
  rw [h.same]

theorem with_contentType (h : Told L r r') (t : Option CString) :
    Told L { r with contentType := t } { r' with contentType := t } := by
  refine ⟨?_, h.options⟩
  rw [h.same]

end Told

/-- A step of a head that succeeds and comes to a status. -/
structure Tells (L : ResponseLib ε) (J : ℤ → σ → Prop) (c : ℤ) (r : Response σ ε)
    (o : Bool × Response σ ε) :
    Prop where
  ok : o.1 = true
  state : J c o.2.state
  told : Told L r o.2

theorem Tells.after {o : Bool × Response σ ε} (h : Tells L J c r' o) (h' : Told L r r') :
    Tells L J c r o :=
  ⟨h.ok, h.state, h'.trans h.told⟩

theorem Tells.trans {c' : ℤ} {o o' : Bool × Response σ ε} (h : Tells L J c r o)
    (h' : Tells L J c' o.2 o') :
    Tells L J c' r o' := h'.after h.told

theorem missesEtag_spec {body : MessageBody} (hbody : r.options.body = some body) (name : Bytes) :
    ((r.missesEtag L request name).1 = true ↔
        etagStatus (r.options.validators L body).tag request.headers name = .miss) ∧
      r.options.SameEntity L (r.missesEtag L request name).2.options := by
  obtain ⟨hstatus, hsame⟩ := SendOptions.cachedByEtag_spec (L := L) request.headers name hbody
  refine ⟨?_, hsame⟩
  rw [missesEtag]
  dsimp only
  rw [hstatus, decide_eq_true_eq]

theorem missesLastModified_spec {body : MessageBody} (hbody : r.options.body = some body)
    (name : Bytes) :
    ((r.missesLastModified L request name).1 = true ↔
        modifiedStatus L.parseDate (r.options.validators L body).time request.headers name =
          .miss) ∧
      r.options.SameEntity L (r.missesLastModified L request name).2.options := by
  obtain ⟨hstatus, hsame⟩ := SendOptions.cachedByLastModified_spec
    (L := L) request.headers name hbody
  refine ⟨?_, hsame⟩
  rw [missesLastModified]
  dsimp only
  rw [hstatus, decide_eq_true_eq]

theorem sameEntity_missesEtag (r : Response σ ε) (name : Bytes) :
    r.options.SameEntity L (r.missesEtag L request name).2.options := by
  cases hbody : r.options.body with
  | none =>
    rw [missesEtag, SendOptions.cachedByEtag_none _ _ hbody]
    exact .refl _
  | some body => exact (missesEtag_spec hbody name).2

theorem sameEntity_missesLastModified (r : Response σ ε) (name : Bytes) :
    r.options.SameEntity L (r.missesLastModified L request name).2.options := by
  cases hbody : r.options.body with
  | none =>
    rw [missesLastModified, SendOptions.cachedByLastModified_none _ _ hbody]
    exact .refl _
  | some body => exact (missesLastModified_spec hbody name).2

/-- The steps of a head succeed on operations that take everything. -/
theorem tells_rule (hops : TakesResponse ops J I F) (L : ResponseLib ε)
    (request : SentRequest) (c : ℤ) :
    HeadRule L ops request (fun r => J c r.state) (Tells L J c) where
  op h ho := ⟨(hops.tells c _ _ h ho).1, (hops.tells c _ _ h ho).2, ⟨rfl, .refl _⟩⟩
  pass h ho _ := ⟨rfl, (hops.tells c _ _ h ho).2, ⟨rfl, .refl _⟩⟩
  seq h _ h' := h.trans (h' h.state)
  keep h := ⟨rfl, h, .refl _⟩
  missesEtag name h := ⟨rfl, h, ⟨rfl, sameEntity_missesEtag _ name⟩⟩
  missesLastModified name h := ⟨rfl, h, ⟨rfl, sameEntity_missesLastModified _ name⟩⟩

end Response

end ExtHttp
