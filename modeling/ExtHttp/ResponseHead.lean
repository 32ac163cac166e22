import ExtHttp.Response

/-!
# The head of a response, step by step

What holds of single operations about headers, and of a sequence if it holds of its parts, holds of
everything that a response does for its head besides setting a status.
-/
namespace ExtHttp

/-- The operations about headers that there is no reason to refuse. -/
def StreamOp.tells : StreamOp → Bool
  | .setHeader str | .addHeader str => colon ∈ cString str
  | .setProtocolVersion _ | .delHeader _ => true
  | _ => false

/-- The operations that may fail without the response failing: nobody asks whether the headers of
the message and the status 304 are taken, nor whether a flush works; the tag may be followed by the
time, and data by more data. -/
def StreamOp.Unheeded (headers : List (ArrayKey × HeaderValue)) : StreamOp → Prop
  | .setHeader str => str ∈ headerToCallback false headers ∨ ascii "ETag: " <+: str
  | .setStatus code => code = 304
  | .write _ | .flush => True
  | _ => False

theorem StreamOp.tells_isSetter {o : StreamOp} (h : o.tells = true) : o.isSetter = true := by
  cases o with
  | write data => cases h
  | flush => cases h
  | finish => cases h
  | _ => rfl

/-- What stands in front of a text without a NUL is in the C string. -/
theorem cString_append_left {s : Bytes} (h : nul ∉ s) (t : Bytes) :
    cString (s ++ t) = s ++ cString t :=
  List.takeWhile_append_of_pos fun c hc => by
    have hne : c ≠ nul := fun he => h (he ▸ hc)
    simpa using hne

theorem mem_cString_append {s : Bytes} (h : nul ∉ s) (hs : colon ∈ s) (t : Bytes) :
    colon ∈ cString (s ++ t) := by
  rw [cString_append_left h]
  exact List.mem_append_left _ hs

theorem setHeader_tells {s : Bytes} (t : Bytes) (h : nul ∉ s) (hs : colon ∈ s) :
    (StreamOp.setHeader (s ++ t)).tells = true := decide_eq_true (mem_cString_append h hs t)

theorem addHeader_tells {s : Bytes} (t : Bytes) (h : nul ∉ s) (hs : colon ∈ s) :
    (StreamOp.addHeader (s ++ t)).tells = true := decide_eq_true (mem_cString_append h hs t)

theorem formatHeader_tells (key str : Bytes) : colon ∈ cString (formatHeader false key str) := by
  have hkey : nul ∉ cString key := fun h => by simpa using List.mem_takeWhile_imp h
  simp only [formatHeader, List.append_assoc]
  rw [cString_append_left hkey]
  exact List.mem_append_right _ (mem_cString_append (by decide) (by decide) _)

namespace Response
variable {σ ε : Type} {L : ResponseLib ε} {ops : ResponseOps σ} {request : SentRequest}

/-- A property of what becomes of a response in a state, which is kept up over the steps of its
head. -/
structure HeadRule (L : ResponseLib ε) (ops : ResponseOps σ) (request : SentRequest)
    (A : Response σ ε → Prop)
    (Φ : Response σ ε → Bool × Response σ ε → Prop) : Prop where
  op : ∀ {r : Response σ ε} {o : StreamOp}, A r → o.tells = true → Φ r (r.op ops o)
  pass : ∀ {r : Response σ ε} {o : StreamOp}, A r → o.tells = true → o.Unheeded r.options.headers →
    Φ r (true, (r.op ops o).2)
  seq : ∀ {r : Response σ ε} {o o' : Bool × Response σ ε},
    Φ r o → o.1 = true → (A o.2 → Φ o.2 o') → Φ r o'
  keep : ∀ {r : Response σ ε}, A r → Φ r (true, r)
  missesEtag : ∀ {r : Response σ ε} (name : Bytes), A r →
    Φ r (true, (r.missesEtag L request name).2)
  missesLastModified : ∀ {r : Response σ ε} (name : Bytes),
    A r → Φ r (true, (r.missesLastModified L request name).2)

namespace HeadRule
variable {A : Response σ ε → Prop} {Φ : Response σ ε → Bool × Response σ ε → Prop}
    {r : Response σ ε}

theorem andThen (R : HeadRule L ops request A Φ) {o : Bool × Response σ ε}
    {f : Response σ ε → Bool × Response σ ε} (h : Φ r o) (hf : ∀ r, A r → Φ r (f r)) :
    Φ r (Response.andThen o f) := by
  unfold Response.andThen
  split_ifs with hok
  · exact R.seq h hok (hf o.2)
  · exact h

theorem sendHeaders (R : HeadRule L ops request A Φ) (h : A r) : Φ r (true, r.sendHeaders ops) := by
  have htexts : ∀ text ∈ headerToCallback false r.options.headers,
      (StreamOp.setHeader text).tells = true ∧
      (StreamOp.setHeader text).Unheeded r.options.headers := by
    intro text htext
    refine ⟨?_, .inl htext⟩
    obtain ⟨⟨key, val⟩, -, hmem⟩ := List.mem_flatMap.mp htext
    cases key with
    | long n => cases hmem
    | str key =>
      obtain ⟨v, -, rfl⟩ := List.mem_map.mp hmem
      cases v <;> exact decide_eq_true (formatHeader_tells _ _)
  unfold Response.sendHeaders
  generalize headerToCallback false r.options.headers = texts at htexts ⊢
  induction texts generalizing r with
  | nil => exact R.keep h
  | cons text texts ih =>
    rw [List.forall_mem_cons] at htexts
    exact R.seq (R.pass h htexts.1.1 htexts.1.2) rfl fun h => ih h htexts.2

theorem sendVersion (R : HeadRule L ops request A Φ) (h : A r) : Φ r (r.sendVersion ops) := by
  unfold Response.sendVersion
  split_ifs
  · exact R.keep h
  · cases versionParse (r.options.httpVersion ++ [nul]) with
    | none => exact R.keep h
    | some v => exact R.op h rfl

theorem sendCookies (R : HeadRule L ops request A Φ) (cookies : List (Option CookieList))
    (h : A r) :
    Φ r (Response.sendCookies L ops cookies r) := by
  induction cookies generalizing r with
  | nil => exact R.keep h
  | cons cookie cookies ih =>
    cases cookie with
    | none => exact ih h
    | some list =>
      exact R.andThen (R.op h (addHeader_tells _ (by decide) (by decide))) fun r => ih

theorem sendCacheControl (R : HeadRule L ops request A Φ) (h : A r) :
    Φ r (r.sendCacheControl ops) := by
  unfold Response.sendCacheControl
  split_ifs
  · exact R.keep h
  · exact R.op h (setHeader_tells _ (by decide) (by decide))

theorem sendContentDisposition (R : HeadRule L ops request A Φ) (h : A r) :
    Φ r (r.sendContentDisposition L ops) := by
  unfold Response.sendContentDisposition
  dsimp only
  split_ifs
  · exact R.keep h
  · exact R.op h (setHeader_tells _ (by decide) (by decide))

theorem notModified (R : HeadRule L ops request A Φ) (h : A r) :
    Φ r (true, (r.notModified L request).2) := by
  have hetag := R.missesEtag (ascii "If-None-Match") h
  unfold Response.notModified
  dsimp only
  split
  · exact hetag
  · exact hetag
  · exact R.seq hetag rfl fun h => R.missesLastModified (ascii "If-Modified-Since") h

theorem sendValidators (R : HeadRule L ops request A Φ) (h : A r) :
    Φ r (r.sendValidators L ops) := by
  have hetag : ∀ etag : Bytes, (StreamOp.setHeader (etagHeader etag)).tells = true := fun etag => by
    unfold etagHeader
    split_ifs
    · exact setHeader_tells _ (by decide) (by decide)
    · exact setHeader_tells _ (by decide) (by decide)
  have hstarts : ∀ etag : Bytes, ascii "ETag: " <+: etagHeader etag := fun etag => by
    unfold etagHeader
    split_ifs <;> exact List.prefix_append _ _
  unfold Response.sendValidators
  dsimp only
  split_ifs
  · exact R.op h (hetag _)
  · exact R.seq (R.pass h (hetag _) (.inr (hstarts _))) rfl fun h =>
      R.op h (setHeader_tells _ (by decide) (by decide))

end HeadRule

end Response

end ExtHttp
