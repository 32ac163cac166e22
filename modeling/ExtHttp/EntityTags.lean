import ExtHttp.PrettyKey
import ExtHttp.WordMatch
import ExtHttp.BodyStream

/-!
# Conditional requests

`php_http_env_is_response_cached_by_etag`, beside what the header it looks at says: any entity tag,
or one out of a list. The check searches the text of the header for the tag of the response as a
word.
-/
namespace ExtHttp

def quotation : Byte := 34

/-- `php_http_cache_status_t` -/
inductive CacheStatus
  | no
  | hit
  | miss
  deriving DecidableEq, Repr

/-- The options of a response that the check asks for. -/
structure CacheOptions where
  body : Option MessageBody
  etag : Option Bytes
  deriving DecidableEq, Repr

/-- `php_http_env_get_request_header`, as a C string -/
def getRequestHeader (headers : Headers) (name : Bytes) : Option Bytes :=
  (headers.find (prettyKey true true name)).map fun v => cString v.toStr

/-- The tag of a response: the one it has been given, else that of its body, which is kept. What
`php_http_message_body_etag` makes of a body is a parameter. -/
def responseEtag (bodyEtag : MessageBody → Option CString) (body : MessageBody)
    (etag : Option Bytes) :
    Option Bytes :=
  match etag with
  | some v => some (cString v)
  | none => (bodyEtag body).map CString.bytes

/-- `php_http_env_is_response_cached_by_etag` -/
def isResponseCachedByEtag (bodyEtag : MessageBody → Option CString) (options : CacheOptions)
    (headers : Headers) (name : Bytes) : CacheStatus × CacheOptions :=
  match options.body with
  | none => (.no, options)
  | some body =>
      match responseEtag bodyEtag body options.etag with
      | none => (.no, options)
      | some etag =>
          let kept := { options with etag := options.etag.or (some etag) }
          match getRequestHeader headers name with
          | none => (.no, kept)
          | some header => (if matchWord header etag then .hit else .miss, kept)

/-! ### What the header says -/

/-- A character of an entity tag. -/
def isEtagChar (c : Byte) : Bool := c = 33 || (35 ≤ c && c ≤ 126) || 128 ≤ c

def quoted (tag : Bytes) : Bytes := [quotation] ++ tag ++ [quotation]

def weakMark : Bytes := ascii "W/"

/-- The text of an entity tag in a header. -/
inductive EntityTag (tag : Bytes) : Bytes → Prop
  | strong (hchars : ∀ c ∈ tag, isEtagChar c = true) : EntityTag tag (quoted tag)
  | weak (hchars : ∀ c ∈ tag, isEtagChar c = true) : EntityTag tag (weakMark ++ quoted tag)

/-- The text of a list of entity tags, with blanks around its commas. -/
inductive TagList : Bytes → List Bytes → Prop
  | one {tag text : Bytes} (htag : EntityTag tag text) : TagList text [tag]
  | cons {tag text front back rest : Bytes} {tags : List Bytes} (htag : EntityTag tag text)
      (hfront : ∀ c ∈ front, c = space ∨ c = 9) (hback : ∀ c ∈ back, c = space ∨ c = 9)
      (hrest : TagList rest tags) :
        TagList (text ++ (front ++ [comma] ++ back ++ rest)) (tag :: tags)

/-- The value of `If-None-Match` or `If-Match`: an asterisk or a list. -/
inductive Condition : Bytes → Option (List Bytes) → Prop
  | any : Condition [asterisk] none
  | tags {header : Bytes} {tags : List Bytes} (hlist : TagList header tags) :
    Condition header (some tags)

/-- The opaque tag of a response, with the quotes that are put around it when it is sent. -/
def opaqueTag (etag : Bytes) : Bytes :=
  if quotation ∈ etag.head? then etag
  else if weakMark ++ [quotation] <+: etag then etag.drop 2
  else quoted etag

/-- The tag is one of the list. -/
def Listed (etag : Bytes) (tags : List Bytes) : Prop := opaqueTag etag ∈ tags.map quoted

instance (etag : Bytes) (tags : List Bytes) : Decidable (Listed etag tags) :=
  inferInstanceAs (Decidable (opaqueTag etag ∈ tags.map quoted))

/-- The condition takes the tag. -/
def Allows (tags : Option (List Bytes)) (etag : Bytes) : Prop := ∀ l ∈ tags, Listed etag l

/-- The tags of a list are told apart by the search for a word. -/
structure ToldApart (etag header : Bytes) (tags : List Bytes) : Prop where
  /-- a weak tag is there with its mark -/
  mark : Listed etag tags → weakMark ++ [quotation] <+: etag → ∃ i, OccursAt etag header i
  /-- a tag that is listed does not stand inside a longer word before -/
  free : Listed etag tags → ∀ i, FirstAt etag header i → WordAt etag header i
  /-- one that is not listed is nowhere, or it stands inside a longer word first -/
  apart : ¬ Listed etag tags → ∀ i, FirstAt etag header i → ¬ WordAt etag header i

/-- What the check gets right: a list that is told apart, or an asterisk for a tag that is one or
that is empty. -/
def Decides (etag header : Bytes) : Option (List Bytes) → Prop
  | none => etag = [] ∨ etag = [asterisk]
  | some tags => ToldApart etag header tags

/-! ### Lists of tags -/

theorem EntityTag.noNul {tag text : Bytes} (h : EntityTag tag text) : nul ∉ text := by
  have hquoted : (∀ c ∈ tag, isEtagChar c = true) → nul ∉ quoted tag := by
    intro hchars hmem
    simp only [quoted, List.mem_append, List.mem_singleton] at hmem
    rcases hmem with (hmem | hmem) | hmem
    · exact absurd hmem (by decide)
    · exact absurd (hchars nul hmem) (by decide)
    · exact absurd hmem (by decide)
  cases h with
  | strong hchars => exact hquoted hchars
  | weak hchars =>
    intro hmem
    rcases List.mem_append.mp hmem with hmem | hmem
    · exact absurd hmem (by decide)
    · exact hquoted hchars hmem

theorem TagList.noNul {header : Bytes} {tags : List Bytes} (h : TagList header tags) :
    nul ∉ header := by
  have hblank : ∀ gap : Bytes, (∀ c ∈ gap, c = space ∨ c = 9) → nul ∉ gap :=
    fun gap hgap hmem => absurd (hgap nul hmem) (by decide)
  induction h with
  | one htag => exact htag.noNul
  | cons htag hfront hback _ ih =>
    simp only [List.mem_append, List.mem_singleton, not_or]
    exact ⟨htag.noNul, ⟨⟨hblank _ hfront, by decide⟩, hblank _ hback⟩, ih⟩

/-- What stands between words: nothing, or it ends and begins with no alphanumeric byte. -/
def Separates (front back : Bytes) : Prop :=
  (∀ c ∈ front.getLast?, isAlnum c = false) ∧ ∀ c ∈ back.head?, isAlnum c = false

theorem EntityTag.split {tag text : Bytes} (h : EntityTag tag text) :
    ∃ mark : Bytes, text = mark ++ quoted tag ∧ ∀ c ∈ mark.getLast?, isAlnum c = false := by
  cases h with
  | strong => exact ⟨[], rfl, by simp⟩
  | weak => exact ⟨weakMark, rfl, by decide +kernel⟩

/-- A gap between two tags of a list separates what stands on its sides. -/
theorem separates_gap {gap : Bytes} (hgap : gap ≠ []) (hchars : ∀ c ∈ gap, isAlnum c = false)
    (front back : Bytes) :
    (∀ c ∈ (gap ++ back).head?, isAlnum c = false) ∧ ∀ c ∈ (front ++ gap).getLast?,
      isAlnum c = false := by
  constructor
  · intro c hc
    rw [List.head?_append_of_ne_nil _ hgap] at hc
    exact hchars c (List.mem_of_mem_head? hc)
  · intro c hc
    rw [List.getLast?_append_of_ne_nil _ hgap] at hc
    exact hchars c (List.mem_of_mem_getLast? hc)

/-- Where a listed tag stands. -/
theorem TagList.split {header tag : Bytes} {tags : List Bytes} (h : TagList header tags)
    (hmem : tag ∈ tags) :
    ∃ front back, header = front ++ quoted tag ++ back ∧ Separates front back := by
  induction h with
  | one htag =>
    obtain ⟨mark, rfl, hmark⟩ := htag.split
    rw [List.mem_singleton] at hmem
    subst hmem
    exact ⟨mark, [], by simp, hmark, by simp⟩
  | @cons tag' text front back rest tags htag hfront hback hrest ih =>
    have hblank : ∀ c : Byte, c = space ∨ c = 9 → isAlnum c = false := by
      rintro c (rfl | rfl) <;> decide
    have hgap : front ++ [comma] ++ back ≠ [] := by simp
    have hchars : ∀ c ∈ front ++ [comma] ++ back, isAlnum c = false := by
      intro c hc
      simp only [List.mem_append, List.mem_singleton] at hc
      rcases hc with (hc | rfl) | hc
      · exact hblank c (hfront c hc)
      · decide
      · exact hblank c (hback c hc)
    rcases List.mem_cons.mp hmem with rfl | hmem
    · obtain ⟨mark, rfl, hmark⟩ := htag.split
      exact ⟨mark, front ++ [comma] ++ back ++ rest, rfl, hmark,
        (separates_gap hgap hchars [] rest).1⟩
    · obtain ⟨front', back', rfl, hends, hbegins⟩ := ih hmem
      refine ⟨text ++ (front ++ [comma] ++ back) ++ front', back', by simp, ?_, hbegins⟩
      intro c hc
      rw [List.getLast?_append] at hc
      rcases Option.or_eq_some_iff.mp hc with hc | ⟨-, hc⟩
      · exact hends c hc
      · exact (separates_gap hgap hchars text []).2 c hc

theorem wordAt_append {needle front back : Bytes} (h : Separates front back) :
    WordAt needle (front ++ needle ++ back) front.length := by
  refine ⟨?_, ?_, ?_⟩
  · rw [OccursAt, List.append_assoc, List.drop_left, List.map_append]
    exact List.prefix_append ..
  · rcases front.eq_nil_or_concat with rfl | ⟨front', c, rfl⟩
    · exact Or.inl rfl
    · right
      intro d hd
      have hlast : d = c := by
        simpa [List.getElem?_append] using hd.symm
      exact h.1 d (by simp [hlast])
  · intro d hd
    rw [← List.length_append, List.getElem?_append_right (le_refl _), Nat.sub_self,
      ← List.head?_eq_getElem?] at hd
    exact h.2 d hd

/-- A listed tag is a word of the header, unless it is a weak one. -/
theorem TagList.word {header etag : Bytes} {tags : List Bytes} (h : TagList header tags)
    (hlisted : Listed etag tags) (hstrong : ¬ weakMark ++ [quotation] <+: etag) :
    ∃ i, WordAt etag header i := by
  obtain ⟨tag, hmem, htag⟩ := List.mem_map.mp hlisted
  obtain ⟨front, back, rfl, hsep⟩ := h.split hmem
  unfold opaqueTag at htag
  by_cases hquote : quotation ∈ etag.head?
  · rw [if_pos hquote] at htag
    rw [htag]
    exact ⟨_, wordAt_append hsep⟩
  · rw [if_neg hquote, if_neg hstrong] at htag
    have hsame : tag = etag := by simpa [quoted] using htag
    have hinside : Separates (front ++ [quotation]) ([quotation] ++ back) := by
      constructor
      · intro c hc
        rw [List.getLast?_concat] at hc
        cases hc
        decide
      · intro c hc
        cases hc
        decide
    have hword : WordAt etag (front ++ [quotation] ++ etag ++ ([quotation] ++ back)) _ :=
      wordAt_append hinside
    exact ⟨_, by simpa [quoted, hsame] using hword⟩

/-! ### The check -/

theorem matchWord_asterisk_iff (etag : Bytes) :
    matchWord [asterisk] etag = true ↔ etag = [] ∨ etag = [asterisk] := by
  rw [matchWord_iff (by decide)]
  constructor
  · rintro ⟨i, hfirst, -⟩
    have hlen := hfirst.occurs.length_le
    match etag, hlen with
    | [], _ => exact Or.inl rfl
    | [c], hlen =>
      right
      have hoccurs := hfirst.occurs
      have hzero : i = 0 := by
        simp only [List.length_map, List.length_drop, List.length_singleton] at hlen
        omega
      rw [hzero] at hoccurs
      have hsame : toLower c = toLower asterisk := by simpa [OccursAt] using hoccurs
      have hback : ∀ c : Byte, toLower c = toLower asterisk → c = asterisk := by decide +kernel
      rw [hback c hsame]
    | _ :: _ :: _, hlen =>
      simp only [List.length_map, List.length_cons, List.length_drop, List.length_nil] at hlen
      omega
  · rintro (rfl | rfl)
    · exact ⟨0, ⟨by decide, by simp⟩, by decide +kernel⟩
    · exact ⟨0, ⟨by decide, by simp⟩, by decide +kernel⟩

theorem matchWord_list_iff {header etag : Bytes} {tags : List Bytes} (h : TagList header tags) :
    (matchWord header etag = true ↔ Listed etag tags) ↔ ToldApart etag header tags := by
  rw [matchWord_iff h.noNul]
  constructor
  · intro hiff
    refine ⟨fun hlisted _ => ?_, fun hlisted i hi => ?_, fun hnot i hi hword => ?_⟩
    · obtain ⟨i, hi, -⟩ := hiff.mpr hlisted
      exact ⟨i, hi.occurs⟩
    · obtain ⟨j, hj, hword⟩ := hiff.mpr hlisted
      rwa [hi.unique hj]
    · exact hnot (hiff.mp ⟨i, hi, hword⟩)
  · intro htold
    constructor
    · rintro ⟨i, hi, hword⟩
      by_contra hnot
      exact htold.apart hnot i hi hword
    · intro hlisted
      have hoccurs : ∃ i, OccursAt etag header i := by
        by_cases hweak : weakMark ++ [quotation] <+: etag
        · exact htold.mark hlisted hweak
        · exact (h.word hlisted hweak).imp fun _ hword => hword.occurs
      obtain ⟨j, hj⟩ := hoccurs
      obtain ⟨i, -, hi⟩ := hj.first
      exact ⟨i, hi, htold.free hlisted i hi⟩

/-- The check is right about a condition it decides, and about no other. -/
theorem cachedByEtag_iff (bodyEtag : MessageBody → Option CString) (body : MessageBody)
    (given : Option Bytes) (headers : Headers) (name etag header : Bytes)
    (tags : Option (List Bytes)) (hetag : responseEtag bodyEtag body given = some etag)
    (hheader : getRequestHeader headers name = some header) (hcondition : Condition header tags) :
    ((isResponseCachedByEtag bodyEtag ⟨some body, given⟩ headers name).1 = .hit ↔
      Allows tags etag) ↔
      Decides etag header tags := by
  have hstatus : (isResponseCachedByEtag bodyEtag ⟨some body, given⟩ headers name).1 = .hit ↔
      matchWord header etag = true := by
    simp only [isResponseCachedByEtag, hetag, hheader]
    split_ifs with hmatch <;> simp [hmatch]
  rw [hstatus]
  cases hcondition with
  | any =>
    rw [matchWord_asterisk_iff]
    simp [Allows, Decides]
  | @tags header tags hlist =>
    have hallows : Allows (some tags) etag ↔ Listed etag tags := by simp [Allows]
    rw [hallows]
    exact matchWord_list_iff hlist

/-- A body that has no tag of its own, for examples. -/
def untaggedBody : MessageBody := ⟨⟨ascii "text", 0⟩, none⟩

theorem cachedByEtag_listed :
    ((isResponseCachedByEtag (fun _ => none) ⟨some untaggedBody, some (ascii "abc")⟩
        [(ascii "If-None-Match", .scalar (.str (quoted (ascii "abc"))))]
          (ascii "If-None-Match")).1 = .hit ↔
      Allows (some [ascii "abc"]) (ascii "abc")) ↔
    Decides (ascii "abc") (quoted (ascii "abc")) (some [ascii "abc"]) :=
  cachedByEtag_iff _ _ _ _ _ _ _ _ (by decide) (by decide)
    (.tags (.one (.strong (by decide +kernel))))

/-- A tag that holds the one of the response as a word. -/
theorem cachedByEtag_word :
    Condition (quoted (ascii "abc-def")) (some [ascii "abc-def"]) ∧
    ¬ ((isResponseCachedByEtag (fun _ => none) ⟨some untaggedBody, some (ascii "abc")⟩
        [(ascii "If-None-Match", .scalar (.str (quoted (ascii "abc-def"))))]
          (ascii "If-None-Match")).1 = .hit ↔
      Allows (some [ascii "abc-def"]) (ascii "abc")) := by
  refine ⟨.tags (.one (.strong (by decide +kernel))), fun hiff => ?_⟩
  have hlisted := hiff.mp (by decide) _ rfl
  revert hlisted
  decide

end ExtHttp
