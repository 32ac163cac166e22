import ExtHttp.CookieText
import ExtHttp.ParamsItems

/-!
# Cookies, written and read

Reading what has been written gives the cookies, the extras and the attributes, under names that
have percent signs where they had other characters.
-/
namespace ExtHttp

/-- What `php_http_cookie_list_parse` asks `php_http_params_parse` for. -/
def cookieOpts : ParamsOpts := { paramsOptsDefault with param := [] }

theorem headerOpts_cookie : HeaderOpts cookieOpts := ⟨.inr rfl, rfl, rfl, rfl, rfl⟩

/-! ### Percent signs -/

theorem rawUrlDecode_plain {c : Byte} (h : c ≠ percent) (s : Bytes) :
    rawUrlDecode (c :: s) = c :: rawUrlDecode s := by
  cases s with
  | nil => rfl
  | cons a s =>
    cases s with
    | nil => rfl
    | cons b s => rw [rawUrlDecode, if_neg fun hc => h hc.1]

theorem rawUrlDecode_rawUrlEncode (s : Bytes) : rawUrlDecode (rawUrlEncode s) = s := by
  induction s with
  | nil => rfl
  | cons c s ih =>
    have hs : rawUrlEncode (c :: s) = (if isUnreserved c then [c] else
        [percent, upperHex (c.toNat / 16), upperHex (c.toNat % 16)]) ++ rawUrlEncode s := rfl
    rw [hs]
    split_ifs with hc
    · rw [List.singleton_append, rawUrlDecode_plain (isUnreserved_char hc).1, ih]
    · have hlt := c.toNat_lt
      obtain ⟨hhi, hhival, -⟩ := upperHex_digit (c.toNat / 16) (by omega)
      obtain ⟨hlo, hloval, -⟩ := upperHex_digit (c.toNat % 16) (by omega)
      rw [List.cons_append, List.cons_append, List.singleton_append, rawUrlDecode,
        if_pos ⟨rfl, hhi, hlo⟩, hhival, hloval, hex_pair, ih]

theorem rawUrlDecode_noPercent {s : Bytes} (h : percent ∉ s) : rawUrlDecode s = s := by
  induction s with
  | nil => rfl
  | cons c s ih =>
    rw [List.mem_cons, not_or] at h
    rw [rawUrlDecode_plain (Ne.symm h.1), ih h.2]

theorem rawUrlEncode_injective : Function.Injective rawUrlEncode :=
  Function.LeftInverse.injective rawUrlDecode_rawUrlEncode

theorem asterisk_notMem_rawUrlEncode (s : Bytes) : asterisk ∉ rawUrlEncode s := by
  intro h
  obtain ⟨c, -, hc⟩ := List.mem_flatMap.mp h
  revert hc
  revert c
  decide +kernel

/-! ### Pairs -/

/-- A name and its text, if it has one, as they stand in a cookie string. -/
structure CookiePair where
  name : Bytes
  val : Option Bytes

/-- The text of an attribute or a value that is read as it is. -/
structure AttributeText (s : Bytes) : Prop where
  chars : ∀ c ∈ s, IsPlain c ∨ c = comma
  head : ∀ c ∈ s.head?, isTrimmed c = false ∧ c ≠ comma
  last : ∀ c ∈ s.getLast?, isTrimmed c = false

namespace CookiePair

def text (p : CookiePair) : Bytes := p.name ++ p.val.elim [] (equalSign :: ·) ++ [semicolon, space]

/-- A pair behind some blanks. -/
def item (lead : Bytes) (p : CookiePair) : ParamItem := ⟨lead ++ p.name, p.val, p.name, p.val⟩

structure Fits (p : CookiePair) : Prop where
  word : IsWord p.name
  ne : p.name ≠ []
  last : asterisk ∉ p.name
  val : ∀ s ∈ p.val, AttributeText s

def value (p : CookiePair) : Value := p.val.elim (.bool true) .str

end CookiePair

section
variable {P : ParamsLib} {p : CookiePair} {w s : Bytes}

theorem IsWord.plain (h : IsWord w) : ∀ c ∈ w, IsPlain c := fun c hc => by
  obtain ⟨-, -, hquote, hback, hcomma, hsemicolon, hequal, -⟩ := isNameChar_word (h c hc)
  exact ⟨hcomma, hsemicolon, hequal, hquote, hback⟩

theorem IsWord.attributeText (h : IsWord w) : AttributeText w where
  chars c hc := .inl (h.plain c hc)
  head c hc := ⟨(isNameChar_word (h c (List.mem_of_mem_head? hc))).1,
    (h.plain c (List.mem_of_mem_head? hc)).1⟩
  last c hc := (isNameChar_word (h c (List.mem_of_mem_getLast? hc))).1

theorem passes_comma : Passes cookieOpts [comma] := by
  intro phase hphase slice rest
  have htrack : trackQuotes cookieOpts.flags phase false false comma = (false, false) := rfl
  have hturn := paramsSlices_char cookieOpts hphase false false comma slice rest
    fun seps hseps => by
      refine checkSep_eq_zero (fun sep hsep _ hpre => ?_) _ _
      rcases mem_seps.mp (hseps hsep) with h | h | h
      · cases h
      · rw [headerOpts_cookie.sep_cases.2.1 h] at hpre
        exact absurd (List.cons_prefix_cons.mp hpre).1 (by decide)
      · rw [headerOpts_cookie.sep_cases.2.2 h] at hpre
        exact absurd (List.cons_prefix_cons.mp hpre).1 (by decide)
  rw [htrack] at hturn
  exact hturn

theorem AttributeText.passes (h : AttributeText s) : Passes cookieOpts s := by
  have hchars := h.chars
  clear h
  induction s with
  | nil => exact .nil
  | cons c s ih =>
    rw [List.forall_mem_cons] at hchars
    refine Passes.append (s := [c]) ?_ (ih hchars.2)
    rcases hchars.1 with hc | rfl
    · exact passes_char headerOpts_cookie hc
    · exact passes_comma

theorem AttributeText.sanitizeValue (h : AttributeText s) (hne : s ≠ []) (hP : Strips P) :
    sanitizeValue P paramsDefault s false = .ok (.str s) := by
  have htrim : phpTrim isTrimmed s = s := by
    simpa using @phpTrim_surrounded isTrimmed [] s [] (by simp)
      (fun c hc => (h.head c hc).1) h.last hne
  have hchar : ∀ c ∈ s, c ≠ quote ∧ c ≠ backslash := fun c hc => by
    rcases h.chars c hc with hplain | rfl
    · exact ⟨hplain.2.2.2.1, hplain.2.2.2.2⟩
    · decide
  have hhead : ¬ (s.head? = some quote ∧ s.getLast? = some quote) := fun hq =>
    (hchar _ (List.mem_of_mem_head? hq.1)).1 rfl
  have hstrip : P.stripcslashes s = s := hP s fun hback => (hchar _ hback).2 rfl
  unfold ExtHttp.sanitizeValue valueText
  dsimp only
  rw [if_neg Bool.false_ne_true, htrim]
  simp [unescape, sanitizeEscaped, paramsDefault, hhead, hstrip, bind, Except.bind]

/-- Blanks in front of a name. -/
theorem IsWord.sanitizeKey_lead (h : IsWord w) (hne : w ≠ []) (hlast : asterisk ∉ w) (hP : Strips P)
    {lead : Bytes} (hlead : ∀ c ∈ lead, isTrimmed c = true) :
    ExtHttp.sanitizeKey P paramsDefault (lead ++ w) = .ok (.str w, false) := by
  have htrim : phpTrim isTrimmed (lead ++ w) = phpTrim isTrimmed w := by
    have hword := @phpTrim_surrounded isTrimmed lead w [] (by simpa using hlead)
      (fun c hc => (isNameChar_word (h c (List.mem_of_mem_head? hc))).1)
      (fun c hc => (isNameChar_word (h c (List.mem_of_mem_getLast? hc))).1) hne
    rw [h.trim]
    simpa using hword
  have hnot : w.getLast? ≠ some asterisk := fun hl => hlast (List.mem_of_mem_getLast? hl)
  have hkey := h.sanitizeKey hne hP
  rw [if_neg hnot, decide_eq_false hnot] at hkey
  rw [← hkey]
  unfold ExtHttp.sanitizeKey
  rw [htrim]

theorem CookiePair.Fits.reads (hp : p.Fits) (hP : Strips P) {lead : Bytes}
    (hlead : ∀ c ∈ lead, c = space) :
    (p.item lead).Reads P cookieOpts where
  key_ne := List.append_ne_nil_of_right_ne_nil _ hp.ne
  key := hp.word.sanitizeKey_lead hp.ne hp.last hP fun c hc => by
    rw [hlead c hc]
    rfl
  name_ne := hp.ne
  isSome := rfl
  val v hv s hs := by
    obtain rfl := Option.some.inj (hv.symm.trans hs)
    by_cases hempty : v = []
    · exact .inl ⟨hempty, hempty⟩
    · exact .inr ⟨hempty, (hp.val v hv).sanitizeValue hempty hP⟩
  fits sep ofArg g hg := by
    rw [ParamItem.segments, List.mem_cons] at hg
    have hchars : ∀ c ∈ lead ++ p.name, IsPlain c := fun c hc => by
      rcases List.mem_append.mp hc with hc | hc
      · rw [hlead c hc]
        decide
      · exact hp.word.plain c hc
    rcases hg with rfl | hg
    · refine ⟨passes_plain headerOpts_cookie hchars, fun c hc => ?_, fun h => ?_⟩
      · obtain ⟨hcomma, hsemicolon, hequal, -⟩ := hchars c (List.mem_of_mem_head? hc)
        exact ⟨hcomma, hsemicolon, hequal⟩
      · exact absurd h (List.append_ne_nil_of_right_ne_nil _ hp.ne)
    · cases hval : p.val with
      | none => simp [CookiePair.item, hval] at hg
      | some s =>
        have htext := hp.val s hval
        simp only [CookiePair.item, hval, Option.elim_some, List.mem_singleton] at hg
        subst hg
        refine ⟨htext.passes, fun c hc => ?_, fun _ => ?_⟩
        · have hne := (htext.head c hc).2
          rcases htext.chars c (List.mem_of_mem_head? hc) with hplain | hcomma
          · exact ⟨hplain.1, hplain.2.1, hplain.2.2.1⟩
          · exact absurd hcomma hne
        · cases ofArg with
          | false => exact .inl rfl
          | true => exact .inr rfl

/-! ### The string -/

/-- What is pushed behind the last pair. -/
def blankSegment : Segment := ⟨semicolon, .arg, [space]⟩

theorem pushParam_blank (hP : Strips P) (st : ParamsState) (hst : st.rfc5987 = false) :
    pushParam P cookieOpts .arg [space] st = .ok st := by
  have hkey : sanitizeKey P paramsDefault [space] = .ok (.str [], false) := by
    have htrim : phpTrim isTrimmed [space] = [] := by decide
    have hnil : P.stripcslashes [] = [] := hP [] (by simp)
    unfold sanitizeKey
    rw [htrim]
    simp [unescape, sanitizeEscaped, paramsDefault, hnil, bind, Except.bind]
  unfold pushParam
  dsimp only
  rw [if_neg (by decide), show cookieOpts.flags = paramsDefault from rfl, hkey]
  simp [bind, Except.bind, ← hst]

theorem pairs_text (p : CookiePair) (ps : List CookiePair) :
    (p :: ps).flatMap CookiePair.text = p.name ++ segmentsText
      ((p.val.elim [] fun v => [⟨equalSign, .val false, v⟩]) ++
        ((ps.map (CookiePair.item [space])).flatMap (·.segments semicolon true) ++
          [blankSegment])) := by
  induction ps generalizing p with
  | nil => cases hval : p.val <;> simp [CookiePair.text, segmentsText, blankSegment, hval]
  | cons q ps ih =>
    have hrest := ih q
    cases hval : p.val <;> cases hval' : q.val <;>
      simp_all [CookiePair.text, segmentsText, CookiePair.item, ParamItem.segments]

/-- The parameter that a cookie string is. -/
def pairsParam (p : CookiePair) (ps : List CookiePair) : Entries :=
  [(symKey p.name, .array [(valueKey, p.value),
    (argumentsKey, .array (ps.map fun p => (symKey p.name, p.value)))])]

theorem paramsParse_pairs (hP : Strips P) {ps : List CookiePair} (hfits : ∀ q ∈ p :: ps, q.Fits)
    (hnodup : (ps.map CookiePair.name).Nodup) :
    paramsParse P cookieOpts [] ((p :: ps).flatMap CookiePair.text) = .ok (pairsParam p ps) := by
  rw [List.forall_mem_cons] at hfits
  have hp := hfits.1.reads hP (show ∀ c ∈ ([] : Bytes), c = space by simp)
  have hps : ∀ i ∈ ps.map (CookiePair.item [space]), i.Reads P cookieOpts := fun i hi => by
    obtain ⟨q, hq, rfl⟩ := List.mem_map.mp hi
    exact (hfits.2 q hq).reads hP (by simp)
  have hblank : Anywhere cookieOpts [blankSegment] := fun phase _ => by
    have hspace : ∀ c ∈ [space], IsPlain c := fun c hc => by
      rw [List.mem_singleton.mp hc]
      decide
    refine ⟨.arg, ⟨passes_plain headerOpts_cookie hspace, fun c hc => ?_, by simp [blankSegment]⟩,
      trivial⟩
    obtain rfl : space = c := Option.some.inj hc
    decide
  have hparse := paramsParse_segments headerOpts_cookie hp ((anywhere_args hps).append hblank) []
  have hnames : (((ps.map (CookiePair.item [space])).map ParamItem.name)).Nodup := by
    rw [List.map_map]
    exact hnodup
  obtain ⟨val, hargs⟩ := pushAll_args (show Entries.find [] (symKey p.name) = none from rfl)
    p.value [] (some [symKey p.name, valueKey]) hps (fun _ _ => rfl) hnames
  have hpush : pushAll P cookieOpts ⟨[], none, none, false⟩ ((p.item []).slices false) =
      .ok (paramsAt [] p.name p.value [] (some [symKey p.name, valueKey])) :=
    pushAll_param headerOpts_cookie hp rfl
  have hlast : pushAll P cookieOpts (paramsAt [] p.name p.value
      ([] ++ (ps.map (CookiePair.item [space])).map ParamItem.entry) val) [(.arg, [space])] =
      .ok (paramsAt [] p.name p.value
        ([] ++ (ps.map (CookiePair.item [space])).map ParamItem.entry) val) :=
    pushAll_cons _ _ (pushParam_blank hP _ rfl)
  rw [pairs_text]
  refine hparse.trans ?_
  rw [List.map_append, args_slices, pushAll_append hpush, pushAll_append hargs]
  refine (congrArg _ hlast).trans ?_
  simp only [Except.map, paramsAt, pairsParam, List.nil_append, List.map_map]
  rfl

end

/-! ### Cookie lists -/

/-- Cookies or extras as they stand in a cookie string. -/
def entryPairs (es : Entries) : List CookiePair :=
  es.map fun e => ⟨rawUrlEncode e.1.stringify, some (rawUrlEncode e.2.toStr)⟩

/-- An attribute that is there under a condition. -/
def attributePairs (there : Bool) (name : String) (val : Option Bytes) : List CookiePair :=
  if there then [⟨ascii name, val⟩] else []

def domainPairs (l : CookieList) : List CookiePair :=
  let domain := cString (l.domain.getD [])
  attributePairs (domain ≠ []) "domain" (some domain)

def pathPairs (l : CookieList) : List CookiePair :=
  let path := cString (l.path.getD [])
  attributePairs (path ≠ []) "path" (some path)

def expiresPairs (formatDate : ℤ → CString) (l : CookieList) : List CookiePair :=
  attributePairs (0 ≤ l.expires) "expires" (some (formatDate l.expires).bytes)

def maxAgePairs (l : CookieList) : List CookiePair :=
  attributePairs (0 ≤ l.maxAge) "max-age" (some (formatLong l.maxAge))

/-- The attributes in front of the extras. -/
def attributesOf (formatDate : ℤ → CString) (l : CookieList) : List CookiePair :=
  domainPairs l ++ (pathPairs l ++ (expiresPairs formatDate l ++ maxAgePairs l))

def flagsOf (l : CookieList) : List CookiePair :=
  attributePairs l.secure "secure" none ++ attributePairs l.httpOnly "httpOnly" none

/-- All that a cookie string consists of. -/
def cookiePairs (formatDate : ℤ → CString) (l : CookieList) : List CookiePair :=
  entryPairs l.cookies ++ (attributesOf formatDate l ++ (entryPairs l.extras ++ flagsOf l))

theorem appendEntries_eq (buf : Bytes) (es : Entries) :
    appendEntries buf es = buf ++ (entryPairs es).flatMap CookiePair.text := by
  induction es generalizing buf with
  | nil => simp [appendEntries, entryPairs]
  | cons e es ih =>
    have hcons : appendEntries buf (e :: es) =
        appendEntries (appendEncoded buf e.1.stringify e.2.toStr) es := rfl
    rw [hcons, ih]
    simp [appendEncoded, entryPairs, CookiePair.text]

theorem ite_append_eq (there : Bool) (buf : Bytes) (name : String) (val : Option Bytes) :
    (if there then buf ++ (⟨ascii name, val⟩ : CookiePair).text else buf) =
      buf ++ (attributePairs there name val).flatMap CookiePair.text := by
  cases there <;> simp [attributePairs]

theorem cookieListToString_eq (formatDate : ℤ → CString) (l : CookieList) :
    cookieListToString formatDate l = (cookiePairs formatDate l).flatMap CookiePair.text := by
  have hflag : ∀ (there : Bool) buf name, (if there then buf ++ ascii (name ++ "; ") else buf) =
      buf ++ (attributePairs there name none).flatMap CookiePair.text := fun there buf name => by
    rw [← ite_append_eq]
    cases there <;> simp [CookiePair.text, ascii, semicolon, space]
  have hattribute : ∀ (there : Prop) [Decidable there] buf name val,
      (if there then appendAttribute buf (ascii name) val else buf) =
        buf ++ (attributePairs (decide there) name (some val)).flatMap CookiePair.text :=
          fun there _ buf name val => by
    rw [← ite_append_eq]
    by_cases h : there <;> simp [h, CookiePair.text, appendAttribute]
  unfold cookieListToString
  dsimp only
  rw [show ascii "secure; " = ascii ("secure" ++ "; ") from rfl,
    show ascii "httpOnly; " = ascii ("httpOnly" ++ "; ") from rfl]
  simp only [hflag, hattribute, appendEntries_eq]
  simp only [cookiePairs, attributesOf, domainPairs, pathPairs, expiresPairs, maxAgePairs, flagsOf,
    List.flatMap_append, List.append_assoc, List.nil_append]

/-! ### What is read -/

section
variable {L : CookieLib} {allowed : Option (List CString)} {list : CookieList}

/-- `add_entry` for what a pair is read as. -/
def addPair (L : CookieLib) (allowed : Option (List CString)) (list : CookieList) (p : CookiePair) :
    CookieList :=
  addEntry L false allowed list (symKey p.name) p.value

theorem cookieListOf_pairs (p : CookiePair) (ps : List CookiePair) :
    cookieListOf L false allowed (pairsParam p ps) =
    ps.foldl (addPair L allowed) (addPair L none cookieListInit p) := by
  have hne : valueKey ≠ argumentsKey := by decide
  simp [cookieListOf, pairsParam, addParam, Entries.find_cons, hne, List.foldl_map]
  rfl

/-- The names of entries with percent signs. -/
def encodeNames (es : Entries) : Entries := es.map fun e =>
    (symKey (rawUrlEncode e.1.stringify), .str e.2.toStr)

theorem addPair_domain (s : Bytes) : addPair L allowed list ⟨ascii "domain", some s⟩ =
    { list with domain := some (cString (rawUrlDecode s)) } := by
  unfold addPair addEntry
  dsimp only
  rw [if_neg (by decide), if_pos (by decide)]
  rfl

theorem addPair_path (s : Bytes) : addPair L allowed list ⟨ascii "path", some s⟩ =
    { list with path := some (cString (rawUrlDecode s)) } := by
  unfold addPair addEntry
  dsimp only
  rw [if_pos (by decide)]
  rfl

theorem addPair_expires (s : Bytes) : addPair L allowed list ⟨ascii "expires", some s⟩ =
    { list with expires := L.parseDate (cString (rawUrlDecode s)) } := by
  unfold addPair addEntry
  dsimp only
  rw [if_neg (by decide), if_neg (by decide), if_pos (by decide)]
  rfl

theorem addPair_maxAge (s : Bytes) : addPair L allowed list ⟨ascii "max-age", some s⟩ =
    { list with maxAge := L.toLong (.str s) } := by
  unfold addPair addEntry
  dsimp only
  rw [if_neg (by decide), if_neg (by decide), if_neg (by decide), if_pos (by decide)]
  rfl

theorem addPair_secure :
    addPair L allowed list ⟨ascii "secure", none⟩ = { list with secure := true } := by
  unfold addPair addEntry
  dsimp only
  rw [if_neg (by decide), if_neg (by decide), if_neg (by decide), if_neg (by decide),
    if_pos (by decide)]

theorem addPair_httpOnly :
    addPair L allowed list ⟨ascii "httpOnly", none⟩ = { list with httpOnly := true } := by
  unfold addPair addEntry
  dsimp only
  rw [if_neg (by decide), if_neg (by decide), if_neg (by decide), if_neg (by decide),
    if_neg (by decide), if_pos (by decide)]

/-- A name that is no attribute in any case of its letters, when it is written. -/
def IsCookieName (name : Bytes) : Prop :=
  name ≠ [] ∧ ∀ a ∈ cookieAttributes, keyIs (symKey (rawUrlEncode name)) a = false

/-- An entry of the tables of a list. -/
def IsCookie (e : ArrayKey × Value) : Prop := ∃ name s,
    e = (symKey name, .str s) ∧ IsCookieName name

theorem addPair_entry {name s : Bytes} (hname : IsCookieName name) :
    addPair L allowed list ⟨rawUrlEncode name, some (rawUrlEncode s)⟩ =
      if isExtra allowed (rawUrlEncode name) then
        { list with extras := Entries.update list.extras (symKey (rawUrlEncode name)) (.str s) }
      else
        { list with
          cookies := Entries.update list.cookies (symKey (rawUrlEncode name)) (.str s) } := by
  have hno : ∀ a ∈ cookieAttributes, ¬ keyIs (symKey (rawUrlEncode name)) a = true := fun a ha => by
    rw [hname.2 a ha]
    exact Bool.false_ne_true
  have harg : entryText false (Value.str (rawUrlEncode s)) = s := rawUrlDecode_rawUrlEncode s
  unfold addPair addEntry
  dsimp only
  rw [if_neg (hno _ (by simp [cookieAttributes])), if_neg (hno _ (by simp [cookieAttributes])),
    if_neg (hno _ (by simp [cookieAttributes])), if_neg (hno _ (by simp [cookieAttributes])),
    if_neg (hno _ (by simp [cookieAttributes])), if_neg (hno _ (by simp [cookieAttributes])),
    stringify_symKey]
  have hvalue : CookiePair.value ⟨rawUrlEncode name, some (rawUrlEncode s)⟩ =
      .str (rawUrlEncode s) := rfl
  rw [hvalue, harg]

theorem encodeNames_keys {es : Entries} (hes : ∀ e ∈ es, IsCookie e)
    (hnodup : (es.map Prod.fst).Nodup) :
    ((encodeNames es).map Prod.fst).Nodup := by
  have hkeys : (encodeNames es).map Prod.fst = (es.map Prod.fst).map fun k =>
      symKey (rawUrlEncode k.stringify) := by
    simp [encodeNames]
  rw [hkeys]
  refine List.Nodup.map_on (fun k hk k' hk' h => ?_) hnodup
  obtain ⟨e, he, rfl⟩ := List.mem_map.mp hk
  obtain ⟨e', he', rfl⟩ := List.mem_map.mp hk'
  obtain ⟨name, s, rfl, -⟩ := hes e he
  obtain ⟨name', s', rfl, -⟩ := hes e' he'
  have hname := rawUrlEncode_injective (symKey_injective h)
  simp only [stringify_symKey] at hname
  rw [hname]

/-- Entries that go to one of the tables are appended there. -/
theorem foldl_addPair_entries (list : CookieList) {es : Entries} (hes : ∀ e ∈ es, IsCookie e)
    {extra : Bool} (hextra : ∀ e ∈ es, isExtra allowed (rawUrlEncode e.1.stringify) = extra)
    (hnodup : ((if extra then list.extras else list.cookies) ++
      encodeNames es |>.map Prod.fst).Nodup) :
    (entryPairs es).foldl (addPair L allowed) list =
      if extra then { list with extras := list.extras ++ encodeNames es }
      else { list with cookies := list.cookies ++ encodeNames es } := by
  induction es generalizing list with
  | nil => cases extra <;> simp [entryPairs, encodeNames]
  | cons e es ih =>
    rw [List.forall_mem_cons] at hes hextra
    obtain ⟨name, s, rfl, hname⟩ := hes.1
    have hstr : (symKey name).stringify = name := stringify_symKey name
    have hencode : encodeNames ((symKey name, .str s) :: es) =
        (symKey (rawUrlEncode name), .str s) :: encodeNames es := by
      rw [encodeNames, List.map_cons, hstr]
      rfl
    have hpairs : entryPairs ((symKey name, .str s) :: es) =
        ⟨rawUrlEncode name, some (rawUrlEncode s)⟩ :: entryPairs es := by
      rw [entryPairs, List.map_cons, hstr]
      rfl
    have hthis : isExtra allowed (rawUrlEncode name) = extra := by rw [← hextra.1, hstr]
    rw [hencode, List.append_cons] at hnodup
    have hnew : Entries.find (if extra then list.extras else list.cookies)
        (symKey (rawUrlEncode name)) = none := by
      rw [Entries.find_eq_none]
      intro hmem
      rw [List.map_append, List.map_append] at hnodup
      exact (List.nodup_append.mp (List.nodup_append.mp hnodup).1).2.2 _ hmem _ (by simp) rfl
    rw [hpairs, List.foldl_cons, addPair_entry hname, hthis, hencode]
    cases extra with
    | true =>
      simp only [if_true] at hnew hnodup ⊢
      rw [Entries.update_of_find_none hnew,
        ih { list with extras := list.extras ++ [(symKey (rawUrlEncode name), .str s)] } hes.2
        hextra.2 hnodup, if_pos rfl, ← List.append_cons]
    | false =>
      simp only [Bool.false_eq_true, if_false] at hnew hnodup ⊢
      rw [Entries.update_of_find_none hnew,
        ih { list with cookies := list.cookies ++ [(symKey (rawUrlEncode name), .str s)] } hes.2
        hextra.2 hnodup, if_neg Bool.false_ne_true, ← List.append_cons]

/-- A text that is written for an attribute and comes back as it is. -/
structure SafeText (s : Bytes) : Prop where
  text : AttributeText s
  ne : s ≠ []
  noPercent : percent ∉ s
  noNul : nul ∉ s

theorem SafeText.decoded {s : Bytes} (h : SafeText s) : cString (rawUrlDecode s) = s := by
  rw [rawUrlDecode_noPercent h.noPercent, cString_of_noNul h.noNul]

/-- A list whose string can be read back: what goes for a cookie or an extra is one, and attributes
that are not set have the values they have in the beginning. -/
structure CookieList.Writable (L : CookieLib) (formatDate : ℤ → CString)
    (allowed : Option (List CString))
    (l : CookieList) : Prop where
  cookies_ne : l.cookies ≠ []
  cookies : ∀ e ∈ l.cookies, IsCookie e
  extras : ∀ e ∈ l.extras, IsCookie e
  cookies_nodup : (l.cookies.map Prod.fst).Nodup
  extras_nodup : (l.extras.map Prod.fst).Nodup
  notExtra : ∀ e ∈ l.cookies.tail, isExtra allowed (rawUrlEncode e.1.stringify) = false
  isExtra : ∀ e ∈ l.extras, ExtHttp.isExtra allowed (rawUrlEncode e.1.stringify) = true
  domain : ∀ s ∈ l.domain, SafeText s
  path : ∀ s ∈ l.path, SafeText s
  expires : l.expires = -1 ∨ 0 ≤ l.expires ∧ SafeText (formatDate l.expires).bytes ∧
    L.parseDate (formatDate l.expires).bytes = l.expires
  maxAge : l.maxAge = -1 ∨ 0 ≤ l.maxAge ∧ L.toLong (.str (formatLong l.maxAge)) = l.maxAge

variable {formatDate : ℤ → CString} {l : CookieList}

theorem foldl_domain (hdomain : ∀ s ∈ l.domain, SafeText s) (hlist : list.domain = none) :
    (domainPairs l).foldl (addPair L allowed) list = { list with domain := l.domain } := by
  have hsame : ({ list with domain := none } : CookieList) = list := by rw [← hlist]
  unfold domainPairs attributePairs
  cases h : l.domain with
  | none => simp [cString, hsame]
  | some s =>
    have hs := hdomain s h
    have hc : cString s = s := cString_of_noNul hs.noNul
    simp [hc, hs.ne, addPair_domain, hs.decoded]

theorem foldl_path (hpath : ∀ s ∈ l.path, SafeText s) (hlist : list.path = none) :
    (pathPairs l).foldl (addPair L allowed) list = { list with path := l.path } := by
  have hsame : ({ list with path := none } : CookieList) = list := by rw [← hlist]
  unfold pathPairs attributePairs
  cases h : l.path with
  | none => simp [cString, hsame]
  | some s =>
    have hs := hpath s h
    have hc : cString s = s := cString_of_noNul hs.noNul
    simp [hc, hs.ne, addPair_path, hs.decoded]

theorem foldl_expires
    (hexpires : l.expires = -1 ∨ 0 ≤ l.expires ∧ SafeText (formatDate l.expires).bytes ∧
      L.parseDate (formatDate l.expires).bytes = l.expires)
    (hlist : list.expires = -1) :
    (expiresPairs formatDate l).foldl (addPair L allowed) list =
      { list with expires := l.expires } := by
  have hsame : ({ list with expires := -1 } : CookieList) = list := by rw [← hlist]
  unfold expiresPairs attributePairs
  rcases hexpires with h | ⟨hpos, htext, hdate⟩
  · simp [h, hsame]
  · simp [hpos, addPair_expires, htext.decoded, hdate]

theorem foldl_maxAge
    (hmaxAge : l.maxAge = -1 ∨
      0 ≤ l.maxAge ∧ L.toLong (.str (formatLong l.maxAge)) = l.maxAge)
    (hlist : list.maxAge = -1) :
    (maxAgePairs l).foldl (addPair L allowed) list = { list with maxAge := l.maxAge } := by
  have hsame : ({ list with maxAge := -1 } : CookieList) = list := by rw [← hlist]
  unfold maxAgePairs attributePairs
  rcases hmaxAge with h | ⟨hpos, hlong⟩
  · simp [h, hsame]
  · simp [hpos, addPair_maxAge, hlong]

theorem foldl_flags (hsecure : list.secure = false) (hhttpOnly : list.httpOnly = false) :
    (flagsOf l).foldl (addPair L allowed) list =
      { list with secure := l.secure, httpOnly := l.httpOnly } := by
  have hfirst : (attributePairs l.secure "secure" none).foldl (addPair L allowed) list =
      { list with secure := l.secure } := by
    have hsame : ({ list with secure := false } : CookieList) = list := by rw [← hsecure]
    cases hs : l.secure <;> simp [attributePairs, addPair_secure, hsame]
  have hsecond : ∀ list : CookieList, list.httpOnly = false →
      (attributePairs l.httpOnly "httpOnly" none).foldl (addPair L allowed) list =
        { list with httpOnly := l.httpOnly } := fun list hlist => by
    have hsame : ({ list with httpOnly := false } : CookieList) = list := by rw [← hlist]
    cases hh : l.httpOnly <;> simp [attributePairs, addPair_httpOnly, hsame]
  rw [flagsOf, List.foldl_append, hfirst, hsecond]
  exact hhttpOnly

/-! ### Both ways -/

theorem entryPairs_fits {es : Entries} (hes : ∀ e ∈ es, IsCookie e) :
    ∀ p ∈ entryPairs es, p.Fits := by
  intro p hp
  obtain ⟨e, he, rfl⟩ := List.mem_map.mp hp
  obtain ⟨name, s, rfl, hname⟩ := hes e he
  rw [stringify_symKey]
  refine ⟨rawUrlEncode_chars name, rawUrlEncode_ne_nil hname.1, asterisk_notMem_rawUrlEncode name,
    fun t ht => ?_⟩
  obtain rfl := Option.some.inj ht
  exact IsWord.attributeText (rawUrlEncode_chars s)

theorem formatLong_text {n : ℤ} (h : 0 ≤ n) : AttributeText (formatLong n) := by
  obtain ⟨k, rfl⟩ := Int.eq_ofNat_of_zero_le h
  refine IsWord.attributeText fun c hc => ?_
  simp [isNameChar, isAlnum, formatLong_isDigit k c hc]

theorem attributePairs_fits {there : Bool} {name : String} {val : Option Bytes}
    (hname : IsWord (ascii name)) (hne : ascii name ≠ []) (hlast : asterisk ∉ ascii name)
    (hval : there = true → ∀ s ∈ val, AttributeText s) :
    ∀ p ∈ attributePairs there name val, p.Fits := by
  intro p hp
  unfold attributePairs at hp
  split_ifs at hp with h
  · rw [List.mem_singleton.mp hp]
    exact ⟨hname, hne, hlast, hval h⟩
  · cases hp

theorem CookieList.Writable.attributes_fits (h : l.Writable L formatDate allowed) :
    ∀ p ∈ attributesOf formatDate l ++ flagsOf l, p.Fits := by
  have hsafe : ∀ o : Option Bytes, (∀ s ∈ o, SafeText s) → cString (o.getD []) ≠ [] →
      AttributeText (cString (o.getD [])) := fun o ho hne => by
    cases o with
    | none => exact absurd rfl hne
    | some s =>
      have hs := ho s rfl
      rw [Option.getD_some, cString_of_noNul hs.noNul]
      exact hs.text
  have hall :
      ∀ p ∈ domainPairs l ++ (pathPairs l ++ (expiresPairs formatDate l ++ maxAgePairs l)) ++
      (attributePairs l.secure "secure" none ++ attributePairs l.httpOnly "httpOnly" none),
      p.Fits := by
    simp only [List.forall_mem_append]
    refine ⟨⟨?_, ?_, ?_, ?_⟩, ?_, ?_⟩
    · exact attributePairs_fits (by decide +kernel) (by decide) (by decide) fun hne s hs => by
        obtain rfl := Option.some.inj hs
        exact hsafe _ h.domain (of_decide_eq_true hne)
    · exact attributePairs_fits (by decide +kernel) (by decide) (by decide) fun hne s hs => by
        obtain rfl := Option.some.inj hs
        exact hsafe _ h.path (of_decide_eq_true hne)
    · exact attributePairs_fits (by decide +kernel) (by decide) (by decide) fun hpos s hs => by
        obtain rfl := Option.some.inj hs
        rcases h.expires with hneg | ⟨-, htext, -⟩
        · simp [hneg] at hpos
        · exact htext.text
    · exact attributePairs_fits (by decide +kernel) (by decide) (by decide) fun hpos s hs => by
        obtain rfl := Option.some.inj hs
        exact formatLong_text (of_decide_eq_true hpos)
    · exact attributePairs_fits (by decide +kernel) (by decide) (by decide) (by simp)
    · exact attributePairs_fits (by decide +kernel) (by decide) (by decide) (by simp)
  exact hall

/-- The names of the attributes in their order. -/
def attributeOrder : List Bytes :=
  [ascii "domain", ascii "path", ascii "expires", ascii "max-age", ascii "secure", ascii "httpOnly"]

theorem attributes_sublist (formatDate : ℤ → CString) (l : CookieList) :
    ((attributesOf formatDate l ++ flagsOf l).map CookiePair.name).Sublist attributeOrder := by
  have hone : ∀ there name val, ((attributePairs there name val).map CookiePair.name).Sublist
      [ascii name] :=
    fun there name val => by cases there <;> simp [attributePairs]
  have hall := (hone (cString (l.domain.getD []) ≠ []) "domain"
    (some (cString (l.domain.getD [])))).append
    ((hone (cString (l.path.getD []) ≠ []) "path" (some (cString (l.path.getD [])))).append
      ((hone (0 ≤ l.expires) "expires" (some (formatDate l.expires).bytes)).append
        ((hone (0 ≤ l.maxAge) "max-age" (some (formatLong l.maxAge))).append
          ((hone l.secure "secure" none).append (hone l.httpOnly "httpOnly" none)))))
  have heq : (attributesOf formatDate l ++ flagsOf l).map CookiePair.name =
      (domainPairs l).map CookiePair.name ++ ((pathPairs l).map CookiePair.name ++
        ((expiresPairs formatDate l).map CookiePair.name ++ ((maxAgePairs l).map CookiePair.name ++
          ((attributePairs l.secure "secure" none).map CookiePair.name ++
            (attributePairs l.httpOnly "httpOnly" none).map CookiePair.name)))) := by
    simp only [attributesOf, flagsOf, List.map_append, List.append_assoc]
  rw [heq]
  exact hall

theorem entryPairs_names (es : Entries) :
    (entryPairs es).map CookiePair.name = es.map fun e => rawUrlEncode e.1.stringify := by
  rw [entryPairs, List.map_map]
  rfl

theorem entryPairs_nodup {es : Entries} (hes : ∀ e ∈ es, IsCookie e)
    (hnodup : (es.map Prod.fst).Nodup) :
    ((entryPairs es).map CookiePair.name).Nodup := by
  have hkeys := encodeNames_keys hes hnodup
  have hmap : (encodeNames es).map Prod.fst = ((entryPairs es).map CookiePair.name).map symKey := by
    rw [entryPairs_names, encodeNames, List.map_map, List.map_map]
    rfl
  rw [hmap] at hkeys
  exact hkeys.of_map

/-- Cookies and extras have no names of attributes. -/
theorem entryPairs_disjoint {es : Entries} (hes : ∀ e ∈ es, IsCookie e) {name : Bytes}
    (hname : name ∈ (entryPairs es).map CookiePair.name) : name ∉ attributeOrder := by
  intro hmem
  rw [entryPairs_names, List.mem_map] at hname
  obtain ⟨e, he, rfl⟩ := hname
  obtain ⟨name, s, rfl, hcookie⟩ := hes e he
  rw [stringify_symKey] at hmem
  have hself : ∀ a ∈ attributeOrder, a ∈ cookieAttributes ∧ keyIs (symKey a) a = true := by decide
  obtain ⟨hattribute, hkey⟩ := hself _ hmem
  exact Bool.false_ne_true ((hcookie.2 _ hattribute).symm.trans hkey)

theorem CookieList.Writable.names_nodup (h : l.Writable L formatDate allowed) {cookies : Entries}
    (hcookies : cookies.Sublist l.cookies)
    (hnotExtra : ∀ e ∈ cookies, ExtHttp.isExtra allowed (rawUrlEncode e.1.stringify) = false) :
    ((entryPairs cookies ++ (attributesOf formatDate l ++ (entryPairs l.extras ++ flagsOf l))).map
      CookiePair.name).Nodup := by
  have hcookie : ∀ e ∈ cookies, IsCookie e := fun e he => h.cookies e (hcookies.subset he)
  have hperm :
      ((entryPairs cookies ++ (attributesOf formatDate l ++ (entryPairs l.extras ++ flagsOf l))).map
      CookiePair.name).Perm (((entryPairs cookies ++ entryPairs l.extras).map CookiePair.name) ++
        ((attributesOf formatDate l ++ flagsOf l).map CookiePair.name)) := by
    rw [← List.map_append, List.append_assoc]
    refine List.Perm.map _ (List.Perm.append_left _ ?_)
    rw [← List.append_assoc, ← List.append_assoc]
    exact List.Perm.append_right _ List.perm_append_comm
  rw [hperm.nodup_iff, List.nodup_append, List.map_append, List.nodup_append]
  have hsublist := attributes_sublist formatDate l
  refine ⟨⟨entryPairs_nodup hcookie (h.cookies_nodup.sublist (hcookies.map _)),
    entryPairs_nodup h.extras h.extras_nodup, ?_⟩, hsublist.nodup (by decide), ?_⟩
  · intro name hname name' hname' heq
    rw [entryPairs_names, List.mem_map] at hname hname'
    obtain ⟨e, he, rfl⟩ := hname
    obtain ⟨e', he', rfl⟩ := hname'
    have hno := hnotExtra e he
    rw [heq, h.isExtra e' he'] at hno
    exact Bool.false_ne_true hno.symm
  · intro name hname name' hname' heq
    rw [heq] at hname
    have hattribute := hsublist.subset hname'
    rcases List.mem_append.mp hname with hname | hname
    · exact entryPairs_disjoint hcookie hname hattribute
    · exact entryPairs_disjoint h.extras hname hattribute

theorem CookieList.Writable.foldl_attributes (h : l.Writable L formatDate allowed)
    (hdomain : list.domain = none) (hpath : list.path = none) (hexpires : list.expires = -1)
    (hmaxAge : list.maxAge = -1) :
    (attributesOf formatDate l).foldl (addPair L allowed) list =
      { list with
        domain := l.domain, path := l.path, expires := l.expires, maxAge := l.maxAge } := by
  have hp : (pathPairs l).foldl (addPair L allowed) { list with domain := l.domain } =
      { list with domain := l.domain, path := l.path } := foldl_path h.path hpath
  have he : (expiresPairs formatDate l).foldl (addPair L allowed)
      { list with domain := l.domain, path := l.path } =
      { list with domain := l.domain, path := l.path, expires := l.expires } :=
        foldl_expires h.expires hexpires
  rw [attributesOf, List.foldl_append, foldl_domain h.domain hdomain, List.foldl_append, hp,
    List.foldl_append, he]
  exact foldl_maxAge h.maxAge hmaxAge

/-- A list with the names it has when it has been written. -/
def CookieList.encoded (l : CookieList) : CookieList :=
  { l with cookies := encodeNames l.cookies, extras := encodeNames l.extras }

/-- Reading what has been written gives back cookies, extras and attributes; names keep their
percent signs. -/
theorem cookieListParse_cookieListToString {P : ParamsLib} (hP : Strips P)
    (h : l.Writable L formatDate allowed) :
    cookieListParse L false allowed P (cookieListToString formatDate l) = .ok l.encoded := by
  obtain ⟨e, cookies, hl⟩ := List.exists_cons_of_ne_nil h.cookies_ne
  have hcookies := h.cookies
  have hnodup := h.cookies_nodup
  have hnotExtra := h.notExtra
  rw [hl] at hcookies hnodup hnotExtra
  rw [List.forall_mem_cons] at hcookies
  rw [List.tail_cons] at hnotExtra
  have hfirst : entryPairs l.cookies =
      ⟨rawUrlEncode e.1.stringify, some (rawUrlEncode e.2.toStr)⟩ ::
      entryPairs cookies := by
    rw [hl]
    rfl
  have hnames := h.names_nodup
    (show cookies.Sublist l.cookies by rw [hl]; exact List.sublist_cons_self e cookies) hnotExtra
  have hfits : ∀ q ∈ cookiePairs formatDate l, q.Fits := fun q hq => by
    simp only [cookiePairs, List.mem_append] at hq
    rcases hq with hq | hq | hq | hq
    · exact entryPairs_fits h.cookies q hq
    · exact h.attributes_fits q (List.mem_append_left _ hq)
    · exact entryPairs_fits h.extras q hq
    · exact h.attributes_fits q (List.mem_append_right _ hq)
  rw [cookiePairs, hfirst, List.cons_append] at hfits
  have hkeys := encodeNames_keys (List.forall_mem_cons.mpr hcookies) hnodup
  rw [cookieListParse, cookieListToString_eq, cookiePairs, hfirst, List.cons_append]
  refine (congrArg (Except.map _) (paramsParse_pairs hP hfits hnames)).trans (congrArg Except.ok ?_)
  have hone : addPair L none cookieListInit ⟨rawUrlEncode e.1.stringify,
      some (rawUrlEncode e.2.toStr)⟩ =
      { cookieListInit with cookies := encodeNames [e] } := by
    have hfold := @foldl_addPair_entries L none cookieListInit [e]
      (by simpa using hcookies.1) false (fun _ _ => rfl) (by simp [encodeNames, cookieListInit])
    exact hfold
  have hrest := @foldl_addPair_entries L allowed
    { cookieListInit with cookies := encodeNames [e] } cookies hcookies.2 false hnotExtra
    hkeys
  have hextras := @foldl_addPair_entries L allowed
    { l with cookies := encodeNames l.cookies, extras := [], secure := false, httpOnly := false }
    l.extras h.extras true h.isExtra (encodeNames_keys h.extras h.extras_nodup)
  simp only [Bool.false_eq_true, if_false, if_true, List.nil_append] at hrest hextras
  have hall : encodeNames [e] ++ encodeNames cookies = encodeNames l.cookies := by
    rw [hl]
    rfl
  rw [hall] at hrest
  rw [cookieListOf_pairs, hone, List.foldl_append, hrest, List.foldl_append,
    h.foldl_attributes rfl rfl rfl rfl, List.foldl_append]
  refine (congrArg (fun list => (flagsOf l).foldl (addPair L allowed) list) hextras).trans ?_
  rw [foldl_flags rfl rfl]
  rfl

theorem rawUrlEncode_unreserved {s : Bytes} (h : ∀ c ∈ s, isUnreserved c = true) :
    rawUrlEncode s = s := by
  induction s with
  | nil => rfl
  | cons c s ih =>
    rw [List.forall_mem_cons] at h
    rw [rawUrlEncode, List.flatMap_cons, if_pos h.1]
    exact congrArg (c :: ·) (ih h.2)

theorem encodeNames_unreserved {es : Entries} (hes : ∀ e ∈ es, IsCookie e)
    (h : ∀ e ∈ es, ∀ c ∈ e.1.stringify, isUnreserved c = true) : encodeNames es = es := by
  have hsame : ∀ e ∈ es, (symKey (rawUrlEncode e.1.stringify),
      Value.str e.2.toStr) = e := fun e he => by
    obtain ⟨name, s, rfl, -⟩ := hes e he
    have hname := h _ he
    rw [stringify_symKey] at hname ⊢
    rw [rawUrlEncode_unreserved hname]
    rfl
  exact (List.map_congr_left hsame).trans (List.map_id' es)

/-- Names that need no percent signs come back as they are. -/
theorem CookieList.encoded_unreserved {l : CookieList}
    (hcookies : ∀ e ∈ l.cookies ++ l.extras, IsCookie e)
    (h : ∀ e ∈ l.cookies ++ l.extras, ∀ c ∈ e.1.stringify, isUnreserved c = true) :
    l.encoded = l := by
  rw [List.forall_mem_append] at hcookies h
  rw [CookieList.encoded, encodeNames_unreserved hcookies.1 h.1,
    encodeNames_unreserved hcookies.2 h.2]

end

/-- A session, and a value that is encoded. -/
def sessionCookies : CookieList :=
  { cookieListInit with
    cookies := [(symKey (ascii "id"), .str (ascii "1")), (symKey (ascii "x y"), .str (ascii "a;b"))]
    path := some (ascii "/")
    secure := true }

theorem cookieListParse_session :
    cookieListParse ⟨fun _ => 0, fun _ => 0⟩ false none plainParamsLib
      (ascii "id=1; x%20y=a%3Bb; path=/; secure; ") = .ok sessionCookies.encoded := by
  have htext : cookieListToString (fun _ => ⟨[], by simp⟩) sessionCookies =
      ascii "id=1; x%20y=a%3Bb; path=/; secure; " := by decide
  have hcookie : ∀ e ∈ sessionCookies.cookies, IsCookie e := by
    simp only [sessionCookies, List.forall_mem_cons]
    exact ⟨⟨ascii "id", ascii "1", rfl, by decide, by decide⟩,
      ⟨ascii "x y", ascii "a;b", rfl, by decide, by decide⟩, by simp⟩
  have hslash : SafeText (ascii "/") := by
    have hchar : IsPlain slash ∧ isTrimmed slash = false ∧ slash ≠ comma := by decide
    have htext : ascii "/" = [slash] := rfl
    rw [htext]
    exact ⟨⟨by simpa using .inl hchar.1, by simpa using hchar.2, by simpa using hchar.2.1⟩, by
      decide, by decide, by decide⟩
  rw [← htext]
  exact cookieListParse_cookieListToString (L := ⟨fun _ => 0, fun _ => 0⟩) (fun _ _ => rfl)
    ⟨by decide, hcookie, by simp [sessionCookies, cookieListInit], by decide, by decide, by
      decide, by decide, by simp [sessionCookies, cookieListInit], by
        simpa [sessionCookies] using hslash, .inl rfl, .inl rfl⟩

end ExtHttp
