import ExtHttp.StartLine

/-!
# Header lines and start lines

Which lines the state `KEY` of the header parser takes for start lines, and what becomes of a header
line there.
-/
namespace ExtHttp

/-! ### The lines that are taken -/

/-- What is between the first space and the end, less the spaces around it. -/
def target (pre : Bytes) : Bytes :=
  ((pre.dropWhile (· ≠ space)).dropWhile (· = space)).rdropWhile (· = space)

/-- The line is that of a request: in front of the first `HTTP/` is a space, and behind it a version
and nothing else. What there is in front of it is to be taken. -/
def RequestText (takes : Bytes → Prop) (line behind : Bytes) : Prop :=
  ∃ pre t n, line = pre ++ (httpSlash ++ t) ∧ locateStr httpSlash line = some pre.length ∧
    pre.getLast? = some space ∧ VersionText (t ++ behind) n ∧
    (byteAt (t ++ behind) n = nul ∨ isEol (byteAt (t ++ behind) n) = true) ∧ takes pre

/-- The line is that of a response: `HTTP/`, a version, and nothing or a code. -/
def ResponseText (line behind : Bytes) : Prop :=
  ∃ t n, line = httpSlash ++ t ∧ VersionText (t ++ behind) n ∧
    (byteAt (t ++ behind) n = nul ∨ isSpace (byteAt (t ++ behind) n) = true) ∧
    (word (t.drop n) = [] ∨
      100 ≤ statusSum (word (t.drop n) ++ behind) ∧ statusSum (word (t.drop n) ++ behind) ≤ 599)

section Text
variable {Url : Type} (P : UrlParsers Url)

/-- A target is there, and it is a URL. -/
def TakesUrl (pre : Bytes) : Prop := target pre ≠ [] ∧ (P.parse (target pre)).isSome = true

/-- A target is there, and it is a URL or, of a `CONNECT` request, an authority. -/
def TakesTarget (pre : Bytes) : Prop :=
  target pre ≠ [] ∧ ((if (pre.takeWhile (· ≠ space)).map toUpper = connect then P.parseAuthority
    else P.parse) (target pre)).isSome = true

variable {P} {line behind pre t : Bytes}

theorem requestParse_isSome (v : Version) :
    (requestParse P v pre).isSome = true ↔ TakesTarget P pre := by
  have hparse : requestParse P v pre = if target pre = [] then none
      else if (pre.takeWhile (· ≠ space)).map toUpper = connect then
        (P.parseAuthority (target pre)).map (.request v (pre.takeWhile (· ≠ space)))
      else (P.parse (target pre)).map (.request v (pre.takeWhile (· ≠ space))) := rfl
  rw [hparse, TakesTarget]
  by_cases hempty : target pre = []
  · simp [hempty]
  · split_ifs <;> simp [hempty]

theorem infoParse_isSome (hline : firstLine (line ++ behind) = line) :
    (infoParse P (line ++ behind)).isSome = true ↔
      ResponseText line behind ∨ RequestText (TakesTarget P) line behind := by
  constructor
  · intro h
    obtain ⟨info, hinfo⟩ := Option.isSome_iff_exists.mp h
    obtain ⟨pre, t, v, hpre, hloc, hv, hcases⟩ := infoParse_cases hline hinfo
    have hn := versionText_iff.mpr ⟨v, hv, rfl⟩
    rcases hcases with ⟨rfl, hstop⟩ | ⟨hlast, hstop, hreq⟩
    · rw [List.nil_append] at hpre
      subst hpre
      refine .inl ⟨t, _, rfl, hn, hstop, ?_⟩
      rw [infoParse_status hline hv rfl hstop] at hinfo
      dsimp only at hinfo
      by_cases hw : word (t.drop (versionStop v (t ++ behind))) = []
      · exact .inl hw
      · rw [if_neg hw] at hinfo
        exact .inr (Option.ite_none_right_eq_some.mp hinfo).1
    · exact .inr ⟨pre, t, _, hpre, hloc, hlast, hn, hstop,
        (requestParse_isSome v).mp (by simp [hreq])⟩
  · rintro (⟨t, n, rfl, hn, hstop, hcode⟩ | ⟨pre, t, n, hpre, hloc, hlast, hn, hstop, htakes⟩)
    · obtain ⟨v, hv, hnv⟩ := versionText_iff.mp hn
      rw [infoParse_status hline hv hnv hstop]
      dsimp only
      by_cases hw : word (t.drop n) = []
      · rw [if_pos hw]
        rfl
      · rw [if_neg hw, if_pos (hcode.resolve_left hw)]
        rfl
    · obtain ⟨v, hv, rfl⟩ := versionText_iff.mp hn
      have hne : pre ≠ [] := by
        rintro rfl
        cases hlast
      rw [infoParse_eq hline hpre hloc, hv, Option.bind_some]
      dsimp only
      have hspace : ¬ (byteAt (t ++ behind) (versionStop v (t ++ behind)) ≠ nul ∧
          isSpace (byteAt (t ++ behind) (versionStop v (t ++ behind))) = false) := by
        rintro ⟨hnul, hs⟩
        have := isEol_isSpace (hstop.resolve_left hnul)
        simp [this] at hs
      rw [if_neg hspace, if_neg hne, if_pos ⟨hlast, hstop⟩]
      exact (requestParse_isSome v).mpr htakes

end Text

/-! ### Header lines -/

section Field
variable {Url S : Type} (P : UrlParsers Url) (sink : HeaderSink Url S) (call : HeaderCall)

/-- `KEY` records a field and leaves its value, from which it goes on; and where the line is
complete, `VALUE` records the value. There is no start line. -/
def FieldRecorded (s : S) (name value behind : Bytes) : Prop :=
  headerTurn P sink call (headerParserKey, s) (name ++ colon :: (value ++ behind)) =
      .next (⟨.value, some name, none⟩, s) (value.dropWhile isBlank ++ behind) ∧
    ∀ eolLen, locateBinEol behind = some (0, eolLen) →
      headerTurn P sink call (⟨.value, some name, none⟩, s) (value.dropWhile isBlank ++ behind) =
        .next (⟨.valueEx, some name, setAddVal none value⟩, s) (behind.drop eolLen)

/-- The memory behind the line of a field, of which the buffer has `behind`. -/
def behindValue (name value behind : Bytes) : Bytes :=
  behind ++ nul :: call.beyond (name ++ colon :: (value ++ behind))

variable {P sink call} {name value behind : Bytes}

theorem not_httpSlash_prefix_field (hname : ∀ c ∈ name, isNameChar c = true) (value : Bytes) :
    ¬ httpSlash <+: name ++ colon :: value := by
  have hslash : (47 : Byte) ∉ name := fun h => absurd (hname _ h) (by decide)
  rintro ⟨t, ht⟩
  rcases List.append_eq_append_iff.mp ht with ⟨a, rfl, -⟩ | ⟨a, ha, hcolon⟩
  · exact hslash (by simp [httpSlash])
  · cases a with
    | nil =>
      rw [List.append_nil] at ha
      exact hslash (ha ▸ by decide)
    | cons c a =>
      obtain ⟨rfl, -⟩ := List.cons_eq_cons.mp hcolon
      have hmem : colon ∈ httpSlash := by simp [ha]
      exact absurd hmem (by decide)

/-- Only the value of a field can have `HTTP/` in it. -/
theorem locateStr_field (hname : ∀ c ∈ name, isNameChar c = true) (value : Bytes) :
    locateStr httpSlash (name ++ colon :: value) =
      (locateStr httpSlash value).map (· + (name.length + 1)) := by
  induction name with
  | nil =>
    have hno := not_httpSlash_prefix_field hname value
    rw [List.nil_append] at hno ⊢
    rw [locateStr, if_neg hno]
    rfl
  | cons c name ih =>
    have hno := not_httpSlash_prefix_field hname value
    rw [List.cons_append] at hno ⊢
    rw [locateStr, if_neg hno, ih fun d hd => hname d (List.mem_cons_of_mem _ hd), Option.map_map]
    rfl

theorem target_field (hname : ∀ c ∈ name, isNameChar c = true) (pre : Bytes) :
    TakesTarget P (name ++ colon :: pre) ↔ TakesUrl P pre := by
  have hspace : ∀ c ∈ name ++ [colon], decide (c ≠ space) = true := by
    intro c hc
    rcases List.mem_append.mp hc with hc | hc
    · refine decide_eq_true fun he => ?_
      subst he
      exact absurd (hname _ hc) (by decide)
    · rw [List.mem_singleton.mp hc]
      decide
  have hsplit : name ++ colon :: pre = (name ++ [colon]) ++ pre := by simp
  have htarget : target (name ++ colon :: pre) = target pre := by
    rw [hsplit, target, List.dropWhile_append_of_pos hspace]
    rfl
  have hmethod : ¬ ((name ++ colon :: pre).takeWhile (· ≠ space)).map toUpper = connect := by
    rw [hsplit, List.takeWhile_append_of_pos hspace]
    intro h
    have hmem : toUpper colon ∈ connect := by simp [← h]
    exact absurd hmem (by decide)
  rw [TakesTarget, TakesUrl, htarget, if_neg hmethod]

theorem getLast?_field (name : Bytes) {pre : Bytes} :
    (name ++ colon :: pre).getLast? = some space ↔ pre.getLast? = some space := by
  cases pre with
  | nil => simp [space, colon]
  | cons c pre => simp

theorem requestText_field (hname : ∀ c ∈ name, isNameChar c = true) (value behind : Bytes) :
    RequestText (TakesTarget P) (name ++ colon :: value) behind ↔
      RequestText (TakesUrl P) value behind := by
  have hloc := locateStr_field hname value
  constructor
  · rintro ⟨pre, t, n, hpre, hpos, hlast, hn, hstop, htakes⟩
    rw [hloc] at hpos
    obtain ⟨i, hi, hlength⟩ := Option.map_eq_some_iff.mp hpos
    obtain ⟨pre', t', rfl, rfl⟩ := locateStr_split hi
    have hsame : (name ++ colon :: pre') ++ (httpSlash ++ t') = pre ++ (httpSlash ++ t) := by
      rw [← hpre]
      simp
    obtain ⟨rfl, htail⟩ := List.append_inj hsame
      (by simp only [List.length_append, List.length_cons]; omega)
    obtain rfl := List.append_cancel_left htail
    exact ⟨pre', t', n, rfl, hi, (getLast?_field name).mp hlast, hn, hstop,
      (target_field hname _).mp htakes⟩
  · rintro ⟨pre, t, n, rfl, hpos, hlast, hn, hstop, htakes⟩
    refine ⟨name ++ colon :: pre, t, n, by simp, ?_, (getLast?_field name).mpr hlast, hn, hstop,
      (target_field hname _).mpr htakes⟩
    rw [hloc, hpos, Option.map_some, Option.some.injEq]
    simp only [List.length_append, List.length_cons]
    omega

theorem firstLine_append {line : Bytes} (hline : NoEol line) (hnul : nul ∉ line)
    (hstop : ∀ c ∈ behind.head?, c = nul ∨ isEol c = true) : firstLine (line ++ behind) = line := by
  refine takeWhile_append_of_stop (fun c hc => ?_) (fun c hc => ?_)
  · have hne : c ≠ nul := fun h => hnul (h ▸ hc)
    simp [hne, hline c hc]
  · rcases hstop c hc with rfl | he
    · decide
    · simp [he]

theorem infoParse_field (hname : ∀ c ∈ name, isNameChar c = true) (hvalue : NoEol value)
    (hnul : nul ∉ value) (hbehind : ∀ c ∈ behind.head?, isEol c = true) :
    (infoParse P (call.mem (name ++ colon :: (value ++ behind)))).isSome = true ↔
      RequestText (TakesUrl P) value (behindValue call name value behind) := by
  have hmem : call.mem (name ++ colon :: (value ++ behind)) =
      (name ++ colon :: value) ++ behindValue call name value behind := by
    simp [HeaderCall.mem, behindValue]
  have hline : firstLine ((name ++ colon :: value) ++ behindValue call name value behind) =
      name ++ colon :: value := by
    refine firstLine_append (noEol_append.mpr ⟨fun c hc => isNameChar_not_isEol (hname c hc), ?_⟩)
      ?_ ?_
    · simpa using hvalue
    · simp only [List.mem_append, List.mem_cons, not_or]
      exact ⟨fun h => absurd (hname _ h) (by decide), by decide, hnul⟩
    · intro c hc
      cases behind with
      | nil => exact .inl (Option.some.inj hc).symm
      | cons d behind => exact .inr (hbehind c hc)
  rw [hmem, infoParse_isSome hline, requestText_field hname]
  refine or_iff_right ?_
  rintro ⟨t, -, ht, -⟩
  exact not_httpSlash_prefix_field hname value (ht ▸ List.prefix_append _ _)

theorem fieldRecorded_iff (hne : name ≠ []) (hname : ∀ c ∈ name, isNameChar c = true)
    (hvalue : NoEol value) (hnul : nul ∉ value)
    (hbehind : ∀ c ∈ behind.head?, isEol c = true) (s : S) :
    FieldRecorded P sink call s name value behind ↔
      ¬ RequestText (TakesUrl P) value (behindValue call name value behind) := by
  have hb : name ++ colon :: (value ++ behind) ≠ [] := by simp
  have hloc : ∀ l, locateBinEol (name ++ colon :: (value ++ behind)) ≠ some (0, l) := by
    intro l h
    rw [locateBinEol_append_noEol fun c hc => isNameChar_not_isEol (hname c hc)] at h
    obtain ⟨e, -, he⟩ := Option.map_eq_some_iff.mp h
    have hlength := List.length_pos_of_ne_nil hne
    simp only [Prod.mk.injEq] at he
    omega
  rw [← infoParse_field hname hvalue hnul hbehind, Option.not_isSome_iff_eq_none]
  constructor
  · rintro ⟨hkey, -⟩
    by_contra hinfo
    obtain ⟨info, hinfo⟩ := Option.ne_none_iff_exists'.mp hinfo
    have hturn : headerTurn P sink call (headerParserKey, s)
        (name ++ colon :: (value ++ behind)) = _ :=
      (if_neg hb).trans (keyTurn_info hloc hinfo)
    rw [hkey] at hturn
    cases hturn
  · intro hinfo
    have hdrop : (value ++ behind).dropWhile isBlank = value.dropWhile isBlank ++ behind := by
      cases behind with
      | nil => rw [List.append_nil, List.append_nil]
      | cons c behind => exact dropWhile_append_stop (by simp [isBlank, hbehind c rfl]) value behind
    constructor
    · have hturn : headerTurn P sink call (headerParserKey, s)
          (name ++ colon :: (value ++ behind)) = _ :=
        (if_neg hb).trans (keyTurn_field hloc hinfo (colonAt_field hname _))
      rw [hturn, List.take_left, if_pos hname, ← List.drop_drop, List.drop_left, List.drop_one,
        List.tail_cons, hdrop]
      rfl
    · intro eolLen heol
      have hclean : NoEol (value.dropWhile isBlank) := fun c hc =>
        hvalue c ((List.dropWhile_sublist isBlank).subset hc)
      have hne' : value.dropWhile isBlank ++ behind ≠ [] := by
        rintro h
        rw [(List.append_eq_nil_iff.mp h).2] at heol
        cases heol
      have hline : locateBinEol (value.dropWhile isBlank ++ behind) =
          some ((value.dropWhile isBlank).length, eolLen) := by
        rw [locateBinEol_append_noEol hclean, heol]
        rfl
      have hset : setAddVal none (value.dropWhile isBlank) = setAddVal none value := by
        rw [setAddVal, setAddVal, trim_dropWhile_isBlank]
      change (if _ then _ else valueTurn _ _ _ _) = _
      rw [if_neg hne', valueTurn, hline]
      dsimp only
      rw [List.take_left, hset, ← List.drop_drop, List.drop_left]

end Field

/-! ### Start lines -/

/-- Two digits with a separator, or a digit above 1. -/
def IsVersion (t : Bytes) : Prop :=
  (∃ d s d', t = [d, s, d'] ∧ isDigit d = true ∧ s ≠ space ∧ isDigit d' = true) ∨
    ∃ d, t = [d] ∧ isDigit d = true ∧ 50 ≤ d

/-- Method, target and protocol version. -/
def IsRequestLine (line : Bytes) : Prop := nul ∉ line ∧ ∃ method target version,
  line = method ++ space :: (target ++ space :: (httpSlash ++ version)) ∧ method ≠ [] ∧
    space ∉ method ∧ (∃ c ∈ target, c ≠ space) ∧ IsVersion version

section Start
variable {Url S : Type} (P : UrlParsers Url) (sink : HeaderSink Url S) (call : HeaderCall)

/-- `KEY` takes a start line from the buffer and calls back. -/
def TakenAsStart (s : S) (b : Bytes) : Prop :=
  (headerTurn P sink call (headerParserKey, s) b).state.1.state = .headerDone

/-- What is taken is a complete line that begins with `HTTP/` or is that of a request. -/
def StartComplete (s : S) (b : Bytes) : Prop :=
  TakenAsStart P sink call s b →
    ∃ e, locateBinEol b = some e ∧ (httpSlash <+: b.take e.1 ∨ IsRequestLine (b.take e.1))

/-- The line of a response is complete; and that of a request is complete, it has no NUL, it does
not begin with a space, and its version is not a single 0 or 1. -/
def StartSound (b : Bytes) : Prop :=
  let line := firstLine (call.mem b)
  let behind := (call.mem b).drop line.length
  (ResponseText line behind → locateBinEol b ≠ none) ∧
    (RequestText (TakesTarget P) line behind → ∃ e, locateBinEol b = some e ∧ nul ∉ b.take e.1 ∧
      b.head? ≠ some space ∧ ∀ d, httpSlash ++ [d] <:+ b.take e.1 → 50 ≤ d)

variable {P sink call} {line behind pre t b : Bytes} {n : ℕ}

/-- The version of a request is a text of three characters, or of one if some of it is behind the
line. -/
theorem versionText_line (ht : ∀ c ∈ t, c ≠ nul ∧ isEol c = false)
    (hbehind : ∀ c ∈ behind.head?, c = nul ∨ isEol c = true) (hn : VersionText (t ++ behind) n)
    (hstop : byteAt (t ++ behind) n = nul ∨ isEol (byteAt (t ++ behind) n) = true) :
    (∃ d s d', t = [d, s, d'] ∧ isDigit d = true ∧ s ≠ space ∧ isDigit d' = true) ∨
      ∃ d, t = [d] ∧ isDigit d = true := by
  have hfirst : ¬ isDigit (byteAt behind 0) = true := by
    cases behind with
    | nil => decide
    | cons c behind =>
      change ¬ isDigit c = true
      rcases hbehind c rfl with rfl | he
      · decide
      · rcases isEol_iff.mp he with rfl | rfl <;> decide
  have hplain : ∀ c ∈ t, ¬ (c = nul ∨ isEol c = true) := fun c hc h => by
    rcases h with h | h
    · exact (ht c hc).1 h
    · simp [(ht c hc).2] at h
  match t with
  | [] => cases hn with
    | two hmajor => exact absurd hmajor hfirst
    | one hmajor => exact absurd hmajor hfirst
  | [d] => cases hn with
    | two hmajor => exact .inr ⟨d, rfl, hmajor⟩
    | one hmajor => exact .inr ⟨d, rfl, hmajor⟩
  | [d, s] => cases hn with
    | two _ _ hminor => exact absurd hminor hfirst
    | one => exact absurd hstop (hplain s (by simp))
  | [d, s, d'] => cases hn with
    | two hmajor hsep hminor => exact .inl ⟨d, s, d', rfl, hmajor, hsep, hminor⟩
    | one => exact absurd hstop (hplain s (by simp))
  | d :: s :: d' :: x :: t => cases hn with
    | two => exact absurd hstop (hplain x (by simp))
    | one => exact absurd hstop (hplain s (by simp))

theorem requestLine_split (hlast : pre.getLast? = some space) (htarget : target pre ≠ [])
    (hhead : pre.head? ≠ some space) : ∃ method target,
      pre = method ++ space :: (target ++ [space]) ∧
      method ≠ [] ∧ space ∉ method ∧ ∃ c ∈ target, c ≠ space := by
  have hsplit := List.takeWhile_append_dropWhile (p := (· ≠ space)) (l := pre)
  have hmethod : space ∉ pre.takeWhile (· ≠ space) := fun h => by
    simpa using List.mem_takeWhile_imp h
  have hnot := List.head?_dropWhile_not (· ≠ space) pre
  rw [target] at htarget
  generalize pre.takeWhile (· ≠ space) = method, pre.dropWhile (· ≠ space) = r at *
  subst hsplit
  cases r with
  | nil =>
    rw [List.append_nil] at hlast
    exact absurd (List.mem_of_getLast? hlast) hmethod
  | cons c rest =>
    obtain rfl : c = space := by simpa using hnot
    have hne : method ≠ [] := by
      rintro rfl
      exact hhead rfl
    have hrest : ¬ ∀ d ∈ rest, d = space := fun hall => by
      refine htarget ?_
      have hempty : (space :: rest).dropWhile (· = space) = [] :=
        List.dropWhile_eq_nil_iff.mpr (by simpa using hall)
      rw [hempty]
      rfl
    push Not at hrest
    obtain ⟨d, hd, hdne⟩ := hrest
    have hlast' : rest.getLast? = some space := by
      cases rest with
      | nil => cases hd
      | cons x rest => simpa using hlast
    obtain ⟨target, rfl⟩ := List.getLast?_eq_some_iff.mp hlast'
    refine ⟨method, target, rfl, hne, hmethod, d, ?_, hdne⟩
    rcases List.mem_append.mp hd with hd | hd
    · exact hd
    · exact absurd (List.mem_singleton.mp hd) hdne

theorem locateBinEol_head {i l : ℕ} (h : locateBinEol b = some (i, l)) :
    ∃ rest, b = b.take i ++ rest ∧ ∀ c ∈ rest.head?, isEol c = true := by
  obtain ⟨line, eol, rest, rfl, rfl, -, -, heol⟩ := locateBinEol_spec h
  refine ⟨eol ++ rest, by simp, fun c hc => ?_⟩
  rcases heol with rfl | rfl | ⟨rfl, -⟩ <;> obtain rfl := Option.some.inj hc <;> decide

theorem takenAsStart_iff (s : S) (b : Bytes) :
    TakenAsStart P sink call s b ↔ (infoParse P (call.mem b)).isSome = true := by
  have hempty : (∀ c ∈ b.head?, isEol c = true) → ¬ (infoParse P (call.mem b)).isSome = true := by
    intro hhead
    have hline : firstLine ([] ++ call.mem b) = [] := by
      refine firstLine_append (by simp) (by simp) fun c hc => ?_
      cases b with
      | nil => exact .inl (Option.some.inj hc).symm
      | cons d b => exact .inr (hhead c hc)
    rw [List.nil_append] at hline
    have hinfix : ¬ httpSlash <:+: firstLine (call.mem b) := by
      rw [hline]
      decide
    have hnone := infoParse_of_not_infix P hinfix
    simp [hnone]
  unfold TakenAsStart
  by_cases hb : b = []
  · refine iff_of_false ?_ (hempty (by simp [hb]))
    rw [hb]
    change HeaderState.key ≠ .headerDone
    decide
  have hturn : headerTurn P sink call (headerParserKey, s) b =
      keyTurn P sink call headerParserKey s b :=
    if_neg hb
  rw [hturn]
  by_cases hloc : ∃ l, locateBinEol b = some (0, l)
  · obtain ⟨l, hl⟩ := hloc
    refine iff_of_false ?_ (hempty fun c hc => ?_)
    · rw [keyTurn, hl]
      change HeaderState.done ≠ .headerDone
      decide
    · obtain ⟨rest, hrest, hstop⟩ := locateBinEol_head hl
      rw [List.take_zero, List.nil_append] at hrest
      exact hstop c (hrest ▸ hc)
  · push Not at hloc
    cases hinfo : infoParse P (call.mem b) with
    | some info =>
      rw [keyTurn_info hloc hinfo]
      exact iff_of_true rfl rfl
    | none =>
      refine iff_of_false ?_ (by simp)
      cases hcolon : colonAt b with
      | some n =>
        rw [keyTurn_field hloc hinfo hcolon]
        split_ifs
        · change HeaderState.value ≠ .headerDone
          decide
        · change HeaderState.failure ≠ .headerDone
          decide
      | none =>
        rw [keyTurn_other hloc hinfo hcolon]
        split_ifs
        · change HeaderState.failure ≠ .headerDone
          decide
        · change HeaderState.key ≠ .headerDone
          decide

/-- Of a complete line, what is in front of its first NUL is looked at. -/
theorem firstLine_mem {i l : ℕ} (h : locateBinEol b = some (i, l)) :
    firstLine (call.mem b) = cString (b.take i) := by
  obtain ⟨rest, hrest, hstop⟩ := locateBinEol_head h
  have hline := (locateBinEol_bounds h).2.2.2
  have hsplit := List.takeWhile_append_dropWhile (p := (· ≠ nul)) (l := b.take i)
  have hnot := List.head?_dropWhile_not (· ≠ nul) (b.take i)
  have hmem : call.mem b = cString (b.take i) ++
      ((b.take i).dropWhile (· ≠ nul) ++ (rest ++ nul :: call.beyond b)) := by
    rw [← List.append_assoc, cString, hsplit, ← List.append_assoc, ← hrest]
    rfl
  rw [hmem]
  refine firstLine_append (fun c hc => hline c ((List.takeWhile_sublist _).subset hc))
    (fun hc => by simpa using List.mem_takeWhile_imp hc) fun c hc => ?_
  cases hd : (b.take i).dropWhile (· ≠ nul) with
  | nil =>
    rw [hd, List.nil_append] at hc
    cases rest with
    | nil => exact .inl (Option.some.inj hc).symm
    | cons d rest => exact .inr (hstop c hc)
  | cons d tail =>
    rw [hd] at hc hnot
    obtain rfl := Option.some.inj hc
    exact .inl (by simpa using hnot)

theorem httpSlash_prefix_cString (h : httpSlash <+: line) : httpSlash <+: cString line := by
  obtain ⟨t, rfl⟩ := h
  have hno : ∀ c ∈ httpSlash, decide (c ≠ nul) = true := by simp [httpSlash, nul]
  rw [cString, List.takeWhile_append_of_pos hno]
  exact List.prefix_append _ _

/-- A single digit behind `HTTP/` is the version. -/
theorem IsVersion.digit {v a : Bytes} {d : Byte} (hv : IsVersion v)
    (h : httpSlash ++ [d] <:+ a ++ (httpSlash ++ v)) : 50 ≤ d := by
  obtain ⟨p, hp⟩ := h
  rcases hv with ⟨x, s, y, rfl, -⟩ | ⟨x, rfl, -, hx⟩
  · have hsplit : a ++ (httpSlash ++ [x, s, y]) = (a ++ [72, 84]) ++ [84, 80, 47, x, s, y] := by
      simp [httpSlash]
    rw [hsplit] at hp
    cases (List.append_inj' hp rfl).2
  · have hsame := (List.append_inj' hp rfl).2
    cases hsame
    exact hx

theorem startComplete_iff (s : S) (b : Bytes) :
    StartComplete P sink call s b ↔ StartSound P call b := by
  obtain ⟨behind, hmem, hline, hstop⟩ := firstLine_split (call.mem b)
  have hbehind : (call.mem b).drop (firstLine (call.mem b)).length = behind := by
    have hdrop := congrArg (List.drop (firstLine (call.mem b)).length) hmem
    rwa [List.drop_left] at hdrop
  have hstart : TakenAsStart P sink call s b ↔ _ := takenAsStart_iff s b
  rw [hmem, infoParse_isSome hline] at hstart
  simp only [StartComplete, StartSound, hbehind, hstart]
  constructor
  · intro h
    refine ⟨fun hres => ?_, fun hreq => ?_⟩
    · obtain ⟨e, he, -⟩ := h (.inl hres)
      simp [he]
    · obtain ⟨⟨i, l⟩, he, hkind⟩ := h (.inr hreq)
      refine ⟨(i, l), he, ?_⟩
      rw [firstLine_mem he] at hreq
      rcases hkind with hhttp | ⟨hnul, method, target, version, hsplit, hne, hspace, -, hversion⟩
      · obtain ⟨pre, t, n, -, hpos, hlast, -⟩ := hreq
        rw [(locateStr_eq_zero (by decide)).mpr (httpSlash_prefix_cString hhttp)] at hpos
        rw [List.length_eq_zero_iff.mp (Option.some.inj hpos).symm] at hlast
        cases hlast
      · refine ⟨hnul, ?_, fun d hd => ?_⟩
        · obtain ⟨c, method, rfl⟩ := List.exists_cons_of_ne_nil hne
          have hb := List.take_append_drop i b
          rw [hsplit] at hb
          rw [← hb]
          rintro ⟨⟩
          exact hspace List.mem_cons_self
        · have hsplit' : b.take i = (method ++ space :: (target ++ [space])) ++
              (httpSlash ++ version) := by
            rw [hsplit]
            simp
          exact hversion.digit (hsplit' ▸ hd)
  · rintro ⟨hres, hreq⟩ (h | h)
    · obtain ⟨⟨i, l⟩, he⟩ := Option.ne_none_iff_exists'.mp (hres h)
      refine ⟨(i, l), he, .inl ?_⟩
      obtain ⟨t, n, ht, -⟩ := h
      rw [firstLine_mem he] at ht
      exact (List.prefix_append httpSlash t).trans (ht ▸ List.takeWhile_prefix _)
    · obtain ⟨⟨i, l⟩, he, hnul, hhead, hdigit⟩ := hreq h
      refine ⟨(i, l), he, .inr ⟨hnul, ?_⟩⟩
      rw [firstLine_mem he, cString_of_noNul hnul] at h hline
      obtain ⟨pre, t, n, hpre, -, hlast, hn, hstop', htarget, -⟩ := h
      have hb := List.take_append_drop i b
      rw [hpre] at hb
      have hhead' : pre.head? ≠ some space := by
        rintro h
        cases pre with
        | nil => cases h
        | cons c pre => exact hhead (hb ▸ h)
      have hplain : ∀ c ∈ t, c ≠ nul ∧ isEol c = false := fun c hc => by
        have hmem : c ∈ b.take i := by simp [hpre, hc]
        exact ⟨fun h => hnul (h ▸ hmem), (locateBinEol_bounds he).2.2.2 c hmem⟩
      have hversion : IsVersion t := by
        rcases versionText_line hplain hstop hn hstop' with h | ⟨d, rfl, hd⟩
        · exact .inl h
        · exact .inr ⟨d, rfl, hd, hdigit d (hpre ▸ List.suffix_append _ _)⟩
      obtain ⟨method, target, rfl, hne, hspace, htext⟩ := requestLine_split hlast htarget hhead'
      refine ⟨method, target, t, ?_, hne, hspace, htext, hversion⟩
      rw [hpre]
      simp

end Start

/-- A header line is recorded exactly if its value does not end like the line of a request: with a
target behind its first space, `HTTP/`, a version and nothing else. Whatever the buffer has, what is
taken from it for a start line is one exactly if it is complete, and if that of a request has a
method, a version with two digits or one above 1, and no NUL. -/
theorem headerLines_iff {Url S : Type} (P : UrlParsers Url) (sink : HeaderSink Url S)
    (call : HeaderCall) (s : S) :
    (∀ name value behind, name ≠ [] → (∀ c ∈ name, isNameChar c = true) → NoEol value →
      nul ∉ value → (∀ c ∈ behind.head?, isEol c = true) →
      (FieldRecorded P sink call s name value behind ↔
        ¬ RequestText (TakesUrl P) value (behindValue call name value behind))) ∧
    ∀ b, StartComplete P sink call s b ↔ StartSound P call b :=
  ⟨fun _ _ _ hne hname hvalue hnul hbehind => fieldRecorded_iff hne hname hvalue hnul hbehind s,
    startComplete_iff s⟩

theorem headerLines_host :
    FieldRecorded rawUrls headerLog ⟨false, fun _ => []⟩ ⟨[], []⟩ (ascii "Host")
      (ascii " example.org") crlf := by
  refine ((headerLines_iff rawUrls headerLog ⟨false, fun _ => []⟩ ⟨[], []⟩).1 _ _ _
    (by decide +kernel) (by decide +kernel) (by decide +kernel) (by decide +kernel)
      (by decide +kernel)).mpr ?_
  rintro ⟨pre, t, n, -, hpos, -⟩
  have hnone : locateStr httpSlash (ascii " example.org") = none := by decide
  rw [hnone] at hpos
  cases hpos

/-- A header with a value that ends like the line of a request, and a status line without its
end. -/
theorem headerLines_taken :
    ¬ FieldRecorded rawUrls headerLog ⟨false, fun _ => []⟩ ⟨[], []⟩ (ascii "Via")
      (ascii " proxy HTTP/1.1") crlf ∧
    ¬ StartComplete rawUrls headerLog ⟨false, fun _ => []⟩ ⟨[], []⟩ (ascii "HTTP/1.1 200") := by
  constructor
  · rintro ⟨hkey, -⟩
    have hturn : (headerTurn rawUrls headerLog ⟨false, fun _ => []⟩ (headerParserKey, ⟨[], []⟩)
        (ascii "Via" ++ colon :: (ascii " proxy HTTP/1.1" ++ crlf))).state.1.state =
          .headerDone := by
      decide
    rw [hkey] at hturn
    cases hturn
  · intro h
    have htaken : TakenAsStart rawUrls headerLog ⟨false, fun _ => []⟩ ⟨[], []⟩
        (ascii "HTTP/1.1 200") := by
      unfold TakenAsStart
      decide
    obtain ⟨e, he, -⟩ := h htaken
    have hnone : locateBinEol (ascii "HTTP/1.1 200") = none := by decide
    rw [hnone] at he
    cases he

end ExtHttp
