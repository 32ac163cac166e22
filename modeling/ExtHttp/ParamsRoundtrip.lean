import ExtHttp.ParamsJoin
import ExtHttp.ParamsSeparators

/-!
# Extended arguments

Arguments with a language are written with a marker, a charset and percent signs, and read back as
they were.
-/
namespace ExtHttp

/-! ### Percent signs -/

theorem upperHex_digit : ∀ n < 16, isBaseDigit 16 (upperHex n) = true ∧ digitVal (upperHex n) = n ∧
    isNameChar (upperHex n) = true := by
  decide

theorem hex_pair (c : Byte) : (c.toNat / 16 * 16 + c.toNat % 16).toUInt8 = c := by
  rw [Nat.div_add_mod', Nat.toUInt8_eq, UInt8.ofNat_toNat]

theorem urlDecode_percent (c : Byte) (s : Bytes) :
    urlDecode (percent :: upperHex (c.toNat / 16) :: upperHex (c.toNat % 16) :: s) = c ::
      urlDecode s := by
  have hlt := c.toNat_lt
  obtain ⟨hhi, hhival, -⟩ := upperHex_digit (c.toNat / 16) (by omega)
  obtain ⟨hlo, hloval, -⟩ := upperHex_digit (c.toNat % 16) (by omega)
  rw [urlDecode, if_pos ⟨rfl, hhi, hlo⟩, hhival, hloval, hex_pair]

theorem isUnreserved_char {c : Byte} (h : isUnreserved c = true) :
    c ≠ percent ∧ plusToSpace c = c ∧ isNameChar c = true := by
  revert h
  revert c
  decide +kernel

theorem urlDecode_rawUrlEncode (s : Bytes) : urlDecode (rawUrlEncode s) = s := by
  induction s with
  | nil => rfl
  | cons c s ih =>
    have hs : rawUrlEncode (c :: s) = (if isUnreserved c then [c] else
        [percent, upperHex (c.toNat / 16), upperHex (c.toNat % 16)]) ++ rawUrlEncode s := rfl
    rw [hs]
    split_ifs with hc
    · obtain ⟨hne, hplus, -⟩ := isUnreserved_char hc
      rw [List.singleton_append, urlDecode_cons hne, hplus, ih]
    · rw [List.cons_append, List.cons_append, List.singleton_append, urlDecode_percent, ih]

theorem rawUrlEncode_ne_nil {s : Bytes} (h : s ≠ []) : rawUrlEncode s ≠ [] := fun hnil => by
  have hs := urlDecode_rawUrlEncode s
  rw [hnil] at hs
  exact h hs.symm

theorem rawUrlEncode_chars (s : Bytes) : ∀ c ∈ rawUrlEncode s, isNameChar c = true := by
  intro c hc
  obtain ⟨d, -, hc⟩ := List.mem_flatMap.mp hc
  split_ifs at hc with hd
  · rw [List.mem_singleton.mp hc]
    exact (isUnreserved_char hd).2.2
  · have hlt := d.toNat_lt
    simp only [List.mem_cons, List.not_mem_nil, or_false] at hc
    rcases hc with rfl | rfl | rfl
    · decide
    · exact (upperHex_digit _ (by omega)).2.2
    · exact (upperHex_digit _ (by omega)).2.2

/-! ### Words -/

/-- Only the characters of a token. -/
def IsWord (s : Bytes) : Prop := ∀ c ∈ s, isNameChar c = true

instance (s : Bytes) :
    Decidable (IsWord s) := inferInstanceAs (Decidable (∀ c ∈ s, isNameChar c = true))

theorem isNameChar_word {c : Byte} (h : isNameChar c = true) :
    isTrimmed c = false ∧ c ≠ nul ∧ c ≠ quote ∧ c ≠ backslash ∧ c ≠ comma ∧ c ≠ semicolon ∧
      c ≠ equalSign ∧
      31 < c ∧ c ≠ 123 ∧ c ∉ ascii "()<>@,;:\"[]?=\x7b\x7d " := by
  revert h
  revert c
  decide +kernel

/-- What is not escaped has no backslash. -/
def Strips (L : ParamsLib) : Prop := ∀ s, backslash ∉ s → L.stripcslashes s = s

/-- Control characters, the brace, the backslash and the quote are escaped, nothing else. -/
def Escapes (L : ParamsLib) : Prop :=
  ∀ s, (∀ c ∈ s, 31 < c ∧ c ≠ 123 ∧ c ≠ backslash ∧ c ≠ quote) → L.addcslashes s = s

section Words
variable {L : ParamsLib} {w : Bytes}

theorem IsWord.trim (h : IsWord w) : phpTrim isTrimmed w = w :=
  phpTrim_plain fun c hc => (isNameChar_word (h c hc)).1

theorem IsWord.cString (h : IsWord w) : cString w = w :=
  cString_of_noNul fun hnul => (isNameChar_word (h _ hnul)).2.1 rfl

theorem IsWord.unescape (h : IsWord w) (hL : Strips L) (flags : ParamsFlags) :
    unescape L flags w = .ok w := by
  unfold ExtHttp.unescape sanitizeEscaped
  have hhead : w.head? ≠ some quote :=
    fun hq => (isNameChar_word (h _ (List.mem_of_mem_head? hq))).2.2.1 rfl
  have hstrip := hL w fun hb => (isNameChar_word (h _ hb)).2.2.2.1 rfl
  rw [hstrip, if_neg fun hq : w.head? = some quote ∧ w.getLast? = some quote =>
    hhead hq.1, ite_self]

theorem IsWord.quoteString (h : IsWord w) (hL : Escapes L) : quoteString L w false = w := by
  have hadd : L.addcslashes w = w := hL w fun c hc => by
    obtain ⟨-, -, hquote, hback, -, -, -, hlow, hbrace, -⟩ := isNameChar_word (h c hc)
    exact ⟨hlow, hbrace, hback, hquote⟩
  have hplain : w.any (· ∈ ascii "()<>@,;:\"[]?=\x7b\x7d ") = false := by
    rw [List.any_eq_false]
    intro c hc
    simpa using (isNameChar_word (h c hc)).2.2.2.2.2.2.2.2.2
  unfold ExtHttp.quoteString
  dsimp only
  rw [hadd, h.cString, hplain]
  simp

/-- A word and a marker, if there is one. -/
theorem IsWord.sanitizeKey (h : IsWord w) (hne : w ≠ []) (hL : Strips L) :
    sanitizeKey L paramsDefault w =
      .ok (.str (if w.getLast? = some asterisk then w.dropLast else w),
      decide (w.getLast? = some asterisk)) := by
  unfold ExtHttp.sanitizeKey
  rw [h.trim]
  dsimp only
  rw [h.unescape hL]
  simp [bind, Except.bind, hne, paramsDefault]

theorem IsWord.sanitizeValue (h : IsWord w) (hL : Strips L) :
    sanitizeValue L paramsDefault w false = .ok (.str w) := by
  unfold ExtHttp.sanitizeValue valueText
  simp [h.trim, h.unescape hL, bind, Except.bind, paramsDefault]

end Words

/-! ### The text -/

/-- `name => [language => value]` -/
structure ExtendedArg where
  name : Bytes
  language : Bytes
  value : Bytes
  name_ne : name ≠ []
  name_word : IsWord name
  name_last : name.getLast? ≠ some asterisk
  language_chars : ∀ c ∈ language, isAlnum c = true ∨ c = hyphen

namespace ExtendedArg

def entry (a : ExtendedArg) : ArrayKey × Value :=
  (symKey a.name, .array [(symKey a.language, .str a.value)])

/-- The text behind `name*=` -/
def text (a : ExtendedArg) : Bytes :=
  ascii "utf-8" ++ apostrophe :: (a.language ++ apostrophe :: rawUrlEncode a.value)

theorem language_word (a : ExtendedArg) : IsWord a.language := by
  intro c hc
  rcases a.language_chars c hc with h | rfl
  · simp [isNameChar, h]
  · decide

theorem key_word (a : ExtendedArg) : IsWord (a.name ++ [asterisk]) := by
  intro c hc
  rcases List.mem_append.mp hc with hc | hc
  · exact a.name_word c hc
  · rw [List.mem_singleton.mp hc]
    decide

theorem text_ne (a : ExtendedArg) : a.text ≠ [] :=
  List.append_ne_nil_of_right_ne_nil _ (List.cons_ne_nil _ _)

theorem text_word (a : ExtendedArg) : IsWord a.text := by
  unfold text IsWord
  simp only [List.mem_append, List.mem_cons]
  rintro c (hc | rfl | hc | rfl | hc)
  · revert c
    decide +kernel
  · decide
  · exact a.language_word c hc
  · decide
  · exact rawUrlEncode_chars _ c hc

theorem language_plain (a : ExtendedArg) : ∀ c ∈ a.language, c ≠ nul ∧ c ≠ apostrophe := by
  intro c hc
  refine ⟨(isNameChar_word (a.language_word c hc)).2.1, ?_⟩
  rcases a.language_chars c hc with h | rfl
  · rintro rfl
    cases h
  · decide

theorem sanitizeValue {L : ParamsLib} (hL : Strips L) (a : ExtendedArg) :
    sanitizeValue L paramsDefault a.text true =
      .ok (.array [(symKey a.language, .str a.value)]) := by
  have henc : IsWord (rawUrlEncode a.value) := rawUrlEncode_chars a.value
  have htext : valueText a.text true = (some a.language, false, rawUrlEncode a.value) := by
    rw [valueText, if_pos rfl, a.text_word.trim, text,
      sanitizeRfc5987_extended (.utf8 (by decide)) a.language_plain, henc.cString]
  unfold ExtHttp.sanitizeValue
  rw [htext]
  dsimp only
  rw [henc.unescape hL]
  simp [bind, Except.bind, urlDecode_rawUrlEncode]

end ExtendedArg

/-- A parameter with a value and extended arguments. -/
def extendedParam (name value : Bytes) (args : List ExtendedArg) : ArrayKey × Value :=
  (symKey name, .array [(valueKey, .str value),
    (argumentsKey, .array [(rfc5987Key, .array (args.map ExtendedArg.entry))])])

def extendedText (args : List ExtendedArg) : Bytes :=
  args.flatMap fun a => semicolon :: (a.name ++ [asterisk] ++ equalSign :: a.text)

section Text
variable {L : ParamsLib} {name value : Bytes}

theorem IsWord.prepareKey (h : IsWord name) (hL : Escapes L) :
    prepareKey L paramsDefault name = name := by
  simp [ExtHttp.prepareKey, paramsDefault, h.quoteString hL]

theorem IsWord.prepareValue (h : IsWord value) (hL : Escapes L) :
    prepareValue L paramsDefault value = value := by
  simp [ExtHttp.prepareValue, paramsDefault, h.quoteString hL]

theorem shiftArgs_extended (hL : Escapes L) (args : List ExtendedArg) {buf : Bytes}
    (hbuf : buf ≠ []) :
    shiftArgs L paramsFormatDefault true buf (args.map ExtendedArg.entry) =
      buf ++ extendedText args := by
  induction args generalizing buf with
  | nil => simp [extendedText, shiftArgs]
  | cons a args ih =>
    have henc : IsWord (rawUrlEncode a.value) := rawUrlEncode_chars a.value
    have hvalue : ExtHttp.prepareValue L { paramsDefault with urlencoded := true } a.value =
        rawUrlEncode a.value := by
      simp [ExtHttp.prepareValue, paramsDefault, henc.quoteString hL]
    have hturn : shiftRfc5987 L paramsFormatDefault
        (shiftKey L paramsFormatDefault buf a.name [semicolon])
          (.array [(symKey a.language, .str a.value)]) =
          buf ++ (semicolon :: (a.name ++ [asterisk] ++ equalSign :: a.text)) := by
      have hvss : cString [equalSign] = [equalSign] := by decide
      have hlanguage : cString a.language = a.language := a.language_word.cString
      have hcharset : ascii "utf-8'" = ascii "utf-8" ++ [apostrophe] := by decide
      rw [shiftKey, if_neg hbuf]
      simp only [shiftRfc5987, paramsFormatDefault, stringify_symKey, Value.toStr]
      rw [a.name_word.prepareKey hL, hvalue, hvss, hlanguage, hcharset, ExtendedArg.text]
      simp
    have hmap : (a :: args).map ExtendedArg.entry =
        (symKey a.name, .array [(symKey a.language, .str a.value)]) ::
          args.map ExtendedArg.entry := rfl
    rw [hmap, shiftArgs, stringify_symKey]
    simp only [Value.isArray, Bool.and_true, if_true]
    rw [show paramsFormatDefault.ass = [semicolon] from rfl, hturn, ih (by simp)]
    simp [extendedText]

theorem paramsToString_extended (hL : Escapes L) (hname : IsWord name) (hvalue : IsWord value)
    (args : List ExtendedArg) :
    paramsToString L paramsFormatDefault [] [extendedParam name value args] =
      name ++ equalSign :: value ++ extendedText args := by
  have hparam : shiftParam L paramsFormatDefault [] name (.str value) false =
      name ++ equalSign :: value := by
    have hval : ExtHttp.prepareValue L paramsDefault (Value.str value).toStr = value :=
      hvalue.prepareValue hL
    simp only [shiftParam, shiftVal, shiftKey, paramsFormatDefault]
    rw [hname.prepareKey hL, hval]
    simp [paramsDefault]
  have hentry : paramsToString L paramsFormatDefault [] [extendedParam name value args] =
      shiftArgs L paramsFormatDefault true
        (shiftParam L paramsFormatDefault [] (symKey name).stringify (.str value) false)
        (args.map ExtendedArg.entry) := rfl
  rw [hentry, stringify_symKey, hparam, shiftArgs_extended hL args (by simp)]

end Text

/-! ### The slices -/

section Slices
variable {phase : ParamsPhase} {w : Bytes}

theorem isNameChar_noSep {c : Byte} (hc : isNameChar c = true) (rest : Bytes) :
    ∀ sep ∈ paramsOptsDefault.seps, ¬ sep <+: c :: rest := by
  obtain ⟨-, -, -, -, hcomma, hsemicolon, hequal, -⟩ := isNameChar_word hc
  have hseps : paramsOptsDefault.seps = [[comma], [semicolon], [equalSign]] := rfl
  rw [hseps]
  simp [List.cons_prefix_cons, Ne.symm hcomma, Ne.symm hsemicolon, Ne.symm hequal]

/-- A word is read into the slice. -/
theorem paramsSlices_word (hphase : phase ≠ .start) (hw : IsWord w) (slice rest : Bytes) :
    paramsSlices paramsOptsDefault ⟨phase, false, false, slice, w ++ rest⟩ =
      paramsSlices paramsOptsDefault ⟨phase, false, false, slice ++ w, rest⟩ := by
  induction w generalizing slice with
  | nil => rw [List.nil_append, List.append_nil]
  | cons c w ih =>
    have hc := hw c List.mem_cons_self
    obtain ⟨-, -, hquote, hback, -⟩ := isNameChar_word hc
    have htrack : trackQuotes paramsOptsDefault.flags phase false false c = (false, false) := by
      have hflags : paramsOptsDefault.flags.rfc5988 = false := rfl
      simp [trackQuotes_other hflags hquote, hback]
    have hturn := paramsTurn_none paramsOptsDefault
      (x := ⟨phase, false, false, slice, c :: (w ++ rest)⟩) hphase c
      (w ++ rest) fun seps hsub => checkSep_eq_zero (fun sep hsep _ =>
        isNameChar_noSep hc _ sep (hsub hsep)) _ _
    dsimp only at hturn
    rw [htrack] at hturn
    rw [List.cons_append, paramsSlices_go rfl hturn, ih fun d hd =>
      hw d (List.mem_cons_of_mem _ hd)]
    simp

theorem skipSep_word (hw : IsWord w) (hne : w ≠ []) (rest : Bytes) {seps : List Bytes}
    (hseps : seps ⊆ paramsOptsDefault.seps) : skipSep false false seps (w ++ rest) = w ++ rest := by
  obtain ⟨c, w, rfl⟩ := List.exists_cons_of_ne_nil hne
  exact skipSep_of_zero (checkSep_eq_zero (fun sep hsep _ =>
    isNameChar_noSep (hw c List.mem_cons_self) _ sep (hseps hsep)) _ _)

/-- The separator of arguments. -/
theorem paramsSlices_arg (hphase : phase ≠ .start) (hw : IsWord w) (hne : w ≠ [])
    (slice rest : Bytes) :
    paramsSlices paramsOptsDefault ⟨phase, false, false, slice, semicolon :: (w ++ rest)⟩ =
      (phase, slice) :: paramsSlices paramsOptsDefault ⟨.arg, false, false, w, rest⟩ := by
  have hturn : paramsTurn paramsOptsDefault ⟨phase, false, false, slice,
      semicolon :: (w ++ rest)⟩ semicolon
      (w ++ rest) = (true, ⟨.arg, false, false, [], w ++ rest⟩) := by
    have htrack : trackQuotes paramsOptsDefault.flags phase false false semicolon =
        (false, false) := rfl
    have hparam : checkSep false false paramsOptsDefault.param (semicolon :: (w ++ rest)) = 0 :=
      checkSep_char _ _ _
    have harg : checkSep false false paramsOptsDefault.arg (semicolon :: (w ++ rest)) = 1 :=
      checkSep_char _ _ _
    have hskip : skipSep false false (paramsOptsDefault.arg ++ paramsOptsDefault.val)
        (w ++ rest) = w ++ rest :=
      skipSep_word hw hne rest fun sep hsep => mem_seps.mpr (.inr (List.mem_append.mp hsep))
    simp only [paramsTurn, htrack, if_neg hphase, hparam, harg, Nat.lt_irrefl, if_false,
      Nat.one_pos, if_true, List.drop_succ_cons, List.drop_zero, hskip]
  rw [paramsSlices_turn rfl, hturn]
  simp only [if_true]
  rw [paramsSlices_word (by simp) hw, List.nil_append]

/-- The separator of values. -/
theorem paramsSlices_val (hphase : phase = .param ∨ phase = .arg) (hw : IsWord w) (hne : w ≠ [])
    (slice rest : Bytes) :
    paramsSlices paramsOptsDefault ⟨phase, false, false, slice, equalSign :: (w ++ rest)⟩ =
      (phase, slice) :: paramsSlices paramsOptsDefault ⟨.val (phase = .arg), false, false, w,
        rest⟩ := by
  have hturn : paramsTurn paramsOptsDefault ⟨phase, false, false, slice,
      equalSign :: (w ++ rest)⟩ equalSign
      (w ++ rest) = (true, ⟨.val (phase = .arg), false, false, [], w ++ rest⟩) := by
    have htrack : trackQuotes paramsOptsDefault.flags phase false false equalSign =
        (false, false) := rfl
    have hparam : checkSep false false paramsOptsDefault.param (equalSign :: (w ++ rest)) = 0 :=
      checkSep_char _ _ _
    have harg : checkSep false false paramsOptsDefault.arg (equalSign :: (w ++ rest)) = 0 :=
      checkSep_char _ _ _
    have hval : checkSep false false paramsOptsDefault.val (equalSign :: (w ++ rest)) = 1 :=
      checkSep_char _ _ _
    have hskip : skipSep false false paramsOptsDefault.val (w ++ rest) = w ++ rest :=
      skipSep_word hw hne rest fun sep hsep => mem_seps.mpr (.inr (.inr hsep))
    have hstart : phase ≠ .start := by rcases hphase with rfl | rfl <;> simp
    have hnoVal : phase ≠ .val false ∧ phase ≠ .val true := by rcases hphase with rfl | rfl <;> simp
    simp only [paramsTurn, htrack, if_neg hstart, hparam, harg, hval, Nat.lt_irrefl, if_false,
      Nat.one_pos, true_and, if_pos hnoVal, List.drop_succ_cons, List.drop_zero, hskip]
  rw [paramsSlices_turn rfl, hturn]
  simp only [if_true]
  rw [paramsSlices_word (by simp) hw, List.nil_append]

theorem paramsSlices_extended (args : List ExtendedArg) (ofArg : Bool) (slice : Bytes) :
    paramsSlices paramsOptsDefault ⟨.val ofArg, false, false, slice, extendedText args⟩ =
      (.val ofArg, slice) ::
        args.flatMap fun a => [(.arg, a.name ++ [asterisk]), (.val true, a.text)] := by
  induction args generalizing ofArg slice with
  | nil => exact paramsSlices_end rfl
  | cons a args ih =>
    have htext : extendedText (a :: args) =
        semicolon :: ((a.name ++ [asterisk]) ++ equalSign :: (a.text ++ extendedText args)) := by
      simp [extendedText]
    rw [htext, paramsSlices_arg (by simp) a.key_word (by simp),
      paramsSlices_val (.inr rfl) a.text_word a.text_ne, ih, List.flatMap_cons]
    rfl

theorem paramsSlices_text {name value : Bytes} (hname : IsWord name) (hne : name ≠ [])
    (hvalue : IsWord value) (hvne : value ≠ []) (args : List ExtendedArg) :
    paramsSlices paramsOptsDefault (.init (name ++ equalSign :: value ++ extendedText args)) =
      (.param, name) :: (.val false, value) ::
        args.flatMap fun a => [(.arg, a.name ++ [asterisk]), (.val true, a.text)] := by
  obtain ⟨c, name, rfl⟩ := List.exists_cons_of_ne_nil hne
  have hc := hname c List.mem_cons_self
  obtain ⟨-, -, hquote, hback, -⟩ := isNameChar_word hc
  have hrest : IsWord name := fun d hd => hname d (List.mem_cons_of_mem _ hd)
  rw [List.cons_append, List.cons_append, List.append_assoc, List.cons_append,
    paramsSlices_front rfl (isNameChar_noSep hc _), decide_eq_false hquote, decide_eq_false hback,
    paramsSlices_word (by simp) hrest, paramsSlices_val (.inl rfl) hvalue hvne,
    paramsSlices_extended]
  rfl

end Slices

/-! ### The array -/

section Push
variable {L : ParamsLib} {name value : Bytes} {done : List ExtendedArg} {a : ExtendedArg}

/-- The parameter when there are some of its arguments. -/
def withArguments (name value : Bytes) (args : Entries) : Entries :=
  [(symKey name, .array [(valueKey, .str value), (argumentsKey, .array args)])]

/-- `*rfc5987*` is only there with an argument. -/
def argumentsTable (done : List ExtendedArg) : Entries :=
  if done = [] then [] else [(rfc5987Key, .array (done.map ExtendedArg.entry))]

theorem find_concat {ht : Entries} {key : ArrayKey} (h : Entries.find ht key = none) (v : Value) :
    Entries.find (ht ++ [(key, v)]) key = some v := by
  rw [Entries.find, Assoc.find_append, ← Entries.find, h, Option.none_or, Assoc.find_cons,
    if_pos rfl]

theorem pushParam_name (hL : Strips L) (hname : IsWord name) (hne : name ≠ [])
    (hlast : name.getLast? ≠ some asterisk) :
    pushParam L paramsOptsDefault .param name ⟨[], none, none, false⟩ =
      .ok ⟨[(symKey name, .array [(valueKey, .bool true), (argumentsKey, .array [])])],
        some [symKey name, valueKey], some [symKey name, argumentsKey], false⟩ := by
  have hkey : sanitizeKey L paramsOptsDefault.flags name = .ok (.str name, false) := by
    rw [show paramsOptsDefault.flags = paramsDefault from rfl, hname.sanitizeKey hne hL,
      if_neg hlast, decide_eq_false hlast]
  have hflags : ¬ paramsOptsDefault.flags.rfc5988 = true := by decide
  unfold pushParam
  dsimp only
  rw [if_neg hne, if_neg hflags, hkey]
  simp only [bind, Except.bind, if_neg hne]
  rfl

theorem pushParam_value (hL : Strips L) (hvalue : IsWord value) (hvne : value ≠ []) :
    pushParam L paramsOptsDefault (.val false) value
      ⟨[(symKey name, .array [(valueKey, .bool true), (argumentsKey, .array [])])],
        some [symKey name, valueKey], some [symKey name, argumentsKey], false⟩ =
    .ok ⟨withArguments name value [], some [symKey name, valueKey],
      some [symKey name, argumentsKey], false⟩ := by
  have hv : sanitizeValue L paramsOptsDefault.flags value false = .ok (.str value) :=
    hvalue.sanitizeValue hL
  unfold pushParam
  dsimp only
  rw [if_pos hvne, hv]
  simp [bind, Except.bind, ParamsState.write, Value.set, Entries.find_cons, Entries.update_cons,
    withArguments]

/-- What is written inside of the arguments stays there. -/
theorem set_arguments (args : Value) (path : Path) (v : Value) :
    Value.set (.array [(symKey name, .array [(valueKey, .str value), (argumentsKey, args)])])
      (symKey name :: argumentsKey :: path) v =
    .array [(symKey name, .array [(valueKey, .str value), (argumentsKey, args.set path v)])] := by
  have hne : valueKey ≠ argumentsKey := by decide
  simp [Value.set, Entries.find_cons, Entries.update_cons, hne]

theorem pushParam_extendedKey (hL : Strips L)
    (hnew : symKey a.name ∉ done.map fun b => symKey b.name) (val : Option Path) :
    pushParam L paramsOptsDefault .arg (a.name ++ [asterisk])
      ⟨withArguments name value (argumentsTable done), val,
        some [symKey name, argumentsKey], false⟩ =
    .ok ⟨withArguments name value
        [(rfc5987Key, .array (done.map ExtendedArg.entry ++ [(symKey a.name, .bool true)]))],
      some [symKey name, argumentsKey, rfc5987Key, symKey a.name], some [symKey name, argumentsKey],
        true⟩ := by
  have hkey : sanitizeKey L paramsOptsDefault.flags (a.name ++ [asterisk]) =
      .ok (.str a.name, true) := by
    rw [show paramsOptsDefault.flags = paramsDefault from rfl, a.key_word.sanitizeKey (by simp) hL]
    simp
  have hfind : Entries.find (done.map ExtendedArg.entry) (symKey a.name) = none := by
    rw [Entries.find_eq_none, List.map_map]
    exact hnew
  unfold pushParam
  dsimp only
  rw [if_neg (by simp), hkey]
  simp only [bind, Except.bind, if_neg a.name_ne]
  have htable : ParamsState.table ⟨withArguments name value (argumentsTable done), val,
      some [symKey name, argumentsKey], true⟩ (some [symKey name, argumentsKey]) =
        .ok ([symKey name, argumentsKey], argumentsTable done) := by
    have hne : valueKey ≠ argumentsKey := by decide
    simp [ParamsState.table, withArguments, Value.get, Entries.find_cons, hne]
  have hset : ∀ rfc, ParamsState.write ⟨withArguments name value (argumentsTable done), val,
      some [symKey name, argumentsKey],
      true⟩ [symKey name, argumentsKey] (.array [(rfc5987Key, .array rfc)]) =
        ⟨withArguments name value [(rfc5987Key, .array rfc)], val, some [symKey name, argumentsKey],
          true⟩ := by
    intro rfc
    simp only [ParamsState.write, withArguments]
    rw [set_arguments, Value.set]
  have hupdate := Entries.update_of_find_none hfind (.bool true)
  have hkept : Entries.update (argumentsTable done) rfc5987Key
      (.array (done.map ExtendedArg.entry ++ [(symKey a.name, .bool true)])) =
        [(rfc5987Key, .array (done.map ExtendedArg.entry ++ [(symKey a.name, .bool true)]))] := by
    unfold argumentsTable
    split_ifs
    · rfl
    · rw [Entries.update_cons, if_pos rfl]
  unfold pushArg
  rw [htable]
  simp only [bind, Except.bind, if_true]
  by_cases hdone : done = []
  · have hnone : Entries.find (argumentsTable done) rfc5987Key = none := by
      rw [argumentsTable, if_pos hdone]
      rfl
    have hnil : Entries.update [] (symKey a.name) (.bool true) =
        done.map ExtendedArg.entry ++ [(symKey a.name, .bool true)] := by
      rw [hdone]
      rfl
    rw [hnone]
    simp only [hnil]
    rw [hkept, hset]
    rfl
  · have hsome : Entries.find (argumentsTable done) rfc5987Key =
        some (.array (done.map ExtendedArg.entry)) := by
      rw [argumentsTable, if_neg hdone, Entries.find_cons, if_pos rfl]
    rw [hsome]
    simp only [hupdate]
    rw [hkept, hset]
    rfl

theorem pushParam_extendedValue (hL : Strips L)
    (hnew : symKey a.name ∉ done.map fun b => symKey b.name) :
    pushParam L paramsOptsDefault (.val true) a.text
      ⟨withArguments name value
        [(rfc5987Key, .array (done.map ExtendedArg.entry ++ [(symKey a.name, .bool true)]))],
      some [symKey name, argumentsKey, rfc5987Key, symKey a.name],
        some [symKey name, argumentsKey], true⟩ =
    .ok ⟨withArguments name value (argumentsTable (done ++ [a])),
      some [symKey name, argumentsKey, rfc5987Key, symKey a.name], some [symKey name, argumentsKey],
        false⟩ := by
  have hfind : Entries.find (done.map ExtendedArg.entry) (symKey a.name) = none := by
    rw [Entries.find_eq_none, List.map_map]
    exact hnew
  have hv : sanitizeValue L paramsOptsDefault.flags a.text true =
      .ok (.array [(symKey a.language, .str a.value)]) := a.sanitizeValue hL
  unfold pushParam
  dsimp only
  rw [if_pos a.text_ne, hv]
  simp only [bind, Except.bind, ParamsState.write, withArguments]
  rw [set_arguments]
  simp [Value.set, Entries.find_cons, find_concat hfind, Entries.update_cons,
    Entries.update_append hfind, argumentsTable, ExtendedArg.entry]

theorem foldlM_extended (hL : Strips L) (args : List ExtendedArg) (done : List ExtendedArg)
    (val : Option Path) (hnew : ((done ++ args).map fun a => symKey a.name).Nodup) :
    ∃ val', (args.flatMap fun a => [(ParamsPhase.arg, a.name ++ [asterisk]),
      (.val true, a.text)]).foldlM
      (fun st slice => pushParam L paramsOptsDefault slice.1 slice.2 st)
      ⟨withArguments name value (argumentsTable done), val,
        some [symKey name, argumentsKey], false⟩ =
    .ok ⟨withArguments name value (argumentsTable (done ++ args)), val',
      some [symKey name, argumentsKey], false⟩ := by
  induction args generalizing done val with
  | nil => exact ⟨val, by rw [List.append_nil]; rfl⟩
  | cons a args ih =>
    have ha : symKey a.name ∉ done.map fun b => symKey b.name := by
      rw [List.map_append, List.map_cons] at hnew
      exact fun hmem => (List.nodup_append.mp hnew).2.2 _ hmem _ List.mem_cons_self rfl
    rw [List.append_cons] at hnew ⊢
    obtain ⟨val', hrest⟩ := ih (done ++ [a]) _ hnew
    refine ⟨val', ?_⟩
    rw [List.flatMap_cons, List.cons_append, List.cons_append, List.nil_append, List.foldlM_cons,
      pushParam_extendedKey hL ha, ok_bind, List.foldlM_cons,
      pushParam_extendedValue hL ha, ok_bind]
    exact hrest

end Push

/-- Reading what has been written gives the parameter with its value and its arguments. -/
theorem extendedArgs_roundtrip {L : ParamsLib} (hstrips : Strips L) (hescapes : Escapes L)
    {name value : Bytes} (hname : IsWord name ∧ name ≠ [] ∧ name.getLast? ≠ some asterisk)
    (hvalue : IsWord value ∧ value ≠ []) {args : List ExtendedArg}
    (hargs : (args.map ExtendedArg.name).Nodup) :
    paramsParse L paramsOptsDefault [] (paramsToString L paramsFormatDefault []
      [extendedParam name value args]) = .ok (withArguments name value (argumentsTable args)) := by
  have hnodup : ((([] : List ExtendedArg) ++ args).map fun a => symKey a.name).Nodup := by
    have h := hargs.map symKey_injective
    rwa [List.map_map] at h
  obtain ⟨val, hrun⟩ := foldlM_extended hstrips args [] (some [symKey name, valueKey]) hnodup
  rw [paramsToString_extended hescapes hname.1 hvalue.1, paramsParse, paramsLoop_eq,
    paramsSlices_text hname.1 hname.2.1 hvalue.1 hvalue.2, List.foldlM_cons,
    pushParam_name hstrips hname.1 hname.2.1 hname.2.2, ok_bind, List.foldlM_cons,
    pushParam_value hstrips hvalue.1 hvalue.2, ok_bind]
  exact congrArg (Except.map ParamsState.params) hrun

/-- A German title, and a number without a language. -/
def germanTitle : List ExtendedArg :=
  [{ name := ascii "title"
     language := ascii "de-AT"
     value := ascii "100% \"gr" ++ [195, 188] ++ ascii "n\""
     name_ne := by decide
     name_word := by decide +kernel
     name_last := by decide
     language_chars := by decide +kernel },
   { name := ascii "5"
     language := []
     value := []
     name_ne := by decide
     name_word := by decide +kernel
     name_last := by decide
     language_chars := by simp }]

theorem extendedArgs_title :
    paramsParse plainParamsLib paramsOptsDefault []
        (ascii "a=b;title*=utf-8'de-AT'100%25%20%22gr%C3%BCn%22;5*=utf-8''") =
      .ok (withArguments (ascii "a") (ascii "b") (argumentsTable germanTitle)) := by
  have htext : paramsToString plainParamsLib paramsFormatDefault []
      [extendedParam (ascii "a") (ascii "b") germanTitle] =
        ascii "a=b;title*=utf-8'de-AT'100%25%20%22gr%C3%BCn%22;5*=utf-8''" := by decide
  rw [← htext]
  exact extendedArgs_roundtrip (fun _ _ => rfl) (fun _ _ => rfl) (by decide +kernel)
    (by decide +kernel) (by decide +kernel)

end ExtHttp
