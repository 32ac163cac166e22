import ExtHttp.ParamsSeparators

/-!
# Unquoting

The calls of `sanitize_escaped` in a run of `php_http_params_parse`, and the strings that they get.
A single quote is taken for the first and the last of two.
-/
namespace ExtHttp

/-! ### The calls -/

/-- The run comes to push a slice, and this is its state then. -/
def Pushed (L : ParamsLib) (opts : ParamsOpts) (params : Entries) (input : Bytes)
    (phase : ParamsPhase) (slice : Bytes) (st : ParamsState) : Prop :=
  ∃ done rest, paramsSlices opts (.init input) = done ++ (phase, slice) :: rest ∧
    done.foldlM (fun st slice => pushParam L opts slice.1 slice.2 st) ⟨params, none, none, false⟩ =
      .ok st

/-- The string that `sanitize_escaped` gets when a slice is pushed, where it is called. -/
def escapedCall (flags : ParamsFlags) (phase : ParamsPhase) (slice : Bytes) (st : ParamsState) :
    Option Bytes :=
  if flags.escaped = false ∨ slice = [] then none
  else match phase with
    | .start => none
    | .param => if flags.rfc5988 then none else some (phpTrim isTrimmed slice)
    | .arg => some (phpTrim isTrimmed slice)
    | .val _ => if st.val = none then none else some (valueText slice st.rfc5987).2.2

/-- `deq_len` is the length less 2, without a wrap-around, and quotes are only removed where there
are two. -/
def UnquotesSafely (L : ParamsLib) (s : Bytes) : Prop :=
  ∃ t, sanitizeEscaped L s = .ok (L.stripcslashes t) ∧
    (s = quote :: (t ++ [quote]) ∨ t = s ∧ ∀ u, s ≠ quote :: (u ++ [quote]))

/-! ### The strings -/

/-- A quote and nothing else but what is trimmed. -/
def LoneQuote (slice : Bytes) : Prop :=
  ∃ a b, slice = a ++ quote :: b ∧ ∀ c ∈ a ++ b, isTrimmed c = true

/-- An extended value with a quote and nothing else behind the language. -/
def LoneExtended (slice : Bytes) : Prop :=
  ∃ charset latin1 language rest,
    phpTrim isTrimmed slice = charset ++ apostrophe :: (language ++ apostrophe :: quote :: rest) ∧
    Charset charset latin1 ∧ (∀ c ∈ language, c ≠ nul ∧ c ≠ apostrophe) ∧ ∀ c ∈ rest.head?, c = nul

/-- A single quote is to be unquoted: as a key or a value, or as what an extended value has to
say. -/
def Quoteless (flags : ParamsFlags) (phase : ParamsPhase) (slice : Bytes)
    (st : ParamsState) : Prop :=
  match phase with
  | .start => True
  | .param => flags.rfc5988 = true ∨ ¬ LoneQuote slice
  | .arg => ¬ LoneQuote slice
  | .val _ => st.val = none ∨ ¬ LoneQuote slice ∧ (st.rfc5987 = true → ¬ LoneExtended slice)

section
variable {L : ParamsLib} {flags : ParamsFlags} {slice s : Bytes}

theorem quoted_iff : s.head? = some quote ∧ s.getLast? = some quote ∧ s ≠ [quote] ↔
    ∃ t, s = quote :: (t ++ [quote]) := by
  constructor
  · rintro ⟨hhead, hlast, hne⟩
    obtain ⟨u, rfl⟩ := List.getLast?_eq_some_iff.mp hlast
    cases u with
    | nil => exact absurd rfl hne
    | cons c t =>
      obtain rfl := Option.some.inj hhead
      exact ⟨t, rfl⟩
  · rintro ⟨t, rfl⟩
    refine ⟨rfl, ?_, by simp⟩
    rw [← List.cons_append, List.getLast?_concat]

theorem unquotesSafely_iff : UnquotesSafely L s ↔ s ≠ [quote] := by
  constructor
  · rintro ⟨t, ht, -⟩ rfl
    cases ht
  · intro hne
    by_cases hquoted : ∃ t, s = quote :: (t ++ [quote])
    · obtain ⟨t, rfl⟩ := hquoted
      have hends := quoted_iff.mpr ⟨t, rfl⟩
      refine ⟨t, ?_, .inl rfl⟩
      rw [sanitizeEscaped, if_pos ⟨hends.1, hends.2.1⟩, if_neg (by simp)]
      simp
    · refine ⟨s, ?_, .inr ⟨rfl, fun u hu => hquoted ⟨u, hu⟩⟩⟩
      rw [sanitizeEscaped, if_neg fun h => hquoted (quoted_iff.mp ⟨h.1, h.2, hne⟩)]

theorem phpTrim_quote : phpTrim isTrimmed slice = [quote] ↔ LoneQuote slice := by
  constructor
  · intro h
    obtain ⟨a, b, hslice, hab⟩ := phpTrim_split isTrimmed slice
    rw [h] at hslice
    exact ⟨a, b, hslice, hab⟩
  · rintro ⟨a, b, rfl, hab⟩
    have hquote : ∀ c ∈ some quote, isTrimmed c = false := by
      rintro c ⟨⟩
      decide
    exact phpTrim_surrounded (t := [quote]) hab hquote hquote (by simp)

theorem cString_quote :
    cString s = [quote] ↔ ∃ rest, s = quote :: rest ∧ ∀ c ∈ rest.head?, c = nul := by
  constructor
  · intro h
    cases s with
    | nil => cases h
    | cons c rest =>
      by_cases hc : c = nul
      · rw [cString, List.takeWhile_cons_of_neg (by simp [hc])] at h
        cases h
      · rw [cString, List.takeWhile_cons_of_pos (by simpa using hc)] at h
        obtain ⟨rfl, hrest⟩ := List.cons_eq_cons.mp h
        refine ⟨rest, rfl, fun d hd => ?_⟩
        obtain ⟨rest, rfl⟩ := List.head?_eq_some_iff.mp hd
        by_contra hne
        rw [List.takeWhile_cons_of_pos (by simpa using hne)] at hrest
        cases hrest
  · rintro ⟨rest, rfl, hrest⟩
    rw [cString, List.takeWhile_cons_of_pos (by decide)]
    cases rest with
    | nil => rfl
    | cons c rest => rw [List.takeWhile_cons_of_neg (by simp [hrest c rfl])]

theorem sanitizeRfc5987_quote : (sanitizeRfc5987 s).2.2 = [quote] ↔ s = [quote] ∨
    ∃ charset latin1 language rest, s = charset ++ apostrophe ::
      (language ++ apostrophe :: quote :: rest) ∧
      Charset charset latin1 ∧ (∀ c ∈ language, c ≠ nul ∧ c ≠ apostrophe) ∧ ∀ c ∈ rest.head?,
        c = nul := by
  constructor
  · intro h
    rcases sanitizeRfc5987_cases s with ⟨charset, language, tail, latin1, rfl, hcharset,
      hlanguage⟩ | hplain
    · rw [sanitizeRfc5987_extended hcharset hlanguage] at h
      obtain ⟨rest, rfl, hrest⟩ := cString_quote.mp h
      exact .inr ⟨charset, latin1, language, rest, rfl, hcharset, hlanguage, hrest⟩
    · rw [hplain.2] at h
      exact .inl h
  · rintro (rfl | ⟨charset, latin1, language, rest, rfl, hcharset, hlanguage, hrest⟩)
    · rfl
    · rw [sanitizeRfc5987_extended hcharset hlanguage]
      exact cString_quote.mpr ⟨rest, rfl, hrest⟩

theorem valueText_quote (rfc5987 : Bool) : (valueText slice rfc5987).2.2 = [quote] ↔
    LoneQuote slice ∨ rfc5987 = true ∧ LoneExtended slice := by
  cases rfc5987 with
  | false => simpa [valueText] using phpTrim_quote
  | true =>
    simp only [valueText, if_true, true_and]
    rw [sanitizeRfc5987_quote, phpTrim_quote]
    rfl

theorem sanitizeEscaped_error {fault : ParamsFault} :
    sanitizeEscaped L s = .error fault ↔ fault = .underflow ∧ s = [quote] := by
  constructor
  · intro h
    have hs : s = [quote] := by
      by_contra hne
      obtain ⟨t, ht, -⟩ := unquotesSafely_iff.mpr hne
      rw [ht] at h
      cases h
    subst hs
    exact ⟨(Except.error.inj h).symm, rfl⟩
  · rintro ⟨rfl, rfl⟩
    rfl

end

/-! ### The run -/

section Run
variable {L : ParamsLib} {opts : ParamsOpts} {phase : ParamsPhase} {slice : Bytes}
    {st : ParamsState}

theorem bind_error {α β : Type} {x : Except ParamsFault α} {f : α → Except ParamsFault β}
    {fault : ParamsFault} :
    x >>= f = .error fault ↔ x = .error fault ∨ ∃ a, x = .ok a ∧ f a = .error fault := by
  cases x <;> simp [bind, Except.bind]

theorem unescape_error {flags : ParamsFlags} {fault : ParamsFault} {s : Bytes} :
    unescape L flags s = .error fault ↔ flags.escaped = true ∧ fault = .underflow ∧
      s = [quote] := by
  unfold unescape
  cases flags.escaped <;> simp [sanitizeEscaped_error]

theorem sanitizeKey_error {flags : ParamsFlags} {fault : ParamsFault} :
    sanitizeKey L flags slice = .error fault ↔
      flags.escaped = true ∧ fault = .underflow ∧ phpTrim isTrimmed slice = [quote] := by
  rw [sanitizeKey, bind_error, unescape_error, or_iff_left]
  rintro ⟨s, -, h⟩
  split_ifs at h

theorem sanitizeValue_error {flags : ParamsFlags} {rfc5987 : Bool} :
    sanitizeValue L flags slice rfc5987 = .error .underflow ↔
      flags.escaped = true ∧ (valueText slice rfc5987).2.2 = [quote] := by
  rw [sanitizeValue]
  dsimp only
  rw [bind_error, unescape_error, or_iff_left]
  · simp
  · rintro ⟨s, -, h⟩
    generalize (if flags.urlencoded || (valueText slice rfc5987).1.isSome then urlDecode s
      else s) = s at h
    cases hlanguage : (valueText slice rfc5987).1 with
    | none =>
      rw [hlanguage] at h
      cases h
    | some language =>
      rw [hlanguage] at h
      dsimp only at h
      split_ifs at h
      · cases hutf8 : utf8encode L.heap s <;> rw [hutf8] at h <;> cases h
      · cases h

theorem table_ne_underflow {ptr : Option Path} : st.table ptr ≠ .error .underflow := by
  unfold ParamsState.table
  cases ptr with
  | none =>
    intro h
    cases h
  | some path =>
    intro h
    dsimp only at h
    split at h <;> cases h

theorem pushArg_ne_underflow {key : Bytes} {rfc5987 : Bool} :
    pushArg st key rfc5987 ≠ .error .underflow := by
  unfold pushArg
  rw [ne_eq, bind_error]
  rintro (h | ⟨⟨args, ht⟩, -, h⟩)
  · exact table_ne_underflow h
  · dsimp only at h
    split_ifs at h
    split at h <;> cases h

theorem mergeParam_ne_underflow {key : ArrayKey} {path : Path} :
    mergeParam L st key path ≠ .error .underflow := by
  intro h
  unfold mergeParam at h
  split at h
  · cases h
  · split at h <;> cases h
  · cases h

/-- It is in the call of `sanitize_escaped` that the length wraps around. -/
theorem pushParam_underflow : pushParam L opts phase slice st = .error .underflow ↔
    escapedCall opts.flags phase slice st = some [quote] := by
  unfold escapedCall pushParam
  by_cases hslice : slice = []
  · subst hslice
    cases phase with
    | val ofArg => cases h : st.val <;> simp [bind, Except.bind]
    | _ => simp
  cases phase with
  | start => simp
  | param =>
    dsimp only
    rw [if_neg hslice]
    by_cases hrfc5988 : opts.flags.rfc5988 = true
    · simp [hrfc5988]
    · rw [if_neg hrfc5988, bind_error, sanitizeKey_error, or_iff_left]
      · cases opts.flags.escaped <;> simp [hslice, hrfc5988]
      · rintro ⟨⟨key, rfc5987⟩, -, h⟩
        cases key with
        | str key => cases h
        | dimension key path => exact mergeParam_ne_underflow h
  | arg =>
    dsimp only
    rw [if_neg hslice, bind_error, sanitizeKey_error, or_iff_left]
    · cases opts.flags.escaped <;> simp [hslice]
    · rintro ⟨⟨key, rfc5987⟩, -, h⟩
      cases key with
      | str key =>
        dsimp only at h
        split_ifs at h
        exact pushArg_ne_underflow h
      | dimension key path => cases h
  | val ofArg =>
    dsimp only
    cases hval : st.val with
    | none => simp
    | some ptr =>
      dsimp only
      rw [if_pos hslice, bind_error, sanitizeValue_error, or_iff_left]
      · cases opts.flags.escaped <;> simp [hslice]
      · rintro ⟨v, -, h⟩
        cases h

theorem not_quote_nil : ¬ LoneQuote [] ∧ ¬ LoneExtended [] := by
  have htrim : phpTrim isTrimmed [] = [] := rfl
  refine ⟨fun h => ?_, fun h => ?_⟩
  · rw [phpTrim_quote.mpr h] at htrim
    cases htrim
  · obtain ⟨charset, latin1, language, rest, hslice, -⟩ := h
    rw [htrim] at hslice
    simp at hslice

theorem escapedCall_quote (hescaped : opts.flags.escaped = true) :
    escapedCall opts.flags phase slice st = some [quote] ↔
      ¬ Quoteless opts.flags phase slice st := by
  unfold escapedCall Quoteless
  by_cases hslice : slice = []
  · subst hslice
    cases phase <;> simp [not_quote_nil]
  rw [if_neg (by simp [hescaped, hslice])]
  cases phase with
  | start => simp
  | param => by_cases hrfc5988 : opts.flags.rfc5988 = true <;> simp [hrfc5988, phpTrim_quote]
  | arg => simp [phpTrim_quote]
  | val ofArg =>
    dsimp only
    split_ifs with hval
    · simp [hval]
    · rw [Option.some_inj, valueText_quote]
      simp only [hval, false_or]
      tauto

/-- A run fails at the first step that fails. -/
theorem foldlM_error {ε α σ : Type} {f : σ → α → Except ε σ} {s : σ} {l : List α} {e : ε} :
    l.foldlM f s = .error e ↔
      ∃ done a rest s', l = done ++ a :: rest ∧ done.foldlM f s = .ok s' ∧ f s' a = .error e := by
  induction l generalizing s with
  | nil => simp [pure, Except.pure]
  | cons b l ih =>
    rw [List.foldlM_cons]
    constructor
    · intro h
      cases hb : f s b with
      | error e' =>
        rw [hb] at h
        exact ⟨[], b, l, s, rfl, rfl, hb.trans h⟩
      | ok s' =>
        rw [hb] at h
        obtain ⟨done, a, rest, s'', rfl, hdone, ha⟩ := ih.mp h
        refine ⟨b :: done, a, rest, s'', rfl, ?_, ha⟩
        rw [List.foldlM_cons, hb]
        exact hdone
    · rintro ⟨done, a, rest, s', hl, hdone, ha⟩
      cases done with
      | nil =>
        obtain ⟨rfl, rfl⟩ := List.cons_eq_cons.mp hl
        cases hdone
        rw [ha]
        rfl
      | cons c done =>
        obtain ⟨rfl, rfl⟩ := List.cons_eq_cons.mp hl
        rw [List.foldlM_cons] at hdone
        cases hb : f s b with
        | error e' =>
          rw [hb] at hdone
          cases hdone
        | ok s'' =>
          rw [hb] at hdone
          exact ih.mpr ⟨done, a, rest, s', rfl, hdone, ha⟩

/-- The parser fails so where it unquotes a single quote. -/
theorem paramsParse_underflow {params : Entries} {input : Bytes} :
    paramsParse L opts params input = .error .underflow ↔
      ∃ phase slice st, Pushed L opts params input phase slice st ∧
        escapedCall opts.flags phase slice st = some [quote] := by
  have hmap : paramsParse L opts params input = .error .underflow ↔
      paramsLoop L opts (.init input) ⟨params, none, none, false⟩ = .error .underflow := by
    unfold paramsParse
    cases paramsLoop L opts (.init input) ⟨params, none, none, false⟩ <;> simp [Except.map]
  rw [hmap, paramsLoop_eq, foldlM_error]
  constructor
  · rintro ⟨done, ⟨phase, slice⟩, rest, st, hslices, hdone, hpush⟩
    exact ⟨phase, slice, st, ⟨done, rest, hslices, hdone⟩, pushParam_underflow.mp hpush⟩
  · rintro ⟨phase, slice, st, ⟨done, rest, hslices, hdone⟩, hcall⟩
    exact ⟨done, (phase, slice), rest, st, hslices, hdone, pushParam_underflow.mpr hcall⟩

/-- Quotes are removed safely in a run if and only if no single quote is to be unquoted in it. -/
theorem unquoting_iff (L : ParamsLib) (opts : ParamsOpts) (hescaped : opts.flags.escaped = true)
    (params : Entries) (input : Bytes) :
    (∀ phase slice st s, Pushed L opts params input phase slice st →
      escapedCall opts.flags phase slice st = some s → UnquotesSafely L s) ↔
    ∀ phase slice st, Pushed L opts params input phase slice st →
      Quoteless opts.flags phase slice st := by
  refine forall_congr' fun phase => forall_congr' fun slice => forall_congr' fun st => ?_
  constructor
  · intro h hpushed
    by_contra hquote
    exact unquotesSafely_iff.mp (h [quote] hpushed ((escapedCall_quote hescaped).mpr hquote)) rfl
  · intro h s hpushed hcall
    rw [unquotesSafely_iff]
    rintro rfl
    exact (escapedCall_quote hescaped).mp hcall (h hpushed)

end Run

theorem unquoting_pair :
    paramsSlices paramsOptsDefault (.init (ascii "a=\"b\"")) =
      [(.param, ascii "a"), (.val false, ascii "\"b\"")] ∧
    ∀ phase slice st s, Pushed plainParamsLib paramsOptsDefault []
      (ascii "a=\"b\"") phase slice st →
      escapedCall paramsDefault phase slice st = some s → UnquotesSafely plainParamsLib s := by
  have hall : paramsSlices paramsOptsDefault (.init (ascii "a=\"b\"")) =
      [(.param, ascii "a"), (.val false, ascii "\"b\"")] := by decide +kernel
  refine ⟨hall, (unquoting_iff plainParamsLib paramsOptsDefault rfl [] (ascii "a=\"b\"")).mpr ?_⟩
  rintro phase slice st ⟨done, rest, hslices, -⟩
  have hmem : (phase, slice) ∈ [(ParamsPhase.param, ascii "a"), (.val false, ascii "\"b\"")] := by
    rw [← hall, hslices]
    simp
  have hquoteless : ∀ slice ∈ [ascii "a", ascii "\"b\""],
      ¬ LoneQuote slice ∧ ¬ LoneExtended slice := by
    intro slice hslice
    have htext : (valueText slice true).2.2 ≠ [quote] := by
      revert slice
      decide +kernel
    rw [ne_eq, valueText_quote] at htext
    simpa [not_or] using htext
  rcases List.mem_cons.mp hmem with h | h
  · obtain ⟨rfl, rfl⟩ := Prod.mk.inj h
    exact .inr (hquoteless _ (by decide)).1
  · obtain ⟨rfl, rfl⟩ := Prod.mk.inj (List.mem_singleton.mp h)
    have h := hquoteless (ascii "\"b\"") (by decide)
    exact .inr ⟨h.1, fun _ => h.2⟩

/-- A quote, and nothing else. -/
theorem unquoting_single :
    ¬ ∀ phase slice st s, Pushed plainParamsLib paramsOptsDefault [] (ascii "\"") phase slice st →
      escapedCall paramsDefault phase slice st = some s → UnquotesSafely plainParamsLib s := by
  intro h
  have hslices : paramsSlices paramsOptsDefault (.init (ascii "\"")) = [(.param, ascii "\"")] := by
    decide +kernel
  exact unquotesSafely_iff.mp (h .param (ascii "\"") ⟨[], none, none, false⟩ [quote]
    ⟨[], [], hslices, rfl⟩ rfl) rfl

end ExtHttp
