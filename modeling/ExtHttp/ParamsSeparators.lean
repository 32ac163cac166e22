import ExtHttp.Params

/-!
# Separators in front

What `php_http_params_parse` makes of separators in front of its input. They are skipped, but then
the first character of the first parameter does not come to the top of the loop.
-/
namespace ExtHttp

/-- All separators, in the order in which they are skipped. -/
def ParamsOpts.seps (opts : ParamsOpts) : List Bytes := opts.param ++ opts.arg ++ opts.val

/-- Separators that are there, without quotes and backslashes. -/
def PlainSeps (seps : List Bytes) : Prop := ∀ sep ∈ seps, sep ≠ [] ∧ quote ∉ sep ∧ backslash ∉ sep

/-- No separator is the beginning of another. -/
def PrefixFree (seps : List Bytes) : Prop := ∀ p ∈ seps, ∀ q ∈ seps, p <+: q → p = q

/-- The first character is a quote, or it escapes one. -/
def QuotedToken (s : Bytes) : Prop := [quote] <+: s ∨ [backslash, quote] <+: s

/-- Nowhere in the input is a separator. -/
def NoSep (seps : List Bytes) (s : Bytes) : Prop := ∀ sep ∈ seps, ¬ sep <:+: s

/-- Nothing is in front; or skipping it leads to the input, and there it is not missed whether a
quote has been opened. -/
def Neutral (opts : ParamsOpts) (w s : Bytes) : Prop :=
  w = [] ∨ skipSep false false opts.seps (w ++ s) = s ∧ (¬ QuotedToken s ∨ NoSep opts.seps s)

section
variable {opts : ParamsOpts} {seps : List Bytes}

theorem checkSep_eq_zero {input : Bytes} (h : ∀ sep ∈ seps, sep ≠ [] → ¬ sep <+: input)
    (quotes escape : Bool) : checkSep quotes escape seps input = 0 := by
  unfold checkSep
  split_ifs
  · rfl
  · have hnone : seps.find? (fun sep => sep ≠ [] ∧ sep <+: input) = none := by
      rw [List.find?_eq_none]
      intro sep hsep hfound
      rw [decide_eq_true_eq] at hfound
      exact h sep hsep hfound.1 hfound.2
    rw [hnone]
    rfl

theorem checkSep_pos {sep input : Bytes} (hsep : sep ∈ seps) (hne : sep ≠ [])
    (hpre : sep <+: input) :
    ∃ found ∈ seps, found ≠ [] ∧ found <+: input ∧
      checkSep false false seps input = found.length := by
  cases hfind : seps.find? fun sep => sep ≠ [] ∧ sep <+: input with
  | none =>
    rw [List.find?_eq_none] at hfind
    exact absurd (decide_eq_true ⟨hne, hpre⟩) (hfind sep hsep)
  | some found =>
    have hfound := List.find?_some hfind
    simp only [ne_eq, decide_eq_true_eq] at hfound
    refine ⟨found, List.mem_of_find?_eq_some hfind, hfound.1, hfound.2, ?_⟩
    rw [checkSep, hfind]
    rfl

theorem checkSep_char (a c : Byte) (rest : Bytes) :
    checkSep false false [[a]] (c :: rest) = if a = c then 1 else 0 := by
  by_cases h : a = c <;> simp [checkSep, h, List.cons_prefix_cons]

@[simp] theorem checkSep_quotes (escape : Bool) (seps : List Bytes) (input : Bytes) :
    checkSep true escape seps input = 0 := rfl

theorem skipSep_of_zero {quotes escape : Bool} {input : Bytes}
    (h : checkSep quotes escape seps input = 0) : skipSep quotes escape seps input = input := by
  rw [skipSep, if_pos h]

/-- Separators none of which is the beginning of another are all skipped. -/
theorem skipSep_separators (hseps : PlainSeps seps) (hfree : PrefixFree seps) {ws : List Bytes}
    (hws : ∀ w ∈ ws, w ∈ seps) {s : Bytes} (hs : ∀ sep ∈ seps, ¬ sep <+: s) :
    skipSep false false seps (ws.flatten ++ s) = s := by
  induction ws with
  | nil => exact skipSep_of_zero (checkSep_eq_zero (fun sep hsep _ => hs sep hsep) _ _)
  | cons w ws ih =>
    have hw := hws w List.mem_cons_self
    rw [List.flatten_cons, List.append_assoc]
    obtain ⟨found, hfound, -, hpre, hlen⟩ :=
      checkSep_pos hw (hseps w hw).1 (List.prefix_append w (ws.flatten ++ s))
    obtain rfl : found = w := by
      rcases List.prefix_or_prefix_of_prefix hpre
        (List.prefix_append w (ws.flatten ++ s)) with h | h
      · exact hfree _ hfound _ hw h
      · exact (hfree _ hw _ hfound h).symm
    have hpos : found.length ≠ 0 := fun h0 => (hseps found hw).1 (List.length_eq_zero_iff.mp h0)
    rw [skipSep, hlen, if_neg hpos, List.drop_left]
    exact ih fun w hw => hws w (List.mem_cons_of_mem _ hw)

/-! ### Turns -/

theorem mem_seps {sep : Bytes} : sep ∈ opts.seps ↔
    sep ∈ opts.param ∨ sep ∈ opts.arg ∨ sep ∈ opts.val := by
  rw [ParamsOpts.seps, List.mem_append, List.mem_append, or_assoc]

/-- Where no separator is seen the slice gets the character. -/
theorem paramsTurn_none (opts : ParamsOpts) {x : ParamsScan} (hphase : x.phase ≠ .start) (c : Byte)
    (rest : Bytes) (h : ∀ seps, seps ⊆ opts.seps →
      checkSep (trackQuotes opts.flags x.phase x.quotes x.escape c).1
        (trackQuotes opts.flags x.phase x.quotes x.escape c).2 seps (c :: rest) = 0) :
    paramsTurn opts x c rest = (false,
      ⟨x.phase, (trackQuotes opts.flags x.phase x.quotes x.escape c).1,
        (trackQuotes opts.flags x.phase x.quotes x.escape c).2, x.slice ++ [c], rest⟩) := by
  have hparam := h opts.param fun sep hsep => mem_seps.mpr (.inl hsep)
  have harg := h opts.arg fun sep hsep => mem_seps.mpr (.inr (.inl hsep))
  have hval := h opts.val fun sep hsep => mem_seps.mpr (.inr (.inr hsep))
  simp [paramsTurn, hphase, hparam, harg, hval]

/-- A separator is seen where no quotes are open. -/
theorem paramsTurn_sep {x : ParamsScan} (hphase : x.phase = .param) {c : Byte} {rest : Bytes}
    (htrack : trackQuotes opts.flags x.phase x.quotes x.escape c = (false, false)) {sep : Bytes}
    (hsep : sep ∈ opts.seps) (hne : sep ≠ []) (hpre : sep <+: c :: rest) :
    (paramsTurn opts x c rest).1 = true := by
  have hpos : ∀ seps, sep ∈ seps → 0 < checkSep false false seps (c :: rest) := by
    intro seps hmem
    obtain ⟨found, -, hfound, -, hlen⟩ := checkSep_pos hmem hne hpre
    rw [hlen]
    exact List.length_pos_of_ne_nil hfound
  unfold paramsTurn
  rw [htrack, hphase]
  dsimp only
  rw [if_neg (by simp)]
  split_ifs with hparam harg hval
  · rfl
  · rfl
  · rfl
  · rcases mem_seps.mp hsep with hmem | hmem | hmem
    · exact absurd (hpos _ hmem) hparam
    · exact absurd (hpos _ hmem) harg
    · exact absurd ⟨hpos _ hmem, by simp, by simp⟩ hval

theorem paramsTurn_phase (opts : ParamsOpts) (x : ParamsScan) (c : Byte) (rest : Bytes) :
    (paramsTurn opts x c rest).2.phase ≠ .start := by
  unfold paramsTurn
  dsimp only
  split_ifs with hstart <;> simp [hstart]

theorem paramsSlices_go {x y : ParamsScan} {c : Byte} {rest : Bytes} (hinput : x.input = c :: rest)
    (h : paramsTurn opts x c rest = (false, y)) : paramsSlices opts x = paramsSlices opts y := by
  rw [paramsSlices_turn hinput, h]
  rfl

theorem paramsTurn_go {x : ParamsScan} (hphase : x.phase ≠ .start) {c : Byte} {rest : Bytes}
    (h : (paramsTurn opts x c rest).1 = false) : paramsTurn opts x c rest =
      (false, ⟨x.phase, (trackQuotes opts.flags x.phase x.quotes x.escape c).1,
        (trackQuotes opts.flags x.phase x.quotes x.escape c).2, x.slice ++ [c], rest⟩) := by
  unfold paramsTurn at h ⊢
  dsimp only at h ⊢
  rw [if_neg hphase] at h ⊢
  split_ifs at h ⊢
  rfl

/-- The first slice begins with what has been read of it. -/
theorem paramsSlices_head (opts : ParamsOpts) {x : ParamsScan} (hphase : x.phase ≠ .start) :
    ∃ t slices, paramsSlices opts x = (x.phase, x.slice ++ t) :: slices := by
  induction hlen : x.input.length using Nat.strong_induction_on generalizing x with
  | _ n ih =>
    cases hinput : x.input with
    | nil => exact ⟨[], [], by rw [paramsSlices_end hinput, List.append_nil]⟩
    | cons c rest =>
      rw [paramsSlices_turn hinput]
      split_ifs with hpush
      · exact ⟨[], _, by rw [List.append_nil]⟩
      · have hturn := paramsTurn_go hphase (Bool.eq_false_iff.mpr hpush)
        have hlt : (paramsTurn opts x c rest).2.input.length < n := by
          rw [← hlen, hinput]
          exact paramsTurn_lt opts x c rest
        obtain ⟨t, slices, hslices⟩ := ih _ hlt (paramsTurn_phase opts x c rest) rfl
        rw [hturn] at hslices ⊢
        exact ⟨c :: t, slices, by simpa using hslices⟩

/-! ### Runs that differ in quotes -/

/-- Two runs that are not in quotes at the same time. -/
structure Opposite (x y : ParamsScan) : Prop where
  phase : x.phase = .param ∧ y.phase = .param
  quotes : x.quotes = !y.quotes
  escape : x.escape = y.escape
  slice : x.slice = y.slice
  input : x.input = y.input

theorem Opposite.symm {x y : ParamsScan} (h : Opposite x y) : Opposite y x :=
  ⟨h.phase.symm, by rw [h.quotes, Bool.not_not], h.escape.symm, h.slice.symm, h.input.symm⟩

theorem noSep_cons {seps : List Bytes} {c : Byte} {s : Bytes} :
    NoSep seps (c :: s) ↔ (∀ sep ∈ seps, ¬ sep <+: c :: s) ∧ NoSep seps s := by
  simp only [NoSep, List.infix_cons_iff, not_or, forall_and]

/-- Without a separator there is one slice, whatever is quoted. -/
theorem paramsSlices_noSep {x : ParamsScan} (hphase : x.phase = .param)
    (h : NoSep opts.seps x.input) : paramsSlices opts x = [(.param, x.slice ++ x.input)] := by
  induction hinput : x.input generalizing x with
  | nil => rw [paramsSlices_end hinput, hphase, List.append_nil]
  | cons c rest ih =>
    rw [hinput, noSep_cons] at h
    have hstart : x.phase ≠ .start := by simp [hphase]
    have hturn := paramsTurn_none opts hstart c rest fun seps hsub =>
      checkSep_eq_zero (fun sep hsep _ => h.1 sep (hsub hsep)) _ _
    have hrest := ih (x := (paramsTurn opts x c rest).2) (by rw [hturn]; exact hphase)
      (by rw [hturn]; exact h.2) (by rw [hturn])
    rw [paramsSlices_turn hinput, hturn] at *
    simpa using hrest

theorem trackQuotes_other (hflags : opts.flags.rfc5988 = false) {c : Byte} (hc : c ≠ quote)
    (phase : ParamsPhase) (quotes escape : Bool) :
    trackQuotes opts.flags phase quotes escape c = (quotes, decide (c = backslash)) := by
  simp [trackQuotes, hflags, hc]

/-- At a separator the one that is not in quotes comes to the end of its slice. -/
theorem Opposite.slices_ne_sep (hflags : opts.flags.rfc5988 = false) (hseps : PlainSeps opts.seps)
    {x y : ParamsScan} (h : Opposite x y) (hquotes : x.quotes = false) {c : Byte} {rest : Bytes}
    (hinput : x.input = c :: rest) {sep : Bytes} (hsep : sep ∈ opts.seps)
    (hpre : sep <+: c :: rest) :
    paramsSlices opts x ≠ paramsSlices opts y := by
  obtain ⟨hne, hquote, hbackslash⟩ := hseps sep hsep
  obtain ⟨d, sep, rfl⟩ := List.exists_cons_of_ne_nil hne
  obtain rfl : d = c := by
    obtain ⟨t, ht⟩ := hpre
    exact (List.cons_eq_cons.mp ht).1
  have hd : d ≠ quote ∧ d ≠ backslash :=
    ⟨fun hd => hquote (hd ▸ List.mem_cons_self), fun hd => hbackslash (hd ▸ List.mem_cons_self)⟩
  have hy : y.quotes = true := by
    have := h.quotes
    rw [hquotes] at this
    simpa using this.symm
  have htrack := fun quotes escape => trackQuotes_other hflags hd.1 .param quotes escape
  simp only [hd.2, decide_false] at htrack
  have hpush : (paramsTurn opts x d rest).1 = true :=
    paramsTurn_sep h.phase.1 (by rw [h.phase.1, htrack, hquotes]) hsep hne hpre
  have hstart : y.phase ≠ .start := by simp [h.phase.2]
  have hgo := paramsTurn_none opts hstart d rest fun seps _ => by
    rw [h.phase.2, htrack, hy]
    rfl
  rw [paramsSlices_turn hinput, hpush, if_pos rfl,
    paramsSlices_turn (h.input.symm.trans hinput), hgo]
  obtain ⟨t, slices, hslices⟩ := paramsSlices_head opts (paramsTurn_phase opts y d rest)
  rw [hgo] at hslices
  simp only [Bool.false_eq_true, if_false, hslices, ne_eq, List.cons.injEq, Prod.mk.injEq, h.slice]
  simp

/-- Where there is a separator, they do not see the same slices. -/
theorem Opposite.slices_ne (hflags : opts.flags.rfc5988 = false) (hseps : PlainSeps opts.seps)
    {x y : ParamsScan} (h : Opposite x y) (hsep : ¬ NoSep opts.seps x.input) :
    paramsSlices opts x ≠ paramsSlices opts y := by
  induction hinput : x.input generalizing x y with
  | nil =>
    rw [hinput] at hsep
    refine absurd (fun sep hmem hin => ?_) hsep
    exact (hseps sep hmem).1 (List.infix_nil.mp hin)
  | cons c rest ih =>
    by_cases hpre : ∀ sep ∈ opts.seps, ¬ sep <+: c :: rest
    · have hnone : ∀ quotes escape seps, seps ⊆ opts.seps →
          checkSep quotes escape seps (c :: rest) = 0 := fun quotes escape seps hsub =>
        checkSep_eq_zero (fun sep hmem _ => hpre sep (hsub hmem)) _ _
      have hx := paramsTurn_none opts (x := x) (by simp [h.phase.1]) c rest (hnone _ _)
      have hy := paramsTurn_none opts (x := y) (by simp [h.phase.2]) c rest (hnone _ _)
      rw [paramsSlices_turn hinput, paramsSlices_turn (h.input.symm.trans hinput), hx, hy]
      simp only [Bool.false_eq_true, if_false]
      refine ih ⟨h.phase, ?_, ?_, by simp [h.slice], rfl⟩ ?_ rfl
      · simp only [trackQuotes, hflags, Bool.false_eq_true, false_and, if_false, h.quotes, h.escape]
        split_ifs <;> rfl
      · simp only [trackQuotes, hflags, Bool.false_eq_true, false_and, if_false, h.escape]
        split_ifs <;> rfl
      · intro hrest
        exact hsep (hinput ▸ noSep_cons.mpr ⟨hpre, hrest⟩)
    · push Not at hpre
      obtain ⟨sep, hmem, hpre⟩ := hpre
      cases hquotes : x.quotes with
      | false => exact h.slices_ne_sep hflags hseps hquotes hinput hmem hpre
      | true =>
        refine (h.symm.slices_ne_sep hflags hseps ?_ (h.input.symm.trans hinput) hmem hpre).symm
        rw [h.symm.quotes, hquotes]
        rfl

/-! ### Separators in front -/

/-- The first turn skips what is in front, and takes the next character without a look at it. -/
theorem paramsSlices_behind (hflags : opts.flags.rfc5988 = false) {c : Byte} {w s : Bytes}
    (hc : c ≠ quote ∧ c ≠ backslash) (hskip : skipSep false false opts.seps (c :: w ++ s) = s) :
    paramsSlices opts (.init (c :: w ++ s)) =
      paramsSlices opts ⟨.param, false, false, s.take 1, s.drop 1⟩ := by
  have hinput : (ParamsScan.init (c :: w ++ s)).input = c :: (w ++ s) := rfl
  have htrack : trackQuotes opts.flags .start false false c = (false, false) := by
    rw [trackQuotes_other hflags hc.1]
    simp [hc.2]
  have hturn : paramsTurn opts (.init (c :: w ++ s)) c (w ++ s) =
      (false, ⟨.param, false, false, s.take 1, s.drop 1⟩) := by
    unfold paramsTurn ParamsScan.init
    dsimp only
    rw [htrack, if_pos rfl]
    exact congrArg (fun input : Bytes =>
      (false, (⟨.param, false, false, input.take 1, input.drop 1⟩ :
      ParamsScan))) hskip
  exact paramsSlices_go hinput hturn

/-- Without separators in front it is looked at. -/
theorem paramsSlices_front (hflags : opts.flags.rfc5988 = false) {c : Byte} {rest : Bytes}
    (hs : ∀ sep ∈ opts.seps, ¬ sep <+: c :: rest) : paramsSlices opts (.init (c :: rest)) =
      paramsSlices opts ⟨.param, c = quote, c = backslash, [c], rest⟩ := by
  have htrack : trackQuotes opts.flags .start false false c =
      (decide (c = quote), decide (c = backslash)) := by
    by_cases hc : c = quote
    · simp [trackQuotes, hflags, hc, quote, backslash]
    · simp [trackQuotes_other hflags hc, hc]
  have hskip : ∀ quotes escape, skipSep quotes escape opts.seps (c :: rest) = c :: rest :=
    fun quotes escape => skipSep_of_zero (checkSep_eq_zero (fun sep hsep _ => hs sep hsep) _ _)
  have hturn : paramsTurn opts (.init (c :: rest)) c rest =
      (false, ⟨.param, decide (c = quote), decide (c = backslash), [c], rest⟩) := by
    unfold paramsTurn ParamsScan.init
    dsimp only
    rw [htrack, if_pos rfl]
    exact congrArg (fun input : Bytes => (false, (⟨.param, _, _, input.take 1, input.drop 1⟩ :
      ParamsScan))) (hskip _ _)
  exact paramsSlices_go rfl hturn

/-- The slices are the same exactly if the first character does not open a quote and does not escape
one, or it makes no difference. -/
theorem paramsSlices_eq_iff (hflags : opts.flags.rfc5988 = false) (hseps : PlainSeps opts.seps)
    {c : Byte} {rest : Bytes} (hs : ∀ sep ∈ opts.seps, ¬ sep <+: c :: rest) :
    paramsSlices opts ⟨.param, false, false, [c], rest⟩ =
        paramsSlices opts ⟨.param, c = quote, c = backslash, [c], rest⟩ ↔
      ¬ QuotedToken (c :: rest) ∨ NoSep opts.seps (c :: rest) := by
  by_cases hno : NoSep opts.seps (c :: rest)
  · have hrest := (noSep_cons.mp hno).2
    refine iff_of_true ?_ (.inr hno)
    rw [paramsSlices_noSep rfl hrest, paramsSlices_noSep rfl hrest]
  have hrest : ¬ NoSep opts.seps rest := fun h => hno (noSep_cons.mpr ⟨hs, h⟩)
  by_cases hquote : c = quote
  · refine iff_of_false ?_ ?_
    · refine Opposite.slices_ne hflags hseps ⟨⟨rfl, rfl⟩, ?_, ?_, rfl, rfl⟩ hrest
      · simp [hquote]
      · simp [hquote, quote, backslash]
    · subst hquote
      simp [QuotedToken, hno]
  by_cases hback : c = backslash
  · subst hback
    match rest with
    | [] => exact absurd (fun sep hsep hin => (hseps sep hsep).1 (List.infix_nil.mp hin)) hrest
    | d :: rest =>
      by_cases hd : d = quote
      · subst hd
        have hpre : ∀ sep ∈ opts.seps, ¬ sep <+: quote :: rest := by
          rintro sep hsep ⟨t, ht⟩
          obtain ⟨hne, hquote, -⟩ := hseps sep hsep
          obtain ⟨e, sep, rfl⟩ := List.exists_cons_of_ne_nil hne
          exact hquote ((List.cons_eq_cons.mp ht).1 ▸ List.mem_cons_self)
        have hturn := fun escape => paramsTurn_none opts (x := ⟨.param, false, escape, [backslash],
          quote :: rest⟩) (by simp) quote rest fun seps hsub =>
          checkSep_eq_zero (fun sep hsep _ => hpre sep (hsub hsep)) _ _
        refine iff_of_false ?_ ?_
        · rw [decide_eq_true rfl, decide_eq_false hquote, paramsSlices_go rfl (hturn false),
            paramsSlices_go rfl (hturn true)]
          refine Opposite.slices_ne hflags hseps ⟨⟨rfl, rfl⟩, ?_, ?_, rfl, rfl⟩ fun h =>
            hrest (noSep_cons.mpr ⟨hpre, h⟩)
          · simp [trackQuotes, hflags]
          · simp [trackQuotes, hflags, quote, backslash]
        · simp [QuotedToken, hno]
      · refine iff_of_true ?_ (.inl ?_)
        · have hsame : ∀ escape, paramsSlices opts ⟨.param, false, escape, [backslash], d :: rest⟩ =
              if (paramsTurn opts ⟨.param, false, false, [backslash], d :: rest⟩ d rest).1 then
                (.param, [backslash]) :: paramsSlices opts
                  (paramsTurn opts ⟨.param, false, false, [backslash], d :: rest⟩ d rest).2
              else paramsSlices opts
                (paramsTurn opts ⟨.param, false, false, [backslash], d :: rest⟩ d rest).2 := by
            intro escape
            rw [paramsSlices_turn rfl]
            simp only [paramsTurn, trackQuotes_other hflags hd]
          rw [decide_eq_false hquote, hsame, hsame]
        · simp [QuotedToken, Ne.symm hd, Ne.symm hquote]
  · refine iff_of_true ?_ (.inl ?_)
    · simp [hquote, hback]
    · simp [QuotedToken, Ne.symm hquote, Ne.symm hback]

theorem paramsParse_of_slices {input input' : Bytes}
    (h : paramsSlices opts (.init input) = paramsSlices opts (.init input')) (L : ParamsLib)
    (params : Entries) : paramsParse L opts params input = paramsParse L opts params input' := by
  rw [paramsParse, paramsParse, paramsLoop_eq, paramsLoop_eq, h]

end

theorem neutral_of_prefixFree {opts : ParamsOpts} (hseps : PlainSeps opts.seps)
    (hfree : PrefixFree opts.seps) {ws : List Bytes} (hws : ∀ w ∈ ws, w ∈ opts.seps) {s : Bytes}
    (hs : ∀ sep ∈ opts.seps, ¬ sep <+: s) (hquoted : ¬ QuotedToken s) : Neutral opts ws.flatten s :=
  .inr ⟨skipSep_separators hseps hfree hws hs, .inl hquoted⟩

/-- Separators in front are neutral where it cannot be missed that the first character opens a
quote. And this is exactly where the same slices are cut. -/
theorem leadingSeparators_neutral {opts : ParamsOpts} (hflags : opts.flags.rfc5988 = false)
    (hseps : PlainSeps opts.seps) {ws : List Bytes} (hws : ∀ w ∈ ws, w ∈ opts.seps) {s : Bytes}
    (hs : ∀ sep ∈ opts.seps, ¬ sep <+: s) :
    (Neutral opts ws.flatten s → ∀ L params,
      paramsParse L opts params (ws.flatten ++ s) = paramsParse L opts params s) ∧
    (s ≠ [] → skipSep false false opts.seps (ws.flatten ++ s) = s →
      (paramsSlices opts (.init (ws.flatten ++ s)) = paramsSlices opts (.init s) ↔
        Neutral opts ws.flatten s)) := by
  have hfirst : ∀ d w, ws.flatten = d :: w → d ≠ quote ∧ d ≠ backslash := by
    intro d w hw
    have hmem : d ∈ ws.flatten := by simp [hw]
    obtain ⟨sep, hsep, hmem⟩ := List.mem_flatten.mp hmem
    obtain ⟨-, hquote, hback⟩ := hseps sep (hws sep hsep)
    exact ⟨fun h => hquote (h ▸ hmem), fun h => hback (h ▸ hmem)⟩
  have hiff : s ≠ [] → ws.flatten ≠ [] → skipSep false false opts.seps (ws.flatten ++ s) = s →
      (paramsSlices opts (.init (ws.flatten ++ s)) = paramsSlices opts (.init s) ↔
        ¬ QuotedToken s ∨ NoSep opts.seps s) := by
    intro hne hw hskip
    obtain ⟨c, rest, rfl⟩ := List.exists_cons_of_ne_nil hne
    obtain ⟨d, w, hw⟩ := List.exists_cons_of_ne_nil hw
    rw [hw] at hskip ⊢
    rw [paramsSlices_behind hflags (hfirst d w hw) hskip, paramsSlices_front hflags hs]
    exact paramsSlices_eq_iff hflags hseps hs
  constructor
  · rintro (hw | ⟨hskip, hcond⟩) L params
    · rw [hw, List.nil_append]
    · by_cases hw : ws.flatten = []
      · rw [hw, List.nil_append]
      by_cases hne : s = []
      · -- nothing is left, and nothing is stored
        subst hne
        obtain ⟨d, w, hw⟩ := List.exists_cons_of_ne_nil hw
        rw [hw] at hskip ⊢
        rw [paramsParse, paramsParse, paramsLoop_eq,
          paramsSlices_behind hflags (hfirst d w hw) hskip, paramsLoop_end rfl,
          paramsSlices_end rfl]
        rfl
      · exact paramsParse_of_slices ((hiff hne hw hskip).mpr hcond) L params
  · intro hs hskip
    by_cases hw : ws.flatten = []
    · rw [hw, List.nil_append]
      exact iff_of_true rfl (.inl rfl)
    · rw [hiff hs hw hskip, Neutral, or_iff_right hw, and_iff_right hskip]

theorem leadingSeparators_comma :
    paramsParse plainParamsLib paramsOptsDefault [] (ascii ",;" ++ ascii "a,\"b\"") =
      paramsParse plainParamsLib paramsOptsDefault [] (ascii "a,\"b\"") := by
  have hseps : PlainSeps paramsOptsDefault.seps := by unfold PlainSeps; decide
  have hfree : PrefixFree paramsOptsDefault.seps := by unfold PrefixFree; decide
  have hws : ∀ w ∈ [[comma], [semicolon]], w ∈ paramsOptsDefault.seps := by decide
  have hs : ∀ sep ∈ paramsOptsDefault.seps, ¬ sep <+: ascii "a,\"b\"" := by decide
  have hquoted : ¬ QuotedToken (ascii "a,\"b\"") := by unfold QuotedToken; decide
  exact (leadingSeparators_neutral rfl hseps hws hs).1
    (neutral_of_prefixFree hseps hfree hws hs hquoted) _ _

/-- A quoted comma is a separator behind another one. -/
theorem leadingSeparators_quote :
    paramsParse plainParamsLib paramsOptsDefault [] (ascii ",\"a,b\"") ≠
      paramsParse plainParamsLib paramsOptsDefault [] (ascii "\"a,b\"") := by
  have htwo : (paramsParse plainParamsLib paramsOptsDefault [] (ascii ",\"a,b\"")).toOption.map
      List.length = some 2 := by decide +kernel
  have hone : (paramsParse plainParamsLib paramsOptsDefault [] (ascii "\"a,b\"")).toOption.map
      List.length = some 1 := by decide +kernel
  intro h
  rw [h, hone] at htwo
  cases htwo

end ExtHttp
