import ExtHttp.Cslashes
import ExtHttp.ParamsRoundtrip

/-!
# Tokens between separators

A text of tokens with separators in front of them is read as these tokens, whatever is in quotes.
-/
namespace ExtHttp

/-- Options with the separators of headers; those of parameters may be missing. -/
structure HeaderOpts (opts : ParamsOpts) : Prop where
  param : opts.param = [[comma]] ∨ opts.param = []
  arg : opts.arg = [[semicolon]]
  val : opts.val = [[equalSign]]
  defval : opts.defval = none
  flags : opts.flags = paramsDefault

theorem headerOpts_default : HeaderOpts paramsOptsDefault := ⟨.inl rfl, rfl, rfl, rfl, rfl⟩

/-- A character that does not belong to the syntax. -/
def IsPlain (c : Byte) : Prop := c ≠ comma ∧ c ≠ semicolon ∧ c ≠ equalSign ∧ c ≠ quote ∧
    c ≠ backslash

instance (c : Byte) : Decidable (IsPlain c) := inferInstanceAs (Decidable (_ ∧ _))

section
variable {opts : ParamsOpts} {phase phase' : ParamsPhase} {slice s t rest : Bytes}

theorem HeaderOpts.checkSep_zero (hopts : HeaderOpts opts) {c : Byte}
    (hc : c ≠ comma ∧ c ≠ semicolon ∧ c ≠ equalSign) {seps : List Bytes} (hseps : seps ⊆ opts.seps)
    (quotes escape : Bool) (rest : Bytes) : checkSep quotes escape seps (c :: rest) = 0 := by
  refine checkSep_eq_zero (fun sep hsep _ hpre => ?_) quotes escape
  have hchar : sep = [comma] ∨ sep = [semicolon] ∨ sep = [equalSign] := by
    rcases mem_seps.mp (hseps hsep) with h | h | h
    · rcases hopts.param with hparam | hparam
      · rw [hparam] at h
        exact .inl (List.mem_singleton.mp h)
      · rw [hparam] at h
        cases h
    · rw [hopts.arg] at h
      exact .inr (.inl (List.mem_singleton.mp h))
    · rw [hopts.val] at h
      exact .inr (.inr (List.mem_singleton.mp h))
  rcases hchar with rfl | rfl | rfl
  · exact hc.1 (List.cons_prefix_cons.mp hpre).1.symm
  · exact hc.2.1 (List.cons_prefix_cons.mp hpre).1.symm
  · exact hc.2.2 (List.cons_prefix_cons.mp hpre).1.symm

theorem HeaderOpts.rfc5988 (hopts : HeaderOpts opts) : opts.flags.rfc5988 = false := by
  rw [hopts.flags]
  rfl

/-! ### What goes to a slice -/

/-- Outside of quotes the whole text goes to the slice, and leads outside of quotes. -/
def Passes (opts : ParamsOpts) (s : Bytes) : Prop :=
  ∀ phase ≠ .start, ∀ slice rest, paramsSlices opts ⟨phase, false, false, slice, s ++ rest⟩ =
    paramsSlices opts ⟨phase, false, false, slice ++ s, rest⟩

theorem Passes.nil :
    Passes opts [] := fun _ _ slice rest => by rw [List.append_nil, List.nil_append]

theorem Passes.append (hs : Passes opts s) (ht : Passes opts t) :
    Passes opts (s ++ t) := fun phase hphase slice rest => by
  rw [List.append_assoc, hs phase hphase, ht phase hphase, List.append_assoc]

/-- A turn that only puts the character into the slice. -/
theorem paramsSlices_char (opts : ParamsOpts) (hphase : phase ≠ .start) (quotes escape : Bool)
    (c : Byte) (slice rest : Bytes)
    (hseps : ∀ seps, seps ⊆ opts.seps → checkSep (trackQuotes opts.flags phase quotes escape c).1
      (trackQuotes opts.flags phase quotes escape c).2 seps (c :: rest) = 0) :
    paramsSlices opts ⟨phase, quotes, escape, slice, c :: rest⟩ =
      paramsSlices opts ⟨phase, (trackQuotes opts.flags phase quotes escape c).1,
        (trackQuotes opts.flags phase quotes escape c).2, slice ++ [c], rest⟩ :=
  paramsSlices_go rfl (paramsTurn_none opts hphase c rest hseps)

theorem passes_char (hopts : HeaderOpts opts) {c : Byte} (hc : IsPlain c) : Passes opts [c] := by
  intro phase hphase slice rest
  obtain ⟨hcomma, hsemicolon, hequal, hquote, hback⟩ := hc
  have htrack : trackQuotes opts.flags phase false false c = (false, false) := by
    rw [trackQuotes_other hopts.rfc5988 hquote, decide_eq_false hback]
  have hturn := paramsSlices_char opts hphase false false c slice rest fun seps hseps =>
    hopts.checkSep_zero ⟨hcomma, hsemicolon, hequal⟩ hseps
      (trackQuotes opts.flags phase false false c).1
      (trackQuotes opts.flags phase false false c).2 rest
  rw [htrack] at hturn
  exact hturn

theorem passes_plain (hopts : HeaderOpts opts) (hs : ∀ c ∈ s, IsPlain c) : Passes opts s := by
  induction s with
  | nil => exact .nil
  | cons c s ih =>
    rw [List.forall_mem_cons] at hs
    exact (passes_char hopts hs.1).append (ih hs.2)

/-! ### In quotes -/

/-- In quotes a character goes to the slice, unless it is a quote that has not been escaped. -/
theorem paramsSlices_quoted (hopts : HeaderOpts opts) (hphase : phase ≠ .start) {escape : Bool}
    {c : Byte} (hc : c = quote → escape = true) :
    paramsSlices opts ⟨phase, true, escape, slice, c :: rest⟩ =
      paramsSlices opts ⟨phase, true, decide (c = backslash), slice ++ [c], rest⟩ := by
  have htrack : trackQuotes opts.flags phase true escape c = (true, decide (c = backslash)) := by
    unfold trackQuotes
    rw [if_neg (by simp [hopts.rfc5988]), if_neg]
    rintro ⟨hquote, hescape⟩
    simp [hc hquote] at hescape
  have hturn :=
    paramsSlices_char opts hphase true escape c slice rest fun seps _ => by rw [htrack]; rfl
  rw [htrack] at hturn
  exact hturn

/-- Each quote stands behind a backslash; the flag tells whether there is one in front. -/
def Guarded : Bool → Bytes → Prop
  | _, [] => True
  | escape, c :: s => (c = quote → escape = true) ∧ Guarded (c = backslash) s

/-- Whether the last character is a backslash. -/
def endsEscaping (escape : Bool) (s : Bytes) : Bool :=
  s.foldl (fun _ c => decide (c = backslash)) escape

instance decidableGuarded : ∀ escape s, Decidable (Guarded escape s)
  | _, [] => inferInstanceAs (Decidable True)
  | _, c :: s =>
      have := decidableGuarded (c = backslash) s
      inferInstanceAs (Decidable (_ ∧ _))

theorem paramsSlices_guarded (hopts : HeaderOpts opts) (hphase : phase ≠ .start) {escape : Bool}
    (hs : Guarded escape s) : paramsSlices opts ⟨phase, true, escape, slice, s ++ rest⟩ =
      paramsSlices opts ⟨phase, true, endsEscaping escape s, slice ++ s, rest⟩ := by
  induction s generalizing escape slice with
  | nil => rw [List.nil_append, List.append_nil]; rfl
  | cons c s ih =>
    rw [List.cons_append, paramsSlices_quoted hopts hphase hs.1, ih hs.2, List.append_assoc]
    rfl

theorem guarded_addcslash : ∀ escape c, Guarded escape (addcslash c) ∧
    endsEscaping escape (addcslash c) = decide (c = backslash) := by
  decide +kernel

theorem guarded_append {escape : Bool} :
    Guarded escape (s ++ t) ↔ Guarded escape s ∧ Guarded (endsEscaping escape s) t := by
  induction s generalizing escape with
  | nil => simp [Guarded, endsEscaping]
  | cons c s ih =>
    rw [List.cons_append, Guarded, Guarded, ih, and_assoc]
    rfl

/-- What has been escaped is guarded, and ends with a backslash only if it did before. -/
theorem guarded_phpAddcslashes (escape : Bool) (s : Bytes) : Guarded escape (phpAddcslashes s) ∧
    endsEscaping escape (phpAddcslashes s) = endsEscaping escape s := by
  induction s generalizing escape with
  | nil => exact ⟨trivial, rfl⟩
  | cons c s ih =>
    obtain ⟨hguarded, hends⟩ := guarded_addcslash escape c
    have hcons : phpAddcslashes (c :: s) = addcslash c ++ phpAddcslashes s := rfl
    have hboth : endsEscaping escape (addcslash c ++ phpAddcslashes s) =
        endsEscaping (endsEscaping escape (addcslash c)) (phpAddcslashes s) := List.foldl_append
    rw [hcons, guarded_append, hboth, hends]
    exact ⟨⟨hguarded, (ih _).1⟩, (ih _).2⟩

theorem endsEscaping_of_last (h : s.getLast? ≠ some backslash) : endsEscaping false s = false := by
  rcases List.eq_nil_or_concat s with rfl | ⟨s, c, rfl⟩
  · rfl
  · rw [List.concat_eq_append, List.getLast?_concat] at h
    rw [List.concat_eq_append, endsEscaping, List.foldl_append]
    simpa using h

/-- A text in quotes, if it does not end with a backslash. -/
theorem passes_quoted (hopts : HeaderOpts opts) (h : s.getLast? ≠ some backslash) :
    Passes opts (quote :: (phpAddcslashes s ++ [quote])) := by
  intro phase hphase slice rest
  have htrack : ∀ quotes, trackQuotes opts.flags phase quotes false quote = (!quotes, false) := by
    simp [trackQuotes, hopts.rfc5988]
  have hzero : ∀ quotes (rest : Bytes) seps, seps ⊆ opts.seps →
      checkSep (trackQuotes opts.flags phase quotes false quote).1
        (trackQuotes opts.flags phase quotes false quote).2 seps
          (quote :: rest) = 0 := fun quotes rest seps hseps =>
    hopts.checkSep_zero (by decide) hseps _ _ rest
  obtain ⟨hguarded, hends⟩ := guarded_phpAddcslashes false s
  rw [endsEscaping_of_last h] at hends
  rw [List.cons_append, List.append_assoc,
    paramsSlices_char opts hphase _ _ _ _ _ (hzero false _), htrack, Bool.not_false,
    paramsSlices_guarded hopts hphase hguarded, hends, List.singleton_append,
    paramsSlices_char opts hphase _ _ _ _ _ (hzero true _), htrack, Bool.not_true]
  simp

/-! ### Separators -/

/-- Which separator leads from where to where. -/
inductive Enters (opts : ParamsOpts) : ParamsPhase → Byte → ParamsPhase → Prop
  | param {phase : ParamsPhase} (h : opts.param = [[comma]]) : Enters opts phase comma .param
  | arg {phase : ParamsPhase} : Enters opts phase semicolon .arg
  | paramVal : Enters opts .param equalSign (.val false)
  | argVal : Enters opts .arg equalSign (.val true)

/-- A token with the separator in front of it, and what it is read as. -/
structure Segment where
  sep : Byte
  phase : ParamsPhase
  token : Bytes

/-- A token can stand there: nothing at its beginning is skipped, and only values are empty. -/
structure Segment.Fits (opts : ParamsOpts) (g : Segment) : Prop where
  passes : Passes opts g.token
  head : ∀ c ∈ g.token.head?, c ≠ comma ∧ c ≠ semicolon ∧ c ≠ equalSign
  full : g.token = [] → g.phase = .val false ∨ g.phase = .val true

/-- Segments one behind the other. -/
def Chained (opts : ParamsOpts) : ParamsPhase → List Segment → Prop
  | _, [] => True
  | phase, g :: gs => Enters opts phase g.sep g.phase ∧ g.Fits opts ∧ Chained opts g.phase gs

def segmentsText (gs : List Segment) : Bytes := gs.flatMap fun g => g.sep :: g.token

theorem skipSep_head {seps : List Bytes} (h : ∀ sep ∈ seps, ∃ c, sep = [c] ∧ c ∉ rest.head?) :
    skipSep false false seps rest = rest := by
  refine skipSep_of_zero (checkSep_eq_zero (fun sep hsep _ hpre => ?_) _ _)
  obtain ⟨c, rfl, hc⟩ := h sep hsep
  obtain ⟨t, rfl⟩ := hpre
  exact hc rfl

theorem HeaderOpts.sep_cases (hopts : HeaderOpts opts) {sep : Bytes} :
    (sep ∈ opts.param → sep = [comma]) ∧ (sep ∈ opts.arg → sep = [semicolon]) ∧
      (sep ∈ opts.val → sep = [equalSign]) := by
  rw [hopts.arg, hopts.val, List.mem_singleton, List.mem_singleton]
  refine ⟨fun h => ?_, id, id⟩
  rcases hopts.param with hparam | hparam <;> rw [hparam] at h
  · exact List.mem_singleton.mp h
  · cases h

/-- A separator ends the slice, and nothing behind it is skipped. -/
theorem paramsSlices_sep (hopts : HeaderOpts opts) {c : Byte} (henters : Enters opts phase c phase')
    (hphase : phase ≠ .start) (hrest : ∀ d ∈ rest.head?, d ≠ equalSign ∧
      (phase' ≠ .val false → phase' ≠ .val true → d ≠ comma ∧ d ≠ semicolon)) :
    paramsSlices opts ⟨phase, false, false, slice, c :: rest⟩ =
      (phase, slice) :: paramsSlices opts ⟨phase', false, false, [], rest⟩ := by
  have hval : skipSep false false opts.val rest = rest := skipSep_head fun sep hsep =>
    ⟨equalSign, hopts.sep_cases.2.2 hsep, fun h => (hrest _ h).1 rfl⟩
  have harg : phase' ≠ .val false → phase' ≠ .val true →
      skipSep false false (opts.arg ++ opts.val) rest = rest :=
    fun hfalse htrue => skipSep_head fun sep hsep => by
      rcases List.mem_append.mp hsep with hsep | hsep
      · exact ⟨semicolon, hopts.sep_cases.2.1 hsep, fun h => ((hrest _ h).2 hfalse htrue).2 rfl⟩
      · exact ⟨equalSign, hopts.sep_cases.2.2 hsep, fun h => (hrest _ h).1 rfl⟩
  have hparam : phase' ≠ .val false → phase' ≠ .val true →
      skipSep false false opts.seps rest = rest :=
    fun hfalse htrue => skipSep_head fun sep hsep => by
      rcases mem_seps.mp hsep with hsep | hsep | hsep
      · exact ⟨comma, hopts.sep_cases.1 hsep, fun h => ((hrest _ h).2 hfalse htrue).1 rfl⟩
      · exact ⟨semicolon, hopts.sep_cases.2.1 hsep, fun h => ((hrest _ h).2 hfalse htrue).2 rfl⟩
      · exact ⟨equalSign, hopts.sep_cases.2.2 hsep, fun h => (hrest _ h).1 rfl⟩
  have htrack : c ≠ quote → c ≠ backslash →
      trackQuotes opts.flags phase false false c = (false, false) :=
    fun hquote hback => by rw [trackQuotes_other hopts.rfc5988 hquote, decide_eq_false hback]
  have hnoParam : c ≠ comma → checkSep false false opts.param (c :: rest) = 0 := fun hc =>
    checkSep_eq_zero (fun sep hsep _ hpre => by
      rw [hopts.sep_cases.1 hsep] at hpre
      exact hc (List.cons_prefix_cons.mp hpre).1.symm) _ _
  have hcheckArg : checkSep false false opts.arg (c :: rest) = if semicolon = c then 1 else 0 := by
    rw [hopts.arg]
    exact checkSep_char _ _ _
  have hcheckVal : checkSep false false opts.val (c :: rest) = if equalSign = c then 1 else 0 := by
    rw [hopts.val]
    exact checkSep_char _ _ _
  have hturn : paramsTurn opts ⟨phase, false, false, slice, c :: rest⟩ c rest =
      (true, ⟨phase', false, false, [], rest⟩) := by
    cases henters with
    | param h =>
      have hcheckParam : checkSep false false opts.param (comma :: rest) = 1 := by
        rw [h]
        exact checkSep_char _ _ _
      have hskip := hparam (by simp) (by simp)
      rw [ParamsOpts.seps] at hskip
      simp only [paramsTurn, htrack (by decide) (by decide), if_neg hphase, hcheckParam,
        Nat.one_pos, if_true, List.drop_succ_cons, List.drop_zero, hskip]
    | arg =>
      simp only [paramsTurn, htrack (by decide) (by decide), if_neg hphase, hnoParam (by decide),
        hcheckArg, Nat.lt_irrefl, if_false, Nat.one_pos, if_true, List.drop_succ_cons,
        List.drop_zero, harg (by simp) (by simp)]
    | paramVal =>
      have hcheckNone : checkSep false false opts.arg (equalSign :: rest) = 0 := hcheckArg
      simp only [paramsTurn, htrack (by decide) (by decide), hphase, hnoParam (by decide),
        hcheckNone, hcheckVal, Nat.lt_irrefl, if_false, Nat.one_pos, if_true, List.drop_succ_cons,
        List.drop_zero, hval]
      simp
    | argVal =>
      have hcheckNone : checkSep false false opts.arg (equalSign :: rest) = 0 := hcheckArg
      simp only [paramsTurn, htrack (by decide) (by decide), hphase, hnoParam (by decide),
        hcheckNone, hcheckVal, Nat.lt_irrefl, if_false, Nat.one_pos, if_true, List.drop_succ_cons,
        List.drop_zero, hval]
      simp
  rw [paramsSlices_turn rfl, hturn, if_pos rfl]

theorem segmentsText_head {phase : ParamsPhase} {gs : List Segment} (h : Chained opts phase gs)
    (hphase : phase = .val false ∨ phase = .val true) :
    ∀ d ∈ (segmentsText gs).head?, d ≠ equalSign := by
  cases gs with
  | nil => simp [segmentsText]
  | cons g gs =>
    intro d hd
    obtain rfl : g.sep = d := by simpa [segmentsText] using hd
    have henters := h.1
    generalize g.sep = sep, g.phase = phase' at henters
    rcases hphase with rfl | rfl <;> cases henters <;> decide

/-- The segments are what is read. -/
theorem paramsSlices_segments (hopts : HeaderOpts opts) {gs : List Segment}
    (hphase : phase ≠ .start) (h : Chained opts phase gs) :
    paramsSlices opts ⟨phase, false, false, slice, segmentsText gs⟩ =
      (phase, slice) :: gs.map fun g => (g.phase, g.token) := by
  induction gs generalizing phase slice with
  | nil => exact paramsSlices_end rfl
  | cons g gs ih =>
    obtain ⟨henters, hfits, hchained⟩ := h
    have hnext : g.phase ≠ .start := by
      generalize g.sep = sep, g.phase = phase' at henters
      cases henters <;> simp
    have htext : segmentsText (g :: gs) = g.sep :: (g.token ++ segmentsText gs) := rfl
    have hrest : ∀ d ∈ (g.token ++ segmentsText gs).head?, d ≠ equalSign ∧
        (g.phase ≠ .val false → g.phase ≠ .val true → d ≠ comma ∧ d ≠ semicolon) := by
      intro d hd
      cases htoken : g.token with
      | cons c token =>
        have hmem : d ∈ g.token.head? := by
          rw [htoken] at hd ⊢
          exact hd
        obtain ⟨hcomma, hsemicolon, hequal⟩ := hfits.head d hmem
        exact ⟨hequal, fun _ _ => ⟨hcomma, hsemicolon⟩⟩
      | nil =>
        rw [htoken, List.nil_append] at hd
        have hval := hfits.full htoken
        exact ⟨segmentsText_head hchained hval d hd, fun hfalse htrue =>
          absurd hval (not_or.mpr ⟨hfalse, htrue⟩)⟩
    rw [htext, paramsSlices_sep hopts henters hphase hrest, hfits.passes _ hnext, List.nil_append,
      ih hnext hchained]
    rfl

end

end ExtHttp
