import ExtHttp.MessageWrite

/-!
# Negotiation

`php_http_negotiate_match`, which scores how well a supported value goes with what a request
accepts. The strings are PHP ones: they may hold a NUL, at which the comparisons of the C library
stop.
-/
namespace ExtHttp

/-- `!strncasecmp(a, b, n)` -/
def strncaseEq (a b : Bytes) (n : ℕ) : Bool := strcaseEq (a.take n) (b.take n)

/-- `M_PRI` -/
def mPri : UInt32 := 5
/-- `M_SEC` -/
def mSec : UInt32 := 2
/-- `M_ANY`, -1 as it is added to an `unsigned` -/
def mAny : UInt32 := -1
/-- `M_NOT` -/
def mNot : UInt32 := 0
/-- `M_ALL` -/
def mAll : UInt32 := ~~~0

section
variable (param supported sep : Bytes)

/-- The test that adds `M_PRI`. -/
def primaryMatches : Bool :=
  let paramSec := locateStr sep param
  let paramPriLen := paramSec.getD param.length
  let supportedSec := locateStr sep supported
  let supportedPriLen := supportedSec.getD supported.length
  let cmpLen := min paramPriLen supportedPriLen
  (byteAt param 0 = asterisk || byteAt supported 0 = asterisk) ||
    (paramPriLen = supportedPriLen && strncaseEq param supported paramPriLen) ||
    ((paramSec.isNone || supportedSec.isNone) && cmpLen ≠ 0 && strncaseEq param supported cmpLen)

/-- The test that adds `M_SEC`. -/
def secondaryMatches : Bool :=
  match locateStr sep param, locateStr sep supported with
  | some i, some j =>
      (byteAt param (i + sep.length) = asterisk || byteAt supported (j + sep.length) = asterisk) ||
        strcaseEq (param.drop i) (supported.drop j)
  | _, _ => false

/-- There is a secondary part and it begins with an asterisk. -/
def secondaryAny (s : Bytes) : Bool := (locateStr sep s).any fun i =>
    byteAt s (i + sep.length) = asterisk

/-- The test that adds `M_ANY`. -/
def matchesAny : Bool :=
  secondaryAny sep param || secondaryAny sep supported ||
    (byteAt param 0 = asterisk || byteAt supported 0 = asterisk)

/-- `php_http_negotiate_match` -/
def negotiateMatch : UInt32 :=
  if param.length = supported.length ∧ strncaseEq param supported param.length = true then mAll
  else if sep ≠ [] then
    mNot + (if primaryMatches param supported sep then mPri else 0) +
      (if secondaryMatches param supported sep then mSec else 0) +
        if matchesAny param supported sep then mAny else 0
  else mNot

/-! ### What a score should say -/

/-- The strings are the same but for the case of their letters. -/
def EqNoCase (a b : Bytes) : Prop := a.map toLower = b.map toLower

/-- The text in front of the separator, or all of it. -/
def primaryPart (s : Bytes) : Bytes := s.take ((locateStr sep s).getD s.length)

/-- One of the two begins with an asterisk, or their primary parts are the same. -/
def Compatible : Prop :=
  byteAt param 0 = asterisk ∨ byteAt supported 0 = asterisk ∨
    EqNoCase (primaryPart sep param) (primaryPart sep supported)

/-- The sum of the scores that are added for different strings, without a bound. -/
def exactScore : ℤ :=
  (if primaryMatches param supported sep then 5 else 0) +
    (if secondaryMatches param supported sep then 2 else 0) -
      if matchesAny param supported sep then 1 else 0

structure MatchSound : Prop where
  compatible : 0 < negotiateMatch param supported sep →
    EqNoCase param supported ∨ Compatible param supported sep
  equal : EqNoCase param supported → negotiateMatch param supported sep = mAll
  below : ¬ EqNoCase param supported → negotiateMatch param supported sep < mAll
  noWrap : ¬ EqNoCase param supported →
    ((negotiateMatch param supported sep).toNat : ℤ) = exactScore param supported sep

/-- How different strings come to a score they should not have. -/
inductive FalseMatch : Prop
  /-- the strings are told apart only behind a NUL -/
  | whole (hlen : param.length = supported.length) (hcut : strcaseEq param supported = true)
  /-- the primary parts are told apart only behind a NUL -/
  | primary (hnot : ¬ Compatible param supported sep)
      (hlen : (primaryPart sep param).length = (primaryPart sep supported).length)
      (hcut : strcaseEq (primaryPart sep param) (primaryPart sep supported) = true)
  /-- one string has no separator, and the shorter primary part is how the other one begins -/
  | begins (hnot : ¬ Compatible param supported sep)
      (hnone : locateStr sep param = none ∨ locateStr sep supported = none)
      (hpos : primaryPart sep param ≠ [] ∧ primaryPart sep supported ≠ [])
      (hcut : strncaseEq param supported
        (min (primaryPart sep param).length (primaryPart sep supported).length) = true)
  /-- the secondary parts are the same -/
  | secondary (hnot : ¬ Compatible param supported sep) (i j : ℕ)
    (hi : locateStr sep param = some i)
      (hj : locateStr sep supported = some j)
      (hcut : strcaseEq (param.drop i) (supported.drop j) = true)
  /-- a secondary part begins with an asterisk -/
  | any (hnot : ¬ Compatible param supported sep)
      (hany : secondaryAny sep param = true ∨ secondaryAny sep supported = true)

end

/-! ### Comparisons -/
section
variable {param supported sep : Bytes}

theorem cString_map_toLower (s : Bytes) : (cString s).map toLower = cString (s.map toLower) := by
  have hnul : ∀ c : Byte, decide (toLower c ≠ nul) = decide (c ≠ nul) := by decide +kernel
  induction s with
  | nil => rfl
  | cons c s ih =>
    rw [cString] at ih ⊢
    rw [List.map_cons, cString, List.takeWhile_cons, List.takeWhile_cons, hnul]
    by_cases hc : decide (c ≠ nul) = true
    · rw [if_pos hc, if_pos hc, List.map_cons, ih, cString]
    · rw [if_neg hc, if_neg hc]
      rfl

theorem EqNoCase.strcaseEq {a b : Bytes} (h : EqNoCase a b) : strcaseEq a b = true := by
  simp only [ExtHttp.strcaseEq, cString_map_toLower, decide_eq_true_eq]
  rw [h]

theorem EqNoCase.length {a b : Bytes} (h : EqNoCase a b) : a.length = b.length := by
  have hlen := congrArg List.length h
  simpa using hlen

theorem primaryPart_length (hsep : sep ≠ []) (s : Bytes) :
    (primaryPart sep s).length = (locateStr sep s).getD s.length := by
  unfold primaryPart
  apply List.length_take_of_le
  cases hs : locateStr sep s with
  | none => exact le_refl _
  | some i =>
    by_contra hgt
    have hspec := locateStr_spec hs
    rw [List.drop_eq_nil_of_le (by simpa using Nat.le_of_not_le hgt)] at hspec
    exact hsep (List.prefix_nil.mp hspec)

theorem strncaseEq_all {a b : Bytes} (hlen : a.length = b.length) :
    strncaseEq a b a.length = strcaseEq a b := by
  unfold strncaseEq
  rw [List.take_length, hlen, List.take_length]

/-! ### The score -/

theorem negotiateMatch_equal (h : EqNoCase param supported) :
    negotiateMatch param supported sep = mAll := by
  have hcode : param.length = supported.length ∧ strncaseEq param supported param.length = true :=
    ⟨h.length, (strncaseEq_all h.length).trans h.strcaseEq⟩
  rw [negotiateMatch, if_pos hcode]

theorem negotiateMatch_scores (hsep : sep ≠ [])
    (hcode : ¬ (param.length = supported.length ∧ strcaseEq param supported = true)) :
    negotiateMatch param supported sep =
      mNot + (if primaryMatches param supported sep then mPri else 0) +
        (if secondaryMatches param supported sep then mSec else 0) +
          if matchesAny param supported sep then mAny else 0 := by
  have hneq : ¬ (param.length = supported.length ∧
      strncaseEq param supported param.length = true) :=
    fun h => hcode ⟨h.1, (strncaseEq_all h.1).symm.trans h.2⟩
  rw [negotiateMatch, if_neg hneq, if_pos hsep]

/-- With `M_PRI` in it the sum stays above zero, and it is far below `M_ALL`. -/
theorem score_primary : ∀ sec any : Bool,
    mNot + mPri + (if sec then mSec else 0) + (if any then mAny else 0) < mAll ∧
      ((mNot + mPri + (if sec then mSec else 0) + (if any then mAny else 0)).toNat : ℤ) =
        5 + (if sec then 2 else 0) - if any then 1 else 0 := by
  decide

/-- One of the tests is enough for a score, `M_ANY` by itself for the highest one. -/
theorem score_pos : ∀ pri sec any : Bool, (pri || sec || any) = true →
    0 < mNot + (if pri then mPri else 0) + (if sec then mSec else 0) +
      (if any then mAny else 0) := by
  decide

theorem Compatible.primaryMatches (hsep : sep ≠ []) (h : Compatible param supported sep) :
    primaryMatches param supported sep = true := by
  simp only [ExtHttp.primaryMatches, Bool.or_eq_true, Bool.and_eq_true, decide_eq_true_eq]
  rcases h with hstar | hstar | hpri
  · exact Or.inl (Or.inl (Or.inl hstar))
  · exact Or.inl (Or.inl (Or.inr hstar))
  · have hlen := hpri.length
    have hequal := hpri.strcaseEq
    rw [primaryPart_length hsep, primaryPart_length hsep] at hlen
    refine Or.inl (Or.inr ⟨hlen, ?_⟩)
    rw [primaryPart, primaryPart, ← hlen] at hequal
    exact hequal

theorem primaryMatches_iff (hsep : sep ≠ []) (hnot : ¬ Compatible param supported sep) :
    primaryMatches param supported sep = true ↔
      ((primaryPart sep param).length = (primaryPart sep supported).length ∧
        strcaseEq (primaryPart sep param) (primaryPart sep supported) = true) ∨
      ((locateStr sep param = none ∨ locateStr sep supported = none) ∧
        (primaryPart sep param ≠ [] ∧ primaryPart sep supported ≠ []) ∧
        strncaseEq param supported
          (min (primaryPart sep param).length (primaryPart sep supported).length) = true) := by
  have hparam : byteAt param 0 ≠ asterisk := fun h => hnot (Or.inl h)
  have hsupported : byteAt supported 0 ≠ asterisk := fun h => hnot (Or.inr (Or.inl h))
  have hpos : ∀ s, primaryPart sep s ≠ [] ↔ (locateStr sep s).getD s.length ≠ 0 := by
    intro s
    rw [← primaryPart_length hsep, ne_eq, ne_eq, List.length_eq_zero_iff]
  rw [hpos, hpos, primaryPart_length hsep, primaryPart_length hsep]
  simp only [primaryMatches, hparam, hsupported, decide_false, Bool.or_self, Bool.false_or,
    Bool.or_eq_true, Bool.and_eq_true, decide_eq_true_eq, Option.isNone_iff_eq_none, ne_eq,
    Nat.min_eq_zero_iff, not_or, and_assoc]
  refine or_congr (and_congr_right fun hlen => ?_) Iff.rfl
  rw [strncaseEq, primaryPart, primaryPart, hlen]

theorem secondaryMatches_iff :
    secondaryMatches param supported sep = true ↔
      ∃ i j, locateStr sep param = some i ∧ locateStr sep supported = some j ∧
        (secondaryAny sep param = true ∨ secondaryAny sep supported = true ∨
          strcaseEq (param.drop i) (supported.drop j) = true) := by
  unfold secondaryMatches secondaryAny
  cases locateStr sep param with
  | none => simp
  | some i =>
    cases locateStr sep supported with
    | none => simp
    | some j => simp [or_assoc]

/-- Strings that do not go together pass a test only in one of the ways named. -/
theorem falseMatch_iff (hsep : sep ≠ []) (hnot : ¬ Compatible param supported sep)
    (hcode : ¬ (param.length = supported.length ∧ strcaseEq param supported = true)) :
    FalseMatch param supported sep ↔
      (primaryMatches param supported sep || secondaryMatches param supported sep ||
        matchesAny param supported sep) = true := by
  have hparam : byteAt param 0 ≠ asterisk := fun h => hnot (Or.inl h)
  have hsupported : byteAt supported 0 ≠ asterisk := fun h => hnot (Or.inr (Or.inl h))
  have hany : matchesAny param supported sep = true ↔
      secondaryAny sep param = true ∨ secondaryAny sep supported = true := by
    simp [matchesAny, hparam, hsupported]
  rw [Bool.or_eq_true, Bool.or_eq_true, primaryMatches_iff hsep hnot, secondaryMatches_iff, hany]
  constructor
  · intro h
    cases h with
    | whole hlen hcut => exact absurd ⟨hlen, hcut⟩ hcode
    | primary _ hlen hcut => exact Or.inl (Or.inl (Or.inl ⟨hlen, hcut⟩))
    | begins _ hnone hpos hcut => exact Or.inl (Or.inl (Or.inr ⟨hnone, hpos, hcut⟩))
    | secondary _ i j hi hj hcut => exact Or.inl (Or.inr ⟨i, j, hi, hj, Or.inr (Or.inr hcut)⟩)
    | any _ hany => exact Or.inr hany
  · rintro (((⟨hlen, hcut⟩ | ⟨hnone, hpos, hcut⟩) | ⟨i, j, hi, hj, hstar | hstar | hcut⟩) | hstar)
    · exact .primary hnot hlen hcut
    · exact .begins hnot hnone hpos hcut
    · exact .any hnot (Or.inl hstar)
    · exact .any hnot (Or.inr hstar)
    · exact .secondary hnot i j hi hj hcut
    · exact .any hnot hstar

/-- The score of strings that go together or of ones no test takes. -/
theorem matchSound_of_scores (hsep : sep ≠ []) (hneq : ¬ EqNoCase param supported)
    (hcode : ¬ (param.length = supported.length ∧ strcaseEq param supported = true))
    (h : Compatible param supported sep ∨
      (primaryMatches param supported sep || secondaryMatches param supported sep ||
        matchesAny param supported sep) = false) : MatchSound param supported sep := by
  have hscore := negotiateMatch_scores hsep hcode
  rcases h with hcomp | hnone
  · have hpri := hcomp.primaryMatches hsep
    rw [hpri] at hscore
    obtain ⟨hbelow, hexact⟩ :=
      score_primary (secondaryMatches param supported sep) (matchesAny param supported sep)
    refine ⟨fun _ => Or.inr hcomp, fun heq => absurd heq hneq, fun _ => ?_, fun _ => ?_⟩
    · rw [hscore]
      exact hbelow
    · rw [hscore, exactScore, hpri]
      exact hexact
  · simp only [Bool.or_eq_false_iff] at hnone
    obtain ⟨⟨hpri, hsec⟩, hany⟩ := hnone
    rw [hpri, hsec, hany] at hscore
    have hzero : negotiateMatch param supported sep = 0 := hscore
    refine ⟨fun hpos => ?_, fun heq => absurd heq hneq, fun _ => ?_, fun _ => ?_⟩
    · rw [hzero] at hpos
      exact absurd hpos (by decide)
    · rw [hzero]
      decide
    · rw [hzero, exactScore, hpri, hsec, hany]
      rfl

end

/-- A score says what it should if the strings are the same or do not match falsely. -/
theorem negotiateMatch_sound_iff (param supported sep : Bytes) (hsep : sep ≠ []) :
    MatchSound param supported sep ↔
      EqNoCase param supported ∨ ¬ FalseMatch param supported sep := by
  by_cases heq : EqNoCase param supported
  · have hall : negotiateMatch param supported sep = mAll := negotiateMatch_equal heq
    exact iff_of_true
      ⟨fun _ => Or.inl heq, fun _ => hall, fun hneq => absurd heq hneq, fun hneq => absurd heq hneq⟩
        (Or.inl heq)
  · by_cases hcode : param.length = supported.length ∧ strcaseEq param supported = true
    · have hall : negotiateMatch param supported sep = mAll :=
        if_pos ⟨hcode.1, (strncaseEq_all hcode.1).trans hcode.2⟩
      refine iff_of_false (fun h => ?_) ?_
      · have hbelow := h.below heq
        rw [hall] at hbelow
        exact absurd hbelow (by decide)
      · rintro (h | h)
        · exact heq h
        · exact h (.whole hcode.1 hcode.2)
    · by_cases hcomp : Compatible param supported sep
      · refine iff_of_true (matchSound_of_scores hsep heq hcode (Or.inl hcomp))
          (Or.inr fun hfalse => ?_)
        cases hfalse with
        | whole hlen hcut => exact hcode ⟨hlen, hcut⟩
        | primary hnot => exact hnot hcomp
        | begins hnot => exact hnot hcomp
        | secondary hnot => exact hnot hcomp
        | any hnot => exact hnot hcomp
      · rw [falseMatch_iff hsep hcomp hcode]
        constructor
        · intro hsound
          refine Or.inr fun htest => ?_
          have hpos := score_pos _ _ _ htest
          rw [← negotiateMatch_scores hsep hcode] at hpos
          exact (hsound.compatible hpos).elim heq hcomp
        · rintro (h | htest)
          · exact absurd h heq
          · exact matchSound_of_scores hsep heq hcode (Or.inr (Bool.eq_false_iff.mpr htest))

theorem negotiateMatch_sound_html :
    [slash] ≠ [] ∧ (MatchSound (ascii "text/*") (ascii "text/html") [slash] ↔
      EqNoCase (ascii "text/*") (ascii "text/html") ∨
        ¬ FalseMatch (ascii "text/*") (ascii "text/html") [slash]) :=
  ⟨by decide, negotiateMatch_sound_iff _ _ _ (by decide)⟩

/-- The only thing the two have in common is that nothing has been said of the secondary part. -/
theorem negotiateMatch_wraps :
    ¬ MatchSound (ascii "image/*") (ascii "text") [slash] := by
  intro h
  have hbelow := h.below (by unfold EqNoCase; decide)
  exact absurd hbelow (by decide)

end ExtHttp
