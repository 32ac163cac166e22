import ExtHttp.UrlEnds

/-!
# Characters that are cut off

In the locale's encoding a character may be cut off at the end of its component. Where it is to be
copied, or percent-encoded, its length is `(size_t) -2`.
-/
namespace ExtHttp
open Scan UrlScanner

section
variable (S : UrlSystem) (flags : UrlFlags)

/-- Characters that a component takes, or refuses, without a look at the encoding. -/
def isPlain : UrlPart → Byte → Bool
  | .scheme, c => isAlpha c || isDigit c || (ascii "+-.").contains c
  | .userinfo, c => c = colon || c = percent || isUrlChar c
  | .hostinfo, c => c = percent || c = dot || c = hyphen || isUrlChar c
  | .path, c => c = percent || isUrlChar c || (ascii "/:@").contains c
  | .query, c => c = percent || isUnsafeChar c || isUrlChar c || (ascii "/:@?").contains c
  | .fragment, c => c = hash || c = percent || isUnsafeChar c || isUrlChar c ||
    (ascii "/:@?").contains c

/-- At this text a turn begins to copy `(size_t) -2` bytes. -/
def Torn (what : UrlPart) (c : Byte) (d : Bytes) : Prop :=
  isPlain what c = false ∧ CutOff S flags what (c :: d)

end

variable {S : UrlSystem} {flags : UrlFlags} {σ : Type}

theorem orElse_whole {o : Bytes × ℕ × σ} : ExtHttp.orElse flags o ≠ .error .runaway := by
  unfold ExtHttp.orElse
  split_ifs <;> simp

theorem mbWord_runaway_iff {what : UrlPart} {s : σ} {c : Byte} {d after : Bytes} :
    mbWord S flags what s (.on (c :: d) after) = .error .runaway ↔
      CutOff S flags what (c :: d) := by
  unfold CutOff
  rw [mbWord_eq (c := c) rfl, mbAt_on]
  cases hmb : mbFound S flags (c :: d) with
  | invalid =>
    refine iff_of_false orElse_whole ?_
    rintro ⟨wc, ⟨⟩, -⟩
  | incomplete wc =>
    dsimp only [bind, Except.bind]
    by_cases hcopied : mbCopied S flags what wc = some false
    · rw [if_pos hcopied]
      refine iff_of_false orElse_whole ?_
      rintro ⟨_, ⟨⟩, hnot⟩
      exact hnot hcopied
    · rw [if_neg hcopied]
      exact iff_of_true rfl ⟨wc, rfl, hcopied⟩
  | char wc tail =>
    dsimp only [bind, Except.bind]
    refine iff_of_false ?_ ?_
    · split_ifs
      · exact orElse_whole
      · exact nofun
    · rintro ⟨_, ⟨⟩, -⟩

/-- The turns of a component run away exactly at a character that is cut off. -/
def Tearing (S : UrlSystem) (flags : UrlFlags) (what : UrlPart) (word : UrlWord σ) : Prop :=
  ∀ s c d after, word s (.on (c :: d) after) = .error .runaway ↔ Torn S flags what c d

theorem triple_whole {cur : UrlCursor} : triple cur ≠ .error .runaway := by
  unfold triple
  intro h
  rcases error_eq_bind.mp h with h | ⟨x, -, h⟩
  · cases read_overread h
  · split_ifs at h
    rcases error_eq_bind.mp h with h | ⟨y, -, h⟩
    · cases read_overread h
    · split_ifs at h

theorem Looks.whole {word : UrlWord σ} {ignored : σ → Bytes × ℕ × σ}
    (h : Looks flags word ignored) {s : σ} {d after : Bytes} :
    word s (.on (percent :: d) after) ≠ .error .runaway := by
  rw [h.atPercent]
  intro hrun
  rcases error_eq_bind.mp hrun with hrun | ⟨o, -, hrun⟩
  · exact triple_whole hrun
  · cases o with
    | none => exact orElse_whole hrun
    | some w => cases hrun

namespace UrlScanner

theorem schemeWord_tearing : Tearing S flags .scheme (schemeWord S flags) := by
  intro first c d after
  unfold schemeWord Torn
  simp only [UrlCursor.on_read, bind, Except.bind, isPlain]
  by_cases hchar : (isAlpha c || (!first && (isDigit c || (ascii "+-.").contains c))) = true
  · rw [if_pos hchar]
    have hplain : (isAlpha c || isDigit c || (ascii "+-.").contains c) = true := by
      revert hchar
      cases isAlpha c <;> cases isDigit c <;> cases (ascii "+-.").contains c <;>
        cases first <;> decide
    rw [hplain]
    simp
  · rw [if_neg hchar]
    by_cases hlater : (isDigit c || (ascii "+-.").contains c) = true
    · rw [if_pos hlater]
      simp only [Bool.or_assoc, hlater, Bool.or_true]
      simp
    · rw [if_neg hlater, mbWord_runaway_iff]
      have halpha : isAlpha c = false := by
        by_contra hne
        exact hchar (by simp [Bool.eq_true_of_not_eq_false hne])
      have hrest : (isDigit c || (ascii "+-.").contains c) = false :=
        Bool.eq_false_of_not_eq_true hlater
      simp only [Bool.or_assoc, halpha, hrest, Bool.or_false, true_and]

theorem userinfoWord_tearing : Tearing S flags .userinfo (userinfoWord S flags) := by
  intro s c d after
  by_cases hpercent : c = percent
  · subst hpercent
    have hplain : isPlain .userinfo percent = true := by decide
    simp [Torn, hplain, userinfoWord_looks.whole]
  · unfold userinfoWord Torn
    simp only [UrlCursor.on_read, bind, Except.bind, isPlain, if_neg hpercent]
    by_cases hcolon : c = colon
    · simp [hcolon, orElse_whole]
    · by_cases hchar : isUrlChar c = true
      · simp [hcolon, hchar]
      · simp [hcolon, hchar, hpercent, mbWord_runaway_iff]

theorem hostWord_tearing : Tearing S flags .hostinfo (hostWord S flags) := by
  intro label c d after
  by_cases hpercent : c = percent
  · subst hpercent
    have hplain : isPlain .hostinfo percent = true := by decide
    simp [Torn, hplain, hostWord_looks.whole]
  · unfold hostWord Torn
    simp only [UrlCursor.on_read, bind, Except.bind, isPlain, if_neg hpercent]
    by_cases hdot : c = dot
    · cases label <;> simp [hdot, orElse_whole]
    · rw [if_neg hdot]
      by_cases hhyphen : c = hyphen
      · cases label <;> simp [hhyphen, orElse_whole]
      · by_cases hchar : isUrlChar c = true
        · simp [hdot, hhyphen, hchar]
        · simp [hdot, hhyphen, hchar, hpercent, mbWord_runaway_iff]

theorem portWord_whole (port : ℕ) (c : Byte) (d after : Bytes) :
    portWord flags port (.on (c :: d) after) ≠ .error .runaway := by
  by_cases hpercent : c = percent
  · subst hpercent
    exact portWord_looks.whole
  · unfold portWord
    simp only [UrlCursor.on_read, bind, Except.bind, if_neg hpercent]
    by_cases hdigit : isDigit c = true
    · simp [hdigit]
    · simp [hdigit, orElse_whole]

theorem pathWord_tearing : Tearing S flags .path (pathWord S flags) := by
  intro s c d after
  by_cases hpercent : c = percent
  · subst hpercent
    have hplain : isPlain .path percent = true := by decide
    simp [Torn, hplain, pathWord_looks.whole]
  · unfold pathWord Torn
    simp only [UrlCursor.on_read, bind, Except.bind, isPlain, hpercent, if_false, decide_false,
      Bool.false_or]
    by_cases hchar : (isUrlChar c || (ascii "/:@").contains c) = true
    · simp only [hchar, if_true]
      simp
    · simp only [hchar, Bool.false_eq_true, if_false, mbWord_runaway_iff, true_and]

theorem textWord_tearing {what : UrlPart} (plain : Byte → Bool)
    (hwhat : ∀ c, isPlain what c = (plain c || c = percent ||
    isUnsafeChar c || isUrlChar c || (ascii "/:@?").contains c)) (s : Unit) (c : Byte)
    (hc : plain c = false) (d after : Bytes) : textWord S flags what s (.on (c :: d) after) =
      .error .runaway ↔ Torn S flags what c d := by
  unfold Torn
  rw [hwhat, hc]
  by_cases hpercent : c = percent
  · subst hpercent
    simp [(textWord_looks what).whole]
  · unfold textWord
    simp only [UrlCursor.on_read, bind, Except.bind, hpercent, if_false, decide_false,
      Bool.false_or]
    by_cases hrfc : isUnsafeChar c = true
    · simp [hrfc]
    · by_cases hchar : (isUrlChar c || (ascii "/:@?").contains c) = true
      · simp only [hrfc, Bool.false_or, hchar, if_true]
        simp
      · simp only [hrfc, Bool.false_or, hchar, Bool.false_eq_true, if_false,
          mbWord_runaway_iff, true_and]

theorem queryWord_tearing : Tearing S flags .query (queryWord S flags) := fun s c d after =>
  textWord_tearing (fun _ => false) (fun c => by simp [isPlain]) s c rfl d after

theorem fragmentWord_tearing : Tearing S flags .fragment (fragmentWord S flags) := by
  intro s c d after
  by_cases hhash : c = hash
  · subst hhash
    have hplain : isPlain .fragment hash = true := by decide
    simp [Torn, hplain, fragmentWord, bind, Except.bind, orElse_whole]
  · have hword : fragmentWord S flags s (.on (c :: d) after) =
        textWord S flags .fragment s (.on (c :: d) after) := by
      simp only [fragmentWord, UrlCursor.on_read, bind, Except.bind, if_neg hhash]
    rw [hword]
    exact textWord_tearing (fun c => c = hash) (fun c => by simp [isPlain]) s c
      (by simpa using hhash) d after

end UrlScanner

end ExtHttp
