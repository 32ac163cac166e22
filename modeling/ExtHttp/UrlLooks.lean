import ExtHttp.UrlCuts

/-!
# What the scanners look at

A turn of a scanner looks behind the end of its text only where it comes to a `%`, and takes more
than there is only where it comes to `%%` at the end.
-/
namespace ExtHttp
open Scan

section
variable (S : UrlSystem) (flags : UrlFlags)

/-- The character at the beginning of a text, as the flags say. -/
def mbFound (b : Bytes) : MbChar :=
  if flags.mbutf8 then (utf8ToWc b).elim .invalid fun o => .char o.1 (o.2 - 1)
  else if flags.mbloc then S.mbrtowc b
  else .invalid

end

variable {S : UrlSystem} {flags : UrlFlags} {σ : Type}

theorem mbAt_on (c : Byte) (d after : Bytes) : mbAt S flags (.on (c :: d) after) =
    .ok (mbFound S flags (c :: d)) := by
  unfold mbAt mbFound
  rw [mbUtf8_on, UrlCursor.on_size, UrlCursor.on_text, List.take_left]
  split_ifs <;> rfl

theorem mbFound_le {c : Byte} {d : Bytes} {wc tail : ℕ}
    (h : mbFound S flags (c :: d) = .char wc tail) :
    tail ≤ d.length := by
  have hat : mbAt S flags (.on (c :: d) []) = .ok (.char wc tail) := by rw [mbAt_on, h]
  exact (mbAt_char hat).2

/-- A character of a text: what is behind the text does not matter. -/
theorem parseMb_on (what : UrlPart) (c : Byte) (d after : Bytes) :
    parseMb S flags what (.on (c :: d) after) = parseMb S flags what (.on (c :: d) []) := by
  unfold parseMb
  rw [mbAt_on, mbAt_on]
  simp only [bind, Except.bind, UrlCursor.on_read]
  cases hmb : mbFound S flags (c :: d) with
  | invalid => rfl
  | incomplete wc => rfl
  | char wc tail =>
    have hle := mbFound_le hmb
    have htake : ∀ after : Bytes, (UrlCursor.on (c :: d) after).readChars (tail + 1) =
        .ok ((c :: d).take (tail + 1)) := by
      intro after
      have hlen : tail + 1 ≤ (c :: d ++ after).length := by
        simp only [List.cons_append, List.length_cons, List.length_append]
        omega
      rw [UrlCursor.readChars, UrlCursor.on_text, if_pos hlen,
        List.take_append_of_le_length (by rw [List.length_cons]; omega)]
    simp only [htake]

/-- A turn that looks at nothing behind the text, and takes nothing of it. -/
def InText (word : UrlWord σ) (s : σ) (c : Byte) (d : Bytes) : Prop :=
  ∃ r, (∀ after, word s (.on (c :: d) after) = r) ∧ r ≠ .error .overread ∧
    ∀ w n s', r = .ok (w, n, s') → n ≤ d.length + 1

theorem InText.ok {word : UrlWord σ} {s : σ} {c : Byte} {d : Bytes} {w : Bytes} {n : ℕ} {s' : σ}
    (h : ∀ after, word s (.on (c :: d) after) = .ok (w, n, s')) (hn : n ≤ d.length + 1) :
    InText word s c d := by
  refine ⟨_, h, by simp, ?_⟩
  intro w' n' t heq
  cases heq
  exact hn

theorem InText.refused {word : UrlWord σ} {s : σ} {c : Byte} {d : Bytes}
    (h : ∀ after, word s (.on (c :: d) after) = .error .refused) : InText word s c d :=
  ⟨_, h, by simp, fun _ _ _ heq => by cases heq⟩

theorem InText.orElse {word : UrlWord σ} {s : σ} {c : Byte} {d : Bytes} {o : Bytes × ℕ × σ}
    (h : ∀ after, word s (.on (c :: d) after) = ExtHttp.orElse flags o)
    (hn : o.2.1 ≤ d.length + 1) :
    InText word s c d := by
  unfold ExtHttp.orElse at h
  by_cases hignore : flags.ignoreErrors = true
  · simp only [if_pos hignore] at h
    exact .ok h hn
  · simp only [if_neg hignore] at h
    exact .refused h

theorem unexpected_inside (c : Byte) (d : Bytes) {r : Except UrlExit (Option (Bytes × ℕ))}
    (hr : r = if flags.ignoreErrors then .ok (some ([c], 1)) else .ok none) :
    r ≠ .error .overread ∧ ∀ w n, r = .ok (some (w, n)) → n ≤ d.length + 1 := by
  subst hr
  split_ifs
  · refine ⟨by simp, ?_⟩
    intro w n h
    cases h
    exact Nat.le_add_left _ _
  · exact ⟨by simp, fun w n h => by cases h⟩

theorem parseMb_inside (what : UrlPart) (c : Byte) (d : Bytes) :
    parseMb S flags what (.on (c :: d) []) ≠ .error .overread ∧
      ∀ w n, parseMb S flags what (.on (c :: d) []) = .ok (some (w, n)) → n ≤ d.length + 1 := by
  unfold parseMb
  rw [mbAt_on]
  simp only [bind, Except.bind, UrlCursor.on_read]
  cases hmb : mbFound S flags (c :: d) with
  | invalid => exact unexpected_inside c d rfl
  | incomplete wc =>
    by_cases hcopied : mbCopied S flags what wc = some false
    · simp only [if_pos hcopied]
      exact unexpected_inside c d rfl
    · simp only [if_neg hcopied]
      exact ⟨by simp, fun w n h => by cases h⟩
  | char wc tail =>
    by_cases hcopied : mbCopied S flags what wc = some false
    · simp only [if_pos hcopied]
      exact unexpected_inside c d rfl
    · have hle := mbFound_le hmb
      have hthere : tail + 1 ≤ (UrlCursor.on (c :: d) []).text.length := by
        simp only [UrlCursor.on_text, List.append_nil, List.length_cons]
        omega
      simp only [if_neg hcopied, UrlCursor.readChars, if_pos hthere]
      refine ⟨by simp, ?_⟩
      intro w n h
      cases h
      omega

theorem InText.mbWord {word : UrlWord σ} (what : UrlPart) {s s' : σ} {c : Byte} {d : Bytes}
    (h : ∀ after, word s (.on (c :: d) after) = ExtHttp.mbWord S flags what s'
      (.on (c :: d) after)) :
    InText word s c d := by
  obtain ⟨hread, hle⟩ := @parseMb_inside S flags what c d
  have hsame : ∀ after, word s (.on (c :: d) after) =
      ExtHttp.mbWord S flags what s' (.on (c :: d) []) := by
    intro after
    rw [h, ExtHttp.mbWord, ExtHttp.mbWord, parseMb_on]
  refine ⟨_, hsame, ?_, ?_⟩
  · unfold ExtHttp.mbWord
    cases hmb : parseMb S flags what (.on (c :: d) []) with
    | error e =>
      intro heq
      cases heq
      exact hread hmb
    | ok o => cases o <;> simp [bind, Except.bind]
  · intro w n t heq
    obtain ⟨o, ho, heq⟩ := ok_eq_bind heq
    match o with
    | none => cases heq
    | some (w', n') =>
      cases heq
      exact hle w n ho

/-- Only at a `%` the turns look behind the text, for a triple; `ignored` is what they do if it is
none. -/
structure Looks (flags : UrlFlags) (word : UrlWord σ) (ignored : σ → Bytes × ℕ × σ) : Prop where
  inside : ∀ s c d, c ≠ percent → InText word s c d
  atPercent : ∀ s d after, word s (.on (percent :: d) after) =
    triple (.on (percent :: d) after) >>= fun o =>
    match o with
    | some w => .ok (w, 3, s)
    | none => ExtHttp.orElse flags (ignored s)

namespace UrlScanner

theorem schemeWord_inside (first : Bool) (c : Byte) (d : Bytes) :
    InText (schemeWord S flags) first c d := by
  by_cases hchar : (isAlpha c || (!first && (isDigit c || (ascii "+-.").contains c))) = true
  · exact .ok (fun after => if_pos hchar) (Nat.le_add_left _ _)
  · by_cases hlater : (isDigit c || (ascii "+-.").contains c) = true
    · exact .refused fun after => (if_neg hchar).trans (if_pos hlater)
    · exact .mbWord .scheme fun after => (if_neg hchar).trans (if_neg hlater)

theorem userinfoWord_looks : Looks flags (userinfoWord S flags) fun s => ([percent], 2, s) where
  inside s c d hc := by
    by_cases hcolon : c = colon
    · exact .orElse (fun after => if_pos hcolon) (Nat.le_add_left _ _)
    · by_cases hchar : isUrlChar c = true
      · exact .ok (fun after => (if_neg hcolon).trans ((if_neg hc).trans (if_pos hchar)))
          (Nat.le_add_left _ _)
      · exact .mbWord .userinfo fun after =>
          (if_neg hcolon).trans ((if_neg hc).trans (if_neg hchar))
  atPercent s d after := by
    have hcolon : ¬ percent = colon := by decide
    cases htriple : triple (.on (percent :: d) after) with
    | error e => simp [userinfoWord, bind, Except.bind, hcolon, htriple]
    | ok o => cases o <;> simp [userinfoWord, bind, Except.bind, hcolon, htriple]

theorem hostWord_looks : Looks flags (hostWord S flags) fun label => ([percent], 2, label) where
  inside label c d hc := by
    by_cases hdot : c = dot
    · cases label with
      | true =>
        exact .ok (fun after => (if_neg hc).trans ((if_pos hdot).trans (if_pos rfl)))
          (Nat.le_add_left _ _)
      | false =>
        exact .orElse (fun after => (if_neg hc).trans ((if_pos hdot).trans (if_neg (by decide))))
          (Nat.le_add_left _ _)
    · by_cases hhyphen : c = hyphen
      · cases label with
        | true =>
          exact .ok (fun after => (if_neg hc).trans ((if_neg hdot).trans
            ((if_pos hhyphen).trans (if_pos rfl)))) (Nat.le_add_left _ _)
        | false =>
          exact .orElse (fun after => (if_neg hc).trans ((if_neg hdot).trans ((if_pos hhyphen).trans
            (if_neg (by decide))))) (Nat.le_add_left _ _)
      · by_cases hchar : isUrlChar c = true
        · exact .ok (fun after => (if_neg hc).trans ((if_neg hdot).trans
            ((if_neg hhyphen).trans (if_pos hchar)))) (Nat.le_add_left _ _)
        · exact .mbWord .hostinfo fun after =>
            (if_neg hc).trans ((if_neg hdot).trans ((if_neg hhyphen).trans (if_neg hchar)))
  atPercent label d after := by
    cases htriple : triple (.on (percent :: d) after) with
    | error e => simp [hostWord, bind, Except.bind, htriple]
    | ok o => cases o <;> simp [hostWord, bind, Except.bind, htriple]

theorem portWord_looks : Looks flags (portWord flags) fun port => ([percent], 2, port) where
  inside port c d hc := by
    by_cases hdigit : isDigit c = true
    · exact .ok (fun after => (if_neg hc).trans (if_pos hdigit)) (Nat.le_add_left _ _)
    · exact .orElse (fun after => (if_neg hc).trans (if_neg hdigit)) (Nat.le_add_left _ _)
  atPercent port d after := by
    cases htriple : triple (.on (percent :: d) after) with
    | error e => simp [portWord, bind, Except.bind, htriple]
    | ok o => cases o <;> simp [portWord, bind, Except.bind, htriple]

theorem pathWord_looks : Looks flags (pathWord S flags) fun s => ([percent], 1, s) where
  inside s c d hc := by
    by_cases hchar : (isUrlChar c || (ascii "/:@").contains c) = true
    · exact .ok (fun after => (if_neg hc).trans (if_pos hchar)) (Nat.le_add_left _ _)
    · exact .mbWord .path fun after => (if_neg hc).trans (if_neg hchar)
  atPercent s d after := by
    cases htriple : triple (.on (percent :: d) after) with
    | error e => simp [pathWord, bind, Except.bind, htriple]
    | ok o => cases o <;> simp [pathWord, bind, Except.bind, htriple]

theorem textWord_looks (what : UrlPart) :
    Looks flags (textWord S flags what) fun s => (unsafeChar flags percent, 1, s) where
  inside s c d hc := by
    by_cases hrfc : isUnsafeChar c = true
    · exact .ok (fun after => (if_neg hc).trans (if_pos hrfc)) (Nat.le_add_left _ _)
    · by_cases hchar : (isUrlChar c || (ascii "/:@?").contains c) = true
      · exact .ok (fun after => (if_neg hc).trans ((if_neg hrfc).trans (if_pos hchar)))
          (Nat.le_add_left _ _)
      · exact .mbWord what fun after => (if_neg hc).trans ((if_neg hrfc).trans (if_neg hchar))
  atPercent s d after := by
    cases htriple : triple (.on (percent :: d) after) with
    | error e => simp [textWord, bind, Except.bind, htriple]
    | ok o => cases o <;> simp [textWord, bind, Except.bind, htriple]

theorem fragmentWord_looks :
    Looks flags (fragmentWord S flags) fun s => (unsafeChar flags percent, 1, s) where
  inside s c d hc := by
    by_cases hhash : c = hash
    · exact .orElse (fun after => if_pos hhash) (Nat.le_add_left _ _)
    · obtain ⟨r, hr, hrest⟩ := (@textWord_looks S flags .fragment).inside s c d hc
      exact ⟨r, fun after => (if_neg hhash).trans (hr after), hrest⟩
  atPercent s d after := by
    have hhash : ¬ percent = hash := by decide
    have hword : fragmentWord S flags s (.on (percent :: d) after) =
        textWord S flags .fragment s (.on (percent :: d) after) := by
      simp only [fragmentWord, UrlCursor.on_read, bind, Except.bind, if_neg hhash]
    rw [hword]
    exact (textWord_looks .fragment).atPercent s d after

end UrlScanner

/-! ### Triples -/

theorem triple_one {x : Byte} (hx : x ≠ percent) (after : Bytes) :
    triple (.on [percent] (x :: after)) = .ok none := by
  simp [triple, UrlCursor.read, UrlCursor.on, bind, Except.bind, hx]

theorem triple_two {x : Byte} (hx : x ≠ percent) (after : Bytes) :
    triple (.on [percent, x] after) = .ok none := by
  simp [triple, UrlCursor.read, UrlCursor.on, bind, Except.bind, hx]

theorem triple_percents (y : Byte) (after : Bytes) :
    triple (.on [percent, percent] (y :: after)) = .ok (some [percent, percent, y]) := by
  simp [triple, UrlCursor.read, UrlCursor.on, bind, Except.bind]

theorem triple_three (x y : Byte) (d after : Bytes) :
    triple (.on (percent :: x :: y :: d) after) = triple (.on (percent :: x :: y :: d) []) := by
  simp only [triple, UrlCursor.read, UrlCursor.on]
  rfl

theorem triple_three_ok (x y : Byte) (d after : Bytes) :
    ∃ o, triple (.on (percent :: x :: y :: d) after) = .ok o := by
  have hfirst : (UrlCursor.on (percent :: x :: y :: d) after).read 1 = .ok x := rfl
  have hsecond : (UrlCursor.on (percent :: x :: y :: d) after).read 2 = .ok y := rfl
  unfold triple
  rw [hfirst, hsecond]
  simp only [bind, Except.bind]
  split_ifs <;> exact ⟨_, rfl⟩

/-- With a character behind the text that is no `%`, a triple is one of the text, or `%%` and that
character. -/
theorem triple_there {after : Bytes} (hne : after ≠ []) (hafter : after.head? ≠ some percent)
    (d : Bytes) :
    ∃ o, triple (.on (percent :: d) after) = .ok o ∧ (o ≠ none → d.length < 2 → d = [percent]) ∧
      (d = [percent] → o ≠ none) := by
  obtain ⟨z, after, rfl⟩ := List.exists_cons_of_ne_nil hne
  have hz : z ≠ percent := fun h => hafter (congrArg some h)
  match d with
  | [] => exact ⟨none, triple_one hz after, fun h => absurd rfl h, fun h => by cases h⟩
  | [x] =>
    by_cases hx : x = percent
    · subst hx
      exact ⟨_, triple_percents z after, fun _ _ => rfl, fun _ => by simp⟩
    · exact ⟨none, triple_two hx _, fun h => absurd rfl h, fun h => absurd (List.cons.inj h).1 hx⟩
  | x :: y :: d =>
    obtain ⟨o, ho⟩ := triple_three_ok x y d (z :: after)
    refine ⟨o, ho, fun _ hlen => ?_, fun h => ?_⟩
    · simp only [List.length_cons] at hlen
      omega
    · cases h

/-- With nothing behind the text, there is no reading a `%` at its end, nor `%%`. -/
theorem triple_slice (d : Bytes) :
    (d = [] ∨ d = [percent]) ∧ triple (.on (percent :: d) []) = .error .overread ∨
      ∃ o, (∀ after, triple (.on (percent :: d) after) = .ok o) ∧ (o ≠ none → 2 ≤ d.length) := by
  match d with
  | [] => exact .inl ⟨.inl rfl, rfl⟩
  | [x] =>
    by_cases hx : x = percent
    · subst hx
      exact .inl ⟨.inr rfl, rfl⟩
    · exact .inr ⟨none, triple_two hx, fun h => absurd rfl h⟩
  | x :: y :: d =>
    obtain ⟨o, ho⟩ := triple_three_ok x y d []
    exact .inr ⟨o, fun after => (triple_three x y d after).trans ho, fun _ => by simp⟩

/-! ### Turns -/

section
variable {word : UrlWord σ} {ignored : σ → Bytes × ℕ × σ} {s : σ} {c : Byte} {d after : Bytes}

theorem InText.there (h : InText word s c d) (after : Bytes) :
    word s (.on (c :: d) after) ≠ .error .overread := by
  obtain ⟨r, hr, hread, -⟩ := h
  rwa [hr]

theorem orElse_read {o : Bytes × ℕ × σ} : ExtHttp.orElse flags o ≠ .error .overread := by
  unfold ExtHttp.orElse
  split_ifs <;> simp

theorem orElse_ok {o : Bytes × ℕ × σ} {w : Bytes} {n : ℕ} {s' : σ}
    (h : ExtHttp.orElse flags o = .ok (w, n, s')) : n = o.2.1 := by
  unfold ExtHttp.orElse at h
  split_ifs at h
  cases h
  rfl

/-- With a character behind the text that is no `%`, all that is looked at is there. -/
theorem Looks.there (h : Looks flags word ignored) (hne : after ≠ [])
    (hafter : after.head? ≠ some percent) :
    word s (.on (c :: d) after) ≠ .error .overread := by
  by_cases hc : c = percent
  · subst hc
    obtain ⟨o, ho, -⟩ := triple_there hne hafter d
    rw [h.atPercent, ho]
    cases o with
    | none => exact orElse_read
    | some w => simp [bind, Except.bind]
  · exact (h.inside s c d hc).there after

/-- What is further behind does not matter then. -/
theorem Looks.more (h : Looks flags word ignored) (hne : after ≠ [])
    (hafter : after.head? ≠ some percent) (t : Bytes) :
    word s (.on (c :: d) (after ++ t)) = word s (.on (c :: d) after) := by
  by_cases hc : c = percent
  · subst hc
    obtain ⟨z, after, rfl⟩ := List.exists_cons_of_ne_nil hne
    have hz : z ≠ percent := fun hz => hafter (congrArg some hz)
    have htriple : triple (.on (percent :: d) (z :: after ++ t)) =
        triple (.on (percent :: d) (z :: after)) := by
      match d with
      | [] => rw [triple_one hz, List.cons_append, triple_one hz]
      | [x] =>
        by_cases hx : x = percent
        · subst hx
          rw [triple_percents, List.cons_append, triple_percents]
        · rw [triple_two hx, triple_two hx]
      | x :: y :: d => rw [triple_three, triple_three x y d (z :: after)]
    rw [h.atPercent, h.atPercent, htriple]
  · obtain ⟨r, hr, -⟩ := h.inside s c d hc
    rw [hr, hr]

/-- More is taken than there is exactly at `%%` at the end. -/
theorem Looks.excess_iff (h : Looks flags word ignored) (hone : ∀ s, (ignored s).2.1 = 1)
    (hne : after ≠ []) (hafter : after.head? ≠ some percent) :
    (∃ w n s', word s (.on (c :: d) after) = .ok (w, n, s') ∧ d.length < n - 1) ↔
      c = percent ∧ d = [percent] := by
  by_cases hc : c = percent
  · subst hc
    obtain ⟨o, ho, hsome, hnone⟩ := triple_there hne hafter d
    rw [h.atPercent, ho]
    constructor
    · rintro ⟨w, n, s', heq, hlen⟩
      refine ⟨rfl, ?_⟩
      cases o with
      | none =>
        have hn := orElse_ok heq
        rw [hone] at hn
        omega
      | some v =>
        cases heq
        exact hsome (by simp) hlen
    · rintro ⟨-, hd⟩
      obtain ⟨v, rfl⟩ := Option.ne_none_iff_exists'.mp (hnone hd)
      subst hd
      exact ⟨v, 3, s, rfl, by simp⟩
  · obtain ⟨r, hr, -, hle⟩ := h.inside s c d hc
    constructor
    · rintro ⟨w, n, s', heq, hlen⟩
      rw [hr] at heq
      have hn := hle w n s' heq
      omega
    · exact fun hd => absurd hd.1 hc

/-- With nothing behind the text, a turn looks at nothing there, or it is at a `%` or `%%` at the
end. -/
theorem Looks.slice (h : Looks flags word ignored) (hone : ∀ s, (ignored s).2.1 = 1) (s : σ)
    (c : Byte) (d : Bytes) :
    InText word s c d ∨ word s (.on (c :: d) []) = .error .overread := by
  by_cases hc : c = percent
  · subst hc
    rcases triple_slice d with ⟨-, hread⟩ | ⟨o, ho, hlen⟩
    · right
      rw [h.atPercent, hread]
      rfl
    · left
      cases o with
      | none =>
        have hword : ∀ after, word s (.on (percent :: d) after) =
            ExtHttp.orElse flags (ignored s) := by
          intro after
          rw [h.atPercent, ho]
          rfl
        exact .orElse hword ((hone s).le.trans (Nat.le_add_left _ _))
      | some w =>
        have hthere := hlen (by simp)
        have hword : ∀ after, word s (.on (percent :: d) after) = .ok (w, 3, s) := by
          intro after
          rw [h.atPercent, ho]
          rfl
        exact .ok hword (by omega)
  · exact .inl (h.inside s c d hc)

end

/-! ### Loops -/

/-- A turn of a loop at the beginning of a text -/
abbrev onText (word : UrlWord σ) : WordE UrlExit Byte Byte σ :=
  fun s rest after => word s (.on rest after)

section
variable {word : UrlWord σ} {stop : Byte → Bool} {after : Bytes}

theorem scan_there (hword : ∀ s c d, word s (.on (c :: d) after) ≠ .error .overread) (s : σ)
    (b : Bytes) :
    scanE stop (onText word) after s 0 b ≠ .error .overread := by
  intro h
  obtain ⟨t, c, d, -, -, hread⟩ := scanE_error_iff.mp h
  exact hword t c d hread

theorem scan_more (more : Bytes)
    (hword : ∀ s c d, word s (.on (c :: d) (after ++ more)) = word s (.on (c :: d) after)) (s : σ)
    (k : ℕ) (b : Bytes) :
    scanE stop (onText word) (after ++ more) s k b = scanE stop (onText word) after s k b := by
  induction b generalizing s k with
  | nil => cases k <;> rfl
  | cons c b ih =>
    cases k with
    | succ k => exact ih s k
    | zero =>
      rw [scanE, scanE]
      simp only [onText, hword, ih]

/-- With nothing behind the text, a loop comes to a turn that looks there, or ends in the text
without. -/
theorem scan_slice (stop : Byte → Bool)
    (hword : ∀ s c d, InText word s c d ∨ word s (.on (c :: d) []) = .error .overread)
    (s : σ) (k : ℕ) (b : Bytes) (hk : k ≤ b.length) : scanE stop (onText word) [] s k b =
      .error .overread ∨
      ∃ r, (∀ after, scanE stop (onText word) after s k b = r) ∧ ∀ o, r = .ok o → o.excess = 0 := by
  induction b generalizing s k with
  | nil =>
    obtain rfl : k = 0 := Nat.le_zero.mp hk
    refine .inr ⟨_, fun after => rfl, ?_⟩
    intro o ho
    cases ho
    rfl
  | cons c b ih =>
    cases k with
    | succ k => exact ih s k (Nat.le_of_succ_le_succ hk)
    | zero =>
      cases hc : stop c with
      | true =>
        refine .inr ⟨_, fun after => scanE_stop hc s b, ?_⟩
        intro o ho
        cases ho
        rfl
      | false =>
        rcases hword s c b with ⟨r, hr, -, hle⟩ | hread
        · cases r with
          | error e =>
            refine .inr ⟨.error e, fun after => scanE_error hc (hr after), ?_⟩
            intro o ho
            cases ho
          | ok t =>
            obtain ⟨w, n, s'⟩ := t
            have hn := hle w n s' rfl
            have hturn : ∀ after, scanE stop (onText word) after s 0 (c :: b) =
                (scanE stop (onText word) after s' (n - 1) b).map fun o =>
                  o.behind w := fun after =>
              scanE_word hc (hr after)
            rcases ih s' (n - 1) (by omega) with hread | ⟨r, hr, hexcess⟩
            · left
              rw [hturn, hread]
              rfl
            · refine .inr ⟨r.map fun o => o.behind w, fun after => by rw [hturn, hr], ?_⟩
              intro o ho
              obtain ⟨o', ho', rfl⟩ := ok_eq_map ho
              exact hexcess o' ho'
        · exact .inl (scanE_error hc hread)

end

end ExtHttp
