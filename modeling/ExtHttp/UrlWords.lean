import ExtHttp.UrlFlags
import ExtHttp.UrlText

/-!
# Words of the URL scanners

What the turns of the scanners take and write, for any flags that do not ignore errors.
-/
namespace ExtHttp
open Scan

namespace UrlCursor
variable (rest after : Bytes)

@[simp] theorem on_text : (on rest after).text = rest ++ after := rfl

@[simp] theorem on_left : (on rest after).left = rest.length := rfl

@[simp] theorem on_rest : (on rest after).rest = rest := by simp [UrlCursor.rest]

@[simp] theorem on_after : (on rest after).after = after := by simp [UrlCursor.after]

@[simp] theorem on_size : (on rest after).size = rest.length := by
  have hleft : ¬ ((rest.length : ℤ) < 0) := by omega
  simp [size, hleft]

theorem advance_on {n : ℕ} (h : n ≤ rest.length) :
    (on rest after).advance n = on (rest.drop n) after := by
  simp only [advance, on, List.drop_append_of_le_length h, List.length_drop, Nat.cast_sub h]

@[simp] theorem advance_zero (cur : UrlCursor) : cur.advance 0 = cur := by simp [advance]

theorem advance_advance (cur : UrlCursor) (m n : ℕ) :
    (cur.advance m).advance n = cur.advance (m + n) := by
  simp only [advance, List.drop_drop, Nat.cast_add]
  congr 1
  omega

@[simp] theorem read_cons (c : Byte) (t : Bytes) (left : ℤ) :
    (⟨c :: t, left⟩ : UrlCursor).read 0 = .ok c := rfl

@[simp] theorem on_read (c : Byte) : (on (c :: rest) after).read 0 = .ok c := rfl

end UrlCursor

theorem ok_eq_bind {ε α β : Type} {x : Except ε α} {f : α → Except ε β} {b : β}
    (h : x >>= f = .ok b) :
    ∃ a, x = .ok a ∧ f a = .ok b := by
  cases x with
  | error e => cases h
  | ok a => exact ⟨a, rfl, h⟩

theorem ok_eq_map {ε α β : Type} {x : Except ε α} {f : α → β} {b : β} (h : x.map f = .ok b) :
    ∃ a, x = .ok a ∧ f a = b := by
  cases x with
  | error e => cases h
  | ok a => exact ⟨a, rfl, Except.ok.inj h⟩

theorem error_eq_bind {ε α β : Type} {x : Except ε α} {f : α → Except ε β} {e : ε} :
    x >>= f = .error e ↔ x = .error e ∨ ∃ a, x = .ok a ∧ f a = .error e := by
  cases x with
  | error e' => simp [bind, Except.bind]
  | ok a => simp [bind, Except.bind]

theorem error_eq_map {ε α β : Type} {x : Except ε α} {f : α → β} {e : ε} :
    x.map f = .error e ↔ x = .error e := by
  cases x <;> simp [Except.map]

variable (S : UrlSystem) (flags : UrlFlags)

/-- How many bytes of a multibyte character follow its first one. -/
def mbTail (b : Bytes) : ℕ :=
  if flags.mbutf8 then (utf8ToWc b).elim 0 fun o => o.2 - 1
  else if flags.mbloc then match S.mbrtowc b with
    | .char _ tail => tail
    | _ => 0
  else 0

/-- How many bytes follow the first one of a word. -/
def wordTail : Bytes → ℕ
  | [] => 0
  | c :: b => if c = percent then 2 else if isUrlChar c then 0 else mbTail S flags (c :: b)

@[simp] theorem wordTail_percent (b : Bytes) : wordTail S flags (percent :: b) = 2 := by
  rw [wordTail, if_pos rfl]

theorem wordTail_char {c : Byte} (hp : c ≠ percent) (hc : isUrlChar c = true) (b : Bytes) :
    wordTail S flags (c :: b) = 0 := by
  rw [wordTail, if_neg hp, if_pos hc]

theorem wordTail_mb {c : Byte} (hp : c ≠ percent) (hc : ¬ isUrlChar c = true) (b : Bytes) :
    wordTail S flags (c :: b) = mbTail S flags (c :: b) := by
  rw [wordTail, if_neg hp, if_neg hc]

/-- Whether a word of the user info that begins with `c` is percent-encoded. -/
def encodes (c : Byte) : Bool := flags.topct && c ≠ percent && !isUrlChar c

/-- A text as it is written -/
def spelled (encoded : Bool) (b : Bytes) : Bytes := if encoded then pctEncode b else b

/-- A multibyte character as it is written -/
def mbText (what : UrlPart) (b : Bytes) : Bytes :=
  if flags.topct && what ≠ .hostinfo && what ≠ .scheme then pctEncode b else b

/-! ### Characters -/

variable {S flags}

theorem utf8ToWc_append {c : Byte} {b : Bytes} (h : utf8MbLen c ≤ b.length + 1) (after : Bytes) :
    utf8ToWc (c :: (b ++ after)) = utf8ToWc (c :: b) := by
  have htake : (b ++ after).take (utf8MbLen c - 1) = b.take (utf8MbLen c - 1) :=
    List.take_append_of_le_length (by omega)
  rw [utf8ToWc, utf8ToWc]
  dsimp only
  rw [htake]

theorem utf8ToWc_short {c : Byte} {b : Bytes} (h : b.length + 1 < utf8MbLen c) :
    utf8ToWc (c :: b) = none := by
  rw [utf8ToWc]
  dsimp only
  refine if_pos (.inr (.inl ?_))
  rw [List.length_take]
  omega

theorem mbUtf8_on (c : Byte) (b after : Bytes) : mbUtf8 (.on (c :: b) after) =
    .ok ((utf8ToWc (c :: b)).elim .invalid fun o => .char o.1 (o.2 - 1)) := by
  have hread : (UrlCursor.on (c :: b) after).read 0 = .ok c := rfl
  unfold mbUtf8
  rw [hread, UrlCursor.on_size, UrlCursor.on_text]
  simp only [bind, Except.bind]
  by_cases hlong : b.length + 1 < utf8MbLen c
  · rw [if_pos (.inl hlong), utf8ToWc_short hlong]
    rfl
  have hle : utf8MbLen c ≤ b.length + 1 := Nat.not_lt.mp hlong
  by_cases hfour : 4 < utf8MbLen c
  · have hnone : utf8ToWc (c :: b) = none := by
      rw [utf8ToWc]
      exact if_pos (.inl hfour)
    rw [if_pos (.inr hfour), hnone]
    rfl
  · have hthere : ¬ ((c :: b ++ after).length < utf8MbLen c ∧ ∀ d ∈ (c :: b ++ after).tail,
        d &&& 192 = 128) := by
      rintro ⟨hlt, -⟩
      simp only [List.cons_append, List.length_cons, List.length_append] at hlt
      omega
    rw [if_neg (by simp only [List.length_cons]; omega), if_neg hthere, List.cons_append,
      utf8ToWc_append hle]
    cases utf8ToWc (c :: b) <;> rfl

/-- A character, with as many bytes as `mbTail` says. -/
theorem mbAt_char {c : Byte} {b after : Bytes} {wc tail : ℕ}
    (h : mbAt S flags (.on (c :: b) after) = .ok (.char wc tail)) :
    tail = mbTail S flags (c :: b) ∧ tail ≤ b.length := by
  unfold mbAt at h
  unfold mbTail
  by_cases hutf8 : flags.mbutf8 = true
  · rw [if_pos hutf8, mbUtf8_on] at h
    cases ho : utf8ToWc (c :: b) with
    | none =>
      rw [ho] at h
      cases h
    | some o =>
      obtain ⟨m, hm, hle, -⟩ := utf8ToWc_some ho
      rw [ho] at h
      cases h
      rw [if_pos hutf8, Option.elim_some]
      exact ⟨rfl, by omega⟩
  rw [if_neg hutf8] at h ⊢
  by_cases hloc : flags.mbloc = true
  · have htake : (UrlCursor.on (c :: b) after).text.take (UrlCursor.on (c :: b) after).size =
        c :: b := by
      rw [UrlCursor.on_size, UrlCursor.on_text]
      exact List.take_left
    rw [if_pos hloc, htake] at h
    have hchar := Except.ok.inj h
    have hle := S.mbrtowc_le _ _ _ hchar
    rw [if_pos hloc, hchar]
    exact ⟨rfl, Nat.le_of_lt_succ hle⟩
  · rw [if_neg hloc] at h
    cases h

theorem mbCopied_eq (what : UrlPart) (wc : ℕ) (b : Bytes)
    (h : mbCopied S flags what wc ≠ some false) :
    (if mbCopied S flags what wc = some true then b else pctEncode b) = mbText flags what b := by
  have htext : mbText flags what b =
      if !flags.topct || what = .hostinfo || what = .scheme then b else pctEncode b := by
    unfold mbText
    cases flags.topct <;> cases what <;> rfl
  rw [htext]
  cases hcopied : mbCopied S flags what wc with
  | none =>
    unfold mbCopied at hcopied
    split_ifs at hcopied with hraw
    rw [if_neg (by simp), if_neg hraw]
  | some copied =>
    have htrue : copied = true := Bool.eq_true_of_not_eq_false fun hf => h (by rw [hcopied, hf])
    have hraw : (!flags.topct || decide (what = .hostinfo) || decide (what = .scheme)) = true := by
      by_contra hraw
      rw [mbCopied, if_neg hraw] at hcopied
      cases hcopied
    rw [if_pos (by rw [htrue]), if_pos hraw]

theorem parseMb_some (hignore : flags.ignoreErrors = false) {what : UrlPart} {c : Byte}
    {b after w : Bytes} {n : ℕ} (h : parseMb S flags what (.on (c :: b) after) =
      .ok (some (w, n))) :
    n = mbTail S flags (c :: b) + 1 ∧ n ≤ b.length + 1 ∧
      w = mbText flags what ((c :: b).take n) := by
  obtain ⟨mb, hmb, h⟩ := ok_eq_bind h
  simp only [hignore, Bool.false_eq_true, if_false] at h
  cases mb with
  | invalid => cases h
  | incomplete wc =>
    dsimp only at h
    split_ifs at h
    cases h
  | char wc tail =>
    obtain ⟨htail, hle⟩ := mbAt_char hmb
    dsimp only at h
    by_cases hcopied : mbCopied S flags what wc = some false
    · rw [if_pos hcopied] at h
      cases h
    · rw [if_neg hcopied] at h
      obtain ⟨v, hv, h⟩ := ok_eq_bind h
      have hthere : tail + 1 ≤ (UrlCursor.on (c :: b) after).text.length := by
        simp only [UrlCursor.on_text, List.cons_append, List.length_cons, List.length_append]
        omega
      rw [UrlCursor.readChars, if_pos hthere] at hv
      cases hv
      cases h
      have hle' : tail + 1 ≤ (c :: b).length := Nat.succ_le_succ hle
      rw [mbCopied_eq what wc _ hcopied, UrlCursor.on_text,
        List.take_append_of_le_length hle', htail]
      exact ⟨rfl, by omega, rfl⟩

theorem mbWord_ok {σ : Type} (hignore : flags.ignoreErrors = false) {what : UrlPart} {s s' : σ}
    {c : Byte} {b after w : Bytes} {n : ℕ}
    (h : mbWord S flags what s (.on (c :: b) after) = .ok (w, n, s')) :
    n = mbTail S flags (c :: b) + 1 ∧ n ≤ b.length + 1 ∧ w = mbText flags what ((c :: b).take n) ∧
      s' = s := by
  obtain ⟨o, ho, h⟩ := ok_eq_bind h
  match o with
  | none => cases h
  | some (w', n') =>
    cases h
    obtain ⟨hn, hle, hw⟩ := parseMb_some hignore ho
    exact ⟨hn, hle, hw, rfl⟩

/-- A triple is copied, and there is another character in it if it begins with two of the text. -/
theorem triple_some {b after w : Bytes} (h : triple (.on (percent :: b) after) = .ok (some w)) :
    ∃ x y, TripleEnd x y ∧ w = [percent, x, y] ∧ w = (percent :: b ++ after).take 3 ∧
      (b.length ≤ 1 → x = percent) := by
  obtain ⟨x, hx, h⟩ := ok_eq_bind h
  split_ifs at h with hbad
  · cases h
  · obtain ⟨y, hy, h⟩ := ok_eq_bind h
    split_ifs at h with hbad'
    · cases h
    · cases h
      have htext : (percent :: b ++ after).take 3 = [percent, x, y] := by
        unfold UrlCursor.read at hx hy
        rw [UrlCursor.on_text, List.cons_append] at hx hy
        rw [List.cons_append]
        match hba : b ++ after with
        | [] =>
          rw [hba] at hx
          cases hx
        | [_] =>
          rw [hba] at hy
          cases hy
        | _ :: _ :: _ =>
          rw [hba] at hx hy
          cases hx
          cases hy
          rfl
      refine ⟨x, y, ?_, rfl, htext.symm, fun hb => ?_⟩
      · by_cases hxp : x = percent
        · exact .inl hxp
        · simp only [ne_eq, hxp, not_false_eq_true, true_and, not_or,
            Bool.not_eq_false] at hbad hbad'
          exact .inr ⟨hbad.2, hbad'⟩
      · by_contra hxp
        refine hbad ⟨hxp, .inl ?_⟩
        rw [UrlCursor.on_left, List.length_cons]
        omega

theorem orElse_refused (hignore : flags.ignoreErrors = false) {σ : Type} (o : Bytes × ℕ × σ) :
    orElse flags o = .error .refused := by
  simp [orElse, hignore]

/-- A word that is longer than the text is a triple, of which one character may be missing if there
is no `%` behind the text. -/
def Overhangs (c : Byte) (b after : Bytes) (n : ℕ) : Prop :=
  b.length + 1 < n → c = percent ∧ (after.head? ≠ some percent → b = [percent])

theorem overhangs_triple {b after w : Bytes}
    (h : triple (.on (percent :: b) after) = .ok (some w)) :
    Overhangs percent b after 3 := by
  obtain ⟨x, y, -, hw, htake, hx⟩ := triple_some h
  intro hlen
  refine ⟨rfl, fun hafter => ?_⟩
  rw [hw] at htake
  match b with
  | [] =>
    match after with
    | [] => cases htake
    | d :: after =>
      obtain rfl : x = d := by
        have := (List.cons.inj (List.cons.inj htake).2).1
        exact this
      exact absurd (congrArg some (hx (by simp))) hafter
  | [d] =>
    obtain rfl : x = d := (List.cons.inj (List.cons.inj htake).2).1
    rw [hx (by simp)]
  | _ :: _ :: _ =>
    simp only [List.length_cons] at hlen
    omega

theorem overhangs_inside {c : Byte} {b : Bytes} {n : ℕ} (h : n ≤ b.length + 1) (after : Bytes) :
    Overhangs c b after n := fun hlen => absurd hlen (Nat.not_lt.mpr h)

/-! ### Words -/

namespace UrlScanner

theorem hostWord_ok (hignore : flags.ignoreErrors = false) {label label' : Bool} {c : Byte}
    {b after w : Bytes} {n : ℕ} (h : hostWord S flags label (.on (c :: b) after) =
      .ok (w, n, label')) :
    n = wordTail S flags (c :: b) + 1 ∧ Overhangs c b after n ∧ w = (c :: b ++ after).take n := by
  obtain ⟨_, ⟨⟩, h⟩ := ok_eq_bind h
  simp only [orElse_refused hignore] at h
  by_cases hp : c = percent
  · subst hp
    rw [if_pos rfl] at h
    obtain ⟨o, ho, h⟩ := ok_eq_bind h
    cases o with
    | none => cases h
    | some v =>
      obtain ⟨x, y, -, -, hv, -⟩ := triple_some ho
      cases h
      exact ⟨by simp, overhangs_triple ho, hv⟩
  rw [if_neg hp] at h
  have hone : ∀ l, (Except.ok ([c], 1, l) : Except UrlExit (Bytes × ℕ × Bool)) =
      .ok (w, n, label') →
      isUrlChar c = true → n = wordTail S flags (c :: b) + 1 ∧ Overhangs c b after n ∧
        w = (c :: b ++ after).take n := by
    intro l hl hc
    cases hl
    exact ⟨by rw [wordTail_char S flags hp hc], overhangs_inside (Nat.le_add_left _ _) _, rfl⟩
  split_ifs at h with hdot hl hhyphen hl hc
  · exact hone _ h (by rw [hdot]; decide)
  · exact hone _ h (by rw [hhyphen]; decide)
  · exact hone _ h hc
  · obtain ⟨hn, hle, hw, -⟩ := mbWord_ok hignore h
    have htext : mbText flags .hostinfo ((c :: b).take n) = (c :: b).take n := by simp [mbText]
    rw [wordTail_mb S flags hp hc]
    exact ⟨hn, overhangs_inside hle _, by rw [hw, htext, List.take_append_of_le_length hle]⟩

theorem userinfoWord_ok (hignore : flags.ignoreErrors = false) {s s' : Unit} {c : Byte}
    {b after w : Bytes} {n : ℕ} (h : userinfoWord S flags s (.on (c :: b) after) = .ok (w, n, s')) :
    c ≠ colon ∧ n = wordTail S flags (c :: b) + 1 ∧ Overhangs c b after n ∧
      w = spelled (encodes flags c) ((c :: b ++ after).take n) := by
  obtain ⟨_, ⟨⟩, h⟩ := ok_eq_bind h
  simp only [orElse_refused hignore] at h
  split_ifs at h with hcolon hp hc
  · subst hp
    obtain ⟨o, ho, h⟩ := ok_eq_bind h
    cases o with
    | none => cases h
    | some v =>
      obtain ⟨x, y, -, -, hv, -⟩ := triple_some ho
      cases h
      exact ⟨hcolon, by simp, overhangs_triple ho, by simpa [encodes, spelled] using hv⟩
  · cases h
    exact ⟨hcolon, by rw [wordTail_char S flags hp hc], overhangs_inside (Nat.le_add_left _ _) _,
      by simp [encodes, hc, spelled]⟩
  · obtain ⟨hn, hle, hw, -⟩ := mbWord_ok hignore h
    refine ⟨hcolon, by rw [wordTail_mb S flags hp hc]; exact hn, overhangs_inside hle _, ?_⟩
    rw [hw, List.take_append_of_le_length hle]
    simp [mbText, encodes, hp, hc, spelled]

theorem portWord_ok (hignore : flags.ignoreErrors = false) {port port' : ℕ} {c : Byte}
    {b after w : Bytes} {n : ℕ} (h : portWord flags port (.on (c :: b) after) = .ok (w, n, port')) :
    (c = percent ∧ n = 3 ∧ w = (c :: b ++ after).take 3 ∧ w ≠ [] ∧ port' = port) ∨
      isDigit c = true ∧ n = 1 ∧ w = [] ∧ port' = (port * 10 + (c.toNat - 48)) % 2 ^ 16 := by
  obtain ⟨_, ⟨⟩, h⟩ := ok_eq_bind h
  simp only [orElse_refused hignore] at h
  split_ifs at h with hp hd
  · subst hp
    obtain ⟨o, ho, h⟩ := ok_eq_bind h
    cases o with
    | none => cases h
    | some v =>
      obtain ⟨x, y, -, hxy, hv, -⟩ := triple_some ho
      cases h
      exact .inl ⟨rfl, rfl, hv, by simp [hxy], rfl⟩
  · cases h
    exact .inr ⟨hd, rfl, rfl, rfl⟩

end UrlScanner

end ExtHttp
