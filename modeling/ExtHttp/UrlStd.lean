import ExtHttp.UrlLocal

/-!
# The standard flags

With `PHP_HTTP_URL_STDFLAGS` the parser with all its flags is the parser without: both come to the
same URL, or both to none.
-/
namespace ExtHttp
open Scan

variable {S : UrlSystem} {σ : Type}

/-! ### Words -/

/-- A character, or none where nothing is left of the text. -/
theorem mbAt_std {b after : Bytes} (h : b ++ after ≠ []) : mbAt S .std (.on b after) =
    .ok ((utf8ToWc b).elim .invalid fun o => .char o.1 (o.2 - 1)) := by
  have hutf8 : mbAt S .std (.on b after) = mbUtf8 (.on b after) := if_pos (by decide)
  rw [hutf8]
  cases b with
  | cons c d => exact mbUtf8_on c d after
  | nil =>
    obtain ⟨c, after, rfl⟩ := List.exists_cons_of_ne_nil h
    have hlen : 0 < utf8MbLen c := by
      unfold utf8MbLen
      split_ifs <;> decide
    have hread : (UrlCursor.on [] (c :: after)).read 0 = .ok c := rfl
    unfold mbUtf8
    rw [hread, UrlCursor.on_size]
    exact if_pos (.inl hlen)

theorem utf8ToWc_length {b : Bytes} {wc n : ℕ} (h : utf8ToWc b = some (wc, n)) :
    1 ≤ n ∧ n ≤ b.length := by
  cases b with
  | nil => cases h
  | cons c b =>
    obtain ⟨m, rfl, hle, -⟩ := utf8ToWc_some h
    exact ⟨Nat.le_add_left _ _, Nat.succ_le_succ hle⟩

/-- What the `default` of a component makes of a character: `copy` tells whether it is copied. -/
theorem mbWord_std {what : UrlPart} {s : σ} {b after : Bytes} (h : b ++ after ≠ []) :
    (mbWord S .std what s (.on b after)).toOption = (utf8ToWc b).bind fun o =>
      if mbCopied S .std what o.1 = some false then none
      else some (if mbCopied S .std what o.1 = some true then b.take o.2
        else pctEncode (b.take o.2),
        o.2, s) := by
  obtain ⟨c, t, hc⟩ := List.exists_cons_of_ne_nil h
  have hread : (UrlCursor.on b after).read 0 = .ok c :=
    read_ok_iff.mpr (by rw [UrlCursor.on_text, hc]; rfl)
  have hrefused : ∀ o : Bytes × ℕ × σ, ExtHttp.orElse .std o = .error .refused :=
    fun o => if_neg (by decide)
  rw [mbWord_eq hread, mbAt_std h]
  cases hwc : utf8ToWc b with
  | none => simp [bind, Except.bind, hrefused, Except.toOption]
  | some o =>
    obtain ⟨wc, n⟩ := o
    obtain ⟨hpos, hle⟩ := utf8ToWc_length hwc
    simp only [Option.elim_some, bind, Except.bind, hrefused, Option.bind_some, UrlCursor.on_text,
      Nat.sub_add_cancel hpos, List.take_append_of_le_length hle]
    split_ifs <;> rfl

/-- Outside of scheme and host characters are percent-encoded. -/
theorem mbWord_pct {what : UrlPart} (hwhat : what ≠ .scheme ∧ what ≠ .hostinfo) {s : σ}
    {b after : Bytes} (h : b ++ after ≠ []) : (mbWord S .std what s (.on b after)).toOption =
      plainWord (mbToPct b) s := by
  have hcopied : ∀ wc, mbCopied S .std what wc = none := by
    intro wc
    have htopct : UrlFlags.topct .std = true := by decide
    rw [mbCopied, if_neg (by simp [htopct, hwhat.1, hwhat.2])]
  rw [mbWord_std h]
  simp only [hcopied, plainWord, mbToPct]
  cases utf8ToWc b <;> rfl

namespace UrlScanner

/-- Behind a text the words are those of the parser without flags, in front of its end as well. -/
def Agree (after : Bytes) (word : UrlWord σ) (word' : Word Byte Byte σ) : Prop :=
  ∀ s b, (word s (.on b after)).toOption = word' s b after

section
variable {after : Bytes} (hafter : Closed after)
include hafter

theorem read_closed (b : Bytes) : (UrlCursor.on b after).read 0 = .ok (current b after) := by
  obtain ⟨z, after, rfl⟩ := List.exists_cons_of_ne_nil hafter.ne
  cases b <;> rfl

theorem memory_ne (b : Bytes) : b ++ after ≠ [] :=
  fun h => hafter.ne (List.append_eq_nil_iff.mp h).2

/-- A triple, where the text goes on with a `%`. -/
theorem triple_std {b : Bytes} (hb : current b after = percent) (s : σ) :
    ∃ o, triple (.on b after) = .ok o ∧ plainWord (percentWord b after) s = o.map fun w =>
      (w, 3, s) := by
  obtain ⟨z, after, rfl⟩ := List.exists_cons_of_ne_nil hafter.ne
  have hz : z ≠ percent := fun h => hafter.percent (congrArg some h)
  match b with
  | [] => exact absurd hb hz
  | [c] =>
    obtain rfl : c = percent := hb
    refine ⟨none, triple_one hz after, ?_⟩
    have hnone : percentWord [percent] (z :: after) = none := if_pos ⟨hz, .inl (by decide)⟩
    rw [hnone]
    rfl
  | [c, x] =>
    obtain rfl : c = percent := hb
    by_cases hx : x = percent
    · subst hx
      refine ⟨_, triple_percents z after, ?_⟩
      have hsome : percentWord [percent, percent] (z :: after) =
          some ([percent, percent, z], 3) := by
        simp [percentWord, byteAt]
      rw [hsome]
      rfl
    · refine ⟨none, triple_two hx _, ?_⟩
      have hnone : percentWord [percent, x] (z :: after) = none := if_pos ⟨hx, .inl (by simp)⟩
      rw [hnone]
      rfl
  | c :: x :: y :: d =>
    obtain rfl : c = percent := hb
    have hlong : ¬ (UrlCursor.on (percent :: x :: y :: d) (z :: after)).left ≤ 2 := by
      simp only [UrlCursor.on_left, List.length_cons]
      omega
    have hlong' : ¬ (percent :: x :: y :: d).length ≤ 2 := by
      simp only [List.length_cons]
      omega
    have hfirst : (UrlCursor.on (percent :: x :: y :: d) (z :: after)).read 1 = .ok x := rfl
    have hsecond : (UrlCursor.on (percent :: x :: y :: d) (z :: after)).read 2 = .ok y := rfl
    have hx : byteAt (percent :: x :: y :: d ++ z :: after) 1 = x := rfl
    have hy : byteAt (percent :: x :: y :: d ++ z :: after) 2 = y := rfl
    unfold triple percentWord
    rw [hfirst, hsecond]
    simp only [hx, hy, hlong, hlong', bind, Except.bind, false_or]
    by_cases hpercent : x = percent
    · exact ⟨some [percent, x, y], by simp [hpercent], by simp [hpercent, plainWord]⟩
    · by_cases hbad : isBaseDigit 16 x = false ∨ isBaseDigit 16 y = false
      · refine ⟨none, ?_, by simp [hpercent, hbad, plainWord]⟩
        rcases hbad with hbad | hbad
        · simp [hpercent, hbad]
        · simp [hpercent, hbad]
      · push Not at hbad
        exact ⟨some [percent, x, y], by simp [hbad], by simp [hbad, plainWord]⟩

theorem userinfoWord_std : Agree after (userinfoWord S .std) ExtHttp.userinfoWord := by
  intro s b
  unfold userinfoWord ExtHttp.userinfoWord
  rw [read_closed hafter]
  simp only [bind, Except.bind, @orElse_refused .std (by decide)]
  by_cases hcolon : current b after = colon
  · rw [if_pos hcolon, if_pos hcolon]
    rfl
  rw [if_neg hcolon, if_neg hcolon]
  by_cases hpercent : current b after = percent
  · obtain ⟨o, ho, hword⟩ := triple_std hafter hpercent s
    rw [if_pos hpercent, if_pos hpercent, ho, hword]
    cases o <;> rfl
  rw [if_neg hpercent, if_neg hpercent]
  by_cases hchar : isUrlChar (current b after) = true
  · rw [if_pos hchar, if_pos hchar]
    rfl
  · rw [if_neg hchar, if_neg hchar, mbWord_pct (by decide) (memory_ne hafter b)]

theorem pathWord_std : Agree after (pathWord S .std) ExtHttp.pathWord := by
  intro s b
  unfold pathWord ExtHttp.pathWord
  rw [read_closed hafter]
  simp only [bind, Except.bind, @orElse_refused .std (by decide)]
  by_cases hpercent : current b after = percent
  · obtain ⟨o, ho, hword⟩ := triple_std hafter hpercent s
    rw [if_pos hpercent, if_pos hpercent, ho, hword]
    cases o <;> rfl
  rw [if_neg hpercent, if_neg hpercent]
  by_cases hchar : (isUrlChar (current b after) || (ascii "/:@").contains (current b after)) = true
  · rw [if_pos hchar, if_pos hchar]
    rfl
  · rw [if_neg hchar, if_neg hchar, mbWord_pct (by decide) (memory_ne hafter b)]

theorem textWord_std {what : UrlPart} (hwhat : what ≠ .scheme ∧ what ≠ .hostinfo) :
    Agree after (textWord S .std what) ExtHttp.queryWord := by
  intro s b
  have hpct : ∀ c, unsafeChar .std c = pctEncode [c] := fun c => if_pos (by decide)
  unfold textWord ExtHttp.queryWord
  rw [read_closed hafter]
  simp only [bind, Except.bind, @orElse_refused .std (by decide), hpct]
  by_cases hpercent : current b after = percent
  · obtain ⟨o, ho, hword⟩ := triple_std hafter hpercent s
    rw [if_pos hpercent, if_pos hpercent, ho, hword]
    cases o <;> rfl
  rw [if_neg hpercent, if_neg hpercent]
  by_cases hrfc : isUnsafeChar (current b after) = true
  · rw [if_pos hrfc, if_pos hrfc]
    rfl
  rw [if_neg hrfc, if_neg hrfc]
  by_cases hchar : (isUrlChar (current b after) || (ascii "/:@?").contains (current b after)) = true
  · rw [if_pos hchar, if_pos hchar]
    rfl
  · rw [if_neg hchar, if_neg hchar, mbWord_pct hwhat (memory_ne hafter b)]

theorem fragmentWord_std : Agree after (fragmentWord S .std) ExtHttp.fragmentWord := by
  intro s b
  unfold fragmentWord ExtHttp.fragmentWord
  rw [read_closed hafter]
  simp only [bind, Except.bind, @orElse_refused .std (by decide)]
  by_cases hhash : current b after = hash
  · rw [if_pos hhash, if_pos hhash]
    rfl
  · rw [if_neg hhash, if_neg hhash]
    exact textWord_std hafter (by decide) s b

theorem hostWord_std : Agree after (hostWord S .std) ExtHttp.hostWord := by
  intro label b
  have hcopied : ∀ wc, mbCopied S .std .hostinfo wc = some true := fun wc => if_pos (by decide)
  unfold hostWord ExtHttp.hostWord
  rw [read_closed hafter]
  simp only [bind, Except.bind, @orElse_refused .std (by decide)]
  by_cases hpercent : current b after = percent
  · obtain ⟨o, ho, hword⟩ := triple_std hafter hpercent label
    rw [if_pos hpercent, if_pos hpercent, ho, hword]
    cases o <;> rfl
  rw [if_neg hpercent, if_neg hpercent]
  by_cases hdot : current b after = dot
  · rw [if_pos hdot, if_pos hdot]
    cases label <;> rfl
  rw [if_neg hdot, if_neg hdot]
  by_cases hhyphen : current b after = hyphen
  · rw [if_pos hhyphen, if_pos hhyphen]
    cases label <;> rfl
  rw [if_neg hhyphen, if_neg hhyphen]
  by_cases hchar : isUrlChar (current b after) = true
  · rw [if_pos hchar, if_pos hchar]
    rfl
  · rw [if_neg hchar, if_neg hchar, mbWord_std (memory_ne hafter b)]
    simp only [hcopied]
    cases utf8ToWc b <;> rfl

theorem portWord_std : Agree after (portWord .std) ExtHttp.portWord := by
  intro port b
  unfold portWord ExtHttp.portWord
  rw [read_closed hafter]
  simp only [bind, Except.bind, @orElse_refused .std (by decide)]
  by_cases hpercent : current b after = percent
  · obtain ⟨o, ho, hword⟩ := triple_std hafter hpercent port
    rw [if_pos hpercent, if_pos hpercent, ho, hword]
    cases o <;> rfl
  rw [if_neg hpercent, if_neg hpercent]
  split_ifs <;> rfl

theorem schemeWord_std : Agree after (schemeWord S .std) (ExtHttp.schemeWord S.libs) := by
  intro first b
  have hcopied : ∀ wc, mbCopied S .std .scheme wc = some (S.isualnum wc) :=
    fun wc => if_pos (by decide)
  unfold schemeWord ExtHttp.schemeWord
  rw [read_closed hafter]
  simp only [bind, Except.bind]
  split_ifs
  · rfl
  · rfl
  · rw [mbWord_std (memory_ne hafter b)]
    simp only [hcopied]
    cases utf8ToWc b with
    | none => rfl
    | some o =>
      have hlibs : S.libs.isualnum = S.isualnum := rfl
      simp only [Option.bind_some, hlibs]
      cases S.isualnum o.1 <;> rfl

/-- A character of a scheme is refused at most. -/
theorem schemeWord_refused {first : Bool} {b : Bytes} {e : UrlExit}
    (h : schemeWord S .std first (.on b after) = .error e) : e = .refused := by
  unfold schemeWord at h
  rw [read_closed hafter] at h
  simp only [bind, Except.bind] at h
  split_ifs at h
  · exact (Except.error.inj h).symm
  · rw [mbWord_eq (read_closed hafter b), mbAt_std (memory_ne hafter b)] at h
    have hexit : ∀ o : Bytes × ℕ × Bool, ExtHttp.orElse .std o = .error e → e = .refused := by
      intro o ho
      rw [orElse_refused (by decide)] at ho
      exact (Except.error.inj ho).symm
    cases hwc : utf8ToWc b with
    | none =>
      rw [hwc] at h
      exact hexit ([current b after], 1, false) h
    | some o =>
      rw [hwc] at h
      dsimp only [Option.elim_some, bind, Except.bind] at h
      split_ifs at h
      exact hexit _ h

end

/-! ### Components -/

theorem toOption_map {ε α β : Type} (x : Except ε α) (f : α → β) :
    (x.map f).toOption = x.toOption.map f := by
  cases x <;> rfl

theorem toOption_bind {ε α β : Type} (x : Except ε α) (f : α → Except ε β) :
    (x >>= f).toOption = x.toOption.bind fun a => (f a).toOption := by
  cases x <;> rfl

section
variable {after : Bytes} {stop : Byte → Bool} {word : UrlWord σ} {word' : Word Byte Byte σ}
    {st : UrlState}

theorem scan_std (h : Agree after word word') (s : σ) (skip : ℕ) (b : Bytes) :
    scan stop word' after s skip b = (scanE stop (onText word) after s skip b).toOption := by
  rw [scanE_toOption]
  exact scan_congr (fun s b => (h s b).symm) s skip b

theorem parseScheme_std (hafter : Closed after) (hcolon : after.head? ≠ some colon) (st : UrlState)
    (b : Bytes) :
    parseScheme S .std st (.on b after) = .ok ((ExtHttp.parseScheme S.libs st b after).1,
      .on (ExtHttp.parseScheme S.libs st b after).2 after) := by
  have hfail : ∀ e, doLoop isColon (schemeWord S .std) true (.on b after) = .error e →
      e = .refused := by
    intro e h
    by_cases hb : b = []
    · subst hb
      rw [doLoop, if_neg (by simp), read_closed hafter] at h
      simp only [bind, Except.bind] at h
      split_ifs at h
      exact schemeWord_refused hafter (error_eq_map.mp h)
    · rw [doLoop_on _ hb, whileLoop_eq] at h
      obtain ⟨t, c, d, -, -, hword⟩ := scanE_error_iff.mp (error_eq_map.mp h)
      exact schemeWord_refused hafter hword
  unfold parseScheme ExtHttp.parseScheme
  rw [scan_std (schemeWord_std hafter)]
  by_cases hb : b = []
  · subst hb
    cases hloop : doLoop isColon (schemeWord S .std) true (.on [] after) with
    | error e =>
      obtain rfl := hfail e hloop
      rfl
    | ok o =>
      obtain ⟨scheme, first, n, stopped⟩ := o
      cases stopped with
      | true => exact absurd rfl (scheme_text hcolon hloop)
      | false => rfl
  · rw [doLoop_on _ hb, whileLoop_eq] at hfail ⊢
    cases hscan : scanE isColon (onText (schemeWord S .std)) after true 0 b with
    | error e =>
      obtain rfl := hfail e (by rw [hscan]; rfl)
      rfl
    | ok o =>
      obtain ⟨scheme, first, rest, excess⟩ := o
      cases rest with
      | nil => rfl
      | cons c rest =>
        have hcur := advance_stop hscan (List.cons_ne_nil c rest) after
        simp only [Except.map, Except.toOption, decide_true, ne_eq, reduceCtorEq, not_false_eq_true]
        rw [hcur]
        rfl

theorem parseUserinfo_std (hafter : Closed after) {b : Bytes} (hb : b ≠ []) :
    (parseUserinfo S .std st (.on b after)).toOption = ExtHttp.parseUserinfo st b after := by
  unfold parseUserinfo ExtHttp.parseUserinfo
  rw [doLoop_on _ hb, whileLoop_eq, scan_std (@userinfoWord_std S after hafter)]
  cases hscan : scanE isColon (onText (userinfoWord S .std)) after () 0 b with
  | error e => rfl
  | ok o =>
    obtain ⟨user, s, rest, excess⟩ := o
    cases rest with
    | nil => rfl
    | cons c rest =>
      have hcur := advance_stop hscan (List.cons_ne_nil c rest) after
      simp only [Except.map, bind, Except.bind, decide_true, ne_eq, reduceCtorEq,
        not_false_eq_true, if_true]
      rw [hcur, whileLoop_eq]
      simp only [List.tail_cons, Except.toOption, Option.bind_some,
        scan_std (@userinfoWord_std S after hafter)]
      cases scanE never (onText (userinfoWord S .std)) after () 0 rest <;> rfl

theorem hostLoop_std (hafter : Closed after) (port : ℕ) (b : Bytes) :
    (hostLoop S .std port (.on b after)).toOption =
      (scan isColon ExtHttp.hostWord after false 0 b).bind fun host =>
        (portScan port host.rest after).map fun o => (host.written ++ o.written, o.state) := by
  by_cases hb : b = []
  · subst hb
    rfl
  have hleft : (UrlCursor.on b after).left ≠ 0 := by simpa using hb
  unfold hostLoop
  rw [if_neg hleft, doLoop_on _ hb, whileLoop_eq, scan_std (@hostWord_std S after hafter)]
  cases hscan : scanE isColon (onText (hostWord S .std)) after false 0 b with
  | error e => rfl
  | ok o =>
    obtain ⟨host, s, rest, excess⟩ := o
    cases rest with
    | nil => simp [Except.map, Except.toOption, bind, Except.bind, portScan]
    | cons c rest =>
      have hcur := advance_stop hscan (List.cons_ne_nil c rest) after
      simp only [Except.map, bind, Except.bind, decide_true, ne_eq, reduceCtorEq,
        not_false_eq_true, if_true]
      rw [hcur, whileLoop_eq]
      simp only [List.tail_cons, Except.toOption, Option.bind_some, portScan,
        scan_std (portWord_std hafter)]
      cases scanE never (onText (portWord .std)) after port 0 rest <;> rfl

theorem parseIdna_std (st : UrlState) (host len : ℕ) :
    (parseIdna S .std st host len).toOption = ExtHttp.parseIdna S.libs st host len := by
  have hignore : UrlFlags.ignoreErrors .std = false := by decide
  have hlibs : S.libs.idna = S.idna .std := rfl
  unfold parseIdna ExtHttp.parseIdna
  rw [hlibs]
  cases S.idna .std with
  | none => rfl
  | some idna =>
    dsimp only
    cases idna (st.read host) with
    | none => simp [hignore, Except.toOption]
    | some idn => rfl

theorem parseHostRest_std (hafter : Closed after) (len : ℕ) (st : UrlState) (b : Bytes) :
    (parseHostRest S .std len st (.on b after)).toOption =
      ExtHttp.parseHostRest S.libs len st b after := by
  have htoidn : UrlFlags.toidn .std = true := by decide
  unfold parseHostRest ExtHttp.parseHostRest
  rw [toOption_bind, hostLoop_std hafter]
  cases scan isColon ExtHttp.hostWord after false 0 b with
  | none => rfl
  | some host =>
    simp only [Option.bind_some, Option.bind_eq_bind]
    cases portScan st.port host.rest after with
    | none => rfl
    | some port =>
      simp only [Option.map_some, Option.bind_some, htoidn, if_true, UrlState.put]
      cases st.host with
      | none => exact parseIdna_std _ _ _
      | some n => exact parseIdna_std _ _ _

theorem parseHostinfo_std (hafter : Closed after) {b : Bytes} (hb : b ≠ []) :
    (parseHostinfo S .std st (.on b after)).toOption = ExtHttp.parseHostinfo S.libs st b after := by
  have hignore : UrlFlags.ignoreErrors .std = false := by decide
  obtain ⟨c, b, rfl⟩ := List.exists_cons_of_ne_nil hb
  unfold parseHostinfo ExtHttp.parseHostinfo ExtHttp.parseIp6
  simp only [UrlCursor.on_read, bind, Except.bind, parseIp6_on, List.head?_cons, Option.some.injEq]
  by_cases hc : c = 91
  · simp only [if_pos hc]
    cases hip : ip6Text S.libs (c :: b) with
    | none => simp [hignore, Except.toOption]
    | some o =>
      obtain ⟨addr, rest⟩ := o
      obtain ⟨front, hfront⟩ := ip6Text_suffix hip
      simp only [Option.map_some, Option.bind_some]
      rw [hfront, advance_suffix, parseHostRest_std hafter]
  · simp only [if_neg hc, Option.bind_some]
    exact parseHostRest_std hafter _ st _

/-! ### The authority -/

theorem current_at (hafter : Closed after) (hat : after.head? ≠ some atSign) (left : Bytes) :
    current left after = atSign ↔ left.head? = some atSign := by
  cases left with
  | cons c left => simp
  | nil =>
    obtain ⟨z, after, rfl⟩ := List.exists_cons_of_ne_nil hafter.ne
    exact iff_of_false (fun h : z = atSign => hat (congrArg some h)) (by simp)

/-- The host, with what ends it. -/
theorem hostinfoOf_std (hafter : Closed after) (st : UrlState) (part : Bytes) {left : Bytes}
    (hleft : ∀ c ∈ left.head?, inAuthority c = false) :
    (hostinfoOf S .std st (.on (part ++ left) after) part.length >>= fun st =>
        .ok (st, UrlCursor.on left after)).toOption =
      ((if part = [] then some st else ExtHttp.parseHostinfo S.libs st part
        (left ++ after)).map fun st =>
        (st, left)).map fun o => (o.1, .on o.2 after) := by
  rw [hostinfoOf_eq, toOption_bind]
  split_ifs with hpart
  · rfl
  · rw [parseHostinfo_std (closed_append rfl hleft hafter.percent (memory_ne hafter _)) hpart]
    cases ExtHttp.parseHostinfo S.libs st part (left ++ after) <;> rfl

theorem parseHost_std (hafter : Closed after) (hat : after.head? ≠ some atSign) (st : UrlState)
    (b : Bytes) :
    (parseHost S .std st (.on b after)).toOption =
      (if (b.dropWhile inAuthority).head? = some atSign then none
        else (if b.takeWhile inAuthority = [] then some st
          else ExtHttp.parseHostinfo S.libs st (b.takeWhile inAuthority)
            (b.dropWhile inAuthority ++ after)).map
            fun st => (st, b.dropWhile inAuthority)).map fun o => (o.1, .on o.2 after) := by
  have hignore : UrlFlags.ignoreErrors .std = false := by decide
  have hhost : inHost .std = inAuthority := by
    funext c
    simp [inHost, hignore]
  have hsplit : b = b.takeWhile inAuthority ++ b.dropWhile inAuthority :=
    List.takeWhile_append_dropWhile.symm
  have hleft := @dropWhile_head inAuthority b
  unfold parseHost
  rw [UrlCursor.on_rest, hhost]
  generalize b.takeWhile inAuthority = part, b.dropWhile inAuthority = left at hsplit hleft ⊢
  subst hsplit
  simp only [advance_part, read_closed hafter, bind, Except.bind, hignore, and_true,
    current_at hafter hat]
  by_cases hend : left.head? = some atSign
  · rw [if_pos hend, if_pos hend]
    rfl
  · rw [if_neg hend, if_neg hend]
    exact hostinfoOf_std hafter st part hleft

theorem parseAuthority_std (hafter : Closed after) (hat : after.head? ≠ some atSign) (st : UrlState)
    (b : Bytes) :
    (parseAuthority S .std st (.on b after)).toOption =
      (ExtHttp.parseAuthority S.libs st b after).map fun o => (o.1, .on o.2 after) := by
  have hsplit : b = b.takeWhile inAuthority ++ b.dropWhile inAuthority :=
    List.takeWhile_append_dropWhile.symm
  have hleft := @dropWhile_head inAuthority b
  unfold parseAuthority ExtHttp.parseAuthority parseUserPart
  rw [UrlCursor.on_rest]
  dsimp only
  generalize b.takeWhile inAuthority = part, b.dropWhile inAuthority = left at hsplit hleft ⊢
  subst hsplit
  simp only [advance_part, read_closed hafter, bind, Except.bind, current_at hafter hat]
  by_cases hend : left.head? = some atSign
  · obtain ⟨l, rfl⟩ : ∃ l, left = atSign :: l := by
      cases left with
      | nil => cases hend
      | cons c l => exact ⟨l, by rw [Option.some.inj hend]⟩
    have hpos : 0 < (UrlCursor.on (atSign :: l) after).left := by
      rw [UrlCursor.on_left, List.length_cons]
      omega
    have hnext : (UrlCursor.on (part ++ atSign :: l) after).advance (part.length + 1) =
        .on l after := by
      rw [← UrlCursor.advance_advance, advance_part]
      exact UrlCursor.advance_on _ _ (by simp)
    have huser : (userinfoOf S .std st (.on (part ++ atSign :: l) after) part.length).toOption =
        if part = [] then some st else ExtHttp.parseUserinfo st part (atSign :: l ++ after) := by
      rw [userinfoOf_eq]
      split_ifs with hpart
      · rfl
      · exact parseUserinfo_std (closed_append rfl hleft hafter.percent (memory_ne hafter _)) hpart
    simp only [if_pos hend, if_pos hpos, hnext, List.tail_cons]
    cases ho : userinfoOf S .std st (.on (part ++ atSign :: l) after) part.length with
    | error e =>
      rw [ho] at huser
      rw [← huser]
      rfl
    | ok st₁ =>
      rw [ho] at huser
      rw [← huser]
      exact parseHost_std hafter hat st₁ l
  · simp only [if_neg hend, Option.bind_some]
    exact hostinfoOf_std hafter st part hleft

/-! ### Behind the authority -/

/-- The cursor where a loop ends. -/
theorem advance_outcome {s : σ} {b : Bytes} {o : Outcome Byte Byte σ}
    (h : scanE stop (onText word) after s 0 b = .ok o) :
    (UrlCursor.on b after).advance (b.length - o.rest.length + o.excess) =
      (UrlCursor.on o.rest after).advance o.excess := by
  by_cases hexcess : o.excess = 0
  · rw [advance_rest h hexcess after, hexcess, UrlCursor.advance_zero]
  · have hrest := rest_nil (scanE_ok h) (Nat.pos_of_ne_zero hexcess)
    have hall := advance_part b [] after
    rw [List.append_nil] at hall
    rw [hrest, List.length_nil, Nat.sub_zero, ← UrlCursor.advance_advance, hall]

/-- The characters behind a text are none that go on with a scheme, an authority, a query or a
fragment. -/
structure EndsUrl (after : Bytes) : Prop extends Closed after where
  noColon : after.head? ≠ some colon
  noAt : after.head? ≠ some atSign
  noQuestion : question ∉ after
  noHash : hash ∉ after

theorem parsePath_std (hafter : Closed after) (st : UrlState) (b : Bytes) :
    (parsePath S .std st (.on b after)).toOption =
        (ExtHttp.parsePath st b after).map
          (fun o => (o.1, (UrlCursor.on o.2.1 after).advance o.2.2)) ∧
      ∀ o ∈ ExtHttp.parsePath st b after, o.2.2 = 0 ∨ o.2.1 = [] := by
  unfold parsePath ExtHttp.parsePath
  rw [read_closed hafter]
  simp only [bind, Except.bind]
  by_cases hnul : current b after = nul
  · rw [if_pos hnul, if_pos hnul]
    refine ⟨rfl, fun o ho => ?_⟩
    cases ho
    exact .inl rfl
  rw [if_neg hnul, if_neg hnul]
  cases b with
  | nil =>
    obtain ⟨z, after, rfl⟩ := List.exists_cons_of_ne_nil hafter.ne
    have hword := pathWord_std (S := S) hafter () []
    have hread : (UrlCursor.on [] (z :: after)).read 0 = .ok z := rfl
    unfold doLoop scanDo
    rw [if_neg (by simp), hread]
    simp only [bind, Except.bind]
    by_cases hz : isPathEnd z = true
    · rw [if_pos hz, if_pos hz]
      refine ⟨rfl, fun o ho => ?_⟩
      cases ho
      exact .inl rfl
    · rw [if_neg hz, if_neg hz, ← hword]
      cases pathWord S .std () (.on [] (z :: after)) with
      | error e => exact ⟨rfl, by simp [Except.toOption]⟩
      | ok o =>
        obtain ⟨w, n, s⟩ := o
        simp only [Except.map, Except.toOption, Option.map_some, true_and]
        by_cases hn : n = 0
        · rw [if_pos hn, if_pos hn]
          refine ⟨rfl, fun o ho => ?_⟩
          cases ho
          exact .inl rfl
        · rw [if_neg hn, if_neg hn]
          refine ⟨rfl, fun o ho => ?_⟩
          cases ho
          exact .inr rfl
  | cons c b =>
    have hdo : scanDo isPathEnd ExtHttp.pathWord after () (c :: b) =
        scan isPathEnd ExtHttp.pathWord after () 0 (c :: b) := rfl
    rw [doLoop_on _ (List.cons_ne_nil c b), whileLoop_eq, hdo,
      scan_std (pathWord_std (S := S) hafter)]
    cases hscan : scanE isPathEnd (onText (pathWord S .std)) after () 0 (c :: b) with
    | error e => exact ⟨rfl, by simp [Except.toOption]⟩
    | ok o =>
      have hle := (rest_suffix (scanE_ok hscan)).length_le
      have htaken : (c :: b).length - o.rest.length + o.excess = 0 ↔
          o.rest.length = (c :: b).length ∧ o.excess = 0 := by
        omega
      simp only [Except.map, Except.toOption, Option.map_some, htaken, advance_outcome hscan]
      split_ifs
      · refine ⟨rfl, fun o ho => ?_⟩
        cases ho
        exact .inl rfl
      · refine ⟨rfl, fun p hp => ?_⟩
        cases hp
        by_cases hexcess : o.excess = 0
        · exact .inl hexcess
        · exact .inr (rest_nil (scanE_ok hscan) (Nat.pos_of_ne_zero hexcess))

/-- What stands at a cursor behind a part of the text. -/
theorem read_advance (rest : Bytes) (excess : ℕ) :
    (((UrlCursor.on rest after).advance excess).read 0).toOption = (rest ++ after)[excess]? := by
  unfold UrlCursor.read UrlCursor.advance
  simp only [UrlCursor.on_text, List.getElem?_drop, Nat.add_zero]
  cases (rest ++ after)[excess]? <;> rfl

/-- A character that is not behind the text is the next one of it. -/
theorem next_char {rest : Bytes} {excess : ℕ} {c : Byte} (hend : excess = 0 ∨ rest = [])
    (hc : (rest ++ after)[excess]? = some c) (hnot : c ∉ after) :
    excess = 0 ∧ ∃ r, rest = c :: r := by
  cases rest with
  | nil => exact absurd (List.mem_of_getElem? hc) hnot
  | cons d r =>
    have hzero : excess = 0 := hend.resolve_right (List.cons_ne_nil d r)
    subst hzero
    obtain rfl : d = c := Option.some.inj hc
    exact ⟨rfl, r, rfl⟩

theorem parseHier_std (hafter : EndsUrl after) (st : UrlState) (b : Bytes) :
    (parseHier S .std st (.on b after)).toOption =
        (ExtHttp.parseHier S.libs st b after).map
          (fun o => (o.1, (UrlCursor.on o.2.1 after).advance o.2.2)) ∧
      ∀ o ∈ ExtHttp.parseHier S.libs st b after, o.2.2 = 0 ∨ o.2.1 = [] := by
  have hclosed := hafter.toClosed
  have hpath := parsePath_std (S := S) hclosed st b
  unfold parseHier ExtHttp.parseHier
  rw [read_closed hclosed]
  match b with
  | [] =>
    have hone : ¬ (current [] after = slash ∧ 1 < (UrlCursor.on [] after).left) :=
      fun h => absurd h.2 (by simp)
    simp only [bind, Except.bind, if_neg hone]
    exact hpath
  | [c] =>
    have hone : ¬ (current [c] after = slash ∧ 1 < (UrlCursor.on [c] after).left) :=
      fun h => absurd h.2 (by simp)
    have hshort : ¬ [c].take 2 = [slash, slash] := by simp
    simp only [bind, Except.bind, if_neg hone, if_neg hshort]
    exact hpath
  | c :: d :: b =>
    have hread : (UrlCursor.on (c :: d :: b) after).read 1 = .ok d := rfl
    have hnext : (UrlCursor.on (c :: d :: b) after).advance 2 = .on b after :=
      UrlCursor.advance_on _ _ (by simp)
    have hlong : 1 < (UrlCursor.on (c :: d :: b) after).left := by
      simp only [UrlCursor.on_left, List.length_cons]
      omega
    simp only [bind, Except.bind, current_cons, hlong, and_true, hread, hnext, List.take_succ_cons,
      List.take_zero, List.drop_succ_cons, List.drop_zero, List.cons.injEq]
    by_cases hslash : c = slash ∧ d = slash
    · rw [if_pos hslash.1, if_pos hslash.2, if_pos hslash]
      have hauthority := parseAuthority_std (S := S) hclosed hafter.noAt st b
      cases hs : parseAuthority S .std st (.on b after) with
      | error e =>
        rw [hs] at hauthority
        cases ho : ExtHttp.parseAuthority S.libs st b after with
        | none => exact ⟨rfl, by simp⟩
        | some o =>
          rw [ho] at hauthority
          cases hauthority
      | ok o =>
        rw [hs] at hauthority
        cases ho : ExtHttp.parseAuthority S.libs st b after with
        | none =>
          rw [ho] at hauthority
          cases hauthority
        | some o' =>
          rw [ho] at hauthority
          cases hauthority
          exact parsePath_std hclosed o'.1 o'.2
    · rw [if_neg hslash]
      by_cases hc : c = slash
      · rw [if_pos hc, if_neg fun hd => hslash ⟨hc, hd⟩]
        exact hpath
      · rw [if_neg hc]
        exact hpath

theorem parseQuery_std (hafter : EndsUrl after) (st : UrlState) {rest : Bytes} {excess : ℕ}
    (hend : excess = 0 ∨ rest = []) :
    (parseQuery S .std st ((UrlCursor.on rest after).advance excess)).toOption =
        (ExtHttp.parseQuery st rest excess after).map
          (fun o => (o.1, (UrlCursor.on o.2.1 after).advance o.2.2)) ∧
      ∀ o ∈ ExtHttp.parseQuery st rest excess after, o.2.2 = 0 ∨ o.2.1 = [] := by
  have hread := @read_advance after rest excess
  unfold parseQuery ExtHttp.parseQuery
  rw [toOption_bind, hread]
  cases hc : (rest ++ after)[excess]? with
  | none => exact ⟨rfl, by simp⟩
  | some c =>
    simp only [Option.bind_some, Option.bind_eq_bind]
    by_cases hquestion : c = question
    · subst hquestion
      obtain ⟨rfl, r, rfl⟩ := next_char hend hc hafter.noQuestion
      have hnext : (UrlCursor.on (question :: r) after).advance 1 = .on r after :=
        UrlCursor.advance_on _ _ (by simp)
      simp only [ne_eq, not_true, if_false, UrlCursor.advance_zero, hnext]
      rw [toOption_bind, whileLoop_eq,
        scan_std (@textWord_std S after hafter.toClosed .query (by decide))]
      change Option.bind ((scanE isHash (onText (textWord S .std .query)) after () 0 r).map
        _).toOption _ = _ ∧ _
      cases hscan : scanE isHash (onText (textWord S .std .query)) after () 0 r with
      | error e => exact ⟨rfl, by simp [Except.toOption]⟩
      | ok o =>
        have hcur := @advance_outcome _ after _ _ _ _ _ hscan
        rw [← hnext, UrlCursor.advance_advance, Nat.add_comm 1] at hcur
        simp only [Except.map, Except.toOption, Option.bind_some, Option.map_some, hcur]
        refine ⟨trivial, fun p hp => ?_⟩
        cases hp
        by_cases hexcess : o.excess = 0
        · exact .inl hexcess
        · exact .inr (rest_nil (scanE_ok hscan) (Nat.pos_of_ne_zero hexcess))
    · rw [if_pos hquestion, if_pos hquestion]
      refine ⟨rfl, fun o ho => ?_⟩
      cases ho
      exact hend

theorem parseFragment_std (hafter : EndsUrl after) (st : UrlState) {rest : Bytes} {excess : ℕ}
    (hend : excess = 0 ∨ rest = []) :
    (parseFragment S .std st ((UrlCursor.on rest after).advance excess)).toOption.map Prod.fst =
      ExtHttp.parseFragment st rest excess after := by
  have hread := @read_advance after rest excess
  unfold parseFragment ExtHttp.parseFragment
  rw [toOption_bind, hread]
  cases hc : (rest ++ after)[excess]? with
  | none => rfl
  | some c =>
    simp only [Option.bind_some, Option.bind_eq_bind]
    by_cases hhash : c = hash
    · subst hhash
      obtain ⟨rfl, r, rfl⟩ := next_char hend hc hafter.noHash
      have hnext : (UrlCursor.on (hash :: r) after).advance 1 = .on r after :=
        UrlCursor.advance_on _ _ (by simp)
      have hword := fragmentWord_std (S := S) hafter.toClosed
      simp only [ne_eq, not_true, if_false, UrlCursor.advance_zero, hnext, fragmentScan]
      cases r with
      | nil =>
        obtain ⟨z, after, rfl⟩ := List.exists_cons_of_ne_nil hafter.ne
        have hloop : doLoop never (fragmentWord S .std) () (.on [] (z :: after)) =
            (fragmentWord S .std () (.on [] (z :: after))).map fun o =>
              ⟨o.1, o.2.2, o.2.1, false⟩ := rfl
        have hscan : scanDo never ExtHttp.fragmentWord (z :: after) () [] =
            (ExtHttp.fragmentWord () [] (z :: after)).map fun o => ⟨o.1, o.2.2, [], o.2.1⟩ := rfl
        rw [hloop, hscan, ← hword]
        cases fragmentWord S .std () (.on [] (z :: after)) <;> rfl
      | cons d r =>
        have hdo : scanDo never ExtHttp.fragmentWord after () (d :: r) =
            scan never ExtHttp.fragmentWord after () 0 (d :: r) := rfl
        rw [doLoop_on _ (List.cons_ne_nil d r), whileLoop_eq, hdo, scan_std hword]
        cases scanE never (onText (fragmentWord S .std)) after () 0 (d :: r) <;> rfl
    · rw [if_pos hhash, if_pos hhash]
      rfl

end

/-! ### The parsers -/

/-- With the standard flags the two parsers are the same one. -/
theorem urlParse_std (S : UrlSystem) {after : Bytes} (hafter : EndsUrl after) (str : Bytes) :
    (urlParse S .std str after).toOption = ExtHttp.urlParse S.libs str after := by
  obtain ⟨hhier, hhierEnd⟩ := parseHier_std (S := S) hafter
    (ExtHttp.parseScheme S.libs urlStart str after).1
    (ExtHttp.parseScheme S.libs urlStart str after).2
  unfold urlParse urlState ExtHttp.urlParse
  rw [parseScheme_std hafter.toClosed hafter.noColon, toOption_map]
  generalize ExtHttp.parseScheme S.libs urlStart str after = scheme at hhier hhierEnd ⊢
  change Option.map _ (Except.toOption (parseHier S .std scheme.1 (.on scheme.2 after) >>= _)) = _
  rw [toOption_bind, hhier]
  cases hier : ExtHttp.parseHier S.libs scheme.1 scheme.2 after with
  | none => simp [hier]
  | some o =>
    obtain ⟨hquery, hqueryEnd⟩ := parseQuery_std (S := S) hafter o.1 (hhierEnd o hier)
    simp only [Option.map_some, Option.bind_some, Option.bind_eq_bind, hier]
    rw [toOption_bind, hquery]
    cases query : ExtHttp.parseQuery o.1 o.2.1 o.2.2 after with
    | none => rfl
    | some o' =>
      have hfragment := parseFragment_std (S := S) hafter o'.1 (hqueryEnd o' query)
      simp only [Option.map_some, Option.bind_some, ← hfragment]
      cases (parseFragment S .std o'.1 ((UrlCursor.on o'.2.1 after).advance o'.2.2)).toOption <;>
        rfl

theorem urlParseAuthority_std (S : UrlSystem) {after : Bytes} (hafter : EndsUrl after)
    (str : Bytes) :
    (urlParseAuthority S .std str after).toOption = ExtHttp.urlParseAuthority S.libs str after := by
  have hignore : UrlFlags.ignoreErrors .std = false := by decide
  unfold urlParseAuthority ExtHttp.urlParseAuthority
  rw [toOption_bind, parseAuthority_std hafter.toClosed hafter.noAt]
  cases ExtHttp.parseAuthority S.libs urlStart str after with
  | none => rfl
  | some o =>
    have hleft : (UrlCursor.on o.2 after).left ≠ 0 ↔ ¬ o.2 = [] := by simp
    simp only [Option.map_some, Option.bind_some, Option.bind_eq_bind, hignore, and_true, hleft]
    by_cases hrest : o.2 = []
    · rw [if_neg (not_not.mpr hrest), if_pos hrest]
      rfl
    · rw [if_pos hrest, if_neg hrest]
      rfl

/-- What stands behind a C string, and behind the target of a request line. -/
example : EndsUrl [nul] ∧ EndsUrl (ascii " H") :=
  ⟨⟨⟨by decide, by decide⟩, by decide, by decide, by decide, by decide⟩,
    ⟨⟨by decide, by decide⟩, by decide, by decide, by decide, by decide⟩⟩

end UrlScanner

end ExtHttp
