import ExtHttp.HeaderText

/-!
# What a start line looks like

The lines that `php_http_info_parse` takes, described by their text and by what comes behind them,
where the version and the code of a short line are read.
-/
namespace ExtHttp

/-! ### The version -/

/-- The text of a version in the memory behind `HTTP/`, and its length: two digits with a separator,
or a single one above 1 that no `.` follows if it is 2. Behind a single digit stands a space, or one
more digit after the next byte. -/
inductive VersionText (m : Bytes) : ℕ → Prop
  | two : isDigit (byteAt m 0) = true → byteAt m 1 ≠ space → isDigit (byteAt m 2) = true →
      byteAt m 0 < 50 ∨ byteAt m 0 = 50 ∧ byteAt m 1 = dot → VersionText m 3
  | one : isDigit (byteAt m 0) = true → 50 ≤ byteAt m 0 → ¬ (byteAt m 0 = 50 ∧ byteAt m 1 = dot) →
      byteAt m 1 = space ∨ isDigit (byteAt m 2) = true → VersionText m 1

/-- Where `php_http_info_parse` looks behind a version. -/
def versionStop (version : Version) (m : Bytes) : ℕ :=
  if version.major < 2 ∨ version.major = 2 ∧ byteAt m 1 = dot then 3 else 1

theorem versionParse_httpSlash (m : Bytes) : versionParse (httpSlash ++ m) =
    (decimal (byteAt m 0)).bind fun major =>
      if byteAt m 1 = space then if 1 < major then some ⟨major, 0⟩ else none
      else (decimal (byteAt m 2)).bind fun minor => some ⟨major, minor⟩ := rfl

theorem decimal_eq_some {c : Byte} {n : ℕ} :
    decimal c = some n ↔ isDigit c = true ∧ n = c.toNat - 48 := by
  unfold decimal
  split_ifs with h <;> simp [h, eq_comm]

theorem isDigit_iff {c : Byte} : isDigit c = true ↔ 48 ≤ c.toNat ∧ c.toNat ≤ 57 := by
  simp [isDigit, UInt8.le_iff_toNat_le]

theorem versionStop_iff {c : Byte} (hc : isDigit c = true) (minor : ℕ) (m : Bytes) :
    (c < 50 ∨ c = 50 ∧ byteAt m 1 = dot → versionStop ⟨c.toNat - 48, minor⟩ m = 3) ∧
      (¬ (c < 50 ∨ c = 50 ∧ byteAt m 1 = dot) → versionStop ⟨c.toNat - 48, minor⟩ m = 1) := by
  obtain ⟨hlo, hhi⟩ := isDigit_iff.mp hc
  have hlt : c < 50 ↔ c.toNat - 48 < 2 := by
    rw [UInt8.lt_iff_toNat_lt]
    change c.toNat < 50 ↔ _
    omega
  have heq : c = 50 ↔ c.toNat - 48 = 2 := by
    rw [← UInt8.toNat_inj]
    change c.toNat = 50 ↔ _
    omega
  rw [hlt, heq]
  exact ⟨fun h => if_pos h, fun h => if_neg h⟩

theorem versionText_iff {m : Bytes} {n : ℕ} :
    VersionText m n ↔ ∃ v, versionParse (httpSlash ++ m) = some v ∧ n = versionStop v m := by
  rw [versionParse_httpSlash]
  constructor
  · rintro (⟨hmajor, hsep, hminor, hlow⟩ | ⟨hmajor, hhigh, hdot, hnext⟩)
    · refine ⟨⟨(byteAt m 0).toNat - 48, (byteAt m 2).toNat - 48⟩, ?_,
        ((versionStop_iff hmajor _ m).1 hlow).symm⟩
      rw [decimal_eq_some.mpr ⟨hmajor, rfl⟩, Option.bind_some, if_neg hsep,
        decimal_eq_some.mpr ⟨hminor, rfl⟩, Option.bind_some]
    · have hstop := fun minor => (versionStop_iff hmajor minor m).2
        (not_or.mpr ⟨UInt8.not_lt.mpr hhigh, hdot⟩)
      have hone : 1 < (byteAt m 0).toNat - 48 := by
        have := UInt8.le_iff_toNat_le.mp hhigh
        change 50 ≤ _ at this
        omega
      rw [decimal_eq_some.mpr ⟨hmajor, rfl⟩, Option.bind_some]
      by_cases hsep : byteAt m 1 = space
      · exact ⟨⟨(byteAt m 0).toNat - 48, 0⟩, by rw [if_pos hsep, if_pos hone], (hstop _).symm⟩
      · have hminor := hnext.resolve_left hsep
        refine ⟨⟨(byteAt m 0).toNat - 48, (byteAt m 2).toNat - 48⟩, ?_, (hstop _).symm⟩
        rw [if_neg hsep, decimal_eq_some.mpr ⟨hminor, rfl⟩, Option.bind_some]
  · rintro ⟨v, hv, rfl⟩
    obtain ⟨major, hmajor, hv⟩ := Option.bind_eq_some_iff.mp hv
    obtain ⟨hdigit, rfl⟩ := decimal_eq_some.mp hmajor
    have hstop := fun minor => versionStop_iff hdigit minor m
    by_cases hlow : byteAt m 0 < 50 ∨ byteAt m 0 = 50 ∧ byteAt m 1 = dot
    · by_cases hsep : byteAt m 1 = space
      · rw [if_pos hsep] at hv
        rcases hlow with hlow | ⟨-, hdot⟩
        · have hle : ¬ 1 < (byteAt m 0).toNat - 48 := by
            have := UInt8.lt_iff_toNat_lt.mp hlow
            change _ < 50 at this
            omega
          rw [if_neg hle] at hv
          cases hv
        · exact absurd (hsep.symm.trans hdot) (by decide)
      · rw [if_neg hsep] at hv
        obtain ⟨minor, hminor, hv⟩ := Option.bind_eq_some_iff.mp hv
        cases hv
        rw [(hstop _).1 hlow]
        exact .two hdigit hsep (decimal_eq_some.mp hminor).1 hlow
    · obtain ⟨hhigh, hdot⟩ := not_or.mp hlow
      have hone : ∀ minor, versionStop ⟨(byteAt m 0).toNat - 48, minor⟩ m = 1 := fun minor =>
        (hstop minor).2 hlow
      by_cases hsep : byteAt m 1 = space
      · rw [if_pos hsep] at hv
        split_ifs at hv
        cases hv
        rw [hone]
        exact .one hdigit (UInt8.not_lt.mp hhigh) hdot (.inl hsep)
      · rw [if_neg hsep] at hv
        obtain ⟨minor, hminor, hv⟩ := Option.bind_eq_some_iff.mp hv
        cases hv
        rw [hone]
        exact .one hdigit (UInt8.not_lt.mp hhigh) hdot (.inr (decimal_eq_some.mp hminor).1)

/-! ### The line -/

theorem drop_httpSlash (m : Bytes) (n : ℕ) : (httpSlash ++ m).drop (5 + n) = m.drop n := by
  have h : (httpSlash ++ m).drop (httpSlash.length + n) = m.drop n := List.drop_length_add_append n
  exact h

section Line
variable {Url : Type} {P : UrlParsers Url} {line behind pre t : Bytes}

theorem infoParse_eq (hline : firstLine (line ++ behind) = line)
    (hpre : line = pre ++ (httpSlash ++ t)) (hloc : locateStr httpSlash line = some pre.length) :
    infoParse P (line ++ behind) = (versionParse (httpSlash ++ (t ++ behind))).bind fun v =>
        let stop := byteAt (t ++ behind) (versionStop v (t ++ behind))
        if stop ≠ nul ∧ isSpace stop = false then none
        else if pre = [] then
          responseParse v (line ++ behind) line.length (5 + versionStop v (t ++ behind))
        else if pre.getLast? = some space ∧ (stop = nul ∨ isEol stop = true) then requestParse P v
          pre
        else none := by
  have hdrop : (line ++ behind).drop pre.length = httpSlash ++ (t ++ behind) := by
    rw [hpre, List.append_assoc, List.drop_left', List.append_assoc]
    rfl
  have hbyte : ∀ i, byteAt (line ++ behind) (pre.length + (5 + i)) = byteAt (t ++ behind) i := by
    intro i
    rw [byteAt_eq_headD, byteAt_eq_headD, ← List.drop_drop, hdrop]
    exact congrArg (·.headD nul) (drop_httpSlash (t ++ behind) i)
  have hlast : pre ≠ [] → (byteAt (line ++ behind) (pre.length - 1) = space ↔
      pre.getLast? = some space) := by
    intro hne
    have hlt : pre.length - 1 < pre.length := Nat.sub_lt (List.length_pos_of_ne_nil hne) Nat.one_pos
    rw [hpre, List.append_assoc, byteAt_append hlt, byteAt, List.getD_eq_getElem _ _ hlt,
      List.getLast?_eq_getElem?, List.getElem?_eq_getElem hlt, Option.some.injEq]
  have htake : line.take pre.length = pre := by rw [hpre, List.take_left']; rfl
  have hstop : ∀ v : Version, (if v.major < 2 ∨ v.major = 2 ∧
      byteAt (line ++ behind) (pre.length + 6) = 46
      then pre.length + 6 + 2 else pre.length + 6) =
        pre.length + (5 + versionStop v (t ++ behind)) := by
    intro v
    rw [hbyte 1, versionStop, dot]
    split_ifs <;> rfl
  unfold infoParse
  rw [hline]
  simp only [hloc, Option.bind_eq_bind, Option.bind_some, hdrop, htake, hstop, hbyte]
  refine Option.bind_congr fun v _ => ?_
  refine if_congr Iff.rfl rfl ?_
  by_cases hne : pre = []
  · simp [hne]
  · rw [if_neg (fun h => hne (List.length_eq_zero_iff.mp h)), if_neg hne]
    exact if_congr (and_congr_left fun _ => hlast hne) rfl rfl

/-- What a status code is computed as. -/
def statusSum (m : Bytes) : ℤ :=
  100 * (charVal (byteAt m 0) - 48) + 10 * (charVal (byteAt m 1) - 48) + (charVal (byteAt m 2) - 48)

/-- What is behind the spaces. -/
def word (t : Bytes) : Bytes := t.dropWhile (· = space)

theorem responseParse_eq (hline : firstLine (line ++ behind) = line) (v : Version) (off : ℕ) :
    (responseParse v (line ++ behind) line.length off : Option (Info Url)) =
      let w := word (line.drop off)
      if w = [] then some (.response v 0 none)
      else if 100 ≤ statusSum (w ++ behind) ∧ statusSum (w ++ behind) ≤ 599 then
        some (.response v (statusSum (w ++ behind)).toNat
          (if 3 < w.length then some (word (w.drop 3)) else none))
      else none := by
  have hsplit := List.takeWhile_append_dropWhile (p := (· = space)) (l := line.drop off)
  unfold responseParse
  rw [hline]
  dsimp only
  change (line.drop off).takeWhile (· = space) ++ word (line.drop off) = line.drop off at hsplit
  generalize (line.drop off).takeWhile (· = space) = blanks, word (line.drop off) = w at hsplit ⊢
  have hdrop : line.drop (off + blanks.length) = w := by
    rw [← List.drop_drop, ← hsplit, List.drop_left]
  have hlength : w.length = line.length - (off + blanks.length) := by rw [← hdrop, List.length_drop]
  have hiff : off + blanks.length < line.length ↔ w ≠ [] := by
    rw [← List.length_pos_iff, hlength]
    omega
  by_cases hw : w = []
  · rw [if_neg (fun h => hiff.mp h hw), if_pos hw]
  have hlt := hiff.mpr hw
  have hbyte : ∀ i, byteAt (line ++ behind) (off + blanks.length + i) = byteAt (w ++ behind) i := by
    intro i
    rw [byteAt_eq_headD, byteAt_eq_headD, ← List.drop_drop,
      List.drop_append_of_le_length hlt.le, hdrop]
  have hthree : off + blanks.length + 3 < line.length ↔ 3 < w.length := by omega
  have hstatus : line.drop (off + blanks.length + 3) = w.drop 3 := by rw [← List.drop_drop, hdrop]
  have hcode := hbyte 0
  rw [Nat.add_zero] at hcode
  rw [if_pos hlt, if_neg hw, hcode, hbyte 1, hbyte 2, hstatus]
  refine if_congr Iff.rfl ?_ rfl
  rw [if_congr hthree rfl rfl]
  rfl

theorem locateStr_eq_zero {needle hay : Bytes} (h : needle ≠ []) :
    locateStr needle hay = some 0 ↔ needle <+: hay := by
  cases hay with
  | nil => simp [locateStr, h]
  | cons c hay =>
    rw [locateStr]
    split_ifs with hpre <;> simp [hpre]

/-- What the line of a response is taken for. -/
theorem infoParse_status (hline : firstLine (httpSlash ++ t ++ behind) = httpSlash ++ t) {n : ℕ}
    {v : Version} (hv : versionParse (httpSlash ++ (t ++ behind)) = some v)
    (hn : n = versionStop v (t ++ behind))
    (hstop : byteAt (t ++ behind) n = nul ∨ isSpace (byteAt (t ++ behind) n) = true) :
    infoParse P (httpSlash ++ t ++ behind) =
      let w := word (t.drop n)
      if w = [] then some (.response v 0 none)
      else if 100 ≤ statusSum (w ++ behind) ∧ statusSum (w ++ behind) ≤ 599 then
        some (.response v (statusSum (w ++ behind)).toNat
          (if 3 < w.length then some (word (w.drop 3)) else none))
      else none := by
  have hloc : locateStr httpSlash (httpSlash ++ t) = some ([] : Bytes).length :=
    (locateStr_eq_zero (by decide)).mpr (List.prefix_append _ _)
  have hdrop := drop_httpSlash t n
  rw [infoParse_eq hline rfl hloc, hv, Option.bind_some]
  dsimp only
  rw [← hn, if_neg (fun h => by rcases hstop with hs | hs <;> simp [hs] at h), if_pos rfl,
    responseParse_eq hline, hdrop]

/-- A line with `HTTP/` in it, and where it is first. -/
theorem locateStr_split {i : ℕ} (h : locateStr httpSlash line = some i) :
    ∃ pre t, line = pre ++ (httpSlash ++ t) ∧ pre.length = i := by
  obtain ⟨t, ht⟩ := locateStr_spec h
  refine ⟨line.take i, t, by rw [ht, List.take_append_drop], ?_⟩
  have hlength := congrArg List.length ht
  simp only [httpSlash, List.length_append, List.length_drop, List.length_cons] at hlength
  rw [List.length_take]
  omega

/-- How a line comes to be taken for a start line. -/
theorem infoParse_cases (hline : firstLine (line ++ behind) = line) {info : Info Url}
    (h : infoParse P (line ++ behind) = some info) : ∃ pre t v, line = pre ++ (httpSlash ++ t) ∧
      locateStr httpSlash line = some pre.length ∧
      versionParse (httpSlash ++ (t ++ behind)) = some v ∧
      let stop := byteAt (t ++ behind) (versionStop v (t ++ behind))
      (pre = [] ∧ (stop = nul ∨ isSpace stop = true) ∨
        pre.getLast? = some space ∧ (stop = nul ∨ isEol stop = true) ∧
          requestParse P v pre = some info) := by
  cases hloc : locateStr httpSlash line with
  | none =>
    have hinfix : ¬ httpSlash <:+: firstLine (line ++ behind) := by
      rw [hline]
      exact locateStr_eq_none.mp hloc
    have hnone := infoParse_of_not_infix P hinfix
    rw [hnone] at h
    cases h
  | some i =>
    obtain ⟨pre, t, hpre, rfl⟩ := locateStr_split hloc
    rw [infoParse_eq hline hpre hloc] at h
    obtain ⟨v, hv, h⟩ := Option.bind_eq_some_iff.mp h
    refine ⟨pre, t, v, hpre, rfl, hv, ?_⟩
    dsimp only at h ⊢
    split_ifs at h with hstop hempty hreq
    · refine .inl ⟨hempty, ?_⟩
      by_cases hnul : byteAt (t ++ behind) (versionStop v (t ++ behind)) = nul
      · exact .inl hnul
      · exact .inr (by simpa [hnul] using hstop)
    · exact .inr ⟨hreq.1, hreq.2, h⟩

theorem requestParse_request {v : Version} {info : Info Url}
    (h : requestParse P v pre = some info) :
    ∃ method url, info = .request v method url := by
  unfold requestParse at h
  dsimp only at h
  split_ifs at h
  · obtain ⟨url, -, rfl⟩ := Option.map_eq_some_iff.mp h
    exact ⟨_, _, rfl⟩
  · obtain ⟨url, -, rfl⟩ := Option.map_eq_some_iff.mp h
    exact ⟨_, _, rfl⟩

/-- Only a line that begins with `HTTP/` and a version is taken for that of a response. -/
theorem infoParse_response (hline : firstLine (line ++ behind) = line) {v : Version} {code : ℕ}
    {status : Option Bytes} (h : infoParse P (line ++ behind) = some (.response v code status)) :
    ∃ t, line = httpSlash ++ t ∧ versionParse (httpSlash ++ (t ++ behind)) = some v ∧
      (byteAt (t ++ behind) (versionStop v (t ++ behind)) = nul ∨
        isSpace (byteAt (t ++ behind) (versionStop v (t ++ behind))) = true) := by
  obtain ⟨pre, t, v', rfl, -, hv, ⟨rfl, hstop⟩ | ⟨-, -, hreq⟩⟩ := infoParse_cases hline h
  · have hparse := h
    rw [List.nil_append] at hline hparse ⊢
    rw [infoParse_status hline hv rfl hstop] at hparse
    obtain rfl : v' = v := by
      dsimp only at hparse
      split_ifs at hparse <;> cases hparse <;> rfl
    exact ⟨t, rfl, hv, hstop⟩
  · obtain ⟨method, url, heq⟩ := requestParse_request hreq
    cases heq

end Line

/-! ### The status code -/

/-- A word of three digits, and what is behind it. -/
def ThreeDigits (w : Bytes) : Prop := ∃ a b c tail, w = a :: b :: c :: tail ∧
  (isDigit a = true ∧ isDigit b = true ∧ isDigit c = true) ∧ ∀ d ∈ tail.head?, isBlank d = true

/-- Where a status line is taken and its version is not the end of it, three digits follow that are
the code. The status is from behind them. -/
def StatusExact {Url : Type} (P : UrlParsers Url) (mem : Bytes) : Prop :=
  ∀ v code status, infoParse P mem = some (.response v code status) →
    let rest := (firstLine mem).drop (5 + versionStop v (mem.drop 5))
    rest ≠ [] → ∃ a b c tail, word rest = a :: b :: c :: tail ∧
      (isDigit a = true ∧ isDigit b = true ∧ isDigit c = true) ∧
      (code = 100 * (a.toNat - 48) + 10 * (b.toNat - 48) + (c.toNat - 48) ∧ 100 ≤ code ∧
        code ≤ 599) ∧
      (∀ d ∈ tail.head?, isBlank d = true) ∧ ∀ s ∈ status, s <:+ tail

/-- The word behind the version has three digits; or the three bytes there, which may be behind the
end of the line, come to no status code. -/
def StatusWord (mem : Bytes) : Prop :=
  ∀ t n, firstLine mem = httpSlash ++ t → VersionText (mem.drop 5) n →
    byteAt (mem.drop 5) n = nul ∨ isSpace (byteAt (mem.drop 5) n) = true → t.drop n ≠ [] →
    ThreeDigits (word (t.drop n)) ∨ word (t.drop n) ≠ [] ∧
      ¬ (100 ≤ statusSum (word (mem.drop (5 + n))) ∧ statusSum (word (mem.drop (5 + n))) ≤ 599)

theorem firstLine_split (mem : Bytes) : ∃ behind, mem = firstLine mem ++ behind ∧
    firstLine (firstLine mem ++ behind) = firstLine mem ∧
      ∀ c ∈ behind.head?, c = nul ∨ isEol c = true := by
  have hsplit : firstLine mem ++ mem.dropWhile _ = mem := List.takeWhile_append_dropWhile
  refine ⟨_, hsplit.symm, by rw [hsplit], fun c hc => ?_⟩
  have hnot := List.head?_dropWhile_not (fun c => c ≠ nul && !isEol c) mem
  rw [Option.mem_def.mp hc] at hnot
  by_cases hnul : c = nul
  · exact .inl hnul
  · exact .inr (by simpa [hnul] using hnot)

theorem word_drop_append {t : Bytes} {n : ℕ} (hrest : t.drop n ≠ []) (h : word (t.drop n) ≠ [])
    (behind : Bytes) : word ((t ++ behind).drop n) = word (t.drop n) ++ behind := by
  have hle : n ≤ t.length := by
    by_contra hlt
    exact hrest (List.drop_eq_nil_of_le (Nat.le_of_not_le hlt))
  rw [List.drop_append_of_le_length hle, word, List.dropWhile_append,
    if_neg (by simpa [word] using h)]
  rfl

theorem statusSum_digits {a b c : Byte} (ha : isDigit a = true) (hb : isDigit b = true)
    (hc : isDigit c = true) (tail : Bytes) : statusSum (a :: b :: c :: tail) =
      ((100 * (a.toNat - 48) + 10 * (b.toNat - 48) + (c.toNat - 48) : ℕ) : ℤ) := by
  have hval : ∀ d : Byte, isDigit d = true → charVal d - 48 = ((d.toNat - 48 : ℕ) : ℤ) := by
    intro d hd
    obtain ⟨hlo, hhi⟩ := isDigit_iff.mp hd
    rw [charVal, if_pos (by omega)]
    omega
  change 100 * (charVal a - 48) + 10 * (charVal b - 48) + (charVal c - 48) = _
  rw [hval a ha, hval b hb, hval c hc]
  push_cast
  ring

/-- Status codes are three digits in every line exactly if the word where the code is expected has
three digits, or it comes to no code at all. -/
theorem statusExact_iff {Url : Type} (P : UrlParsers Url) (mem : Bytes) :
    StatusExact P mem ↔ StatusWord mem := by
  obtain ⟨behind, hmem, hline, -⟩ := firstLine_split mem
  generalize firstLine mem = line at hmem hline
  subst hmem
  unfold StatusExact StatusWord
  rw [hline]
  constructor
  · rintro h t n rfl hn hstop hrest
    obtain ⟨v, hv, hnv⟩ := versionText_iff.mp hn
    rw [List.append_assoc] at hv hnv hstop ⊢
    rw [drop_httpSlash (t ++ behind) 0, List.drop_zero] at hv hnv hstop
    have hparse := infoParse_status (P := P) hline hv hnv hstop
    have hexact := h v
    rw [List.append_assoc, drop_httpSlash (t ++ behind) 0, List.drop_zero, ← hnv,
      drop_httpSlash] at hexact
    rw [drop_httpSlash]
    by_cases hw : word (t.drop n) = []
    · rw [hw] at hparse
      obtain ⟨a, b, c, tail, habc, -⟩ := hexact 0 none (by simpa using hparse) hrest
      rw [hw] at habc
      cases habc
    · rw [word_drop_append hrest hw]
      by_cases hrange : 100 ≤ statusSum (word (t.drop n) ++ behind) ∧
          statusSum (word (t.drop n) ++ behind) ≤ 599
      · dsimp only at hparse
        rw [if_neg hw, if_pos hrange] at hparse
        obtain ⟨a, b, c, tail, habc, hdigits, -, htail, -⟩ :=
          hexact _ _ (by simpa using hparse) hrest
        exact .inl ⟨a, b, c, tail, habc, hdigits, htail⟩
      · exact .inr ⟨hw, hrange⟩
  · intro h v code status hparse rest hrest
    obtain ⟨t, rfl, hv, hstop⟩ := infoParse_response hline hparse
    rw [infoParse_status hline hv rfl hstop] at hparse
    have hn := versionText_iff.mpr ⟨v, hv, rfl⟩
    have hmem : (httpSlash ++ t ++ behind).drop 5 = t ++ behind := by
      rw [List.append_assoc, drop_httpSlash (t ++ behind) 0, List.drop_zero]
    have hrest' : rest = t.drop (versionStop v (t ++ behind)) := by
      simp only [rest, hmem, drop_httpSlash]
    rw [hrest'] at hrest ⊢
    have hword := h t _ rfl (by rwa [hmem]) (by rwa [hmem]) hrest
    rw [List.append_assoc, drop_httpSlash] at hword
    generalize versionStop v (t ++ behind) = n at hparse hrest hword ⊢
    rcases hword with ⟨a, b, c, tail, hw, ⟨ha, hb, hc⟩, htail⟩ | ⟨hw, hsum⟩
    · rw [hw] at hparse ⊢
      simp only [reduceCtorEq, if_false, List.cons_append, statusSum_digits ha hb hc,
        Int.toNat_natCast] at hparse
      split_ifs at hparse with hrange hlen
      all_goals
        cases hparse
        refine ⟨a, b, c, tail, rfl, ⟨ha, hb, hc⟩, ⟨rfl, by omega, by omega⟩, htail, ?_⟩
      · rintro s ⟨⟩
        exact List.dropWhile_suffix _
      · simp
    · rw [word_drop_append hrest hw] at hsum
      simp [hw, hsum] at hparse

/-- A colon is taken for a digit that is worth ten. -/
theorem status_not_exact : ¬ StatusExact rawUrls (ascii "HTTP/1.1 1:0\r\n") := by
  have hparse : infoParse rawUrls (ascii "HTTP/1.1 1:0\r\n") =
      some (.response ⟨1, 1⟩ 200 none) := by
    decide +kernel
  intro h
  obtain ⟨a, b, c, tail, habc, ⟨-, hb, -⟩, -⟩ := h _ _ _ hparse (by decide)
  have hword : word ((firstLine (ascii "HTTP/1.1 1:0\r\n")).drop (5 + versionStop ⟨1, 1⟩
      ((ascii "HTTP/1.1 1:0\r\n").drop 5))) = [49, colon, 48] := by decide +kernel
  rw [hword] at habc
  cases habc
  exact absurd hb (by decide)

end ExtHttp
