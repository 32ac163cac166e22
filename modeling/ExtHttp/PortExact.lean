import ExtHttp.UrlAuthority

/-!
# The port of a URL

The port is kept in 16 bits, and a `:` may be taken for the end of a triple. So it is the numeral at
the end of the authority only if that fits and the digits that are seen come to the same.
-/
namespace ExtHttp
open Scan UrlState

variable {S : UrlSystem} {flags : UrlFlags} {st st' : UrlState}

/-- A URL that has been accepted, or an authority, and the text of its authority. -/
inductive Accepted (S : UrlSystem) (flags : UrlFlags) : Bytes → HttpUrl → Prop
  | url {str t : Bytes} {st : UrlState} {url : HttpUrl}
      (hscheme : UrlScanner.parseScheme S flags urlStart (.on str [nul]) =
        .ok (st, .on (slash :: slash :: t) [nul]))
      (h : UrlScanner.urlParse S flags str [nul] = .ok url) : Accepted S flags (authorityText t) url
  | authority {auth : Bytes} {url : HttpUrl} (h : UrlScanner.urlParseAuthority S flags auth [nul] =
    .ok url) :
      Accepted S flags auth url

namespace UrlScanner

/-! ### Behind the authority -/

theorem parsePath_port {cur cur' : UrlCursor} (h : parsePath S flags st cur = .ok (st', cur')) :
    st'.port = st.port := by
  obtain ⟨c, -, h⟩ := ok_eq_bind h
  split_ifs at h with hnul
  · cases h
    rfl
  · obtain ⟨path, -, h⟩ := ok_eq_bind h
    split_ifs at h <;> cases h <;> rfl

theorem parseQuery_port {cur cur' : UrlCursor} (h : parseQuery S flags st cur = .ok (st', cur')) :
    st'.port = st.port := by
  obtain ⟨c, -, h⟩ := ok_eq_bind h
  split_ifs at h with hnone
  · cases h
    rfl
  · obtain ⟨query, -, h⟩ := ok_eq_bind h
    cases h
    rfl

theorem parseFragment_port {cur cur' : UrlCursor}
    (h : parseFragment S flags st cur = .ok (st', cur')) :
    st'.port = st.port := by
  obtain ⟨c, -, h⟩ := ok_eq_bind h
  split_ifs at h with hnone
  · cases h
    rfl
  · obtain ⟨fragment, -, h⟩ := ok_eq_bind h
    cases h
    rfl

theorem parseHier_authority {t after : Bytes} {cur : UrlCursor}
    (h : parseHier S flags st (.on (slash :: slash :: t) after) = .ok (st', cur)) :
    ∃ st₁ cur₁, parseAuthority S flags st (.on t after) = .ok (st₁, cur₁) ∧
      parsePath S flags st₁ cur₁ = .ok (st', cur) := by
  obtain ⟨c, hc, h⟩ := ok_eq_bind h
  cases hc
  have hleft : 1 < (UrlCursor.on (slash :: slash :: t) after).left := by
    simp only [UrlCursor.on_left, List.length_cons]
    omega
  rw [if_pos ⟨rfl, hleft⟩] at h
  obtain ⟨d, hd, h⟩ := ok_eq_bind h
  cases hd
  rw [if_pos rfl] at h
  obtain ⟨⟨st₁, cur₁⟩, hauth, h⟩ := ok_eq_bind h
  have hnext : (UrlCursor.on (slash :: slash :: t) after).advance 2 = .on t after :=
    UrlCursor.advance_on _ _ (by simp)
  rw [hnext] at hauth
  exact ⟨st₁, cur₁, hauth, h⟩

/-- An authority that is accepted is one to its end. -/
theorem urlParseAuthority_ok (hignore : flags.ignoreErrors = false) {auth : Bytes} {url : HttpUrl}
    (h : urlParseAuthority S flags auth [nul] = .ok url) :
    ∃ st', parseAuthority S flags urlStart (.on auth [nul]) = .ok (st', .on [] [nul]) ∧
      authorityText auth = auth ∧ st'.url = url := by
  obtain ⟨⟨st', cur⟩, hauth, h⟩ := ok_eq_bind h
  have hleft : ¬ (cur.left ≠ 0 ∧ flags.ignoreErrors = false) := fun hleft => by
    cases (if_pos hleft).symm.trans h
  obtain rfl : st'.url = url := Except.ok.inj ((if_neg hleft).symm.trans h)
  obtain ⟨rest, ht, rfl, -⟩ := parseAuthority_ok hignore hauth
  obtain rfl : rest = [] := by
    by_contra hne
    refine hleft ⟨?_, hignore⟩
    simpa using hne
  rw [List.append_nil] at ht
  exact ⟨st', hauth, ht.symm, rfl⟩

end UrlScanner

/-- An accepted authority has been parsed without another component that has a port. -/
theorem Accepted.parsed {auth : Bytes} {url : HttpUrl} (h : Accepted S flags auth url)
    (hignore : flags.ignoreErrors = false) : ∃ t st st' cur scheme, auth = authorityText t ∧
      st.Shows { noUrl with scheme := scheme } ∧
      UrlScanner.parseAuthority S flags st (.on t [nul]) = .ok (st', cur) ∧
        url.port = st'.port := by
  cases h with
  | @url str t st url hscheme h =>
    obtain ⟨⟨st₃, cur₃⟩, hstate, rfl⟩ := ok_eq_map h
    obtain ⟨o, ho, hstate⟩ := ok_eq_bind hstate
    rw [hscheme] at ho
    cases ho
    obtain ⟨⟨st₁, cur₁⟩, hhier, hstate⟩ := ok_eq_bind hstate
    obtain ⟨⟨st₂, cur₂⟩, hquery, hfragment⟩ := ok_eq_bind hstate
    obtain ⟨st', cur', hauth, hpath⟩ := UrlScanner.parseHier_authority hhier
    obtain ⟨scheme, hshows⟩ := UrlScanner.parseScheme_shows hscheme
    refine ⟨t, st, st', cur', scheme, rfl, hshows, hauth, ?_⟩
    exact (UrlScanner.parseFragment_port hfragment).trans
      ((UrlScanner.parseQuery_port hquery).trans (UrlScanner.parsePath_port hpath))
  | authority h =>
    obtain ⟨st', hauth, htext, rfl⟩ := UrlScanner.urlParseAuthority_ok hignore h
    exact ⟨auth, urlStart, st', _, none, htext.symm, UrlScanner.urlStart_shows, hauth, rfl⟩

theorem foldl_portStep {digits : Bytes} (h : ∀ c ∈ digits, isDigit c = true) :
    digits.foldl portStep 0 = numeral 10 digits % 2 ^ 16 :=
  port_digits_eq h (n := 0)

/-- The port is the digits outside of triples behind the `:` at which the name ends, in 16 bits. -/
theorem Accepted.port {auth : Bytes} {url : HttpUrl} (h : Accepted S flags auth url)
    (hignore : flags.ignoreErrors = false) : url.port =
      numeral 10 (portDigits 0 ((portText S flags (givenHostinfo auth)).getD [])) % 2 ^ 16 := by
  obtain ⟨t, st, st', cur, scheme, rfl, hshows, hauth, hport⟩ := h.parsed hignore
  obtain ⟨rest, -, -, hurl⟩ := UrlScanner.parseAuthority_url hignore hshows ⟨rfl, rfl, rfl⟩ hauth
  have hstate : st'.port = st'.url.port := rfl
  rw [hport, hstate]
  split_ifs at hurl with hempty
  · have hzero : (UrlScanner.withUserinfo S flags { noUrl with scheme := scheme }
        (authorityText t)).port = 0 := by
      unfold UrlScanner.withUserinfo
      split <;> rfl
    rw [hurl, hzero, hempty]
    rfl
  · obtain ⟨name, k, host, -, -, hdigits, hurl⟩ := hurl
    rw [hurl]
    exact foldl_portStep hdigits

/-- The port is the numeral at the end of the authority exactly if that fits, and the name ends at
the `:` in front of it or the digits behind that at which it ends make the same number in 16
bits. -/
theorem port_exact_iff (hignore : flags.ignoreErrors = false) {front digits : Bytes} {url : HttpUrl}
    (hdigits : ∀ c ∈ digits, isDigit c = true)
    (h : Accepted S flags (front ++ colon :: digits) url) :
    (url.port = numeral 10 digits ∧ numeral 10 digits ≤ 65535) ↔ numeral 10 digits ≤ 65535 ∧
      (portText S flags (givenHostinfo (front ++ colon :: digits)) = some digits ∨
        numeral 10
          (portDigits 0 ((portText S flags (givenHostinfo (front ++ colon :: digits))).getD [])) ≡
          numeral 10 digits [MOD 2 ^ 16]) := by
  rw [h.port hignore, Nat.ModEq]
  constructor
  · rintro ⟨hport, hle⟩
    exact ⟨hle, .inr (by rw [hport, Nat.mod_eq_of_lt (by omega)])⟩
  · rintro ⟨hle, hsame⟩
    refine ⟨?_, hle⟩
    have hmod : numeral 10 digits % 2 ^ 16 = numeral 10 digits := Nat.mod_eq_of_lt (by omega)
    rcases hsame with htext | hsame
    · have hplain : percent ∉ digits := fun hmem => absurd (hdigits _ hmem) (by decide)
      rw [htext, Option.getD_some, (portDigits_plain hplain).2, hmod]
    · rw [hsame, hmod]

theorem port_exact_eighty : Accepted plainSystem .std (ascii "h" ++ colon :: ascii "80")
    ⟨none, none, none, some (ascii "h"), 80, none, none, none⟩ ∧ 80 = numeral 10 (ascii "80") ∧
      numeral 10 (ascii "80") ≤ 65535 := by
  have haccepted : UrlScanner.urlParseAuthority plainSystem .std
      (ascii "h" ++ colon :: ascii "80") [nul] =
      .ok ⟨none, none, none, some (ascii "h"), 80, none, none, none⟩ := by decide
  have hdigits : ∀ c ∈ ascii "80", isDigit c = true := List.all_eq_true.mp (by decide)
  have htext : portText plainSystem .std (givenHostinfo (ascii "h" ++ colon :: ascii "80")) =
      some (ascii "80") := by
    decide
  exact ⟨.authority haccepted, (port_exact_iff (by decide) hdigits (.authority haccepted)).mpr
    ⟨by decide, .inl htext⟩⟩

/-- A port that is too large is wrapped. -/
theorem port_wraps : ∃ url, Accepted plainSystem .std (ascii "h" ++ colon :: ascii "70000") url ∧
    (∀ c ∈ ascii "70000", isDigit c = true) ∧ url.port = 4464 ∧
      ¬ (url.port = numeral 10 (ascii "70000") ∧ numeral 10 (ascii "70000") ≤ 65535) := by
  refine ⟨⟨none, none, none, some (ascii "h"), 4464, none, none, none⟩, .authority ?_, ?_,
    rfl, ?_⟩ <;>
  decide +kernel

end ExtHttp
