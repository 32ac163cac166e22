import ExtHttp.PortExact
import ExtHttp.UrlTail

/-!
# What is kept of an authority

An authority as it should come out of its components: addresses and names converted, user info
percent-encoded, ports without leading zeros, and nothing else left out.
`php_http_url_authority_to_string` gives it back only where the parser has left nothing out.
-/
namespace ExtHttp
open Scan UrlState

section
variable (S : UrlSystem) (flags : UrlFlags)

/-- A user info as it should come out, without a password that is empty. -/
def userSpelling (userinfo : Bytes) : Bytes :=
  (urlCut S flags userinfo).text ++
    passPart ((urlCut S flags userinfo).behind.elim [] fun pass =>
      (urlCut S flags pass).text) ++ [atSign]

/-- The last name or password of a user info, by how many bytes its last triple is longer. -/
def userExcess (userinfo : Bytes) : ℕ :=
  (urlCut S flags userinfo).behind.elim (urlCut S flags userinfo).excess fun pass =>
    (urlCut S flags pass).excess

/-- Name and port, or an address and a port behind it. -/
def hostParts (hostinfo : Bytes) : Option (Bytes × Option Bytes) :=
  if hostinfo.head? = some 91 then
    (ip6Text S.libs hostinfo).bind fun o => match o.2 with
      | [] => some (o.1, none)
      | c :: port => if c = colon then some (o.1, some port) else none
  else some ((urlCut S flags hostinfo).raw, (urlCut S flags hostinfo).behind)

/-- A port as it should come out: no port if it is empty. -/
def portSpelling (port : Option Bytes) : Option Bytes :=
  let digits := port.getD []
  if digits.all isDigit then some (if digits ≠ [] then colon :: formatLong (numeral 10 digits)
    else []) else none

/-- A host info as it should come out. -/
def hostSpelling (hostinfo : Bytes) : Option Bytes :=
  if hostinfo = [] then some []
  else do
    let (name, port) ← hostParts S flags hostinfo
    let host ← idnHost S flags name
    let port ← portSpelling port
    some (host ++ port)

/-- An authority as it should come out. -/
def authoritySpelling (auth : Bytes) : Option Bytes :=
  (hostSpelling S flags (givenHostinfo auth)).map fun host =>
    (givenUserinfo auth).elim [] (userSpelling S flags) ++ host

/-- Nothing is left out: there is a user in front of an `@`, and no triple takes that; there is
nothing but a port behind an address; a port has no triples, and is none or a number that fits, with
a host in front of it. -/
structure AuthorityKept (auth : Bytes) : Prop where
  user : ∀ userinfo ∈ givenUserinfo auth, ¬ Userless userinfo ∧ userExcess S flags userinfo = 0
  host : givenHostinfo auth ≠ [] → ∃ name port,
    hostParts S flags (givenHostinfo auth) = some (name, port) ∧
    (∀ c ∈ port.getD [], isDigit c = true) ∧
    (port.getD [] ≠ [] → 0 < numeral 10 (port.getD []) ∧ numeral 10 (port.getD []) ≤ 65535 ∧
      idnHost S flags name ≠ some [])

end

variable {S : UrlSystem} {flags : UrlFlags}

/-! ### Cuts -/

theorem spelled_noNul {encoded : Bool} {b : Bytes} (h : nul ∉ b) : nul ∉ spelled encoded b := by
  cases encoded
  · exact h
  · exact nul_notMem_pctEncode b

theorem urlCut_noNul {b : Bytes} (h : nul ∉ b) : nul ∉ (urlCut S flags b).text := by
  have hfrom : ∀ skip encoded, nul ∉ (cutFrom S flags skip encoded b).text := by
    induction b with
    | nil => intro skip encoded; cases skip <;> simp [cutFrom]
    | cons c b ih =>
      intro skip encoded
      have hc : nul ∉ [c] := fun hmem => h (List.mem_cons.mpr (.inl (List.mem_singleton.mp hmem)))
      have hb : nul ∉ b := fun hmem => h (List.mem_cons_of_mem _ hmem)
      have hpush : ∀ encoded (cut : UrlCut), nul ∉ cut.text → nul ∉ (cut.push encoded [c]).text :=
        fun encoded cut hcut hmem =>
          (List.mem_append.mp hmem).elim (spelled_noNul hc) hcut
      cases skip with
      | succ skip => exact hpush _ _ (ih hb _ _)
      | zero =>
        rw [cutFrom]
        split_ifs with hcolon
        · exact List.not_mem_nil
        · exact hpush _ _ (ih hb _ _)
  exact hfrom 0 false

/-- No word is cut by the `:` that ends a text. -/
theorem urlCut_excess {b p : Bytes} (h : (urlCut S flags b).behind = some p) :
    (urlCut S flags b).excess = 0 := by
  have hfrom : ∀ skip encoded, (cutFrom S flags skip encoded b).behind = some p →
      (cutFrom S flags skip encoded b).excess = 0 := by
    clear h
    induction b with
    | nil =>
      intro skip encoded h
      cases skip <;> cases h
    | cons c b ih =>
      intro skip encoded h
      cases skip with
      | succ skip => exact ih skip encoded h
      | zero =>
        rw [cutFrom] at h ⊢
        split_ifs at h ⊢
        · rfl
        · exact ih _ _ h
  exact hfrom 0 false h

theorem urlCut_behind {b p : Bytes} (h : (urlCut S flags b).behind = some p) :
    ∃ raw, b = raw ++ colon :: p := by
  have htext := urlCut_text S flags b
  rw [h] at htext
  exact ⟨_, htext⟩

theorem urlCut_userless {b : Bytes} : (urlCut S flags b).text = [] ↔ Userless b := by
  unfold Userless
  cases b with
  | nil => simp [urlCut, cutFrom]
  | cons c b =>
    by_cases hc : c = colon
    · simp [hc, urlCut_colon]
    · have hspelled : spelled (encodes flags c) [c] ≠ [] := by
        cases encodes flags c <;> simp [spelled, pctEncode]
      rw [urlCut_word hc]
      simp [UrlCut.push, hc, hspelled]

/-! ### The user info -/

theorem take_one (k : ℕ) : [atSign].take k = if k = 0 then [] else [atSign] := by
  cases k with
  | zero => rfl
  | succ k => rw [if_neg (Nat.succ_ne_zero k), List.take_of_length_le (by simp)]

theorem at_again (k : ℕ) : (if k = 0 then [] else [atSign]) ++ [atSign] =
    [atSign] ++ if k = 0 then [] else [atSign] := by
  split_ifs <;> rfl

theorem passPart_nil : passPart [] = [] := rfl

theorem passPart_cons {pass : Bytes} (h : pass ≠ []) : passPart pass = colon :: pass := if_pos h

theorem urlCut_empty {b : Bytes} (h : Userless b) :
    (urlCut S flags b).text = [] ∧ (urlCut S flags b).excess = 0 := by
  refine ⟨urlCut_userless.mpr h, ?_⟩
  rcases h with rfl | hcolon
  · rfl
  · cases b with
    | nil => cases hcolon
    | cons c b =>
      obtain rfl : c = colon := Option.some.inj hcolon
      rw [urlCut_colon]

theorem userStrings_first (S : UrlSystem) (flags : UrlFlags) (b : Bytes) :
    (userStrings S flags b).1 =
    (urlCut S flags b).text ++ if (urlCut S flags b).excess = 0 then [] else [atSign] := by
  rw [← take_one]
  rfl

theorem userStrings_second (S : UrlSystem) (flags : UrlFlags) (b : Bytes) :
    (userStrings S flags b).2 = (urlCut S flags b).behind.map fun pass =>
      (userStrings S flags pass).1 := rfl

theorem userStrings_noNul {b : Bytes} (h : nul ∉ b) : nul ∉ (userStrings S flags b).1 := by
  rw [userStrings_first]
  have htext : nul ∉ (urlCut S flags b).text := urlCut_noNul h
  split_ifs <;> simp [htext]
  decide

/-- What is written of a user info is what should be, with another `@` where a triple takes one, or
nothing. -/
theorem userPart_cases {auth userinfo : Bytes} (hgiven : givenUserinfo auth = some userinfo)
    (hnul : nul ∉ userinfo) {url : HttpUrl}
    (huser : url.user = (UrlScanner.withUserinfo S flags noUrl auth).user)
    (hpass : url.pass = (UrlScanner.withUserinfo S flags noUrl auth).pass) :
    Userless userinfo ∧ userPart url = [] ∨ ¬ Userless userinfo ∧
      userPart url = userSpelling S flags userinfo ++
      if userExcess S flags userinfo = 0 then [] else [atSign] := by
  unfold UrlScanner.withUserinfo at huser hpass
  rw [hgiven] at huser hpass
  cases userinfo with
  | nil => exact .inl ⟨.inl rfl, if_neg (by rw [huser]; simp [noUrl])⟩
  | cons c b =>
    dsimp only at huser hpass
    rw [cString_of_noNul (userStrings_noNul hnul), userStrings_first] at huser
    rw [userStrings_second] at hpass
    unfold userPart
    rw [huser, hpass, Option.getD_some]
    by_cases hless : Userless (c :: b)
    · obtain ⟨htext, hexcess⟩ : (urlCut S flags (c :: b)).text = [] ∧
          (urlCut S flags (c :: b)).excess = 0 :=
        urlCut_empty hless
      rw [htext, hexcess]
      exact .inl ⟨hless, if_neg (by simp)⟩
    · have htext : (urlCut S flags (c :: b)).text ≠ [] :=
        fun hnil => hless (urlCut_userless.mp hnil)
      refine .inr ⟨hless, ?_⟩
      unfold userSpelling userExcess
      rw [if_pos (by simp [htext])]
      cases hbehind : (urlCut S flags (c :: b)).behind with
      | none =>
        simp only [Option.elim_none, Option.map_none, Option.getD_none, passPart_nil,
          List.append_nil, List.append_assoc, at_again]
        rfl
      | some pass =>
        obtain ⟨raw, hraw⟩ := urlCut_behind hbehind
        have hpassnul : nul ∉ pass := fun hmem => hnul (by rw [hraw]; simp [hmem])
        rw [urlCut_excess hbehind, Option.map_some, Option.map_some, Option.getD_some,
          cString_of_noNul (userStrings_noNul hpassnul), userStrings_first]
        simp only [Option.elim_some, if_true, List.append_nil]
        by_cases hempty : Userless pass
        · obtain ⟨hnone, hzero⟩ : (urlCut S flags pass).text = [] ∧
              (urlCut S flags pass).excess = 0 :=
            urlCut_empty hempty
          simp [passPart, hnone, hzero]
        · have hne : (urlCut S flags pass).text ≠ [] := fun hnil => hempty (urlCut_userless.mp hnil)
          rw [passPart_cons (by simp [hne]), passPart_cons hne]
          simp only [List.append_assoc, List.cons_append, at_again]
          rfl

/-! ### The host info -/

theorem hostParts_eq {hostinfo name : Bytes} {port : Option Bytes}
    (h : hostParts S flags hostinfo = some (name, port))
    (hdigits : ∀ c ∈ port.getD [], isDigit c = true) :
    hostName S flags hostinfo = some name ∧ portText S flags hostinfo = port := by
  unfold hostParts at h
  unfold hostName
  by_cases hhead : hostinfo.head? = some 91
  · rw [if_pos hhead] at h ⊢
    obtain ⟨⟨addr, rest⟩, hip, h⟩ := Option.bind_eq_some_iff.mp h
    rw [portText, UrlScanner.behindLiteral_of_ip6 hhead hip, hip]
    cases rest with
    | nil =>
      cases h
      exact ⟨rfl, rfl⟩
    | cons c rest =>
      dsimp only at h
      split_ifs at h with hc
      cases h
      rw [hc, urlCut_colon]
      exact ⟨rfl, rfl⟩
  · rw [if_neg hhead] at h ⊢
    cases h
    have htext : portText S flags hostinfo = (urlCut S flags hostinfo).behind := by
      rw [portText, behindLiteral, if_neg hhead]
    have hplain : percent ∉ (urlCut S flags hostinfo).behind.getD [] := fun hmem =>
      absurd (hdigits _ hmem) (by decide)
    rw [htext, (portDigits_plain hplain).1, List.append_nil]
    exact ⟨rfl, rfl⟩

theorem last_unique {c : Byte} {v w x y : Bytes} (hv : c ∉ v) (hw : c ∉ w)
    (h : x ++ c :: v = y ++ c :: w) :
    x = y ∧ v = w := by
  rcases List.append_eq_append_iff.mp h with ⟨t, rfl, ht⟩ | ⟨t, rfl, ht⟩
  · cases t with
    | nil => exact ⟨by simp, (List.cons.inj ht).2⟩
    | cons d t =>
      obtain ⟨-, rfl⟩ := List.cons.inj ht
      exact absurd (by simp) hv
  · cases t with
    | nil => exact ⟨by simp, (List.cons.inj ht).2.symm⟩
    | cons d t =>
      obtain ⟨-, rfl⟩ := List.cons.inj ht
      exact absurd (by simp) hw

theorem colon_notMem_formatLong (n : ℕ) : colon ∉ formatLong n := fun hmem =>
  absurd (formatLong_isDigit n _ hmem) (by decide)

theorem numeral_formatLong (n : ℕ) : numeral 10 (formatLong n) = n := by
  have h := foldl_formatLong 0 n
  simp only [Nat.mod_zero] at h
  refine (List.foldl_ext _ _ 0 fun m c hc => ?_).trans h
  rw [digitVal, if_pos (formatLong_isDigit n c hc)]

/-- A numeral behind a `:`, or nothing -/
def spelledPort (digits : Bytes) : Bytes :=
  if digits ≠ [] then colon :: formatLong (numeral 10 digits : ℕ) else []

theorem spelledPort_cons {digits : Bytes} (h : digits ≠ []) :
    spelledPort digits = colon :: formatLong (numeral 10 digits : ℕ) := if_pos h

theorem portPart_cons {n : ℕ} (h : n ≠ 0) : portPart n = colon :: formatLong n := if_pos h

/-- A host and a port of 16 bits with something in front, or the port as it should be. -/
theorem port_same {host digits front : Bytes}
    (h : host ++ portPart (numeral 10 digits % 2 ^ 16) = front ++ (host ++ spelledPort digits)) :
    front = [] ∧ (digits ≠ [] → 0 < numeral 10 digits ∧ numeral 10 digits ≤ 65535) := by
  by_cases hd : digits = []
  · subst hd
    have hlen := congrArg List.length h
    simp only [spelledPort, portPart, numeral_nil, List.length_append, ne_eq,
      not_true_eq_false, if_false, Nat.zero_mod, List.length_nil] at hlen
    exact ⟨List.length_eq_zero_iff.mp (by omega), fun hne => absurd rfl hne⟩
  rw [spelledPort_cons hd] at h
  by_cases hn : numeral 10 digits % 2 ^ 16 = 0
  · rw [hn] at h
    have hlen := congrArg List.length h
    simp only [portPart, List.length_append, ne_eq, not_true_eq_false, if_false, List.length_cons,
      List.length_nil] at hlen
    omega
  · rw [portPart_cons hn, ← List.append_assoc] at h
    obtain ⟨hfront, hsame⟩ := last_unique (colon_notMem_formatLong _) (colon_notMem_formatLong _) h
    have hnum := congrArg (numeral 10) hsame
    rw [numeral_formatLong, numeral_formatLong] at hnum
    have hlen := congrArg List.length hfront
    rw [List.length_append] at hlen
    exact ⟨List.length_eq_zero_iff.mp (by omega), fun _ => ⟨by omega, by omega⟩⟩

section
variable {url : HttpUrl} {host digits : Bytes} (hhost : url.host = some host)
  (hport : url.port = numeral 10 digits % 2 ^ 16)
include hhost hport

/-- A host with its port is written with nothing in front of it, and only if nothing has been left
out of it. -/
theorem hostPart_front (front : Bytes) : hostPart url = front ++ (host ++ spelledPort digits) ↔
    front = [] ∧ (digits ≠ [] → 0 < numeral 10 digits ∧ numeral 10 digits ≤ 65535 ∧ host ≠ []) := by
  unfold hostPart
  rw [hhost, hport, Option.getD_some]
  constructor
  · intro h
    split_ifs at h with hne
    · obtain ⟨hfront, hkept⟩ := port_same h
      exact ⟨hfront, fun hd => ⟨(hkept hd).1, (hkept hd).2, hne⟩⟩
    · obtain ⟨hfront, hrest⟩ := List.append_eq_nil_iff.mp h.symm
      refine ⟨hfront, fun hd => ?_⟩
      rw [spelledPort_cons hd] at hrest
      simp at hrest
  · rintro ⟨rfl, hkept⟩
    rw [List.nil_append]
    by_cases hd : digits = []
    · subst hd
      split_ifs with hne
      · rfl
      · rw [not_ne_iff.mp hne]
        rfl
    · obtain ⟨hpos, hle, hne⟩ := hkept hd
      have hmod : numeral 10 digits % 2 ^ 16 = numeral 10 digits := Nat.mod_eq_of_lt (by omega)
      rw [if_pos hne, hmod, portPart_cons (by omega), spelledPort_cons hd]

/-- A host with its port is not written with an `@` in front of it. -/
theorem hostPart_at : host ++ spelledPort digits ≠ atSign :: hostPart url := by
  unfold hostPart
  rw [hhost, hport, Option.getD_some]
  intro h
  split_ifs at h with hne
  · have hlen := congrArg List.length h
    by_cases hd : digits = []
    · subst hd
      simp only [spelledPort, List.length_append, List.length_cons, ne_eq,
        not_true_eq_false, if_false, List.length_nil] at hlen
      omega
    · rw [spelledPort_cons hd] at h hlen
      by_cases hn : numeral 10 digits % 2 ^ 16 = 0
      · have hpos := List.length_pos_iff.mpr (formatLong_ne_nil (numeral 10 digits))
        rw [hn] at hlen
        simp only [portPart, List.length_append, List.length_cons, ne_eq,
          not_true_eq_false, if_false, List.length_nil] at hlen
        omega
      · rw [portPart_cons hn, ← List.cons_append] at h
        obtain ⟨hhost, -⟩ := last_unique (colon_notMem_formatLong _) (colon_notMem_formatLong _) h
        have := congrArg List.length hhost
        simp at this
  · rw [not_ne_iff.mp hne, List.nil_append, spelledPort] at h
    split_ifs at h
    cases h

end

/-! ### The authority -/

/-- What is found in an accepted authority. -/
theorem authority_found (hignore : flags.ignoreErrors = false) {auth : Bytes} {url : HttpUrl}
    (h : UrlScanner.urlParseAuthority S flags auth [nul] = .ok url) : nul ∉ auth ∧
      if givenHostinfo auth = [] then url = UrlScanner.withUserinfo S flags noUrl auth
      else ∃ name k host, hostName S flags (givenHostinfo auth) = some name ∧
        idnHost S flags (cString (name ++ [nul].take k)) = some host ∧
        (∀ c ∈ portDigits 0 ((portText S flags (givenHostinfo auth)).getD []), isDigit c = true) ∧
        url = { UrlScanner.withUserinfo S flags noUrl auth with
          host := some host, port := portValue S flags (givenHostinfo auth) } := by
  obtain ⟨st', hauth, htext, rfl⟩ := UrlScanner.urlParseAuthority_ok hignore h
  obtain ⟨rest, hrest, hcur, hurl⟩ :=
    UrlScanner.parseAuthority_url hignore UrlScanner.urlStart_shows ⟨rfl, rfl, rfl⟩ hauth
  rw [htext] at hrest hurl
  obtain rfl : rest = [] := by simpa using hrest
  refine ⟨fun hmem => ?_, hurl⟩
  rw [← htext, authorityText] at hmem
  exact absurd (List.mem_takeWhile_imp hmem) (by decide)

theorem hostParts_noNul {hostinfo name : Bytes} {port : Option Bytes} (hnul : nul ∉ hostinfo)
    (h : hostParts S flags hostinfo = some (name, port)) : nul ∉ name := by
  unfold hostParts at h
  split_ifs at h with hhead
  · obtain ⟨⟨addr, rest⟩, hip, h⟩ := Option.bind_eq_some_iff.mp h
    obtain ⟨text, htext, rfl⟩ := ip6Text_literal hip
    have haddr : nul ∉ text := S.inet6_noNul _ _ htext
    obtain rfl : 91 :: text ++ [93] = name := by
      cases rest with
      | nil => exact (Prod.mk.inj (Option.some.inj h)).1
      | cons c rest =>
        dsimp only at h
        split_ifs at h
        exact (Prod.mk.inj (Option.some.inj h)).1
    simp only [List.cons_append, List.mem_cons, List.mem_append, List.not_mem_nil, haddr,
      or_false, false_or]
    decide
  · cases h
    intro hmem
    rw [urlCut_text S flags hostinfo] at hnul
    exact hnul (List.mem_append_left _ hmem)

/-- A host is found with the name and the port that it should be found with. -/
theorem host_found {hostinfo name name' host : Bytes} {port : Option Bytes} {k : ℕ}
    (hnul : nul ∉ hostinfo) (hparts : hostParts S flags hostinfo = some (name, port))
    (hdigits : ∀ c ∈ port.getD [], isDigit c = true)
    (hname : hostName S flags hostinfo = some name')
    (hidn : idnHost S flags (cString (name' ++ [nul].take k)) = some host) :
    idnHost S flags name = some host ∧
      portValue S flags hostinfo = numeral 10 (port.getD []) % 2 ^ 16 := by
  obtain ⟨hsame, hport⟩ := hostParts_eq hparts hdigits
  obtain rfl : name = name' := Option.some.inj (hsame.symm.trans hname)
  have hstring : cString (name ++ [nul].take k) = name := by
    have hcut := cString_of_noNul (hostParts_noNul hnul hparts)
    cases k with
    | zero => rw [List.take_zero, List.append_nil, hcut]
    | succ k => rw [List.take_of_length_le (by simp), UrlScanner.cString_nul, hcut]
  have hplain : percent ∉ port.getD [] := fun hmem => absurd (hdigits _ hmem) (by decide)
  rw [hstring] at hidn
  refine ⟨hidn, ?_⟩
  rw [portValue, hport, (portDigits_plain hplain).2, foldl_portStep hdigits]

theorem portSpelling_some {port : Option Bytes} (h : ∀ c ∈ port.getD [], isDigit c = true) :
    portSpelling port = some (spelledPort (port.getD [])) := if_pos (List.all_eq_true.mpr h)

theorem portSpelling_none {port : Option Bytes} (h : ¬ ∀ c ∈ port.getD [], isDigit c = true) :
    portSpelling port = none := if_neg fun hall => h (List.all_eq_true.mp hall)

theorem hostSpelling_eq {hostinfo name : Bytes} {port : Option Bytes} (hne : hostinfo ≠ [])
    (hparts : hostParts S flags hostinfo = some (name, port)) : hostSpelling S flags hostinfo =
      (idnHost S flags name).bind fun host => (portSpelling port).map (host ++ ·) := by
  rw [hostSpelling, if_neg hne, hparts]
  change ((idnHost S flags name).bind fun host => (portSpelling port).bind fun p =>
    some (host ++ p)) = _
  simp only [Option.map_eq_bind, Function.comp_def]

theorem givenHostinfo_mem {auth : Bytes} {c : Byte} (h : c ∈ givenHostinfo auth) : c ∈ auth := by
  unfold givenHostinfo at h
  split_ifs at h
  · exact (List.dropWhile_sublist _).subset (List.mem_of_mem_tail h)
  · exact h

theorem givenUserinfo_mem {auth userinfo : Bytes} (hgiven : givenUserinfo auth = some userinfo)
    {c : Byte} (h : c ∈ userinfo) : c ∈ auth := by
  unfold givenUserinfo at hgiven
  split_ifs at hgiven
  cases hgiven
  exact (List.takeWhile_sublist _).subset h

/-- The user info in front of a host, if it can be told from that. -/
theorem userinfo_kept {auth host : Bytes} {url : HttpUrl} {C : Prop} (hnul : nul ∉ auth)
    (huser : url.user = (UrlScanner.withUserinfo S flags noUrl auth).user)
    (hpass : url.pass = (UrlScanner.withUserinfo S flags noUrl auth).pass)
    (hfront : ∀ front, hostPart url = front ++ host ↔ front = [] ∧ C)
    (hat : host ≠ atSign :: hostPart url) :
    (givenUserinfo auth).elim [] (userSpelling S flags) ++ host = urlAuthorityToString url ↔
      (∀ userinfo ∈ givenUserinfo auth, ¬ Userless userinfo ∧ userExcess S flags userinfo = 0) ∧
        C := by
  rw [urlAuthorityToString_eq]
  cases hgiven : givenUserinfo auth with
  | none =>
    have hnone : userPart url = [] := by
      unfold UrlScanner.withUserinfo at huser
      rw [hgiven] at huser
      exact if_neg (by rw [huser]; simp [noUrl])
    rw [hnone, Option.elim_none, List.nil_append, List.nil_append, eq_comm]
    exact (hfront []).trans ⟨fun h => ⟨fun _ hmem => (Option.not_mem_none _ hmem).elim, h.2⟩,
      fun h => ⟨rfl, h.2⟩⟩
  | some userinfo =>
    have hlast : userSpelling S flags userinfo ≠ [] := by simp [userSpelling]
    rw [Option.elim_some]
    simp only [Option.mem_some_iff, forall_eq']
    rcases userPart_cases hgiven (fun hmem => hnul (givenUserinfo_mem hgiven hmem)) huser hpass with
      ⟨hless, htext⟩ | ⟨hnot, htext⟩
    · rw [htext, List.nil_append, eq_comm, hfront]
      exact ⟨fun h => absurd h.1 hlast, fun h => absurd hless h.1.1⟩
    · rw [htext]
      by_cases hexcess : userExcess S flags userinfo = 0
      · rw [if_pos hexcess, List.append_nil, List.append_cancel_left_eq, eq_comm]
        exact (hfront []).trans ⟨fun h => ⟨⟨hnot, hexcess⟩, h.2⟩, fun h => ⟨rfl, h.2⟩⟩
      · rw [if_neg hexcess, List.append_assoc, List.append_cancel_left_eq]
        exact ⟨fun h => absurd h hat, fun h => absurd h.1.2 hexcess⟩

theorem authority_kept_iff (hignore : flags.ignoreErrors = false) {auth : Bytes} {url : HttpUrl}
    (h : UrlScanner.urlParseAuthority S flags auth [nul] = .ok url) :
    authoritySpelling S flags auth = some (urlAuthorityToString url) ↔
      AuthorityKept S flags auth := by
  obtain ⟨hnul, hfound⟩ := authority_found hignore h
  have hiff : AuthorityKept S flags auth ↔ _ ∧ _ := ⟨fun h => ⟨h.1, h.2⟩, fun h => ⟨h.1, h.2⟩⟩
  rw [hiff]
  unfold authoritySpelling
  by_cases hempty : givenHostinfo auth = []
  · rw [if_pos hempty] at hfound
    have hnone : hostPart url = [] := by
      have hhost : url.host = none := by
        rw [hfound]
        unfold UrlScanner.withUserinfo
        split <;> rfl
      exact if_neg (by simp [hhost])
    rw [hostSpelling, if_pos hempty, Option.map_some, Option.some_inj]
    have hfront : ∀ front, hostPart url = front ++ [] ↔ front = [] ∧ True := fun front => by
      rw [hnone, List.append_nil, and_true, eq_comm]
    refine (userinfo_kept hnul (by rw [hfound]) (by rw [hfound]) hfront (by simp)).trans ?_
    exact and_congr_right fun _ => ⟨fun _ hne => absurd hempty hne, fun _ => trivial⟩
  · rw [if_neg hempty] at hfound
    obtain ⟨name', k, host, hname, hidn, -, hurl⟩ := hfound
    cases hparts : hostParts S flags (givenHostinfo auth) with
    | none =>
      rw [hostSpelling, if_neg hempty, hparts]
      refine ⟨fun h => ?_, fun h => ?_⟩
      · cases h
      · obtain ⟨_, _, hsome, -⟩ := h.2 hempty
        cases hsome
    | some parts =>
      obtain ⟨name, port⟩ := parts
      rw [hostSpelling_eq hempty hparts]
      by_cases hdigits : ∀ c ∈ port.getD [], isDigit c = true
      · obtain ⟨hidn', hvalue⟩ := host_found (fun hmem => hnul (givenHostinfo_mem hmem))
          hparts hdigits hname hidn
        have hhost : url.host = some host := by rw [hurl]
        have hport : url.port = numeral 10 (port.getD []) % 2 ^ 16 := by rw [hurl, hvalue]
        rw [hidn', portSpelling_some hdigits, Option.bind_some, Option.map_some, Option.map_some,
          Option.some_inj]
        refine (userinfo_kept hnul (by rw [hurl]) (by rw [hurl]) (hostPart_front hhost hport)
          (hostPart_at hhost hport)).trans
            (and_congr_right fun _ => ⟨fun h _ => ?_, fun h hne => ?_⟩)
        · refine ⟨name, port, rfl, hdigits, fun hne => ⟨(h hne).1, (h hne).2.1, fun hnone => ?_⟩⟩
          exact (h hne).2.2 (Option.some.inj (hidn'.symm.trans hnone))
        · obtain ⟨_, _, hsome, -, hkept⟩ := h hempty
          cases hsome
          obtain ⟨hpos, hle, hsome⟩ := hkept hne
          exact ⟨hpos, hle, fun hnil => hsome (by rw [hidn', hnil])⟩
      · rw [portSpelling_none hdigits]
        refine ⟨fun h => ?_, fun h => ?_⟩
        · cases hidn' : idnHost S flags name with
          | none =>
            rw [hidn'] at h
            cases h
          | some host' =>
            rw [hidn'] at h
            cases h
        · obtain ⟨_, _, hsome, hall, -⟩ := h.2 hempty
          cases hsome
          exact absurd hall hdigits

theorem authority_kept_example : authoritySpelling plainSystem .std (ascii "u:p@h:080") =
    some (urlAuthorityToString ⟨none, some (ascii "u"), some (ascii "p"), some (ascii "h"), 80,
      none, none, none⟩) := by
  have hruns : UrlScanner.urlParseAuthority plainSystem .std (ascii "u:p@h:080") [nul] =
      .ok ⟨none, some (ascii "u"), some (ascii "p"), some (ascii "h"), 80, none, none, none⟩ ∧
      UrlFlags.std.ignoreErrors = false := by decide
  have huser : givenUserinfo (ascii "u:p@h:080") = some (ascii "u:p") ∧ ¬ Userless (ascii "u:p") ∧
      userExcess plainSystem .std (ascii "u:p") = 0 := by decide
  have hhost : hostParts plainSystem .std (givenHostinfo (ascii "u:p@h:080")) =
      some (ascii "h", some (ascii "080")) ∧ (ascii "080").all isDigit = true ∧
        0 < numeral 10 (ascii "080") ∧
        numeral 10 (ascii "080") ≤ 65535 ∧ idnHost plainSystem .std (ascii "h") ≠
          some [] := by decide
  refine (authority_kept_iff hruns.2 hruns.1).mpr ⟨fun userinfo hmem => ?_, fun _ => ?_⟩
  · obtain rfl := Option.some.inj (huser.1.symm.trans hmem)
    exact huser.2
  · exact ⟨_, _, hhost.1, List.all_eq_true.mp hhost.2.1, fun _ => hhost.2.2⟩

/-- What is behind a literal address is dropped. -/
theorem authority_dropped :
    ∃ url, UrlScanner.urlParseAuthority plainSystem .std (ascii "[::1]abc") [nul] = .ok url ∧
    authoritySpelling plainSystem .std (ascii "[::1]abc") ≠ some (urlAuthorityToString url) ∧
      urlAuthorityToString url = ascii "[::1]" := by
  refine ⟨⟨none, none, none, some (ascii "[::1]"), 0, none, none, none⟩, ?_⟩
  decide

end ExtHttp
