import ExtHttp.UrlStable

/-!
# URLs that follow the grammar

A URL with a scheme and an authority is put together from its parts, each of which follows its
production. The parser finds the parts again, but not every host name, no empty fragment and no
empty user.
-/
namespace ExtHttp
open Scan

/-! ### The grammar -/

/-- Characters of a class, and percent-encoded ones. -/
inductive Encoded (ok : Byte → Bool) : Bytes → Prop
  | nil : Encoded ok []
  | char {c : Byte} {t : Bytes} : ok c = true → Encoded ok t → Encoded ok (c :: t)
  | triplet {x y : Byte} {t : Bytes} : isBaseDigit 16 x = true → isBaseDigit 16 y = true →
    Encoded ok t →
      Encoded ok (percent :: x :: y :: t)

def isLabelChar (c : Byte) : Bool := isUrlChar c && c ≠ dot

def isSchemeChar (c : Byte) : Bool := isAlpha c || isDigit c || (ascii "+-.").contains c

/-- A label of a host name. -/
structure HostLabel where
  text : Bytes
  encoded : Encoded isLabelChar text
  ne : text ≠ []
  start : text.head? ≠ some hyphen

/-- Labels with dots between them. -/
def hostLabels : HostLabel → List HostLabel → Bytes
  | x, [] => x.text
  | x, y :: ys => x.text ++ dot :: hostLabels y ys

/-- The parts of a URL; a password comes with its user. -/
structure UrlGrammar where
  scheme : Bytes
  user : Option (Bytes × Option Bytes)
  label : HostLabel
  labels : List HostLabel
  port : Option Bytes
  path : Bytes
  query : Option Bytes
  fragment : Option Bytes
  scheme_start : ∃ c ∈ scheme.head?, isAlpha c = true
  scheme_char : ∀ c ∈ scheme, isSchemeChar c = true
  user_text : ∀ u ∈ user, Encoded isUrlChar u.1 ∧ ∀ p ∈ u.2, Encoded isUrlChar p
  port_digits : ∀ digits ∈ port, digits ≠ [] ∧ (∀ c ∈ digits, isDigit c = true) ∧
    numeral 10 digits ≤ 65535
  path_text : Encoded isPathChar path
  path_start : path = [] ∨ path.head? = some slash
  query_text : ∀ q ∈ query, Encoded isQueryChar q
  fragment_text : ∀ f ∈ fragment, Encoded isQueryChar f

/-- An optional part with the delimiter in front of it. -/
def delimited (c : Byte) (part : Option Bytes) : Bytes := part.elim [] (c :: ·)

namespace UrlGrammar
variable (x : UrlGrammar)

def host : Bytes := hostLabels x.label x.labels

def userText : Bytes := x.user.elim [] fun u => u.1 ++ delimited colon u.2

def userinfo : Bytes := x.user.elim [] fun u => u.1 ++ delimited colon u.2 ++ [atSign]

def hostinfo : Bytes := x.host ++ delimited colon x.port

def tail : Bytes := x.path ++ (delimited question x.query ++ delimited hash x.fragment)

/-- scheme `://` [user [`:` pass] `@`] host [`:` port] path [`?` query] [`#` fragment] -/
def text : Bytes := x.scheme ++ colon :: slash :: slash :: (x.userinfo ++ (x.hostinfo ++ x.tail))

/-- Each part as it is; there is no empty path. -/
def components : HttpUrl where
  scheme := some x.scheme
  user := x.user.map (·.1)
  pass := x.user.bind (·.2)
  host := some x.host
  port := x.port.elim 0 (numeral 10)
  path := present x.path
  query := x.query
  fragment := x.fragment

end UrlGrammar

/-- What follows the triplets at the beginning. -/
def unencoded : Bytes → Bytes
  | c :: x :: y :: b => if c = percent then unencoded b else c :: x :: y :: b
  | b => b

/-- In front of a dot there is more in a label than triplets, and a hyphen does not come first
behind them. -/
def LabelsRead : HostLabel → List HostLabel → Prop
  | x, [] => (unencoded x.text).head? ≠ some hyphen
  | x, y :: ys => unencoded x.text ≠ [] ∧ (unencoded x.text).head? ≠ some hyphen ∧ LabelsRead y ys

instance : ∀ x ys, Decidable (LabelsRead x ys)
  | x, [] => inferInstanceAs (Decidable ((unencoded x.text).head? ≠ some hyphen))
  | x, y :: ys =>
      have : Decidable (LabelsRead y ys) := instDecidableLabelsRead y ys
      inferInstanceAs (Decidable (unencoded x.text ≠ [] ∧ (unencoded x.text).head? ≠ some hyphen ∧
        LabelsRead y ys))

/-- What the parser asks of a URL beyond the grammar. -/
structure UrlGrammar.Reads (x : UrlGrammar) : Prop where
  user : x.user ≠ some ([], none)
  labels : LabelsRead x.label x.labels
  fragment : x.fragment ≠ some []

/-! ### Text and characters -/

theorem Encoded.text {ok : Byte → Bool} {t : Bytes} (h : Encoded ok t) : UrlText ok t := by
  induction h with
  | nil => exact .nil
  | char hc _ ih => exact .char hc ih
  | triplet hx hy _ ih => exact .triple (.inr ⟨hx, hy⟩) ih

theorem encoded_of_all {ok : Byte → Bool} {t : Bytes} (h : t.all ok = true) : Encoded ok t := by
  induction t with
  | nil => exact .nil
  | cons c t ih =>
    rw [List.all_cons, Bool.and_eq_true] at h
    exact .char h.1 (ih h.2)

theorem Encoded.mem {ok : Byte → Bool} {t : Bytes} (h : Encoded ok t) :
    ∀ c ∈ t, ok c = true ∨ c = percent ∨ isBaseDigit 16 c = true := by
  induction h with
  | nil => simp
  | char hc _ ih => simp [hc]; exact ih
  | triplet hx hy _ ih => simp [hx, hy]; exact ih

theorem isUrlChar_plain : ∀ c : Byte, isUrlChar c = true →
    inAuthority c = true ∧ isColon c = false ∧ c ≠ percent ∧ c < 128 ∧ c ≠ 91 := by decide +kernel

theorem triple_plain : ∀ c : Byte, c = percent ∨ isBaseDigit 16 c = true →
    inAuthority c = true ∧ c < 128 ∧ c ≠ 91 := by decide +kernel

theorem isLabelChar_url {c : Byte} (h : isLabelChar c = true) : isUrlChar c = true ∧ c ≠ dot := by
  simpa [isLabelChar] using h

theorem Encoded.unencoded {t : Bytes} (h : Encoded isLabelChar t) :
    ∃ v, Triples v ∧ t = v ++ ExtHttp.unencoded t ∧ (ExtHttp.unencoded t = [] ∨
      ∃ c b, ExtHttp.unencoded t = c :: b ∧ isLabelChar c = true ∧ Encoded isLabelChar b) := by
  induction h with
  | nil => exact ⟨[], .nil, rfl, .inl rfl⟩
  | @char c t hc ht _ =>
    have hp := (isUrlChar_plain c (isLabelChar_url hc).1).2.2.1
    have hself : ExtHttp.unencoded (c :: t) = c :: t := by
      match t with
      | [] => rfl
      | [_] => rfl
      | _ :: _ :: _ => exact if_neg hp
    rw [hself]
    exact ⟨[], .nil, rfl, .inr ⟨c, t, rfl, hc, ht⟩⟩
  | @triplet x y t hx hy _ ih =>
    obtain ⟨v, hv, ht, hcases⟩ := ih
    have hself : ExtHttp.unencoded (percent :: x :: y :: t) = ExtHttp.unencoded t := if_pos rfl
    rw [hself]
    exact ⟨percent :: x :: y :: v,
      .triple (.inr ⟨hx, hy⟩)
        hv, by rw [List.cons_append, List.cons_append, List.cons_append, ← ht], hcases⟩

/-! ### Host names -/

theorem hostWord_char {label : Bool} {c : Byte} (hc : isLabelChar c = true)
    (hhyphen : c = hyphen → label = true) : Copied isColon hostWord label [c] true := by
  obtain ⟨hurl, hdot⟩ := isLabelChar_url hc
  obtain ⟨-, hcolon, hp, -⟩ := isUrlChar_plain c hurl
  refine Copied.one (w := []) hcolon fun b after => ?_
  change hostWord label (c :: b) after = some ([c], 1, true)
  unfold hostWord
  dsimp only
  rw [current_cons, if_neg hp, if_neg hdot]
  by_cases hh : c = hyphen
  · rw [if_pos hh, if_pos (hhyphen hh)]
  · rw [if_neg hh, if_pos hurl]

theorem hostWord_dot : Copied isColon hostWord true [dot] false :=
  Copied.one (w := []) rfl fun _ _ => rfl

/-- Without a label there is no dot and no hyphen. -/
theorem hostWord_refused {c : Byte} (hc : c = dot ∨ c = hyphen) (b after : Bytes) :
    scan isColon hostWord after false 0 (c :: b) = none := by
  rcases hc with rfl | rfl <;> rfl

theorem Encoded.copied {t : Bytes} (h : Encoded isLabelChar t) :
    Copied isColon hostWord true t true := by
  induction h with
  | nil => exact .nil true
  | char hc _ ih => exact (hostWord_char hc fun _ => rfl).append ih
  | triplet hx hy _ ih =>
    exact (Triples.copied (.triple (.inr ⟨hx, hy⟩) .nil) true).append ih

/-- A label is copied unless a hyphen comes first behind its triplets. -/
theorem HostLabel.copied (x : HostLabel) (h : (unencoded x.text).head? ≠ some hyphen) :
    Copied isColon hostWord false x.text (unencoded x.text ≠ []) := by
  obtain ⟨v, hv, ht, hcases⟩ := x.encoded.unencoded
  generalize unencoded x.text = t at ht hcases h
  rw [ht]
  rcases hcases with rfl | ⟨c, b, rfl, hc, hb⟩
  · simpa using hv.copied false
  · have hchar : Copied isColon hostWord false [c] true :=
      hostWord_char hc fun hh => absurd (congrArg some hh) h
    simpa using (hv.copied false).append (hchar.append hb.copied)

theorem HostLabel.refused (x : HostLabel) (h : (unencoded x.text).head? = some hyphen)
    (rest after : Bytes) :
    scan isColon hostWord after false 0 (x.text ++ rest) = none := by
  obtain ⟨v, hv, ht, -⟩ := x.encoded.unencoded
  obtain ⟨b, hb⟩ := List.head?_eq_some_iff.mp h
  rw [ht, hb, List.append_assoc, hv.copied false, List.cons_append, hostWord_refused (.inr rfl),
    Option.map_none]

theorem hostLabels_copied {x : HostLabel} {ys : List HostLabel} (h : LabelsRead x ys) :
    ∃ label, Copied isColon hostWord false (hostLabels x ys) label := by
  induction ys generalizing x with
  | nil => exact ⟨_, x.copied h⟩
  | cons y ys ih =>
    obtain ⟨hne, hhyphen, hrest⟩ := h
    obtain ⟨label, hcopied⟩ := ih hrest
    have hx := x.copied hhyphen
    rw [decide_eq_true hne] at hx
    exact ⟨label, hx.append (Copied.append (v := [dot]) hostWord_dot hcopied)⟩

theorem hostLabels_refused {x : HostLabel} {ys : List HostLabel} (h : ¬ LabelsRead x ys)
    (rest after : Bytes) :
    scan isColon hostWord after false 0 (hostLabels x ys ++ rest) = none := by
  induction ys generalizing x with
  | nil => exact x.refused (not_not.mp h) rest after
  | cons y ys ih =>
    rw [hostLabels, List.append_assoc]
    by_cases hhyphen : (unencoded x.text).head? = some hyphen
    · exact x.refused hhyphen _ after
    · rw [x.copied hhyphen, List.cons_append]
      by_cases hne : unencoded x.text = []
      · rw [decide_eq_false (not_not.mpr hne), hostWord_refused (.inl rfl), Option.map_none]
      · rw [decide_eq_true hne]
        have hy : ¬ LabelsRead y ys := fun hy => h ⟨hne, hhyphen, hy⟩
        change Option.map _ (scan isColon hostWord after true 0
          ([dot] ++ (hostLabels y ys ++ rest))) = none
        rw [hostWord_dot, ih hy]
        rfl

theorem hostLabels_mem {x : HostLabel} {ys : List HostLabel} :
    ∀ c ∈ hostLabels x ys, isUrlChar c = true ∨ c = percent ∨ isBaseDigit 16 c = true := by
  have hlabel : ∀ x : HostLabel, ∀ c ∈ x.text, isUrlChar c = true ∨ c = percent ∨
      isBaseDigit 16 c = true :=
    fun x c hc => (x.encoded.mem c hc).imp_left fun h => (isLabelChar_url h).1
  induction ys generalizing x with
  | nil => exact hlabel x
  | cons y ys ih =>
    intro c hc
    rcases List.mem_append.mp hc with hc | hc
    · exact hlabel x c hc
    · rcases List.mem_cons.mp hc with rfl | hc
      · exact .inl (by decide)
      · exact ih c hc

/-! ### The port -/

/-- The port of a numeral, of which 16 bits are kept. -/
theorem port_digits_eq {digits : Bytes} (h : ∀ c ∈ digits, isDigit c = true) {n : ℕ} :
    digits.foldl (fun port c => (port * 10 + (c.toNat - 48)) % 2 ^ 16) (n % 2 ^ 16) =
      digits.foldl (fun n c => n * 10 + digitVal c) n % 2 ^ 16 := by
  induction digits generalizing n with
  | nil => rfl
  | cons c digits ih =>
    have hc := h c List.mem_cons_self
    have hval : digitVal c = c.toNat - 48 := if_pos hc
    have hmod : (n % 2 ^ 16 * 10 + (c.toNat - 48)) % 2 ^ 16 = (n * 10 + digitVal c) % 2 ^ 16 := by
      rw [hval]
      omega
    rw [List.foldl_cons, List.foldl_cons, hmod]
    exact ih fun d hd => h d (List.mem_cons_of_mem _ hd)

theorem portScan_digits {digits : Option Bytes} (h : ∀ d ∈ digits, ∀ c ∈ d, isDigit c = true)
    (after : Bytes) : portScan 0 (delimited colon digits) after =
      some ⟨[], digits.elim 0 (numeral 10) % 2 ^ 16, [], 0⟩ := by
  cases digits with
  | none => rfl
  | some d =>
    change scan never portWord after 0 0 d = _
    have hport := port_digits_eq (h d rfl) (n := 0)
    rw [scan_digits (h d rfl), Option.elim_some, numeral, ← hport]
    rfl

theorem delimited_head {c : Byte} {stop : Byte → Bool} (h : stop c = true) (part : Option Bytes) :
    ∀ d ∈ (delimited c part).head?, stop d = true := by
  cases part with
  | none => simp [delimited]
  | some b =>
    rintro d ⟨⟩
    exact h

/-! ### Reading the parts -/

variable {L : UrlLibs} {u : HttpUrl}

theorem readUserinfo_given (hu : u.pass = none) {user : Bytes} {pass : Option Bytes}
    (huser : UserText user) (hpass : ∀ p ∈ pass, UserText p) (after : Bytes) :
    readUserinfo u (user ++ delimited colon pass) after =
      some { u with user := some user, pass := pass } := by
  have hscan := ((copies_userinfo isColon fun _ => isColon_eq).copied huser.1).scan_end after
    (delimited_head (show isColon colon = true from rfl) pass)
  unfold readUserinfo
  rw [hscan, Option.bind_eq_bind, Option.bind_some, cString_of_noNul (noNul_of_inAuthority huser.2)]
  cases pass with
  | none => simp [delimited, hu]
  | some p =>
    have hp := hpass p rfl
    have hpscan := ((copies_userinfo never (by simp [never])).copied hp.1).scan after
    dsimp only [delimited, Option.elim_some]
    rw [hpscan, Option.bind_some, cString_of_noNul (noNul_of_inAuthority hp.2)]

theorem readQuery_given (hu : u.query = none) {query : Option Bytes} {rest : Bytes}
    (h : ∀ q ∈ query, UrlText isQueryChar q ∧ nul ∉ q) (hrest : ∀ c ∈ rest.head?, isHash c = true) :
    readQuery u (delimited question query ++ rest) 0 [nul] =
      some ({ u with query := query }, rest, 0) := by
  cases query with
  | none =>
    obtain ⟨scheme, user, pass, host, port, path, query, fragment⟩ := u
    obtain rfl : query = none := hu
    cases rest with
    | nil => rfl
    | cons c rest =>
      obtain rfl : c = hash := of_decide_eq_true (hrest c rfl)
      rfl
  | some q =>
    obtain ⟨hq, hnul⟩ := h q rfl
    have hscan := ((copies_query isHash fun c hc => of_decide_eq_true hc).copied hq).scan_end
      [nul] hrest
    simp [delimited, readQuery, hscan, cString_of_noNul hnul]

theorem readFragment_given (hu : u.fragment = none) {fragment : Option Bytes}
    (h : ∀ f ∈ fragment, UrlText isQueryChar f ∧ nul ∉ f) :
    readFragment u (delimited hash fragment) 0 [nul] =
      if fragment = some [] then none else some { u with fragment := fragment } := by
  match fragment with
  | none =>
    obtain ⟨scheme, user, pass, host, port, path, query, fragment⟩ := u
    obtain rfl : fragment = none := hu
    rfl
  | some [] => rfl
  | some (c :: f) =>
    obtain ⟨hf, hnul⟩ := h _ rfl
    have hscan : fragmentScan (hash :: c :: f) 0 [nul] = some ⟨c :: f, (), [], 0⟩ :=
      (copies_fragment.copied hf).scan [nul]
    simp [delimited, readFragment, hscan, cString_of_noNul hnul]

namespace UrlGrammar
variable (x : UrlGrammar)

theorem scheme_copied (L : UrlLibs) : Copied isColon (schemeWord L) true x.scheme false := by
  have hnoColon : ∀ c : Byte, isSchemeChar c = true → isColon c = false ∧ c ≠ nul := by
    decide +kernel
  have hrest : ∀ b : Bytes, (∀ c ∈ b, isSchemeChar c = true) →
      Copied isColon (schemeWord L) false b false := by
    intro b hb
    induction b with
    | nil => exact .nil false
    | cons c b ih =>
      have hc := hb c List.mem_cons_self
      refine Copied.append (v := [c]) (Copied.one (w := []) (hnoColon c hc).1 fun b after => ?_)
        (ih fun d hd => hb d (List.mem_cons_of_mem _ hd))
      have hword : (isAlpha c || (!false && (isDigit c || (ascii "+-.").contains c))) = true := by
        rw [Bool.not_false, Bool.true_and, ← Bool.or_assoc]
        exact hc
      change schemeWord L false (c :: b) after = some ([c], 1, false)
      unfold schemeWord
      dsimp only
      rw [current_cons, if_pos hword]
  obtain ⟨c, hc, halpha⟩ := x.scheme_start
  obtain ⟨b, hb⟩ := List.head?_eq_some_iff.mp hc
  have hchar := x.scheme_char
  rw [hb] at hchar ⊢
  refine Copied.append (v := [c])
    (Copied.one (w := []) (hnoColon c (hchar c List.mem_cons_self)).1 fun b after => ?_)
    (hrest b fun d hd => hchar d (List.mem_cons_of_mem _ hd))
  change schemeWord L true (c :: b) after = some ([c], 1, false)
  unfold schemeWord
  dsimp only
  rw [current_cons, halpha, Bool.true_or, if_pos rfl]

theorem noNul_of_scheme : nul ∉ x.scheme := fun h => absurd (x.scheme_char nul h) (by decide)

theorem userText_of_encoded {t : Bytes} (h : Encoded isUrlChar t) : UserText t := by
  refine ⟨h.text, fun c hc => ?_⟩
  rcases h.mem c hc with hc | hc
  · exact (isUrlChar_plain c hc).1
  · exact (triple_plain c hc).1

/-- The character class of queries and fragments has no NUL. -/
theorem plain_of_encoded {ok : Byte → Bool} (hok : ok nul = false) {t : Bytes} (h : Encoded ok t) :
    UrlText ok t ∧ nul ∉ t := by
  refine ⟨h.text, fun hmem => ?_⟩
  rcases h.mem nul hmem with hc | hc
  · rw [hok] at hc
    cases hc
  · exact absurd hc (by decide)

theorem delimited_inside {c : Byte} (hc : inAuthority c = true) {part : Option Bytes}
    (h : ∀ b ∈ part, ∀ d ∈ b, inAuthority d = true) : ∀ d ∈ delimited c part,
      inAuthority d = true := by
  cases part with
  | none => simp [delimited]
  | some b =>
    intro d hd
    rcases List.mem_cons.mp hd with rfl | hd
    · exact hc
    · exact h b rfl d hd

theorem userText_inside : ∀ c ∈ x.userText, inAuthority c = true := by
  intro c hc
  unfold userText at hc
  cases huser : x.user with
  | none => simp [huser] at hc
  | some u =>
    obtain ⟨hu, hp⟩ := x.user_text u huser
    rw [huser] at hc
    rcases List.mem_append.mp hc with hc | hc
    · exact (userText_of_encoded hu).2 c hc
    · exact delimited_inside isColon_inside
        (fun p hpass => (userText_of_encoded (hp p hpass)).2) c hc

theorem host_plain : ∀ c ∈ x.host, inAuthority c = true ∧ c < 128 ∧ c ≠ 91 := by
  intro c hc
  rcases hostLabels_mem c hc with hc | hc
  · have := isUrlChar_plain c hc
    exact ⟨this.1, this.2.2.2⟩
  · exact triple_plain c hc

theorem host_ne : x.host ≠ [] := by
  have hlabel := x.label.ne
  unfold host
  cases x.labels <;> simp [hostLabels, hlabel]

theorem hostinfo_inside : ∀ c ∈ x.hostinfo, inAuthority c = true := by
  have hdigit : ∀ c : Byte, isDigit c = true → inAuthority c = true := by decide +kernel
  intro c hc
  rcases List.mem_append.mp hc with hc | hc
  · exact (x.host_plain c hc).1
  · exact delimited_inside isColon_inside
      (fun d hd c hc => hdigit c ((x.port_digits d hd).2.1 c hc)) c hc

theorem hostinfo_noLiteral : x.hostinfo.head? ≠ some 91 := by
  obtain ⟨c, b, hb⟩ := List.exists_cons_of_ne_nil x.host_ne
  have hc := (x.host_plain c (by rw [hb]; exact List.mem_cons_self)).2.2
  rw [hostinfo, hb]
  exact fun h => hc (Option.some.inj h)

theorem tail_head : ∀ c ∈ x.tail.head?, inAuthority c = false ∧ c ≠ atSign := by
  have hpath : ∀ c ∈ x.path.head?, c = slash := by
    intro c hc
    rcases x.path_start with hnil | hs
    · simp [hnil] at hc
    · exact Option.some.inj (hc.symm.trans hs)
  intro c hc
  have hcases : c = slash ∨ c = question ∨ c = hash := by
    unfold tail at hc
    cases hp : x.path with
    | cons d b =>
      rw [hp] at hpath hc
      obtain rfl : d = c := Option.some.inj hc
      exact .inl (hpath d rfl)
    | nil =>
      rw [hp] at hc
      cases hq : x.query with
      | some q =>
        rw [hq] at hc
        exact .inr (.inl (Option.some.inj hc).symm)
      | none =>
        rw [hq] at hc
        cases hf : x.fragment with
        | some f =>
          rw [hf] at hc
          exact .inr (.inr (Option.some.inj hc).symm)
        | none =>
          rw [hf] at hc
          cases hc
  rcases hcases with rfl | rfl | rfl <;> decide

/-- The user info, unless there is nothing in front of the `@`. -/
theorem read_userPart (hu : u.user = none ∧ u.pass = none) :
    readUserPart u (x.userinfo ++ (x.hostinfo ++ x.tail)) [nul] =
      some ({ u with
        user := if x.userText = [] then none else x.user.map (·.1)
        pass := x.user.bind (·.2) }, x.hostinfo, x.tail) := by
  have hend : ∀ c ∈ x.tail.head?, inAuthority c = false := fun c hc => (x.tail_head c hc).1
  obtain ⟨htake, hdrop⟩ := takeWhile_inside x.hostinfo_inside hend
  obtain ⟨scheme, user, pass, host, port, path, query, fragment⟩ := u
  obtain ⟨rfl, rfl⟩ : user = none ∧ pass = none := hu
  have hinside := x.userText_inside
  unfold userText userinfo at *
  unfold readUserPart
  dsimp only
  cases huser : x.user with
  | none =>
    have hat : x.tail.head? ≠ some atSign := fun h => (x.tail_head _ h).2 rfl
    rw [Option.elim_none, List.nil_append, htake, hdrop, if_neg hat]
    rfl
  | some v =>
    rw [huser] at hinside
    obtain ⟨hvtake, hvdrop⟩ := takeWhile_inside (b := atSign :: (x.hostinfo ++ x.tail)) hinside
      (by rintro c ⟨⟩; decide)
    rw [Option.elim_some] at hvtake hvdrop
    rw [Option.elim_some, List.append_assoc _ [atSign], List.singleton_append, hvtake, hvdrop,
      if_pos (by rfl), List.tail_cons, htake, hdrop, Option.elim_some]
    by_cases hnil : v.1 ++ delimited colon v.2 = []
    · have hpass : v.2 = none := by
        cases hv : v.2 with
        | none => rfl
        | some p => simp [hv, delimited] at hnil
      rw [if_pos hnil, if_pos hnil, Option.bind_some, hpass]
      rfl
    · obtain ⟨hv, hp⟩ := x.user_text v huser
      rw [if_neg hnil, if_neg hnil, readUserinfo_given rfl (userText_of_encoded hv)
        fun p hpass => userText_of_encoded (hp p hpass)]
      rfl

theorem read_hostinfo (hascii : ∀ idna ∈ L.idna, ∀ name,
    (∀ c ∈ name, c < 128) → idna name = some name) (hu : u.port = 0)
    (h : LabelsRead x.label x.labels) (after : Bytes) :
    readHostinfo L u x.hostinfo after =
      some { u with host := some x.host, port := x.port.elim 0 (numeral 10) } := by
  obtain ⟨label, hcopied⟩ := hostLabels_copied h
  have hscan := hcopied.scan_end after (delimited_head (show isColon colon = true from rfl) x.port)
  have hport := portScan_digits (fun d hd => (x.port_digits d hd).2.1) after
  have hvalue : x.port.elim 0 (numeral 10) < 2 ^ 16 := by
    cases hp : x.port with
    | none => decide
    | some d =>
      have := (x.port_digits d hp).2.2
      rw [Option.elim_some]
      omega
  have hcut := cString_of_noNul (noNul_of_inAuthority fun c hc => (x.host_plain c hc).1)
  have hname : idnName L x.host = some x.host := by
    unfold idnName
    cases hidna : L.idna with
    | none => rfl
    | some idna => exact hascii idna hidna _ fun c hc => (x.host_plain c hc).2.1
  unfold readHostinfo readHostRest
  rw [if_neg x.hostinfo_noLiteral, hostinfo]
  change (scan isColon hostWord after false 0 (x.host ++ delimited colon x.port) >>= _) = _
  rw [show x.host = hostLabels x.label x.labels from rfl] at hcut hname ⊢
  rw [hscan, Option.bind_eq_bind, Option.bind_some, hu, hport, Nat.mod_eq_of_lt hvalue]
  simp [hcut, hname]

theorem read_hostinfo_refused (h : ¬ LabelsRead x.label x.labels) (after : Bytes) :
    readHostinfo L u x.hostinfo after = none := by
  unfold readHostinfo readHostRest
  rw [if_neg x.hostinfo_noLiteral, hostinfo]
  exact congrArg (Option.bind · _) (hostLabels_refused h _ after)

theorem read_tail (hu : u.path = none ∧ u.query = none ∧ u.fragment = none) :
    readTail u x.tail = if x.fragment = some [] then none else
      some { u with path := present x.path, query := x.query, fragment := x.fragment } := by
  have hquery := fun q hq => plain_of_encoded (by decide) (x.query_text q hq)
  have hfragment := fun f hf => plain_of_encoded (by decide) (x.fragment_text f hf)
  have hend : ∀ c ∈ (delimited question x.query ++ delimited hash x.fragment).head?,
      isPathEnd c = true := by
    cases x.query with
    | some q => exact delimited_head (c := question) (by decide) (some q)
    | none => exact delimited_head (c := hash) (by decide) x.fragment
  obtain ⟨scheme, user, pass, host, port, path, query, fragment⟩ := u
  obtain ⟨rfl, rfl, rfl⟩ : path = none ∧ query = none ∧ fragment = none := hu
  unfold readTail
  rw [show x.tail = x.path ++ (delimited question x.query ++ delimited hash x.fragment) from rfl,
    readPath_part (plain_of_encoded (by decide) x.path_text) hend, Option.bind_some]
  dsimp only
  rw [readQuery_given rfl hquery (delimited_head (by decide) _), Option.bind_some,
    readFragment_given rfl hfragment]
  rfl

/-- What the parser makes of the text. -/
theorem read_text (hascii : ∀ idna ∈ L.idna, ∀ name,
    (∀ c ∈ name, c < 128) → idna name = some name) :
    urlRead L x.text [nul] = if LabelsRead x.label x.labels ∧ x.fragment ≠ some [] then
      some { x.components with user := if x.userText = [] then none else x.user.map (·.1) }
        else none := by
  have hscheme : readScheme L noUrl x.text [nul] = ({ noUrl with scheme := some x.scheme },
      slash :: slash :: (x.userinfo ++ (x.hostinfo ++ x.tail))) := by
    unfold readScheme text
    rw [(x.scheme_copied L).scan_stop (by rfl)]
    simp [cString_of_noNul x.noNul_of_scheme]
  have hat : x.tail.head? ≠ some atSign := fun h => (x.tail_head _ h).2 rfl
  have hne : x.hostinfo ≠ [] := by simp [hostinfo, x.host_ne]
  rw [urlRead_eq, hscheme]
  dsimp only
  rw [if_pos (by rfl), List.drop_succ_cons, List.drop_succ_cons, List.drop_zero, readAuthority,
    x.read_userPart ⟨rfl, rfl⟩, Option.bind_some]
  dsimp only
  rw [if_neg hat, if_neg hne]
  by_cases hlabels : LabelsRead x.label x.labels
  · rw [x.read_hostinfo hascii rfl hlabels, Option.map_some, Option.bind_some,
      x.read_tail ⟨rfl, rfl, rfl⟩]
    by_cases hf : x.fragment = some [] <;> simp [hlabels, hf, components]
  · rw [x.read_hostinfo_refused hlabels, if_neg fun h => hlabels h.1]
    rfl

theorem hostinfoAt (L : UrlLibs) : ∀ o ∈ ExtHttp.hostinfoAt L x.text [nul], o.2 = x.hostinfo := by
  have hshows := parseScheme_shows L x.text [nul]
  have hscheme : readScheme L noUrl x.text [nul] = ({ noUrl with scheme := some x.scheme },
      slash :: slash :: (x.userinfo ++ (x.hostinfo ++ x.tail))) := by
    unfold readScheme text
    rw [(x.scheme_copied L).scan_stop (by rfl)]
    simp [cString_of_noNul x.noNul_of_scheme]
  rw [hscheme] at hshows
  unfold ExtHttp.hostinfoAt
  generalize parseScheme L urlStart x.text [nul] = o at hshows
  obtain ⟨st, rest⟩ := o
  obtain ⟨hst, rfl⟩ := hshows
  dsimp only at hst ⊢
  rw [if_pos (by rfl)]
  intro o ho
  obtain ⟨o', ho', rfl⟩ := Option.map_eq_some_iff.mp ho
  have hrel := parseUserPart_shows hst (x.userinfo ++ (x.hostinfo ++ x.tail)) [nul]
  rw [x.read_userPart ⟨rfl, rfl⟩] at hrel
  change parseUserPart st (x.userinfo ++ (x.hostinfo ++ x.tail)) [nul] = some o' at ho'
  rw [ho'] at hrel
  cases hrel with
  | some h => exact congrArg Prod.fst h.2

end UrlGrammar

/-- A URL that follows the grammar is read part by part unless its user info or its fragment is
empty, or a label of its host has nothing but triplets in front of a dot or a hyphen. -/
theorem urlParse_grammar_iff {L : UrlLibs}
    (hascii : ∀ idna ∈ L.idna, ∀ name, (∀ c ∈ name, c < 128) → idna name = some name)
    (x : UrlGrammar) :
    urlParse L x.text [nul] = some x.components ↔ x.Reads := by
  have hroomy : ∀ o ∈ hostinfoAt L x.text [nul], Roomy L o.1 o.2 := by
    intro o ho _ hhead
    rw [x.hostinfoAt L o ho] at hhead
    exact absurd hhead x.hostinfo_noLiteral
  have huser : (if x.userText = [] then none else x.user.map (·.1)) = x.user.map (·.1) ↔
      x.user ≠ some ([], none) := by
    unfold UrlGrammar.userText
    match x.user with
    | none => simp
    | some ([], none) => simp [delimited]
    | some ([], some p) => simp [delimited]
    | some (c :: t, p) => simp
  rw [urlParse_eq_read hroomy, x.read_text hascii]
  constructor
  · intro h
    by_cases hcond : LabelsRead x.label x.labels ∧ x.fragment ≠ some []
    · rw [if_pos hcond] at h
      exact ⟨huser.mp (congrArg HttpUrl.user (Option.some.inj h)), hcond.1, hcond.2⟩
    · rw [if_neg hcond] at h
      cases h
  · rintro ⟨hu, hlabels, hfragment⟩
    rw [if_pos ⟨hlabels, hfragment⟩, huser.mpr hu]
    rfl

/-- `http://u:p@h.x:80/a?b#f` with the given fragment -/
def exampleUrl (fragment : Option Bytes) (h : ∀ f ∈ fragment, f.all isQueryChar = true) :
    UrlGrammar where
  scheme := ascii "http"
  user := some (ascii "u", some (ascii "p"))
  label := ⟨ascii "h", encoded_of_all (by decide), by decide, by decide⟩
  labels := [⟨ascii "x", encoded_of_all (by decide), by decide, by decide⟩]
  port := some (ascii "80")
  path := ascii "/a"
  query := some (ascii "b")
  fragment := fragment
  scheme_start := ⟨104, by decide, by decide⟩
  scheme_char := List.all_eq_true.mp (by decide)
  user_text := by
    rintro u ⟨⟩
    refine ⟨encoded_of_all (by decide), ?_⟩
    rintro p ⟨⟩
    exact encoded_of_all (by decide)
  port_digits := by
    rintro d ⟨⟩
    exact ⟨by decide, List.all_eq_true.mp (by decide), by decide⟩
  path_text := encoded_of_all (by decide)
  path_start := .inr (by decide)
  query_text := by
    rintro q ⟨⟩
    exact encoded_of_all (by decide)
  fragment_text := fun f hf => encoded_of_all (h f hf)

/-- An empty fragment is refused. -/
theorem urlParse_emptyFragment :
    urlParse asciiLibs (exampleUrl (some []) (by simp)).text [nul] = none ∧
    urlParse asciiLibs (exampleUrl (some []) (by simp)).text [nul] ≠
      some (exampleUrl (some []) (by simp)).components := by
  have hparse : urlParse asciiLibs (exampleUrl (some []) (by simp)).text [nul] = none := by
    decide +kernel
  exact ⟨hparse, by rw [hparse]; exact Option.some_ne_none _ |>.symm⟩

theorem urlParse_exampleUrl :
    urlParse asciiLibs (exampleUrl (some (ascii "f")) (by decide)).text [nul] =
      some (exampleUrl (some (ascii "f")) (by decide)).components :=
  (urlParse_grammar_iff asciiLibs_sane.idna_ascii _).mpr ⟨by decide, by decide, by decide⟩

end ExtHttp
