import ExtHttp.UrlText

/-!
# The parts of a URL text

A text is cut at its delimiters. Each component is read from its part alone, unless a triple that is
not complete takes the delimiter, and is then such that it is copied when it is read again.
-/
namespace ExtHttp
open Scan

/-! ### Host names -/

/-- A name that is copied when it is read, and ends where a host does. -/
structure HostName (name : Bytes) : Prop where
  copied : ∃ label, Copied isColon hostWord false name label
  inside : ∀ c ∈ name, inAuthority c = true
  pos : name ≠ []
  noLiteral : name.head? ≠ some 91

/-- What is taken for granted of the libraries: addresses come in one form; ASCII names stay as they
are, other host names become such names, and what is no host name is refused or left alone; among
ASCII characters only letters and digits are alphanumeric. -/
structure UrlLibs.Sane (L : UrlLibs) : Prop where
  addr : ∀ text addr, L.inet6 text = some addr → L.inet6 addr = some addr
  addr_char : ∀ text addr, L.inet6 text = some addr →
    ∀ c ∈ addr, isBaseDigit 16 c = true ∨ c = colon ∨ c = dot
  idna_ascii : ∀ idna ∈ L.idna, ∀ name, (∀ c ∈ name, c < 128) → idna name = some name
  idna_name : ∀ idna ∈ L.idna, ∀ name idn, HostName name → idna name = some idn →
    HostName idn ∧ ∀ c ∈ idn, c < 128
  idna_other : ∀ idna ∈ L.idna, ∀ name idn, ¬ HostName name → idna name = some idn → idn = name
  isualnum : ∀ c : Byte, c < 128 → L.isualnum c.toNat = isAlnum c

/-! ### The parts -/

structure UrlParts where
  scheme : Bytes
  userinfo : Bytes
  hostinfo : Bytes
  tail : Bytes
  deriving DecidableEq, Repr

/-- The scheme of a text, and what follows it. -/
def schemePart (L : UrlLibs) (str : Bytes) : Bytes × Bytes :=
  match scan isColon (schemeWord L) [nul] true 0 str with
  | some ⟨scheme, _, _ :: rest, _⟩ => (scheme, rest)
  | _ => ([], str)

/-- User info, host with port, and the rest of what follows `//`. -/
def authorityParts (b : Bytes) : Bytes × Bytes × Bytes :=
  let part := b.takeWhile inAuthority
  let left := b.dropWhile inAuthority
  if left.head? = some atSign then
    (part, left.tail.takeWhile inAuthority, left.tail.dropWhile inAuthority)
  else ([], part, left)

def urlParts (L : UrlLibs) (str : Bytes) : UrlParts :=
  let (scheme, rest) := schemePart L str
  if rest.take 2 = [slash, slash] then
    let (userinfo, hostinfo, tail) := authorityParts (rest.drop 2)
    ⟨scheme, userinfo, hostinfo, tail⟩
  else ⟨scheme, [], [], rest⟩

/-- A triple in front of `stop` takes a NUL; the first `skip` characters belong to one. -/
def takesNul (stop : Byte → Bool) : ℕ → Bytes → Bool
  | _, [] => false
  | skip + 1, c :: b => c = nul || takesNul stop skip b
  | 0, c :: b => !stop c && takesNul stop (if c = percent then 2 else 0) b

/-- No user name, though there may be a password. -/
def Userless (userinfo : Bytes) : Prop := userinfo = [] ∨ userinfo.head? = some colon

/-- No host name, though there may be a port. -/
def Hostless (hostinfo : Bytes) : Prop :=
  hostinfo = [] ∨ hostinfo.head? = some colon ∧ ∀ c ∈ hostinfo.tail, isDigit c = true

instance : DecidablePred Userless := fun _ => inferInstanceAs (Decidable (_ ∨ _))
instance : DecidablePred Hostless := fun _ => inferInstanceAs (Decidable (_ ∨ _))

def portNumber (digits : Bytes) : ℕ :=
  digits.foldl (fun port c => (port * 10 + (c.toNat - 48)) % 2 ^ 16) 0

/-- Nothing is swallowed or left out: there is no password without a user and no port without a
host, user info, host, path and query do not end in a triple that is not complete, and without a
scheme, a user and a host the path does not begin with `//`. -/
structure UrlParts.Sound (p : UrlParts) : Prop where
  password : p.userinfo.head? = some colon → p.userinfo = [colon]
  userinfo : dangling p.userinfo = false
  hostinfo : p.hostinfo.head? ≠ some 91 → dangling p.hostinfo = false
  port : Hostless p.hostinfo → portNumber p.hostinfo.tail = 0
  path : p.scheme = [] → Userless p.userinfo → Hostless p.hostinfo → p.tail.take 2 ≠ [slash, slash]
  tail : p.tail.head? = some nul ∨ takesNul isHash 0 p.tail = false

/-! ### Scheme -/

variable {L : UrlLibs} {u : HttpUrl}

theorem readScheme_part (L : UrlLibs) (str : Bytes) :
    (∃ first, Copied isColon (schemeWord L) true (schemePart L str).1 first) ∧
      (readScheme L noUrl str [nul] = (noUrl, (schemePart L str).2) ∧ (schemePart L str).1 = [] ∨
        readScheme L noUrl str [nul] =
          ({ noUrl with scheme := some (cString (schemePart L str).1) },
            (schemePart L str).2)) := by
  unfold schemePart readScheme
  cases ho : scan isColon (schemeWord L) [nul] true 0 str with
  | none => exact ⟨⟨true, .nil true⟩, .inl ⟨rfl, rfl⟩⟩
  | some o =>
    have hcopied := copied_written (fun _ _ _ _ _ _ hc hw => schemeWord_copied hc hw) ho
    obtain ⟨scheme, first, rest, excess⟩ := o
    cases rest with
    | nil => exact ⟨⟨true, .nil true⟩, .inl ⟨rfl, rfl⟩⟩
    | cons c rest => exact ⟨⟨first, hcopied⟩, .inr rfl⟩

theorem utf8ToWc_ascii {c : Byte} (h : c < 128) (b : Bytes) :
    utf8ToWc (c :: b) = some (c.toNat, 1) := by
  have hone : ∀ c : Byte, c < 128 → utf8MbLen c = 1 ∧ c &&& 127 = c := by decide +kernel
  obtain ⟨hlen, hmask⟩ := hone c h
  simp [utf8ToWc, hlen, hmask]

theorem UrlLibs.Sane.scheme_noNul (hL : L.Sane) (str : Bytes) : nul ∉ (schemePart L str).1 := by
  have hword : ∀ first c b w n first', isColon c = false →
      schemeWord L first (c :: b) [nul] = some (w, n, first') → ∀ d ∈ w, d ≠ nul := by
    intro first c b w n first' _ h d hd
    unfold schemeWord at h
    dsimp only at h
    rw [current_cons] at h
    split_ifs at h with ha hd'
    · cases h
      rw [List.mem_singleton.mp hd]
      rintro rfl
      revert ha
      cases first <;> decide
    · obtain ⟨o, ho, h⟩ := Option.bind_eq_some_iff.mp h
      split_ifs at h with hwide
      cases h
      obtain ⟨m, hm, -, hcont⟩ := utf8ToWc_some ho
      rw [hm, List.take_succ_cons] at hd
      rcases List.mem_cons.mp hd with rfl | hd
      · rintro rfl
        rw [utf8ToWc_ascii (by decide)] at ho
        cases ho
        have := hL.isualnum nul (by decide)
        rw [hwide] at this
        revert this
        decide
      · rintro rfl
        exact absurd (hcont _ hd) (by decide)
  unfold schemePart
  split
  · rename_i ho
    exact fun hmem => forall_written hword ho nul hmem rfl
  · simp

/-! ### User info -/

/-- A user name or a password as it is written. -/
def UserText (w : Bytes) : Prop := UrlText isUrlChar w ∧ ∀ c ∈ w, inAuthority c = true

theorem UserText.nil : UserText [] := ⟨.nil, by simp⟩

theorem inAuthority_triple {c : Byte} (h : c = percent ∨ isBaseDigit 16 c = true) :
    inAuthority c = true := by
  revert c
  decide +kernel

theorem noNul_of_inAuthority {b : Bytes} (h : ∀ c ∈ b, inAuthority c = true) : nul ∉ b :=
  fun hmem => absurd (h nul hmem) (by decide)

theorem mbToPct_pos {rest w : Bytes} {n : ℕ} (h : mbToPct rest = some (w, n)) : w ≠ [] := by
  cases rest with
  | nil => cases h
  | cons c b =>
    obtain ⟨o, ho, heq⟩ := Option.map_eq_some_iff.mp h
    obtain ⟨m, hm, -⟩ := utf8ToWc_some ho
    obtain ⟨rfl, -⟩ := Prod.mk.inj heq
    rw [hm]
    exact List.cons_ne_nil _ _

theorem userinfoWord_pos {s s' : Unit} {c : Byte} {b after w : Bytes} {n : ℕ}
    (h : userinfoWord s (c :: b) after = some (w, n, s')) : w ≠ [] := by
  unfold userinfoWord at h
  dsimp only at h
  split_ifs at h
  · obtain ⟨x, y, -, rfl, -⟩ := percentWord_eq (plainWord_some h).1
    exact List.cons_ne_nil _ _
  · obtain ⟨heq, -⟩ := plainWord_some h
    cases heq
    exact List.cons_ne_nil _ _
  · exact mbToPct_pos (plainWord_some h).1

/-- A loop over user info that ends in its text. -/
theorem userText_written (stop : Byte → Bool) (hstop : ∀ c, stop c = true → c = colon)
    {b after : Bytes} (hb : ∀ c ∈ b, inAuthority c = true) {o : Outcome Byte Byte Unit}
    (ho : scan stop userinfoWord after () 0 b = some o) (hexcess : o.excess = 0) :
    UserText o.written := by
  refine ⟨(copies_userinfo stop hstop).written ho, fun c hc => ?_⟩
  rcases (tripleLoop_userinfo stop hstop).mem_written ho hexcess c hc with hc | hc
  · exact hb c hc
  · exact inAuthority_triple hc

theorem isColon_eq {c : Byte} (h : isColon c = true) : c = colon := of_decide_eq_true h

theorem readUserinfo_part (hpass : u.pass = none) {r after : Bytes}
    (hr : ∀ c ∈ r, inAuthority c = true) (hdangling : dangling r = false) {u' : HttpUrl}
    (h : readUserinfo u r after = some u') :
    ∃ user pass, u' = { u with user := some user, pass := pass } ∧ UserText user ∧
      UserText (pass.getD []) ∧ (user = [] → Userless r) ∧ (r = [colon] → pass.getD [] = []) := by
  obtain ⟨user, huser, h⟩ := Option.bind_eq_some_iff.mp h
  rw [(tripleLoop_userinfo isColon fun _ => isColon_eq).dangling huser, Bool.or_eq_false_iff,
    decide_eq_false_iff_not, Nat.not_lt, Nat.le_zero] at hdangling
  have htext := userText_written isColon (fun _ => isColon_eq) hr huser hdangling.1
  have hempty : user.written = [] → Userless r := fun hnil => by
    rcases (of_written_nil (fun _ _ _ _ _ _ _ => userinfoWord_pos) huser hnil).1 with
      rfl | ⟨c, hc, hcolon⟩
    · exact .inl rfl
    · exact .inr (by rw [hc, isColon_eq hcolon])
  rw [cString_of_noNul (noNul_of_inAuthority htext.2)] at h
  have hsuffix := rest_suffix huser
  have hhead := rest_head huser
  cases hrest : user.rest with
  | nil =>
    rw [hrest] at h
    refine ⟨user.written, none, ?_, htext, .nil, hempty, fun _ => rfl⟩
    rw [← hpass]
    exact (Option.some.inj h).symm
  | cons c rest =>
    rw [hrest] at h hsuffix hhead hdangling
    obtain rfl := isColon_eq (hhead c rfl)
    obtain ⟨pass, hp, h⟩ := Option.bind_eq_some_iff.mp h
    have hdang := hdangling.2
    rw [show dangling (colon :: rest) = dangling rest from rfl,
      (tripleLoop_userinfo never (by simp [never])).dangling hp, Bool.or_eq_false_iff,
      decide_eq_false_iff_not, Nat.not_lt, Nat.le_zero] at hdang
    have hpr : ∀ c ∈ rest, inAuthority c = true := fun c hc =>
      hr c (hsuffix.subset (List.mem_cons_of_mem _ hc))
    have hptext := userText_written never (by simp [never]) hpr hp hdang.1
    rw [cString_of_noNul (noNul_of_inAuthority hptext.2)] at h
    refine ⟨user.written, some pass.written, (Option.some.inj h).symm, htext, hptext, hempty, ?_⟩
    rintro rfl
    obtain rfl : rest = [] := by
      have := hsuffix.length_le
      simpa using this
    rw [scan_nil] at hp
    obtain rfl := Option.some.inj hp
    rfl

/-! ### Host and port -/

theorem hostWord_head {label label' : Bool} {c : Byte} {b after w : Bytes} {n : ℕ}
    (h : hostWord label (c :: b) after = some (w, n, label')) : w.head? = some c := by
  unfold hostWord at h
  dsimp only at h
  rw [current_cons] at h
  split_ifs at h with hp
  · obtain ⟨x, y, -, rfl, -⟩ := percentWord_eq (plainWord_some h).1
    exact congrArg some hp.symm
  · cases h
    rfl
  · cases h
    rfl
  · cases h
    rfl
  · obtain ⟨o, ho, heq⟩ := Option.map_eq_some_iff.mp h
    obtain ⟨m, hm, -⟩ := utf8ToWc_some ho
    cases heq
    rw [hm]
    rfl

/-- Nothing but triples. -/
abbrev Triples (w : Bytes) : Prop := UrlText (fun _ => false) w

theorem Triples.copied {w : Bytes} (h : Triples w) (label : Bool) :
    Copied isColon hostWord label w label := by
  induction h with
  | nil => exact .nil label
  | char hc => cases hc
  | triple hxy _ ih =>
    refine Copied.append (v := [_, _, _]) (Copied.one (w := [_, _]) rfl fun b after => ?_) ih
    exact (congrArg (plainWord · label) (percentWord_triple hxy b after)).trans rfl

theorem portWord_cases {port port' : ℕ} {c : Byte} {b after w : Bytes} {n : ℕ}
    (h : portWord port (c :: b) after = some (w, n, port')) :
    (w ≠ [] ∧ Triples w ∧ port' = port) ∨
      w = [] ∧ n = 1 ∧ isDigit c = true ∧ port' = (port * 10 + (c.toNat - 48)) % 2 ^ 16 := by
  unfold portWord at h
  dsimp only at h
  rw [current_cons] at h
  split_ifs at h with hp hd
  · obtain ⟨heq, rfl⟩ := plainWord_some h
    have htriples := percentWord_text (fun _ => false) heq
    obtain ⟨x, y, -, rfl, -⟩ := percentWord_eq heq
    exact .inl ⟨List.cons_ne_nil _ _, htriples, rfl⟩
  · cases h
    exact .inr ⟨rfl, rfl, hd, rfl⟩

theorem port_written {after b : Bytes} {port : ℕ} {o : Outcome Byte Byte ℕ}
    (h : scan never portWord after port 0 b = some o) (hport : port < 2 ^ 16) :
    Triples o.written ∧ o.state < 2 ^ 16 ∧ (o.written = [] → (∀ c ∈ b, isDigit c = true) ∧
      o.state = b.foldl (fun port c => (port * 10 + (c.toNat - 48)) % 2 ^ 16) port) := by
  revert hport
  refine scan_induction (motive := fun port b o => port < 2 ^ 16 → Triples o.written ∧
    o.state < 2 ^ 16 ∧ (o.written = [] → (∀ c ∈ b, isDigit c = true) ∧
      o.state = b.foldl (fun port c => (port * 10 + (c.toNat - 48)) % 2 ^ 16) port))
    (fun port b hend hport => ?_) (fun port c rest w n port' _ hw hn hport => ?_)
    (fun port c rest w n port' o _ hw hn ih hport => ?_) h
  · refine ⟨.nil, hport, fun _ => ?_⟩
    rcases hend with rfl | ⟨c, -, hc⟩
    · exact ⟨by simp, rfl⟩
    · cases hc
  · rcases portWord_cases hw with ⟨hne, htriples, rfl⟩ | ⟨-, rfl, -⟩
    · exact ⟨htriples, hport, fun hnil => absurd hnil hne⟩
    · omega
  · rcases portWord_cases hw with ⟨hne, htriples, rfl⟩ | ⟨rfl, rfl, hdigit, rfl⟩
    · obtain ⟨ht, hlt, -⟩ := ih hport
      exact ⟨htriples.append ht, hlt, fun hnil => absurd (List.append_eq_nil_iff.mp hnil).1 hne⟩
    · obtain ⟨ht, hlt, hdigits⟩ := ih (Nat.mod_lt _ (by norm_num))
      refine ⟨ht, hlt, fun hnil => ?_⟩
      obtain ⟨hall, hstate⟩ := hdigits hnil
      exact ⟨by simpa [hdigit] using hall, hstate⟩

/-- A host as it is written: a name, or a literal address. -/
def HostText (L : UrlLibs) (host : Bytes) : Prop :=
  HostName host ∧ idnName L host = some host ∨
    ∃ text addr, L.inet6 text = some addr ∧ host = 91 :: addr ++ [93]

theorem UrlLibs.Sane.idnName_ascii (hL : L.Sane) {name : Bytes} (h : ∀ c ∈ name, c < 128) :
    idnName L name = some name := by
  unfold idnName
  cases hidna : L.idna with
  | none => rfl
  | some idna => exact hL.idna_ascii idna hidna name h

theorem UrlLibs.Sane.idnName_host (hL : L.Sane) {name idn : Bytes} (h : HostName name)
    (hidn : idnName L name = some idn) : HostName idn ∧ idnName L idn = some idn := by
  unfold idnName at hidn ⊢
  cases hidna : L.idna with
  | none =>
    rw [hidna] at hidn
    obtain rfl := Option.some.inj hidn
    exact ⟨h, rfl⟩
  | some idna =>
    rw [hidna] at hidn
    obtain ⟨hname, hascii⟩ := hL.idna_name idna hidna name idn h hidn
    exact ⟨hname, hL.idna_ascii idna hidna idn hascii⟩

theorem portScan_written {after rest : Bytes} {port : ℕ} {o : Outcome Byte Byte ℕ}
    (h : portScan port rest after = some o) (hport : port < 2 ^ 16) :
    Triples o.written ∧ o.state < 2 ^ 16 ∧ (o.written = [] → (∀ c ∈ rest.tail, isDigit c = true) ∧
      o.state = rest.tail.foldl (fun port c => (port * 10 + (c.toNat - 48)) % 2 ^ 16) port) := by
  cases rest with
  | nil =>
    obtain rfl := Option.some.inj h
    exact ⟨.nil, hport, fun _ => ⟨by simp, rfl⟩⟩
  | cons c rest => exact port_written h hport

theorem portScan_inside {after rest : Bytes} {port : ℕ} {o : Outcome Byte Byte ℕ}
    (hr : ∀ c ∈ rest, inAuthority c = true) (hhead : ∀ c ∈ rest.head?, isColon c = true)
    (hdangling : dangling rest = false) (h : portScan port rest after = some o) :
    ∀ c ∈ o.written, inAuthority c = true := by
  cases rest with
  | nil =>
    obtain rfl := Option.some.inj h
    simp
  | cons c rest =>
    obtain rfl := isColon_eq (hhead c rfl)
    have hport : scan never portWord after port 0 rest = some o := h
    rw [show dangling (colon :: rest) = dangling rest from rfl, tripleLoop_port.dangling hport,
      Bool.or_eq_false_iff, decide_eq_false_iff_not, Nat.not_lt, Nat.le_zero] at hdangling
    intro d hd
    rcases tripleLoop_port.mem_written hport hdangling.1 d hd with hd | hd
    · exact hr d (List.mem_cons_of_mem _ hd)
    · exact inAuthority_triple hd

/-- What host and port leave of a text that does not begin with a literal address. -/
theorem hostScan_text {h after : Bytes} (hr : ∀ c ∈ h, inAuthority c = true)
    (hliteral : h.head? ≠ some 91) (hdangling : dangling h = false) {host : Outcome Byte Byte Bool}
    {port : Outcome Byte Byte ℕ} (hhost : scan isColon hostWord after false 0 h = some host)
    (hport : portScan 0 host.rest after = some port) :
    (host.written ++ port.written = [] ∧ Hostless h ∧ port.state = portNumber h.tail) ∨
      HostName (host.written ++ port.written) := by
  rw [tripleLoop_host.dangling hhost, Bool.or_eq_false_iff, decide_eq_false_iff_not, Nat.not_lt,
    Nat.le_zero] at hdangling
  obtain ⟨htriples, -, hdigits⟩ := portScan_written hport (by norm_num)
  by_cases hnil : host.written ++ port.written = []
  · obtain ⟨hhnil, hpnil⟩ := List.append_eq_nil_iff.mp hnil
    have hpos : ∀ (s : Bool) (c : Byte) (b w : Bytes) (n : ℕ) (s' : Bool), isColon c = false →
        hostWord s (c :: b) after = some (w, n, s') → w ≠ [] := by
      rintro _ c _ _ _ _ _ hw rfl
      cases hostWord_head hw
    obtain ⟨hend, rfl⟩ := of_written_nil hpos hhost hhnil
    obtain ⟨hall, hstate⟩ := hdigits hpnil
    refine .inl ⟨hnil, ?_, hstate⟩
    rcases hend with rfl | ⟨c, hc, hcolon⟩
    · exact .inl rfl
    · exact .inr ⟨by rw [hc, isColon_eq hcolon], hall⟩
  · refine .inr ⟨⟨_, (copied_written (fun _ _ _ _ _ _ => hostWord_copied) hhost).append
      (htriples.copied _)⟩, fun c hc => ?_, hnil, ?_⟩
    · rcases List.mem_append.mp hc with hc | hc
      · rcases tripleLoop_host.mem_written hhost hdangling.1 c hc with hc | hc
        · exact hr c hc
        · exact inAuthority_triple hc
      · exact portScan_inside (fun c hc => hr c ((rest_suffix hhost).subset hc)) (rest_head hhost)
          hdangling.2 hport c hc
    · intro hhead
      by_cases hhnil : host.written = []
      · rw [hhnil, List.nil_append] at hhead hnil
        generalize port.written = w at htriples hhead hnil
        cases htriples with
        | nil => exact hnil rfl
        | char hc => cases hc
        | triple => cases hhead
      · rcases scan_cases hhost with ⟨-, rfl⟩ | ⟨c, rest, w, n, s', o', rfl, -, hw, -, rfl⟩
        · exact hhnil rfl
        · have hc := hostWord_head hw
          obtain ⟨w, rfl⟩ := List.head?_eq_some_iff.mp hc
          exact hliteral hhead

theorem literal_ascii {addr : Bytes}
    (h : ∀ c ∈ addr, isBaseDigit 16 c = true ∨ c = colon ∨ c = dot) :
    ∀ c ∈ (91 :: addr ++ [93] : Bytes), c < 128 ∧ inAuthority c = true := by
  have hchar : ∀ c : Byte, isBaseDigit 16 c = true ∨ c = colon ∨ c = dot →
      c < 128 ∧ inAuthority c = true := by decide +kernel
  intro c hc
  simp only [List.cons_append, List.mem_cons, List.mem_append, List.not_mem_nil, or_false] at hc
  rcases hc with rfl | hc | rfl
  · decide
  · exact hchar c (h c hc)
  · decide

theorem readHostinfo_part (hL : L.Sane) (hport : u.port = 0) {h after : Bytes}
    (hr : ∀ c ∈ h, inAuthority c = true) (hdangling : h.head? ≠ some 91 → dangling h = false)
    {u' : HttpUrl} (hread : readHostinfo L u h after = some u') :
    ∃ host port, u' = { u with host := some host, port := port } ∧ port < 2 ^ 16 ∧
      (host = [] ∧ Hostless h ∧ port = portNumber h.tail ∨ HostText L host) ∧
      (host.head? = some 91 → h.head? = some 91 ∧ ∃ rest, ip6Text L h = some (host, rest)) := by
  unfold readHostinfo at hread
  split_ifs at hread with hliteral
  · obtain ⟨⟨a, rest⟩, ha, hread⟩ := Option.bind_eq_some_iff.mp hread
    obtain ⟨addr, haddr, rfl⟩ := ip6Text_literal ha
    obtain ⟨host, -, hread⟩ := Option.bind_eq_some_iff.mp hread
    obtain ⟨port, hportScan, hread⟩ := Option.bind_eq_some_iff.mp hread
    obtain ⟨name, hname, rfl⟩ := Option.map_eq_some_iff.mp hread
    rw [hport] at hportScan
    have hascii := literal_ascii (hL.addr_char _ _ haddr)
    have hnul := noNul_of_inAuthority fun c hc => (hascii c hc).2
    rw [Option.getD_some, cString_of_noNul hnul,
      hL.idnName_ascii fun c hc => (hascii c hc).1] at hname
    obtain rfl := Option.some.inj hname
    rw [cString_of_noNul hnul]
    exact ⟨_, _, rfl, (portScan_written hportScan (by norm_num)).2.1,
      .inr (.inr ⟨_, addr, haddr, rfl⟩), fun _ => ⟨hliteral, rest, ha⟩⟩
  · obtain ⟨host, hhost, hread⟩ := Option.bind_eq_some_iff.mp hread
    obtain ⟨port, hportScan, hread⟩ := Option.bind_eq_some_iff.mp hread
    obtain ⟨name, hname, rfl⟩ := Option.map_eq_some_iff.mp hread
    rw [hport] at hportScan
    refine ⟨_, _, rfl, (portScan_written hportScan (by norm_num)).2.1, ?_⟩
    rw [Option.getD_none] at hname
    rcases hostScan_text hr hliteral (hdangling hliteral) hhost hportScan with ⟨hnil, hless,
      hnumber⟩ | hhn
    · rw [hnil, show cString [] = [] from rfl, hL.idnName_ascii (by simp)] at hname
      obtain rfl := Option.some.inj hname
      exact ⟨.inl ⟨rfl, hless, hnumber⟩, fun h => by cases h⟩
    · rw [cString_of_noNul (noNul_of_inAuthority hhn.inside)] at hname
      obtain ⟨hidn, hfix⟩ := hL.idnName_host hhn hname
      rw [cString_of_noNul (noNul_of_inAuthority hidn.inside)]
      exact ⟨.inr (.inl ⟨hidn, hfix⟩), fun h => absurd h hidn.noLiteral⟩

end ExtHttp
