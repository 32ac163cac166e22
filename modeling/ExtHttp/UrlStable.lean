import ExtHttp.UrlTail

/-!
# URLs that are read back as they are written
-/
namespace ExtHttp
open Scan

variable {L : UrlLibs} {u : HttpUrl}

/-! ### Writing -/

/-- Scheme and authority as they are written. -/
def urlFront (u : HttpUrl) : Bytes :=
  (if u.scheme.getD [] ≠ [] then u.scheme.getD [] ++ [colon, slash, slash]
    else if u.user.getD [] ≠ [] ∨ u.host.getD [] ≠ [] then [slash, slash] else []) ++
    urlAuthorityToString u

/-- The path as it is written, with its implied `/`. -/
def writtenPath (u : HttpUrl) : Bytes :=
  let path := u.path.getD []
  if path ≠ [] then (if path.head? = some slash then path else slash :: path)
  else if urlFront u ≠ [] then [slash] else []

/-- A missing component is an empty one. -/
def HttpUrl.filled (u : HttpUrl) : HttpUrl where
  scheme := some (u.scheme.getD [])
  user := some (u.user.getD [])
  pass := some (u.pass.getD [])
  host := some (u.host.getD [])
  port := u.port
  path := some (u.path.getD [])
  query := some (u.query.getD [])
  fragment := some (u.fragment.getD [])

/-- The components with the implied `/`. -/
def HttpUrl.normal (u : HttpUrl) : HttpUrl := { u.filled with path := some (writtenPath u) }

theorem urlToString_eq (u : HttpUrl) : urlToString u = urlFront u ++ (writtenPath u ++
    (queryPart (u.query.getD []) ++ fragmentPart (u.fragment.getD []))) := by
  unfold urlToString urlFront writtenPath queryPart fragmentPart
  simp only [List.append_assoc]
  rfl

theorem urlToString_filled (u : HttpUrl) : urlToString u.filled = urlToString u := rfl

theorem urlToString_normal (u : HttpUrl) : urlToString u.normal = urlToString u := by
  have hfront : urlFront u.normal = urlFront u := rfl
  have hpath : writtenPath u.normal = writtenPath u := by
    have hself : ∀ p : Bytes, p = writtenPath u → (if p ≠ [] then
        (if p.head? = some slash then p else slash :: p) else if urlFront u ≠ [] then [slash]
          else []) =
        writtenPath u := by
      rintro _ rfl
      unfold writtenPath
      by_cases hp : u.path.getD [] = []
      · by_cases hf : urlFront u = [] <;> simp [hp, hf]
      · by_cases hs : (u.path.getD []).head? = some slash <;> simp [hp, hs]
    exact hself _ rfl
  rw [urlToString_eq, urlToString_eq, hfront, hpath]
  rfl

/-! ### The authority -/

def passPart (pass : Bytes) : Bytes := if pass ≠ [] then colon :: pass else []

def portPart (port : ℕ) : Bytes := if port ≠ 0 then colon :: formatLong port else []

theorem passPart_head (pass : Bytes) : ∀ c ∈ (passPart pass).head?, isColon c = true := by
  unfold passPart
  split_ifs <;> simp [isColon]

theorem portPart_head (port : ℕ) : ∀ c ∈ (portPart port).head?, isColon c = true := by
  unfold portPart
  split_ifs <;> simp [isColon]

theorem readUserinfo_text {user pass : Bytes} (huser : UserText user) (hpass : UserText pass)
    (after : Bytes) : readUserinfo u (user ++ passPart pass) after =
      some { u with user := some user, pass := if pass = [] then u.pass else some pass } := by
  have hscan := ((copies_userinfo isColon fun _ => isColon_eq).copied huser.1).scan_end after
    (passPart_head pass)
  unfold readUserinfo
  rw [hscan, Option.bind_eq_bind, Option.bind_some, cString_of_noNul (noNul_of_inAuthority huser.2)]
  unfold passPart
  by_cases hp : pass = []
  · rw [if_neg (not_not.mpr hp), if_pos hp]
  · have hpscan := ((copies_userinfo never (by simp [never])).copied hpass.1).scan after
    rw [if_pos hp, if_neg hp]
    dsimp only
    rw [hpscan, Option.bind_some, cString_of_noNul (noNul_of_inAuthority hpass.2)]

theorem scan_digits {after b : Bytes} (hb : ∀ c ∈ b, isDigit c = true) (port : ℕ) :
    scan never portWord after port 0 b =
      some ⟨[], b.foldl (fun port c => (port * 10 + (c.toNat - 48)) % 2 ^ 16) port, [], 0⟩ := by
  induction b generalizing port with
  | nil => rfl
  | cons c b ih =>
    have hc := hb c List.mem_cons_self
    have hp : c ≠ percent := by
      rintro rfl
      exact absurd hc (by decide)
    have hword : portWord port (c :: b) after =
        some ([], 1, (port * 10 + (c.toNat - 48)) % 2 ^ 16) := by
      unfold portWord
      dsimp only
      rw [current_cons, if_neg hp, if_pos hc]
    rw [scan_word rfl hword, ih fun d hd => hb d (List.mem_cons_of_mem _ hd)]
    rfl

theorem portScan_part {port : ℕ} (hport : port < 2 ^ 16) (after : Bytes) :
    portScan 0 (portPart port) after = some ⟨[], port, [], 0⟩ := by
  unfold portPart
  by_cases hp : port = 0
  · subst hp
    rfl
  · rw [if_pos hp]
    change scan never portWord after 0 0 (formatLong port) = _
    rw [scan_digits (formatLong_isDigit port), foldl_formatLong, Nat.mod_eq_of_lt hport]

theorem ip6Text_part {text addr : Bytes} (hL : L.Sane) (h : L.inet6 text = some addr)
    (rest : Bytes) :
    ip6Text L (91 :: addr ++ [93] ++ rest) = some (91 :: addr ++ [93], rest) := by
  have haddr : ∀ c ∈ addr, (decide (c ≠ 93)) = true := by
    intro c hc
    rw [decide_eq_true_eq]
    rintro rfl
    exact absurd (hL.addr_char text addr h 93 hc) (by decide)
  have hassoc : (91 :: addr ++ [93] ++ rest : Bytes) = 91 :: (addr ++ 93 :: rest) := by simp
  unfold ip6Text
  rw [hassoc, List.tail_cons, List.dropWhile_append_of_pos haddr,
    List.takeWhile_append_of_pos haddr]
  simp [hL.addr text addr h]

theorem readHostinfo_text (hL : L.Sane) (hport₀ : u.port = 0) {host : Bytes}
    (hhost : HostText L host) {port : ℕ} (hport : port < 2 ^ 16) (after : Bytes) :
    readHostinfo L u (host ++ portPart port) after =
      some { u with host := some host, port := port } := by
  have hps := portScan_part hport after
  rcases hhost with ⟨hname, hidn⟩ | ⟨text, addr, haddr, rfl⟩
  · obtain ⟨label, hcopied⟩ := hname.copied
    have hscan := hcopied.scan_end after (portPart_head port)
    have hhead : (host ++ portPart port).head? ≠ some 91 := by
      obtain ⟨c, b, rfl⟩ := List.exists_cons_of_ne_nil hname.pos
      exact hname.noLiteral
    have hcut := cString_of_noNul (noNul_of_inAuthority hname.inside)
    unfold readHostinfo readHostRest
    rw [if_neg hhead, hscan, Option.bind_eq_bind, Option.bind_some, hport₀, hps]
    simp [hcut, hidn]
  · have hascii := literal_ascii (hL.addr_char text addr haddr)
    have hcut := cString_of_noNul (noNul_of_inAuthority fun c hc => (hascii c hc).2)
    have hidn := hL.idnName_ascii fun c hc => (hascii c hc).1
    have hscan := (show Copied isColon hostWord false [] false from .nil false).scan_end after
      (portPart_head port)
    unfold readHostinfo readHostRest
    rw [if_pos (by rfl), ip6Text_part hL haddr, Option.bind_some]
    dsimp only
    rw [← List.nil_append (portPart port), hscan, Option.bind_eq_bind, Option.bind_some,
      hport₀, hps]
    simp only [Option.bind_eq_bind, Option.bind_some, Option.getD_some, hcut, hidn, Option.map_some]

theorem takeWhile_inside {v b : Bytes} (hv : ∀ c ∈ v, inAuthority c = true)
    (hb : ∀ c ∈ b.head?, inAuthority c = false) :
    (v ++ b).takeWhile inAuthority = v ∧ (v ++ b).dropWhile inAuthority = b := by
  rw [List.takeWhile_append_of_pos hv, List.dropWhile_append_of_pos hv]
  cases b with
  | nil => exact ⟨by simp, rfl⟩
  | cons c b => simp [hb c rfl]

theorem HostText.inside (hL : L.Sane) {host : Bytes} (h : HostText L host) :
    ∀ c ∈ host, inAuthority c = true := by
  rcases h with ⟨hname, -⟩ | ⟨text, addr, haddr, rfl⟩
  · exact hname.inside
  · exact fun c hc => (literal_ascii (hL.addr_char text addr haddr) c hc).2

theorem isColon_inside : inAuthority colon = true := by decide

theorem portPart_inside (port : ℕ) : ∀ c ∈ portPart port, inAuthority c = true := by
  have hdigit : ∀ c : Byte, isDigit c = true → inAuthority c = true := by decide +kernel
  intro c hc
  unfold portPart at hc
  split_ifs at hc
  · rcases List.mem_cons.mp hc with rfl | hc
    · exact isColon_inside
    · exact hdigit c (formatLong_isDigit port c hc)
  · cases hc

theorem passPart_inside {pass : Bytes} (h : UserText pass) :
    ∀ c ∈ passPart pass, inAuthority c = true := by
  intro c hc
  unfold passPart at hc
  split_ifs at hc
  · rcases List.mem_cons.mp hc with rfl | hc
    · exact isColon_inside
    · exact h.2 c hc
  · cases hc

/-- What can be read again of what is written. -/
structure Printable (L : UrlLibs) (u : HttpUrl) : Prop where
  scheme : ∃ first, Copied isColon (schemeWord L) true (u.scheme.getD []) first
  schemeNul : nul ∉ u.scheme.getD []
  user : UserText (u.user.getD [])
  pass : UserText (u.pass.getD [])
  password : u.user.getD [] = [] → u.pass.getD [] = []
  host : u.host.getD [] = [] ∧ u.port = 0 ∨ HostText L (u.host.getD [])
  port : u.port < 2 ^ 16
  tail : TailText (u.path.getD []) (u.query.getD []) (u.fragment.getD [])
  slashes : urlFront u = [] → (u.path.getD []).take 2 ≠ [slash, slash]

def present (b : Bytes) : Option Bytes := if b = [] then none else some b

@[simp] theorem present_getD (b : Bytes) : (present b).getD [] = b := by
  unfold present
  split_ifs with h <;> simp [h]

def userPart (u : HttpUrl) : Bytes :=
  if u.user.getD [] ≠ [] then u.user.getD [] ++ passPart (u.pass.getD []) ++ [atSign] else []

def hostPart (u : HttpUrl) : Bytes :=
  if u.host.getD [] ≠ [] then u.host.getD [] ++ portPart u.port else []

theorem urlAuthorityToString_eq (u : HttpUrl) : urlAuthorityToString u =
    userPart u ++ hostPart u := rfl

namespace Printable

theorem hostPart_inside (hL : L.Sane) (h : Printable L u) :
    ∀ c ∈ hostPart u, inAuthority c = true := by
  intro c hc
  unfold hostPart at hc
  split_ifs at hc with hne
  · rcases List.mem_append.mp hc with hc | hc
    · exact (h.host.resolve_left fun hh => hne hh.1).inside hL c hc
    · exact portPart_inside _ c hc
  · cases hc

theorem userPart_text (huser : u.user.getD [] ≠ []) (b : Bytes) : userPart u ++ b =
    (u.user.getD [] ++ passPart (u.pass.getD [])) ++ atSign :: b := by
  rw [userPart, if_pos huser, List.append_assoc _ [atSign]]
  rfl

theorem userinfo_inside (h : Printable L u) :
    ∀ c ∈ u.user.getD [] ++ passPart (u.pass.getD []), inAuthority c = true :=
  fun c hc => (List.mem_append.mp hc).elim (h.user.2 c) (passPart_inside h.pass c)

/-- The user info comes back, in front of a host and what ends it. -/
theorem read_userPart (hL : L.Sane) (h : Printable L u) (u₀ : HttpUrl)
    (hu₀ : u₀.user = none ∧ u₀.pass = none) {tail : Bytes} (htail : tail.head? = some slash) :
    readUserPart u₀ (userPart u ++ (hostPart u ++ tail)) [nul] =
      some ({ u₀ with user := present (u.user.getD []), pass := present (u.pass.getD []) },
        hostPart u, tail) := by
  have hslash : ∀ c ∈ tail.head?, inAuthority c = false := by
    rw [htail]
    rintro c ⟨⟩
    decide
  obtain ⟨htake, hdrop⟩ := takeWhile_inside (h.hostPart_inside hL) hslash
  by_cases huser : u.user.getD [] = []
  · have hnone : userPart u = [] := if_neg (not_not.mpr huser)
    have hslashat : tail.head? ≠ some atSign := by
      rw [htail]
      decide
    unfold readUserPart
    dsimp only
    rw [hnone, List.nil_append, htake, hdrop, if_neg hslashat, huser, h.password huser]
    obtain ⟨scheme₀, user₀, pass₀, host₀, port₀, path₀, query₀, fragment₀⟩ := u₀
    obtain ⟨rfl, rfl⟩ : user₀ = none ∧ pass₀ = none := hu₀
    rfl
  · obtain ⟨huin, hudrop⟩ := takeWhile_inside h.userinfo_inside
      (b := atSign :: (hostPart u ++ tail))
      (by rintro c ⟨⟩; decide)
    have hne : u.user.getD [] ++ passPart (u.pass.getD []) ≠ [] := by simp [huser]
    unfold readUserPart
    dsimp only
    rw [userPart_text huser, huin, hudrop, if_pos (by rfl), if_neg hne,
      readUserinfo_text h.user h.pass, Option.map_some, List.tail_cons, htake, hdrop, hu₀.2]
    simp [present, huser]

theorem port_eq_zero (h : Printable L u) (hhost : u.host.getD [] = []) : u.port = 0 := by
  rcases h.host with hh | ⟨hname, -⟩ | ⟨text, addr, -, hh⟩
  · exact hh.2
  · exact absurd hhost hname.pos
  · rw [hh] at hhost
    cases hhost

theorem read_hostPart (hL : L.Sane) (h : Printable L u) (u₀ : HttpUrl)
    (hu₀ : u₀.host = none ∧ u₀.port = 0) (after : Bytes) :
    (if hostPart u = [] then some u₀ else readHostinfo L u₀ (hostPart u) after) =
      some { u₀ with host := present (u.host.getD []), port := u.port } := by
  unfold hostPart
  by_cases hhost : u.host.getD [] = []
  · rw [if_neg (not_not.mpr hhost), if_pos rfl, hhost, h.port_eq_zero hhost]
    obtain ⟨scheme₀, user₀, pass₀, host₀, port₀, path₀, query₀, fragment₀⟩ := u₀
    obtain ⟨rfl, rfl⟩ : host₀ = none ∧ port₀ = 0 := hu₀
    rfl
  · rw [if_pos hhost, if_neg (by simp [hhost]), readHostinfo_text hL hu₀.2
      (h.host.resolve_left fun hh => hhost hh.1) h.port]
    simp [present, hhost]

/-- The components in front of the path. -/
def front (u : HttpUrl) : HttpUrl :=
  { noUrl with
    scheme := present (u.scheme.getD [])
    user := present (u.user.getD [])
    pass := present (u.pass.getD [])
    host := present (u.host.getD [])
    port := u.port }

theorem read_authority (hL : L.Sane) (h : Printable L u) {tail : Bytes}
    (htail : tail.head? = some slash) :
    readAuthority L { noUrl with scheme := present (u.scheme.getD []) }
      (urlAuthorityToString u ++ tail) [nul] = some (front u, tail) := by
  have hslashat : tail.head? ≠ some atSign := by
    rw [htail]
    decide
  unfold readAuthority
  rw [urlAuthorityToString_eq, List.append_assoc, h.read_userPart hL _ ⟨rfl, rfl⟩ htail,
    Option.bind_some]
  dsimp only
  rw [if_neg hslashat, h.read_hostPart hL _ ⟨rfl, rfl⟩]
  rfl

theorem schemeWord_none (hL : L.Sane) {c : Byte} (hc : c = slash ∨ c = question ∨ c = hash)
    (b : Bytes) :
    schemeWord L true (c :: b) [nul] = none := by
  have hchar : ∀ c : Byte, c = slash ∨ c = question ∨ c = hash → c < 128 ∧ isAlnum c = false ∧
      isAlpha c = false ∧ isDigit c = false ∧ (ascii "+-.").contains c = false := by
    rintro c (rfl | rfl | rfl) <;> decide
  obtain ⟨hlt, halnum, halpha, hdigit, hother⟩ := hchar c hc
  unfold schemeWord
  dsimp only
  rw [current_cons, halpha, hdigit, hother, utf8ToWc_ascii hlt]
  simp [hL.isualnum c hlt, halnum]

/-- Without a scheme nothing is taken for one. -/
theorem read_noScheme (hL : L.Sane) {b : Bytes}
    (hb : ∀ c ∈ b.head?, c = slash ∨ c = question ∨ c = hash) :
    readScheme L noUrl b [nul] = (noUrl, b) := by
  cases b with
  | nil => rfl
  | cons c b =>
    have hcolon : ∀ c : Byte, c = slash ∨ c = question ∨ c = hash → isColon c = false := by
      rintro c (rfl | rfl | rfl) <;> decide
    unfold readScheme
    rw [scan_none (hcolon c (hb c rfl)) (schemeWord_none hL (hb c rfl) b)]

theorem read_scheme (h : Printable L u) (hscheme : u.scheme.getD [] ≠ []) (rest : Bytes) :
    readScheme L noUrl (u.scheme.getD [] ++ colon :: rest) [nul] =
      ({ noUrl with scheme := present (u.scheme.getD []) }, rest) := by
  obtain ⟨first, hcopied⟩ := h.scheme
  unfold readScheme
  rw [hcopied.scan_stop (by rfl)]
  simp [present, hscheme, cString_of_noNul h.schemeNul]

theorem tail_written (h : Printable L u) :
    TailText (writtenPath u) (u.query.getD []) (u.fragment.getD []) := by
  have hslash : isPathChar slash = true := by decide
  have hnul : nul ≠ slash := by decide
  refine ⟨?_, h.tail.query, h.tail.fragment⟩
  obtain ⟨htext, hpnul⟩ := h.tail.path
  unfold writtenPath
  dsimp only
  split_ifs
  · exact ⟨htext, hpnul⟩
  · exact ⟨.char hslash htext, by simp [hnul, hpnul]⟩
  · exact ⟨.char hslash .nil, by simp [hnul]⟩
  · exact ⟨.nil, by simp⟩

end Printable

theorem urlRead_eq (str : Bytes) : urlRead L str [nul] =
    (if (readScheme L noUrl str [nul]).2.take 2 = [slash, slash] then
      readAuthority L (readScheme L noUrl str [nul]).1
        ((readScheme L noUrl str [nul]).2.drop 2) [nul]
    else some (readScheme L noUrl str [nul])).bind fun o => readTail o.1 o.2 := by
  unfold urlRead readHier readTail
  simp only [Option.bind_eq_bind, Option.bind_assoc]

theorem writtenPath_head (h : urlFront u ≠ []) : (writtenPath u).head? = some slash := by
  unfold writtenPath
  dsimp only
  split_ifs with hp hs
  · exact hs
  · rfl
  · rfl

theorem writtenPath_cases (u : HttpUrl) : writtenPath u = [] ∨
    (writtenPath u).head? = some slash := by
  unfold writtenPath
  dsimp only
  split_ifs with hp hs
  · exact .inr hs
  · exact .inr rfl
  · exact .inr rfl
  · exact .inl rfl

theorem urlFront_eq_nil (h : urlFront u = []) :
    u.scheme.getD [] = [] ∧ u.user.getD [] = [] ∧ u.host.getD [] = [] := by
  unfold urlFront at h
  obtain ⟨h, -⟩ := List.append_eq_nil_iff.mp h
  split_ifs at h with hscheme huser
  · simp at h
  · rw [not_not] at hscheme
    rw [not_or, not_not, not_not] at huser
    exact ⟨hscheme, huser⟩

theorem urlFront_noScheme (hscheme : u.scheme.getD [] = []) (h : urlFront u ≠ []) :
    urlFront u = slash :: slash :: urlAuthorityToString u := by
  unfold urlFront at h ⊢
  rw [if_neg (not_not.mpr hscheme)] at h ⊢
  by_cases huser : u.user.getD [] ≠ [] ∨ u.host.getD [] ≠ []
  · rw [if_pos huser]
    rfl
  · rw [not_or, not_not, not_not] at huser
    simp [urlAuthorityToString_eq, userPart, hostPart, huser] at h

/-- What a text in front of query and fragment begins with. -/
theorem tail_head (query fragment : Bytes) :
    ∀ c ∈ (queryPart query ++ fragmentPart fragment).head?, c = question ∨ c = hash := by
  intro c hc
  unfold queryPart at hc
  split_ifs at hc
  · left
    simpa [eq_comm] using hc
  · exact .inr (fragmentPart_head fragment c hc)

theorem tail_start (u : HttpUrl) : ∀ c ∈ (writtenPath u ++ (queryPart (u.query.getD []) ++
    fragmentPart (u.fragment.getD []))).head?, c = slash ∨ c = question ∨ c = hash := by
  intro c hc
  rcases writtenPath_cases u with hnil | hs
  · rw [hnil] at hc
    exact .inr (tail_head _ _ c hc)
  · rw [List.head?_append, hs] at hc
    exact .inl (Option.some.inj hc).symm

namespace Printable

theorem noSlashes (h : Printable L u) (hfront : urlFront u = []) (query fragment : Bytes) :
    (writtenPath u ++ (queryPart query ++ fragmentPart fragment)).take 2 ≠ [slash, slash] := by
  have hslash : ∀ c, c = question ∨ c = hash → c ≠ slash := by
    rintro c (rfl | rfl) <;> decide
  have hb : (queryPart query ++ fragmentPart fragment).head? ≠ some slash := fun hs =>
    hslash slash (tail_head query fragment slash hs) rfl
  have happend : ∀ v b : Bytes, b.head? ≠ some slash → (v ++ b).take 2 = [slash, slash] →
      v.take 2 = [slash, slash] := by
    intro v b hb htake
    match v, b with
    | [], [] => simp at htake
    | [], c :: b =>
      rw [List.nil_append, List.take_succ_cons, List.cons.injEq] at htake
      exact absurd (congrArg some htake.1) hb
    | [_], [] => simp at htake
    | [_], c :: b =>
      simp only [List.cons_append, List.nil_append, List.take_succ_cons, List.take_zero,
        List.cons.injEq] at htake
      exact absurd (congrArg some htake.2.1) hb
    | c :: d :: v, b => exact htake
  intro htake
  have htake := happend _ _ hb htake
  unfold writtenPath at htake
  dsimp only at htake
  split_ifs at htake with hp hs
  · exact h.slashes hfront htake
  · rw [List.take_succ_cons, List.cons.injEq] at htake
    cases hv : u.path.getD [] with
    | nil => exact hp hv
    | cons c v =>
      rw [hv] at htake hs
      simp only [List.take_succ_cons, List.take_zero, List.cons.injEq, and_true, true_and] at htake
      exact hs (congrArg some htake)
  · cases htake
  · cases htake

/-- What is written is read back. -/
theorem read (hL : L.Sane) (h : Printable L u) : urlRead L (urlToString u) [nul] =
    some { front u with
      path := present (writtenPath u)
      query := present (u.query.getD [])
      fragment := present (u.fragment.getD []) } := by
  have htail := h.tail_written.read (front u)
  rw [urlRead_eq, urlToString_eq]
  by_cases hfront : urlFront u = []
  · obtain ⟨hscheme, huser, hhost⟩ := urlFront_eq_nil hfront
    have hnoUrl : front u = noUrl := by
      rw [front, hscheme, huser, hhost, h.password huser, h.port_eq_zero hhost]
      rfl
    rw [hfront, List.nil_append, read_noScheme hL (tail_start u), if_neg (h.noSlashes hfront _ _),
      Option.bind_some, ← hnoUrl, htail]
    rw [hnoUrl]
    rfl
  · generalize hT : writtenPath u ++ (queryPart (u.query.getD []) ++
      fragmentPart (u.fragment.getD [])) = tail at htail
    have hhead : tail.head? = some slash := by
      have := writtenPath_head hfront
      rw [← hT, List.head?_append, this]
      rfl
    have hauth := h.read_authority hL hhead
    have hstart : readScheme L noUrl (urlFront u ++ tail) [nul] =
        ({ noUrl with scheme := present (u.scheme.getD []) },
          slash :: slash :: (urlAuthorityToString u ++ tail)) := by
      by_cases hscheme : u.scheme.getD [] = []
      · rw [urlFront_noScheme hscheme hfront, hscheme]
        exact read_noScheme hL (by simp)
      · have := h.read_scheme hscheme (slash :: slash :: (urlAuthorityToString u ++ tail))
        rw [← this, urlFront, if_pos hscheme]
        simp
    rw [hstart]
    dsimp only
    rw [if_pos (by rfl)]
    change (readAuthority L _ (urlAuthorityToString u ++ tail) [nul]).bind _ = _
    rw [hauth, Option.bind_some, htail]
    rfl

end Printable

/-! ### What is read can be read again -/

theorem readUserPart_eq (b after : Bytes) : ∃ after', readUserPart u b after =
    (if (authorityParts b).1 = [] then some u else readUserinfo u (authorityParts b).1 after').map
      fun u => (u, (authorityParts b).2) := by
  refine ⟨b.dropWhile inAuthority ++ after, ?_⟩
  unfold readUserPart authorityParts
  dsimp only
  by_cases hat : (b.dropWhile inAuthority).head? = some atSign
  · rw [if_pos hat, if_pos hat]
  · rw [if_neg hat, if_neg hat]
    rfl

theorem authorityParts_inside (b : Bytes) : (∀ c ∈ (authorityParts b).1, inAuthority c = true) ∧
    ∀ c ∈ (authorityParts b).2.1, inAuthority c = true := by
  unfold authorityParts
  dsimp only
  split_ifs
  · exact ⟨fun c hc => List.mem_takeWhile_imp hc, fun c hc => List.mem_takeWhile_imp hc⟩
  · exact ⟨by simp, fun c hc => List.mem_takeWhile_imp hc⟩

theorem readAuthority_part (hL : L.Sane)
    (hu : u.user = none ∧ u.pass = none ∧ u.host = none ∧ u.port = 0) {p : UrlParts} (hp : p.Sound)
    {b left : Bytes} (hparts : authorityParts b = (p.userinfo, p.hostinfo, p.tail)) {u' : HttpUrl}
    (h : readAuthority L u b [nul] = some (u', left)) :
    left = p.tail ∧
      u' = { u with user := u'.user, pass := u'.pass, host := u'.host, port := u'.port } ∧
      UserText (u'.user.getD []) ∧ UserText (u'.pass.getD []) ∧
      (u'.user.getD [] = [] → u'.pass.getD [] = [] ∧ Userless p.userinfo) ∧ u'.port < 2 ^ 16 ∧
      (u'.host.getD [] = [] ∧ u'.port = 0 ∧ Hostless p.hostinfo ∨ HostText L (u'.host.getD [])) ∧
      ((u'.host.getD []).head? = some 91 → p.hostinfo.head? = some 91 ∧
        ∃ rest, ip6Text L p.hostinfo = some (u'.host.getD [], rest)) := by
  obtain ⟨hui, hhi⟩ := authorityParts_inside b
  rw [hparts] at hui hhi
  obtain ⟨after', heq⟩ := readUserPart_eq (u := u) b [nul]
  rw [hparts] at heq
  dsimp only at hui hhi heq
  unfold readAuthority at h
  rw [heq] at h
  obtain ⟨⟨u₂, part, left₁⟩, h₁, h⟩ := Option.bind_eq_some_iff.mp h
  obtain ⟨u₁, hu₂, heq₂⟩ := Option.map_eq_some_iff.mp h₁
  cases heq₂
  dsimp only at h
  by_cases hat : p.tail.head? = some atSign
  · rw [if_pos hat] at h
    cases h
  rw [if_neg hat] at h
  obtain ⟨u₃, hu₃, heq₃⟩ := Option.map_eq_some_iff.mp h
  cases heq₃
  have huser : u₂ = { u with user := u₂.user, pass := u₂.pass } ∧ UserText (u₂.user.getD []) ∧
      UserText (u₂.pass.getD []) ∧
      (u₂.user.getD [] = [] → u₂.pass.getD [] = [] ∧ Userless p.userinfo) := by
    split_ifs at hu₂ with hnil
    · obtain rfl := Option.some.inj hu₂
      exact ⟨rfl, by rw [hu.1]; exact .nil, by rw [hu.2.1]; exact .nil,
        fun _ => ⟨by rw [hu.2.1]; rfl, .inl hnil⟩⟩
    · obtain ⟨user, pass, rfl, husertext, hpasstext, huserless, hnopass⟩ :=
        readUserinfo_part hu.2.1 hui hp.userinfo hu₂
      refine ⟨rfl, husertext, hpasstext, fun hempty => ?_⟩
      have hless := huserless hempty
      exact ⟨hnopass (hp.password (hless.resolve_left hnil)), hless⟩
  obtain ⟨hu₂eq, husertext, hpasstext, hpassword⟩ := huser
  have hhost : u₂.host = none := by rw [hu₂eq]; exact hu.2.2.1
  have hport : u₂.port = 0 := by rw [hu₂eq]; exact hu.2.2.2
  split_ifs at hu₃ with hnil
  · obtain rfl := Option.some.inj hu₃
    refine ⟨rfl, ?_, husertext, hpasstext, hpassword, by rw [hport]; norm_num,
      .inl ⟨?_, hport, .inl hnil⟩, fun h => ?_⟩
    · rw [hhost, hport, ← hu.2.2.1, ← hu.2.2.2]
      exact hu₂eq
    · rw [hhost]
      rfl
    · rw [hhost] at h
      cases h
  · obtain ⟨host, port, rfl, hlt, hcases, hliteral⟩ :=
      readHostinfo_part hL hport hhi hp.hostinfo hu₃
    refine ⟨rfl, ?_, husertext, hpasstext, hpassword, hlt, hcases.imp_left ?_, hliteral⟩
    · rw [hu₂eq]
    · rintro ⟨rfl, hless, rfl⟩
      exact ⟨rfl, hp.port hless, hless⟩

/-- Scheme and authority of a text without anything swallowed. -/
theorem readFront_part (hL : L.Sane) {str tail : Bytes} (hp : (urlParts L str).Sound)
    (h : (if (readScheme L noUrl str [nul]).2.take 2 = [slash, slash] then
      readAuthority L (readScheme L noUrl str [nul]).1
      ((readScheme L noUrl str [nul]).2.drop 2) [nul]
    else some (readScheme L noUrl str [nul])) = some (u, tail)) :
    tail = (urlParts L str).tail ∧ (u.path = none ∧ u.query = none ∧ u.fragment = none) ∧
      u.scheme.getD [] = (urlParts L str).scheme ∧
      UserText (u.user.getD []) ∧ UserText (u.pass.getD []) ∧
      (u.user.getD [] = [] → u.pass.getD [] = []) ∧ u.port < 2 ^ 16 ∧
      (u.host.getD [] = [] ∧ u.port = 0 ∨ HostText L (u.host.getD [])) ∧
      (urlFront u = [] → tail.take 2 ≠ [slash, slash]) := by
  obtain ⟨-, hread⟩ := readScheme_part L str
  have hscheme : ∃ scheme, readScheme L noUrl str [nul] =
      ({ noUrl with scheme := scheme }, (schemePart L str).2) ∧
      scheme.getD [] = (schemePart L str).1 := by
    rcases hread with ⟨hread, hnil⟩ | hread
    · exact ⟨none, hread, hnil.symm⟩
    · exact ⟨_, hread, cString_of_noNul (hL.scheme_noNul str)⟩
  obtain ⟨scheme, hread, hscheme⟩ := hscheme
  rw [hread] at h
  dsimp only at h
  have hparts : (urlParts L str).scheme = (schemePart L str).1 := by
    unfold urlParts
    dsimp only
    split_ifs <;> rfl
  by_cases hslash : (schemePart L str).2.take 2 = [slash, slash]
  · rw [if_pos hslash] at h
    have hauth : authorityParts ((schemePart L str).2.drop 2) =
        ((urlParts L str).userinfo, (urlParts L str).hostinfo, (urlParts L str).tail) := by
      unfold urlParts
      dsimp only
      rw [if_pos hslash]
    obtain ⟨rfl, hu, huser, hpass, hpassword, hport, hhost, -⟩ :=
      readAuthority_part hL ⟨rfl, rfl, rfl, rfl⟩ hp hauth h
    have hu_scheme : u.scheme.getD [] = (urlParts L str).scheme := by
      rw [hu, hparts, ← hscheme]
    refine ⟨rfl, by rw [hu]; exact ⟨rfl, rfl, rfl⟩, hu_scheme, huser, hpass,
      fun h => (hpassword h).1, hport, hhost.imp_left fun h => ⟨h.1, h.2.1⟩, fun hfront => ?_⟩
    obtain ⟨hs, hun, hhn⟩ := urlFront_eq_nil hfront
    refine hp.path (hu_scheme ▸ hs) (hpassword hun).2 ?_
    rcases hhost with ⟨-, -, hless⟩ | ⟨hname, -⟩ | ⟨text, addr, -, hh⟩
    · exact hless
    · exact absurd hhn hname.pos
    · rw [hh] at hhn
      cases hhn
  · rw [if_neg hslash] at h
    obtain ⟨rfl, rfl⟩ := Prod.mk.inj (Option.some.inj h)
    have htail : (urlParts L str).tail = (schemePart L str).2 := by
      unfold urlParts
      dsimp only
      rw [if_neg hslash]
    exact ⟨htail.symm, ⟨rfl, rfl, rfl⟩, hscheme.trans hparts.symm, .nil, .nil, fun _ => rfl,
      by norm_num [noUrl], .inl ⟨rfl, rfl⟩, fun _ => hslash⟩

theorem printable_of_read (hL : L.Sane) {str : Bytes} (hp : (urlParts L str).Sound)
    (h : urlRead L str [nul] = some u) : Printable L u := by
  rw [urlRead_eq] at h
  obtain ⟨⟨v, tail⟩, hfront, htail⟩ := Option.bind_eq_some_iff.mp h
  obtain ⟨rfl, ⟨hpath, hquery, hfragment⟩, hscheme, huser, hpass, hpassword, hport, hhost,
      hslashes⟩ :=
    readFront_part hL hp hfront
  obtain ⟨path, query, fragment, hw, hp', hq', hf', hu⟩ :=
    readTail_some hpath hquery hfragment htail
  obtain ⟨hpnul, hqnul⟩ := hw.noNul hp.tail
  rw [cString_of_noNul hpnul] at hp'
  rw [cString_of_noNul hqnul] at hq'
  have hparts : (urlParts L str).scheme = (schemePart L str).1 := by
    unfold urlParts
    dsimp only
    split_ifs <;> rfl
  have hfrontEq : urlFront u = urlFront v := by rw [hu]; rfl
  refine ⟨?_, ?_, ?_, ?_, ?_, ?_, ?_, ?_, ?_⟩
  · rw [hu, hscheme, hparts]
    exact (readScheme_part L str).1
  · rw [hu, hscheme, hparts]
    exact hL.scheme_noNul str
  · rw [hu]
    exact huser
  · rw [hu]
    exact hpass
  · rw [hu]
    exact hpassword
  · rw [hu]
    exact hhost
  · rw [hu]
    exact hport
  · rw [hp', hq', hf']
    exact ⟨⟨hw.pathText, hpnul⟩, ⟨hw.queryText, hqnul⟩, fragment, hw.fragmentText, rfl⟩
  · intro hnil hpath
    rw [hp'] at hpath
    rw [hfrontEq] at hnil
    exact hslashes hnil (hw.slashes hpath)

/-! ### Room for a literal address -/

/-- The bytes of a component in the buffer. -/
def room (component : Option Bytes) : ℕ := component.elim 0 (·.length + 1)

theorem room_present_le (component : Option Bytes) :
    room (present (component.getD [])) ≤ room component := by
  cases component with
  | none => exact Nat.le_refl 0
  | some b =>
    by_cases h : b = []
    · simp [room, present, h]
    · simp [room, present, h]

/-- The bytes in front of the host when a URL is read again. -/
def frontRoom (u : HttpUrl) : ℕ :=
  room (present (u.scheme.getD [])) + room (present (u.user.getD [])) +
    room (present (u.pass.getD []))

theorem cString_length_le (b : Bytes) : (cString b).length ≤ b.length :=
  (List.takeWhile_sublist _).length_le

theorem parseScheme_room (str after : Bytes) :
    room (readScheme L noUrl str after).1.scheme ≤ (parseScheme L urlStart str after).1.offset := by
  unfold readScheme parseScheme
  generalize scan isColon (schemeWord L) after true 0 str = o
  match o with
  | none => exact Nat.le_refl 0
  | some ⟨_, _, [], _⟩ => exact Nat.le_refl 0
  | some ⟨scheme, _, _ :: rest, _⟩ =>
    have := cString_length_le scheme
    simp only [room, UrlState.put, urlStart, Option.elim_some, List.length_append,
      List.length_singleton]
    omega

theorem parseUserinfo_room {st st' : UrlState} {u' : HttpUrl} (hpass : u.pass = none)
    {r after : Bytes} (h : parseUserinfo st r after = some st')
    (hread : readUserinfo u r after = some u') :
    st.offset + room u'.user + room u'.pass ≤ st'.offset := by
  obtain ⟨user, huser, h⟩ := Option.bind_eq_some_iff.mp h
  obtain ⟨user', huser', hread⟩ := Option.bind_eq_some_iff.mp hread
  obtain rfl := Option.mem_unique huser huser'
  have hlen := cString_length_le user.written
  cases hrest : user.rest with
  | nil =>
    rw [hrest] at h hread
    obtain rfl := Option.some.inj h
    obtain rfl := Option.some.inj hread
    simp only [room, UrlState.put, hpass, Option.elim_some, Option.elim_none, List.length_append,
      List.length_singleton]
    omega
  | cons c rest =>
    rw [hrest] at h hread
    obtain ⟨pass, hp, h⟩ := Option.bind_eq_some_iff.mp h
    obtain ⟨pass', hp', hread⟩ := Option.bind_eq_some_iff.mp hread
    obtain rfl := Option.mem_unique hp hp'
    obtain rfl := Option.some.inj h
    obtain rfl := Option.some.inj hread
    have hplen := cString_length_le pass.written
    simp only [room, UrlState.put, Option.elim_some, List.length_append, List.length_singleton]
    omega

theorem parseUserPart_room {st st' : UrlState} {u' : HttpUrl}
    {b after part part' left left' : Bytes} (hu : u.user = none ∧ u.pass = none)
    (h : parseUserPart st b after = some (st', part, left))
    (hread : readUserPart u b after = some (u', part', left')) :
    part' = part ∧ st.offset + room u'.user + room u'.pass ≤ st'.offset := by
  unfold parseUserPart at h
  unfold readUserPart at hread
  dsimp only at h hread
  split_ifs at h hread
  · cases h
    cases hread
    rw [hu.1, hu.2]
    exact ⟨rfl, Nat.le_refl _⟩
  · obtain ⟨st₁, hst, heq⟩ := Option.map_eq_some_iff.mp h
    obtain ⟨u₁, hu₁, heq'⟩ := Option.map_eq_some_iff.mp hread
    cases heq
    cases heq'
    exact ⟨rfl, parseUserinfo_room hu.2 hst hu₁⟩
  · cases h
    cases hread
    rw [hu.1, hu.2]
    exact ⟨rfl, Nat.le_refl _⟩

theorem readAuthority_room {st : UrlState} (hst : st.Shows u)
    (hu : u.user = none ∧ u.pass = none ∧ u.host = none) {b left : Bytes} {u' : HttpUrl}
    (h : readAuthority L u b [nul] = some (u', left)) :
    ∃ o ∈ parseUserPart st b [nul], o.2.1 = (authorityParts b).2.1 ∧
      st.offset + room u'.user + room u'.pass ≤ o.1.offset := by
  obtain ⟨⟨u₁, part, left₁⟩, h₁, h⟩ := Option.bind_eq_some_iff.mp h
  have hpart : part = (authorityParts b).2.1 := by
    obtain ⟨after', heq⟩ := readUserPart_eq (u := u) b [nul]
    rw [heq] at h₁
    obtain ⟨u₂, -, heq₂⟩ := Option.map_eq_some_iff.mp h₁
    exact (congrArg (fun o => o.2.1) heq₂).symm
  have hrel := parseUserPart_shows hst b [nul]
  rw [h₁] at hrel
  generalize hparse : parseUserPart st b [nul] = x at hrel
  cases hrel with
  | @some o _ hoo =>
  obtain ⟨st₁, part₁, left₁'⟩ := o
  obtain ⟨hshows, heq⟩ := hoo
  cases heq
  obtain ⟨-, hroom⟩ := parseUserPart_room ⟨hu.1, hu.2.1⟩ hparse h₁
  refine ⟨_, rfl, hpart, ?_⟩
  have hsame : u'.user = u₁.user ∧ u'.pass = u₁.pass := by
    have hrest : ∀ {literal hostinfo after} {v v' : HttpUrl},
        readHostRest L v literal hostinfo after = some v' →
          v'.user = v.user ∧ v'.pass = v.pass := by
      intro literal hostinfo after v v' h
      obtain ⟨host, -, h⟩ := Option.bind_eq_some_iff.mp h
      obtain ⟨port, -, h⟩ := Option.bind_eq_some_iff.mp h
      obtain ⟨name, -, rfl⟩ := Option.map_eq_some_iff.mp h
      exact ⟨rfl, rfl⟩
    dsimp only at h
    by_cases hat : left₁.head? = some atSign
    · rw [if_pos hat] at h
      cases h
    rw [if_neg hat] at h
    obtain ⟨u₂, hu₂, heq⟩ := Option.map_eq_some_iff.mp h
    cases heq
    unfold readHostinfo at hu₂
    split_ifs at hu₂
    · cases hu₂
      exact ⟨rfl, rfl⟩
    · obtain ⟨o, -, hu₂⟩ := Option.bind_eq_some_iff.mp hu₂
      exact hrest hu₂
    · exact hrest hu₂
  rw [hsame.1, hsame.2]
  exact hroom

/-- A literal address with room enough where it is read first has enough where it is read again. -/
theorem literal_room (hL : L.Sane) {str : Bytes} (hp : (urlParts L str).Sound)
    (hroomy : ∀ o ∈ hostinfoAt L str [nul], Roomy L o.1 o.2) (h : urlRead L str [nul] = some u)
    (hidna : L.idna.isSome = true) (hliteral : (u.host.getD []).head? = some 91) :
    frontRoom u ≤ (u.host.getD []).length := by
  rw [urlRead_eq] at h
  obtain ⟨⟨v, tail⟩, hfront, htail⟩ := Option.bind_eq_some_iff.mp h
  have hv := (readFront_part hL hp hfront).2.1
  obtain ⟨path, query, fragment, -, -, -, -, hu⟩ := readTail_some hv.1 hv.2.1 hv.2.2 htail
  have hscheme := parseScheme_shows L str [nul]
  have hsroom := parseScheme_room (L := L) str [nul]
  have hnone : (readScheme L noUrl str [nul]).1.user = none ∧
      (readScheme L noUrl str [nul]).1.pass = none ∧ (readScheme L noUrl str [nul]).1.host = none ∧
      (readScheme L noUrl str [nul]).1.port = 0 := by
    rcases (readScheme_part L str).2 with ⟨hread, -⟩ | hread <;>
    · rw [hread]
      exact ⟨rfl, rfl, rfl, rfl⟩
  have hparts : (schemePart L str).2 = (readScheme L noUrl str [nul]).2 := by
    rcases (readScheme_part L str).2 with ⟨hread, -⟩ | hread <;> rw [hread]
  unfold hostinfoAt at hroomy
  generalize parseScheme L urlStart str [nul] = o, hread : readScheme L noUrl str [nul] = o'
    at hscheme hsroom hnone hfront hroomy hparts
  obtain ⟨st, rest⟩ := o
  obtain ⟨v₀, rest'⟩ := o'
  obtain ⟨hshows, hrest⟩ := hscheme
  obtain rfl : rest = rest' := hrest
  dsimp only at hroomy hsroom hnone hfront hparts
  by_cases hslash : rest.take 2 = [slash, slash]
  · rw [if_pos hslash] at hfront hroomy
    have hauth : authorityParts (rest.drop 2) =
        ((urlParts L str).userinfo, (urlParts L str).hostinfo, (urlParts L str).tail) := by
      unfold urlParts
      dsimp only
      rw [hparts, if_pos hslash]
    obtain ⟨-, hveq, -, -, -, -, -, hlit⟩ := readAuthority_part hL hnone hp hauth hfront
    obtain ⟨o, ho, hpart, hroom⟩ :=
      readAuthority_room hshows ⟨hnone.1, hnone.2.1, hnone.2.2.1⟩ hfront
    rw [show (authorityParts (rest.drop 2)).2.1 = (urlParts L str).hostinfo by rw [hauth]] at hpart
    have hhost : u.host = v.host := by rw [hu]
    rw [hhost] at hliteral ⊢
    obtain ⟨hhead, rest', hip⟩ := hlit hliteral
    rw [← hpart] at hhead hip
    have hle := hroomy _ (Option.mem_map_of_mem _ ho) hidna hhead _ _ hip
    have hs := room_present_le u.scheme
    have hus := room_present_le u.user
    have hpa := room_present_le u.pass
    have hfields : u.scheme = v₀.scheme ∧ u.user = v.user ∧ u.pass = v.pass :=
      ⟨by rw [hu, hveq], by rw [hu], by rw [hu]⟩
    rw [hfields.1] at hs
    rw [hfields.2.1] at hus
    rw [hfields.2.2] at hpa
    unfold frontRoom
    rw [hfields.1, hfields.2.1, hfields.2.2]
    dsimp only at hle hroom
    omega
  · rw [if_neg hslash] at hfront
    cases hfront
    have hhost : u.host = v.host := by rw [hu]
    rw [hhost, hnone.2.2.1] at hliteral
    cases hliteral

theorem parseUserinfo_offset {user pass after : Bytes} (huser : user ≠ []) (hu : UserText user)
    (hp : UserText pass) {st st' : UrlState}
    (h : parseUserinfo st (user ++ passPart pass) after = some st') :
    st'.offset = st.offset + room (present user) + room (present pass) := by
  have hscan := ((copies_userinfo isColon fun _ => isColon_eq).copied hu.1).scan_end after
    (passPart_head pass)
  unfold parseUserinfo at h
  rw [hscan, Option.bind_eq_bind, Option.bind_some] at h
  unfold passPart at h
  by_cases hpass : pass = []
  · rw [if_neg (not_not.mpr hpass)] at h
    obtain rfl := Option.some.inj h
    simp [room, present, huser, hpass, UrlState.put]
  · have hpscan := ((copies_userinfo never (by simp [never])).copied hp.1).scan after
    rw [if_pos hpass] at h
    dsimp only at h
    rw [hpscan, Option.bind_some] at h
    obtain rfl := Option.some.inj h
    simp [room, present, huser, hpass, UrlState.put]

namespace Printable

theorem parse_scheme (hL : L.Sane) (h : Printable L u) (hfront : urlFront u ≠ []) (tail : Bytes) :
    (parseScheme L urlStart (urlFront u ++ tail) [nul]).1.offset =
      room (present (u.scheme.getD [])) ∧
      (parseScheme L urlStart (urlFront u ++ tail) [nul]).2 =
        slash :: slash :: (urlAuthorityToString u ++ tail) := by
  unfold parseScheme
  by_cases hscheme : u.scheme.getD [] = []
  · rw [urlFront_noScheme hscheme hfront, hscheme]
    have hnone : scan isColon (schemeWord L) [nul] true 0
        (slash :: slash :: (urlAuthorityToString u ++ tail)) = none :=
      scan_none (by decide) (schemeWord_none hL (.inl rfl) _)
    rw [List.cons_append, List.cons_append, hnone]
    exact ⟨rfl, rfl⟩
  · obtain ⟨first, hcopied⟩ := h.scheme
    have htext : urlFront u ++ tail =
        u.scheme.getD [] ++ colon :: slash :: slash :: (urlAuthorityToString u ++ tail) := by
      rw [urlFront, if_pos hscheme]
      simp
    rw [htext, hcopied.scan_stop (by rfl)]
    simp [present, hscheme, room, UrlState.put, urlStart]

theorem parse_userPart (hL : L.Sane) (h : Printable L u) (st : UrlState) {tail : Bytes}
    (htail : tail.head? = some slash) :
    ∀ o ∈ parseUserPart st (userPart u ++ (hostPart u ++ tail)) [nul], o.2.1 = hostPart u ∧
      o.1.offset = st.offset + room (present (u.user.getD [])) +
        room (present (u.pass.getD [])) := by
  have hslash : ∀ c ∈ tail.head?, inAuthority c = false := by
    rw [htail]
    rintro c ⟨⟩
    decide
  obtain ⟨htake, hdrop⟩ := takeWhile_inside (h.hostPart_inside hL) hslash
  intro o ho
  unfold parseUserPart at ho
  dsimp only at ho
  by_cases huser : u.user.getD [] = []
  · have hnone : userPart u = [] := if_neg (not_not.mpr huser)
    have hslashat : tail.head? ≠ some atSign := by
      rw [htail]
      decide
    rw [hnone, List.nil_append, htake, hdrop, if_neg hslashat] at ho
    obtain rfl := Option.some.inj ho
    rw [huser, h.password huser]
    exact ⟨rfl, rfl⟩
  · rw [userPart_text huser] at ho
    obtain ⟨huin, hudrop⟩ := takeWhile_inside h.userinfo_inside
      (b := atSign :: (hostPart u ++ tail))
      (by rintro c ⟨⟩; decide)
    have hne : u.user.getD [] ++ passPart (u.pass.getD []) ≠ [] := by simp [huser]
    rw [huin, hudrop, if_pos (by rfl), if_neg hne] at ho
    obtain ⟨st', hst', rfl⟩ := Option.map_eq_some_iff.mp ho
    exact ⟨htake, parseUserinfo_offset huser h.user h.pass hst'⟩

/-- Where the host of what is written is parsed. -/
theorem hostinfoAt (hL : L.Sane) (h : Printable L u) :
    ∀ o ∈ ExtHttp.hostinfoAt L (urlToString u) [nul], o = (frontRoom u, hostPart u) := by
  unfold ExtHttp.hostinfoAt
  rw [urlToString_eq]
  by_cases hfront : urlFront u = []
  · have hshows := parseScheme_shows L (writtenPath u ++ (queryPart (u.query.getD []) ++
      fragmentPart (u.fragment.getD []))) [nul]
    rw [read_noScheme hL (tail_start u)] at hshows
    rw [hfront, List.nil_append]
    dsimp only
    rw [hshows.2, if_neg (h.noSlashes hfront _ _)]
    simp
  · generalize hT : writtenPath u ++ (queryPart (u.query.getD []) ++
      fragmentPart (u.fragment.getD [])) = tail
    have hhead : tail.head? = some slash := by
      rw [← hT, List.head?_append, writtenPath_head hfront]
      rfl
    obtain ⟨hroom, hrest⟩ := h.parse_scheme hL hfront tail
    generalize parseScheme L urlStart (urlFront u ++ tail) [nul] = o at hroom hrest
    obtain ⟨st, rest⟩ := o
    dsimp only at hroom hrest ⊢
    rw [hrest, if_pos (by rfl)]
    change ∀ o ∈ (parseUserPart st (urlAuthorityToString u ++ tail) [nul]).map _, _
    rw [urlAuthorityToString_eq, List.append_assoc]
    intro o ho
    obtain ⟨o', ho', rfl⟩ := Option.map_eq_some_iff.mp ho
    obtain ⟨hpart, hoffset⟩ := h.parse_userPart hL st hhead o' ho'
    rw [hpart, hoffset, hroom]
    rfl

theorem roomy (hL : L.Sane) (h : Printable L u)
    (hroom : L.idna.isSome = true → (u.host.getD []).head? = some 91 →
      frontRoom u ≤ (u.host.getD []).length) :
    ∀ o ∈ ExtHttp.hostinfoAt L (urlToString u) [nul], Roomy L o.1 o.2 := by
  intro o ho
  rw [h.hostinfoAt hL o ho]
  intro hidna hhead a rest ha
  unfold hostPart at hhead ha
  by_cases hhost : u.host.getD [] = []
  · rw [if_neg (not_not.mpr hhost)] at hhead
    cases hhead
  · rw [if_pos hhost] at hhead ha
    rcases h.host with ⟨hnil, -⟩ | ⟨hname, -⟩ | ⟨text, addr, haddr, heq⟩
    · exact absurd hnil hhost
    · obtain ⟨c, b, hcb⟩ := List.exists_cons_of_ne_nil hhost
      rw [hcb] at hhead
      exact absurd (by rw [hcb]; exact hhead) hname.noLiteral
    · rw [heq, ip6Text_part hL haddr] at ha
      obtain ⟨rfl, -⟩ := Prod.mk.inj (Option.some.inj ha)
      rw [← heq]
      exact hroom hidna (by rw [heq]; rfl)

end Printable

/-! ### Stability -/

/-- A URL is read back as it is written, and written again as before. -/
def HttpUrl.Stable (L : UrlLibs) (u : HttpUrl) : Prop :=
  ∃ u', urlParse L (urlToString u) [nul] = some u' ∧ u'.filled = u.normal ∧
    urlToString u' = urlToString u

/-- No IPv6 addresses and only ASCII names. -/
def asciiLibs : UrlLibs :=
  ⟨fun _ => none, some fun name => if ∀ c ∈ name, c < 128 then some name else none,
    fun wc => wc < 128 && isAlnum wc.toUInt8⟩

theorem asciiLibs_sane : asciiLibs.Sane := by
  refine ⟨fun _ _ h => (by cases h), fun _ _ h => (by cases h), ?_, ?_, ?_, by decide +kernel⟩
  · rintro _ ⟨⟩ name h
    exact if_pos h
  · rintro _ ⟨⟩ name idn hname h
    dsimp only at h
    split_ifs at h with hascii
    cases h
    exact ⟨hname, hascii⟩
  · rintro _ ⟨⟩ name idn - h
    dsimp only at h
    split_ifs at h
    exact (Option.some.inj h).symm

end ExtHttp
