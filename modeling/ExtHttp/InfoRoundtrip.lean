import ExtHttp.MessageWrite
import ExtHttp.StartLine

/-!
# Writing and reading start lines

`php_http_info_parse` reads what `php_http_info_to_string` has written. A request line with the
version 2 has no end that the parser would accept, and in front of the version there must be no
`HTTP/`.
-/
namespace ExtHttp

/-- A version that is written as two digits. -/
structure Version.Dotted (v : Version) : Prop where
  major : v.major < 2
  minor : v.minor < 10
  set : v ≠ ⟨0, 0⟩

/-- A word of a request line. -/
structure LineWord (s : Bytes) : Prop where
  ne : s ≠ []
  noEol : NoEol s
  noNul : nul ∉ s
  noHttp : ¬ httpSlash <:+: s

/-- The text behind a status code. -/
structure StatusText (s : Bytes) : Prop where
  ne : s ≠ []
  noEol : NoEol s
  noNul : nul ∉ s
  head : ∀ c ∈ s.head?, c ≠ space

/-- A start line that is read as it is written. -/
inductive Info.Readable (P : UrlParsers HttpUrl) : Info HttpUrl → Prop
  | request {version : Version} {method : Bytes} {url : HttpUrl} (hversion : version.Dotted)
    (hmethod : LineWord method)
      (hspace : space ∉ method) (htarget : LineWord (requestTarget method url))
      (hhead : ∀ c ∈ (requestTarget method url).head?, c ≠ space)
      (hlast : ∀ c ∈ (requestTarget method url).getLast?, c ≠ space)
      (hurl : (if method.map toUpper = connect then P.parseAuthority (requestTarget method url)
        else P.parse (requestTarget method url)) = some url) :
          Readable P (.request version method url)
  | response {version : Version} {code : ℕ} {status : Option Bytes}
    (hversion : version.Dotted ∨ version = ⟨2, 0⟩)
      (hcode : 100 ≤ code ∧ code < 600) (hstatus : ∀ s ∈ status, StatusText s) :
        Readable P (.response version code status)

/-! ### Versions -/

/-- What is written behind `HTTP/`. -/
def Version.digits (v : Version) : Bytes :=
  if v.major = 2 then ascii "2" else formatLong v.major ++ [dot] ++ formatLong v.minor

theorem formatVersion_digits {v : Version} (h : v.Dotted ∨ v = ⟨2, 0⟩) :
    formatVersion v = httpSlash ++ v.digits := by
  rcases h with h | rfl
  · have hmajor := h.major
    have hset : v.major ≠ 0 ∨ v.minor ≠ 0 := by
      by_contra hnot
      rw [not_or, not_not, not_not] at hnot
      exact h.set (congrArg₂ Version.mk hnot.1 hnot.2)
    have hne : v.major ≠ 2 := by omega
    rw [formatVersion, Version.digits, if_neg hne, if_neg hne, if_pos hset]
    simp only [List.append_assoc]
  · decide

theorem digits_eq : ∀ i < 2, ∀ j < 10, (Version.mk i j).digits =
    [UInt8.ofNat (48 + i), dot, UInt8.ofNat (48 + j)] ∧
    decimal (UInt8.ofNat (48 + i)) = some i ∧ decimal (UInt8.ofNat (48 + j)) = some j := by
  decide

/-- The digits are read again, whatever follows them. -/
theorem Version.Dotted.parse {v : Version} (h : v.Dotted) (rest : Bytes) :
    versionParse (httpSlash ++ (v.digits ++ rest)) = some v ∧
      versionStop v (v.digits ++ rest) = v.digits.length := by
  obtain ⟨major, minor⟩ := v
  obtain ⟨hmajor, hminor, -⟩ := h
  obtain ⟨htext, hi, hj⟩ := digits_eq major hmajor minor hminor
  rw [htext, versionParse_httpSlash]
  generalize UInt8.ofNat (48 + major) = a at hi ⊢
  generalize UInt8.ofNat (48 + minor) = b at hj ⊢
  have ha : decimal (byteAt ([a, dot, b] ++ rest) 0) = some major := hi
  have hb : decimal (byteAt ([a, dot, b] ++ rest) 2) = some minor := hj
  have hdot : byteAt ([a, dot, b] ++ rest) 1 ≠ space := show dot ≠ space by decide
  refine ⟨?_, ?_⟩
  · rw [ha, Option.bind_some, if_neg hdot, hb, Option.bind_some]
  · rw [versionStop, if_pos (.inl hmajor)]
    rfl

/-- A version of a response stands in front of a space. -/
theorem response_version {v : Version} (h : v.Dotted ∨ v = ⟨2, 0⟩) (rest : Bytes) :
    versionParse (httpSlash ++ (v.digits ++ space :: rest)) = some v ∧
      versionStop v (v.digits ++ space :: rest) = v.digits.length := by
  rcases h with h | rfl
  · exact h.parse (space :: rest)
  · exact ⟨rfl, rfl⟩

/-- Text in a line. -/
def InLine (s : Bytes) : Prop := NoEol s ∧ nul ∉ s

theorem inLine_append {a b : Bytes} : InLine (a ++ b) ↔ InLine a ∧ InLine b := by
  simp only [InLine, noEol_append, List.mem_append, not_or]
  exact and_and_and_comm

theorem inLine_cons {c : Byte} {s : Bytes} : InLine (c :: s) ↔
    (isEol c = false ∧ nul ≠ c) ∧ InLine s := by
  simp only [InLine, noEol_cons, List.mem_cons, not_or]
  exact and_and_and_comm

theorem formatLong_inLine (n : ℕ) : InLine (formatLong n) := by
  have hplain : ∀ c : Byte, isDigit c = true → isEol c = false ∧ c ≠ nul := by decide +kernel
  exact ⟨fun c hc => (hplain c (formatLong_isDigit n c hc)).1,
    fun hc => (hplain nul (formatLong_isDigit n nul hc)).2 rfl⟩

theorem httpSlash_inLine : InLine httpSlash := ⟨by decide +kernel, by decide⟩

theorem digits_inLine (v : Version) : InLine v.digits := by
  unfold Version.digits
  split_ifs
  · exact formatLong_inLine 2
  · exact inLine_append.mpr ⟨inLine_append.mpr ⟨formatLong_inLine _, by decide +kernel, by decide⟩,
      formatLong_inLine _⟩

/-! ### The place of the version -/

theorem prefix_append_cons {l a b : Bytes} {x : Byte} (h : l <+: a ++ x :: b) (hx : x ∉ l) :
    l <+: a := by
  rcases Nat.lt_or_ge a.length l.length with hlt | hle
  · have hpre : a ++ [x] <+: l :=
      List.prefix_of_prefix_length_le ⟨b, by simp⟩ h (by simpa using hlt)
    exact absurd (hpre.subset (by simp)) hx
  · exact List.prefix_of_prefix_length_le h (List.prefix_append a _) hle

theorem locateStr_behind {needle a : Bytes} {x : Byte} (ha : ¬ needle <:+: a) (hx : x ∉ needle)
    (rest : Bytes) :
    locateStr needle (a ++ x :: (needle ++ rest)) = some (a.length + 1) := by
  induction a with
  | nil =>
    have hne : needle ≠ [] := fun h => ha (by simp [h])
    have hpre : ¬ needle <+: x :: (needle ++ rest) := fun h =>
      hne (List.prefix_nil.mp (prefix_append_cons (a := []) h hx))
    have hzero : locateStr needle (needle ++ rest) = some 0 :=
      (locateStr_eq_zero hne).mpr (List.prefix_append _ _)
    rw [List.nil_append, locateStr, if_neg hpre, hzero]
    rfl
  | cons c a ih =>
    rw [List.infix_cons_iff, not_or] at ha
    have hpre : ¬ needle <+: c :: (a ++ x :: (needle ++ rest)) :=
      fun h => ha.1 (prefix_append_cons (a := c :: a) h hx)
    rw [List.cons_append, locateStr, if_neg hpre, ih ha.2]
    rfl

theorem space_notMem_httpSlash : space ∉ httpSlash := by decide

section Parse
variable {P : UrlParsers HttpUrl}

/-! ### Requests -/

theorem requestParse_words {method target : Bytes} (hspace : space ∉ method) (hne : target ≠ [])
    (hhead : ∀ c ∈ target.head?, c ≠ space) (hlast : ∀ c ∈ target.getLast?, c ≠ space)
    (version : Version) :
    requestParse P version (method ++ space :: (target ++ [space])) =
      if method.map toUpper = connect then (P.parseAuthority target).map (.request version method)
      else (P.parse target).map (.request version method) := by
  have hmethod : ∀ c ∈ method, decide (c ≠ space) = true := fun c hc => by
    simp only [decide_eq_true_eq]
    exact fun h => hspace (h ▸ hc)
  have htake : (method ++ space :: (target ++ [space])).takeWhile (· ≠ space) = method :=
    takeWhile_append_of_stop hmethod fun c hc => by
      obtain rfl : space = c := Option.some.inj hc
      rfl
  have hdrop : (method ++ space :: (target ++ [space])).dropWhile (· ≠ space) =
      space :: (target ++ [space]) := by
    rw [List.dropWhile_append_of_pos hmethod]
    rfl
  have hblank : (space :: (target ++ [space])).dropWhile (· = space) = target ++ [space] := by
    obtain ⟨c, target, rfl⟩ := List.exists_cons_of_ne_nil hne
    rw [List.dropWhile_cons_of_pos (by decide), List.cons_append, List.dropWhile_cons_of_neg]
    simpa using hhead c rfl
  have hend : (target ++ [space]).rdropWhile (· = space) = target := by
    rw [List.rdropWhile_concat_pos _ _ _ (by decide), List.rdropWhile_eq_self_iff]
    intro hne'
    simpa using hlast _ (List.getLast?_eq_some_getLast hne')
  unfold requestParse
  dsimp only
  rw [htake, hdrop, hblank, hend, if_neg hne]

/-! ### Responses -/

theorem formatLong_code : ∀ code < 600, 100 ≤ code → formatLong (code : ℕ) =
    [UInt8.ofNat (48 + code / 100), UInt8.ofNat (48 + code / 10 % 10),
      UInt8.ofNat (48 + code % 10)] := by
  decide +kernel

theorem digit_ofNat :
    ∀ d < 10, isDigit (UInt8.ofNat (48 + d)) = true ∧ (UInt8.ofNat (48 + d)).toNat - 48 = d := by
  decide

theorem statusSum_code {code : ℕ} (h : 100 ≤ code ∧ code < 600) (rest : Bytes) :
    statusSum (formatLong code ++ rest) = code := by
  obtain ⟨ha, hna⟩ := digit_ofNat (code / 100) (by omega)
  obtain ⟨hb, hnb⟩ := digit_ofNat (code / 10 % 10) (by omega)
  obtain ⟨hc, hnc⟩ := digit_ofNat (code % 10) (by omega)
  rw [formatLong_code code h.2 h.1, List.cons_append, List.cons_append, List.cons_append,
    List.nil_append, statusSum_digits ha hb hc, hna, hnb, hnc]
  omega

/-- What is written for a status behind the code. -/
def statusTail (status : Option Bytes) : Bytes := status.elim [] (space :: ·)

theorem infoToString_response {version : Version} {code : ℕ} {status : Option Bytes}
    (hversion : version.Dotted ∨ version = ⟨2, 0⟩) (hcode : code ≠ 0)
    (hstatus : ∀ s ∈ status, StatusText s) :
    infoToString crlf (.response version code status) =
      httpSlash ++ (version.digits ++ space :: (formatLong code ++ statusTail status)) ++ crlf := by
  rw [infoToString, formatVersion_digits hversion, if_pos hcode]
  cases status with
  | none => simp [statusTail, cString]
  | some s =>
    have hs := hstatus s rfl
    simp [statusTail, cString_of_noNul hs.noNul, hs.ne]

theorem statusTail_inLine {status : Option Bytes} (hstatus : ∀ s ∈ status, StatusText s) :
    InLine (statusTail status) := by
  cases status with
  | none => exact ⟨noEol_nil, by simp [statusTail]⟩
  | some s =>
    have hs := hstatus s rfl
    exact inLine_cons.mpr ⟨by decide, hs.noEol, hs.noNul⟩

theorem statusLine_inLine (version : Version) (code : ℕ) {status : Option Bytes}
    (hstatus : ∀ s ∈ status, StatusText s) :
    InLine (httpSlash ++ (version.digits ++ space :: (formatLong code ++ statusTail status))) := by
  simp only [inLine_append, inLine_cons]
  exact ⟨httpSlash_inLine, digits_inLine version, ⟨by decide, by decide⟩, formatLong_inLine code,
    statusTail_inLine hstatus⟩

theorem word_statusTail {status : Option Bytes} (hstatus : ∀ s ∈ status, StatusText s) :
    (if 3 < 3 + (statusTail status).length then some (word (statusTail status)) else none) =
      status := by
  cases status with
  | none => rfl
  | some s =>
    obtain ⟨c, s, rfl⟩ := List.exists_cons_of_ne_nil (hstatus s rfl).ne
    have hc : c ≠ space := (hstatus (c :: s) rfl).head c rfl
    simp [statusTail, word, hc]

theorem infoParse_response_toString {version : Version} {code : ℕ} {status : Option Bytes}
    (hversion : version.Dotted ∨ version = ⟨2, 0⟩) (hcode : 100 ≤ code ∧ code < 600)
    (hstatus : ∀ s ∈ status, StatusText s) :
    infoParse P (infoToString crlf (.response version code status)) =
      some (.response version code status) := by
  have hcodetext := formatLong_code code hcode.2 hcode.1
  have hlength : (formatLong code).length = 3 := by rw [hcodetext]; rfl
  obtain ⟨hparse, hstop⟩ := response_version hversion (formatLong code ++ statusTail status ++ crlf)
  have hline := statusLine_inLine version code hstatus
  have hfirst := firstLine_crlf hline.1 hline.2 []
  rw [List.append_nil] at hfirst
  have htext : version.digits ++ space :: (formatLong code ++ statusTail status) ++ crlf =
      version.digits ++ space :: (formatLong code ++ statusTail status ++ crlf) := by simp
  have hspace : byteAt (version.digits ++ space :: (formatLong code ++ statusTail status) ++ crlf)
      version.digits.length =
      space := by
    rw [htext, byteAt_eq_headD, List.drop_left]
    rfl
  have hword : word ((version.digits ++ space :: (formatLong code ++ statusTail status)).drop
      version.digits.length) = formatLong code ++ statusTail status := by
    obtain ⟨ha, -⟩ := digit_ofNat (code / 100) (by omega)
    rw [List.drop_left, word, List.dropWhile_cons_of_pos (by decide), hcodetext, List.cons_append,
      List.dropWhile_cons_of_neg]
    intro h
    rw [of_decide_eq_true h] at ha
    cases ha
  rw [← htext] at hparse hstop
  rw [infoToString_response hversion (by omega) hstatus,
    infoParse_status hfirst hparse hstop.symm (.inr (by rw [hspace]; rfl))]
  dsimp only
  rw [hword, List.append_assoc, statusSum_code hcode, if_neg (by simp [hcodetext]),
    if_pos ⟨by omega, by omega⟩, List.length_append, hlength, List.drop_left' hlength,
    word_statusTail hstatus]
  rfl

/-! ### Lines -/

/-- What stands in front of the version in a request line. -/
def requestFront (method target : Bytes) : Bytes := method ++ space :: (target ++ [space])

theorem infoToString_request {version : Version} {method : Bytes} {url : HttpUrl}
    (hversion : version.Dotted) (hmethod : LineWord method)
    (htarget : LineWord (requestTarget method url)) :
    infoToString crlf (.request version method url) =
      requestFront method (requestTarget method url) ++ (httpSlash ++ version.digits) ++ crlf := by
  rw [infoToString, formatVersion_digits (.inl hversion), cString_of_noNul hmethod.noNul,
    cString_of_noNul htarget.noNul]
  simp [requestFront]

theorem requestLine_inLine (version : Version) {method target : Bytes} (hmethod : LineWord method)
    (htarget : LineWord target) :
    InLine (requestFront method target ++ (httpSlash ++ version.digits)) := by
  simp only [requestFront, inLine_append, inLine_cons]
  exact ⟨⟨⟨hmethod.noEol, hmethod.noNul⟩, ⟨by decide, by decide⟩, ⟨htarget.noEol, htarget.noNul⟩,
    ⟨by decide, by decide⟩, noEol_nil, by simp⟩, httpSlash_inLine, digits_inLine version⟩

theorem infoParse_request_toString {version : Version} {method : Bytes} {url : HttpUrl}
    (hversion : version.Dotted) (hmethod : LineWord method) (hspace : space ∉ method)
    (htarget : LineWord (requestTarget method url))
    (hhead : ∀ c ∈ (requestTarget method url).head?, c ≠ space)
    (hlast : ∀ c ∈ (requestTarget method url).getLast?, c ≠ space)
    (hurl : (if method.map toUpper = connect then P.parseAuthority (requestTarget method url)
      else P.parse (requestTarget method url)) = some url) :
    infoParse P (infoToString crlf (.request version method url)) =
      some (.request version method url) := by
  rw [infoToString_request hversion hmethod htarget]
  generalize requestTarget method url = target at htarget hhead hlast hurl
  have hline := requestLine_inLine version hmethod htarget
  have hfirst := firstLine_crlf hline.1 hline.2 []
  rw [List.append_nil] at hfirst
  have hno : ¬ httpSlash <:+: method ++ space :: target := fun h => by
    rcases infix_append_cons h space_notMem_httpSlash with h | h
    · exact hmethod.noHttp h
    · exact htarget.noHttp h
  have hloc : locateStr httpSlash (requestFront method target ++ (httpSlash ++ version.digits)) =
      some (requestFront method target).length := by
    have hbehind := locateStr_behind hno space_notMem_httpSlash version.digits
    simp only [requestFront, List.append_assoc, List.cons_append, List.nil_append] at hbehind ⊢
    rw [hbehind]
    simp [Nat.add_assoc]
  obtain ⟨hparse, hstop⟩ := hversion.parse crlf
  have hcr : byteAt (version.digits ++ crlf) version.digits.length = cr := by
    rw [byteAt_eq_headD, List.drop_left]
    rfl
  have hend : (requestFront method target).getLast? = some space := by
    rw [requestFront, ← List.cons_append, ← List.append_assoc, List.getLast?_concat]
  have hrequest := requestParse_words (P := P) hspace htarget.ne hhead hlast version
  rw [infoParse_eq hfirst rfl hloc, hparse, Option.bind_some, hstop, hcr]
  dsimp only
  rw [if_neg (by decide), if_neg (by simp [requestFront]), if_pos ⟨hend, .inr rfl⟩,
    requestFront, hrequest]
  split_ifs at hurl ⊢ <;> rw [hurl] <;> rfl

end Parse

/-- A start line is one line. -/
theorem Info.Readable.line {P : UrlParsers HttpUrl} {info : Info HttpUrl} (h : info.Readable P) :
    ∃ line, infoToString crlf info = line ++ crlf ∧ line ≠ [] ∧ InLine line := by
  cases h with
  | request hversion hmethod hspace htarget hhead hlast hurl =>
    exact ⟨_, infoToString_request hversion hmethod htarget, by simp [requestFront],
      requestLine_inLine _ hmethod htarget⟩
  | response hversion hcode hstatus =>
    exact ⟨_, infoToString_response hversion (by omega)
      hstatus, by simp [httpSlash], statusLine_inLine _ _ hstatus⟩

/-- A start line that has been written is read again. -/
theorem infoParse_infoToString {P : UrlParsers HttpUrl} {info : Info HttpUrl}
    (h : info.Readable P) :
    infoParse P (infoToString crlf info) = some info := by
  cases h with
  | request hversion hmethod hspace htarget hhead hlast hurl =>
    exact infoParse_request_toString hversion hmethod hspace htarget hhead hlast hurl
  | response hversion hcode hstatus => exact infoParse_response_toString hversion hcode hstatus

instance (s : Bytes) : Decidable (LineWord s) :=
  decidable_of_iff (s ≠ [] ∧ NoEol s ∧ nul ∉ s ∧ ¬ httpSlash <:+: s)
    ⟨fun ⟨hne, heol, hnul, hhttp⟩ => ⟨hne, heol, hnul, hhttp⟩,
      fun h => ⟨h.ne, h.noEol, h.noNul, h.noHttp⟩⟩

/-- `http://h/a?b` -/
def plainUrl : HttpUrl :=
  ⟨some (ascii "http"), none, none, some (ascii "h"), 0, some (ascii "/a"), some (ascii "b"), none⟩

theorem plainUrl_readable :
    Info.Readable (urlParsers plainLibs) (.request ⟨1, 1⟩ (ascii "GET") plainUrl) :=
  .request ⟨by decide, by decide, by decide⟩ (by decide +kernel) (by decide +kernel)
    (by decide +kernel) (by decide +kernel) (by decide +kernel) (by decide +kernel)

theorem infoParse_plainUrl :
    infoParse (urlParsers plainLibs) (ascii "GET http://h/a?b HTTP/1.1\r\n") =
      some (.request ⟨1, 1⟩ (ascii "GET") plainUrl) := by
  have htext : infoToString crlf (.request ⟨1, 1⟩ (ascii "GET") plainUrl) =
      ascii "GET http://h/a?b HTTP/1.1\r\n" := by decide +kernel
  rw [← htext]
  exact infoParse_infoToString plainUrl_readable

end ExtHttp
