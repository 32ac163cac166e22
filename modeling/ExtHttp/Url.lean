import ExtHttp.ArrayKey
import ExtHttp.Info
import ExtHttp.Scan

/-!
# URLs

`php_http_url_to_string`, and `php_http_url_parse` and `php_http_url_parse_authority` with
`PHP_HTTP_URL_STDFLAGS`: multibyte sequences are UTF-8 and are percent-encoded outside of the host,
which is handed to the IDN library, and nothing is ignored.

The parser looks at characters behind the end of its string, which are `after` here. It has no
outcome where it reads behind those.
-/
namespace ExtHttp
open Scan

/-- `php_http_url_t` -/
structure HttpUrl where
  scheme : Option Bytes
  user : Option Bytes
  pass : Option Bytes
  host : Option Bytes
  port : ℕ
  path : Option Bytes
  query : Option Bytes
  fragment : Option Bytes
  deriving DecidableEq, Repr

/-! ### Writing -/

/-- `php_http_url_authority_to_string`. A component counts if it is there and not empty. -/
def urlAuthorityToString (url : HttpUrl) : Bytes :=
  let user := url.user.getD []
  let pass := url.pass.getD []
  let host := url.host.getD []
  (if user ≠ [] then user ++ (if pass ≠ [] then colon :: pass else []) ++ [atSign] else []) ++
    if host ≠ [] then host ++ (if url.port ≠ 0 then colon :: formatLong url.port else []) else []

/-- `php_http_url_to_string` -/
def urlToString (url : HttpUrl) : Bytes :=
  let scheme := url.scheme.getD []
  let path := url.path.getD []
  let query := url.query.getD []
  let fragment := url.fragment.getD []
  let buf := (if scheme ≠ [] then scheme ++ [colon, slash, slash]
      else if url.user.getD [] ≠ [] ∨ url.host.getD [] ≠ [] then [slash, slash] else []) ++
    urlAuthorityToString url
  buf ++
    (if path ≠ [] then (if path.head? = some slash then path else slash :: path)
      else if buf ≠ [] then [slash] else []) ++
    (if query ≠ [] then question :: query else []) ++
    if fragment ≠ [] then hash :: fragment else []

/-! ### Words -/

/-- What the parser takes from elsewhere: `inet_pton` followed by `inet_ntop` for IPv6 addresses,
the IDN library, if there is one, and `isualnum`, for which ICU's function may stand. -/
structure UrlLibs where
  inet6 : Bytes → Option Bytes
  idna : Option (Bytes → Option Bytes)
  isualnum : ℕ → Bool

/-- `utf8_mblen` -/
def utf8MbLen (c : Byte) : ℕ :=
  if c < 192 then 1 else if c < 224 then 2 else if c < 240 then 3 else if c < 248 then 4
  else if c < 252 then 5 else 6

/-- `utf8towc`: the character and its length. A continuation byte counts as a character of its
own. -/
def utf8ToWc : Bytes → Option (ℕ × ℕ)
  | [] => none
  | c :: b =>
      let n := utf8MbLen c
      let tail := b.take (n - 1)
      if 4 < n ∨ tail.length < n - 1 ∨ ∃ d ∈ tail, d &&& 192 ≠ 128 then none
      else
        let mask := if n = 1 then 127 else if n = 2 then 31 else if n = 3 then 15 else 7
        some (tail.foldl (fun wc d => wc * 64 + (d &&& 63).toNat) (c &&& mask).toNat, n)

/-- `parse_xdigits` -/
def xdigit (n : Byte) : Byte := if n < 10 then 48 + n else 55 + n

def pctEncode (b : Bytes) :
    Bytes := b.flatMap fun c : Byte => [percent, xdigit (c >>> 4), xdigit (c &&& 15)]

/-- `parse_mb` outside of scheme and host. -/
def mbToPct (rest : Bytes) : Option (Bytes × ℕ) :=
  (utf8ToWc rest).map fun o => (pctEncode (rest.take o.2), o.2)

/-- The `case '%'` of every component: three bytes are copied. -/
def percentWord (rest after : Bytes) : Option (Bytes × ℕ) :=
  let mem := rest ++ after
  if byteAt mem 1 ≠ percent ∧ (rest.length ≤ 2 ∨ isBaseDigit 16 (byteAt mem 1) = false ∨
      isBaseDigit 16 (byteAt mem 2) = false) then none
  else some ([percent, byteAt mem 1, byteAt mem 2], 3)

/-- Unreserved characters and sub-delims. -/
def isUrlChar (c : Byte) : Bool := isAlnum c || (ascii "-._~!$&'()*+,;=").contains c

/-- RFC 1738 unsafe -/
def isUnsafeChar (c : Byte) : Bool := (ascii "\x7b\x7d<>[]|\\^\x60\" ").contains c

/-- A word that leaves no trace in the state of its loop. -/
def plainWord {σ : Type} (w : Option (Bytes × ℕ)) (s : σ) : Option (Bytes × ℕ × σ) :=
  w.map fun o => (o.1, o.2, s)

/-- The character a loop looks at. -/
def current (rest after : Bytes) : Byte := byteAt (rest ++ after) 0

/-- In the scheme; the state tells the first character. -/
def schemeWord (L : UrlLibs) : Word Byte Byte Bool := fun first rest after =>
  let c := current rest after
  if isAlpha c || (!first && (isDigit c || (ascii "+-.").contains c)) then some ([c], 1, false)
  else if isDigit c || (ascii "+-.").contains c then none
  else (utf8ToWc rest).bind fun o =>
    if L.isualnum o.1 then some (rest.take o.2, o.2, false) else none

/-- In user and password, where there is a `:` between them only. -/
def userinfoWord : Word Byte Byte Unit := fun _ rest after =>
  let c := current rest after
  if c = colon then none
  else plainWord (if c = percent then percentWord rest after
    else if isUrlChar c then some ([c], 1) else mbToPct rest) ()

/-- In the host; the state tells whether there is a label, without which no dot and no hyphen may
come. -/
def hostWord : Word Byte Byte Bool := fun label rest after =>
  let c := current rest after
  if c = percent then plainWord (percentWord rest after) label
  else if c = dot then if label then some ([c], 1, false) else none
  else if c = hyphen then if label then some ([c], 1, true) else none
  else if isUrlChar c then some ([c], 1, true)
  else (utf8ToWc rest).map fun o => (rest.take o.2, o.2, true)

/-- In the port, where percent-encoded characters still go to the host. The port is the state. -/
def portWord : Word Byte Byte ℕ := fun port rest after =>
  let c := current rest after
  if c = percent then plainWord (percentWord rest after) port
  else if isDigit c then some ([], 1, (port * 10 + (c.toNat - 48)) % 2 ^ 16)
  else none

def pathWord : Word Byte Byte Unit := fun _ rest after =>
  let c := current rest after
  plainWord (if c = percent then percentWord rest after
    else if isUrlChar c || (ascii "/:@").contains c then some ([c], 1) else mbToPct rest) ()

def queryWord : Word Byte Byte Unit := fun _ rest after =>
  let c := current rest after
  plainWord (if c = percent then percentWord rest after
    else if isUnsafeChar c then some (pctEncode [c], 1)
    else if isUrlChar c || (ascii "/:@?").contains c then some ([c], 1) else mbToPct rest) ()

def fragmentWord : Word Byte Byte Unit := fun _ rest after =>
  if current rest after = hash then none else queryWord () rest after

/-! ### The parser -/

/-- `struct parse_state` without the position in the input: the buffer, where it is written next,
and where the components begin in it. -/
structure UrlState where
  buffer : Bytes
  offset : ℕ
  scheme : Option ℕ
  user : Option ℕ
  pass : Option ℕ
  host : Option ℕ
  port : ℕ
  path : Option ℕ
  query : Option ℕ
  fragment : Option ℕ

def urlStart : UrlState := ⟨[], 0, none, none, none, none, 0, none, none, none⟩

/-- Put `w` at offset `i`; the buffer has been cleared. -/
def overwrite (buffer : Bytes) (i : ℕ) (w : Bytes) : Bytes :=
  (buffer ++ List.replicate (i - buffer.length) nul).take i ++ w ++ buffer.drop (i + w.length)

def UrlState.put (st : UrlState) (w : Bytes) : UrlState :=
  { st with buffer := overwrite st.buffer st.offset w, offset := st.offset + w.length }

/-- The C string at an offset of the buffer. -/
def UrlState.read (st : UrlState) (i : ℕ) : Bytes := (st.buffer.drop i).takeWhile (· ≠ nul)

def UrlState.url (st : UrlState) : HttpUrl where
  scheme := st.scheme.map st.read
  user := st.user.map st.read
  pass := st.pass.map st.read
  host := st.host.map st.read
  port := st.port
  path := st.path.map st.read
  query := st.query.map st.read
  fragment := st.fragment.map st.read

def never (_ : Byte) : Bool := false

def isColon (c : Byte) : Bool := c = colon

/-- `parse_scheme`. Without a scheme what has been written is written over. -/
def parseScheme (L : UrlLibs) (st : UrlState) (str after : Bytes) : UrlState × Bytes :=
  match scan isColon (schemeWord L) after true 0 str with
  | some ⟨scheme, _, _ :: rest, _⟩ => ({ st.put (scheme ++ [nul]) with scheme := some 0 }, rest)
  | _ => (st, str)

/-- `parse_userinfo` -/
def parseUserinfo (st : UrlState) (userinfo after : Bytes) : Option UrlState := do
  let user ← scan isColon userinfoWord after () 0 userinfo
  let st := { st with user := some st.offset }.put (user.written ++ [nul])
  match user.rest with
  | [] => some st
  | _ :: rest => do
      let pass ← scan never userinfoWord after () 0 rest
      some ({ st with pass := some st.offset }.put (pass.written ++ [nul]))

/-- `parse_idna`; `len` is what the length of the name is taken for. -/
def parseIdna (L : UrlLibs) (st : UrlState) (host len : ℕ) : Option UrlState :=
  match L.idna with
  | none => some st
  | some idna => (idna (st.read host)).map fun idn =>
      { st with
        buffer := overwrite st.buffer host (idn ++ [nul])
        offset := st.offset + idn.length - len }

/-- `parse_ip6`: the address in its brackets, and what follows it. -/
def ip6Text (L : UrlLibs) (hostinfo : Bytes) : Option (Bytes × Bytes) :=
  match hostinfo.tail.dropWhile (· ≠ 93) with
  | [] => none
  | _ :: rest => (L.inet6 (hostinfo.tail.takeWhile (· ≠ 93))).map fun addr =>
      (91 :: addr ++ [93], rest)

def parseIp6 (L : UrlLibs) (st : UrlState) (hostinfo : Bytes) : Option (UrlState × Bytes) :=
  (ip6Text L hostinfo).map fun o => ({ st with host := some st.offset }.put (o.1 ++ [nul]), o.2)

/-- The port behind a host of which `rest` is left, and what it writes to the host. -/
def portScan (port : ℕ) (rest after : Bytes) : Option (Outcome Byte Byte ℕ) :=
  match rest with
  | [] => some ⟨[], port, [], 0⟩
  | _ :: rest => scan never portWord after port 0 rest

/-- What `parse_hostinfo` does behind a literal address, or without one; `len` is the offset at its
beginning. -/
def parseHostRest (L : UrlLibs) (len : ℕ) (st : UrlState) (hostinfo after : Bytes) :
    Option UrlState := do
  let host ← scan isColon hostWord after false 0 hostinfo
  let port ← portScan st.port host.rest after
  let st := { st.put (host.written ++ port.written) with port := port.state }
  match st.host with
  | none => parseIdna L ({ st with host := some len }.put [nul]) len (st.offset - len)
  | some host => parseIdna L st host len

/-- `parse_hostinfo` -/
def parseHostinfo (L : UrlLibs) (st : UrlState) (hostinfo after : Bytes) : Option UrlState :=
  (if hostinfo.head? = some 91 then parseIp6 L st hostinfo else some (st, hostinfo)).bind fun o =>
    parseHostRest L st.offset o.1 o.2 after

/-- What ends the user info or the host. -/
def inAuthority (c : Byte) : Bool := c ≠ atSign && c ≠ slash && c ≠ question && c ≠ hash && c ≠ nul

/-- The first half of `parse_authority`: the user info, the text of the host, and what follows
it. -/
def parseUserPart (st : UrlState) (rest after : Bytes) : Option (UrlState × Bytes × Bytes) :=
  let part := rest.takeWhile inAuthority
  let left := rest.dropWhile inAuthority
  if left.head? = some atSign then
    (if part = [] then some st else parseUserinfo st part (left ++ after)).map fun st =>
      (st, left.tail.takeWhile inAuthority, left.tail.dropWhile inAuthority)
  else some (st, part, left)

/-- `parse_authority` -/
def parseAuthority (L : UrlLibs) (st : UrlState) (rest after : Bytes) : Option (UrlState × Bytes) :=
  (parseUserPart st rest after).bind fun (st, part, left) =>
    -- unexpected '@'
    if left.head? = some atSign then none
    else (if part = [] then some st else parseHostinfo L st part (left ++ after)).map fun st =>
      (st, left)

def isPathEnd (c : Byte) : Bool := c = question || c = hash

/-- `parse_path`: the state, what is left, and how far behind the end it is. -/
def parsePath (st : UrlState) (rest after : Bytes) : Option (UrlState × Bytes × ℕ) :=
  if current rest after = nul then some (st, rest, 0)
  else (scanDo isPathEnd pathWord after () rest).map fun path =>
    if path.rest.length = rest.length ∧ path.excess = 0 then (st, rest, 0)
    else ({ st with path := some st.offset }.put (path.written ++ [nul]), path.rest, path.excess)

/-- `parse_hier` -/
def parseHier (L : UrlLibs) (st : UrlState) (rest after : Bytes) : Option (UrlState × Bytes × ℕ) :=
  let authority := if rest.take 2 = [slash, slash] then parseAuthority L st (rest.drop 2) after
    else some (st, rest)
  authority.bind fun (st, rest) => parsePath st rest after

def isHash (c : Byte) : Bool := c = hash

/-- `parse_query` -/
def parseQuery (st : UrlState) (rest : Bytes) (excess : ℕ) (after : Bytes) :
    Option (UrlState × Bytes × ℕ) := do
  let c ← (rest ++ after)[excess]?
  if c ≠ question then some (st, rest, excess)
  else
    let st := { st with query := some st.offset }
    match rest with
    | [] => some (st.put [nul], [], excess + 1)
    | _ :: rest => (scan isHash queryWord after () 0 rest).map fun query =>
        (st.put (query.written ++ [nul]), query.rest, query.excess)

def fragmentScan (rest : Bytes) (excess : ℕ) (after : Bytes) : Option (Outcome Byte Byte Unit) :=
  match rest with
  | [] => scanDo never fragmentWord (after.drop (excess + 1)) () []
  | _ :: rest => scanDo never fragmentWord after () rest

/-- `parse_fragment` -/
def parseFragment (st : UrlState) (rest : Bytes) (excess : ℕ) (after : Bytes) :
    Option UrlState := do
  let c ← (rest ++ after)[excess]?
  if c ≠ hash then some st
  else (fragmentScan rest excess after).map fun fragment =>
    { st with fragment := some st.offset }.put (fragment.written ++ [nul])

/-- `php_http_url_parse` -/
def urlParse (L : UrlLibs) (str after : Bytes) : Option HttpUrl := do
  let (st, rest) := parseScheme L urlStart str after
  let (st, rest, excess) ← parseHier L st rest after
  let (st, rest, excess) ← parseQuery st rest excess after
  let st ← parseFragment st rest excess after
  some st.url

/-- `php_http_url_parse_authority` -/
def urlParseAuthority (L : UrlLibs) (str after : Bytes) : Option HttpUrl := do
  let (st, rest) ← parseAuthority L urlStart str after
  if rest = [] then some st.url else none

/-- The parsers as a request line uses them: behind a target there is a space at least, and then
neither `?` nor `#`. -/
def urlParsers (L : UrlLibs) : UrlParsers HttpUrl :=
  ⟨fun target => urlParse L target (ascii " H"), fun target =>
    urlParseAuthority L target (ascii " H")⟩

/-- No IPv6 addresses, an IDN library that leaves everything as it is, and no letters but
ASCII's. -/
def plainLibs : UrlLibs := ⟨fun _ => none, some some, fun wc => wc < 128 && isAlnum wc.toUInt8⟩

example : (urlParse plainLibs (ascii "http://u:p@h.x:80/a b?c=[]#d") [nul]).map urlToString =
    some (ascii "http://u:p@h.x:80/a%20b?c=%5B%5D#d") := by decide +kernel

end ExtHttp
