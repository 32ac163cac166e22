import ExtHttp.Url

/-!
# The URL parser with all its flags

`php_http_url_parse` and `php_http_url_parse_authority` for any flags, on a cursor that sees the
memory behind the end of the text. A parser may refuse the text, read where there is no memory, or
begin to copy `(size_t) -2` bytes.
-/
namespace ExtHttp
open Scan

/-- The bits of `flags` -/
abbrev UrlFlags := UInt32

namespace UrlFlags
variable (flags : UrlFlags)

/-- `PHP_HTTP_URL_PARSE_MBLOC` -/
def mbloc : Bool := flags &&& 0x10000 ≠ 0

/-- `PHP_HTTP_URL_PARSE_MBUTF8` -/
def mbutf8 : Bool := flags &&& 0x20000 ≠ 0

/-- `PHP_HTTP_URL_PARSE_TOIDN` -/
def toidn : Bool := flags &&& 0x100000 ≠ 0

/-- `PHP_HTTP_URL_PARSE_TOPCT` -/
def topct : Bool := flags &&& 0x200000 ≠ 0

/-- `PHP_HTTP_URL_IGNORE_ERRORS` -/
def ignoreErrors : Bool := flags &&& 0x10000000 ≠ 0

/-- `PHP_HTTP_URL_STDFLAGS` -/
def std : UrlFlags := 0x00332003

end UrlFlags

/-- Why a parser comes to no result. -/
inductive UrlExit
  | refused
  /-- a read behind the memory -/
  | overread
  /-- a copy of `(size_t) -2` bytes -/
  | runaway
  deriving DecidableEq, Repr

/-- What is found of a multibyte character: nothing, the character and how many bytes follow its
first one, or `(size_t) -2`, with what the variable of the character holds then. -/
inductive MbChar
  | invalid
  | char (wc tail : ℕ)
  | incomplete (wc : ℕ)
  deriving DecidableEq, Repr

/-- What the parser takes from elsewhere, now with the functions of the locale: the IDN library for
the flags, and whether its failure is ignored where errors are. Addresses and names come as strings;
a character has no more bytes than there are. -/
structure UrlSystem where
  inet6 : Bytes → Option Bytes
  inet6_noNul : ∀ text addr, inet6 text = some addr → nul ∉ addr
  idna : UrlFlags → Option (Bytes → Option Bytes)
  idna_ascii : ∀ flags, ∀ f ∈ idna flags, ∀ host idn, f host = some idn → ∀ c ∈ idn,
  c ≠ nul ∧ c < 128
  idnaIgnored : Bool
  isualnum : ℕ → Bool
  mbrtowc : Bytes → MbChar
  mbrtowc_le : ∀ b wc tail, mbrtowc b = .char wc tail → tail < b.length
  iswalnum : ℕ → Bool

/-- `enum parse_mb_what` -/
inductive UrlPart
  | scheme
  | userinfo
  | hostinfo
  | path
  | query
  | fragment
  deriving DecidableEq, Repr

/-- `state->ptr`: what can be read from there on, and `state->end - state->ptr`. -/
structure UrlCursor where
  text : Bytes
  left : ℤ
  deriving DecidableEq, Repr

namespace UrlCursor

/-- A cursor in front of `rest`, with `after` in the memory behind the end. -/
def on (rest after : Bytes) : UrlCursor := ⟨rest ++ after, rest.length⟩

def advance (cur : UrlCursor) (n : ℕ) : UrlCursor := ⟨cur.text.drop n, cur.left - n⟩

/-- The text up to the end -/
def rest (cur : UrlCursor) : Bytes := cur.text.take cur.left.toNat

/-- What is behind the end -/
def after (cur : UrlCursor) : Bytes := cur.text.drop cur.left.toNat

/-- `ptr[i]` -/
def read (cur : UrlCursor) (i : ℕ) : Except UrlExit Byte :=
  match cur.text[i]? with
  | some c => .ok c
  | none => .error .overread

/-- `memcpy` from the cursor -/
def readChars (cur : UrlCursor) (n : ℕ) : Except UrlExit Bytes :=
  if n ≤ cur.text.length then .ok (cur.text.take n) else .error .overread

/-- `end - ptr` as a `size_t` -/
def size (cur : UrlCursor) : ℕ := (if cur.left < 0 then 2 ^ 64 + cur.left else cur.left).toNat

end UrlCursor

/-- `parse_mb_utf8`. The continuation bytes are looked at one after the other. -/
def mbUtf8 (cur : UrlCursor) : Except UrlExit MbChar := do
  let c ← cur.read 0
  let n := utf8MbLen c
  if cur.size < n ∨ 4 < n then .ok .invalid
  else if cur.text.length < n ∧ ∀ d ∈ cur.text.tail, d &&& 192 = 128 then .error .overread
  else match utf8ToWc cur.text with
    | some (wc, n) => .ok (.char wc (n - 1))
    | none => .ok .invalid

section Scanners
variable (S : UrlSystem) (flags : UrlFlags)

/-- The character at the cursor, as the flags say. -/
def mbAt (cur : UrlCursor) : Except UrlExit MbChar :=
  if flags.mbutf8 then mbUtf8 cur
  else if flags.mbloc then .ok (S.mbrtowc (cur.text.take cur.size))
  else .ok .invalid

/-- Whether a character is copied, or percent-encoded: `none`, or refused. -/
def mbCopied (what : UrlPart) (wc : ℕ) : Option Bool :=
  if !flags.topct || what = .hostinfo || what = .scheme then
    if what = .hostinfo && flags.toidn then some true
    else if flags.mbutf8 then some (S.isualnum wc)
    else some (S.iswalnum wc)
  else none

/-- `parse_mb`: what is written, and how many bytes are taken. -/
def parseMb (what : UrlPart) (cur : UrlCursor) : Except UrlExit (Option (Bytes × ℕ)) := do
  let mb ← mbAt S flags cur
  let unexpected : Except UrlExit (Option (Bytes × ℕ)) :=
    if flags.ignoreErrors then do
      let c ← cur.read 0
      .ok (some ([c], 1))
    else .ok none
  match mb with
  | .invalid => unexpected
  | .char wc tail =>
      if mbCopied S flags what wc = some false then unexpected
      else do
        let b ← cur.readChars (tail + 1)
        .ok (some (if mbCopied S flags what wc = some true then b else pctEncode b, tail + 1))
  | .incomplete wc => if mbCopied S flags what wc = some false then unexpected else .error .runaway

/-- The triple of a `case '%'`, if it is one. -/
def triple (cur : UrlCursor) : Except UrlExit (Option Bytes) := do
  let x ← cur.read 1
  if x ≠ percent ∧ (cur.left ≤ 2 ∨ isBaseDigit 16 x = false) then .ok none
  else do
    let y ← cur.read 2
    if x ≠ percent ∧ isBaseDigit 16 y = false then .ok none else .ok (some [percent, x, y])

/-- What is written in a turn of a loop, how many bytes it takes, and the state of the loop then. -/
abbrev UrlWord (σ : Type) := σ → UrlCursor → Except UrlExit (Bytes × ℕ × σ)

/-- The `default` of a component -/
def mbWord {σ : Type} (what : UrlPart) (s : σ) (cur : UrlCursor) :
    Except UrlExit (Bytes × ℕ × σ) := do
  match ← parseMb S flags what cur with
  | some (w, n) => .ok (w, n, s)
  | none => .error .refused

/-- An error: with `PHP_HTTP_URL_IGNORE_ERRORS` the loop goes on. -/
def orElse {σ : Type} (ignored : Bytes × ℕ × σ) : Except UrlExit (Bytes × ℕ × σ) :=
  if flags.ignoreErrors then .ok ignored else .error .refused

namespace UrlScanner

/-- In the scheme; the state tells the first character. -/
def schemeWord : UrlWord Bool := fun first cur => do
  let c ← cur.read 0
  if isAlpha c || (!first && (isDigit c || (ascii "+-.").contains c)) then .ok ([c], 1, false)
  else if isDigit c || (ascii "+-.").contains c then .error .refused
  else mbWord S flags .scheme false cur

/-- In user and password. A `:` is seen in the password only. -/
def userinfoWord : UrlWord Unit := fun _ cur => do
  let c ← cur.read 0
  if c = colon then orElse flags ([c], 1, ())
  else if c = percent then
    match ← triple cur with
    | some w => .ok (w, 3, ())
    | none => orElse flags ([c], 2, ())
  else if isUrlChar c then .ok ([c], 1, ())
  else mbWord S flags .userinfo () cur

/-- In the host; the state tells whether there is a label. -/
def hostWord : UrlWord Bool := fun label cur => do
  let c ← cur.read 0
  if c = percent then
    match ← triple cur with
    | some w => .ok (w, 3, label)
    | none => orElse flags ([c], 2, label)
  else if c = dot then if label then .ok ([c], 1, false) else orElse flags ([], 1, false)
  else if c = hyphen then if label then .ok ([c], 1, true) else orElse flags ([], 1, false)
  else if isUrlChar c then .ok ([c], 1, true)
  else mbWord S flags .hostinfo true cur

/-- In the port, which is the state. -/
def portWord : UrlWord ℕ := fun port cur => do
  let c ← cur.read 0
  if c = percent then
    match ← triple cur with
    | some w => .ok (w, 3, port)
    | none => orElse flags ([c], 2, port)
  else if isDigit c then .ok ([], 1, (port * 10 + (c.toNat - 48)) % 2 ^ 16)
  else orElse flags ([], 1, port)

def pathWord : UrlWord Unit := fun _ cur => do
  let c ← cur.read 0
  if c = percent then
    match ← triple cur with
    | some w => .ok (w, 3, ())
    | none => orElse flags ([c], 1, ())
  else if isUrlChar c || (ascii "/:@").contains c then .ok ([c], 1, ())
  else mbWord S flags .path () cur

/-- An unsafe character -/
def unsafeChar (c : Byte) : Bytes := if flags.topct then pctEncode [c] else [c]

/-- In query and fragment, without the `#`. -/
def textWord (what : UrlPart) : UrlWord Unit := fun _ cur => do
  let c ← cur.read 0
  if c = percent then
    match ← triple cur with
    | some w => .ok (w, 3, ())
    | none => orElse flags (unsafeChar flags c, 1, ())
  else if isUnsafeChar c then .ok (unsafeChar flags c, 1, ())
  else if isUrlChar c || (ascii "/:@?").contains c then .ok ([c], 1, ())
  else mbWord S flags what () cur

def queryWord : UrlWord Unit := textWord S flags .query

def fragmentWord : UrlWord Unit := fun s cur => do
  let c ← cur.read 0
  if c = hash then orElse flags ([c], 1, ())
  else textWord S flags .fragment s cur

end UrlScanner

end Scanners

/-! ### Loops -/

/-- Where a loop ends: what it has written, its state, how many bytes it has taken, and whether it
has stopped in front of a character. -/
structure LoopEnd (σ : Type) where
  written : Bytes
  state : σ
  taken : ℕ
  stopped : Bool
  deriving DecidableEq, Repr

section Loops
variable {σ : Type} (stop : Byte → Bool) (word : UrlWord σ)

/-- `while (ptr < end)` -/
def whileLoop (s : σ) (cur : UrlCursor) : Except UrlExit (LoopEnd σ) :=
  if 0 < cur.left then
    (scanE stop (fun s rest after => word s (.on rest after)) cur.after s 0 cur.rest).map fun o =>
      ⟨o.written, o.state, cur.rest.length - o.rest.length + o.excess, o.rest ≠ []⟩
  else .ok ⟨[], s, 0, false⟩

/-- `do { … } while (++ptr < end)` -/
def doLoop (s : σ) (cur : UrlCursor) : Except UrlExit (LoopEnd σ) :=
  if 0 < cur.left then whileLoop stop word s cur
  else do
    let c ← cur.read 0
    if stop c then .ok ⟨[], s, 0, true⟩
    else (word s cur).map fun o => ⟨o.1, o.2.2, o.2.1, false⟩

end Loops

/-! ### The parser -/

namespace UrlScanner
variable (S : UrlSystem) (flags : UrlFlags)

/-- `parse_scheme`. Without a scheme the buffer is written from its beginning again. -/
def parseScheme (st : UrlState) (cur : UrlCursor) : Except UrlExit (UrlState × UrlCursor) :=
  match doLoop isColon (schemeWord S flags) true cur with
  | .ok ⟨scheme, _, n, true⟩ => .ok ({ st.put (scheme ++ [nul]) with scheme := some 0 },
    cur.advance (n + 1))
  | .ok _ => .ok (st, cur)
  | .error .refused => .ok (st, cur)
  | .error e => .error e

/-- `parse_userinfo` -/
def parseUserinfo (st : UrlState) (cur : UrlCursor) : Except UrlExit UrlState := do
  let user ← doLoop isColon (userinfoWord S flags) () cur
  let st := { st with user := some st.offset }.put (user.written ++ [nul])
  if user.stopped then do
    let pass ← whileLoop never (userinfoWord S flags) () (cur.advance (user.taken + 1))
    .ok ({ st with pass := some st.offset }.put (pass.written ++ [nul]))
  else .ok st

/-- `parse_idna` -/
def parseIdna (st : UrlState) (host len : ℕ) : Except UrlExit UrlState :=
  match S.idna flags with
  | none => .ok st
  | some idna =>
    match idna (st.read host) with
    | some idn =>
        .ok { st with
          buffer := overwrite st.buffer host (idn ++ [nul])
          offset := st.offset + idn.length - len }
    | none => if S.idnaIgnored && flags.ignoreErrors then .ok st else .error .refused

/-- `parse_ip6`: the address in its brackets, and how many bytes it takes. -/
def parseIp6 (cur : UrlCursor) : Except UrlExit (Option (Bytes × ℕ)) :=
  let text := cur.text.take cur.size
  let addr := text.tail.takeWhile (· ≠ 93)
  -- `memchr`
  if addr.length + 1 < text.length then
    .ok ((S.inet6 addr).map fun addr' => (91 :: addr' ++ [93], addr.length + 2))
  else if cur.text.length < cur.size then .error .overread
  else .ok none

/-- The loop of `parse_hostinfo`: what it writes, and the port. -/
def hostLoop (port : ℕ) (cur : UrlCursor) : Except UrlExit (Bytes × ℕ) :=
  if cur.left = 0 then .ok ([], port)
  else do
    let host ← doLoop isColon (hostWord S flags) false cur
    if host.stopped then do
      let port ← whileLoop never (portWord flags) port (cur.advance (host.taken + 1))
      .ok (host.written ++ port.written, port.state)
    else .ok (host.written, port)

/-- What `parse_hostinfo` does behind a literal address, or without one; `len` is the offset at its
beginning. -/
def parseHostRest (len : ℕ) (st : UrlState) (cur : UrlCursor) : Except UrlExit UrlState := do
  let (host, port) ← hostLoop S flags st.port cur
  let st := { st.put host with port := port }
  let (st, host, len) := match st.host with
    | none => ({ st with host := some len }.put [nul], len, st.offset - len)
    | some host => (st, host, len)
  if flags.toidn then parseIdna S flags st host len else .ok st

/-- `parse_hostinfo` -/
def parseHostinfo (st : UrlState) (cur : UrlCursor) : Except UrlExit UrlState := do
  let c ← cur.read 0
  if c = 91 then
    match ← parseIp6 S cur with
    | some (addr, n) =>
        parseHostRest S flags st.offset ({ st with host := some st.offset }.put (addr ++ [nul]))
          (cur.advance n)
    | none => if flags.ignoreErrors then parseHostRest S flags st.offset st cur else .error .refused
  else parseHostRest S flags st.offset st cur

/-- What belongs to a host -/
def inHost (c : Byte) : Bool := inAuthority c || (flags.ignoreErrors && c = atSign)

/-- The user info of `n` bytes, if there are any. -/
def userinfoOf (st : UrlState) (cur : UrlCursor) (n : ℕ) : Except UrlExit UrlState :=
  if n = 0 then .ok st else parseUserinfo S flags st ⟨cur.text, n⟩

/-- The host info of `n` bytes, if there are any. -/
def hostinfoOf (st : UrlState) (cur : UrlCursor) (n : ℕ) : Except UrlExit UrlState :=
  if n = 0 then .ok st else parseHostinfo S flags st ⟨cur.text, n⟩

/-- `parse_authority` behind an `@`; the end of the text is looked at like a character of it. -/
def parseHost (st : UrlState) (cur : UrlCursor) : Except UrlExit (UrlState × UrlCursor) := do
  let n := (cur.rest.takeWhile (inHost flags)).length
  let c ← (cur.advance n).read 0
  if c = atSign ∧ flags.ignoreErrors = false then .error .refused
  else do
    let st ← hostinfoOf S flags st cur n
    .ok (st, cur.advance n)

/-- `parse_authority` -/
def parseAuthority (st : UrlState) (cur : UrlCursor) : Except UrlExit (UrlState × UrlCursor) := do
  let n := (cur.rest.takeWhile inAuthority).length
  let c ← (cur.advance n).read 0
  if c = atSign then do
    let st ← userinfoOf S flags st cur n
    if 0 < (cur.advance n).left then parseHost S flags st (cur.advance (n + 1))
    -- an `@` behind the end, and the host behind it
    else do
      let st ← parseHostinfo S flags st (cur.advance (n + 1))
      .ok (st, cur.advance n)
  else do
    let st ← hostinfoOf S flags st cur n
    .ok (st, cur.advance n)

/-- `parse_path` -/
def parsePath (st : UrlState) (cur : UrlCursor) : Except UrlExit (UrlState × UrlCursor) := do
  let c ← cur.read 0
  if c = nul then .ok (st, cur)
  else do
    let path ← doLoop isPathEnd (pathWord S flags) () cur
    if path.taken = 0 then .ok (st, cur)
    else .ok ({ st with path := some st.offset }.put (path.written ++ [nul]),
      cur.advance path.taken)

/-- `parse_hier` -/
def parseHier (st : UrlState) (cur : UrlCursor) : Except UrlExit (UrlState × UrlCursor) := do
  let c ← cur.read 0
  if c = slash ∧ 1 < cur.left then do
    let d ← cur.read 1
    if d = slash then do
      let (st, cur) ← parseAuthority S flags st (cur.advance 2)
      parsePath S flags st cur
    else parsePath S flags st cur
  else parsePath S flags st cur

/-- `parse_query` -/
def parseQuery (st : UrlState) (cur : UrlCursor) : Except UrlExit (UrlState × UrlCursor) := do
  let c ← cur.read 0
  if c ≠ question then .ok (st, cur)
  else do
    let query ← whileLoop isHash (queryWord S flags) () (cur.advance 1)
    .ok ({ st with query := some st.offset }.put (query.written ++ [nul]),
      cur.advance (query.taken + 1))

/-- `parse_fragment` -/
def parseFragment (st : UrlState) (cur : UrlCursor) : Except UrlExit (UrlState × UrlCursor) := do
  let c ← cur.read 0
  if c ≠ hash then .ok (st, cur)
  else do
    let fragment ← doLoop never (fragmentWord S flags) () (cur.advance 1)
    .ok ({ st with fragment := some st.offset }.put (fragment.written ++ [nul]),
      cur.advance (fragment.taken + 1))

/-- `php_http_url_parse`: the state at the end -/
def urlState (cur : UrlCursor) : Except UrlExit (UrlState × UrlCursor) := do
  let (st, cur) ← parseScheme S flags urlStart cur
  let (st, cur) ← parseHier S flags st cur
  let (st, cur) ← parseQuery S flags st cur
  parseFragment S flags st cur

/-- `php_http_url_parse` -/
def urlParse (str after : Bytes) : Except UrlExit HttpUrl :=
  (urlState S flags (.on str after)).map fun o => o.1.url

/-- `php_http_url_parse_authority` -/
def urlParseAuthority (str after : Bytes) : Except UrlExit HttpUrl := do
  let (st, cur) ← parseAuthority S flags urlStart (.on str after)
  if cur.left ≠ 0 ∧ flags.ignoreErrors = false then .error .refused else .ok st.url

end UrlScanner

/-- No address but `::1`, an IDN library that leaves ASCII as it is, characters of one byte, and no
letters but ASCII's. -/
def plainSystem : UrlSystem where
  inet6 text := if text = ascii "::1" then some text else none
  inet6_noNul text addr h := by
    split_ifs at h with htext
    cases h
    rw [htext]
    decide
  idna _ := some fun host => if host.all fun c => c ≠ nul && c < 128 then some host else none
  idna_ascii flags f hf host idn h := by
    cases hf
    by_cases hascii : host.all (fun c => c ≠ nul && c < 128) = true
    · cases (if_pos hascii).symm.trans h
      simpa using hascii
    · cases (if_neg hascii).symm.trans h
  idnaIgnored := true
  isualnum wc := wc < 128 && isAlnum wc.toUInt8
  mbrtowc b := match b with
    | [] => .incomplete 0
    | c :: _ => .char c.toNat 0
  mbrtowc_le b wc tail h := by
    cases b with
    | nil => cases h
    | cons c b =>
      cases h
      exact Nat.succ_pos _
  iswalnum wc := wc < 128 && isAlnum wc.toUInt8

example : UrlScanner.urlParse plainSystem .std (ascii "http://u:p@h:80/a b?c#d") [nul] = .ok
    ⟨some (ascii "http"), some (ascii "u"), some (ascii "p"), some (ascii "h"), 80,
      some (ascii "/a%20b"),
      some (ascii "c"), some (ascii "d")⟩ := by decide +kernel

end ExtHttp
