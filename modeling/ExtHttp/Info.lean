import ExtHttp.Bytes

/-! Start lines: `php_http_version_parse` and `php_http_info_parse`. The memory they look at is a
list of bytes that begins where their argument points. -/
namespace ExtHttp

structure Version where
  major : ℕ
  minor : ℕ
  deriving DecidableEq, Repr

/-- The value of a decimal digit, `none` for other bytes: the test `0 <= c - '0' <= 9`. -/
def decimal (c : Byte) : Option ℕ := if isDigit c then some (c.toNat - 48) else none

/-- The `switch` that skips `HTTP/` in any case. -/
def skipHttp (str : Bytes) : Option Bytes :=
  if toLower (byteAt str 0) = 104 then
    if toLower (byteAt str 1) = 116 ∧ toLower (byteAt str 2) = 116 ∧ toLower (byteAt str 3) = 112 ∧
        byteAt str 4 = 47 then
      some (str.drop 5)
    else none
  else some str

/-- `php_http_version_parse`. Any separator but a space is taken, some with a notice. -/
def versionParse (str : Bytes) : Option Version := do
  let ptr ← skipHttp str
  let major ← decimal (byteAt ptr 0)
  if byteAt ptr 1 = space then
    if 1 < major then some ⟨major, 0⟩ else none
  else
    let minor ← decimal (byteAt ptr 2)
    some ⟨major, minor⟩

/-- The URL parsers that a request line's target is handed to, as functions of the target: behind it
there always stands a space. -/
structure UrlParsers (Url : Type) where
  parse : Bytes → Option Url
  parseAuthority : Bytes → Option Url

/-- `php_http_info_t`, of which the unused half of the union is left out. -/
inductive Info (Url : Type)
  | request (version : Version) (method : Bytes) (url : Url)
  | response (version : Version) (code : ℕ) (status : Option Bytes)
  deriving DecidableEq, Repr

/-- Offset of the first occurrence, as `php_http_locate_str` finds it. -/
def locateStr (needle : Bytes) : Bytes → Option ℕ
  | [] => if needle = [] then some 0 else none
  | c :: hay => if needle <+: c :: hay then some 0 else (locateStr needle hay).map (· + 1)

theorem locateStr_eq_none {needle hay : Bytes} :
    locateStr needle hay = none ↔ ¬ needle <:+: hay := by
  induction hay with
  | nil => simp [locateStr]
  | cons c hay ih =>
    rw [locateStr, List.infix_cons_iff]
    split_ifs with h <;> simp [h, ih]

/-- The line in front of the first NUL, CR or LF. -/
def firstLine (mem : Bytes) : Bytes := mem.takeWhile fun c => c ≠ nul && !isEol c

def httpSlash : Bytes := [72, 84, 84, 80, 47]

/-- What follows the version of a status line: code and status. The code is computed with signed
characters; it is 0 if nothing follows. -/
def responseParse (version : Version) (mem : Bytes) (stop off : ℕ) {Url : Type} :
    Option (Info Url) :=
  let code := off + (((firstLine mem).drop off).takeWhile (· = space)).length
  if code < stop then
    let num := 100 * (charVal (byteAt mem code) - 48) +
      10 * (charVal (byteAt mem (code + 1)) - 48) +
      (charVal (byteAt mem (code + 2)) - 48)
    if 100 ≤ num ∧ num ≤ 599 then
      some (.response version num.toNat
        (if code + 3 < stop then some (((firstLine mem).drop (code + 3)).dropWhile (· = space))
          else none))
    else none
  else some (.response version 0 none)

def connect : Bytes := [67, 79, 78, 78, 69, 67, 84]

/-- What precedes `HTTP/` in a request line: method, spaces, target, spaces. -/
def requestParse {Url : Type} (P : UrlParsers Url) (version : Version) (line : Bytes) :
    Option (Info Url) :=
  let method := line.takeWhile (· ≠ space)
  let target := ((line.dropWhile (· ≠ space)).dropWhile (· = space)).rdropWhile (· = space)
  if target = [] then none
  -- `CONNECT` presents an authority only
  else if method.map toUpper = connect then
    (P.parseAuthority target).map (.request version method)
  else (P.parse target).map (.request version method)

/-- `php_http_info_parse` -/
def infoParse {Url : Type} (P : UrlParsers Url) (mem : Bytes) : Option (Info Url) := do
  let line := firstLine mem
  let http ← locateStr httpSlash line
  let version ← versionParse (mem.drop http)
  let off := http + 6
  let off := if version.major < 2 ∨ (version.major = 2 ∧ byteAt mem off = 46) then off + 2 else off
  -- nothing but a space or NUL after the version
  if byteAt mem off ≠ nul ∧ isSpace (byteAt mem off) = false then none
  else if http = 0 then responseParse version mem line.length off
  else if byteAt mem (http - 1) = space ∧ (byteAt mem off = nul ∨ isEol (byteAt mem off)) then
    requestParse P version (line.take http)
  else none

/-- Only a line with `HTTP/` in it can be a start line. -/
theorem infoParse_of_not_infix {Url : Type} (P : UrlParsers Url) {mem : Bytes}
    (h : ¬ httpSlash <:+: firstLine mem) : infoParse P mem = none := by
  simp [infoParse, locateStr_eq_none.mpr h]

/-- URL parsers that take every target as it is. -/
def rawUrls : UrlParsers Bytes := ⟨some, some⟩

example : infoParse rawUrls (ascii "GET  /x HTTP/1.1\r\nHost: y\r\n") =
    some (.request ⟨1, 1⟩ (ascii "GET") (ascii "/x")) := by decide +kernel

example : infoParse rawUrls (ascii "HTTP/2 404  Not Found\r\n") =
    some (.response ⟨2, 0⟩ 404 (some (ascii "Not Found"))) := by decide +kernel

-- a status line that is cut inside its code
example : infoParse rawUrls (ascii "HTTP/1.1 20") = some (.response ⟨1, 1⟩ 152 none) := by
  decide +kernel

end ExtHttp
