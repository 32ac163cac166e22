import ExtHttp.ArrayKey
import ExtHttp.Cookie

/-! Writing cookies: `php_http_cookie_list_to_string`. -/
namespace ExtHttp

/-- `append_encoded` -/
def appendEncoded (buf key val : Bytes) : Bytes :=
  buf ++ rawUrlEncode key ++ [equalSign] ++ rawUrlEncode val ++ [semicolon, space]

/-- The loop over the cookies or the extras. -/
def appendEntries (buf : Bytes) (entries : Entries) : Bytes :=
  entries.foldl (fun buf e => appendEncoded buf e.1.stringify e.2.toStr) buf

/-- An attribute with its text. -/
def appendAttribute (buf name text : Bytes) : Bytes :=
  buf ++ name ++ [equalSign] ++ text ++ [semicolon, space]

/-- `php_http_cookie_list_to_string`, where `php_format_date` is a parameter. -/
def cookieListToString (formatDate : ℤ → CString) (list : CookieList) : Bytes :=
  let buf := appendEntries [] list.cookies
  let domain := cString (list.domain.getD [])
  let buf := if domain ≠ [] then appendAttribute buf (ascii "domain") domain else buf
  let path := cString (list.path.getD [])
  let buf := if path ≠ [] then appendAttribute buf (ascii "path") path else buf
  let buf := if 0 ≤ list.expires then appendAttribute buf (ascii "expires")
    (formatDate list.expires).bytes else buf
  let buf := if 0 ≤ list.maxAge then appendAttribute buf (ascii "max-age")
    (formatLong list.maxAge) else buf
  let buf := appendEntries buf list.extras
  let buf := if list.secure then buf ++ ascii "secure; " else buf
  if list.httpOnly then buf ++ ascii "httpOnly; " else buf

end ExtHttp
