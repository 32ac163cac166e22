import ExtHttp.Negotiate
import ExtHttp.Params

/-!
# Cookies

`php_http_cookie_list_parse`, which sorts the parameters of a cookie string into cookies, extras and
the attributes. An argument is an extra if an allowed name begins with its name.
-/
namespace ExtHttp

/-- `php_http_cookie_list_t` -/
structure CookieList where
  cookies : Entries
  extras : Entries
  secure : Bool
  httpOnly : Bool
  path : Option Bytes
  domain : Option Bytes
  expires : ℤ
  maxAge : ℤ

/-- `php_http_cookie_list_init` -/
def cookieListInit : CookieList := ⟨[], [], false, false, none, none, -1, -1⟩

/-- What the source takes from PHP: `php_parse_date` and `zval_get_long`. -/
structure CookieLib where
  parseDate : Bytes → ℤ
  toLong : Value → ℤ

/-- `php_raw_url_decode` -/
def rawUrlDecode : Bytes → Bytes
  | [] => []
  | c :: a :: b :: s =>
      if c = percent ∧ isBaseDigit 16 a = true ∧ isBaseDigit 16 b = true then
        (digitVal a * 16 + digitVal b).toUInt8 :: rawUrlDecode s
      else c :: rawUrlDecode (a :: b :: s)
  | c :: s => c :: rawUrlDecode s

/-- `_KEY_IS` -/
def keyIs (key : ArrayKey) (s : Bytes) : Bool :=
  match key with
  | .str k => k.length = s.length && strncaseEq k s k.length
  | .long _ => false

/-- The loop over `allowed_extras` finds one. -/
def isExtra (allowed : Option (List CString)) (name : Bytes) : Bool :=
  (allowed.getD []).any fun ae => strncaseEq ae.bytes name name.length

section
variable (L : CookieLib) (raw : Bool) (allowed : Option (List CString))

/-- The text of a value, decoded unless `PHP_HTTP_COOKIE_PARSE_RAW` is set. -/
def entryText (val : Value) : Bytes := if raw then val.toStr else rawUrlDecode val.toStr

/-- `add_entry` -/
def addEntry (list : CookieList) (key : ArrayKey) (val : Value) : CookieList :=
  let arg := entryText raw val
  if keyIs key (ascii "path") then { list with path := some (cString arg) }
  else if keyIs key (ascii "domain") then { list with domain := some (cString arg) }
  else if keyIs key (ascii "expires") then { list with expires := L.parseDate (cString arg) }
  else if keyIs key (ascii "max-age") then { list with maxAge := L.toLong val }
  else if keyIs key (ascii "secure") then { list with secure := true }
  else if keyIs key (ascii "httpOnly") then { list with httpOnly := true }
  else if isExtra allowed key.stringify then
    { list with extras := Entries.update list.extras (symKey key.stringify) (.str arg) }
  else { list with cookies := Entries.update list.cookies (symKey key.stringify) (.str arg) }

/-- The turn of the outer loop of `php_http_cookie_list_parse`: the value of a parameter, and then
its arguments. -/
def addParam (list : CookieList) (param : ArrayKey × Value) : CookieList :=
  match param.2 with
  | .array ht =>
      let list := (Entries.find ht valueKey).elim list (addEntry L raw none list param.1)
      match Entries.find ht argumentsKey with
      | some (.array args) => args.foldl (fun list arg =>
          addEntry L raw allowed list arg.1 arg.2) list
      | _ => list
  | _ => list

/-- `php_http_cookie_list_parse` behind the parser of parameters. -/
def cookieListOf (params : Entries) : CookieList :=
  params.foldl (addParam L raw allowed) cookieListInit

/-- `php_http_cookie_list_parse`; there is no separator of parameters. -/
def cookieListParse (P : ParamsLib) (str : Bytes) : Except ParamsFault CookieList :=
  (paramsParse P { paramsOptsDefault with param := [] } [] str).map (cookieListOf L raw allowed)

end

/-! ### The entries -/

/-- A call of `add_entry`, for an argument or for the value of a parameter. -/
structure CookieEntry where
  argument : Bool
  key : ArrayKey
  val : Value

def paramEntries (param : ArrayKey × Value) : List CookieEntry :=
  match param.2 with
  | .array ht =>
      (Entries.find ht valueKey).elim [] (fun val => [⟨false, param.1, val⟩]) ++
        match Entries.find ht argumentsKey with
        | some (.array args) => args.map fun arg => ⟨true, arg.1, arg.2⟩
        | _ => []
  | _ => []

/-- The attributes of a cookie list. -/
def cookieAttributes : List Bytes :=
  [ascii "path", ascii "domain", ascii "expires", ascii "max-age", ascii "secure", ascii "httpOnly"]

namespace CookieEntry

def name (e : CookieEntry) : Bytes := e.key.stringify

def standard (e : CookieEntry) : Bool := cookieAttributes.any (keyIs e.key)

end CookieEntry

/-- Entries go to a table one after the other. -/
def storeAll (raw : Bool) (ht : Entries) (entries : List CookieEntry) : Entries :=
  entries.foldl (fun ht e => Entries.update ht (symKey e.name) (.str (entryText raw e.val))) ht

instance (a b : Bytes) : Decidable (EqNoCase a b) :=
  inferInstanceAs (Decidable (a.map toLower = b.map toLower))

/-- An element of the list is equal to the name but for the case of its letters. -/
def Named (allowed : List CString) (name : Bytes) : Prop := ∃ ae ∈ allowed, EqNoCase ae.bytes name

instance (allowed : List CString) (name : Bytes) : Decidable (Named allowed name) := by
  unfold Named
  infer_instance

/-- How a name that is not allowed comes to the extras. -/
inductive FalseExtra (allowed : List CString) (name : Bytes) : Prop
  /-- an allowed name is longer, and begins with it -/
  | begins {ae : CString} (hmem : ae ∈ allowed) (hlength : name.length < ae.bytes.length)
      (heq : EqNoCase (ae.bytes.take name.length) name)
  /-- an allowed name is what stands before a NUL in it -/
  | behindNul {ae : CString} (hmem : ae ∈ allowed) (hnul : nul ∈ name)
    (heq : EqNoCase ae.bytes (cString name))

section
variable {L : CookieLib} {raw : Bool} {allowed : Option (List CString)}

theorem cString_cstring (ae : CString) (n : ℕ) : cString (ae.bytes.take n) = ae.bytes.take n :=
  cString_of_noNul fun h => ae.noNul (List.mem_of_mem_take h)

theorem strncaseEq_iff (ae : CString) (name : Bytes) : strncaseEq ae.bytes name name.length = true ↔
    EqNoCase (ae.bytes.take name.length) (cString name) := by
  rw [strncaseEq, List.take_length, strcaseEq, cString_cstring, decide_eq_true_eq, EqNoCase]

theorem cString_length_lt {name : Bytes} (h : nul ∈ name) :
    (cString name).length < name.length := by
  have hsub : (cString name).Sublist name := List.takeWhile_sublist _
  refine lt_of_le_of_ne hsub.length_le fun heq => ?_
  rw [← hsub.eq_of_length heq] at h
  have hne := List.mem_takeWhile_imp h
  simp at hne

/-- The bounded comparison finds what is allowed, and two kinds of names that are not. -/
theorem isExtra_iff (allowed : List CString) (name : Bytes) :
    isExtra (some allowed) name = true ↔ Named allowed name ∨ FalseExtra allowed name := by
  rw [isExtra, Option.getD_some, List.any_eq_true]
  constructor
  · rintro ⟨ae, hmem, heq⟩
    rw [strncaseEq_iff] at heq
    have hlength := heq.length
    rw [List.length_take] at hlength
    by_cases hnul : nul ∈ name
    · have hless := cString_length_lt hnul
      rw [List.take_of_length_le (by omega)] at heq
      exact .inr (.behindNul hmem hnul heq)
    · rw [cString_of_noNul hnul] at heq hlength
      by_cases hlonger : name.length < ae.bytes.length
      · exact .inr (.begins hmem hlonger heq)
      · rw [List.take_of_length_le (by omega)] at heq
        exact .inl ⟨ae, hmem, heq⟩
  · rintro (⟨ae, hmem, heq⟩ | ⟨hmem, -, heq⟩ | ⟨hmem, hnul, heq⟩)
    · refine ⟨ae, hmem, ?_⟩
      rw [strncaseEq, ← heq.length, List.take_length, heq.length, List.take_length]
      exact heq.strcaseEq
    · refine ⟨_, hmem, ?_⟩
      rw [strncaseEq, List.take_length]
      exact heq.strcaseEq
    · refine ⟨_, hmem, ?_⟩
      have hless := cString_length_lt hnul
      rw [strncaseEq_iff, List.take_of_length_le (by rw [heq.length]; omega)]
      exact heq

/-! ### The tables -/

/-- What `add_entry` does to the tables. -/
theorem addEntry_tables (list : CookieList) (key : ArrayKey) (val : Value) :
    let standard := cookieAttributes.any (keyIs key)
    let stored := fun ht => Entries.update ht (symKey key.stringify) (.str (entryText raw val))
    (addEntry L raw allowed list key val).extras =
        (if !standard && isExtra allowed key.stringify then stored list.extras else list.extras) ∧
      (addEntry L raw allowed list key val).cookies =
        (if !standard && !isExtra allowed key.stringify then stored list.cookies
          else list.cookies) := by
  simp only [cookieAttributes, List.any_cons, List.any_nil, Bool.or_false]
  unfold addEntry
  dsimp only
  split_ifs <;> simp_all

/-- What is done with an entry. -/
def CookieEntry.add (L : CookieLib) (raw : Bool) (allowed : Option (List CString))
    (list : CookieList) (e : CookieEntry) : CookieList :=
  addEntry L raw (if e.argument then allowed else none) list e.key e.val

theorem addParam_eq (list : CookieList) (param : ArrayKey × Value) :
    addParam L raw allowed list param =
      (paramEntries param).foldl (CookieEntry.add L raw allowed) list := by
  unfold addParam paramEntries
  cases param.2 with
  | array ht =>
    dsimp only
    rw [List.foldl_append]
    have hfront : (Entries.find ht valueKey).elim list (addEntry L raw none list param.1) =
        ((Entries.find ht valueKey).elim [] fun val => [⟨false, param.1, val⟩]).foldl
          (CookieEntry.add L raw allowed) list := by
      cases Entries.find ht valueKey <;> rfl
    rw [hfront]
    cases Entries.find ht argumentsKey with
    | none => rfl
    | some arg =>
      cases arg with
      | array args =>
        dsimp only
        rw [List.foldl_map]
        rfl
      | _ => rfl
  | _ => rfl

theorem cookieListOf_eq (params : Entries) : cookieListOf L raw allowed params =
    (params.flatMap paramEntries).foldl (CookieEntry.add L raw allowed) cookieListInit := by
  unfold cookieListOf
  generalize cookieListInit = list
  induction params generalizing list with
  | nil => rfl
  | cons param params ih =>
    rw [List.foldl_cons, ih, addParam_eq, List.flatMap_cons, List.foldl_append]

/-- An argument that is no attribute, and that `test` takes for an extra. -/
def CookieEntry.goesTo (test : Bytes → Bool) (e : CookieEntry) : Bool := e.argument && test e.name

theorem isExtra_argument (e : CookieEntry) :
    isExtra (if e.argument then allowed else none) e.key.stringify =
      e.goesTo (isExtra allowed) := by
  unfold CookieEntry.goesTo CookieEntry.name
  cases e.argument with
  | true => rfl
  | false => rfl

theorem foldl_add_extras (list : CookieList) (entries : List CookieEntry) :
    (entries.foldl (CookieEntry.add L raw allowed) list).extras = storeAll raw list.extras
      (entries.filter fun e => !e.standard && e.goesTo (isExtra allowed)) := by
  induction entries generalizing list with
  | nil => rfl
  | cons e entries ih =>
    have hadd := (@addEntry_tables L raw (if e.argument then allowed else none) list e.key e.val).1
    rw [isExtra_argument] at hadd
    rw [List.foldl_cons, ih, CookieEntry.add, hadd, List.filter_cons, CookieEntry.standard]
    split_ifs with hextra
    · rfl
    · rfl

theorem foldl_add_cookies (list : CookieList) (entries : List CookieEntry) :
    (entries.foldl (CookieEntry.add L raw allowed) list).cookies = storeAll raw list.cookies
      (entries.filter fun e => !e.standard && !e.goesTo (isExtra allowed)) := by
  induction entries generalizing list with
  | nil => rfl
  | cons e entries ih =>
    have hadd := (@addEntry_tables L raw (if e.argument then allowed else none) list e.key e.val).2
    rw [isExtra_argument] at hadd
    rw [List.foldl_cons, ih, CookieEntry.add, hadd, List.filter_cons, CookieEntry.standard]
    split_ifs with hextra
    · rfl
    · rfl

theorem mem_update {ht : Entries} {key k : ArrayKey} {v : Value} :
    k ∈ (Entries.update ht key v).map Prod.fst ↔ k ∈ ht.map Prod.fst ∨ k = key := Assoc.mem_keys_set

/-- A table has the names of the entries that went to it. -/
theorem mem_storeAll {ht : Entries} {entries : List CookieEntry} {k : ArrayKey} :
    k ∈ (storeAll raw ht entries).map Prod.fst ↔
      k ∈ ht.map Prod.fst ∨ ∃ e ∈ entries, symKey e.name = k := by
  induction entries generalizing ht with
  | nil => simp [storeAll]
  | cons e entries ih =>
    rw [storeAll, List.foldl_cons, ← storeAll, ih, mem_update, or_assoc, eq_comm (a := k)]
    simp only [List.mem_cons, exists_eq_or_imp]

end

end ExtHttp
