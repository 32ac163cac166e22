import ExtHttp.Params

/-!
# Writing parameters

`php_http_params_to_string`, and what it writes as a list of texts with the separators in front of
them.
-/
namespace ExtHttp

/-- The separators that `php_http_params_to_string` gets, and its flags. -/
structure ParamsFormat where
  pss : Bytes
  ass : Bytes
  vss : Bytes
  flags : ParamsFlags

/-- What the source uses for headers. -/
def paramsFormatDefault : ParamsFormat := ⟨[comma], [semicolon], [equalSign], paramsDefault⟩

section Write
variable (L : ParamsLib) (fmt : ParamsFormat)

/-! ### Keys and values -/

/-- `quote_string` -/
def quoteString (zs : Bytes) (force : Bool) : Bytes :=
  let escaped := L.addcslashes zs
  if force || escaped.length ≠ zs.length ||
      (cString escaped).any (· ∈ ascii "()<>@,;:\"[]?=\x7b\x7d ") then
    quote :: (escaped ++ [quote])
  else escaped

/-- `prepare_key` -/
def prepareKey (flags : ParamsFlags) (key : Bytes) : Bytes :=
  let key := if flags.urlencoded then rawUrlEncode key else key
  if flags.escaped && !flags.rfc5988 then quoteString L key false else key

/-- `prepare_value` -/
def prepareValue (flags : ParamsFlags) (s : Bytes) : Bytes :=
  let s := if flags.urlencoded then rawUrlEncode s else s
  if flags.escaped then quoteString L s false else s

/-- `shift_key` -/
def shiftKey (buf key sep : Bytes) : Bytes :=
  (if buf = [] then buf else buf ++ sep) ++ prepareKey L fmt.flags key

/-- `shift_rfc5987` with the first element of an array -/
def shiftRfc5987 (buf : Bytes) : Value → Bytes
  | .array ((key, v) :: _) =>
      buf ++ (asterisk :: (cString fmt.vss ++ ascii "utf-8'" ++ cString key.stringify ++
        [apostrophe])) ++
        prepareValue L { fmt.flags with urlencoded := true } v.toStr
  | _ => buf

/-- `shift_rfc5988` -/
def shiftRfc5988 (buf key sep : Bytes) : Bytes :=
  (if buf = [] then buf else buf ++ sep) ++ ascii "<" ++ prepareKey L fmt.flags key ++ ascii ">"

/-- `shift_rfc5988_val` -/
def shiftRfc5988Val (buf : Bytes) (v : Value) : Bytes :=
  buf ++ fmt.vss ++ quoteString L v.toStr true

/-- `shift_val` -/
def shiftVal (buf : Bytes) : Value → Bytes
  | .bool true => buf
  | .bool false => buf ++ fmt.vss ++ ascii "0"
  | v => buf ++ fmt.vss ++ prepareValue L fmt.flags v.toStr

/-- Some arguments must be quoted. -/
def isQuotedArg (key : Bytes) : Bool :=
  key.length ∈ [3, 5, 6] && (cString key).map toLower ∈ [ascii "rel", ascii "title", ascii "anchor"]

/-- `shift_arg` for what is no array -/
def shiftScalar (buf key : Bytes) (v : Value) : Bytes :=
  let buf := shiftKey L fmt buf key fmt.ass
  if fmt.flags.rfc5988 && isQuotedArg key then shiftRfc5988Val L fmt buf v else shiftVal L fmt buf v

/-! ### Arrays -/

mutual

/-- `shift_arg` -/
def shiftArg (buf key : Bytes) : Value → Bytes
  | .array ht =>
      let rfc5987 := decide (cString key = ascii "*rfc5987*")
      shiftArgs rfc5987 (if rfc5987 then buf else shiftKey L fmt buf key fmt.ass) ht
  | .null => shiftScalar L fmt buf key .null
  | .bool b => shiftScalar L fmt buf key (.bool b)
  | .long n => shiftScalar L fmt buf key (.long n)
  | .str s => shiftScalar L fmt buf key (.str s)

/-- The loop of `shift_arg` -/
def shiftArgs (rfc5987 : Bool) (buf : Bytes) : List (ArrayKey × Value) → Bytes
  | [] => buf
  | (key, v) :: ht =>
      let buf :=
        if rfc5987 && v.isArray then
          shiftRfc5987 L fmt (shiftKey L fmt buf key.stringify fmt.ass) v
        else shiftArg buf key.stringify v
      shiftArgs rfc5987 buf ht

end

/-- What stands in the brackets for a key; only public properties are written. -/
def dimensionName : ArrayKey → Option Bytes
  | .long n => some (formatLong (n % 2 ^ 64))
  | .str s => if s.head?.getD nul = nul then none else some s

/-- A string in `prepare_dimension` -/
def shiftString (buf key s : Bytes) : Bytes :=
  shiftVal L fmt (shiftKey L fmt buf key fmt.pss) (.str s)

mutual

/-- A turn of the loop of `prepare_dimension`, with what is in front of the brackets and in them -/
def prepareElement (buf key : Bytes) : Value → Bytes
  | .array ht => prepareDimension buf key ht
  | .null => shiftString L fmt buf key []
  | .bool b => shiftString L fmt buf key (Value.bool b).toStr
  | .long n => shiftString L fmt buf key (Value.long n).toStr
  | .str s => shiftString L fmt buf key s

/-- `prepare_dimension` -/
def prepareDimension (buf keybuf : Bytes) : List (ArrayKey × Value) → Bytes
  | [] => buf
  | (key, v) :: ht =>
      let buf := match dimensionName key with
        | none => buf
        | some name => prepareElement buf (keybuf ++ openBracket :: (name ++ [closeBracket])) v
      prepareDimension buf keybuf ht

end

/-! ### Parameters -/

/-- `shift_param` -/
def shiftParam (buf key : Bytes) (v : Value) (rfc5987 : Bool) : Bytes :=
  match v with
  | .array ht =>
      -- treat as arguments, unless we care for dimensions or rfc5987
      if fmt.flags.dimension then prepareDimension L fmt buf key ht
      else if rfc5987 then shiftRfc5987 L fmt (shiftKey L fmt buf key fmt.pss) v
      else shiftArg L fmt buf key v
  | v =>
      let buf := if fmt.flags.rfc5988 then shiftRfc5988 L fmt buf key fmt.pss
        else shiftKey L fmt buf key fmt.pss
      shiftVal L fmt buf v

/-- The value of a parameter, and whether it is an extended one. -/
def paramValue (zparam : Value) : Value × Bool :=
  match zparam with
  | .array ht =>
      match Entries.find ht valueKey, Entries.find ht rfc5987Key with
      | some v, _ => (v, false)
      | none, some v => (v, true)
      | none, none => (zparam, false)
  | v => (v, false)

/-- The arguments of a parameter: the ones it has, or else what it has besides a value. -/
def paramArgs (zparam : Value) : Entries :=
  match zparam with
  | .array ht =>
      match Entries.find ht argumentsKey with
      | some (.array args) => args
      | some _ => []
      | none =>
          if Entries.find ht valueKey = none ∧ Entries.find ht rfc5987Key = none then []
          else ht.filter fun e => e.1 ≠ valueKey
  | _ => []

/-- A turn of the loop of `php_http_params_to_string` with the buffer and `rfc5987`, which stays
set. -/
def shiftEntry (x : Bytes × Bool) (e : ArrayKey × Value) : Bytes × Bool :=
  let rfc5987 := x.2 || (paramValue e.2).2
  let buf := shiftParam L fmt x.1 e.1.stringify (paramValue e.2).1 rfc5987
  ((paramArgs e.2).foldl (fun buf arg => shiftArg L fmt buf arg.1.stringify arg.2) buf, rfc5987)

/-- `php_http_params_to_string` -/
def paramsToString (buf : Bytes) (params : Entries) : Bytes :=
  (params.foldl (shiftEntry L fmt) (buf, false)).1

end Write

end ExtHttp
