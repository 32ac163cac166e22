import ExtHttp.PhpValue
import ExtHttp.PrettyKey
import ExtHttp.Utf8Encode

/-!
# Parsing parameters

`php_http_params_parse` with the functions that take keys and values from its slices. The parser
fails where the source leaves the memory of a string or follows a pointer to nothing.
-/
namespace ExtHttp

def quote : Byte := 34
def backslash : Byte := 92
def apostrophe : Byte := 39
def openBracket : Byte := 91
def closeBracket : Byte := 93

/-- `PHP_HTTP_PARAMS_ESCAPED` and the other flags. -/
structure ParamsFlags where
  escaped : Bool
  urlencoded : Bool
  dimension : Bool
  rfc5987 : Bool
  rfc5988 : Bool
  deriving DecidableEq, Repr

/-- `PHP_HTTP_PARAMS_DEFAULT` -/
def paramsDefault : ParamsFlags := ⟨true, false, false, true, false⟩

/-- `php_http_params_opts_t` without its input. -/
structure ParamsOpts where
  param : List Bytes
  arg : List Bytes
  val : List Bytes
  defval : Option Value
  flags : ParamsFlags

/-- `php_http_params_opts_default_get` -/
def paramsOptsDefault : ParamsOpts := ⟨[[comma]], [[semicolon]], [[equalSign]], none, paramsDefault⟩

/-- What the source takes from PHP: `php_stripcslashes`, `php_addcslashes` with the characters of
`quote_string`, the setting `max_input_nesting_level`, what memory has in it when it is allocated,
and whether the next index of a hash table is behind one below 0. -/
structure ParamsLib where
  stripcslashes : Bytes → Bytes
  addcslashes : Bytes → Bytes
  maxNesting : ℕ
  heap : ℕ → Byte
  nextBelow : Bool

/-- For text in which nothing is escaped. -/
def plainParamsLib : ParamsLib := ⟨id, id, 64, fun _ => 0, true⟩

inductive ParamsFault
  /-- `deq_len` wraps around -/
  | underflow
  /-- `utf8encode` writes behind its memory -/
  | overflow
  /-- a pointer is followed that is NULL or does not lead to an array -/
  | pointer
  deriving DecidableEq, Repr

theorem ok_bind {α β : Type} (x : α) (f : α → Except ParamsFault β) :
    (Except.ok x >>= f) = f x := rfl

/-! ### Functions of PHP -/

/-- The characters that `php_trim` trims by default. -/
def isTrimmed (c : Byte) : Bool := c = space || c = lf || c = cr || c = 9 || c = 11 || c = nul

/-- `php_trim` at both ends -/
def phpTrim (what : Byte → Bool) (s : Bytes) : Bytes := (s.dropWhile what).rdropWhile what

theorem phpTrim_split (what : Byte → Bool) (s : Bytes) :
    ∃ a b, s = a ++ (phpTrim what s ++ b) ∧ ∀ c ∈ a ++ b, what c = true := by
  refine ⟨s.takeWhile what, (s.dropWhile what).rtakeWhile what, ?_, fun c hc => ?_⟩
  · rw [phpTrim, List.rdropWhile_append_rtakeWhile, List.takeWhile_append_dropWhile]
  · rcases List.mem_append.mp hc with hc | hc
    · exact List.mem_takeWhile_imp hc
    · exact List.mem_rtakeWhile_imp hc

/-- Only what is to be trimmed goes. -/
theorem phpTrim_surrounded {what : Byte → Bool} {a t b : Bytes} (hab : ∀ c ∈ a ++ b, what c = true)
    (hhead : ∀ c ∈ t.head?, what c = false) (hlast : ∀ c ∈ t.getLast?, what c = false)
    (hne : t ≠ []) :
    phpTrim what (a ++ (t ++ b)) = t := by
  have ha : ∀ c ∈ a, what c = true := fun c hc => hab c (List.mem_append_left _ hc)
  have hdrop : (t ++ b).dropWhile what = t ++ b := by
    obtain ⟨c, t, rfl⟩ := List.exists_cons_of_ne_nil hne
    rw [List.cons_append, List.dropWhile_cons_of_neg (by simp [hhead c rfl])]
  rw [phpTrim, List.dropWhile_append_of_pos ha, hdrop, List.rdropWhile, List.reverse_append,
    List.dropWhile_append_of_pos fun c hc =>
      hab c (List.mem_append_right _ (List.mem_reverse.mp hc))]
  obtain ⟨u, c, rfl⟩ := (List.eq_nil_or_concat t).resolve_left hne
  rw [List.concat_eq_append] at hlast ⊢
  rw [List.getLast?_concat] at hlast
  rw [List.reverse_concat, List.dropWhile_cons_of_neg (by simp [hlast c rfl]),
    ← List.reverse_concat, List.reverse_reverse]

theorem phpTrim_plain {what : Byte → Bool} {s : Bytes} (h : ∀ c ∈ s, what c = false) :
    phpTrim what s = s := by
  by_cases hne : s = []
  · rw [hne]
    rfl
  · simpa using phpTrim_surrounded (a := []) (b := []) (by simp)
      (fun c hc => h c (List.mem_of_mem_head? hc))
      (fun c hc => h c (List.mem_of_mem_getLast? hc)) hne

/-- The hexadecimal digit, in upper case. -/
def upperHex (n : ℕ) : Byte := if n < 10 then (48 + n).toUInt8 else (55 + n).toUInt8

def isUnreserved (c : Byte) : Bool := isAlnum c || c = hyphen || c = dot || c =
    underscore || c = 126

/-- `php_raw_url_encode` -/
def rawUrlEncode (s : Bytes) : Bytes :=
  s.flatMap fun c =>
    if isUnreserved c then [c] else [percent, upperHex (c.toNat / 16), upperHex (c.toNat % 16)]

def plusToSpace (c : Byte) : Byte := if c = 43 then space else c

/-- `php_url_decode` -/
def urlDecode : Bytes → Bytes
  | [] => []
  | c :: a :: b :: s =>
      if c = percent ∧ isBaseDigit 16 a = true ∧ isBaseDigit 16 b = true then
        (digitVal a * 16 + digitVal b).toUInt8 :: urlDecode s
      else plusToSpace c :: urlDecode (a :: b :: s)
  | c :: s => plusToSpace c :: urlDecode s

theorem urlDecode_cons {c : Byte} (h : c ≠ percent) (s : Bytes) :
    urlDecode (c :: s) = plusToSpace c :: urlDecode s := by
  match s with
  | [] => rfl
  | [_] => rfl
  | _ :: _ :: _ => rw [urlDecode, if_neg fun hc => h hc.1]

/-- A percent sign does not reach over a character that is no digit. -/
theorem urlDecode_append (s : Bytes) {c : Byte} (hc : isBaseDigit 16 c = false) (t : Bytes) :
    urlDecode (s ++ c :: t) = urlDecode s ++ urlDecode (c :: t) := by
  induction hlen : s.length using Nat.strong_induction_on generalizing s with
  | _ n ih =>
    match s with
    | [] => rfl
    | [a] =>
      cases t with
      | nil => rfl
      | cons d t => simp [urlDecode, hc]
    | [a, b] =>
      have hrest := ih 1 (by simp [← hlen]) [b] rfl
      rw [List.singleton_append] at hrest
      simp [urlDecode, hc, hrest]
    | a :: b :: d :: s =>
      have hthird := ih s.length (by simp [← hlen]; omega) s rfl
      have hfront := ih (s.length + 2) (by simp [← hlen]) (b :: d :: s) rfl
      rw [List.cons_append, List.cons_append] at hfront
      simp only [List.cons_append, urlDecode, hthird, hfront]
      split_ifs <;> rfl

/-! ### Keys and values -/

section Sanitize
variable (L : ParamsLib) (flags : ParamsFlags)

/-- `sanitize_escaped` -/
def sanitizeEscaped (s : Bytes) : Except ParamsFault Bytes :=
  if s.head? = some quote ∧ s.getLast? = some quote then
    if s.length < 2 then .error .underflow else .ok (L.stripcslashes s.tail.dropLast)
  else .ok (L.stripcslashes s)

/-- `sanitize_escaped` where the flag is set -/
def unescape (s : Bytes) : Except ParamsFault Bytes :=
  if flags.escaped then sanitizeEscaped L s else .ok s

/-- The loop of `sanitize_dimension`: the keys, unless there are too many levels; `var` is what it
points to of the variable. -/
def dimensionKeys (level : ℕ) (var : Bytes) : Bytes → Option Path
  | [] => some []
  | c :: s =>
      let key := if var = [] then .long 0 else symKey var
      if c = openBracket then
        if L.maxNesting < level + 1 then none
        else if var = [] then dimensionKeys (level + 1) [] s
        else (dimensionKeys (level + 1) [] s).map (key :: ·)
      else if c = closeBracket then (dimensionKeys level [] s).map (key :: ·)
      else dimensionKeys level (var ++ [c]) s

/-- The `zval` of a key: a string, or arrays around NULL. -/
inductive ParamKey
  | str (s : Bytes)
  | dimension (key : ArrayKey) (path : Path)
  deriving DecidableEq, Repr

/-- `sanitize_dimension` -/
def sanitizeDimension (s : Bytes) : ParamKey :=
  match dimensionKeys L 0 [] s with
  | some (key :: path) => .dimension key path
  | _ => .str s

/-- `sanitize_key`, and whether the key is an extended one. -/
def sanitizeKey (str : Bytes) : Except ParamsFault (ParamKey × Bool) := do
  let s := phpTrim isTrimmed str
  let s ← unescape L flags s
  if s = [] then .ok (.str [], false)
  else
    let rfc5987 := flags.rfc5987 && s.getLast? = some asterisk
    let s := if rfc5987 then s.dropLast else s
    let s := if flags.urlencoded then urlDecode s else s
    .ok (if flags.dimension then sanitizeDimension L s else .str s, rfc5987)

/-- `sanitize_rfc5987`: the language, if there is one, whether the charset is Latin-1, and the
rest. -/
def sanitizeRfc5987 (s : Bytes) : Option Bytes × Bool × Bytes :=
  let charset :=
    if (s.take 10).map toLower = ascii "iso-8859-1" then some (true, s.drop 10)
    else if (s.take 5).map toLower = ascii "utf-8" then some (false, s.drop 5)
    else none
  match charset with
  | none => (none, false, s)
  | some (latin1, ptr) =>
      if ptr.head? = some apostrophe then
        let language := ptr.tail.takeWhile fun c => c ≠ nul && c ≠ apostrophe
        match ptr.tail.drop language.length with
        | c :: rest => if c = apostrophe then (some language, latin1, cString rest)
          else (none, latin1, s)
        | [] => (none, latin1, s)
      else (none, latin1, s)

/-- The charset of an extended value, and whether it is Latin-1. -/
inductive Charset : Bytes → Bool → Prop
  | latin1 {charset : Bytes} : charset.map toLower = ascii "iso-8859-1" → Charset charset true
  | utf8 {charset : Bytes} : charset.map toLower = ascii "utf-8" → Charset charset false

/-- A value with charset and language. -/
theorem sanitizeRfc5987_extended {charset language : Bytes} {latin1 : Bool}
    (hcharset : Charset charset latin1) (hlanguage : ∀ c ∈ language, c ≠ nul ∧ c ≠ apostrophe)
    (tail : Bytes) :
    sanitizeRfc5987 (charset ++ apostrophe :: (language ++ apostrophe :: tail)) =
      (some language, latin1, cString tail) := by
  have hptr :
      (if ((charset ++ apostrophe :: (language ++ apostrophe :: tail)).take 10).map toLower =
      ascii "iso-8859-1" then
        some (true, (charset ++ apostrophe :: (language ++ apostrophe :: tail)).drop 10)
      else if ((charset ++ apostrophe :: (language ++ apostrophe :: tail)).take 5).map toLower =
        ascii "utf-8" then
        some (false, (charset ++ apostrophe :: (language ++ apostrophe :: tail)).drop 5)
      else none) = some (latin1, apostrophe :: (language ++ apostrophe :: tail)) := by
    cases hcharset with
    | latin1 h =>
      have hlen : charset.length = 10 := by
        rw [← List.length_map (f := toLower), h]
        rfl
      rw [List.take_left' hlen, if_pos h, List.drop_left' hlen]
    | utf8 h =>
      have hlen : charset.length = 5 := by
        rw [← List.length_map (f := toLower), h]
        rfl
      have hne :
          ¬ ((charset ++ apostrophe :: (language ++ apostrophe :: tail)).take 10).map toLower =
          ascii "iso-8859-1" := by
        intro h'
        cases charset with
        | nil => cases hlen
        | cons c charset =>
          have hu := (List.cons_eq_cons.mp h).1
          have hi := (List.cons_eq_cons.mp h').1
          exact absurd (hu.symm.trans hi) (by decide)
      rw [if_neg hne, List.take_left' hlen, if_pos h, List.drop_left' hlen]
  have hstop : (language ++ apostrophe :: tail).takeWhile (fun c => c ≠ nul && c ≠ apostrophe) =
      language := by
    refine takeWhile_append_of_stop (fun c hc => ?_) fun c hc => ?_
    · simp [hlanguage c hc]
    · obtain rfl := Option.some.inj hc
      simp
  unfold sanitizeRfc5987
  rw [hptr]
  simp only [List.head?_cons, if_true, List.tail_cons, hstop, List.drop_left]

/-- A value is one with charset and language, or it stays as it is. -/
theorem sanitizeRfc5987_cases (s : Bytes) :
    (∃ charset language tail latin1, s = charset ++ apostrophe :: (language ++ apostrophe :: tail) ∧
      Charset charset latin1 ∧ ∀ c ∈ language, c ≠ nul ∧ c ≠ apostrophe) ∨
    (sanitizeRfc5987 s).1 = none ∧ (sanitizeRfc5987 s).2.2 = s := by
  unfold sanitizeRfc5987
  dsimp only
  split
  · exact .inr ⟨rfl, rfl⟩
  · next latin1 ptr hcharset =>
    split_ifs with hptr
    · split
      · next c rest hrest =>
        split_ifs with hc
        · have hlanguage : ptr = apostrophe ::
              ((ptr.tail.takeWhile fun c => c ≠ nul && c ≠ apostrophe) ++ apostrophe :: rest) := by
            have hsplit := List.prefix_append_drop
              (List.takeWhile_prefix (fun c => c ≠ nul && c ≠ apostrophe) (l := ptr.tail))
            rw [hrest, hc] at hsplit
            exact (List.eq_cons_of_mem_head? hptr).trans (congrArg _ hsplit)
          have hplain : ∀ c ∈ ptr.tail.takeWhile fun c => c ≠ nul && c ≠ apostrophe,
              c ≠ nul ∧ c ≠ apostrophe := fun c hc => by simpa using List.mem_takeWhile_imp hc
          split_ifs at hcharset with hiso hutf
          · obtain ⟨rfl, hdrop⟩ := Prod.mk.inj (Option.some.inj hcharset)
            refine .inl ⟨s.take 10, _, rest, true, ?_, .latin1 hiso, hplain⟩
            rw [← hlanguage, ← hdrop, List.take_append_drop]
          · obtain ⟨rfl, hdrop⟩ := Prod.mk.inj (Option.some.inj hcharset)
            refine .inl ⟨s.take 5, _, rest, false, ?_, .utf8 hutf, hplain⟩
            rw [← hlanguage, ← hdrop, List.take_append_drop]
        · exact .inr ⟨rfl, rfl⟩
      · exact .inr ⟨rfl, rfl⟩
    · exact .inr ⟨rfl, rfl⟩

/-- `sanitize_rfc5988` -/
def sanitizeRfc5988 (str : Bytes) : Bytes := phpTrim (fun c => c = space || c = 62 || c = 60) str

/-- What `sanitize_value` gives to `sanitize_escaped`. -/
def valueText (str : Bytes) (rfc5987 : Bool) : Option Bytes × Bool × Bytes :=
  if rfc5987 then sanitizeRfc5987 (phpTrim isTrimmed str) else (none, false, phpTrim isTrimmed str)

/-- `sanitize_value` -/
def sanitizeValue (str : Bytes) (rfc5987 : Bool) : Except ParamsFault Value := do
  let (language, latin1, s) := valueText str rfc5987
  let s ← unescape L flags s
  let s := if flags.urlencoded || language.isSome then urlDecode s else s
  match language with
  | none => .ok (.str s)
  | some language =>
      let s ← if latin1 then (utf8encode L.heap s).elim (.error .overflow) .ok else .ok s
      .ok (.array [(symKey language, .str s)])

end Sanitize

/-! ### The array of parameters -/

/-- The array with the pointers `current.val` and `current.args` into it, and whether a value is to
be an extended one. -/
structure ParamsState where
  params : Entries
  val : Option Path
  args : Option Path
  rfc5987 : Bool

def valueKey : ArrayKey := .str (ascii "value")
def argumentsKey : ArrayKey := .str (ascii "arguments")
def rfc5987Key : ArrayKey := .str (ascii "*rfc5987*")

/-- `hkey.h` is not zero, or there is a string. -/
def ArrayKey.nonzero : ArrayKey → Bool
  | .long n => n ≠ 0
  | .str _ => true

/-- The loop of `merge_param` below a value: what becomes of it, and where the pointer is then. -/
def mergeValue (L : ParamsLib) (ptr : Value) : Path → Option (Value × Path)
  | [] => some (ptr, [])
  | key :: path =>
      let insert (ht : Entries) : Option (Value × Path) :=
        if key.nonzero then some (.array (Entries.update ht key (nested path)), [key])
        else (Entries.nextInsert L.nextBelow ht (nested path)).map fun o => (.array o.1, [o.2])
      match ptr with
      | .array ht =>
          if path = [] then insert ht
          else match Entries.find ht key with
            | some v => (mergeValue L v path).map fun o =>
                (.array (Entries.update ht key o.1), key :: o.2)
            | none => insert ht
      | _ => insert []

/-- `merge_param`; the arguments stay where they are if the parameter is there already. -/
def mergeParam (L : ParamsLib) (st : ParamsState) (key : ArrayKey) (path : Path) :
    Except ParamsFault ParamsState :=
  match Entries.find st.params key with
  | none =>
      .ok { st with
        params := Entries.update st.params key
          (.array [(valueKey, nested path), (argumentsKey, .array [])])
        val := some (key :: valueKey :: path)
        args := some [key, argumentsKey] }
  | some (.array ht) =>
      match (Entries.find ht valueKey).bind fun v => mergeValue L v path with
      | none => .error .pointer
      | some (v, ptr) =>
          -- bubble up
          .ok { st with
            params := Entries.update st.params key (.array (Entries.update ht valueKey v))
            val := some (key :: valueKey :: ptr ++ ((v.get ptr).elim [] Value.firstPath)) }
  | some _ => .ok { st with val := some [key] }

/-- The array at a pointer. -/
def ParamsState.table (st : ParamsState) (ptr : Option Path) :
    Except ParamsFault (Path × Entries) :=
  match ptr with
  | none => .error .pointer
  | some path =>
      match (Value.array st.params).get path with
      | some (.array ht) => .ok (path, ht)
      | _ => .error .pointer

/-- Write where a pointer points to. -/
def ParamsState.write (st : ParamsState) (path : Path) (v : Value) : ParamsState :=
  match (Value.array st.params).set path v with
  | .array params => { st with params := params }
  | _ => st

/-- `push_param` for an argument with a key -/
def pushArg (st : ParamsState) (key : Bytes) (rfc5987 : Bool) : Except ParamsFault ParamsState := do
  let (args, ht) ← st.table st.args
  if rfc5987 then
    let rfc ← match Entries.find ht rfc5987Key with
      | some (.array rfc) => .ok rfc
      | some _ => .error .pointer
      | none => .ok []
    let rfc := Entries.update rfc (symKey key) (.bool true)
    .ok { st.write args (.array (Entries.update ht rfc5987Key (.array rfc))) with
      val := some (args ++ [rfc5987Key, symKey key]) }
  else
    .ok { st.write args (.array (Entries.update ht (symKey key) (.bool true))) with
      val := some (args ++ [symKey key]) }

/-- `push_param` for a parameter with a key -/
def pushKey (opts : ParamsOpts) (st : ParamsState) (key : Bytes) (rfc5987 : Bool) : ParamsState :=
  let which := if rfc5987 && opts.flags.rfc5987 then rfc5987Key else valueKey
  { st with
    params := Entries.update st.params (symKey key)
      (.array [(which, opts.defval.getD (.bool true)), (argumentsKey, .array [])])
    val := some [symKey key, which]
    args := some [symKey key, argumentsKey] }

/-- Which of `param.str`, `arg.str` and `val.str` have been set. -/
inductive ParamsPhase
  | start
  | param
  | arg
  | val (ofArg : Bool)
  deriving DecidableEq, Repr

/-- `push_param` with the slice of what is being read -/
def pushParam (L : ParamsLib) (opts : ParamsOpts) (phase : ParamsPhase) (slice : Bytes)
    (st : ParamsState) : Except ParamsFault ParamsState :=
  match phase with
  | .start => .ok st
  | .val _ =>
      match st.val with
      | none => .ok st
      | some ptr => do
          let v ← if slice ≠ [] then sanitizeValue L opts.flags slice st.rfc5987 else .ok (.str [])
          .ok { st.write ptr v with rfc5987 := false }
  | .arg =>
      if slice = [] then .ok st
      else do
        let (key, rfc5987) ← sanitizeKey L opts.flags slice
        let st := { st with rfc5987 := rfc5987 }
        match key with
        | .str key => if key = [] then .ok st else pushArg st key rfc5987
        | .dimension _ _ => .ok st
  | .param =>
      if slice = [] then .ok st
      else if opts.flags.rfc5988 then
        let key := sanitizeRfc5988 slice
        .ok (if key = [] then st else pushKey opts st key false)
      else do
        let (key, rfc5987) ← sanitizeKey L opts.flags slice
        let st := { st with rfc5987 := rfc5987 }
        match key with
        | .str key => .ok (if key = [] then st else pushKey opts st key rfc5987)
        | .dimension key path => mergeParam L st key path

/-! ### The loop -/

/-- `check_sep`; a list of separators ends where there is none more. -/
def checkSep (quotes escape : Bool) (seps : List Bytes) (input : Bytes) : ℕ :=
  if quotes || escape then 0
  else ((seps.find? fun sep => sep ≠ [] ∧ sep <+: input).map List.length).getD 0

theorem checkSep_le (quotes escape : Bool) (seps : List Bytes) (input : Bytes) :
    checkSep quotes escape seps input ≤ input.length := by
  unfold checkSep
  split_ifs
  · exact Nat.zero_le _
  · cases h : seps.find? fun sep => sep ≠ [] ∧ sep <+: input with
    | none => exact Nat.zero_le _
    | some sep =>
      have hsep := List.find?_some h
      simp only [ne_eq, decide_eq_true_eq] at hsep
      exact hsep.2.length_le

/-- The loop of `skip_sep`: the separators of the first list come first. -/
def skipSep (quotes escape : Bool) (seps : List Bytes) (input : Bytes) : Bytes :=
  if checkSep quotes escape seps input = 0 then input
  else skipSep quotes escape seps (input.drop (checkSep quotes escape seps input))
termination_by input.length
decreasing_by
  have := checkSep_le quotes escape seps input
  rw [List.length_drop]
  omega

theorem skipSep_length_le (quotes escape : Bool) (seps : List Bytes) (input : Bytes) :
    (skipSep quotes escape seps input).length ≤ input.length := by
  fun_induction skipSep quotes escape seps input with
  | case1 => exact le_rfl
  | case2 input h ih =>
    rw [List.length_drop] at ih
    omega

theorem skipSep_length_lt (quotes escape : Bool) (seps : List Bytes) {n : ℕ} (hn : 0 < n) {c : Byte}
    {rest : Bytes} :
    (skipSep quotes escape seps ((c :: rest).drop n)).length < (c :: rest).length := by
  have hle := skipSep_length_le quotes escape seps ((c :: rest).drop n)
  rw [List.length_drop, List.length_cons] at hle
  rw [List.length_cons]
  omega

theorem skipSep_drop_lt (quotes escape : Bool) (seps : List Bytes) {c : Byte} {rest : Bytes} :
    ((skipSep quotes escape seps (c :: rest)).drop 1).length < (c :: rest).length := by
  have hle := skipSep_length_le quotes escape seps (c :: rest)
  rw [List.length_cons] at hle
  rw [List.length_drop, List.length_cons]
  omega

/-- The top of the loop of `php_http_params_parse`: `quotes` and `escape`. -/
def trackQuotes (flags : ParamsFlags) (phase : ParamsPhase) (quotes escape : Bool) (c : Byte) :
    Bool × Bool :=
  if flags.rfc5988 = true ∧ phase ≠ .arg ∧ phase ≠ .val true then
    (if c = 60 then true else if c = 62 then false else quotes, escape)
  else if c = quote ∧ escape = false then (!quotes, escape)
  else (quotes, c = backslash)

/-- Where the loop of `php_http_params_parse` is. `slice` is what there is between the beginning of
what is being read and the input. -/
structure ParamsScan where
  phase : ParamsPhase
  quotes : Bool
  escape : Bool
  slice : Bytes
  input : Bytes
  deriving DecidableEq, Repr

/-- A turn of the loop of `php_http_params_parse` at a character: whether the slice is pushed, and
where it goes on. -/
def paramsTurn (opts : ParamsOpts) (x : ParamsScan) (c : Byte) (rest : Bytes) : Bool × ParamsScan :=
  let track := trackQuotes opts.flags x.phase x.quotes x.escape c
  let sepLen (seps : List Bytes) := checkSep track.1 track.2 seps (c :: rest)
  if x.phase = .start then
    -- initialize
    let input := skipSep track.1 track.2 (opts.param ++ opts.arg ++ opts.val) (c :: rest)
    (false, ⟨.param, track.1, track.2, input.take 1, input.drop 1⟩)
  else if 0 < sepLen opts.param then
    (true, ⟨.param, track.1, track.2, [], skipSep track.1 track.2
      (opts.param ++ opts.arg ++ opts.val)
      ((c :: rest).drop (sepLen opts.param))⟩)
  else if 0 < sepLen opts.arg then
    (true, ⟨.arg, track.1, track.2, [], skipSep track.1 track.2 (opts.arg ++ opts.val)
      ((c :: rest).drop (sepLen opts.arg))⟩)
  else if 0 < sepLen opts.val ∧ x.phase ≠ .val false ∧ x.phase ≠ .val true then
    (true, ⟨.val (x.phase = .arg), track.1, track.2, [], skipSep track.1 track.2 opts.val
      ((c :: rest).drop (sepLen opts.val))⟩)
  else (false, ⟨x.phase, track.1, track.2, x.slice ++ [c], rest⟩)

theorem paramsTurn_lt (opts : ParamsOpts) (x : ParamsScan) (c : Byte) (rest : Bytes) :
    (paramsTurn opts x c rest).2.input.length < (c :: rest).length := by
  unfold paramsTurn
  dsimp only
  split_ifs with hstart hparam harg hval
  · exact skipSep_drop_lt _ _ _
  · exact skipSep_length_lt _ _ _ hparam
  · exact skipSep_length_lt _ _ _ harg
  · exact skipSep_length_lt _ _ _ hval.1
  · exact Nat.lt_succ_self _

/-- The loop of `php_http_params_parse`, and the last slice -/
def paramsLoop (L : ParamsLib) (opts : ParamsOpts) (x : ParamsScan) (st : ParamsState) :
    Except ParamsFault ParamsState :=
  match _h : x.input with
  | [] => pushParam L opts x.phase x.slice st
  | c :: rest =>
      let turn := paramsTurn opts x c rest
      if turn.1 then (pushParam L opts x.phase x.slice st).bind (paramsLoop L opts turn.2)
      else paramsLoop L opts turn.2 st
termination_by x.input.length
decreasing_by all_goals exact _h ▸ paramsTurn_lt opts x c rest

/-- The beginning of an input. -/
def ParamsScan.init (input : Bytes) : ParamsScan := ⟨.start, false, false, [], input⟩

/-- `php_http_params_parse` -/
def paramsParse (L : ParamsLib) (opts : ParamsOpts) (params : Entries) (input : Bytes) :
    Except ParamsFault Entries :=
  (paramsLoop L opts (.init input) ⟨params, none, none, false⟩).map ParamsState.params

/-! ### The slices -/

/-- The slices that are pushed. -/
def paramsSlices (opts : ParamsOpts) (x : ParamsScan) : List (ParamsPhase × Bytes) :=
  match _h : x.input with
  | [] => [(x.phase, x.slice)]
  | c :: rest =>
      let turn := paramsTurn opts x c rest
      if turn.1 then (x.phase, x.slice) :: paramsSlices opts turn.2 else paramsSlices opts turn.2
termination_by x.input.length
decreasing_by all_goals exact _h ▸ paramsTurn_lt opts x c rest

section Loop
variable {L : ParamsLib} {opts : ParamsOpts} {x : ParamsScan}

theorem paramsLoop_end (h : x.input = []) (st : ParamsState) :
    paramsLoop L opts x st = pushParam L opts x.phase x.slice st := by
  unfold paramsLoop
  split
  · rfl
  · simp_all

theorem paramsLoop_turn {c : Byte} {rest : Bytes} (h : x.input = c :: rest) (st : ParamsState) :
    paramsLoop L opts x st = if (paramsTurn opts x c rest).1 then
      (pushParam L opts x.phase x.slice st).bind (paramsLoop L opts (paramsTurn opts x c rest).2)
    else paramsLoop L opts (paramsTurn opts x c rest).2 st := by
  rw [paramsLoop]
  split <;> simp_all

theorem paramsSlices_end (h : x.input = []) : paramsSlices opts x = [(x.phase, x.slice)] := by
  unfold paramsSlices
  split
  · rfl
  · simp_all

theorem paramsSlices_turn {c : Byte} {rest : Bytes} (h : x.input = c :: rest) :
    paramsSlices opts x = if (paramsTurn opts x c rest).1 then
      (x.phase, x.slice) :: paramsSlices opts (paramsTurn opts x c rest).2
    else paramsSlices opts (paramsTurn opts x c rest).2 := by
  rw [paramsSlices]
  split <;> simp_all

/-- What is pushed has no influence on where the slices are. -/
theorem paramsLoop_eq (L : ParamsLib) (opts : ParamsOpts) (x : ParamsScan) (st : ParamsState) :
    paramsLoop L opts x st =
      (paramsSlices opts x).foldlM (fun st slice => pushParam L opts slice.1 slice.2 st) st := by
  induction hlen : x.input.length using Nat.strong_induction_on generalizing x st with
  | _ n ih =>
    cases hinput : x.input with
    | nil =>
      rw [paramsLoop_end hinput, paramsSlices_end hinput, List.foldlM_cons]
      simp
    | cons c rest =>
      have hlt := paramsTurn_lt opts x c rest
      rw [← hinput, hlen] at hlt
      have hnext := fun st => ih _ hlt (paramsTurn opts x c rest).2 st rfl
      rw [paramsLoop_turn hinput, paramsSlices_turn hinput]
      split_ifs
      · rw [List.foldlM_cons]
        exact congrArg _ (funext hnext)
      · exact hnext st

end Loop

end ExtHttp
