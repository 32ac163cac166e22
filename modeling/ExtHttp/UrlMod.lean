import ExtHttp.PathSanitize
import ExtHttp.Url

/-!
# Combining URLs

`php_http_url_mod`. The strings of the new URL stand one behind the other in a buffer that may be
somewhere else after each append, and the pointers to them are moved with it.
-/
namespace ExtHttp

/-- The strings of a URL. -/
inductive UrlField
  | scheme
  | user
  | pass
  | host
  | path
  | query
  | fragment
  deriving DecidableEq, Repr

def HttpUrl.field (url : HttpUrl) : UrlField → Option Bytes
  | .scheme => url.scheme
  | .user => url.user
  | .pass => url.pass
  | .host => url.host
  | .path => url.path
  | .query => url.query
  | .fragment => url.fragment

/-- The string of a URL, if there is a URL and `url_isset(u, n)`. -/
def urlString (url : Option HttpUrl) (n : UrlField) : Option Bytes :=
  (url.bind (·.field n)).map cString

/-! ### The buffer -/

/-- The strings behind the URL in its buffer. `moves` says where they begin after each append. -/
structure UrlBuffer where
  moves : ℕ → ℤ
  appends : ℕ
  data : Bytes
  ptr : UrlField → Option ℤ

namespace UrlBuffer

def base (buf : UrlBuffer) : ℤ := buf.moves buf.appends

def init (moves : ℕ → ℤ) : UrlBuffer := ⟨moves, 0, [], fun _ => none⟩

/-- `url_append`: all pointers that are set are moved by as much as the buffer is. -/
def append (buf : UrlBuffer) (w : Bytes) : UrlBuffer where
  moves := buf.moves
  appends := buf.appends + 1
  data := buf.data ++ w
  ptr n := (buf.ptr n).map fun p => p + (buf.moves (buf.appends + 1) - buf.base)

/-- `url(buf)->n = &buf.data[buf.used]` -/
def point (buf : UrlBuffer) (n : UrlField) : UrlBuffer :=
  { buf with ptr := Function.update buf.ptr n (some (buf.base + buf.data.length)) }

/-- A string that is appended in pieces. -/
def store (buf : UrlBuffer) (n : UrlField) (pieces : List Bytes) : UrlBuffer :=
  pieces.foldl append (buf.point n)

/-- `url_copy` -/
def copy (buf : UrlBuffer) (old new : Option HttpUrl) (n : UrlField) : UrlBuffer :=
  match urlString new n with
  | some v => buf.store n [v ++ [nul]]
  | none =>
      match urlString old n with
      | some v => buf.store n [v ++ [nul]]
      | none => buf

/-- What a pointer to a string reads. -/
def string (buf : UrlBuffer) (n : UrlField) : Option Bytes :=
  (buf.ptr n).map fun p => cString (buf.data.drop (p - buf.base).toNat)

/-- The pointers point to these strings, and the others are not set. -/
def Holds (buf : UrlBuffer) (strings : UrlField → Option Bytes) : Prop :=
  ∀ n, (buf.ptr n = none ∧ strings n = none) ∨
    ∃ (v : Bytes) (off : ℕ), strings n = some v ∧ buf.ptr n = some (buf.base + off) ∧ nul ∉ v ∧
      v ++ [nul] <+: buf.data.drop off

theorem init_holds (moves : ℕ → ℤ) : (init moves).Holds fun _ => none := fun _ => Or.inl ⟨rfl, rfl⟩

theorem Holds.string {buf : UrlBuffer} {strings : UrlField → Option Bytes} (h : buf.Holds strings)
    (n : UrlField) :
    buf.string n = strings n := by
  rcases h n with ⟨hptr, hnone⟩ | ⟨v, off, hv, hptr, hnul, tail, htail⟩
  · rw [UrlBuffer.string, hptr, hnone]
    rfl
  · rw [UrlBuffer.string, hptr, hv, Option.map_some, add_sub_cancel_left,
      Int.toNat_natCast, ← htail, List.append_assoc, List.singleton_append, cString_append_nul hnul]

theorem foldl_append (pieces : List Bytes) (buf : UrlBuffer) :
    (pieces.foldl append buf).data = buf.data ++ pieces.flatten ∧
      ∀ n, (pieces.foldl append buf).ptr n =
        (buf.ptr n).map fun p => p + ((pieces.foldl append buf).base - buf.base) := by
  induction pieces generalizing buf with
  | nil => simp
  | cons w pieces ih =>
    obtain ⟨hdata, hptr⟩ := ih (buf.append w)
    rw [List.foldl_cons]
    refine ⟨by rw [hdata, append, List.flatten_cons, List.append_assoc], fun n => ?_⟩
    have hmoved : (buf.append w).ptr n = (buf.ptr n).map fun p =>
        p + ((buf.append w).base - buf.base) := rfl
    rw [hptr n, hmoved, Option.map_map]
    congr 1
    funext p
    simp only [Function.comp]
    ring

/-- A string is stored, and the others stay what they are wherever the buffer goes. -/
theorem Holds.store {buf : UrlBuffer} {strings : UrlField → Option Bytes} (h : buf.Holds strings)
    (n : UrlField) {v : Bytes} (hnul : nul ∉ v) {pieces : List Bytes}
    (hpieces : pieces.flatten = v ++ [nul]) :
    (buf.store n pieces).Holds (Function.update strings n (some v)) := by
  obtain ⟨hdata, hptr⟩ := foldl_append pieces (buf.point n)
  rw [hpieces] at hdata
  intro m
  by_cases hm : m = n
  · subst hm
    right
    refine ⟨v, buf.data.length, Function.update_self .., ?_, hnul, ?_⟩
    · rw [UrlBuffer.store, hptr]
      have hpoint : (buf.point m).ptr m = some (buf.base + buf.data.length) :=
        Function.update_self ..
      have hbase : (buf.point m).base = buf.base := rfl
      rw [hpoint, hbase, Option.map_some]
      congr 1
      ring
    · rw [UrlBuffer.store, hdata]
      have hsame : (buf.point m).data = buf.data := rfl
      rw [hsame, List.drop_left]
  · have hother : (buf.point n).ptr m = buf.ptr m := Function.update_of_ne hm ..
    rw [Function.update_of_ne hm]
    rcases h m with ⟨hnone, hstring⟩ | ⟨w, off, hstring, hsome, hw, hin⟩
    · left
      rw [UrlBuffer.store, hptr, hother, hnone]
      exact ⟨rfl, hstring⟩
    · right
      refine ⟨w, off, hstring, ?_, hw, ?_⟩
      · have hbase : (buf.point n).base = buf.base := rfl
        rw [UrlBuffer.store, hptr, hother, hsome, hbase, Option.map_some]
        congr 1
        ring
      · rw [UrlBuffer.store, hdata]
        obtain ⟨tail, htail⟩ := hin
        have hsame : (buf.point n).data = buf.data := rfl
        have hoff : off ≤ buf.data.length := by
          by_contra hgt
          rw [List.drop_eq_nil_of_le (by omega)] at htail
          simp at htail
        rw [hsame, List.drop_append_of_le_length hoff, ← htail]
        exact ⟨tail ++ (v ++ [nul]), by simp⟩

end UrlBuffer

/-! ### Flags and paths -/

/-- The flags of `php_http_url_mod`: `JOIN_PATH`, `JOIN_QUERY`, the `STRIP` flags, `FROM_ENV` and
`SANITIZE_PATH` -/
def joinPathFlag : UInt32 := 0x001
def joinQueryFlag : UInt32 := 0x002
def stripUserFlag : UInt32 := 0x004
def stripPassFlag : UInt32 := 0x008
def stripPortFlag : UInt32 := 0x020
def stripPathFlag : UInt32 := 0x040
def stripQueryFlag : UInt32 := 0x080
def stripFragmentFlag : UInt32 := 0x100
def fromEnvFlag : UInt32 := 0x1000
def sanitizePathFlag : UInt32 := 0x2000

def hasFlag (flags flag : UInt32) : Bool := flags &&& flag ≠ 0

/-- `php_dirname` -/
def phpDirname (path : Bytes) : Bytes :=
  let front := path.rdropWhile (· = slash)
  let dir := front.rdropWhile (· ≠ slash)
  let parent := dir.rdropWhile (· = slash)
  if path = [] then []
  else if front = [] then [slash]
  else if dir = [] then [dot]
  else if parent = [] then [slash]
  else parent

/-- The path that is joined. `before` is the byte in front of it, which is looked at if the old path
is empty. -/
def joinPath (before : Byte) (old new : Bytes) : Bytes :=
  (if old.getLast?.getD before ≠ slash then phpDirname old ++ [slash] else old) ++ new

/-- It is appended behind a slash if it has none. -/
def joinPieces (path : Bytes) : List Bytes :=
  (if path.head? ≠ some slash then [[slash]] else []) ++ [path ++ [nul]]

/-- `JOIN_PATH` has two paths to join. -/
def joinedPaths (old new : Option HttpUrl) (flags : UInt32) : Option (Bytes × Bytes) :=
  match hasFlag flags joinPathFlag, urlString old .path, urlString new .path with
  | true, some o, some n => if n.head? ≠ some slash then some (o, n) else none
  | _, _, _ => none

/-! ### Combining -/

/-- What the code takes from elsewhere: the queries joined by `php_http_querystring_update`, the URL
of the environment, the byte in front of a path, and where the buffer goes. -/
structure UrlModSystem where
  joinQuery : Bytes → Bytes → CString
  env : HttpUrl
  before : Byte
  moves : ℕ → ℤ

/-- The port of the two URLs. -/
def combinePort (old new : Option HttpUrl) (flags : UInt32) : ℕ :=
  if hasFlag flags stripPortFlag then 0
  else
    let port := (new.map HttpUrl.port).getD 0
    if port ≠ 0 then port else (old.map HttpUrl.port).getD 0

/-- It is not kept if it is the default one. -/
def unsetDefaultPort (scheme : Option Bytes) (port : ℕ) : ℕ :=
  if (port = 80 ∧ scheme = some (ascii "http")) ∨
    (port = 443 ∧ scheme = some (ascii "https")) then 0 else port

/-- The part of `php_http_url_mod` that fills the buffer. -/
def fillUrl (S : UrlModSystem) (old new : Option HttpUrl) (flags : UInt32) : UrlBuffer :=
  let buf := (UrlBuffer.init S.moves).copy old new .scheme
  let buf := if hasFlag flags stripUserFlag then buf else buf.copy old new .user
  let buf := if hasFlag flags stripPassFlag then buf else buf.copy old new .pass
  let buf := buf.copy old new .host
  let buf := if hasFlag flags stripPathFlag then buf
    else match joinedPaths old new flags with
      | some (o, n) => buf.store .path (joinPieces (joinPath S.before o n))
      | none => buf.copy old new .path
  let buf := if hasFlag flags stripQueryFlag then buf
    else match hasFlag flags joinQueryFlag, urlString old .query, urlString new .query with
      | true, some o, some n => buf.store .query [(S.joinQuery o n).bytes ++ [nul]]
      | _, _, _ => buf.copy old new .query
  if hasFlag flags stripFragmentFlag then buf else buf.copy old new .fragment

/-- `php_http_url_mod` on an old URL that has been completed. -/
def combineUrl (S : UrlModSystem) (old new : Option HttpUrl) (flags : UInt32) : HttpUrl :=
  let buf := fillUrl S old new flags
  let path := buf.string .path
  { scheme := buf.string .scheme
    user := buf.string .user
    pass := buf.string .pass
    host := buf.string .host
    port := unsetDefaultPort (buf.string .scheme) (combinePort old new flags)
    path := if hasFlag flags sanitizePathFlag then path.map sanitizePath else path
    query := buf.string .query
    fragment := buf.string .fragment }

/-- `php_http_url_mod` -/
def urlMod (S : UrlModSystem) (old new : Option HttpUrl) (flags : UInt32) : HttpUrl :=
  if hasFlag flags fromEnvFlag then
    combineUrl S (some (combineUrl S (some S.env) old (flags ^^^ fromEnvFlag))) new flags
  else combineUrl S old new flags

/-! ### What a combination is -/

/-- The flag that strips a string. -/
def stripFlag : UrlField → UInt32
  | .user => stripUserFlag
  | .pass => stripPassFlag
  | .path => stripPathFlag
  | .query => stripQueryFlag
  | .fragment => stripFragmentFlag
  | _ => 0

/-- The old path up to its last slash, or just a slash. -/
def pathFront (old : Bytes) : Bytes :=
  if slash ∈ old then old.rdropWhile (· ≠ slash) else [slash]

/-- A path that begins with a slash. -/
def rooted (path : Bytes) : Bytes := if path.head? ≠ some slash then slash :: path else path

/-- The old path up to its last slash and the new one, behind a slash if there is none. -/
def joined (old new : Bytes) : Bytes := rooted (pathFront old ++ new)

/-- What the combination of two URLs should be. -/
def Combined (old new : Option HttpUrl) (flags : UInt32) (url : HttpUrl) : Prop :=
  (∀ n, url.field n =
    if hasFlag flags (stripFlag n) then none
    else match n, joinedPaths old new flags with
      | .path, some (o, p) => some (joined o p)
      | _, _ => (urlString new n).or (urlString old n)) ∧
  url.port = unsetDefaultPort url.scheme (combinePort old new flags)

/-- The old path is empty or ends in a slash, or one slash with something in front of it, or two
slashes that begin the path, stand before its last segment. -/
def JoinsRight (old : Bytes) : Prop :=
  old = [] ∨ old.getLast? = some slash ∨ old.rdropWhile (· ≠ slash) = [slash, slash] ∨
    ∃ front c, old.rdropWhile (· ≠ slash) = front ++ [c, slash] ∧ c ≠ slash

/-! ### Joined paths -/

theorem rooted_length (path : Bytes) :
    (rooted path).length = path.length + if path.head? ≠ some slash then 1 else 0 := by
  unfold rooted
  split_ifs <;> simp

theorem joinPieces_flatten (path : Bytes) : (joinPieces path).flatten = rooted path ++ [nul] := by
  unfold joinPieces rooted
  split_ifs <;> simp

theorem rdropWhile_slash {w : Bytes} (h : slash ∈ w) :
    ∃ front, w.rdropWhile (fun c => decide (c ≠ slash)) = front ++ [slash] := by
  have hne : w.rdropWhile (fun c => decide (c ≠ slash)) ≠ [] := by
    rw [ne_eq, List.rdropWhile_eq_nil_iff]
    intro hall
    simpa using hall slash h
  have hlast := List.rdropWhile_last_not _ _ hne
  refine ⟨(w.rdropWhile fun c => decide (c ≠ slash)).dropLast, ?_⟩
  have hslash : (w.rdropWhile fun c => decide (c ≠ slash)).getLast hne =
      slash := by simpa using hlast
  conv_lhs => rw [← List.dropLast_append_getLast hne, hslash]

/-- The path up to the last slash that is not its last byte. -/
theorem rdropWhile_concat_slash {w : Bytes} {c : Byte} (hc : c ≠ slash) :
    (w ++ [c]).rdropWhile (fun c => decide (c ≠ slash)) = w.rdropWhile fun c =>
      decide (c ≠ slash) :=
  List.rdropWhile_concat_pos _ _ _ (by simpa using hc)

/-- `php_dirname` of a path that does not end in a slash. -/
theorem phpDirname_concat {w : Bytes} {c : Byte} (hc : c ≠ slash) :
    phpDirname (w ++ [c]) =
      if (w.rdropWhile fun c => decide (c ≠ slash)) = [] then [dot]
      else if ((w.rdropWhile fun c => decide (c ≠ slash)).rdropWhile fun c => decide (c = slash)) =
        [] then [slash]
      else (w.rdropWhile fun c => decide (c ≠ slash)).rdropWhile fun c => decide (c = slash) := by
  have hfront : (w ++ [c]).rdropWhile (fun c => decide (c = slash)) = w ++ [c] :=
    List.rdropWhile_concat_neg _ _ _ (by simpa using hc)
  have hne : w ++ [c] ≠ [] := by simp
  simp only [phpDirname, hfront, if_neg hne, rdropWhile_concat_slash hc]

theorem joinPath_concat (before : Byte) {w : Bytes} {c : Byte} (hc : c ≠ slash) (new : Bytes) :
    joinPath before (w ++ [c]) new = phpDirname (w ++ [c]) ++ [slash] ++ new := by
  rw [joinPath, List.getLast?_concat, Option.getD_some, if_pos hc]

theorem joinsRight_concat {w : Bytes} {c : Byte} (hc : c ≠ slash) :
    JoinsRight (w ++ [c]) ↔ w.rdropWhile (fun c => decide (c ≠ slash)) = [slash, slash] ∨
      ∃ front d, w.rdropWhile (fun c => decide (c ≠ slash)) = front ++ [d, slash] ∧ d ≠ slash := by
  rw [JoinsRight, List.getLast?_concat, rdropWhile_concat_slash hc]
  simp [hc]

theorem pathFront_concat {w : Bytes} {c : Byte} (hc : c ≠ slash) :
    pathFront (w ++ [c]) = if slash ∈ w then w.rdropWhile (fun c => decide (c ≠ slash))
      else [slash] := by
  have hmem : slash ∈ w ++ [c] ↔ slash ∈ w := by simp [Ne.symm hc]
  rw [pathFront, rdropWhile_concat_slash hc]
  simp only [hmem]

/-- Of a run of slashes in front of the last segment one is left. -/
theorem rooted_slashes_iff (front new : Bytes) :
    rooted ((if (front.rdropWhile fun c => decide (c = slash)) = [] then [slash]
        else front.rdropWhile fun c => decide (c = slash)) ++ [slash] ++ new) =
      rooted (front ++ [slash] ++ [slash] ++ new) ↔ front = [] := by
  constructor
  · intro h
    by_contra hfront
    have hpos := List.length_pos_iff.mpr hfront
    have hlen := congrArg List.length h
    rw [rooted_length, rooted_length] at hlen
    obtain ⟨tail, htail⟩ := List.rdropWhile_prefix (fun c => decide (c = slash)) front
    generalize (front.rdropWhile fun c => decide (c = slash)) = parent at hlen htail
    cases parent with
    | nil =>
      simp only [if_true, List.length_append, List.length_singleton] at hlen
      simp at hlen
      omega
    | cons c parent =>
      rw [← htail] at hlen
      simp only [reduceCtorEq, if_false, List.cons_append, List.length_cons, List.length_append,
        List.head?_cons, List.length_nil] at hlen
      by_cases hc : c = slash
      · simp only [hc, ne_eq, not_true_eq_false, if_false] at hlen
        omega
      · simp only [Option.some.injEq, ne_eq, hc, not_false_eq_true, if_true] at hlen
        omega
  · rintro rfl
    rfl

/-- The cases of `php_dirname`, by what stands in front of the last segment. -/
theorem joinPath_concat_iff (before : Byte) {w : Bytes} {c : Byte} (hc : c ≠ slash) (new : Bytes) :
    rooted (joinPath before (w ++ [c]) new) = joined (w ++ [c]) new ↔ JoinsRight (w ++ [c]) := by
  have hdot : dot ≠ slash := by decide
  rw [joinPath_concat before hc, phpDirname_concat hc, joined, pathFront_concat hc,
    joinsRight_concat hc]
  by_cases hw : slash ∈ w
  · obtain ⟨front, hfront⟩ := rdropWhile_slash hw
    rw [if_pos hw, hfront]
    have hparent : (front ++ [slash]).rdropWhile (fun c => decide (c = slash)) =
        front.rdropWhile fun c => decide (c = slash) := List.rdropWhile_concat_pos _ _ _ (by simp)
    rw [if_neg (by simp), hparent]
    rcases front.eq_nil_or_concat with rfl | ⟨front, d, rfl⟩
    -- a slash at the beginning, and no other before the last segment
    · refine iff_of_false (fun h => ?_) ?_
      · have hlen := congrArg List.length h
        rw [rooted_length, rooted_length] at hlen
        simp at hlen
      · rintro (h | ⟨front, d, h, -⟩)
        · simp at h
        · have hlen := congrArg List.length h
          simp at hlen
    · rw [List.concat_eq_append]
      by_cases hd : d = slash
      · subst hd
        have hmore : (front ++ [slash]).rdropWhile (fun c => decide (c = slash)) =
            front.rdropWhile fun c => decide (c = slash) :=
              List.rdropWhile_concat_pos _ _ _ (by simp)
        have hright : (front ++ [slash] ++ [slash] = [slash, slash] ∨
            ∃ front' d, front ++ [slash] ++ [slash] = front' ++ [d, slash] ∧ d ≠ slash) ↔
              front = [] := by
          constructor
          · rintro (h | ⟨front', d, h, hd⟩)
            · simpa using h
            · rw [List.append_assoc, List.singleton_append] at h
              have hlast := (List.append_inj' h rfl).2
              simp only [List.cons.injEq, and_true] at hlast
              exact absurd hlast.symm hd
          · rintro rfl
            exact Or.inl rfl
        rw [hmore, hright]
        exact rooted_slashes_iff front new
      · have hstay : (front ++ [d]).rdropWhile (fun c => decide (c = slash)) = front ++ [d] :=
          List.rdropWhile_concat_neg _ _ _ (by simpa using hd)
        rw [hstay, if_neg (by simp)]
        exact iff_of_true rfl (Or.inr ⟨front, d, by simp, hd⟩)
  -- no slash before the last segment
  · have hnone : w.rdropWhile (fun c => decide (c ≠ slash)) = [] := by
      rw [List.rdropWhile_eq_nil_iff]
      intro x hx
      simp only [decide_eq_true_eq]
      rintro rfl
      exact hw hx
    rw [if_neg hw, hnone, if_pos rfl]
    refine iff_of_false (fun h => ?_) (by simp)
    have hlen := congrArg List.length h
    rw [rooted_length, rooted_length] at hlen
    simp [hdot] at hlen
    omega

theorem joinPath_iff (before : Byte) (old : Bytes) {new : Bytes} (hnew : new.head? ≠ some slash) :
    rooted (joinPath before old new) = joined old new ↔ JoinsRight old := by
  rcases old.eq_nil_or_concat with rfl | ⟨w, c, rfl⟩
  · refine iff_of_true ?_ (Or.inl rfl)
    by_cases hbefore : before = slash
    · simp [joinPath, joined, pathFront, rooted, hbefore, hnew]
    · simp [joinPath, joined, pathFront, rooted, hbefore, phpDirname]
  · rw [List.concat_eq_append]
    by_cases hc : c = slash
    · subst hc
      have hfront : pathFront (w ++ [slash]) = w ++ [slash] := by
        rw [pathFront, if_pos (by simp), List.rdropWhile_concat_neg _ _ _ (by simp)]
      refine iff_of_true ?_ (Or.inr (Or.inl (List.getLast?_concat ..)))
      rw [joinPath, joined, hfront, List.getLast?_concat, Option.getD_some, if_neg (by simp)]
    · exact joinPath_concat_iff before hc new

/-! ### The strings of the new URL -/

theorem nul_notMem_cString (s : Bytes) : nul ∉ cString s := by
  intro h
  simpa using List.mem_takeWhile_imp h

theorem urlString_noNul {url : Option HttpUrl} {n : UrlField} {v : Bytes}
    (h : urlString url n = some v) :
    nul ∉ v := by
  obtain ⟨w, -, rfl⟩ := Option.map_eq_some_iff.mp h
  exact nul_notMem_cString w

theorem phpDirname_noNul {path : Bytes} (h : nul ∉ path) : nul ∉ phpDirname path := by
  have hdrop : ∀ (p : Byte → Bool) (w : Bytes), nul ∉ w → nul ∉ w.rdropWhile p :=
    fun p w hw hmem => hw ((List.rdropWhile_prefix p w).subset hmem)
  unfold phpDirname
  simp only
  split_ifs
  · simp
  · decide
  · decide
  · decide
  · exact hdrop _ _ (hdrop _ _ (hdrop _ _ h))

theorem joinPath_noNul {old new : Bytes} (hold : nul ∉ old) (hnew : nul ∉ new) (before : Byte) :
    nul ∉ rooted (joinPath before old new) := by
  have hjoin : nul ∉ joinPath before old new := by
    unfold joinPath
    split_ifs
    · simp only [List.mem_append, List.mem_singleton, not_or]
      exact ⟨⟨phpDirname_noNul hold, by decide⟩, hnew⟩
    · rw [List.mem_append, not_or]
      exact ⟨hold, hnew⟩
  unfold rooted
  split_ifs
  · rw [List.mem_cons, not_or]
    exact ⟨by decide, hjoin⟩
  · exact hjoin

/-- What `url_copy` copies. -/
def copied (old new : Option HttpUrl) (n : UrlField) : Option Bytes :=
  (urlString new n).or (urlString old n)

theorem UrlBuffer.Holds.copy {buf : UrlBuffer} {strings : UrlField → Option Bytes}
    (h : buf.Holds strings) (old new : Option HttpUrl) {n : UrlField} (hn : strings n = none) :
    (buf.copy old new n).Holds (Function.update strings n (copied old new n)) := by
  unfold UrlBuffer.copy copied
  cases hnew : urlString new n with
  | some v => exact h.store n (urlString_noNul hnew) (by simp)
  | none =>
    cases hold : urlString old n with
    | some v => exact h.store n (urlString_noNul hold) (by simp)
    | none =>
      rw [show (none : Option Bytes).or none = strings n by rw [hn]; rfl, Function.update_eq_self]
      exact h

/-- A string that is stripped is not there. -/
theorem UrlBuffer.Holds.unless {buf buf' : UrlBuffer} {strings : UrlField → Option Bytes}
    (h : buf.Holds strings) {n : UrlField} (hn : strings n = none) {value : Option Bytes}
    (h' : buf'.Holds (Function.update strings n value)) (strip : Bool) :
    (if strip then buf else buf').Holds
      (Function.update strings n (if strip then none else value)) := by
  cases strip with
  | false => exact h'
  | true =>
    simp only [if_true]
    rw [← hn, Function.update_eq_self]
    exact h

/-- The path before it is sanitized. -/
def filledPath (S : UrlModSystem) (old new : Option HttpUrl) (flags : UInt32) : Option Bytes :=
  match joinedPaths old new flags with
  | some (o, p) => some (rooted (joinPath S.before o p))
  | none => copied old new .path

def filledQuery (S : UrlModSystem) (old new : Option HttpUrl) (flags : UInt32) : Option Bytes :=
  match hasFlag flags joinQueryFlag, urlString old .query, urlString new .query with
  | true, some o, some n => some (S.joinQuery o n).bytes
  | _, _, _ => copied old new .query

theorem joinedPaths_noNul {old new : Option HttpUrl} {flags : UInt32} {o p : Bytes}
    (h : joinedPaths old new flags = some (o, p)) : nul ∉ o ∧ nul ∉ p ∧ p.head? ≠ some slash := by
  unfold joinedPaths at h
  split at h
  next hold hnew =>
    split_ifs at h with hhead
    cases h
    exact ⟨urlString_noNul hold, urlString_noNul hnew, hhead⟩
  next => cases h

theorem UrlBuffer.Holds.path {buf : UrlBuffer} {strings : UrlField → Option Bytes}
    (h : buf.Holds strings) (S : UrlModSystem) (old new : Option HttpUrl) (flags : UInt32)
    (hn : strings .path = none) :
    (match joinedPaths old new flags with
      | some (o, n) => buf.store .path (joinPieces (joinPath S.before o n))
      | none => buf.copy old new .path).Holds (Function.update strings .path
        (filledPath S old new flags)) := by
  unfold filledPath
  cases hjoined : joinedPaths old new flags with
  | none => exact h.copy old new hn
  | some paths =>
    obtain ⟨ho, hp, -⟩ := joinedPaths_noNul hjoined
    exact h.store .path (joinPath_noNul ho hp S.before) (joinPieces_flatten _)

theorem UrlBuffer.Holds.query {buf : UrlBuffer} {strings : UrlField → Option Bytes}
    (h : buf.Holds strings) (S : UrlModSystem) (old new : Option HttpUrl) (flags : UInt32)
    (hn : strings .query = none) :
    (match hasFlag flags joinQueryFlag, urlString old .query, urlString new .query with
      | true, some o, some n => buf.store .query [(S.joinQuery o n).bytes ++ [nul]]
      | _, _, _ => buf.copy old new .query).Holds
        (Function.update strings .query (filledQuery S old new flags)) := by
  unfold filledQuery
  split
  next o n _ _ _ => exact h.store .query (S.joinQuery o n).noNul (by simp)
  next => exact h.copy old new hn

/-- The strings that are put into the buffer. -/
def filled (S : UrlModSystem) (old new : Option HttpUrl) (flags : UInt32) (n : UrlField) :
    Option Bytes :=
  if hasFlag flags (stripFlag n) then none
  else match n with
    | .path => filledPath S old new flags
    | .query => filledQuery S old new flags
    | _ => copied old new n

/-- Each string is stored in its turn, and wherever the buffer goes it stays what it is. -/
theorem fillUrl_holds (S : UrlModSystem) (old new : Option HttpUrl) (flags : UInt32) :
    (fillUrl S old new flags).Holds (filled S old new flags) := by
  have hscheme := (UrlBuffer.init_holds S.moves).copy old new (n := .scheme) rfl
  have huser := hscheme.unless rfl (hscheme.copy old new (n := .user) rfl)
    (hasFlag flags stripUserFlag)
  have hpass := huser.unless rfl (huser.copy old new (n := .pass) rfl) (hasFlag flags stripPassFlag)
  have hhost := hpass.copy old new (n := .host) rfl
  have hpath := hhost.unless rfl (hhost.path S old new flags rfl) (hasFlag flags stripPathFlag)
  have hquery := hpath.unless rfl (hpath.query S old new flags rfl) (hasFlag flags stripQueryFlag)
  have hfragment := hquery.unless rfl (hquery.copy old new (n := .fragment) rfl)
    (hasFlag flags stripFragmentFlag)
  refine cast (congrArg (UrlBuffer.Holds _) ?_) hfragment
  have hnoFlag : hasFlag flags 0 = false := by simp [hasFlag]
  funext n
  cases n with
  | scheme | host => simp [filled, stripFlag, hnoFlag]
  | _ =>
    simp [filled, stripFlag]
    rfl

theorem combineUrl_field (S : UrlModSystem) (old new : Option HttpUrl) {flags : UInt32}
    (hsanitize : hasFlag flags sanitizePathFlag = false) (n : UrlField) :
    (combineUrl S old new flags).field n = filled S old new flags n := by
  have hpath : (combineUrl S old new flags).path = (fillUrl S old new flags).string .path := by
    simp [combineUrl, hsanitize]
  rw [← (fillUrl_holds S old new flags).string n]
  cases n with
  | path => exact hpath
  | _ => rfl

/-- The combination of two URLs is what it should be if their paths, should they be joined, are
joined right, and only then. -/
theorem urlMod_combined_iff (S : UrlModSystem) (old new : Option HttpUrl) (flags : UInt32)
    (henv : hasFlag flags fromEnvFlag = false) (hsanitize : hasFlag flags sanitizePathFlag = false)
    (hquery : hasFlag flags joinQueryFlag = false) :
    Combined old new flags (urlMod S old new flags) ↔
      (hasFlag flags stripPathFlag = false → ∀ o p, joinedPaths old new flags = some (o, p) →
        JoinsRight o) := by
  have hurl : urlMod S old new flags = combineUrl S old new flags := by simp [urlMod, henv]
  have hport : (combineUrl S old new flags).port =
      unsetDefaultPort (combineUrl S old new flags).scheme (combinePort old new flags) := rfl
  rw [hurl, Combined, and_iff_left hport]
  simp only [combineUrl_field S old new hsanitize]
  constructor
  · intro hfields hstrip o p hjoined
    have hpath := hfields .path
    obtain ⟨-, -, hrelative⟩ := joinedPaths_noNul hjoined
    simp only [filled, stripFlag, hstrip, filledPath, hjoined, Bool.false_eq_true, if_false,
      Option.some.injEq] at hpath
    exact (joinPath_iff S.before o hrelative).mp hpath
  · intro hright n
    unfold filled
    by_cases hstrip : hasFlag flags (stripFlag n) = true
    · rw [if_pos hstrip, if_pos hstrip]
    · rw [if_neg hstrip, if_neg hstrip]
      cases n with
      | path =>
        simp only [filledPath]
        cases hjoined : joinedPaths old new flags with
        | none => rfl
        | some paths =>
          obtain ⟨o, p⟩ := paths
          obtain ⟨-, -, hrelative⟩ := joinedPaths_noNul hjoined
          have hjoin := hright (by simpa [stripFlag] using hstrip) o p hjoined
          simp only [(joinPath_iff S.before o hrelative).mpr hjoin]
      | query => simp [filledQuery, hquery, copied]
      | _ => rfl

/-- A server that joins queries behind each other, and whose buffers go further with each append. -/
def movingSystem : UrlModSystem where
  joinQuery o n := ⟨cString (o ++ 38 :: n), nul_notMem_cString _⟩
  env := ⟨some (ascii "http"), none, none, some (ascii "localhost"), 80, some (ascii "/"),
    none, none⟩
  before := nul
  moves n := 64 * n

/-- A URL with nothing but a path. -/
def pathUrl (path : String) : HttpUrl := ⟨none, none, none, none, 0, some (ascii path), none, none⟩

theorem urlMod_combined_changed :
    Combined (some (pathUrl "/path/file.ext")) (some (pathUrl "changed")) joinPathFlag
        (urlMod movingSystem (some (pathUrl "/path/file.ext"))
          (some (pathUrl "changed")) joinPathFlag) ↔
      (hasFlag joinPathFlag stripPathFlag = false → ∀ o p,
        joinedPaths (some (pathUrl "/path/file.ext")) (some (pathUrl "changed")) joinPathFlag =
          some (o, p) →
          JoinsRight o) :=
  urlMod_combined_iff _ _ _ _ (by decide) (by decide) (by decide)

/-- `php_dirname` leaves the slash of the root, and another one is put behind it. -/
theorem urlMod_root_joined :
    ¬ Combined (some (pathUrl "/x")) (some (pathUrl "y")) joinPathFlag
      (urlMod movingSystem (some (pathUrl "/x")) (some (pathUrl "y")) joinPathFlag) := by
  intro hcombined
  have hpath := hcombined.1 .path
  revert hpath
  decide +kernel

end ExtHttp
