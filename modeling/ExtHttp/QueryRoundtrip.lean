import ExtHttp.ParamsJoin
import ExtHttp.ParamsRoundtrip
import ExtHttp.QueryLeaves

/-!
# Writing and reading query strings

`php_http_url_encode_hash` writes the leaves of an array, each with the path to it; the query string
is read as that array.
-/
namespace ExtHttp

/-- `php_http_url_encode_hash_ex` -/
def urlEncodeHashEx (L : ParamsLib) (hash : Entries)
    (qstr argSep valSep preEncoded : Bytes) : Bytes :=
  paramsToString L ⟨argSep, [], valSep, paramsQuery⟩ (qstr ++ preEncoded) hash

/-- `php_http_url_encode_hash`; `aso` is the setting `arg_separator.output`. -/
def urlEncodeHash (L : ParamsLib) (aso : Bytes) (hash : Entries) (preEncoded : Bytes) : Bytes :=
  urlEncodeHashEx L hash [] (if aso = [] then [ampersand] else aso) [equalSign] preEncoded

mutual

/-- The leaves in their order and the paths to them. -/
def Value.leaves : Value → List (Path × Bytes)
  | .array ht => leavesOf ht
  | .null => [([], [])]
  | .bool b => [([], (Value.bool b).toStr)]
  | .long n => [([], (Value.long n).toStr)]
  | .str s => [([], s)]

def leavesOf : List (ArrayKey × Value) → List (Path × Bytes)
  | [] => []
  | (key, v) :: ht => (v.leaves.map fun l => (key :: l.1, l.2)) ++ leavesOf ht

end

/-! ### Arrays that can be written -/

/-- A key that is read as it is written. -/
structure IsQueryKey (key : ArrayKey) : Prop where
  ne : key.stringify ≠ []
  bracketFree : ∀ c ∈ key.stringify, c ≠ openBracket ∧ c ≠ closeBracket
  same : symKey key.stringify = key

/-- One that can stand in brackets. -/
structure IsDimensionKey (key : ArrayKey) : Prop extends IsQueryKey key where
  named : dimensionName key = some key.stringify

theorem isQueryKey_str {s : Bytes} (hne : s ≠ []) (hbracket : openBracket ∉ s ∧ closeBracket ∉ s)
    (hnumeric : numericKey s = none) : IsQueryKey (.str s) where
  ne := hne
  bracketFree _ hc := ⟨fun h => hbracket.1 (h ▸ hc), fun h => hbracket.2 (h ▸ hc)⟩
  same := symKey_eq_str.mpr hnumeric

theorem isDimensionKey_str {s : Bytes} (hbracket : openBracket ∉ s ∧ closeBracket ∉ s)
    (hnumeric : numericKey s = none) (hnul : s.head?.getD nul ≠ nul) : IsDimensionKey (.str s) where
  toIsQueryKey := isQueryKey_str (fun h => hnul (by rw [h]; rfl)) hbracket hnumeric
  named := if_neg hnul

/-- An index is its numeral. -/
theorem isDimensionKey_long (n : ℕ) (h : n < 2 ^ 63) : IsDimensionKey (.long n) := by
  have hdigit := formatLong_isDigit n
  have hnumeral : numeral 10 (formatLong n) = n := by
    have hfold := foldl_formatLong 0 n
    simp only [Nat.mod_zero] at hfold
    refine (List.foldl_ext _ _ 0 fun m c hc => ?_).trans hfold
    rw [digitVal, if_pos (hdigit c hc)]
  have hminus : (formatLong n).head? ≠ some 45 := fun hhead =>
    absurd (hdigit 45 (List.mem_of_mem_head? hhead)) (by decide)
  have hnumeric : numericKey (formatLong n) = some n := by
    unfold numericKey
    rw [if_neg hminus, hnumeral]
    exact if_pos ⟨rfl, by omega, by exact_mod_cast h⟩
  refine ⟨⟨formatLong_ne_nil n, fun c hc => ?_, ?_⟩, ?_⟩
  · have hc' := hdigit c hc
    constructor <;> intro hbracket <;> rw [hbracket] at hc' <;> cases hc'
  · rw [ArrayKey.stringify, symKey, hnumeric]
    rfl
  · exact congrArg (fun n => some (formatLong n)) (Int.emod_eq_of_lt (by omega) (by omega))

/-- An index below 0 is written as another one. -/
theorem IsDimensionKey.nonneg {n : ℤ} (h : IsDimensionKey (.long n)) : 0 ≤ n := by
  by_contra hneg
  obtain ⟨m, rfl⟩ := Int.eq_negSucc_of_lt_zero (not_le.mp hneg)
  have hsame : formatLong (Int.negSucc m % 2 ^ 64) = formatLong (Int.negSucc m) :=
    Option.some.inj h.named
  have hminus : (45 : Byte) ∈ formatLong (Int.negSucc m) := by
    have htext : toString (Int.negSucc m) = "-" ++ toString (m + 1) := rfl
    rw [formatLong, htext, ascii, String.toList_append, List.map_append]
    exact List.mem_append_left _ (by decide)
  obtain ⟨k, hk⟩ := Int.eq_ofNat_of_zero_le (Int.emod_nonneg (Int.negSucc m)
    (by norm_num : (2 : ℤ) ^ 64 ≠ 0))
  rw [← hsame, hk] at hminus
  exact absurd (formatLong_isDigit k 45 hminus) (by decide)

/-- The index 0 comes before the other ones. -/
def ZeroFirst (ht : Entries) : Prop :=
  ht.Pairwise fun e e' => e'.1 = .long 0 → ∀ i : ℤ, 0 ≤ i → e.1 ≠ .long i

/-- Strings, and arrays of them that are not empty. -/
inductive Value.IsTree : Value → Prop
  | leaf (s : Bytes) : IsTree (.str s)
  | array {ht : Entries} (hne : ht ≠ []) (hnodup : (ht.map Prod.fst).Nodup) (hzero : ZeroFirst ht)
      (hkeys : ∀ e ∈ ht, IsDimensionKey e.1) (hvalues : ∀ e ∈ ht, IsTree e.2) : IsTree (.array ht)

/-- The writer takes some keys of a parameter for its value and its arguments. -/
structure IsQuery (L : ParamsLib) (q : Entries) : Prop where
  nodup : (q.map Prod.fst).Nodup
  keys : ∀ e ∈ q, IsQueryKey e.1
  trees : ∀ e ∈ q, e.2.IsTree
  nesting : ∀ e ∈ q, ∀ l ∈ e.2.leaves, l.1.length ≤ L.maxNesting
  value : ∀ e ∈ q, Entries.find e.2.entries valueKey = none
  extended : ∀ e ∈ q, Entries.find e.2.entries rfc5987Key = none
  arguments : ∀ e ∈ q, ∀ args, Entries.find e.2.entries argumentsKey ≠ some (.array args)

theorem leavesOf_eq (ht : Entries) :
    leavesOf ht = ht.flatMap fun e => e.2.leaves.map fun l => (e.1 :: l.1, l.2) := by
  induction ht with
  | nil => rfl
  | cons e ht ih => rw [leavesOf, List.flatMap_cons, ih]

/-- Behind a first leaf there are only leaves of an array. -/
theorem Value.IsTree.leaves_cons {v : Value} (h : v.IsTree) :
    ∃ l ls, v.leaves = l :: ls ∧ ∀ l' ∈ ls, l'.1 ≠ [] := by
  induction h with
  | leaf s => exact ⟨([], s), [], rfl, by simp⟩
  | @array ht hne _ _ _ _ ih =>
    have hpaths : ∀ l ∈ leavesOf ht, l.1 ≠ [] := fun l hl => by
      rw [leavesOf_eq] at hl
      obtain ⟨e, -, hl⟩ := List.mem_flatMap.mp hl
      obtain ⟨l', -, rfl⟩ := List.mem_map.mp hl
      exact List.cons_ne_nil _ _
    obtain ⟨e, ht, rfl⟩ := List.exists_cons_of_ne_nil hne
    obtain ⟨l, ls, hl, -⟩ := ih e List.mem_cons_self
    have hleaves : (Value.array (e :: ht)).leaves = (e.1 :: l.1, l.2) ::
        ((ls.map fun l => (e.1 :: l.1, l.2)) ++ leavesOf ht) := by
      rw [Value.leaves, leavesOf, hl, List.map_cons, List.cons_append]
    refine ⟨_, _, hleaves, fun l' hl' => hpaths l' ?_⟩
    have hmem := List.mem_cons_of_mem (e.1 :: l.1, l.2) hl'
    rw [← hleaves] at hmem
    exact hmem

/-! ### What is written -/

def bracketKey (key : ArrayKey) : Bytes := openBracket :: (key.stringify ++ [closeBracket])

/-- A leaf with the name in front of the brackets. -/
def leafText (name : Bytes) (l : Path × Bytes) : Bytes :=
  rawUrlEncode (name ++ l.1.flatMap bracketKey) ++ equalSign :: rawUrlEncode l.2

section Write
variable {L : ParamsLib} {fmt : ParamsFormat}

theorem shiftString_query (hflags : fmt.flags = paramsQuery) (hvss : fmt.vss = [equalSign])
    (key s : Bytes) :
    shiftString L fmt [] key s = rawUrlEncode key ++ equalSign :: rawUrlEncode s := by
  simp [shiftString, shiftKey, shiftVal, prepareKey, prepareValue, hflags, hvss, paramsQuery,
    Value.toStr]

theorem elementPieces_leaves (hflags : fmt.flags = paramsQuery) (hvss : fmt.vss = [equalSign])
    {v : Value} (h : v.IsTree) (key : Bytes) :
    elementPieces L fmt key v = v.leaves.map fun l => (fmt.pss, leafText key l) := by
  induction h generalizing key with
  | leaf s =>
    rw [elementPieces, Value.leaves, List.map_singleton, shiftString_query hflags hvss, leafText,
      List.flatMap_nil, List.append_nil]
  | @array ht hne hnodup hzero hkeys hvalues ih =>
    clear hne hnodup hzero hvalues
    rw [elementPieces, Value.leaves]
    induction ht with
    | nil => rfl
    | cons e ht ihs =>
      rw [List.forall_mem_cons] at hkeys ih
      rw [dimensionPieces, leavesOf, hkeys.1.named, List.map_append, ihs hkeys.2 ih.2]
      dsimp only
      rw [ih.1]
      congr 1
      rw [List.map_map]
      refine List.map_congr_left fun l _ => ?_
      simp only [Function.comp_apply, leafText, List.flatMap_cons, bracketKey, List.append_assoc]

theorem paramValue_query {v : Value} (hvalue : Entries.find v.entries valueKey = none)
    (hextended : Entries.find v.entries rfc5987Key = none) : paramValue v = (v, false) := by
  cases v with
  | array ht =>
    rw [Value.entries] at hvalue hextended
    rw [paramValue, hvalue, hextended]
  | _ => rfl

theorem paramArgs_query {v : Value} (hvalue : Entries.find v.entries valueKey = none)
    (hextended : Entries.find v.entries rfc5987Key = none)
    (harguments : ∀ args, Entries.find v.entries argumentsKey ≠ some (.array args)) :
    paramArgs v = [] := by
  cases v with
  | array ht =>
    rw [Value.entries] at hvalue hextended harguments
    unfold paramArgs
    dsimp only
    split
    · exact absurd ‹_› (harguments _)
    · rfl
    · rw [if_pos ⟨hvalue, hextended⟩]
  | _ => rfl

/-- What is written for a parameter is what is written for its leaves. -/
theorem entryPieces_leaves (hflags : fmt.flags = paramsQuery) (hvss : fmt.vss = [equalSign])
    {e : ArrayKey × Value} (htree : e.2.IsTree) (hvalue : Entries.find e.2.entries valueKey = none)
    (hextended : Entries.find e.2.entries rfc5987Key = none)
    (harguments : ∀ args, Entries.find e.2.entries argumentsKey ≠ some (.array args)) :
    entryPieces L fmt false e = e.2.leaves.map fun l => (fmt.pss, leafText e.1.stringify l) := by
  have hpieces := elementPieces_leaves (L := L) hflags hvss htree e.1.stringify
  rw [entryPieces, paramValue_query hvalue hextended, paramArgs_query hvalue hextended harguments,
    List.flatMap_nil, List.append_nil, ← hpieces]
  obtain ⟨key, v⟩ := e
  cases htree with
  | leaf s => simp [paramPieces, shiftParam, elementPieces, shiftString, hflags, paramsQuery]
  | array _ _ _ _ _ => simp [paramPieces, elementPieces, hflags, paramsQuery]

end Write

/-! ### What is read -/

/-- A character that percent encoding leaves: no quote, no white space and no separator. -/
def IsEncoded (c : Byte) : Prop := c ≠ quote ∧ c ≠ ampersand ∧ c ≠ equalSign ∧ isTrimmed c = false

instance (c : Byte) : Decidable (IsEncoded c) := inferInstanceAs (Decidable (_ ∧ _))

theorem isUnreserved_isEncoded {c : Byte} (h : isUnreserved c = true) : IsEncoded c := by
  revert h
  revert c
  decide +kernel

theorem upperHex_isEncoded {n : ℕ} (h : n < 16) : IsEncoded (upperHex n) := by
  revert n
  decide

theorem rawUrlEncode_isEncoded (s : Bytes) : ∀ c ∈ rawUrlEncode s, IsEncoded c := by
  intro c hc
  obtain ⟨d, -, hc⟩ := List.mem_flatMap.mp hc
  split_ifs at hc with hd
  · rw [List.mem_singleton.mp hc]
    exact isUnreserved_isEncoded hd
  · have hlt := d.toNat_lt
    simp only [List.mem_cons, List.not_mem_nil, or_false] at hc
    rcases hc with rfl | rfl | rfl
    · decide
    · exact upperHex_isEncoded (by omega)
    · exact upperHex_isEncoded (by omega)

theorem rawUrlEncode_closed (s : Bytes) : QuotesClosed (rawUrlEncode s) :=
  quotesClosed_plain fun h => (rawUrlEncode_isEncoded s _ h).1 rfl

theorem rawUrlEncode_trimmed (s : Bytes) : phpTrim isTrimmed (rawUrlEncode s) = rawUrlEncode s :=
  phpTrim_plain fun c hc => (rawUrlEncode_isEncoded s c hc).2.2.2

def QueryName.ofKey (key : ArrayKey) (h : IsQueryKey key) : QueryName where
  text := rawUrlEncode key.stringify
  ne := rawUrlEncode_ne_nil h.ne
  plain c hc := ⟨(rawUrlEncode_isEncoded _ c hc).2.1, (rawUrlEncode_isEncoded _ c hc).2.2.1⟩
  bracketFree := by
    rw [urlDecode_rawUrlEncode]
    exact h.bracketFree

theorem QueryName.key_ofKey {key : ArrayKey} (h : IsQueryKey key) :
    (QueryName.ofKey key h).key = key := by
  rw [QueryName.key, QueryName.ofKey, urlDecode_rawUrlEncode, h.same]

theorem exists_queryNames {path : Path} (h : ∀ key ∈ path, IsDimensionKey key) :
    ∃ names : List QueryName, names.map (fun k => (k.key, urlDecode k.text)) =
      path.map fun key => (key, key.stringify) := by
  induction path with
  | nil => exact ⟨[], rfl⟩
  | cons key path ih =>
    rw [List.forall_mem_cons] at h
    obtain ⟨names, hnames⟩ := ih h.2
    refine ⟨.ofKey key h.1.toIsQueryKey :: names, ?_⟩
    rw [List.map_cons, List.map_cons, hnames, QueryName.key_ofKey, QueryName.ofKey,
      urlDecode_rawUrlEncode]

/-- A leaf is written as a pair. -/
structure LeafPair (key : ArrayKey) (l : Path × Bytes) (w : QueryPair × Bytes) : Prop where
  written : w.1.IsWritten w.2
  closed : QuotesClosed w.1.value
  text : w.2 ++ equalSign :: w.1.value = leafText key.stringify l
  name : w.1.name.key = key
  keys : w.1.keys.map QueryName.key = l.1
  stored : w.1.stored = .str l.2

theorem exists_leafPair {key : ArrayKey} (hkey : IsQueryKey key) {l : Path × Bytes}
    (hl : ∀ k ∈ l.1, IsDimensionKey k) : ∃ w, LeafPair key l w := by
  obtain ⟨names, hnames⟩ := exists_queryNames hl
  have hkeys : names.map QueryName.key = l.1 := by
    have h := congrArg (List.map Prod.fst) hnames
    rw [List.map_map, List.map_map] at h
    exact h.trans (List.map_id _)
  have htexts : names.map (fun k => urlDecode k.text) = l.1.map ArrayKey.stringify := by
    have h := congrArg (List.map Prod.snd) hnames
    rw [List.map_map, List.map_map] at h
    exact h
  have hbrackets : (names.flatMap fun k => openBracket :: (urlDecode k.text ++ [closeBracket])) =
      l.1.flatMap bracketKey := by
    have hname := congrArg (List.flatMap fun s => openBracket :: (s ++ [closeBracket])) htexts
    rw [List.flatMap_map, List.flatMap_map] at hname
    exact hname
  let pair : QueryPair := ⟨.ofKey key hkey, names, rawUrlEncode l.2,
    fun c hc => (rawUrlEncode_isEncoded _ c hc).2.1⟩
  let name := rawUrlEncode (key.stringify ++ l.1.flatMap bracketKey)
  have hdecode : urlDecode pair.key = key.stringify ++ l.1.flatMap bracketKey := by
    have hname : urlDecode pair.name.text = key.stringify := urlDecode_rawUrlEncode _
    rw [QueryPair.key, urlDecode_bracketed, hname, hbrackets]
  have hwritten : pair.IsWritten name := by
    refine ⟨⟨rawUrlEncode_ne_nil (List.append_ne_nil_of_left_ne_nil hkey.ne _), fun c hc => ?_,
      rawUrlEncode_closed _⟩, rawUrlEncode_trimmed _, ?_⟩
    · exact ⟨(rawUrlEncode_isEncoded _ c hc).2.1, (rawUrlEncode_isEncoded _ c hc).2.2.1⟩
    · rw [hdecode]
      exact urlDecode_rawUrlEncode _
  have hkept : pair.Kept := ⟨rawUrlEncode_trimmed _, fun h =>
    (rawUrlEncode_isEncoded l.2 _ (List.mem_of_mem_head? h)).2.2.1 rfl⟩
  refine ⟨(pair, name), hwritten, rawUrlEncode_closed _, rfl, QueryName.key_ofKey hkey, hkeys, ?_⟩
  rw [pair.stored_eq_leaf.mpr hkept, QueryPair.leaf, urlDecode_rawUrlEncode]

/-! ### Leaf by leaf -/

section Place
variable {below : Bool}

/-- A leaf below a value -/
def placeLeaf (below : Bool) (v : Value) (l : Path × Bytes) : Option Value :=
  place below v l.1 (.str l.2)

theorem hasRoom_new {v : Value} {key : ArrayKey} (hnew : Entries.find v.entries key = none)
    (hzero : key = .long 0 → Entries.nextIndex below v.entries = 0) (path : Path) :
    HasRoom below v (key :: path) := by
  intro p r u hpath hget _
  cases p with
  | nil =>
    obtain rfl : v = u := Option.some.inj hget
    exact hzero (List.cons.inj hpath).1
  | cons k p =>
    obtain ⟨rfl, -⟩ := List.cons.inj hpath
    rw [Value.get_cons, hnew] at hget
    cases hget

theorem place_new {v : Value} {key : ArrayKey} (hnew : Entries.find v.entries key = none)
    (hzero : key = .long 0 → Entries.nextIndex below v.entries = 0) (path : Path) (w : Value) :
    place below v (key :: path) w =
      some (.array (v.entries ++ [(key, Value.put .null path w)])) := by
  rw [place_put (hasRoom_new hnew hzero path), Value.put, hnew, Entries.update_of_find_none hnew]
  rfl

theorem placeParam_new {q : Entries} {key : ArrayKey} (hnew : Entries.find q key = none)
    (path : Path) (w : Value) :
    placeParam below q key path w = some (q ++ [(key, Value.put .null path w)]) := by
  unfold placeParam
  rw [hnew, Entries.update_of_find_none hnew, Entries.update_of_find_none hnew]
  split_ifs with hnil
  · rw [hnil]
    rfl
  · rfl

/-- Later leaves of an entry that is the last one. -/
theorem place_last {ht : Entries} {key : ArrayKey} (hnew : Entries.find ht key = none) (u : Value)
    {path : Path} (hpath : path ≠ []) (w : Value) :
    place below (.array (ht ++ [(key, u)])) (key :: path) w =
      (place below u path w).map fun u => .array (ht ++ [(key, u)]) := by
  have hfind : Entries.find (ht ++ [(key, u)]) key = some u := by
    rw [Entries.find_append, hnew, Option.none_or, Entries.find_cons, if_pos rfl]
  simp only [place, Value.entries, if_neg hpath, hfind, Entries.update_append hnew]

theorem placeParam_last {q : Entries} {key : ArrayKey} (hnew : Entries.find q key = none)
    (u : Value) {path : Path} (hpath : path ≠ []) (w : Value) :
    placeParam below (q ++ [(key, u)]) key path w =
      (place below u path w).map fun u => q ++ [(key, u)] := by
  have hfind : Entries.find (q ++ [(key, u)]) key = some u := by
    rw [Entries.find_append, hnew, Option.none_or, Entries.find_cons, if_pos rfl]
  unfold placeParam
  rw [if_neg hpath, hfind]
  exact congrArg (fun f => (place below u path w).map f)
    (funext fun u => Entries.update_append hnew _ u)

/-- The leaves of a value are written there if the first of them makes a place for it. -/
theorem foldlM_leaves {β : Type} {f : β → Path × Bytes → Option β} {g : Value → β} {b : β}
    {u : Value} (hu : u.IsTree) (hfold : u.leaves.foldlM (placeLeaf below) .null = some u)
    (hfirst : ∀ l, f b l = some (g (Value.put .null l.1 (.str l.2))))
    (hlater : ∀ u l, l.1 ≠ [] → f (g u) l = (placeLeaf below u l).map g) :
    u.leaves.foldlM f b = some (g u) := by
  have hall : ∀ (ls : List (Path × Bytes)), (∀ l ∈ ls, l.1 ≠ []) → ∀ u,
      ls.foldlM f (g u) = (ls.foldlM (placeLeaf below) u).map g := by
    intro ls hls
    induction ls with
    | nil => exact fun u => rfl
    | cons l ls ih =>
      intro u
      rw [List.forall_mem_cons] at hls
      rw [List.foldlM_cons, List.foldlM_cons, hlater u l hls.1]
      cases placeLeaf below u l with
      | none => rfl
      | some u' => exact ih hls.2 u'
  obtain ⟨l, ls, hl, hls⟩ := hu.leaves_cons
  have hnull : placeLeaf below .null l = some (Value.put .null l.1 (.str l.2)) :=
    place_put (fun p r w hpath hget _ => by cases p <;> cases hget; rfl) _
  rw [hl, List.foldlM_cons, hnull] at hfold
  rw [hl, List.foldlM_cons, hfirst l]
  exact (hall ls hls _).trans (congrArg (Option.map g) hfold)

/-- The entries of an array are written in their order. -/
theorem foldlM_entries {more : Entries} {v : Value} (hne : more ≠ [])
    (hnodup : ((v.entries ++ more).map Prod.fst).Nodup) (hzero : ZeroFirst (v.entries ++ more))
    (hkeys : ∀ e ∈ v.entries ++ more, IsDimensionKey e.1)
    (htrees : ∀ e ∈ more, e.2.IsTree)
    (hfold : ∀ e ∈ more, e.2.leaves.foldlM (placeLeaf below) .null = some e.2) :
    (leavesOf more).foldlM (placeLeaf below) v = some (.array (v.entries ++ more)) := by
  induction more generalizing v with
  | nil => exact absurd rfl hne
  | cons e more ih =>
    rw [List.forall_mem_cons] at htrees hfold
    have hnew : Entries.find v.entries e.1 = none := by
      rw [Entries.find_eq_none]
      intro hmem
      rw [List.map_append] at hnodup
      exact (List.nodup_append.mp hnodup).2.2 _ hmem _ (by simp) rfl
    have hroom : e.1 = .long 0 → Entries.nextIndex below v.entries = 0 := by
      intro hkey
      refine Entries.nextIndex_eq_zero fun i hfound => ?_
      rw [ne_eq, Entries.find_eq_none, not_not] at hfound
      obtain ⟨e', he', hi⟩ := List.mem_map.mp hfound
      have hdimension := hkeys e' (List.mem_append_left _ he')
      rw [hi] at hdimension
      exact absurd hi ((List.pairwise_append.mp hzero).2.2 e' he' e List.mem_cons_self hkey i
        hdimension.nonneg)
    have hentry : (e.2.leaves.map fun l => (e.1 :: l.1, l.2)).foldlM (placeLeaf below) v =
        some (.array (v.entries ++ [(e.1, e.2)])) := by
      rw [List.foldlM_map]
      exact foldlM_leaves (g := fun u => Value.array (v.entries ++ [(e.1, u)])) htrees.1 hfold.1
        (fun l => place_new hnew hroom l.1 _) fun u l hl => place_last hnew u hl _
    rw [leavesOf, List.foldlM_append, hentry]
    rw [List.append_cons] at hnodup hzero hkeys
    cases more with
    | nil => rfl
    | cons e' more =>
      have hrest := ih (v := .array (v.entries ++ [e])) (List.cons_ne_nil _ _) hnodup hzero hkeys
        htrees.2 hfold.2
      rw [Value.entries, ← List.append_cons] at hrest
      exact hrest

theorem Value.IsTree.foldlM_leaves {v : Value} (h : v.IsTree) :
    v.leaves.foldlM (placeLeaf below) .null = some v := by
  induction h with
  | leaf s => rfl
  | array hne hnodup hzero hkeys hvalues ih =>
    exact foldlM_entries hne hnodup hzero hkeys hvalues ih

end Place

/-! ### All leaves -/

/-- The leaves of the parameters with their names. -/
def namedLeaves (q : Entries) : List (ArrayKey × Path × Bytes) :=
  q.flatMap fun e => e.2.leaves.map fun l => (e.1, l)

theorem Value.IsTree.dimensionKeys {v : Value} (h : v.IsTree) :
    ∀ l ∈ v.leaves, ∀ k ∈ l.1, IsDimensionKey k := by
  induction h with
  | leaf s => simp [Value.leaves]
  | @array ht _ _ _ hkeys _ ih =>
    intro l hl k hk
    rw [Value.leaves, leavesOf_eq] at hl
    obtain ⟨e, he, hl⟩ := List.mem_flatMap.mp hl
    obtain ⟨l', hl', rfl⟩ := List.mem_map.mp hl
    rcases List.mem_cons.mp hk with rfl | hk
    · exact hkeys e he
    · exact ih e he l' hl' k hk

theorem exists_leafPairs {ts : List (ArrayKey × Path × Bytes)}
    (hts : ∀ t ∈ ts, IsQueryKey t.1 ∧ ∀ k ∈ t.2.1, IsDimensionKey k) :
    ∃ ws, List.Forall₂ (fun t w => LeafPair t.1 t.2 w) ts ws := by
  induction ts with
  | nil => exact ⟨[], .nil⟩
  | cons t ts ih =>
    rw [List.forall_mem_cons] at hts
    obtain ⟨ws, hws⟩ := ih hts.2
    obtain ⟨w, hw⟩ := exists_leafPair hts.1.1 hts.1.2
    exact ⟨w :: ws, .cons hw hws⟩

theorem writePieces_pairs (ws : List (QueryPair × Bytes)) :
    writePieces [] (ws.map fun w => ([ampersand], w.2 ++ equalSign :: w.1.value)) =
      writtenText ws := by
  cases ws with
  | nil => rfl
  | cons w ws =>
    have hne : w.2 ++ equalSign :: w.1.value ≠ [] :=
      List.append_ne_nil_of_right_ne_nil _ (List.cons_ne_nil _ _)
    rw [List.map_cons, writePieces_cons, if_pos rfl, List.nil_append, writePieces_of_ne_nil _ hne,
      writtenText, List.map_cons, joinPairs, List.flatMap_map, List.flatMap_map, List.append_assoc]
    rfl

section Pairs
variable {ts : List (ArrayKey × Path × Bytes)} {ws : List (QueryPair × Bytes)}
  (h : List.Forall₂ (fun t w => LeafPair t.1 t.2 w) ts ws)
include h

theorem leafPairs_text : writtenText ws =
    writePieces [] (ts.map fun t => ([ampersand], leafText t.1.stringify t.2)) := by
  rw [← writePieces_pairs]
  congr 1
  induction h with
  | nil => rfl
  | cons hw _ ih => rw [List.map_cons, List.map_cons, ih, hw.text]

/-- The pairs of leaves are placed as the leaves. -/
theorem leafPairs_place (below : Bool) (q : Entries) : placePairs below (ws.map Prod.fst) q =
    ts.foldlM (fun q t => placeParam below q t.1 t.2.1 (.str t.2.2)) q := by
  induction h generalizing q with
  | nil => rfl
  | cons hw _ ih =>
    rw [List.map_cons, placePairs_cons, List.foldlM_cons, hw.name, hw.keys, hw.stored]
    exact congrArg _ (funext ih)

theorem leafPairs_mem {w : QueryPair × Bytes} (hw : w ∈ ws) : ∃ t ∈ ts, LeafPair t.1 t.2 w := by
  induction h with
  | nil => cases hw
  | cons hpair _ ih =>
    rcases List.mem_cons.mp hw with rfl | hw
    · exact ⟨_, List.mem_cons_self, hpair⟩
    · obtain ⟨t, ht, hw⟩ := ih hw
      exact ⟨t, List.mem_cons_of_mem _ ht, hw⟩

end Pairs

/-- The parameters are placed in their order. -/
theorem foldlM_namedLeaves {below : Bool} {more q : Entries}
    (hnodup : ((q ++ more).map Prod.fst).Nodup) (htrees : ∀ e ∈ more, e.2.IsTree) :
    (namedLeaves more).foldlM (fun q t => placeParam below q t.1 t.2.1 (.str t.2.2)) q =
      some (q ++ more) := by
  induction more generalizing q with
  | nil => exact congrArg some (List.append_nil q).symm
  | cons e more ih =>
    rw [List.forall_mem_cons] at htrees
    have hnew : Entries.find q e.1 = none := by
      rw [Entries.find_eq_none]
      intro hmem
      rw [List.map_append] at hnodup
      exact (List.nodup_append.mp hnodup).2.2 _ hmem _ (by simp) rfl
    have hentry : (e.2.leaves.map fun l => (e.1, l)).foldlM
        (fun q t => placeParam below q t.1 t.2.1 (.str t.2.2)) q = some (q ++ [e]) := by
      rw [List.foldlM_map]
      exact foldlM_leaves (g := fun u => q ++ [(e.1, u)]) htrees.1 htrees.1.foldlM_leaves
        (fun l => placeParam_new hnew l.1 _) fun u l hl => placeParam_last hnew u hl _
    rw [List.append_cons] at hnodup
    rw [namedLeaves, List.flatMap_cons, List.foldlM_append, hentry]
    exact (ih hnodup htrees.2).trans (by rw [← List.append_cons])

section Roundtrip
variable {L : ParamsLib} {q : Entries}

theorem IsQuery.pieces (h : IsQuery L q) : urlEncodeHash L [ampersand] q [] =
    writePieces [] ((namedLeaves q).map fun t => ([ampersand], leafText t.1.stringify t.2)) := by
  have hfold := @foldl_shiftEntry L ⟨[ampersand], [], [equalSign], paramsQuery⟩ q
    (List.pairwise_of_forall fun e e' _ => rfl) false (by simp) []
  have hpieces : q.flatMap (entryPieces L ⟨[ampersand], [], [equalSign], paramsQuery⟩ false) =
      (namedLeaves q).map fun t => ([ampersand], leafText t.1.stringify t.2) := by
    rw [namedLeaves, List.map_flatMap]
    refine List.flatMap_congr fun e he => ?_
    rw [entryPieces_leaves rfl rfl (h.trees e he) (h.value e he) (h.extended e he)
      (h.arguments e he), List.map_map]
    rfl
  rw [← hpieces]
  exact hfold

end Roundtrip

/-- An array that has been written for a query string is read again. -/
theorem querystringParse_urlEncodeHash {L : ParamsLib} {q : Entries} (h : IsQuery L q) :
    querystringParse L [ampersand] [] (urlEncodeHash L [ampersand] q []) = .ok q := by
  have hkeys : ∀ t ∈ namedLeaves q, IsQueryKey t.1 ∧ t.2.1.length ≤ L.maxNesting ∧
      ∀ k ∈ t.2.1, IsDimensionKey k := by
    intro t ht
    obtain ⟨e, he, ht⟩ := List.mem_flatMap.mp ht
    obtain ⟨l, hl, rfl⟩ := List.mem_map.mp ht
    exact ⟨h.keys e he, h.nesting e he l hl, (h.trees e he).dimensionKeys l hl⟩
  obtain ⟨ws, hws⟩ := exists_leafPairs fun t ht => ⟨(hkeys t ht).1, (hkeys t ht).2.2⟩
  have htext : urlEncodeHash L [ampersand] q [] = writtenText ws := by
    rw [h.pieces, leafPairs_text hws]
  have hnest : ∀ w ∈ ws, w.1.keys.length ≤ L.maxNesting := fun w hw => by
    obtain ⟨t, ht, hpair⟩ := leafPairs_mem hws hw
    have hlength := (hkeys t ht).2.1
    rw [← hpair.keys, List.length_map] at hlength
    exact hlength
  have hnames : ∀ w ∈ ws, w.1.IsWritten w.2 := fun w hw => by
    obtain ⟨t, -, hpair⟩ := leafPairs_mem hws hw
    exact hpair.written
  have hclosed : ∀ w ∈ ws.dropLast, QuotesClosed w.1.value := fun w hw => by
    obtain ⟨t, -, hpair⟩ := leafPairs_mem hws (List.mem_of_mem_dropLast hw)
    exact hpair.closed
  have hall := @foldlM_namedLeaves L.nextBelow _ [] h.nodup h.trees
  rw [htext, querystringParse_written hnames hclosed hnest, leafPairs_place hws, hall]
  rfl

/-- `a` with the elements `1&2` and `b=x y`, and `n` -/
def nestedQuery : Entries :=
  [(.str (ascii "a"), .array [(.long 0, .str (ascii "1&2")),
    (.long 1, .array [(.str (ascii "b"), .str (ascii "x y"))])]), (.str (ascii "n"), .str [])]

theorem nestedQuery_tree : (Value.array [(.long 0, .str (ascii "1&2")),
    (.long 1, .array [(.str (ascii "b"), .str (ascii "x y"))])]).IsTree := by
  have hb : IsDimensionKey (.str (ascii "b")) :=
    isDimensionKey_str (by decide) (by decide) (by decide)
  have hinner : (Value.array [(.str (ascii "b"), .str (ascii "x y"))]).IsTree :=
    .array (by simp) (by simp) (List.pairwise_singleton _ _) (by simpa using hb)
      (by simpa using .leaf _)
  have hzero := isDimensionKey_long 0 (by norm_num)
  have hone := isDimensionKey_long 1 (by norm_num)
  refine .array (by simp) (by decide) (by simp [ZeroFirst]) ?_ ?_
  · simpa using ⟨hzero, hone⟩
  · simpa using ⟨.leaf _, hinner⟩

theorem nestedQuery_isQuery : IsQuery plainParamsLib nestedQuery where
  nodup := by decide
  keys := by
    have ha := isQueryKey_str (by decide : ascii "a" ≠ []) (by decide) (by decide)
    have hn := isQueryKey_str (by decide : ascii "n" ≠ []) (by decide) (by decide)
    simpa [nestedQuery] using ⟨ha, hn⟩
  trees := by simpa [nestedQuery] using ⟨nestedQuery_tree, .leaf _⟩
  nesting := by decide
  value := by decide
  extended := by decide
  arguments := by simp [nestedQuery, Value.entries, Entries.find_cons, argumentsKey]

theorem querystringParse_nestedQuery :
    querystringParse plainParamsLib [ampersand] []
      (ascii "a%5B0%5D=1%262&a%5B1%5D%5Bb%5D=x%20y&n=") = .ok nestedQuery := by
  have htext : urlEncodeHash plainParamsLib [ampersand] nestedQuery [] =
      ascii "a%5B0%5D=1%262&a%5B1%5D%5Bb%5D=x%20y&n=" := by decide
  rw [← htext]
  exact querystringParse_urlEncodeHash nestedQuery_isQuery

end ExtHttp
