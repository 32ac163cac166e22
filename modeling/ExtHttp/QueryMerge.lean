import ExtHttp.Querystring

/-!
# Pairs in their array

How `merge_param` and the value behind it write one pair into the array of a query string.
-/
namespace ExtHttp

/-- Write below a value as the source does it: index 0 is the next index, unless an array is
there. -/
def place (below : Bool) : Value → Path → Value → Option Value
  | _, [], w => some w
  | v, key :: path, w =>
      let insert : Option Value :=
        if key.nonzero then some (.array (Entries.update v.entries key (Value.put .null path w)))
        else
          (Entries.nextInsert below v.entries (Value.put .null path w)).map fun o => .array o.1
      if path = [] then insert
      else match Entries.find v.entries key with
        | some u => (place below u path w).map fun u => .array (Entries.update v.entries key u)
        | none => insert

/-- The name comes before its keys, and 0 is an index there like others. -/
def placeParam (below : Bool) (q : Entries) (key : ArrayKey) (path : Path) (w : Value) :
    Option Entries :=
  if path = [] then some (Entries.update q key w)
  else match Entries.find q key with
    | none => some (Entries.update q key (Value.put .null path w))
    | some v => (place below v path w).map (Entries.update q key)

/-! ### `merge_param` -/

theorem firstPath_nested (path : Path) : (nested path).firstPath = path := by
  induction path with
  | nil => rfl
  | cons key path ih => rw [nested, Value.firstPath, ih]

theorem set_nested (path : Path) (w : Value) : (nested path).set path w =
    Value.put .null path w := by
  induction path with
  | nil => rfl
  | cons key path ih =>
    simp [nested, Value.set, Value.put, Value.entries, Entries.find_cons, Entries.update_cons, ih]

/-- A value that is found is written behind. -/
theorem set_found {ht : Entries} {key : ArrayKey} {v : Value} (h : Entries.find ht key = some v)
    (path : Path) (w : Value) : (Value.array ht).set (key :: path) w =
      .array (Entries.update ht key (v.set path w)) := by
  simp [Value.set, h]

/-- The pointer of a merge, up to the leaf, and what is written there. -/
def writeMerged (w : Value) (o : Value × Path) : Value :=
  o.1.set (o.2 ++ (o.1.get o.2).elim [] Value.firstPath) w

theorem writeMerged_below (w : Value) (ht : Entries) (key : ArrayKey) (o : Value × Path) :
    writeMerged w (.array (Entries.update ht key o.1), key :: o.2) =
      .array (Entries.update ht key (writeMerged w o)) := by
  have hfind := Entries.find_update_self ht key o.1
  rw [writeMerged, Value.get_cons, Value.entries, hfind, Option.bind_some, List.cons_append,
    set_found hfind, Entries.update_update]
  rfl

theorem writeMerged_update (w : Value) (ht : Entries) (key : ArrayKey) (path : Path) :
    writeMerged w (.array (Entries.update ht key (nested path)), [key]) =
      .array (Entries.update ht key (Value.put .null path w)) := by
  have h := writeMerged_below w ht key (nested path, [])
  rw [h]
  simp [writeMerged, Value.get, firstPath_nested, set_nested]

theorem writeMerged_next (below : Bool) (w : Value) (ht : Entries) (path : Path) :
    ((Entries.nextInsert below ht (nested path)).map fun o => (Value.array o.1, [o.2])).map
        (writeMerged w) =
      (Entries.nextInsert below ht (Value.put .null path w)).map fun o => .array o.1 := by
  unfold Entries.nextInsert
  split_ifs
  · have hnone := Entries.find_nextIndex below ht
    have h := writeMerged_update w ht (.long (Entries.nextIndex below ht)) path
    rw [Entries.update_of_find_none hnone, Entries.update_of_find_none hnone] at h
    exact congrArg some h
  · rfl

section Merge
variable {L : ParamsLib}

/-- What `merge_param` makes of a value, when the leaf has been written. -/
theorem mergeValue_place (v : Value) {path : Path} (hpath : path ≠ []) (w : Value) :
    (mergeValue L v path).map (writeMerged w) = place L.nextBelow v path w := by
  induction path generalizing v with
  | nil => exact absurd rfl hpath
  | cons key path ih =>
    have hinsert : ∀ ht, ((if key.nonzero then
        some (Value.array (Entries.update ht key (nested path)), [key]) else
          (Entries.nextInsert L.nextBelow ht (nested path)).map
            fun o => (Value.array o.1, [o.2])).map (writeMerged w)) =
        if key.nonzero then some (.array (Entries.update ht key (Value.put .null path w)))
          else (Entries.nextInsert L.nextBelow ht (Value.put .null path w)).map
            fun o => .array o.1 := by
      intro ht
      split_ifs
      · rw [Option.map_some, writeMerged_update]
      · exact writeMerged_next L.nextBelow w ht path
    have harray : ∀ ht, (mergeValue L (.array ht) (key :: path)).map (writeMerged w) =
        place L.nextBelow (.array ht) (key :: path) w := by
      intro ht
      simp only [mergeValue, place, Value.entries]
      by_cases hnil : path = []
      · rw [if_pos hnil, if_pos hnil]
        exact hinsert ht
      · rw [if_neg hnil, if_neg hnil]
        cases hfind : Entries.find ht key with
        | none => exact hinsert ht
        | some u =>
          dsimp only
          rw [← ih u hnil, Option.map_map, Option.map_map]
          exact congrArg (fun f => (mergeValue L u path).map f)
            (funext fun o => writeMerged_below w ht key o)
    cases v with
    | array ht => exact harray ht
    | null | bool | long | str =>
      have hempty := harray []
      simp only [mergeValue, place, Value.entries, Entries.find_nil, ite_self] at hempty ⊢
      exact hempty

end Merge

/-! ### Parameters and their values -/

/-- A parameter without arguments -/
def wrapParam (v : Value) : Value := .array [(valueKey, v), (argumentsKey, .array [])]

def wrapParams (q : Entries) : Entries := q.map fun e => (e.1, wrapParam e.2)

theorem find_wrapParams (q : Entries) (key : ArrayKey) :
    Entries.find (wrapParams q) key = (Entries.find q key).map wrapParam := by
  induction q with
  | nil => rfl
  | cons e q ih =>
    have hcons : wrapParams (e :: q) = (e.1, wrapParam e.2) :: wrapParams q := rfl
    rw [hcons, Entries.find_cons, Entries.find_cons, ih]
    split_ifs <;> rfl

theorem update_wrapParams (q : Entries) (key : ArrayKey) (v : Value) :
    Entries.update (wrapParams q) key (wrapParam v) = wrapParams (Entries.update q key v) := by
  induction q with
  | nil => rfl
  | cons e q ih =>
    have hcons : wrapParams (e :: q) = (e.1, wrapParam e.2) :: wrapParams q := rfl
    rw [hcons, Entries.update_cons, Entries.update_cons, ih]
    split_ifs <;> rfl

theorem applyQuerystring_wrapParams (q : Entries) :
    (wrapParams q).map (fun e => (e.1, applyQuerystring e.2)) = q := by
  rw [wrapParams, List.map_map]
  exact List.map_id'' (fun _ => rfl) q

theorem find_valueKey (v : Value) (more : Entries) :
    Entries.find ((valueKey, v) :: more) valueKey = some v := by
  rw [Entries.find_cons, if_pos rfl]

section Push
variable {L : ParamsLib} {q : Entries} {val args : Option Path}

/-- Write into the value of a parameter. -/
theorem write_wrapParams {key : ArrayKey} {v : Value} (h : Entries.find q key = some v)
    (path : Path) (w : Value) :
    ParamsState.write ⟨wrapParams q, val, args, false⟩ (key :: valueKey :: path) w =
      ⟨wrapParams (Entries.update q key (v.set path w)), val, args, false⟩ := by
  have hfind : Entries.find (wrapParams q) key = some (wrapParam v) := by
    rw [find_wrapParams, h, Option.map_some]
  have hset : (wrapParam v).set (valueKey :: path) w = wrapParam (v.set path w) := by
    rw [wrapParam, set_found (find_valueKey v _)]
    simp [Entries.update_cons, wrapParam]
  rw [ParamsState.write, set_found hfind, hset, update_wrapParams]

theorem pushParam_leaf (x : QueryPair) {key : ArrayKey} {v : Value}
    (h : Entries.find q key = some v) (path : Path) :
    pushParam L (queryOpts [ampersand]) (.val false) x.taken
      ⟨wrapParams q, some (key :: valueKey :: path), args, false⟩ =
    .ok ⟨wrapParams (Entries.update q key (v.set path x.stored)),
      some (key :: valueKey :: path), args, false⟩ := by
  have hvalue : sanitizeValue L (queryOpts [ampersand]).flags x.taken false = .ok x.stored :=
    x.sanitizeValue
  unfold pushParam
  dsimp only
  by_cases hne : x.taken = []
  · have hstored : x.stored = .str [] := by
      rw [QueryPair.stored, hne]
      rfl
    rw [if_neg (not_not.mpr hne), ok_bind, write_wrapParams h, hstored]
  · rw [if_pos hne, hvalue, ok_bind, write_wrapParams h]

/-- A name without keys is a new parameter. -/
theorem pushParam_plainName {x : QueryPair} {name : Bytes} (hname : x.IsWritten name)
    (hkeys : x.keys = []) (hnest : x.keys.length ≤ L.maxNesting) :
    pushParam L (queryOpts [ampersand]) .param name ⟨wrapParams q, val, args, false⟩ =
      .ok ⟨wrapParams (Entries.update q x.name.key (.bool true)), some [x.name.key, valueKey],
        some [x.name.key, argumentsKey], false⟩ := by
  have hkey : sanitizeKey L (queryOpts [ampersand]).flags name = _ := hname.sanitizeKey hnest
  rw [if_pos hkeys] at hkey
  have hflags : ¬ (queryOpts [ampersand]).flags.rfc5988 = true := by decide
  have hupdate := update_wrapParams q x.name.key (.bool true)
  unfold pushParam
  dsimp only
  rw [if_neg hname.ne, if_neg hflags, hkey, ok_bind]
  dsimp only
  rw [if_neg (urlDecode_ne x.name.ne), ← hupdate]
  rfl

/-- A name with keys is merged. -/
theorem pushParam_keys {x : QueryPair} {name : Bytes} (hname : x.IsWritten name)
    (hkeys : x.keys ≠ []) (hnest : x.keys.length ≤ L.maxNesting) :
    pushParam L (queryOpts [ampersand]) .param name ⟨wrapParams q, val, args, false⟩ =
      mergeParam L ⟨wrapParams q, val, args, false⟩ x.name.key (x.keys.map QueryName.key) := by
  have hkey : sanitizeKey L (queryOpts [ampersand]).flags name = _ := hname.sanitizeKey hnest
  rw [if_neg hkeys] at hkey
  have hflags : ¬ (queryOpts [ampersand]).flags.rfc5988 = true := by decide
  unfold pushParam
  dsimp only
  rw [if_neg hname.ne, if_neg hflags, hkey, ok_bind]

theorem mergeParam_new {key : ArrayKey} (h : Entries.find q key = none) (path : Path) :
    mergeParam L ⟨wrapParams q, val, args, false⟩ key path =
      .ok ⟨wrapParams (Entries.update q key (nested path)), some (key :: valueKey :: path),
        some [key, argumentsKey], false⟩ := by
  have hfind : Entries.find (wrapParams q) key = none := by rw [find_wrapParams, h, Option.map_none]
  unfold mergeParam
  dsimp only
  rw [hfind, ← update_wrapParams]
  rfl

theorem mergeParam_found {key : ArrayKey} {v : Value} (h : Entries.find q key = some v)
    (path : Path) :
    mergeParam L ⟨wrapParams q, val, args, false⟩ key path = match mergeValue L v path with
      | none => .error .pointer
      | some o => .ok ⟨wrapParams (Entries.update q key o.1),
          some (key :: valueKey :: o.2 ++ (o.1.get o.2).elim [] Value.firstPath), args, false⟩ := by
  have hfind : Entries.find (wrapParams q) key = some (wrapParam v) := by
    rw [find_wrapParams, h, Option.map_some]
  unfold mergeParam
  dsimp only
  rw [hfind, wrapParam]
  dsimp only
  rw [find_valueKey, Option.bind_some]
  cases mergeValue L v path with
  | none => rfl
  | some o =>
    have hvalue : Entries.update [(valueKey, v), (argumentsKey, .array [])] valueKey o.1 =
        [(valueKey, o.1), (argumentsKey, .array [])] := by
      simp [Entries.update_cons]
    dsimp only
    rw [← update_wrapParams, wrapParam, ← hvalue]

/-- Both slices of a pair -/
def pushPair (L : ParamsLib) (x : QueryPair) (name : Bytes) (st : ParamsState) :
    Except ParamsFault ParamsState :=
  pushParam L (queryOpts [ampersand]) .param name st >>=
    pushParam L (queryOpts [ampersand]) (.val false) x.taken

/-- A pair is written as `placeParam` writes it. -/
theorem pushPair_eq (q : Entries) (val args : Option Path) {x : QueryPair} {name : Bytes}
    (hname : x.IsWritten name) (hnest : x.keys.length ≤ L.maxNesting) :
    (placeParam L.nextBelow q x.name.key (x.keys.map QueryName.key) x.stored = none ∧
      pushPair L x name ⟨wrapParams q, val, args, false⟩ = .error .pointer) ∨
    ∃ q' val' args',
      placeParam L.nextBelow q x.name.key (x.keys.map QueryName.key) x.stored = some q' ∧
      pushPair L x name ⟨wrapParams q, val, args, false⟩ =
        .ok ⟨wrapParams q', val', args', false⟩ := by
  unfold pushPair placeParam
  by_cases hkeys : x.keys = []
  · have hfind := Entries.find_update_self q x.name.key (.bool true)
    refine .inr ⟨_, some [x.name.key, valueKey], some [x.name.key, argumentsKey],
      if_pos (by rw [hkeys, List.map_nil]), ?_⟩
    rw [pushParam_plainName hname hkeys hnest, ok_bind, pushParam_leaf x hfind [],
      Entries.update_update]
    rfl
  · have hpath : x.keys.map QueryName.key ≠ [] := by simpa using hkeys
    rw [pushParam_keys hname hkeys hnest, if_neg hpath]
    cases hfind : Entries.find q x.name.key with
    | none =>
      have hnew := Entries.find_update_self q x.name.key (nested (x.keys.map QueryName.key))
      refine .inr ⟨_, some (x.name.key :: valueKey :: x.keys.map QueryName.key),
        some [x.name.key, argumentsKey], rfl, ?_⟩
      rw [mergeParam_new hfind, ok_bind, pushParam_leaf x hnew, Entries.update_update, set_nested]
    | some v =>
      dsimp only
      rw [mergeParam_found hfind, ← mergeValue_place v hpath]
      cases hmerge : mergeValue L v (x.keys.map QueryName.key) with
      | none => exact .inl ⟨rfl, rfl⟩
      | some o =>
        have hnew := Entries.find_update_self q x.name.key o.1
        refine .inr ⟨_, some (x.name.key :: valueKey ::
          (o.2 ++ (o.1.get o.2).elim [] Value.firstPath)), args, rfl, ?_⟩
        dsimp only
        rw [ok_bind, List.cons_append, List.cons_append, pushParam_leaf x hnew,
          Entries.update_update]
        rfl

end Push

/-! ### All pairs -/

/-- One pair after the other -/
def placePairs (below : Bool) (pairs : List QueryPair) (q : Entries) : Option Entries :=
  pairs.foldlM (fun q x => placeParam below q x.name.key (x.keys.map QueryName.key) x.stored) q

theorem placePairs_cons (below : Bool) (x : QueryPair) (pairs : List QueryPair) (q : Entries) :
    placePairs below (x :: pairs) q =
      (placeParam below q x.name.key (x.keys.map QueryName.key) x.stored).bind
        (placePairs below pairs) := rfl

/-- The text of pairs whose names are written in some way. -/
def writtenText (ws : List (QueryPair × Bytes)) : Bytes :=
  joinPairs (ws.map fun w => (w.2, w.1.value))

theorem foldlM_pairs {L : ParamsLib} {ws : List (QueryPair × Bytes)}
    (hnames : ∀ w ∈ ws, w.1.IsWritten w.2) (hnest : ∀ w ∈ ws, w.1.keys.length ≤ L.maxNesting)
    (q : Entries) (val args : Option Path) :
    ((joinedSlices (ws.map fun w => (w.2, w.1.value))).foldlM
      (fun st slice => pushParam L (queryOpts [ampersand]) slice.1 slice.2 st)
      ⟨wrapParams q, val, args, false⟩).map ParamsState.params =
    (placePairs L.nextBelow (ws.map Prod.fst) q).elim (.error .pointer)
      fun q => .ok (wrapParams q) := by
  induction ws generalizing q val args with
  | nil => rfl
  | cons w ws ih =>
    rw [List.forall_mem_cons] at hnames hnest
    have hfold : (joinedSlices ((w :: ws).map fun w => (w.2, w.1.value))).foldlM
        (fun st slice => pushParam L (queryOpts [ampersand]) slice.1 slice.2 st)
          ⟨wrapParams q, val, args, false⟩ =
        pushPair L w.1 w.2 ⟨wrapParams q, val, args, false⟩ >>=
          (joinedSlices (ws.map fun w => (w.2, w.1.value))).foldlM
            fun st slice => pushParam L (queryOpts [ampersand]) slice.1 slice.2 st := by
      have hslices : joinedSlices ((w :: ws).map fun w => (w.2, w.1.value)) =
          (.param, w.2) :: (.val false, w.1.taken) ::
            joinedSlices (ws.map fun w => (w.2, w.1.value)) := rfl
      rw [hslices, List.foldlM_cons, pushPair, bind_assoc]
      rfl
    rw [hfold, List.map_cons, placePairs_cons]
    rcases pushPair_eq q val args hnames.1 hnest.1 with
      ⟨hplace, hpush⟩ | ⟨q', val', args', hplace, hpush⟩
    · rw [hplace, hpush]
      rfl
    · rw [hplace, hpush, ok_bind]
      exact ih hnames.2 hnest.2 q' val' args'

/-- The array of a query string is that of its pairs, placed one after the other. -/
theorem querystringParse_written {L : ParamsLib} {ws : List (QueryPair × Bytes)}
    (hnames : ∀ w ∈ ws, w.1.IsWritten w.2) (hclosed : ∀ w ∈ ws.dropLast, QuotesClosed w.1.value)
    (hnest : ∀ w ∈ ws, w.1.keys.length ≤ L.maxNesting) :
    querystringParse L [ampersand] [] (writtenText ws) =
      (placePairs L.nextBelow (ws.map Prod.fst) []).elim (.error .pointer) .ok := by
  cases ws with
  | nil =>
    rw [querystringParse, writtenText, paramsParse, paramsLoop_end rfl]
    rfl
  | cons w ws =>
    have hfold := foldlM_pairs hnames hnest [] none none
    have hslices : paramsSlices (queryOpts [ampersand]) (.init (writtenText (w :: ws))) =
        joinedSlices ((w :: ws).map fun w => (w.2, w.1.value)) := by
      refine paramsSlices_joinPairs (List.cons_ne_nil _ _) (fun kv hkv => ?_) (fun kv hkv => ?_) ?_
      · obtain ⟨x, hx, rfl⟩ := List.mem_map.mp hkv
        exact (hnames x hx).toIsNameText
      · obtain ⟨x, -, rfl⟩ := List.mem_map.mp hkv
        exact x.1.plain
      · rw [← List.map_dropLast]
        exact List.forall_mem_map.mpr hclosed
    rw [querystringParse, paramsParse, paramsLoop_eq, hslices]
    refine (congrArg _ hfold).trans ?_
    cases placePairs L.nextBelow ((w :: ws).map Prod.fst) [] with
    | none => rfl
    | some q => exact congrArg Except.ok (applyQuerystring_wrapParams q)

/-- A name is written as it is. -/
theorem querystringParse_pairs {L : ParamsLib} {pairs : List QueryPair}
    (hnames : ∀ x ∈ pairs, QuotesClosed x.key ∧ phpTrim isTrimmed x.key = x.key)
    (hclosed : ∀ x ∈ pairs.dropLast, QuotesClosed x.value)
    (hnest : ∀ x ∈ pairs, x.keys.length ≤ L.maxNesting) :
    querystringParse L [ampersand] [] (queryText pairs) =
      (placePairs L.nextBelow pairs []).elim (.error .pointer) .ok := by
  have hwritten : ∀ w ∈ pairs.map fun x => (x, x.key), w.1.IsWritten w.2 :=
    List.forall_mem_map.mpr fun x hx => ⟨⟨x.key_ne, x.key_plain, (hnames x hx).1⟩,
      (hnames x hx).2, rfl⟩
  have htext : writtenText (pairs.map fun x => (x, x.key)) = queryText pairs := by
    rw [writtenText, List.map_map]
    rfl
  have hpairs : (pairs.map fun x => (x, x.key)).map Prod.fst = pairs := by
    rw [List.map_map]
    exact List.map_id _
  have hdrop : ∀ w ∈ (pairs.map fun x => (x, x.key)).dropLast, QuotesClosed w.1.value := by
    rw [← List.map_dropLast]
    exact List.forall_mem_map.mpr hclosed
  have hparse := querystringParse_written (L := L) hwritten hdrop (List.forall_mem_map.mpr hnest)
  rw [htext, hpairs] at hparse
  exact hparse

end ExtHttp
