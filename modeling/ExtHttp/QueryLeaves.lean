import ExtHttp.QueryMerge

/-!
# The leaves of a query string

Bracketed keys address leaves, whatever the order of the pairs, but for the index 0: as the key of a
leaf it stands for the next index, and so it does where no array is at the index 0.
-/
namespace ExtHttp

/-- The value of the last pair with a path. -/
def lastValue (pairs : List QueryPair) (path : Path) : Option Value :=
  ((pairs.filter fun x => x.path = path).getLast?).map QueryPair.leaf

/-- The same pairs, and those with the same path in the same order. -/
def Reorders (pairs order : List QueryPair) : Prop :=
  ∀ path, order.filter (fun x => x.path = path) = pairs.filter fun x => x.path = path

/-- In every order of the pairs the leaves are the last values of their paths. -/
def AddressesLeaves (L : ParamsLib) (pairs : List QueryPair) : Prop :=
  ∀ order, Reorders pairs order → ∃ q, querystringParse L [ampersand] [] (queryText order) = .ok q ∧
    ∀ path, (Value.array q).leafAt path = lastValue pairs path

/-- The parser finds the names and the values where they are written. -/
structure Scanned (pairs : List QueryPair) : Prop where
  names : ∀ x ∈ pairs, QuotesClosed x.key ∧ phpTrim isTrimmed x.key = x.key
  values : ∀ order, Reorders pairs order → ∀ x ∈ order.dropLast, QuotesClosed x.value

/-- The last values of the paths are taken as they are. -/
def ValuesKept (pairs : List QueryPair) : Prop :=
  ∀ y ∈ pairs, ∀ x ∈ (pairs.filter fun z => z.path = y.path).getLast?, x.Kept

/-- Behind a name the index 0 is not together with indices that move the next one, and no leaf with
it is given twice. -/
structure ZeroAlone (below : Bool) (pairs : List QueryPair) : Prop where
  apart : ∀ x ∈ pairs, ∀ y ∈ pairs, ∀ (p r s : Path) (k : ℤ), p ≠ [] → x.path = p ++ .long 0 :: r →
    y.path = p ++ .long k :: s → k ≤ 0 ∧ (below = true → -1 ≤ k)
  once : ∀ p : Path, p ≠ [] → (pairs.filter fun x => x.path = p ++ [.long 0]).length ≤ 1

theorem Reorders.mem {pairs order : List QueryPair} (h : Reorders pairs order) {x : QueryPair} :
    x ∈ order ↔ x ∈ pairs := by
  have hfilter : ∀ l : List QueryPair, x ∈ l ↔ x ∈ l.filter fun y => y.path = x.path := by simp
  rw [hfilter, h, ← hfilter]

theorem Reorders.trans {pairs order order' : List QueryPair} (h : Reorders pairs order)
    (h' : Reorders order order') : Reorders pairs order' := fun path => (h' path).trans (h path)

theorem Scanned.reorder {pairs order : List QueryPair} (h : Scanned pairs)
    (horder : Reorders pairs order) : Scanned order where
  names x hx := h.names x (horder.mem.mp hx)
  values order' horder' := h.values order' (horder.trans horder')

/-- The array of a query string is that of its pairs. -/
theorem Scanned.parse {L : ParamsLib} {pairs : List QueryPair} (h : Scanned pairs)
    (hnest : ∀ x ∈ pairs, x.keys.length ≤ L.maxNesting) :
    querystringParse L [ampersand] [] (queryText pairs) =
      (placePairs L.nextBelow pairs []).elim (.error .pointer) .ok :=
  querystringParse_pairs h.names (h.values pairs fun _ => rfl) hnest

/-! ### Where there is room for the index 0 -/

theorem nonzero_eq_false {key : ArrayKey} : key.nonzero = false ↔ key = .long 0 := by
  cases key <;> simp [ArrayKey.nonzero]

section Place
variable {below : Bool} {v u : Value} {key : ArrayKey} {path : Path}

/-- Where the path has an index 0 that is to be inserted, it is the next one. -/
def HasRoom (below : Bool) (v : Value) (path : Path) : Prop :=
  ∀ p r u, path = p ++ .long 0 :: r → v.get p = some u →
    (r = [] ∨ Entries.find u.entries (.long 0) = none) → Entries.nextIndex below u.entries = 0

theorem HasRoom.inside (h : HasRoom below v (key :: path))
    (hu : Entries.find v.entries key = some u) :
    HasRoom below u path := by
  intro p r w hpath hget
  refine h (key :: p) r w (by rw [hpath, List.cons_append]) ?_
  rw [Value.get_cons, hu, Option.bind_some, hget]

theorem place_put (h : HasRoom below v path) (w : Value) :
    place below v path w = some (v.put path w) := by
  induction path generalizing v with
  | nil => rfl
  | cons key path ih =>
    have hinsert : (path = [] ∨ Entries.find v.entries key = none) →
        (if key.nonzero then some (Value.array
          (Entries.update v.entries key (Value.put .null path w)))
          else (Entries.nextInsert below v.entries (Value.put .null path w)).map
            fun o => .array o.1) = some (v.put (key :: path) w) := by
      intro hins
      have hput : v.put (key :: path) w =
          .array (Entries.update v.entries key (Value.put .null path w)) := by
        rw [Value.put]
        rcases hins with rfl | hnone
        · rfl
        · rw [hnone, Option.getD_none]
      rw [hput]
      cases hkey : key.nonzero with
      | true => rfl
      | false =>
        obtain rfl := nonzero_eq_false.mp hkey
        have hzero := h [] path v rfl rfl hins
        have hnone := Entries.find_nextIndex below v.entries
        rw [hzero] at hnone
        rw [if_neg (by simp), Entries.nextInsert, hzero, if_pos (by decide),
          Entries.update_of_find_none hnone]
        rfl
    simp only [place]
    by_cases hnil : path = []
    · rw [if_pos hnil]
      exact hinsert (.inl hnil)
    · rw [if_neg hnil]
      cases hfind : Entries.find v.entries key with
      | none => exact hinsert (.inr hfind)
      | some u =>
        dsimp only
        rw [ih (h.inside hfind), Value.put, hfind, Option.getD_some]
        rfl

theorem placeParam_put {q : Entries} (h : ∀ v, Entries.find q key = some v → HasRoom below v path)
    (w : Value) : ∃ q', placeParam below q key path w = some q' ∧
      Value.array q' = (Value.array q).put (key :: path) w := by
  unfold placeParam
  by_cases hnil : path = []
  · rw [if_pos hnil, hnil]
    exact ⟨_, rfl, rfl⟩
  · rw [if_neg hnil, Value.put, Value.entries]
    cases hfind : Entries.find q key with
    | none => exact ⟨_, rfl, rfl⟩
    | some v =>
      dsimp only
      rw [place_put (h v hfind)]
      exact ⟨_, rfl, rfl⟩

end Place

/-! ### Pairs with the index 0 alone -/

/-- The writes of pairs -/
def QueryPair.write (x : QueryPair) : Path × Value := (x.path, x.stored)

section Roomy
variable {below : Bool} {pairs : List QueryPair}

theorem ZeroAlone.front {more : List QueryPair} (h : ZeroAlone below (pairs ++ more)) :
    ZeroAlone below pairs where
  apart x hx y hy := h.apart x (List.mem_append_left _ hx) y (List.mem_append_left _ hy)
  once p hp := by
    have hle := h.once p hp
    rw [List.filter_append, List.length_append] at hle
    omega

theorem ZeroAlone.reorder {order : List QueryPair} (h : ZeroAlone below pairs)
    (horder : Reorders pairs order) : ZeroAlone below order where
  apart x hx y hy := h.apart x (horder.mem.mp hx) y (horder.mem.mp hy)
  once p hp := by
    rw [horder]
    exact h.once p hp

theorem write_isArray {e : Path × Value} (he : e ∈ pairs.map QueryPair.write) :
    e.2.isArray = false := by
  obtain ⟨y, -, rfl⟩ := List.mem_map.mp he
  rfl

/-- What is found behind a name is on the way to a pair. -/
theorem mem_of_get_puts {p : Path} {v : Value} (hp : p ≠ [])
    (h : (puts (pairs.map QueryPair.write)).get p = some v) : ∃ y ∈ pairs, p <+: y.path := by
  obtain ⟨e, he, hpre⟩ := (get_puts (fun e he => write_isArray he) h).resolve_left hp
  obtain ⟨y, hy, rfl⟩ := List.mem_map.mp he
  exact ⟨y, hy, hpre⟩

/-- Behind other pairs there is room for a pair. -/
theorem ZeroAlone.roomy {x : QueryPair} (h : ZeroAlone below (pairs ++ [x]))
    (hfree : PathsFree ((pairs ++ [x]).map QueryPair.path)) {q : Entries}
    (hq : Value.array q = puts (pairs.map QueryPair.write)) {v : Value}
    (hv : Entries.find q x.name.key = some v) : HasRoom below v (x.keys.map QueryName.key) := by
  intro p r u hpath hget hins
  have hxpath : x.path = (x.name.key :: p) ++ .long 0 :: r := by
    rw [QueryPair.path, hpath, List.cons_append]
  refine Entries.nextIndex_eq_zero fun i hfound => ?_
  obtain ⟨w, hw⟩ := Option.ne_none_iff_exists'.mp hfound
  have hgetw : (puts (pairs.map QueryPair.write)).get ((x.name.key :: p) ++ [.long i]) =
      some w := by
    rw [← hq, Value.get_append, Value.get_cons, Value.entries, hv, Option.bind_some, hget,
      Option.bind_some, Value.get_cons, hw]
    rfl
  obtain ⟨y, hy, s, hs⟩ := mem_of_get_puts (by simp) hgetw
  have hypath : y.path = (x.name.key :: p) ++ .long i :: s := by
    rw [List.append_assoc] at hs
    exact hs.symm
  have hyin : y ∈ pairs ++ [x] := List.mem_append_left _ hy
  have hxin : x ∈ pairs ++ [x] := by simp
  obtain ⟨hle, hbelow⟩ := h.apart x hxin y hyin _ r s i (List.cons_ne_nil _ _) hxpath hypath
  refine ⟨lt_of_le_of_ne hle ?_, hbelow⟩
  rintro rfl
  have hr : r = [] := hins.resolve_right hfound
  subst hr
  -- the same leaf twice
  have hsame : x.path = y.path := by
    refine hfree _ (List.mem_map_of_mem hxin) _ (List.mem_map_of_mem hyin) ⟨s, ?_⟩
    rw [hxpath, hypath, List.append_assoc]
    rfl
  have honce := h.once (x.name.key :: p) (List.cons_ne_nil _ _)
  have hyfilter : y ∈ pairs.filter fun z => z.path = (x.name.key :: p) ++ [.long 0] := by
    rw [List.mem_filter]
    exact ⟨hy, by rw [← hsame, hxpath]; simp⟩
  have hone : ([x].filter fun z => z.path = (x.name.key :: p) ++ [.long 0]).length = 1 := by
    rw [List.filter_cons_of_pos (by rw [hxpath]; simp)]
    rfl
  have hpos := List.length_pos_of_mem hyfilter
  rw [List.filter_append, List.length_append] at honce
  omega

theorem placePairs_append (pairs more : List QueryPair) (q : Entries) :
    placePairs below (pairs ++ more) q =
      (placePairs below pairs q).bind (placePairs below more) := by
  rw [placePairs, List.foldlM_append]
  rfl

/-- Then the source writes what is to be written. -/
theorem placePairs_puts (h : ZeroAlone below pairs) (hfree : PathsFree (pairs.map QueryPair.path)) :
    ∃ q, placePairs below pairs [] = some q ∧
      Value.array q = puts (pairs.map QueryPair.write) := by
  induction pairs using List.reverseRecOn with
  | nil => exact ⟨[], rfl, rfl⟩
  | append_singleton pairs x ih =>
    have hmem : ∀ p ∈ pairs.map QueryPair.path, p ∈
        (pairs ++ [x]).map QueryPair.path := fun p hp => by
      rw [List.map_append]
      exact List.mem_append_left _ hp
    obtain ⟨q, hplace, hq⟩ := ih h.front fun p hp r hr => hfree p (hmem p hp) r (hmem r hr)
    obtain ⟨q', hplace', hq'⟩ := placeParam_put (fun v hv => h.roomy hfree hq hv) x.stored
    refine ⟨q', ?_, ?_⟩
    · rw [placePairs_append, hplace, Option.bind_some, placePairs_cons, hplace']
      rfl
    · rw [hq', hq, List.map_append, List.map_singleton, puts_concat]
      rfl

/-- The value that is stored last with a path. -/
def lastStored (pairs : List QueryPair) (path : Path) : Option Value :=
  ((pairs.filter fun x => x.path = path).getLast?).map QueryPair.stored

theorem lastPut_write (pairs : List QueryPair) (path : Path) :
    lastPut (pairs.map QueryPair.write) path = lastStored pairs path := by
  rw [lastPut, lastStored, List.filter_map, List.getLast?_map, Option.map_map]
  rfl

theorem placePairs_leaves (h : ZeroAlone below pairs)
    (hfree : PathsFree (pairs.map QueryPair.path)) :
    ∃ q, placePairs below pairs [] = some q ∧
      ∀ path, (Value.array q).leafAt path = lastStored pairs path := by
  obtain ⟨q, hplace, hq⟩ := placePairs_puts h hfree
  have hpaths : (pairs.map QueryPair.write).map Prod.fst = pairs.map QueryPair.path := by
    rw [List.map_map]
    rfl
  refine ⟨q, hplace, fun path => ?_⟩
  rw [hq, leafAt_puts (fun e he => write_isArray he) (hpaths ▸ hfree), lastPut_write]

/-- Whether the last values are stored. -/
theorem lastStored_eq_iff : (∀ path, lastStored pairs path = lastValue pairs path) ↔
    ValuesKept pairs := by
  constructor
  · intro h y _ x hlast
    have hpath := h y.path
    rw [lastStored, lastValue, Option.mem_def.mp hlast] at hpath
    exact x.stored_eq_leaf.mp (Option.some.inj hpath)
  · intro h path
    rw [lastStored, lastValue]
    cases hlast : (pairs.filter fun x => x.path = path).getLast? with
    | none => rfl
    | some x =>
      obtain ⟨hx, hpath⟩ := List.mem_filter.mp (List.mem_of_getLast? hlast)
      rw [← of_decide_eq_true hpath] at hlast
      exact congrArg some (x.stored_eq_leaf.mpr (h x hx x hlast))

end Roomy

/-! ### Where there is no room -/

section Places
variable {below : Bool}

theorem place_cases {v v' w : Value} {key : ArrayKey} {path : Path}
    (h : place below v (key :: path) w = some v') :
    (key = .long 0 ∧ (path = [] ∨ Entries.find v.entries key = none) ∧ v' = .array (v.entries ++
      [(.long (Entries.nextIndex below v.entries), Value.put .null path w)])) ∨
    ∃ u, v' = .array (Entries.update v.entries key u) ∧
      (key ≠ .long 0 ∨ path ≠ [] ∧ Entries.find v.entries key ≠ none) ∧
      ∀ u', Entries.find v.entries key = some u' → path = [] ∨ place below u' path w = some u := by
  have hinsert : (path = [] ∨ Entries.find v.entries key = none) →
      (if key.nonzero then some (Value.array
        (Entries.update v.entries key (Value.put .null path w)))
        else (Entries.nextInsert below v.entries (Value.put .null path w)).map fun o =>
          .array o.1) = some v' →
      (key = .long 0 ∧ (path = [] ∨ Entries.find v.entries key = none) ∧ v' = .array (v.entries ++
        [(.long (Entries.nextIndex below v.entries), Value.put .null path w)])) ∨
      ∃ u, v' = .array (Entries.update v.entries key u) ∧
        (key ≠ .long 0 ∨ path ≠ [] ∧ Entries.find v.entries key ≠ none) ∧
        ∀ u', Entries.find v.entries key = some u' → path = [] ∨
          place below u' path w = some u := by
    intro hins hif
    cases hkey : key.nonzero with
    | true =>
      rw [hkey, if_pos rfl] at hif
      refine .inr ⟨_, (Option.some.inj hif).symm, .inl ?_, fun u' hu' => ?_⟩
      · rintro rfl
        cases hkey
      · exact .inl (hins.resolve_right (by simp [hu']))
    | false =>
      rw [hkey, if_neg (by simp), Entries.nextInsert] at hif
      split_ifs at hif with hlt
      · exact .inl ⟨nonzero_eq_false.mp hkey, hins, (Option.some.inj hif).symm⟩
      · cases hif
  simp only [place] at h
  by_cases hnil : path = []
  · rw [if_pos hnil] at h
    exact hinsert (.inl hnil) h
  · rw [if_neg hnil] at h
    cases hfind : Entries.find v.entries key with
    | none =>
      rw [hfind] at h hinsert
      exact hinsert (.inr rfl) h
    | some u =>
      rw [hfind] at h
      obtain ⟨u', hplace, rfl⟩ := Option.map_eq_some_iff.mp h
      refine .inr ⟨u', rfl, .inr ⟨hnil, by simp⟩, fun u'' hu'' => .inr ?_⟩
      obtain rfl := Option.some.inj hu''
      exact hplace

/-- What becomes of the array at a path when something is placed: it stays, unless the other path
goes on behind it. -/
def PlacedAt (below : Bool) (p path : Path) (w : Value) (ht ht' : Entries) : Prop :=
  (∀ key rest, path = p ++ key :: rest → place below (.array ht) (key :: rest) w =
    some (.array ht')) ∧
  ((∀ key rest, path ≠ p ++ key :: rest) → ht' = ht)

theorem PlacedAt.same {p path : Path} (w : Value) (ht : Entries)
    (h : ∀ key rest, path ≠ p ++ key :: rest) :
    PlacedAt below p path w ht ht := ⟨fun key rest hpath => absurd hpath (h key rest), fun _ => rfl⟩

theorem place_at {v v' w : Value} {path p : Path} {ht : Entries}
    (hplace : place below v path w = some v') (hget : v.get p = some (.array ht))
    (hnot : ¬ path <+: p) :
    ∃ ht', v'.get p = some (.array ht') ∧ PlacedAt below p path w ht ht' := by
  have hcons : ∃ key rest, path = key :: rest := List.exists_cons_of_ne_nil fun h => by
    rw [h] at hnot
    exact hnot List.nil_prefix
  induction p generalizing v v' path with
  | nil =>
    obtain rfl : v = .array ht := Option.some.inj hget
    obtain ⟨key, path, rfl⟩ := hcons
    obtain ⟨ht', rfl⟩ : ∃ ht', v' = .array ht' := by
      obtain ⟨-, -, h⟩ | ⟨u, h, -⟩ := place_cases hplace <;> exact ⟨_, h⟩
    refine ⟨ht', rfl, fun k rest hpath => ?_, fun h => absurd rfl (h key path)⟩
    rw [List.nil_append] at hpath
    exact hpath ▸ hplace
  | cons a p ih =>
    obtain ⟨key, path, rfl⟩ := hcons
    rw [Value.get_cons] at hget
    obtain ⟨u, hu, hgetu⟩ := Option.bind_eq_some_iff.mp hget
    obtain ⟨-, hins, rfl⟩ | ⟨u', rfl, -, hfound⟩ := place_cases hplace
    · refine ⟨ht, ?_, PlacedAt.same w ht fun k rest hpath => ?_⟩
      · rw [Value.get_cons, Value.entries, Entries.find_append, hu, Option.some_or,
          Option.bind_some, hgetu]
      · obtain ⟨rfl, rfl⟩ := List.cons.inj hpath
        rcases hins with hnil | hnone
        · simp at hnil
        · rw [hu] at hnone
          cases hnone
    · by_cases ha : key = a
      · subst ha
        have hnil : path ≠ [] := by
          rintro rfl
          exact hnot ⟨p, rfl⟩
        obtain ⟨ht', hget', hthere, hother⟩ := ih ((hfound u hu).resolve_left hnil) hgetu
          (fun hpre => hnot (List.cons_prefix_cons.mpr ⟨rfl, hpre⟩))
            (List.exists_cons_of_ne_nil hnil)
        refine ⟨ht', ?_, fun k rest hpath => hthere k rest (List.cons.inj hpath).2,
          fun h => hother fun k rest hpath => h k rest (by rw [hpath]; rfl)⟩
        rw [Value.get_cons, Value.entries, Entries.find_update_self, Option.bind_some, hget']
      · refine ⟨ht, ?_, PlacedAt.same w ht fun k rest hpath => ha (List.cons.inj hpath).1⟩
        rw [Value.get_cons, Value.entries, Entries.find_update_ne _ ha, hu, Option.bind_some, hgetu]

theorem placeParam_at {q q' : Entries} {w : Value} {key : ArrayKey} {path p : Path} {ht : Entries}
    (hplace : placeParam below q key path w = some q') (hp : p ≠ [])
    (hget : (Value.array q).get p = some (.array ht)) (hnot : ¬ key :: path <+: p) :
    ∃ ht', (Value.array q').get p = some (.array ht') ∧
      PlacedAt below p (key :: path) w ht ht' := by
  obtain ⟨a, p, rfl⟩ := List.exists_cons_of_ne_nil hp
  rw [Value.get_cons] at hget
  obtain ⟨u, hu, hgetu⟩ := Option.bind_eq_some_iff.mp hget
  rw [Value.entries] at hu
  unfold placeParam at hplace
  by_cases ha : key = a
  · subst ha
    have hnil : path ≠ [] := by
      rintro rfl
      exact hnot ⟨p, rfl⟩
    rw [if_neg hnil, hu] at hplace
    obtain ⟨u', hplaceu, rfl⟩ := Option.map_eq_some_iff.mp hplace
    obtain ⟨ht', hget', hthere, hother⟩ := place_at hplaceu hgetu fun hpre =>
      hnot (List.cons_prefix_cons.mpr ⟨rfl, hpre⟩)
    refine ⟨ht', ?_, fun k rest hpath => hthere k rest (List.cons.inj hpath).2,
      fun h => hother fun k rest hpath => h k rest (by rw [hpath]; rfl)⟩
    rw [Value.get_cons, Value.entries, Entries.find_update_self, Option.bind_some, hget']
  · obtain ⟨u', rfl⟩ : ∃ u', q' = Entries.update q key u' := by
      split_ifs at hplace with hnil
      · exact ⟨_, (Option.some.inj hplace).symm⟩
      · split at hplace
        · exact ⟨_, (Option.some.inj hplace).symm⟩
        · obtain ⟨u', -, h⟩ := Option.map_eq_some_iff.mp hplace
          exact ⟨u', h.symm⟩
    refine ⟨ht, ?_, PlacedAt.same w ht fun k rest hpath => ha (List.cons.inj hpath).1⟩
    rw [Value.get_cons, Value.entries, Entries.find_update_ne _ ha, hu, Option.bind_some, hgetu]

/-- What a write behind the path keeps is kept by all pairs. -/
theorem placePairs_keep {I : Entries → Prop} {p : Path} (hp : p ≠ []) {pairs : List QueryPair}
    (hnot : ∀ x ∈ pairs, ¬ x.path <+: p)
    (hkeep : ∀ x ∈ pairs, ∀ key rest ht ht', x.path = p ++ key :: rest → I ht →
      place below (.array ht) (key :: rest) x.stored = some (.array ht') → I ht')
    {q q' : Entries} (hplace : placePairs below pairs q = some q') {ht : Entries}
    (hget : (Value.array q).get p = some (.array ht)) (hI : I ht) :
    ∃ ht', (Value.array q').get p = some (.array ht') ∧ I ht' := by
  induction pairs generalizing q ht with
  | nil =>
    obtain rfl := Option.some.inj hplace
    exact ⟨ht, hget, hI⟩
  | cons x pairs ih =>
    rw [placePairs_cons] at hplace
    obtain ⟨q₁, hone, hrest⟩ := Option.bind_eq_some_iff.mp hplace
    obtain ⟨ht₁, hget₁, hthere, hother⟩ := placeParam_at hone hp hget (hnot x List.mem_cons_self)
    refine ih (fun y hy => hnot y (List.mem_cons_of_mem _ hy))
      (fun y hy => hkeep y (List.mem_cons_of_mem _ hy)) hrest hget₁ ?_
    by_cases h : ∃ key rest, x.path = p ++ key :: rest
    · obtain ⟨key, rest, hpath⟩ := h
      exact hkeep x List.mem_cons_self key rest ht ht₁ hpath hI (hthere key rest hpath)
    · rw [hother fun key rest hpath => h ⟨key, rest, hpath⟩]
      exact hI

end Places

/-! ### What goes wrong -/

/-- No index 0, and none will come. -/
def Blocked (ht : Entries) : Prop :=
  Entries.find ht (.long 0) = none ∧ ∃ i : ℤ, 0 < i ∧ Entries.find ht (.long i) ≠ none

/-- A leaf has got an index that is not its own. -/
def Spilled (ht : Entries) : Prop := ∃ i : ℤ, 0 < i ∧ ∃ s, Entries.find ht (.long i) = some (.str s)

/-- There is one index. -/
def OneIndex (k : ℤ) (ht : Entries) : Prop := ∀ i : ℤ, Entries.find ht (.long i) ≠ none ↔ i = k

section Steps
variable {below : Bool} {ht ht' : Entries} {key : ArrayKey} {rest : Path} {w : Value}

theorem find_concat_next (ht : Entries) (v : Value) (key : ArrayKey) :
    Entries.find (ht ++ [(.long (Entries.nextIndex below ht), v)]) key =
      (Entries.find ht key).or (if .long (Entries.nextIndex below ht) = key then some v
        else none) := by
  rw [Entries.find_append, Entries.find_cons, Entries.find_nil]

theorem Blocked.place (h : Blocked ht)
    (hplace : ExtHttp.place below (.array ht) (key :: rest) w = some (.array ht')) :
    Blocked ht' := by
  obtain ⟨hzero, i, hi, hfound⟩ := h
  obtain ⟨-, -, hht⟩ | ⟨u, hht, hkey, -⟩ := place_cases hplace
  · obtain rfl := Value.array.inj hht
    have hlt := @Entries.lt_nextIndex _ below _ hfound
    rw [Value.entries]
    refine ⟨?_, i, hi, ?_⟩
    · rw [find_concat_next, hzero, Option.none_or, if_neg]
      intro h
      have := ArrayKey.long.inj h
      omega
    · rw [find_concat_next, Option.or_of_isSome (Option.isSome_iff_ne_none.mpr hfound)]
      exact hfound
  · obtain rfl := Value.array.inj hht
    rw [Value.entries] at hkey ⊢
    refine ⟨?_, i, hi, ?_⟩
    · rw [Entries.find_update_ne _ _, hzero]
      rcases hkey with hkey | ⟨-, hkey⟩
      · exact hkey
      · rintro rfl
        exact hkey hzero
    · rw [Entries.find_update]
      split_ifs
      · simp
      · exact hfound

theorem Spilled.place (h : Spilled ht) (hkey : ∀ i : ℤ, 0 < i → key ≠ .long i)
    (hplace : ExtHttp.place below (.array ht) (key :: rest) w = some (.array ht')) :
    Spilled ht' := by
  obtain ⟨i, hi, s, hfound⟩ := h
  refine ⟨i, hi, s, ?_⟩
  obtain ⟨-, -, hht⟩ | ⟨u, hht, -, -⟩ := place_cases hplace
  · obtain rfl := Value.array.inj hht
    rw [Value.entries, find_concat_next, hfound, Option.some_or]
  · obtain rfl := Value.array.inj hht
    rw [Value.entries, Entries.find_update_ne _ (hkey i hi), hfound]

/-- The leaf with the index 0 once more: it gets the next index. -/
theorem Spilled.of_zero (hzero : Entries.find ht (.long 0) ≠ none) {s : Bytes}
    (hplace : ExtHttp.place below (.array ht) [.long 0] (.str s) = some (.array ht')) :
    Spilled ht' := by
  obtain ⟨-, -, hht⟩ | ⟨u, -, hkey, -⟩ := place_cases hplace
  · obtain rfl := Value.array.inj hht
    refine ⟨Entries.nextIndex below ht, Entries.lt_nextIndex hzero, s, ?_⟩
    rw [Value.entries, find_concat_next, Entries.find_nextIndex, Option.none_or, if_pos rfl]
    rfl
  · rcases hkey with hkey | ⟨hkey, -⟩ <;> exact absurd rfl hkey

theorem place_nonzero (hkey : key ≠ .long 0)
    (hplace : place below (.array ht) (key :: rest) w = some (.array ht')) :
    ∃ u, ht' = Entries.update ht key u := by
  obtain ⟨hzero, -, -⟩ | ⟨u, hht, -, -⟩ := place_cases hplace
  · exact absurd hzero hkey
  · exact ⟨u, Value.array.inj hht⟩

theorem OneIndex.place {k : ℤ} (h : OneIndex k ht) (hk : k ≠ 0)
    (hplace : ExtHttp.place below (.array ht) (.long k :: rest) w = some (.array ht')) :
    OneIndex k ht' := by
  obtain ⟨u, rfl⟩ := place_nonzero (fun hkey => hk (ArrayKey.long.inj hkey)) hplace
  intro i
  rw [Entries.find_update]
  split_ifs with hi
  · simp [ArrayKey.long.inj hi]
  · exact h i

/-- The leaf with the index 0 behind one below -1. -/
theorem OneIndex.of_zero {k : ℤ} (h : OneIndex k ht) (hk : k < -1)
    (hplace : ExtHttp.place true (.array ht) [.long 0] w = some (.array ht')) :
    Entries.find ht' (.long 0) = none := by
  have hgreatest : Entries.greatestIndex ht = some k :=
    Entries.greatestIndex_eq_some.mpr ⟨(h k).mpr rfl, fun i hi => ((h i).mp hi).le⟩
  have hnext : Entries.nextIndex true ht = k + 1 := by rw [Entries.nextIndex, hgreatest]; rfl
  have hnone : Entries.find ht (.long 0) = none := by
    by_contra hzero
    have := (h 0).mp hzero
    omega
  obtain ⟨-, -, hht⟩ | ⟨u, -, hkey, -⟩ := place_cases hplace
  · obtain rfl := Value.array.inj hht
    rw [Value.entries, find_concat_next, hnone, Option.none_or, hnext, if_neg]
    intro hkey
    have := ArrayKey.long.inj hkey
    omega
  · rcases hkey with hkey | ⟨hkey, -⟩ <;> exact absurd rfl hkey

end Steps

/-! ### Orders of pairs -/

/-- The pairs with a path before the others. -/
def pathFirst (pairs : List QueryPair) (path : Path) : List QueryPair :=
  (pairs.filter fun x => x.path = path) ++ pairs.filter fun x => x.path ≠ path

theorem pathFirst_reorders (pairs : List QueryPair) (path : Path) :
    Reorders pairs (pathFirst pairs path) := by
  intro r
  rw [pathFirst, List.filter_append, List.filter_filter, List.filter_filter]
  by_cases h : r = path
  · subst h
    have hnone : pairs.filter (fun x => decide (x.path = r) && decide (x.path ≠ r)) = [] := by
      simp
    rw [hnone, List.append_nil]
    simp
  · have hnone : pairs.filter (fun x => decide (x.path = r) && decide (x.path = path)) = [] := by
      rw [List.filter_eq_nil_iff]
      intro x _ hx
      simp only [Bool.and_eq_true, decide_eq_true_eq] at hx
      exact h (hx.1.symm.trans hx.2)
    rw [hnone, List.nil_append]
    refine List.filter_congr fun x _ => ?_
    by_cases hx : x.path = r
    · simp [hx, h]
    · simp [hx]

theorem placePairs_first (below : Bool) (x : QueryPair) : ∃ q, placePairs below [x] [] = some q ∧
    Value.array q = (Value.array []).put x.path x.stored := by
  obtain ⟨q, hplace, hq⟩ :=
    @placeParam_put below _ _ [] (fun v hv => by cases hv) x.stored
  refine ⟨q, ?_, hq⟩
  rw [placePairs_cons, hplace]
  rfl

theorem lastValue_ne_none {pairs : List QueryPair} {x : QueryPair} (h : x ∈ pairs) :
    lastValue pairs x.path ≠ none := by
  have hmem : x ∈ pairs.filter fun y => y.path = x.path := by simp [h]
  rw [lastValue, ne_eq, Option.map_eq_none_iff, List.getLast?_eq_none_iff]
  exact List.ne_nil_of_mem hmem

section Wrong
variable {L : ParamsLib} {pairs : List QueryPair}

/-- In each order the pairs are placed, and the leaves are the last values. -/
theorem AddressesLeaves.places (h : AddressesLeaves L pairs) (hscan : Scanned pairs)
    (hnest : ∀ x ∈ pairs, x.keys.length ≤ L.maxNesting) {order : List QueryPair}
    (horder : Reorders pairs order) : ∃ q, placePairs L.nextBelow order [] = some q ∧
      ∀ path, (Value.array q).leafAt path = lastValue pairs path := by
  obtain ⟨q, hparse, hleaf⟩ := h order horder
  rw [(hscan.reorder horder).parse fun x hx => hnest x (horder.mem.mp hx)] at hparse
  cases hplace : placePairs L.nextBelow order [] with
  | none =>
    rw [hplace] at hparse
    cases hparse
  | some q' =>
    rw [hplace] at hparse
    obtain rfl := Except.ok.inj hparse
    exact ⟨q', rfl, hleaf⟩

/-- The run in which the pairs with the path of `y` come first. -/
theorem AddressesLeaves.run (h : AddressesLeaves L pairs) (hscan : Scanned pairs)
    (hnest : ∀ x ∈ pairs, x.keys.length ≤ L.maxNesting) {y : QueryPair} {more : List QueryPair}
    (horder : Reorders pairs (y :: more)) : ∃ q₁ q,
      Value.array q₁ = (Value.array []).put y.path y.stored ∧
      placePairs L.nextBelow more q₁ = some q ∧
      ∀ path, (Value.array q).leafAt path = lastValue pairs path := by
  obtain ⟨q, hplace, hleaf⟩ := h.places hscan hnest horder
  obtain ⟨q₁, hone, hq₁⟩ := placePairs_first L.nextBelow y
  refine ⟨q₁, q, hq₁, ?_, hleaf⟩
  rw [← List.singleton_append, placePairs_append, hone, Option.bind_some] at hplace
  exact hplace

theorem filter_path_cons {y : QueryPair} (hy : y ∈ pairs) :
    ∃ z more, pairs.filter (fun x => x.path = y.path) = z :: more ∧ z.path = y.path := by
  have hmem : y ∈ pairs.filter fun x => x.path = y.path := by simp [hy]
  obtain ⟨z, more, hz⟩ := List.exists_cons_of_ne_nil (List.ne_nil_of_mem hmem)
  refine ⟨z, more, hz, ?_⟩
  have hin : z ∈ pairs.filter fun x => x.path = y.path := hz ▸ List.mem_cons_self
  simpa using (List.mem_filter.mp hin).2

theorem not_prefix_before (hfree : PathsFree (pairs.map QueryPair.path)) {x z : QueryPair}
    (hx : x ∈ pairs) (hz : z ∈ pairs) {p r : Path} {key : ArrayKey}
    (hpath : x.path = p ++ key :: r) :
    ¬ z.path <+: p := by
  intro hpre
  have hsame := hfree _ (List.mem_map_of_mem hz) _ (List.mem_map_of_mem hx)
    (hpre.trans ⟨key :: r, hpath.symm⟩)
  have hlen := hpre.length_le
  rw [hsame, hpath, List.length_append, List.length_cons] at hlen
  omega

/-- Behind the first pair its keys lead to its value, and there is no other index. -/
theorem find_put_first {q : Entries} {y : QueryPair}
    (hq : Value.array q = (Value.array []).put y.path y.stored) {p s : Path} {key : ArrayKey}
    (hp : p ≠ []) (hpath : y.path = p ++ key :: s) : ∃ ht,
      (Value.array q).get p = some (.array ht) ∧
      ∀ k, Entries.find ht k ≠ none ↔ k = key := by
  obtain ⟨ht, hget⟩ : ∃ ht, (Value.array q).get p = some (.array ht) := by
    rw [hq, hpath]
    exact Value.get_put_front _ _ _ _ _
  refine ⟨ht, hget, fun k => ⟨fun hk => ?_, ?_⟩⟩
  · by_contra hne
    have hnone : (Value.array q).get (p ++ [k]) = none := by
      rw [hq, hpath, Value.get_put_apart]
      · obtain ⟨a, p, rfl⟩ := List.exists_cons_of_ne_nil hp
        rfl
      · rw [List.prefix_append_right_inj, List.cons_prefix_cons]
        exact fun h => hne h.1
      · rw [List.prefix_append_right_inj, List.cons_prefix_cons]
        exact fun h => hne h.1.symm
    rw [Value.get_append, hget, Option.bind_some, Value.get_cons, Value.entries] at hnone
    obtain ⟨u, hu⟩ := Option.ne_none_iff_exists'.mp hk
    rw [hu] at hnone
    cases hnone
  · rintro rfl hnone
    have hsome : (Value.array q).get (p ++ k :: s) = some y.stored := by
      rw [hq, hpath, Value.get_put_self]
    rw [Value.get_append, hget, Option.bind_some, Value.get_cons, Value.entries, hnone] at hsome
    cases hsome

/-- Where there is no index 0 behind a path, no leaf with it is found. -/
theorem leafAt_zero {q ht : Entries} {p r : Path} (hget : (Value.array q).get p = some (.array ht))
    (hzero : Entries.find ht (.long 0) = none) :
    (Value.array q).leafAt (p ++ .long 0 :: r) = none := by
  rw [Value.leafAt, Value.get_append, hget, Option.bind_some, Value.get_cons, Value.entries, hzero]
  rfl

/-- A greater index before the index 0. -/
theorem not_addresses_greater (hfree : PathsFree (pairs.map QueryPair.path)) (hscan : Scanned pairs)
    (hnest : ∀ x ∈ pairs, x.keys.length ≤ L.maxNesting) {x y : QueryPair} (hx : x ∈ pairs)
    (hy : y ∈ pairs) {p r s : Path} {k : ℤ} (hp : p ≠ []) (hxpath : x.path = p ++ .long 0 :: r)
    (hypath : y.path = p ++ .long k :: s) (hk : 0 < k) : ¬ AddressesLeaves L pairs := by
  intro h
  obtain ⟨z, more, hfirst, hz⟩ := filter_path_cons hy
  have horder := pathFirst_reorders pairs y.path
  rw [pathFirst, hfirst, List.cons_append] at horder
  obtain ⟨q₁, q, hq₁, hrest, hleaf⟩ := h.run hscan hnest horder
  obtain ⟨ht, hget, hindex⟩ := find_put_first hq₁ hp (hz.trans hypath)
  have hblocked : Blocked ht := by
    refine ⟨?_, k, hk, (hindex _).mpr rfl⟩
    by_contra hzero
    exact hk.ne (ArrayKey.long.inj ((hindex _).mp hzero))
  obtain ⟨ht', hget', hzero, -⟩ := placePairs_keep hp
    (fun w hw => not_prefix_before hfree hx (horder.mem.mp (List.mem_cons_of_mem _ hw)) hxpath)
    (fun _ _ _ _ _ _ _ hI hplace => hI.place hplace) hrest hget hblocked
  refine lastValue_ne_none hx ?_
  rw [← hleaf, hxpath, leafAt_zero hget' hzero]

/-- The leaf with the index 0 twice, and no greater index. -/
theorem not_addresses_twice (hfree : PathsFree (pairs.map QueryPair.path)) (hscan : Scanned pairs)
    (hnest : ∀ x ∈ pairs, x.keys.length ≤ L.maxNesting) {p : Path} (hp : p ≠ [])
    (htwice : 1 < (pairs.filter fun x => x.path = p ++ [.long 0]).length)
    (hapart : ∀ y ∈ pairs, ∀ (s : Path) (k : ℤ), y.path = p ++ .long k :: s → k ≤ 0) :
    ¬ AddressesLeaves L pairs := by
  intro h
  match hfilter : pairs.filter (fun x => x.path = p ++ [.long 0]) with
  | [] | [_] => simp [hfilter] at htwice
  | x :: y :: more =>
    have hin : ∀ z ∈ x :: y :: more, z ∈ pairs ∧ z.path = p ++ [.long 0] := fun z hz => by
      rw [← hfilter] at hz
      simpa using List.mem_filter.mp hz
    obtain ⟨hx, hxpath⟩ := hin x (by simp)
    obtain ⟨hy, hypath⟩ := hin y (by simp)
    have horder := pathFirst_reorders pairs (p ++ [.long 0])
    rw [pathFirst, hfilter, List.cons_append] at horder
    obtain ⟨q₁, q, hq₁, hrest, hleaf⟩ := h.run hscan hnest horder
    obtain ⟨ht, hget, hindex⟩ := find_put_first hq₁ hp hxpath
    rw [List.cons_append, placePairs_cons] at hrest
    obtain ⟨q₂, hsecond, hrest⟩ := Option.bind_eq_some_iff.mp hrest
    have hmem : ∀ z ∈ more ++ pairs.filter (fun z => z.path ≠ p ++ [.long 0]), z ∈ pairs :=
      fun z hz =>
        horder.mem.mp (by simp only [List.cons_append, List.mem_cons]; exact .inr (.inr hz))
    have hnot : ∀ z ∈ pairs, ¬ z.path <+: p := fun z hz => not_prefix_before hfree hx hz hxpath
    obtain ⟨ht₂, hget₂, hthere, -⟩ := placeParam_at hsecond hp hget (hnot y hy)
    have hspilled : Spilled ht₂ := .of_zero ((hindex _).mpr rfl) (hthere (.long 0) [] hypath)
    obtain ⟨ht', hget', i, hi, s, hs⟩ := placePairs_keep hp (fun z hz => hnot z (hmem z hz))
      (fun z hz key rest _ _ hpath hI hplace => hI.place (fun i hi hkey =>
        absurd (hapart z (hmem z hz) rest i (hkey ▸ hpath))
          (not_le.mpr hi)) hplace) hrest hget₂ hspilled
    have hspill : lastValue pairs (p ++ [.long i]) = some (.str s) := by
      rw [← hleaf, Value.leafAt, Value.get_append, hget', Option.bind_some, Value.get_cons,
        Value.entries, hs]
      rfl
    obtain ⟨z, hz, -⟩ := Option.map_eq_some_iff.mp hspill
    obtain ⟨hzin, hzpath⟩ := List.mem_filter.mp (List.mem_of_getLast? hz)
    exact absurd (hapart z hzin [] i (by simpa using hzpath)) (not_le.mpr hi)

/-- An index below -1 before a leaf with the index 0. -/
theorem not_addresses_below (hfree : PathsFree (pairs.map QueryPair.path)) (hscan : Scanned pairs)
    (hnest : ∀ x ∈ pairs, x.keys.length ≤ L.maxNesting) (hbelow : L.nextBelow = true)
    {x y : QueryPair} (hx : x ∈ pairs) (hy : y ∈ pairs) {p s : Path} {k : ℤ} (hp : p ≠ [])
    (hxpath : x.path = p ++ [.long 0]) (hypath : y.path = p ++ .long k :: s) (hk : k < -1)
    (honce : (pairs.filter fun x => x.path = p ++ [.long 0]).length ≤ 1) :
    ¬ AddressesLeaves L pairs := by
  intro h
  have hne : y.path ≠ x.path := by
    rw [hxpath, hypath]
    intro heq
    have := ArrayKey.long.inj (List.cons.inj (List.append_cancel_left heq)).1
    omega
  obtain ⟨z, more, hfirst, hz⟩ := filter_path_cons hy
  obtain ⟨x', none, hsingle, hx'⟩ := filter_path_cons hx
  obtain rfl : none = [] := by
    rw [← hxpath, hsingle, List.length_cons] at honce
    exact List.length_eq_zero_iff.mp (by omega)
  -- first the pairs with the index below -1, and then the leaf
  have horder := (pathFirst_reorders pairs x.path).trans
    (pathFirst_reorders (pathFirst pairs x.path) y.path)
  have hfront : (pathFirst pairs x.path).filter (fun w => w.path = y.path) = z :: more :=
    (pathFirst_reorders pairs x.path y.path).trans hfirst
  have hsplit : (pathFirst pairs x.path).filter (fun w => w.path ≠ y.path) =
      x' :: (pairs.filter fun w => w.path ≠ x.path).filter fun w => w.path ≠ y.path := by
    rw [pathFirst, hsingle, List.singleton_append, List.filter_cons_of_pos]
    rw [decide_eq_true_eq, hx']
    exact Ne.symm hne
  rw [pathFirst, hfront, hsplit, List.cons_append] at horder
  obtain ⟨q₁, q, hq₁, hrest, hleaf⟩ := h.run hscan hnest horder
  obtain ⟨ht, hget, hindex⟩ := find_put_first hq₁ hp (hz.trans hypath)
  have hmem := fun w hw => horder.mem.mp (List.mem_cons_of_mem z (a := w) hw)
  have hnot : ∀ w ∈ pairs, ¬ w.path <+: p := fun w hw => not_prefix_before hfree hx hw hxpath
  rw [placePairs_append, Option.bind_eq_some_iff] at hrest
  obtain ⟨q₂, hmore, hrest⟩ := hrest
  have hkeys : ∀ w ∈ more, w.path = p ++ .long k :: s := fun w hw => by
    have hin : w ∈ pairs.filter fun w => w.path = y.path := hfirst ▸ List.mem_cons_of_mem _ hw
    exact (of_decide_eq_true (List.mem_filter.mp hin).2).trans hypath
  obtain ⟨ht₂, hget₂, hone⟩ := placePairs_keep (I := OneIndex k) hp
    (fun w hw => hnot w (hmem w (List.mem_append_left _ hw)))
    (fun w hw key rest ht ht' hpath hI hplace => by
      have hkey := (List.cons.inj (List.append_cancel_left (hpath.symm.trans (hkeys w hw)))).1
      exact hI.place (by omega) (hkey ▸ hplace))
    hmore hget fun i => (hindex _).trans ⟨ArrayKey.long.inj, congrArg _⟩
  rw [placePairs_cons, hbelow] at hrest
  obtain ⟨q₃, hzero, hrest⟩ := Option.bind_eq_some_iff.mp hrest
  have hx'in : x' ∈ pairs := hmem x' (by simp)
  obtain ⟨ht₃, hget₃, hthere, -⟩ := placeParam_at hzero hp hget₂ (hnot x' hx'in)
  have hnone := hone.of_zero hk (hthere (.long 0) [] (hx'.trans hxpath))
  obtain ⟨ht', hget', hfinal⟩ := placePairs_keep
    (I := fun ht => Entries.find ht (.long 0) = none) hp
    (fun w hw => hnot w (hmem w (List.mem_append_right _ (List.mem_cons_of_mem _ hw))))
    (fun w hw key rest ht ht' hpath hI hplace => by
      have hkey : key ≠ .long 0 := by
        rintro rfl
        have hwin := hmem w (List.mem_append_right _ (List.mem_cons_of_mem _ hw))
        have hsame := hfree _ (List.mem_map_of_mem hx) _ (List.mem_map_of_mem hwin)
          ⟨rest, by rw [hxpath, hpath, List.append_assoc]; rfl⟩
        have hwne := of_decide_eq_true (List.mem_filter.mp (List.mem_filter.mp hw).1).2
        exact hwne hsame.symm
      obtain ⟨u, rfl⟩ := place_nonzero hkey hplace
      rw [Entries.find_update_ne _ hkey, hI])
    hrest hget₃ hnone
  refine lastValue_ne_none hx ?_
  rw [← hleaf, hxpath, leafAt_zero hget' hfinal]

/-- Where the index 0 has keys behind it, no index is below -1. -/
def ShallowZero (pairs : List QueryPair) : Prop :=
  ∀ x ∈ pairs, ∀ y ∈ pairs, ∀ (p r s : Path) (k : ℤ), p ≠ [] → x.path = p ++ .long 0 :: r → r ≠ [] →
    y.path = p ++ .long k :: s → -1 ≤ k

theorem AddressesLeaves.zeroAlone (h : AddressesLeaves L pairs) (hscan : Scanned pairs)
    (hfree : PathsFree (pairs.map QueryPair.path))
    (hnest : ∀ x ∈ pairs, x.keys.length ≤ L.maxNesting)
    (hshallow : L.nextBelow = true → ShallowZero pairs) : ZeroAlone L.nextBelow pairs := by
  have hle : ∀ x ∈ pairs, ∀ y ∈ pairs, ∀ (p r s : Path) (k : ℤ),
      p ≠ [] → x.path = p ++ .long 0 :: r →
      y.path = p ++ .long k :: s → k ≤ 0 := fun x hx y hy p r s k hp hxpath hypath => by
    by_contra hk
    exact not_addresses_greater hfree hscan hnest hx hy hp hxpath hypath (not_le.mp hk) h
  have honce : ∀ p : Path, p ≠ [] → (pairs.filter fun x => x.path = p ++ [.long 0]).length ≤ 1 := by
    intro p hp
    by_contra htwice
    obtain ⟨x, hx⟩ := List.exists_mem_of_length_pos (Nat.zero_lt_of_lt (not_le.mp htwice))
    obtain ⟨hxin, hxpath⟩ := List.mem_filter.mp hx
    exact not_addresses_twice hfree hscan hnest hp (not_le.mp htwice) (fun y hy s k hypath =>
      hle x hxin y hy p [] s k hp (of_decide_eq_true hxpath) hypath) h
  refine ⟨fun x hx y hy p r s k hp hxpath hypath =>
    ⟨hle x hx y hy p r s k hp hxpath hypath, fun hbelow => ?_⟩, honce⟩
  by_contra hk
  by_cases hr : r = []
  · subst hr
    exact not_addresses_below hfree hscan hnest hbelow hx hy hp hxpath hypath (not_le.mp hk)
      (honce p hp) h
  · exact hk (hshallow hbelow x hx y hy p r s k hp hxpath hr hypath)

end Wrong

/-- Bracketed keys address leaves, in any order of the pairs, if the parser finds and keeps what is
written and the index 0 is alone. Where it finds it and nothing with keys behind an index 0 meets an
index below -1, only then. -/
theorem addressesLeaves_zeroAlone {L : ParamsLib} {pairs : List QueryPair}
    (hfree : PathsFree (pairs.map QueryPair.path))
    (hnest : ∀ x ∈ pairs, x.keys.length ≤ L.maxNesting) :
    (Scanned pairs ∧ ValuesKept pairs ∧ ZeroAlone L.nextBelow pairs → AddressesLeaves L pairs) ∧
    (Scanned pairs → (L.nextBelow = true → ShallowZero pairs) → AddressesLeaves L pairs →
      ValuesKept pairs ∧ ZeroAlone L.nextBelow pairs) := by
  have hleaves : ∀ {order}, Reorders pairs order → ZeroAlone L.nextBelow pairs →
      ∃ q, placePairs L.nextBelow order [] = some q ∧
        ∀ path, (Value.array q).leafAt path = lastStored pairs path := by
    intro order horder hzero
    have hfreeOrder : PathsFree (order.map QueryPair.path) := by
      intro p hp r hr
      obtain ⟨x, hx, rfl⟩ := List.mem_map.mp hp
      obtain ⟨y, hy, rfl⟩ := List.mem_map.mp hr
      exact hfree _ (List.mem_map_of_mem (horder.mem.mp hx)) _
        (List.mem_map_of_mem (horder.mem.mp hy))
    obtain ⟨q, hplace, hleaf⟩ := placePairs_leaves (hzero.reorder horder) hfreeOrder
    refine ⟨q, hplace, fun path => ?_⟩
    rw [hleaf, lastStored, horder, ← lastStored]
  constructor
  · rintro ⟨hscan, hkept, hzero⟩ order horder
    obtain ⟨q, hplace, hleaf⟩ := hleaves horder hzero
    refine ⟨q, ?_, fun path => ?_⟩
    · rw [(hscan.reorder horder).parse fun x hx => hnest x (horder.mem.mp hx), hplace]
      rfl
    · rw [hleaf, lastStored_eq_iff.mpr hkept]
  · intro hscan hshallow h
    have hzero := h.zeroAlone hscan hfree hnest hshallow
    refine ⟨lastStored_eq_iff.mp fun path => ?_, hzero⟩
    obtain ⟨q, hplace, hleaf⟩ := h.places hscan hnest fun _ => rfl
    obtain ⟨q', hplace', hleaf'⟩ := hleaves (fun _ => rfl) hzero
    obtain rfl := Option.some.inj (hplace.symm.trans hplace')
    rw [← hleaf', hleaf]

/-- Where all quotes are closed, names that are not trimmed are found. -/
theorem scanned_closed {pairs : List QueryPair}
    (h : ∀ x ∈ pairs, QuotesClosed x.key ∧ phpTrim isTrimmed x.key = x.key ∧ QuotesClosed x.value) :
    Scanned pairs where
  names x hx := ⟨(h x hx).1, (h x hx).2.1⟩
  values _ horder x hx := (h x (horder.mem.mp (List.mem_of_mem_dropLast hx))).2.2

def queryName (text : Bytes) (h : text ≠ [] ∧ (text.all fun c => c ≠ ampersand && c ≠ equalSign) ∧
    (urlDecode text).all fun c => c ≠ openBracket && c ≠ closeBracket) : QueryName where
  text := text
  ne := h.1
  plain := by simpa using h.2.1
  bracketFree := by simpa using h.2.2

def queryPair (name : QueryName) (keys : List QueryName) (value : Bytes) (h : ampersand ∉ value) :
    QueryPair := ⟨name, keys, value, fun _ hc heq => h (heq ▸ hc)⟩

/-- `a[5]=x` and `a[0]=y` -/
def fiveThenZero : List QueryPair :=
  [queryPair (queryName [97] (by decide)) [queryName [53] (by decide)] [120] (by decide),
   queryPair (queryName [97] (by decide)) [queryName [48] (by decide)] [121] (by decide)]

theorem fiveThenZero_free : PathsFree (fiveThenZero.map QueryPair.path) := by
  have hpaths : fiveThenZero.map QueryPair.path =
      [[.str (ascii "a"), .long 5], [.str (ascii "a"), .long 0]] := by decide
  rw [hpaths]
  intro p hp r hr hpre
  simp only [List.mem_cons, List.not_mem_nil, or_false] at hp hr
  rcases hp with rfl | rfl <;> rcases hr with rfl | rfl <;> simp_all [List.cons_prefix_cons]

theorem fiveThenZero_nesting : ∀ x ∈ fiveThenZero, x.keys.length ≤ plainParamsLib.maxNesting := by
  decide

theorem fiveThenZero_scanned : Scanned fiveThenZero := scanned_closed (by decide +kernel)

/-- The value for the index 0 goes to the index 6. -/
theorem addressesLeaves_zero :
    queryText fiveThenZero = ascii "a[5]=x&a[0]=y" ∧
    PathsFree (fiveThenZero.map QueryPair.path) ∧
    querystringParse plainParamsLib [ampersand] [] (queryText fiveThenZero) =
      .ok [(.str (ascii "a"), .array [(.long 5, .str (ascii "x")), (.long 6, .str (ascii "y"))])] ∧
    ¬ AddressesLeaves plainParamsLib fiveThenZero := by
  refine ⟨by decide, fiveThenZero_free, ?_, ?_⟩
  · rw [fiveThenZero_scanned.parse fiveThenZero_nesting]
    rfl
  · exact not_addresses_greater fiveThenZero_free fiveThenZero_scanned fiveThenZero_nesting
      (x := fiveThenZero[1]) (y := fiveThenZero[0]) (List.getElem_mem _) (List.getElem_mem _)
      (p := [.str (ascii "a")]) (r := []) (s := []) (k := 5) (by simp) (by decide) (by decide)
      (by decide)

/-- Indices, blanks and quotes in a value, and a value that is replaced. -/
def zeroAndQuotes : List QueryPair :=
  [queryPair (queryName [97] (by decide)) [queryName [45, 49] (by decide)] [34, 121, 32, 122, 34]
      (by decide),
   queryPair (queryName [97] (by decide)) [queryName [48] (by decide)] [120] (by decide),
   queryPair (queryName [98] (by decide)) [] [32, 61, 117] (by decide),
   queryPair (queryName [98] (by decide)) [] [118] (by decide)]

theorem zeroAndQuotes_paths : ∀ x ∈ zeroAndQuotes, x.path = [.str (ascii "a"), .long (-1)] ∨
    x.path = [.str (ascii "a"), .long 0] ∨ x.path = [.str (ascii "b")] := by
  decide

theorem zeroAndQuotes_alone : ZeroAlone plainParamsLib.nextBelow zeroAndQuotes where
  apart x hx y hy p r s k hp hxpath hypath := by
    obtain ⟨a, p, rfl⟩ := List.exists_cons_of_ne_nil hp
    have hnil : ∀ (key key' : ArrayKey) (t : Path), [key] = p ++ key' :: t → p = [] := by
      intro key key' t h
      cases p with
      | nil => rfl
      | cons b p => simp at h
    rcases zeroAndQuotes_paths y hy with h | h | h <;> rw [h, List.cons_append] at hypath
    · obtain rfl := hnil _ _ _ (List.cons.inj hypath).2
      obtain rfl := ArrayKey.long.inj (List.cons.inj (List.cons.inj hypath).2).1
      exact ⟨by decide, fun _ => le_rfl⟩
    · obtain rfl := hnil _ _ _ (List.cons.inj hypath).2
      obtain rfl := ArrayKey.long.inj (List.cons.inj (List.cons.inj hypath).2).1
      exact ⟨le_rfl, by decide⟩
    · simp at hypath
  once p hp := by
    by_cases h : p = [.str (ascii "a")]
    · subst h
      decide
    · have hnone : zeroAndQuotes.filter (fun x => x.path = p ++ [.long 0]) = [] := by
        rw [List.filter_eq_nil_iff]
        intro x hx hpath
        have hpath := of_decide_eq_true hpath
        rcases zeroAndQuotes_paths x hx with hx | hx | hx <;> rw [hx] at hpath
        · have hlast := congrArg List.getLast? hpath
          rw [List.getLast?_concat] at hlast
          exact absurd hlast (by decide)
        · exact h (List.append_inj_left' hpath.symm rfl)
        · have hlast := congrArg List.getLast? hpath
          rw [List.getLast?_concat] at hlast
          exact absurd hlast (by decide)
      rw [hnone]
      exact Nat.zero_le _

theorem zeroAndQuotes_addresses :
    queryText zeroAndQuotes = ascii "a[-1]=\"y z\"&a[0]=x&b= =u&b=v" ∧
    AddressesLeaves plainParamsLib zeroAndQuotes := by
  refine ⟨by decide, (addressesLeaves_zeroAlone ?_ (by decide)).1
    ⟨scanned_closed (by decide +kernel), ?_, zeroAndQuotes_alone⟩⟩
  · intro p hp r hr hpre
    obtain ⟨x, hx, rfl⟩ := List.mem_map.mp hp
    obtain ⟨y, hy, rfl⟩ := List.mem_map.mp hr
    revert hpre
    rcases zeroAndQuotes_paths x hx with hx | hx | hx <;>
      rcases zeroAndQuotes_paths y hy with hy | hy | hy <;> rw [hx, hy] <;> decide
  · unfold ValuesKept QueryPair.Kept
    decide +kernel

end ExtHttp
