import ExtHttp.QueryUpdate

/-!
# The leaves of an updated query string

What an update makes of the bucket of each key, and where the paths of the result end.
-/
namespace ExtHttp

variable {σ : Type}

/-- Values by their depth -/
theorem Slot.ind {P : Slot σ → Prop} (undef : P .undef) (null : P .null)
    (scalar : ∀ s, P (.scalar s)) (array : ∀ ht : Slots σ, (∀ e ∈ ht, P e.2) → P (.array ht))
    (v : Slot σ) : P v := by
  refine Slot.rec (motive_1 := P) (motive_2 := fun ht => ∀ e ∈ ht, P e.2)
    (motive_3 := fun e => P e.2)
    undef null scalar array (by simp) (fun e ht he hht => ?_) (fun _ _ h => h) v
  intro e' he'
  rcases List.mem_cons.mp he' with rfl | he'
  · exact he
  · exact hht e' he'

/-- No key comes twice; there may be undefined buckets. -/
inductive Slot.Keyed : Slot σ → Prop
  | undef : Keyed .undef
  | null : Keyed .null
  | scalar (s : σ) : Keyed (.scalar s)
  | array {ht : Slots σ} (distinct : Assoc.Distinct ht) (values : ∀ e ∈ ht, Keyed e.2) :
    Keyed (.array ht)

theorem Slot.Plain.keyed {v : Slot σ} (h : v.Plain) : v.Keyed := by
  induction h with
  | null => exact .null
  | scalar s => exact .scalar s
  | array distinct _ _ ih => exact .array distinct ih

theorem Slot.Plain.entries {ht : Slots σ} (h : (Slot.array ht).Plain) :
    Assoc.Distinct ht ∧ (∀ e ∈ ht, e.1.added = e.1) ∧ ∀ e ∈ ht, e.2.Plain := by
  cases h with
  | array distinct keys values => exact ⟨distinct, keys, values⟩

theorem Slot.Keyed.entries {ht : Slots σ} (h : (Slot.array ht).Keyed) :
    Assoc.Distinct ht ∧ ∀ e ∈ ht, e.2.Keyed := by
  cases h with
  | array distinct values => exact ⟨distinct, values⟩

theorem Slot.Plain.found {ht : Slots σ} (h : (Slot.array ht).Plain) {key : ArrayKey} {v : Slot σ}
    (hv : Assoc.find ht key = some v) : v.Plain := h.entries.2.2 _ (Assoc.mem_of_find hv)

/-! ### The filter -/

theorem filterSlots_eq (ht : Slots σ) : filterSlots ht =
    Assoc.filterMapValues Slot.filtered ht := by
  induction ht with
  | nil => rfl
  | cons e ht ih =>
    obtain ⟨key, v⟩ := e
    rw [filterSlots, Assoc.filterMapValues, List.filterMap_cons, ← Assoc.filterMapValues, ih]
    cases v.filtered <;> rfl

theorem filterSlots_append (ht more : Slots σ) : filterSlots (ht ++ more) =
    filterSlots ht ++ filterSlots more := by
  rw [filterSlots_eq, filterSlots_eq, filterSlots_eq]
  exact List.filterMap_append

theorem find_filterSlots {ht : Slots σ} (h : Assoc.Distinct ht) (key : ArrayKey) :
    Assoc.find (filterSlots ht) key = (Assoc.find ht key).bind Slot.filtered := by
  rw [filterSlots_eq, Assoc.find_filterMapValues _ h]

theorem filtered_array (ht : Slots σ) :
    (Slot.array ht).filtered = if filterSlots ht = [] then none
      else some (.array (filterSlots ht)) := by
  simp only [Slot.filtered, List.length_eq_zero_iff]

theorem mem_filterSlots {ht : Slots σ} {e : ArrayKey × Slot σ} :
    e ∈ filterSlots ht ↔ ∃ v, (e.1, v) ∈ ht ∧ v.filtered = some e.2 := by
  rw [filterSlots_eq, Assoc.filterMapValues, List.mem_filterMap]
  constructor
  · rintro ⟨⟨key, v⟩, hmem, h⟩
    obtain ⟨w, hw, rfl⟩ := Option.map_eq_some_iff.mp h
    exact ⟨v, hmem, hw⟩
  · rintro ⟨v, hmem, h⟩
    exact ⟨(e.1, v), hmem, by rw [h]; rfl⟩

/-- What has been filtered stays. -/
theorem filtered_filtered (v : Slot σ) : ∀ w, v.filtered = some w → w.filtered = some w := by
  induction v using Slot.ind with
  | undef => rintro w h; obtain rfl := Option.some.inj h; rfl
  | null => rintro w h; cases h
  | scalar s => rintro w h; obtain rfl := Option.some.inj h; rfl
  | array ht ih =>
    intro w h
    rw [filtered_array] at h
    split_ifs at h with hnil
    obtain rfl := Option.some.inj h
    have hagain : filterSlots (filterSlots ht) = filterSlots ht := by
      clear h hnil
      induction ht with
      | nil => rfl
      | cons e ht iht =>
        obtain ⟨key, v⟩ := e
        have hrest := iht fun e he => ih e (List.mem_cons_of_mem _ he)
        rw [filterSlots]
        cases hv : v.filtered with
        | none => exact hrest
        | some w =>
          dsimp only
          rw [filterSlots, ih (key, v) List.mem_cons_self w hv, hrest]
    rw [filtered_array, hagain, if_neg hnil]

theorem filterSlots_filterSlots (ht : Slots σ) : filterSlots (filterSlots ht) = filterSlots ht := by
  by_cases hnil : filterSlots ht = []
  · rw [hnil]
    rfl
  · have h := filtered_filtered (.array ht) (.array (filterSlots ht))
      (by rw [filtered_array, if_neg hnil])
    rw [filtered_array] at h
    split_ifs at h
    exact Slot.array.inj (Option.some.inj h)

theorem toArray_keyed {v : Slot σ} (h : v.Keyed) : (Slot.array v.toArray).Keyed := by
  cases v with
  | array ht =>
    obtain ⟨hdistinct, hvalues⟩ := h.entries
    exact .array ((List.filter_sublist.map Prod.fst).nodup hdistinct) fun e he =>
      hvalues e (List.mem_filter.mp he).1
  | null => exact .array List.nodup_nil (by simp [Slot.toArray])
  | undef | scalar =>
    refine .array (List.nodup_singleton _) fun e he => ?_
    obtain rfl := List.mem_singleton.mp he
    exact h

theorem filtered_keyed (v : Slot σ) : v.Keyed → ∀ w, v.filtered = some w → w.Keyed := by
  induction v using Slot.ind with
  | undef => rintro - w h; obtain rfl := Option.some.inj h; exact .undef
  | null => rintro - w h; cases h
  | scalar s => rintro - w h; obtain rfl := Option.some.inj h; exact .scalar s
  | array ht ih =>
    intro hkeyed w h
    obtain ⟨hdistinct, hvalues⟩ := hkeyed.entries
    rw [filtered_array] at h
    split_ifs at h
    obtain rfl := Option.some.inj h
    refine .array ?_ fun e he => ?_
    · rw [filterSlots_eq]
      exact hdistinct.filterMapValues _
    · obtain ⟨v, hv, hfiltered⟩ := mem_filterSlots.mp he
      exact ih _ hv (hvalues _ hv) _ hfiltered

theorem filterSlots_keyed {ht : Slots σ} (h : (Slot.array ht).Keyed) :
    (Slot.array (filterSlots ht)).Keyed := by
  by_cases hnil : filterSlots ht = []
  · rw [hnil]
    exact .array List.nodup_nil (by simp)
  · exact filtered_keyed _ h _ (by rw [filtered_array, if_neg hnil])

/-! ### Where paths end -/

/-- What a key path leads to. -/
def Slot.get : Slot σ → List ArrayKey → Option (Slot σ)
  | v, [] => some v
  | .array ht, key :: path => (Assoc.find ht key).bind fun v => v.get path
  | _, _ :: _ => none

/-- A scalar or an undefined bucket at a path -/
def Slot.endAt (v : Slot σ) (path : List ArrayKey) : Option (Option σ) :=
  (v.get path).bind fun
    | .undef => some none
    | .scalar s => some (some s)
    | _ => none

/-- The scalar at a path -/
def Slot.leaf (v : Slot σ) (path : List ArrayKey) : Option σ := (v.endAt path).join

theorem Slot.endAt_cons (ht : Slots σ) (key : ArrayKey) (path : List ArrayKey) :
    (Slot.array ht).endAt (key :: path) = (Assoc.find ht key).bind fun v => v.endAt path := by
  rw [Slot.endAt, Slot.get, Option.bind_assoc]
  rfl

theorem Slot.leaf_eq_some {v : Slot σ} {path : List ArrayKey} {s : σ} :
    v.leaf path = some s ↔ v.endAt path = some (some s) := by
  rw [Slot.leaf, Option.join_eq_some_iff]

theorem Slot.leaf_cons (ht : Slots σ) (key : ArrayKey) (path : List ArrayKey) :
    (Slot.array ht).leaf (key :: path) = (Assoc.find ht key).bind fun v => v.leaf path := by
  rw [Slot.leaf, Slot.endAt_cons]
  cases Assoc.find ht key <;> rfl

/-- The filter leaves the ends of paths as they are. -/
theorem endAt_filtered {v : Slot σ} (h : v.Keyed) (path : List ArrayKey) :
    (v.filtered.bind fun w => w.endAt path) = v.endAt path := by
  induction path generalizing v with
  | nil =>
    cases v with
    | array ht =>
      rw [filtered_array]
      split_ifs <;> rfl
    | _ => rfl
  | cons key path ih =>
    cases v with
    | array ht =>
      obtain ⟨hdistinct, hvalues⟩ := h.entries
      have hfind := find_filterSlots hdistinct key
      have hrest : ((Assoc.find (filterSlots ht) key).bind fun w => w.endAt path) =
          (Assoc.find ht key).bind fun w => w.endAt path := by
        rw [hfind]
        cases hv : Assoc.find ht key with
        | none => rfl
        | some v => exact ih (hvalues _ (Assoc.mem_of_find hv))
      rw [Slot.endAt_cons, filtered_array]
      split_ifs with hnil
      · rw [← hrest, hnil]
        rfl
      · rw [Option.bind_some, Slot.endAt_cons, hrest]
    | _ => rfl

theorem endAt_filterSlots {ht : Slots σ} (h : (Slot.array ht).Keyed) (path : List ArrayKey) :
    (Slot.array (filterSlots ht)).endAt path = (Slot.array ht).endAt path := by
  have hfiltered := endAt_filtered h path
  rw [filtered_array] at hfiltered
  split_ifs at hfiltered with hnil
  · rw [hnil, ← hfiltered]
    cases path <;> rfl
  · exact hfiltered

/-! ### The loop -/

section Loop
variable [DecidableEq σ]

/-- What becomes of the bucket of a public key. -/
def mergedSlot (entry : Option (Slot σ)) : Slot σ → Option (Slot σ)
  | .undef => entry
  | .null => none
  | .scalar s => some (if entry.elim false (Slot.isIdentical s) then .undef else .scalar s)
  | .array ht => some (.array (entry.elim ht fun entry => querystringUpdate entry.toArray ht))

/-- What becomes of the bucket of a key. -/
def updatedSlot (key : ArrayKey) (entry param : Option (Slot σ)) : Option (Slot σ) :=
  if key.isPublic then param.elim entry (mergedSlot entry) else entry

theorem find_updateEntry (qarray : Slots σ) {key : ArrayKey} (hkey : key.added = key) (v : Slot σ)
    (k : ArrayKey) : Assoc.find (updateEntry qarray key v) k =
      if key = k then updatedSlot key (Assoc.find qarray key) (some v)
        else Assoc.find qarray k := by
  have hsame : Assoc.find qarray k = if key = k then Assoc.find qarray key
      else Assoc.find qarray k := by
    split_ifs with h
    · rw [h]
    · rfl
  unfold updatedSlot
  cases hpublic : key.isPublic with
  | false =>
    simp only [Bool.false_eq_true, if_false]
    rw [← hsame]
    cases v <;> simp [updateEntry, hpublic]
  | true =>
    rw [if_pos rfl, Option.elim_some]
    cases v with
    | undef => exact hsame
    | null => rw [updateEntry, if_pos hpublic, Assoc.find_erase]; rfl
    | scalar s =>
      rw [updateEntry, if_pos hpublic]
      cases Assoc.find qarray key with
      | none => rw [hkey, Assoc.find_set]; rfl
      | some entry => rw [Assoc.find_set]; rfl
    | array ht =>
      rw [updateEntry, if_pos hpublic]
      cases Assoc.find qarray key with
      | none => rw [hkey, Assoc.find_set]; rfl
      | some entry => rw [Assoc.find_set]; rfl

/-- Each key of the parameters is looked at once. -/
theorem find_updateEntries (qarray : Slots σ) {params : Slots σ} (hdistinct : Assoc.Distinct params)
    (hkeys : ∀ e ∈ params, e.1.added = e.1) (k : ArrayKey) :
    Assoc.find (updateEntries qarray params) k =
      updatedSlot k (Assoc.find qarray k) (Assoc.find params k) := by
  induction params generalizing qarray with
  | nil =>
    rw [updateEntries, Assoc.find_nil, updatedSlot, Option.elim_none]
    split_ifs <;> rfl
  | cons e params ih =>
    obtain ⟨key, v⟩ := e
    obtain ⟨hnone, hrest⟩ := hdistinct.cons
    rw [updateEntries, ih _ hrest fun e he => hkeys e (List.mem_cons_of_mem _ he),
      find_updateEntry qarray (hkeys _ List.mem_cons_self), Assoc.find_cons]
    by_cases hk : key = k
    · subst hk
      rw [if_pos rfl, if_pos rfl, hnone]
      simp only [updatedSlot, Option.elim_none, ite_self]
    · rw [if_neg hk, if_neg hk]

theorem updateEntry_distinct {qarray : Slots σ} (h : Assoc.Distinct qarray) (key : ArrayKey)
    (v : Slot σ) :
    Assoc.Distinct (updateEntry qarray key v) := by
  cases v with
  | undef => exact h
  | null =>
    rw [updateEntry]
    split_ifs
    · exact h.erase key
    · exact h
  | scalar s | array ht =>
    rw [updateEntry]
    split_ifs
    · split
      · exact h.set _ _
      · exact h.set _ _
    · exact h

theorem updateEntries_distinct {qarray : Slots σ} (h : Assoc.Distinct qarray) (params : Slots σ) :
    Assoc.Distinct (updateEntries qarray params) := by
  induction params generalizing qarray with
  | nil => exact h
  | cons e params ih => exact ih (updateEntry_distinct h e.1 e.2)

/-- Updates keep the keys apart. -/
theorem update_keyed {params : Slots σ} (hparams : (Slot.array params).Plain) {qarray : Slots σ}
    (h : (Slot.array qarray).Keyed) : (Slot.array (updateEntries qarray params)).Keyed := by
  suffices hall : ∀ v : Slot σ, ∀ params, v = .array params → v.Plain → ∀ qarray : Slots σ,
      (Slot.array qarray).Keyed → (Slot.array (updateEntries qarray params)).Keyed from
    hall _ params rfl hparams qarray h
  intro v
  induction v using Slot.ind with
  | undef | null | scalar => intro params h; cases h
  | array ht ih =>
    intro params hv hplain qarray hkeyed
    obtain rfl := Slot.array.inj hv
    obtain ⟨hdistinct, hkeys, hvalues⟩ := hplain.entries
    have hnew := updateEntries_distinct hkeyed.entries.1 ht
    refine .array hnew fun e he => ?_
    have hfind := find_updateEntries qarray hdistinct hkeys e.1
    rw [hnew.find he, updatedSlot] at hfind
    have hentry : ∀ entry, Assoc.find qarray e.1 = some entry → entry.Keyed := fun entry hentry =>
      hkeyed.entries.2 _ (Assoc.mem_of_find hentry)
    split_ifs at hfind
    · cases hparam : Assoc.find ht e.1 with
      | none =>
        rw [hparam, Option.elim_none] at hfind
        exact hentry _ hfind.symm
      | some param =>
        have hmem := Assoc.mem_of_find hparam
        rw [hparam, Option.elim_some] at hfind
        cases param with
        | undef => exact hentry _ hfind.symm
        | null => cases hfind
        | scalar s =>
          obtain hfind := Option.some.inj hfind
          rw [hfind]
          split_ifs
          · exact .undef
          · exact .scalar s
        | array w =>
          have hw := hvalues _ hmem
          rw [Option.some.inj hfind]
          cases hq : Assoc.find qarray e.1 with
          | none => exact hw.keyed
          | some entry =>
            exact filterSlots_keyed (ih _ hmem w rfl hw _ (toArray_keyed (hentry entry hq)))
    · exact hentry _ hfind.symm

/-- Where the paths of an updated array end. -/
theorem endAt_update {qarray params : Slots σ} (h : (Slot.array qarray).Keyed)
    (hparams : (Slot.array params).Plain) (key : ArrayKey) (path : List ArrayKey) :
    (Slot.array (querystringUpdate qarray params)).endAt (key :: path) =
      (updatedSlot key (Assoc.find qarray key) (Assoc.find params key)).bind fun v =>
        v.endAt path := by
  obtain ⟨hdistinct, hkeys, -⟩ := hparams.entries
  rw [querystringUpdate, endAt_filterSlots (update_keyed hparams h), Slot.endAt_cons,
    find_updateEntries _ hdistinct hkeys]

theorem leaf_update {qarray params : Slots σ} (h : (Slot.array qarray).Keyed)
    (hparams : (Slot.array params).Plain) (key : ArrayKey) (path : List ArrayKey) :
    (Slot.array (querystringUpdate qarray params)).leaf (key :: path) =
      (updatedSlot key (Assoc.find qarray key) (Assoc.find params key)).bind fun v =>
        v.leaf path := by
  rw [Slot.leaf, endAt_update h hparams]
  cases updatedSlot key (Assoc.find qarray key) (Assoc.find params key) <;> rfl

end Loop

/-! ### Arrays of a program -/

theorem Slot.Plain.isUndef {v : Slot σ} (h : v.Plain) : v.isUndef = false := by
  cases h <;> rfl

theorem Slot.Plain.toArray_array {ht : Slots σ} (h : (Slot.array ht).Plain) :
    (Slot.array ht).toArray = ht :=
  List.filter_eq_self.mpr fun e he => by rw [(h.entries.2.2 e he).isUndef]; rfl

/-- What is made to an array is one of a program. -/
theorem Slot.Plain.toArray {v : Slot σ} (h : v.Plain) : (Slot.array v.toArray).Plain := by
  cases h with
  | null => exact .array List.nodup_nil (by simp [Slot.toArray]) (by simp [Slot.toArray])
  | scalar s =>
    refine .array (List.nodup_singleton _) (fun e he => ?_) fun e he => ?_ <;>
      obtain rfl := List.mem_singleton.mp he
    · rfl
    · exact .scalar s
  | array distinct keys values =>
    have hplain : (Slot.array _).Plain := .array distinct keys values
    rw [hplain.toArray_array]
    exact hplain

theorem filtered_plain (v : Slot σ) : v.Plain → ∀ w, v.filtered = some w → w.Plain := by
  induction v using Slot.ind with
  | undef => intro h; cases h
  | null => rintro - w h; cases h
  | scalar s => rintro - w h; obtain rfl := Option.some.inj h; exact .scalar s
  | array ht ih =>
    intro hplain w h
    obtain ⟨hdistinct, hkeys, hvalues⟩ := hplain.entries
    rw [filtered_array] at h
    split_ifs at h
    obtain rfl := Option.some.inj h
    refine .array ?_ (fun e he => ?_) fun e he => ?_
    · rw [filterSlots_eq]
      exact hdistinct.filterMapValues _
    · obtain ⟨v, hv, -⟩ := mem_filterSlots.mp he
      exact hkeys (e.1, v) hv
    · obtain ⟨v, hv, hfiltered⟩ := mem_filterSlots.mp he
      exact ih _ hv (hvalues _ hv) _ hfiltered

end ExtHttp
