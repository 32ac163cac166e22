import ExtHttp.UpdateLeaves

/-!
# What an update keeps

A leaf that is there already with the same value is lost, so an update that brings a leaf does not
do so twice.
-/
namespace ExtHttp

variable {σ : Type}

/-- The path comes to something that is no array, or it is all there. -/
def Slot.Mentions (v : Slot σ) : List ArrayKey → Prop
  | [] => True
  | key :: path => match v with
    | .array ht => ∃ u, Assoc.find ht key = some u ∧ u.Mentions path
    | _ => True

/-- A leaf of the parameters, with a key that is not public, that the update does not come to: the
leaf is there already, or the array that it is in is new. -/
def Spared (s : σ) (qarray : Slots σ) : List ArrayKey → Prop
  | [] => False
  | key :: path =>
      if key.isPublic then
        match Assoc.find qarray key with
        | none => ∃ k ∈ path, k.isPublic = false
        | some entry => Spared s entry.toArray path
      else (Slot.array qarray).leaf (key :: path) = some s

section Kept
variable [DecidableEq σ]

/-- Leaves of the parameters are there, leaves that are not mentioned stay, and once more changes
nothing. -/
structure UpdateKeeps (qarray params : Slots σ) : Prop where
  present : ∀ path s, (Slot.array params).leaf path = some s →
    (Slot.array (querystringUpdate qarray params)).leaf path = some s
  unchanged : ∀ path s, (Slot.array qarray).leaf path = some s →
    ¬ (Slot.array params).Mentions path →
    (Slot.array (querystringUpdate qarray params)).leaf path = some s
  again : querystringUpdate (querystringUpdate qarray params) params =
    querystringUpdate qarray params

/-! ### Leaves -/

omit [DecidableEq σ] in
theorem leaf_cons_some {v : Slot σ} {key : ArrayKey} {path : List ArrayKey} {s : σ}
    (h : v.leaf (key :: path) = some s) :
    ∃ ht u, v = .array ht ∧ Assoc.find ht key = some u ∧ u.leaf path = some s := by
  cases v with
  | array ht =>
    rw [Slot.leaf_cons] at h
    obtain ⟨u, hu, hleaf⟩ := Option.bind_eq_some_iff.mp h
    exact ⟨ht, u, rfl, hu, hleaf⟩
  | _ => cases h

omit [DecidableEq σ] in
theorem leaf_nil_some {v : Slot σ} {s : σ} (h : v.leaf [] = some s) : v = .scalar s := by
  cases v with
  | scalar t => rw [Slot.leaf_eq_some] at h; exact congrArg _ (Option.some.inj (Option.some.inj h))
  | _ => cases h

theorem leaf_unmentioned {path : List ArrayKey} {s : σ} {qarray params : Slots σ}
    (hq : (Slot.array qarray).Plain) (hparams : (Slot.array params).Plain)
    (hleaf : (Slot.array qarray).leaf path = some s) (hnot : ¬ (Slot.array params).Mentions path) :
    (Slot.array (querystringUpdate qarray params)).leaf path = some s := by
  induction path generalizing qarray params with
  | nil => cases hleaf
  | cons key path ih =>
    rw [leaf_update hq.keyed hparams, updatedSlot]
    rw [Slot.leaf_cons] at hleaf
    split_ifs with hpublic
    · cases hparam : Assoc.find params key with
      | none => rw [Option.elim_none, hleaf]
      | some param =>
        have hrest : ¬ param.Mentions path := fun h => hnot ⟨param, hparam, h⟩
        obtain ⟨entry, hentry, hleaf⟩ := Option.bind_eq_some_iff.mp hleaf
        cases param with
        | array ht =>
          cases path with
          | nil => exact absurd trivial hrest
          | cons k path =>
            obtain ⟨ht', u, rfl, hu, hleafu⟩ := leaf_cons_some hleaf
            have hplain := hq.found hentry
            rw [Option.elim_some, hentry, mergedSlot, Option.elim_some, Option.bind_some,
              hplain.toArray_array]
            exact ih hplain (hparams.found hparam) hleaf hrest
        | _ =>
          refine absurd ?_ hrest
          cases path <;> trivial
    · exact hleaf

/-- A leaf that is spared is there behind the update. -/
theorem Spared.present {path : List ArrayKey} {s : σ} {qarray params : Slots σ}
    (hq : (Slot.array qarray).Plain) (hparams : (Slot.array params).Plain)
    (hleaf : (Slot.array params).leaf path = some s) (h : Spared s qarray path) :
    (Slot.array (querystringUpdate qarray params)).leaf path = some s := by
  induction path generalizing qarray params with
  | nil => cases h
  | cons key path ih =>
    rw [leaf_update hq.keyed hparams, updatedSlot]
    obtain ⟨ht, param, hht, hparam, hleafp⟩ := leaf_cons_some hleaf
    obtain rfl := Slot.array.inj hht
    rw [Spared] at h
    split_ifs at h ⊢ with hpublic
    · rw [hparam, Option.elim_some]
      cases path with
      | nil =>
        -- a leaf behind public keys
        cases hentry : Assoc.find qarray key with
        | none => rw [hentry] at h; simp at h
        | some entry => rw [hentry] at h; exact h.elim
      | cons k path =>
        obtain ⟨w, u, rfl, hu, hleafu⟩ := leaf_cons_some hleafp
        cases hentry : Assoc.find qarray key with
        | none => exact hleafp
        | some entry =>
          rw [hentry] at h
          exact ih (hq.found hentry).toArray (hparams.found hparam) hleafp h
    · rw [Slot.leaf_cons] at h
      exact h

/-! ### Once more -/

omit [DecidableEq σ] in
theorem filterSlots_nil {ht : Slots σ} (h : ∀ e ∈ ht, e.2.filtered = none) :
    filterSlots ht = [] := by
  refine List.eq_nil_iff_forall_not_mem.mpr fun e he => ?_
  obtain ⟨v, hv, hfiltered⟩ := mem_filterSlots.mp he
  rw [h _ hv] at hfiltered
  cases hfiltered

omit [DecidableEq σ] in
theorem filtered_leafless (v : Slot σ) : v.Plain → (∀ path s, v.leaf path ≠ some s) →
    v.filtered = none := by
  induction v using Slot.ind with
  | undef => intro h; cases h
  | null => exact fun _ _ => rfl
  | scalar s => exact fun _ h => absurd rfl (h [] s)
  | array ht ih =>
    intro hplain h
    obtain ⟨hdistinct, -, hvalues⟩ := hplain.entries
    rw [filtered_array, if_pos]
    refine filterSlots_nil fun e he => ih e he (hvalues e he) fun path s hleaf =>
      h (e.1 :: path) s ?_
    rw [Slot.leaf_cons, hdistinct.find he, Option.bind_some, hleaf]

/-- An update with this value leaves the buckets as they are, but for some that the filter takes
away. -/
def SettledSlot (qarray : Slots σ) (key : ArrayKey) (v : Slot σ) : Prop :=
  key.isPublic = true → match v with
    | .undef => True
    | .null => Assoc.find qarray key = none
    | .scalar _ => False
    | .array ht => match Assoc.find qarray key with
      | some entry => entry = .array (querystringUpdate entry.toArray ht)
      | none => (Slot.array ht).filtered = none

theorem updateEntry_settled {qarray more : Slots σ} {key : ArrayKey} (hkey : key.added = key)
    {v : Slot σ} (h : SettledSlot qarray key v) (hnew : Assoc.find more key = none)
    (hmore : filterSlots more = []) :
    ∃ more', updateEntry (qarray ++ more) key v = qarray ++ more' ∧ filterSlots more' = [] ∧
      ∀ k ≠ key, Assoc.find more' k = Assoc.find more k := by
  have hsame : ∃ more', qarray ++ more = qarray ++ more' ∧ filterSlots more' = [] ∧
      ∀ k ≠ key, Assoc.find more' k = Assoc.find more k := ⟨more, rfl, hmore, fun _ _ => rfl⟩
  cases hpublic : key.isPublic with
  | false => cases v <;> simpa [updateEntry, hpublic] using hsame
  | true =>
    have hv := h hpublic
    have hfind : Assoc.find (qarray ++ more) key = Assoc.find qarray key := by
      rw [Assoc.find_append, hnew, Option.or_none]
    cases v with
    | undef => exact hsame
    | null =>
      rw [updateEntry, if_pos hpublic, Assoc.erase_of_none (hfind.trans hv)]
      exact hsame
    | scalar => exact hv.elim
    | array ht =>
      rw [updateEntry, if_pos hpublic, hfind]
      dsimp only at hv
      cases hentry : Assoc.find qarray key with
      | some entry =>
        rw [hentry] at hv
        dsimp only at hv ⊢
        rw [← querystringUpdate, ← hv, Assoc.set_same (hfind.trans hentry)]
        exact hsame
      | none =>
        rw [hentry] at hv
        dsimp only at hv ⊢
        rw [hkey, Assoc.set_of_none (hfind.trans hentry), List.append_assoc]
        refine ⟨more ++ [(key, .array ht)], rfl, ?_, fun k hk => ?_⟩
        · rw [filterSlots_append, hmore, filterSlots, hv]
          rfl
        · rw [Assoc.find_append, Assoc.find_cons, if_neg (Ne.symm hk), Assoc.find_nil,
            Option.or_none]

theorem update_settled {qarray params : Slots σ} (hdistinct : Assoc.Distinct params)
    (hkeys : ∀ e ∈ params, e.1.added = e.1) (h : ∀ e ∈ params, SettledSlot qarray e.1 e.2)
    (hfiltered : filterSlots qarray = qarray) : querystringUpdate qarray params = qarray := by
  suffices hloop : ∀ more, filterSlots more = [] → (∀ e ∈ params, Assoc.find more e.1 = none) →
      filterSlots (updateEntries (qarray ++ more) params) = qarray by
    have hnil := hloop [] rfl fun _ _ => rfl
    rwa [List.append_nil] at hnil
  intro more hmore hnew
  induction params generalizing more with
  | nil => rw [updateEntries, filterSlots_append, hfiltered, hmore, List.append_nil]
  | cons e params ih =>
    obtain ⟨key, v⟩ := e
    obtain ⟨hnone, hrest⟩ := hdistinct.cons
    obtain ⟨more', hstep, hmore', hother⟩ := updateEntry_settled (hkeys _ List.mem_cons_self)
      (h _ List.mem_cons_self) (hnew _ List.mem_cons_self) hmore
    rw [updateEntries, hstep]
    refine ih hrest (fun e he => hkeys e (List.mem_cons_of_mem _ he))
      (fun e he => h e (List.mem_cons_of_mem _ he)) more' hmore' fun e he => ?_
    have hne : e.1 ≠ key := by
      intro heq
      exact Assoc.find_eq_none.mp hnone (heq ▸ (List.mem_map_of_mem he : e.1 ∈ params.map Prod.fst))
    rw [hother _ hne]
    exact hnew e (List.mem_cons_of_mem _ he)

/-- Parameters without public leaves, when they are what was updated. -/
theorem update_self {params : Slots σ} (hparams : (Slot.array params).Plain)
    (h : ∀ path s, (Slot.array params).leaf path = some s → ∃ k ∈ path, k.isPublic = false) :
    querystringUpdate (filterSlots params) params = filterSlots params := by
  suffices hall : ∀ v : Slot σ, ∀ params, v = .array params → v.Plain →
      (∀ path s, v.leaf path = some s → ∃ k ∈ path, k.isPublic = false) →
      querystringUpdate (filterSlots params) params =
        filterSlots params from hall _ params rfl hparams h
  intro v
  induction v using Slot.ind with
  | undef | null | scalar => intro params h; cases h
  | array ht ih =>
    intro params hv hplain hleaf
    obtain rfl := Slot.array.inj hv
    obtain ⟨hdistinct, hkeys, hvalues⟩ := hplain.entries
    refine update_settled hdistinct hkeys (fun e he hpublic => ?_) (filterSlots_filterSlots ht)
    have hfind := find_filterSlots hdistinct e.1
    rw [hdistinct.find he, Option.bind_some] at hfind
    have hbelow : ∀ path s, e.2.leaf path = some s → ∃ k ∈ path, k.isPublic = false := by
      intro path s hs
      obtain ⟨k, hk, hnot⟩ := hleaf (e.1 :: path) s (by
        rw [Slot.leaf_cons, hdistinct.find he, Option.bind_some, hs])
      rcases List.mem_cons.mp hk with rfl | hk
      · rw [hpublic] at hnot
        cases hnot
      · exact ⟨k, hk, hnot⟩
    have hplaine := hvalues e he
    have hihe := ih e he
    revert hfind hbelow hplaine hihe
    cases e.2 with
    | undef => intros; trivial
    | null => intro hfind _ _ _; exact hfind
    | scalar s =>
      intro _ hbelow _ _
      obtain ⟨k, hk, -⟩ := hbelow [] s rfl
      cases hk
    | array w =>
      intro hfind hbelow hplaine hihe
      dsimp only
      rw [hfind, filtered_array]
      split_ifs with hnil
      · rfl
      · have hnew := filtered_plain _ hplaine (.array (filterSlots w))
          (by rw [filtered_array, if_neg hnil])
        dsimp only
        rw [hnew.toArray_array, hihe w rfl hplaine hbelow]

theorem find_querystringUpdate {qarray params : Slots σ} (hq : (Slot.array qarray).Keyed)
    (hparams : (Slot.array params).Plain) (key : ArrayKey) :
    Assoc.find (querystringUpdate qarray params) key =
      (updatedSlot key (Assoc.find qarray key) (Assoc.find params key)).bind Slot.filtered := by
  obtain ⟨hdistinct, hkeys, -⟩ := hparams.entries
  rw [querystringUpdate, find_filterSlots (updateEntries_distinct hq.entries.1 params),
    find_updateEntries _ hdistinct hkeys]

omit [DecidableEq σ] in
theorem filtered_eq_undef {v : Slot σ} (h : v.filtered = some .undef) : v = .undef := by
  cases v with
  | undef => rfl
  | array ht => rw [filtered_array] at h; split_ifs at h; cases Option.some.inj h
  | _ => cases h

/-- Then no bucket has become undefined. -/
theorem toArray_update {qarray params : Slots σ} (hq : (Slot.array qarray).Plain)
    (hparams : (Slot.array params).Plain)
    (h : ∀ path s, (Slot.array params).leaf path = some s → Spared s qarray path) :
    (Slot.array (querystringUpdate qarray params)).toArray = querystringUpdate qarray params := by
  refine List.filter_eq_self.mpr fun e he => ?_
  rw [Bool.not_eq_true']
  by_contra hundef
  have hv : e.2 = .undef := by
    cases hv : e.2 <;> simp_all [Slot.isUndef]
  have hkeyed : (Slot.array (querystringUpdate qarray params)).Keyed :=
    filterSlots_keyed (update_keyed hparams hq.keyed)
  have hfind := find_querystringUpdate hq.keyed hparams e.1
  rw [hkeyed.entries.1.find he, hv] at hfind
  obtain ⟨v, hmerged, hfiltered⟩ := Option.bind_eq_some_iff.mp hfind.symm
  obtain rfl := filtered_eq_undef hfiltered
  have hentry : Assoc.find qarray e.1 ≠ some .undef := fun hentry => by cases hq.found hentry
  rw [updatedSlot] at hmerged
  split_ifs at hmerged with hpublic
  · cases hparam : Assoc.find params e.1 with
    | none => exact hentry (by rw [hparam] at hmerged; exact hmerged)
    | some param =>
      rw [hparam, Option.elim_some] at hmerged
      cases param with
      | undef => exact hentry hmerged
      | null => cases hmerged
      | array w => cases hmerged
      | scalar s =>
        have hspared := h [e.1] s (by rw [Slot.leaf_cons, hparam]; rfl)
        rw [Spared, if_pos hpublic] at hspared
        split at hspared
        · simp at hspared
        · exact hspared
  · exact hentry hmerged

/-- Where all leaves of the parameters are spared, nothing is left for the next time. -/
theorem update_update {qarray params : Slots σ} (hq : (Slot.array qarray).Plain)
    (hparams : (Slot.array params).Plain)
    (h : ∀ path s, (Slot.array params).leaf path = some s → Spared s qarray path) :
    querystringUpdate (querystringUpdate qarray params) params =
      querystringUpdate qarray params := by
  suffices hall : ∀ v : Slot σ, ∀ params, v = .array params → v.Plain → ∀ qarray,
      (Slot.array qarray).Plain →
      (∀ path s, v.leaf path = some s → Spared s qarray path) →
      querystringUpdate (querystringUpdate qarray params) params =
        querystringUpdate qarray params from
    hall _ params rfl hparams qarray hq h
  intro v
  induction v using Slot.ind with
  | undef | null | scalar => intro params h; cases h
  | array ht ih =>
    intro params hv hplain qarray hq hspared
    obtain rfl := Slot.array.inj hv
    obtain ⟨hdistinct, hkeys, hvalues⟩ := hplain.entries
    refine update_settled hdistinct hkeys (fun e he hpublic => ?_) (filterSlots_filterSlots _)
    have hfind : Assoc.find (querystringUpdate qarray ht) e.1 =
        (mergedSlot (Assoc.find qarray e.1) e.2).bind Slot.filtered := by
      rw [querystringUpdate, find_filterSlots (updateEntries_distinct hq.keyed.entries.1 ht),
        find_updateEntries _ hdistinct hkeys, updatedSlot, if_pos hpublic, hdistinct.find he,
        Option.elim_some]
    have hbelow : ∀ path s, e.2.leaf path = some s →
        Spared s qarray (e.1 :: path) := fun path s hs =>
      hspared (e.1 :: path) s (by rw [Slot.leaf_cons, hdistinct.find he, Option.bind_some, hs])
    have hplaine := hvalues e he
    have hihe := ih e he
    revert hfind hbelow hplaine hihe
    cases e.2 with
    | undef => intros; trivial
    | null => intro hfind _ _ _; exact hfind
    | scalar s =>
      intro _ hbelow _ _
      have hnot := hbelow [] s rfl
      rw [Spared, if_pos hpublic] at hnot
      split at hnot
      · simp at hnot
      · exact hnot
    | array w =>
      intro hfind hbelow hplaine hihe
      dsimp only
      cases hentry : Assoc.find qarray e.1 with
      | none =>
        -- the array is new
        have hleaf : ∀ path s, (Slot.array w).leaf path = some s → ∃ k ∈ path,
            k.isPublic = false := by
          intro path s hs
          have hs := hbelow path s hs
          rw [Spared, if_pos hpublic, hentry] at hs
          exact hs
        rw [hfind, hentry, mergedSlot, Option.elim_none, Option.bind_some, filtered_array]
        split_ifs with hnil
        · rfl
        · have hnew := filtered_plain _ hplaine (.array (filterSlots w))
            (by rw [filtered_array, if_neg hnil])
          dsimp only
          rw [hnew.toArray_array, update_self hplaine hleaf]
      | some entry =>
        have hspare : ∀ path s, (Slot.array w).leaf path = some s →
            Spared s entry.toArray path := by
          intro path s hs
          have hs := hbelow path s hs
          rw [Spared, if_pos hpublic, hentry] at hs
          exact hs
        have hentryPlain := (hq.found hentry).toArray
        rw [hfind, hentry, mergedSlot, Option.elim_some, Option.bind_some, filtered_array,
          querystringUpdate, filterSlots_filterSlots, ← querystringUpdate]
        split_ifs with hnil
        · refine filtered_leafless _ hplaine fun path s hs => ?_
          have hpresent := (hspare path s hs).present hentryPlain hplaine hs
          rw [hnil] at hpresent
          cases path <;> cases hpresent
        · dsimp only
          rw [toArray_update hentryPlain hplaine hspare, hihe w rfl hplaine _ hentryPlain hspare]

/-! ### A leaf twice -/

omit [DecidableEq σ] in
theorem leaf_toArray {v : Slot σ} (h : v.Keyed) {key : ArrayKey} {path : List ArrayKey} {s : σ}
    (hleaf : v.leaf (key :: path) = some s) : (Slot.array v.toArray).leaf (key :: path) =
      some s := by
  obtain ⟨ht, u, rfl, hu, hleafu⟩ := leaf_cons_some hleaf
  have hdefined : u.isUndef = false := by
    cases u with
    | undef => cases path <;> cases hleafu
    | _ => rfl
  have hmem : (key, u) ∈ (Slot.array ht).toArray :=
    List.mem_filter.mpr ⟨Assoc.mem_of_find hu, by rw [hdefined]; rfl⟩
  rw [Slot.leaf_cons, (toArray_keyed h).entries.1.find hmem, Option.bind_some, hleafu]

/-- A leaf behind public keys that is there already is lost. -/
theorem leaf_again {path : List ArrayKey} {s : σ} {qarray params : Slots σ}
    (hq : (Slot.array qarray).Keyed) (hparams : (Slot.array params).Plain)
    (hpublic : ∀ k ∈ path, k.isPublic = true) (hleaf : (Slot.array params).leaf path = some s)
    (hthere : (Slot.array qarray).leaf path = some s) :
    (Slot.array (querystringUpdate qarray params)).leaf path ≠ some s := by
  induction path generalizing qarray params with
  | nil => cases hleaf
  | cons key path ih =>
    obtain ⟨ht, param, hht, hparam, hleafp⟩ := leaf_cons_some hleaf
    obtain rfl := Slot.array.inj hht
    obtain ⟨ht, entry, hht, hentry, hleafe⟩ := leaf_cons_some hthere
    obtain rfl := Slot.array.inj hht
    rw [leaf_update hq hparams, updatedSlot, if_pos (hpublic key List.mem_cons_self),
      hparam, hentry, Option.elim_some]
    cases path with
    | nil =>
      obtain rfl := leaf_nil_some hleafp
      obtain rfl := leaf_nil_some hleafe
      simp [mergedSlot, Slot.isIdentical, Slot.leaf, Slot.endAt, Slot.get]
    | cons k path =>
      obtain ⟨w, u, rfl, hu, hleafu⟩ := leaf_cons_some hleafp
      have hentryKeyed := hq.entries.2 _ (Assoc.mem_of_find hentry)
      exact ih (toArray_keyed hentryKeyed) (hparams.found hparam)
        (fun k hk => hpublic k (List.mem_cons_of_mem _ hk)) hleafp (leaf_toArray hentryKeyed hleafe)

/-- A leaf with a key that is not public and that is there behind the update is spared. -/
theorem spared_of_present {path : List ArrayKey} {s : σ} {qarray params : Slots σ}
    (hq : (Slot.array qarray).Plain) (hparams : (Slot.array params).Plain)
    (hleaf : (Slot.array params).leaf path = some s)
    (hpresent : (Slot.array (querystringUpdate qarray params)).leaf path = some s)
    (hnot : ∃ k ∈ path, k.isPublic = false) : Spared s qarray path := by
  induction path generalizing qarray params with
  | nil => cases hleaf
  | cons key path ih =>
    obtain ⟨ht, param, hht, hparam, hleafp⟩ := leaf_cons_some hleaf
    obtain rfl := Slot.array.inj hht
    rw [leaf_update hq.keyed hparams, updatedSlot, hparam, Option.elim_some] at hpresent
    rw [Spared]
    split_ifs at hpresent ⊢ with hpublic
    · have hrest : ∃ k ∈ path, k.isPublic = false := by
        obtain ⟨k, hk, hkey⟩ := hnot
        rcases List.mem_cons.mp hk with rfl | hk
        · rw [hpublic] at hkey
          cases hkey
        · exact ⟨k, hk, hkey⟩
      cases hentry : Assoc.find qarray key with
      | none => exact hrest
      | some entry =>
        dsimp only
        cases path with
        | nil => simp at hrest
        | cons k path =>
          obtain ⟨w, u, rfl, hu, hleafu⟩ := leaf_cons_some hleafp
          rw [hentry] at hpresent
          exact ih (hq.found hentry).toArray (hparams.found hparam) hleafp hpresent hrest
    · rw [Slot.leaf_cons]
      exact hpresent

end Kept

/-- An update keeps what it is to keep when it brings no leaf behind public keys, and only then;
other leaves are to be there already, or to be in an array that is new. -/
theorem updateKeeps_iff [DecidableEq σ] (qarray params : QueryArray σ) :
    UpdateKeeps qarray.entries params.entries ↔
      ∀ path s, (Slot.array params.entries).leaf path = some s → Spared s qarray.entries path := by
  constructor
  · intro h path s hleaf
    have hpresent := h.present path s hleaf
    refine spared_of_present qarray.plain params.plain hleaf hpresent ?_
    by_contra hpublic
    push Not at hpublic
    have hkeyed : (Slot.array (querystringUpdate qarray.entries params.entries)).Keyed :=
      filterSlots_keyed (update_keyed params.plain qarray.plain.keyed)
    have hlost := leaf_again hkeyed params.plain (fun k hk => by simpa using hpublic k hk)
      hleaf hpresent
    rw [h.again] at hlost
    exact hlost hpresent
  · intro h
    exact ⟨fun path s hs => (h path s hs).present qarray.plain params.plain hs,
      fun path s hs hnot => leaf_unmentioned qarray.plain params.plain hs hnot,
      update_update qarray.plain params.plain h⟩

/-- `a=1` -/
def oneLeaf : QueryArray Bytes where
  entries := [(.str (ascii "a"), .scalar (ascii "1"))]
  plain := by
    refine .array (List.nodup_singleton _) (fun e he => ?_) fun e he => ?_ <;>
      obtain rfl := List.mem_singleton.mp he
    · decide
    · exact .scalar _

/-- The value that is there already is lost. -/
theorem updateKeeps_same :
    querystringUpdate oneLeaf.entries oneLeaf.entries = [(.str (ascii "a"), .undef)] ∧
    ¬ UpdateKeeps oneLeaf.entries oneLeaf.entries := by
  have hlost : querystringUpdate oneLeaf.entries oneLeaf.entries =
      [(.str (ascii "a"), .undef)] := rfl
  refine ⟨hlost, fun h => ?_⟩
  have hpresent := h.present [.str (ascii "a")] (ascii "1") rfl
  rw [hlost] at hpresent
  cases hpresent

end ExtHttp
