import ExtHttp.QueryKept

/-!
# Empty arrays

The filter takes away what is null and arrays without buckets. A bucket that has become undefined is
still counted, so an array may stay in which there is nothing to see.
-/
namespace ExtHttp

variable {σ : Type}

/-- What is found at a path, where what is no array stands for an array with the index 0. -/
def Slot.walk : Slot σ → List ArrayKey → Option (Slot σ)
  | v, [] => some v
  | v, key :: path => (Assoc.find v.toArray key).bind fun u => u.walk path

/-- The parameters have, behind public keys, the leaf that is there. -/
def Repeated (qarray params : Slots σ) (path : List ArrayKey) : Prop :=
  (∀ k ∈ path, k.isPublic = true) ∧ ∃ s, (Slot.array params).leaf path = some s ∧
    (Slot.array qarray).walk path = some (.scalar s)

/-- A leaf that the parameters do not mention, or one of theirs -/
def Remains (qarray params : Slots σ) : List ArrayKey → Prop
  | [] => False
  | key :: path =>
      match if key.isPublic then Assoc.find params key else none with
      | none => ∃ s, (Slot.array qarray).leaf (key :: path) = some s
      | some (.array ht) =>
        match Assoc.find qarray key with
        | some entry => Remains entry.toArray ht path
        | none => ∃ s, (Slot.array ht).leaf path = some s
      | some (.scalar _) => path = []
      | some _ => False

/-- No null, and in each array below the top something to see. -/
def Pruned (ht : Slots σ) : Prop :=
  ∀ path v, (Slot.array ht).get path = some v → v ≠ .null ∧
    ∀ entries, v = .array entries → path ≠ [] → ∃ e ∈ entries, e.2.isUndef = false

/-! ### Ends of paths -/

theorem Slot.Plain.get {path : List ArrayKey} {v u : Slot σ} (h : v.Plain)
    (hget : v.get path = some u) :
    u.Plain := by
  induction path generalizing v with
  | nil => exact Option.some.inj hget ▸ h
  | cons key path ih =>
    cases v with
    | array ht =>
      obtain ⟨w, hw, hgetw⟩ := Option.bind_eq_some_iff.mp hget
      exact ih (h.found hw) hgetw
    | _ => cases hget

theorem Slot.Plain.endAt {v : Slot σ} (h : v.Plain) (path : List ArrayKey) :
    v.endAt path ≠ some none := by
  intro hend
  obtain ⟨u, hget, hu⟩ := Option.bind_eq_some_iff.mp hend
  cases h.get hget <;> cases hu

theorem Slot.Plain.leaf {v : Slot σ} (h : v.Plain) (path : List ArrayKey) :
    v.endAt path ≠ none ↔ ∃ s, v.leaf path = some s := by
  rw [Slot.leaf]
  cases hend : v.endAt path with
  | none => simp
  | some o =>
    cases o with
    | none => exact absurd hend (h.endAt path)
    | some s => simp

theorem walk_toArray {v : Slot σ} (h : v.Plain) (key : ArrayKey) (path : List ArrayKey) :
    (Slot.array v.toArray).walk (key :: path) = v.walk (key :: path) := by
  rw [Slot.walk, Slot.walk, h.toArray.toArray_array]

section Pruned
variable [DecidableEq σ]

/-- What ends in an updated array is what remains. -/
theorem endAt_remains {path : List ArrayKey} {qarray params : Slots σ}
    (hq : (Slot.array qarray).Plain) (hparams : (Slot.array params).Plain) :
    (Slot.array (querystringUpdate qarray params)).endAt path ≠ none ↔
      Remains qarray params path := by
  induction path generalizing qarray params with
  | nil => simp [Slot.endAt, Slot.get, Remains]
  | cons key path ih =>
    rw [endAt_update hq.keyed hparams, updatedSlot, Remains]
    have hold : ((Assoc.find qarray key).bind fun v => v.endAt path) ≠ none ↔
        ∃ s, (Slot.array qarray).leaf (key :: path) = some s := by
      rw [← Slot.endAt_cons, hq.leaf]
    split_ifs with hpublic
    · cases hparam : Assoc.find params key with
      | none => exact hold
      | some param =>
        have hplain := hparams.found hparam
        cases param with
        | undef => cases hplain
        | null => simp [mergedSlot]
        | scalar s =>
          rw [Option.elim_some, mergedSlot, Option.bind_some]
          split_ifs <;> cases path <;> simp [Slot.endAt, Slot.get]
        | array ht =>
          rw [Option.elim_some, mergedSlot, Option.bind_some]
          cases hentry : Assoc.find qarray key with
          | none => exact hplain.leaf path
          | some entry => exact ih (hq.found hentry).toArray hplain
    · exact hold

/-- The undefined buckets of an updated array are the repeated leaves. -/
theorem endAt_repeated {path : List ArrayKey} {qarray params : Slots σ}
    (hq : (Slot.array qarray).Plain) (hparams : (Slot.array params).Plain) :
    (Slot.array (querystringUpdate qarray params)).endAt path = some none ↔
      Repeated qarray params path := by
  induction path generalizing qarray params with
  | nil => simp [Slot.endAt, Slot.get, Repeated, Slot.leaf]
  | cons key path ih =>
    rw [endAt_update hq.keyed hparams, updatedSlot, Repeated, Slot.leaf_cons, Slot.walk,
      hq.toArray_array, List.forall_mem_cons]
    have hold : ((Assoc.find qarray key).bind fun v => v.endAt path) ≠ some none := by
      rw [← Slot.endAt_cons]
      exact hq.endAt _
    split_ifs with hpublic
    · cases hparam : Assoc.find params key with
      | none => simp [hold]
      | some param =>
        have hplain := hparams.found hparam
        cases param with
        | undef => cases hplain
        | null => cases path <;> simp [mergedSlot, Slot.leaf, Slot.endAt, Slot.get]
        | scalar s =>
          rw [Option.elim_some, mergedSlot, Option.bind_some, Option.bind_some]
          cases path with
          | cons k path => split_ifs <;> simp [Slot.leaf, Slot.endAt, Slot.get]
          | nil =>
            cases hentry : Assoc.find qarray key with
            | none => simp [Slot.endAt, Slot.get]
            | some entry =>
              cases entry with
              | scalar t =>
                by_cases hsame : t = s <;>
                  simp [Slot.isIdentical, Slot.walk, Slot.leaf, Slot.endAt, Slot.get,
                    hpublic, hsame]
              | _ => simp [Slot.isIdentical, Slot.walk, Slot.leaf, Slot.endAt, Slot.get]
        | array ht =>
          rw [Option.elim_some, mergedSlot, Option.bind_some]
          cases hentry : Assoc.find qarray key with
          | none => simp [hplain.endAt path]
          | some entry =>
            have hrest := ih (hq.found hentry).toArray hplain
            rw [Option.elim_some, hrest, Repeated, Option.bind_some]
            cases path with
            | nil => simp [Slot.leaf, Slot.endAt, Slot.get]
            | cons k path => simp [walk_toArray (hq.found hentry), hpublic]
    · simp [hold, hpublic]

/-! ### What the filter leaves -/

omit [DecidableEq σ] in
theorem Slot.get_append (v : Slot σ) (p path : List ArrayKey) :
    v.get (p ++ path) = (v.get p).bind fun u => u.get path := by
  induction p generalizing v with
  | nil => rfl
  | cons key p ih =>
    cases v with
    | array ht =>
      rw [List.cons_append, Slot.get, Slot.get, Option.bind_assoc]
      exact congrArg _ (funext fun u => ih u)
    | _ => rfl

omit [DecidableEq σ] in
theorem Slot.endAt_append (v : Slot σ) (p path : List ArrayKey) :
    v.endAt (p ++ path) = (v.get p).bind fun u => u.endAt path := by
  rw [Slot.endAt, Slot.get_append, Option.bind_assoc]
  rfl

omit [DecidableEq σ] in
theorem endAt_undef {v : Slot σ} {path : List ArrayKey} :
    v.endAt path = some none ↔ v.get path = some .undef := by
  rw [Slot.endAt]
  cases v.get path with
  | none => simp
  | some u => cases u <;> simp

/-- No null and no array without buckets. -/
def Slot.Clean (v : Slot σ) : Prop :=
  ∀ path u, v.get path = some u → u ≠ .null ∧ ∀ ht, u = .array ht → ht ≠ []

omit [DecidableEq σ] in
theorem filtered_clean {v w : Slot σ} (hv : v.Keyed) (h : v.filtered = some w) : w.Clean := by
  intro path
  induction path generalizing v w with
  | nil =>
    rintro u hu
    obtain rfl := Option.some.inj hu
    cases v with
    | array ht =>
      rw [filtered_array] at h
      split_ifs at h with hnil
      obtain rfl := Option.some.inj h
      exact ⟨by simp, by rintro ht' ⟨⟩; exact hnil⟩
    | null => cases h
    | _ => obtain rfl := Option.some.inj h; simp
  | cons key path ih =>
    intro u hu
    cases v with
    | array ht =>
      rw [filtered_array] at h
      split_ifs at h with hnil
      obtain rfl := Option.some.inj h
      obtain ⟨w, hw, hget⟩ := Option.bind_eq_some_iff.mp hu
      obtain ⟨v, hmem, hfiltered⟩ := mem_filterSlots.mp (Assoc.mem_of_find hw)
      exact ih (hv.entries.2 _ hmem) hfiltered u hget
    | null => cases h
    | _ => obtain rfl := Option.some.inj h; cases hu

omit [DecidableEq σ] in
/-- Then there is an end. -/
theorem Slot.Clean.endAt {v : Slot σ} (h : v.Clean) (hkeyed : v.Keyed) :
    ∃ path, v.endAt path ≠ none := by
  induction v using Slot.ind with
  | undef => exact ⟨[], by simp [Slot.endAt, Slot.get]⟩
  | null => exact absurd rfl (h [] .null rfl).1
  | scalar s => exact ⟨[], by simp [Slot.endAt, Slot.get]⟩
  | array ht ih =>
    obtain ⟨e, he⟩ := List.exists_mem_of_ne_nil _ ((h [] _ rfl).2 ht rfl)
    obtain ⟨hdistinct, hvalues⟩ := hkeyed.entries
    have hfind := hdistinct.find he
    obtain ⟨path, hend⟩ := ih e he
      (fun path u hu => h (e.1 :: path) u (by rw [Slot.get, hfind]; exact hu)) (hvalues e he)
    exact ⟨e.1 :: path, by rwa [Slot.endAt_cons, hfind, Option.bind_some]⟩

theorem update_clean {qarray params : Slots σ} (hq : (Slot.array qarray).Keyed)
    (hparams : (Slot.array params).Plain) {e : ArrayKey × Slot σ}
    (he : e ∈ querystringUpdate qarray params) :
    e.2.Clean := by
  obtain ⟨v, hv, hfiltered⟩ := mem_filterSlots.mp he
  exact filtered_clean ((update_keyed hparams hq).entries.2 _ hv) hfiltered

omit [DecidableEq σ] in
theorem Slot.Keyed.get {path : List ArrayKey} {v u : Slot σ} (h : v.Keyed)
    (hget : v.get path = some u) :
    u.Keyed := by
  induction path generalizing v with
  | nil => exact Option.some.inj hget ▸ h
  | cons key path ih =>
    cases v with
    | array ht =>
      obtain ⟨w, hw, hgetw⟩ := Option.bind_eq_some_iff.mp hget
      exact ih (h.entries.2 _ (Assoc.mem_of_find hw)) hgetw
    | _ => cases hget

/-- What is found in an updated array is clean. -/
theorem update_get_clean {qarray params : Slots σ} (hq : (Slot.array qarray).Keyed)
    (hparams : (Slot.array params).Plain) {path : List ArrayKey} (hpath : path ≠ []) {v : Slot σ}
    (hget : (Slot.array (querystringUpdate qarray params)).get path = some v) : v.Clean := by
  obtain ⟨key, path, rfl⟩ := List.exists_cons_of_ne_nil hpath
  obtain ⟨w, hw, hgetw⟩ := Option.bind_eq_some_iff.mp hget
  intro p u hu
  exact update_clean hq hparams (Assoc.mem_of_find hw) (path ++ p) u (by
    rw [Slot.get_append, hgetw, Option.bind_some, hu])

end Pruned

/-- Only nulls are taken away and empty arrays, unless an array is left in which all leaves are
repeated. -/
theorem pruned_iff [DecidableEq σ] (qarray params : QueryArray σ) :
    Pruned (querystringUpdate qarray.entries params.entries) ↔
      ∀ path key, path ≠ [] → Repeated qarray.entries params.entries (path ++ [key]) →
        ∃ rest, Remains qarray.entries params.entries (path ++ rest) ∧
          ∀ k, rest = [k] → ¬ Repeated qarray.entries params.entries (path ++ [k]) := by
  have hq := qarray.plain
  have hparams := params.plain
  have hkeyed : (Slot.array (querystringUpdate qarray.entries params.entries)).Keyed :=
    filterSlots_keyed (update_keyed hparams hq.keyed)
  constructor
  · intro h path key hpath hrepeated
    rw [← endAt_repeated hq hparams, endAt_undef, Slot.get_append] at hrepeated
    obtain ⟨v, hget, hundef⟩ := Option.bind_eq_some_iff.mp hrepeated
    obtain ⟨entries, rfl⟩ : ∃ entries, v = .array entries := by
      cases v with
      | array entries => exact ⟨entries, rfl⟩
      | _ => cases hundef
    obtain ⟨e, he, hvisible⟩ := (h path _ hget).2 entries rfl hpath
    have hfind := (hkeyed.get hget).entries.1.find he
    have hgete : (Slot.array (querystringUpdate qarray.entries params.entries)).get
        (path ++ [e.1]) = some e.2 := by
      rw [Slot.get_append, hget, Option.bind_some, Slot.get, hfind]
      rfl
    obtain ⟨rest, hend⟩ := (update_get_clean hq.keyed hparams (by simp) hgete).endAt
      (hkeyed.get hgete)
    refine ⟨e.1 :: rest, ?_, ?_⟩
    · rw [← endAt_remains hq hparams, Slot.endAt_append, hget, Option.bind_some,
        Slot.endAt_cons, hfind]
      exact hend
    · rintro k ⟨rfl, rfl⟩ hagain
      rw [← endAt_repeated hq hparams, endAt_undef, hgete] at hagain
      rw [Option.some.inj hagain] at hvisible
      cases hvisible
  · intro h path v hget
    refine ⟨?_, ?_⟩
    · rintro rfl
      cases path with
      | nil => cases hget
      | cons key path => exact (update_get_clean hq.keyed hparams (by simp) hget [] _ rfl).1 rfl
    · rintro entries rfl hpath
      by_contra hnone
      push Not at hnone
      have hundef : ∀ e ∈ entries, e.2 = .undef := by
        intro e he
        have := hnone e he
        cases hv : e.2 <;> simp_all [Slot.isUndef]
      obtain ⟨e, he⟩ := List.exists_mem_of_ne_nil _
        ((update_get_clean hq.keyed hparams hpath hget [] _ rfl).2 entries rfl)
      have hrepeated : ∀ e ∈ entries, Repeated qarray.entries params.entries (path ++ [e.1]) := by
        intro e he
        rw [← endAt_repeated hq hparams, Slot.endAt_append, hget, Option.bind_some, Slot.endAt_cons,
          (hkeyed.get hget).entries.1.find he, hundef e he]
        rfl
      obtain ⟨rest, hremains, hother⟩ := h path e.1 hpath (hrepeated e he)
      rw [← endAt_remains hq hparams, Slot.endAt_append, hget, Option.bind_some] at hremains
      cases rest with
      | nil => exact hremains rfl
      | cons k rest =>
        rw [Slot.endAt_cons] at hremains
        obtain ⟨u, hu, hend⟩ : ∃ u, Assoc.find entries k = some u ∧ u.endAt rest ≠ none := by
          cases hu : Assoc.find entries k with
          | none => rw [hu] at hremains; exact absurd rfl hremains
          | some u => rw [hu] at hremains; exact ⟨u, rfl, hremains⟩
        have hmem := Assoc.mem_of_find hu
        have hv := hundef _ hmem
        dsimp only at hv
        subst hv
        cases rest with
        | nil => exact hother k rfl (hrepeated _ hmem)
        | cons => exact hend rfl

/-- `a[b]=1` -/
def nestedLeaf : QueryArray Bytes where
  entries := [(.str (ascii "a"), .array [(.str (ascii "b"), .scalar (ascii "1"))])]
  plain := by
    refine .array (List.nodup_singleton _) (fun e he => ?_) fun e he => ?_ <;>
      obtain rfl := List.mem_singleton.mp he
    · decide
    · refine .array (List.nodup_singleton _) (fun e he => ?_) fun e he => ?_ <;>
        obtain rfl := List.mem_singleton.mp he
      · decide
      · exact .scalar _

/-- An array stays in which there is nothing to see. -/
theorem pruned_nested :
    querystringUpdate nestedLeaf.entries nestedLeaf.entries =
      [(.str (ascii "a"), .array [(.str (ascii "b"), .undef)])] ∧
    ¬ Pruned (querystringUpdate nestedLeaf.entries nestedLeaf.entries) := by
  have hupdate : querystringUpdate nestedLeaf.entries nestedLeaf.entries =
      [(.str (ascii "a"), .array [(.str (ascii "b"), .undef)])] := rfl
  refine ⟨hupdate, fun h => ?_⟩
  rw [hupdate] at h
  obtain ⟨e, he, hvisible⟩ := (h [.str (ascii "a")] _ rfl).2 _ rfl (by simp)
  obtain rfl := List.mem_singleton.mp he
  cases hvisible

end ExtHttp
