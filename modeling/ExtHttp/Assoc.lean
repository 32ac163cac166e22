import Mathlib.Data.List.Nodup
import Mathlib.Data.List.Basic

/-!
# Association lists

Lists of keys with values in the order in which they came. A value is replaced in its place, and a
new key goes to the end.
-/
namespace Assoc

variable {κ α β : Type} [DecidableEq κ]

def find (ht : List (κ × α)) (key : κ) : Option α := (ht.find? fun e => e.1 = key).map Prod.snd

def set : List (κ × α) → κ → α → List (κ × α)
  | [], key, v => [(key, v)]
  | e :: ht, key, v => if e.1 = key then (key, v) :: ht else e :: set ht key v

def erase (ht : List (κ × α)) (key : κ) : List (κ × α) := ht.filter fun e => e.1 ≠ key

/-- Another value, or none, for each value. -/
def filterMapValues (f : α → Option β) (ht : List (κ × α)) : List (κ × β) :=
  ht.filterMap fun e => (f e.2).map (Prod.mk e.1)

/-- No key twice. -/
def Distinct (ht : List (κ × α)) : Prop := (ht.map Prod.fst).Nodup

@[simp] theorem find_nil (key : κ) : find ([] : List (κ × α)) key = none := rfl

theorem find_cons (e : κ × α) (ht : List (κ × α)) (key : κ) :
    find (e :: ht) key = if e.1 = key then some e.2 else find ht key := by
  unfold find
  rw [List.find?_cons]
  by_cases h : e.1 = key <;> simp [h]

theorem find_append (ht more : List (κ × α)) (key : κ) :
    find (ht ++ more) key = (find ht key).or (find more key) := by
  unfold find
  rw [List.find?_append, Option.map_or]

theorem find_eq_none {ht : List (κ × α)} {key : κ} :
    find ht key = none ↔ key ∉ ht.map Prod.fst := by
  induction ht with
  | nil => simp
  | cons e ht ih =>
    rw [find_cons, List.map_cons, List.mem_cons, not_or, ← ih]
    by_cases h : e.1 = key
    · simp [h]
    · simp [h, Ne.symm h]

theorem mem_of_find {ht : List (κ × α)} {key : κ} {v : α} (h : find ht key = some v) :
    (key, v) ∈ ht := by
  unfold find at h
  obtain ⟨e, he, rfl⟩ := Option.map_eq_some_iff.mp h
  have hkey := List.find?_some he
  rw [decide_eq_true_eq] at hkey
  exact hkey ▸ List.mem_of_find?_eq_some he

theorem Distinct.cons {e : κ × α} {ht : List (κ × α)} (h : Distinct (e :: ht)) :
    find ht e.1 = none ∧ Distinct ht := by
  rw [Distinct, List.map_cons, List.nodup_cons] at h
  exact ⟨find_eq_none.mpr h.1, h.2⟩

theorem Distinct.find {ht : List (κ × α)} (h : Distinct ht) {e : κ × α} (he : e ∈ ht) :
    Assoc.find ht e.1 = some e.2 := by
  induction ht with
  | nil => cases he
  | cons e' ht ih =>
    obtain ⟨hnone, hht⟩ := h.cons
    rw [find_cons]
    rcases List.mem_cons.mp he with rfl | he
    · rw [if_pos rfl]
    · rw [if_neg, ih hht he]
      intro heq
      rw [heq, ih hht he] at hnone
      cases hnone

/-! ### Values that are set -/

theorem find_set (ht : List (κ × α)) (key k : κ) (v : α) :
    find (set ht key v) k = if key = k then some v else find ht k := by
  induction ht with
  | nil => rw [set, find_cons, find_nil]
  | cons e ht ih =>
    rw [set]
    split_ifs with he hk hk
    · rw [find_cons, if_pos hk]
    · rw [find_cons, find_cons, if_neg hk, if_neg (he ▸ hk)]
    · rw [find_cons, if_neg (hk ▸ he), ih, if_pos hk]
    · rw [find_cons, find_cons, ih, if_neg hk]

theorem set_ne_nil (ht : List (κ × α)) (key : κ) (v : α) : set ht key v ≠ [] := by
  cases ht with
  | nil => exact List.cons_ne_nil _ _
  | cons e ht =>
    rw [set]
    split_ifs <;> exact List.cons_ne_nil _ _

theorem set_of_none {ht : List (κ × α)} {key : κ} (h : find ht key = none) (v : α) :
    set ht key v = ht ++ [(key, v)] := by
  induction ht with
  | nil => rfl
  | cons e ht ih =>
    rw [find_cons] at h
    split_ifs at h with he
    rw [set, if_neg he, ih h]
    rfl

theorem set_same {ht : List (κ × α)} {key : κ} {v : α} (h : find ht key = some v) :
    set ht key v = ht := by
  induction ht with
  | nil => cases h
  | cons e ht ih =>
    rw [find_cons] at h
    rw [set]
    split_ifs at h ⊢ with he
    · obtain rfl := Option.some.inj h
      rw [← he]
    · rw [ih h]

theorem set_set (ht : List (κ × α)) (key : κ) (v w : α) :
    set (set ht key v) key w = set ht key w := by
  induction ht with
  | nil => simp [set]
  | cons e ht ih =>
    simp only [set]
    split_ifs with he
    · rw [set, if_pos rfl]
    · rw [set, if_neg he, ih]

theorem mem_of_mem_set {ht : List (κ × α)} {key : κ} {v : α} {e : κ × α} (h : e ∈ set ht key v) :
    e ∈ ht ∨ e = (key, v) := by
  induction ht with
  | nil => exact .inr (List.mem_singleton.mp h)
  | cons e' ht ih =>
    rw [set] at h
    split_ifs at h
    · rcases List.mem_cons.mp h with rfl | h
      · exact .inr rfl
      · exact .inl (List.mem_cons_of_mem _ h)
    · rcases List.mem_cons.mp h with rfl | h
      · exact .inl List.mem_cons_self
      · exact (ih h).imp (List.mem_cons_of_mem _) id

/-- The entry behind the others is replaced. -/
theorem set_last {ht : List (κ × α)} {key : κ} (h : find ht key = none) (v w : α) :
    set (ht ++ [(key, v)]) key w = ht ++ [(key, w)] := by
  induction ht with
  | nil => simp [set]
  | cons e ht ih =>
    rw [find_cons] at h
    split_ifs at h with he
    rw [List.cons_append, set, if_neg he, ih h]
    rfl

theorem keys_set (ht : List (κ × α)) (key : κ) (v : α) :
    (set ht key v).map Prod.fst = if find ht key = none then ht.map Prod.fst ++ [key]
      else ht.map Prod.fst := by
  induction ht with
  | nil => simp [set]
  | cons e ht ih =>
    rw [set, find_cons]
    split_ifs with he hnone hnone
    · cases hnone
    · rw [List.map_cons, List.map_cons, he]
    · rw [List.map_cons, ih, if_pos hnone, List.map_cons, List.cons_append]
    · rw [List.map_cons, ih, if_neg hnone, List.map_cons]

theorem mem_keys_set {ht : List (κ × α)} {key k : κ} {v : α} :
    k ∈ (set ht key v).map Prod.fst ↔ k ∈ ht.map Prod.fst ∨ k = key := by
  rw [keys_set]
  split_ifs with hnone
  · rw [List.mem_append, List.mem_singleton]
  · rw [find_eq_none, not_not] at hnone
    exact ⟨.inl, fun h => h.elim id fun hk => hk ▸ hnone⟩

theorem Distinct.set {ht : List (κ × α)} (h : Distinct ht) (key : κ) (v : α) :
    Distinct (set ht key v) := by
  rw [Distinct, keys_set]
  split_ifs with hnone
  · rw [List.nodup_append]
    refine ⟨h, List.nodup_singleton key, fun k hk k' hk' hkk => ?_⟩
    rw [List.mem_singleton.mp hk'] at hkk
    exact find_eq_none.mp hnone (hkk ▸ hk)
  · exact h

/-! ### Keys that are taken away -/

theorem find_erase (ht : List (κ × α)) (key k : κ) :
    find (erase ht key) k = if key = k then none else find ht k := by
  induction ht with
  | nil => simp [erase]
  | cons e ht ih =>
    rw [erase, List.filter_cons, ← erase, find_cons]
    by_cases he : e.1 = key
    · rw [if_neg (by simp [he]), ih, he]
      split_ifs <;> rfl
    · rw [if_pos (by simp [he]), find_cons, ih]
      by_cases hk : key = k
      · subst hk
        rw [if_neg he, if_pos rfl, if_pos rfl]
      · rw [if_neg hk, if_neg hk]

theorem erase_of_none {ht : List (κ × α)} {key : κ} (h : find ht key = none) :
    erase ht key = ht := by
  refine List.filter_eq_self.mpr fun e he => ?_
  rw [decide_eq_true_eq]
  rintro rfl
  exact find_eq_none.mp h (List.mem_map_of_mem he)

theorem Distinct.erase {ht : List (κ × α)} (h : Distinct ht) (key : κ) : Distinct (erase ht key) :=
  (List.filter_sublist.map Prod.fst).nodup h

/-! ### Values that are filtered -/

theorem find_filterMapValues (f : α → Option β) {ht : List (κ × α)} (h : Distinct ht) (key : κ) :
    find (filterMapValues f ht) key = (find ht key).bind f := by
  induction ht with
  | nil => rfl
  | cons e ht ih =>
    obtain ⟨hnone, hht⟩ := h.cons
    rw [filterMapValues, List.filterMap_cons, ← filterMapValues, find_cons]
    cases he : f e.2 with
    | none =>
      rw [Option.map_none]
      split_ifs with hkey
      · rw [ih hht, ← hkey, hnone, Option.bind_some, he]
        rfl
      · exact ih hht
    | some v =>
      rw [Option.map_some, find_cons]
      split_ifs with hkey
      · rw [Option.bind_some, he]
      · exact ih hht

theorem Distinct.filterMapValues (f : α → Option β) {ht : List (κ × α)} (h : Distinct ht) :
    Distinct (filterMapValues f ht) := by
  refine List.Sublist.nodup ?_ h
  induction ht with
  | nil => exact List.Sublist.slnil
  | cons e ht ih =>
    have hrest := ih h.cons.2
    rw [Assoc.filterMapValues, List.filterMap_cons, ← Assoc.filterMapValues, List.map_cons]
    cases f e.2 with
    | none => exact hrest.cons e.1
    | some v => exact hrest.cons_cons e.1

end Assoc
