import ExtHttp.PhpValue

/-!
# Leaves

The leaves of nested arrays and the paths to them. `Value.put` writes at a path and makes the arrays
on the way; where no path goes on behind another, the last write to each path is what is found
there.
-/
namespace ExtHttp

namespace Entries

theorem find_update (ht : Entries) (key k : ArrayKey) (v : Value) :
    find (update ht key v) k = if key = k then some v else find ht k := Assoc.find_set ht key k v

@[simp] theorem find_update_self (ht : Entries) (key : ArrayKey) (v : Value) :
    find (update ht key v) key = some v := by
  rw [find_update, if_pos rfl]

theorem find_update_ne (ht : Entries) {key k : ArrayKey} (h : key ≠ k) (v : Value) :
    find (update ht key v) k = find ht k := by
  rw [find_update, if_neg h]

theorem update_update (ht : Entries) (key : ArrayKey) (v w : Value) :
    update (update ht key v) key w = update ht key w := Assoc.set_set ht key v w

theorem find_append (ht more : Entries) (key : ArrayKey) :
    find (ht ++ more) key = (find ht key).or (find more key) := Assoc.find_append ht more key

/-! ### The next index -/

section NextIndex
variable {ht : Entries} {below : Bool}

theorem mem_indices {i : ℤ} :
    (i ∈ ht.filterMap fun e => e.1.index) ↔ find ht (.long i) ≠ none := by
  rw [ne_eq, find_eq_none, not_not, List.mem_filterMap, List.mem_map]
  refine exists_congr fun e => and_congr_right fun _ => ?_
  cases e.1 <;> simp [ArrayKey.index]

theorem greatestIndex_eq_none : greatestIndex ht = none ↔ ∀ i : ℤ, find ht (.long i) = none := by
  rw [greatestIndex, List.max?_eq_none_iff, List.eq_nil_iff_forall_not_mem]
  simp only [mem_indices, not_not]

theorem greatestIndex_eq_some {n : ℤ} : greatestIndex ht = some n ↔
    find ht (.long n) ≠ none ∧ ∀ i : ℤ, find ht (.long i) ≠ none → i ≤ n := by
  rw [greatestIndex, List.max?_eq_some_iff]
  simp only [mem_indices]

/-- The next index is behind every index that there is. -/
theorem lt_nextIndex {i : ℤ} (h : find ht (.long i) ≠ none) : i < nextIndex below ht := by
  unfold nextIndex
  cases hgreatest : greatestIndex ht with
  | none => exact absurd (greatestIndex_eq_none.mp hgreatest i) h
  | some n =>
    have hle := (greatestIndex_eq_some.mp hgreatest).2 i h
    dsimp only
    split_ifs <;> omega

theorem find_nextIndex (below : Bool) (ht : Entries) :
    find ht (.long (nextIndex below ht)) = none := by
  by_contra h
  exact lt_irrefl _ (lt_nextIndex h)

/-- Where indices are below 0 only, the next one is 0. -/
theorem nextIndex_eq_zero
    (h : ∀ i : ℤ, find ht (.long i) ≠ none → i < 0 ∧ (below = true → -1 ≤ i)) :
    nextIndex below ht = 0 := by
  unfold nextIndex
  cases hgreatest : greatestIndex ht with
  | none => rfl
  | some n =>
    obtain ⟨hneg, hbelow⟩ := h n (greatestIndex_eq_some.mp hgreatest).1
    dsimp only
    split_ifs with hb
    · have := hbelow hb
      omega
    · omega

end NextIndex

end Entries

/-! ### Paths -/

/-- The entries, where there are any. -/
def Value.entries : Value → Entries
  | .array ht => ht
  | _ => []

/-- What is found at a path, unless it is an array. -/
def Value.leafAt (v : Value) (path : Path) : Option Value := (v.get path).filter fun w => !w.isArray

/-- Write at a path, whatever is on the way. -/
def Value.put : Value → Path → Value → Value
  | _, [], w => w
  | v, key :: path, w =>
      .array (Entries.update v.entries key (((Entries.find v.entries key).getD .null).put path w))

theorem Value.get_cons (v : Value) (key : ArrayKey) (path : Path) :
    v.get (key :: path) = (Entries.find v.entries key).bind fun u => u.get path := by
  cases v <;> rfl

theorem Value.get_append (v : Value) (p q : Path) :
    v.get (p ++ q) = (v.get p).bind fun u => u.get q := by
  induction p generalizing v with
  | nil => rfl
  | cons key p ih =>
    rw [List.cons_append, Value.get_cons, Value.get_cons]
    cases Entries.find v.entries key with
    | none => rfl
    | some u => exact ih u

/-- At the path and behind it there is what has been written. -/
theorem Value.get_put_append (v : Value) (path q : Path) (w : Value) :
    (v.put path w).get (path ++ q) = w.get q := by
  induction path generalizing v with
  | nil => rfl
  | cons key path ih =>
    rw [List.cons_append, Value.put, Value.get_cons, Value.entries, Entries.find_update_self]
    exact ih _

@[simp] theorem Value.get_put_self (v : Value) (path : Path) (w : Value) :
    (v.put path w).get path = some w := by
  have h := v.get_put_append path [] w
  rw [List.append_nil] at h
  exact h

/-- Before the path there is an array. -/
theorem Value.get_put_front (v : Value) (p : Path) (key : ArrayKey) (path : Path) (w : Value) :
    ∃ ht, (v.put (p ++ key :: path) w).get p = some (.array ht) := by
  induction p generalizing v with
  | nil => exact ⟨_, rfl⟩
  | cons k p ih =>
    rw [List.cons_append, Value.put, Value.get_cons, Value.entries, Entries.find_update_self]
    exact ih _

/-- Beside the path nothing changes. -/
theorem Value.get_put_apart (v : Value) {path p : Path} (w : Value) (h : ¬ p <+: path)
    (h' : ¬ path <+: p) :
    (v.put path w).get p = v.get p := by
  induction path generalizing v p with
  | nil => exact absurd List.nil_prefix h'
  | cons key path ih =>
    cases p with
    | nil => exact absurd List.nil_prefix h
    | cons k p =>
      rw [Value.put, Value.get_cons, Value.entries, Value.get_cons, Entries.find_update]
      split_ifs with hk
      · subst hk
        rw [List.cons_prefix_cons] at h h'
        have hrest := ih ((Entries.find v.entries key).getD .null) (p := p) (fun hp => h ⟨rfl, hp⟩)
          (fun hp => h' ⟨rfl, hp⟩)
        rw [Option.bind_some, hrest]
        cases Entries.find v.entries key with
        | some u => rfl
        | none =>
          cases p with
          | nil => exact absurd List.nil_prefix fun hp => h ⟨rfl, hp⟩
          | cons => rfl
      · rfl

/-- The leaves after a leaf has been written. -/
theorem Value.leafAt_put (v : Value) (path p : Path) {w : Value} (hw : w.isArray = false) :
    (v.put path w).leafAt p =
      if p = path then some w else if p <+: path ∨ path <+: p then none else v.leafAt p := by
  unfold Value.leafAt
  by_cases hpath : path <+: p
  · obtain ⟨q, rfl⟩ := hpath
    rw [Value.get_put_append]
    cases q with
    | nil => simp [Value.get, hw]
    | cons key q =>
      have hnone : w.get (key :: q) = none := by
        cases w <;> simp_all [Value.get, Value.isArray]
      simp [hnone]
  · have hne : p ≠ path := fun h => hpath (h ▸ List.prefix_rfl)
    rw [if_neg hne]
    by_cases hp : p <+: path
    · obtain ⟨q, rfl⟩ := hp
      cases q with
      | nil => simp at hne
      | cons key q =>
        obtain ⟨ht, hget⟩ := v.get_put_front p key q w
        simp [hget, Value.isArray]
    · rw [Value.get_put_apart v w hp hpath, if_neg (by tauto)]

/-! ### Many writes -/

/-- One write behind the other, beginning with an empty array -/
def puts (es : List (Path × Value)) : Value := es.foldl (fun v e => v.put e.1 e.2) (.array [])

theorem puts_concat (es : List (Path × Value)) (e : Path × Value) :
    puts (es ++ [e]) = (puts es).put e.1 e.2 := by
  rw [puts, List.foldl_append]
  rfl

/-- Only what leads to a path has been made. -/
theorem get_puts {es : List (Path × Value)} (hleaf : ∀ e ∈ es, e.2.isArray = false) {p : Path}
    {v : Value} (h : (puts es).get p = some v) : p = [] ∨ ∃ e ∈ es, p <+: e.1 := by
  induction es using List.reverseRecOn generalizing v with
  | nil =>
    cases p with
    | nil => exact .inl rfl
    | cons => cases h
  | append_singleton es e ih =>
    rw [puts_concat] at h
    by_cases hp : p <+: e.1
    · exact .inr ⟨e, by simp, hp⟩
    · have hback : ¬ e.1 <+: p := by
        rintro ⟨q, rfl⟩
        rw [Value.get_put_append] at h
        have he := hleaf e (by simp)
        cases q with
        | nil => simp at hp
        | cons => cases hw : e.2 <;> simp_all [Value.get, Value.isArray]
      rw [Value.get_put_apart _ _ hp hback] at h
      obtain hnil | ⟨e', he', hpre⟩ := ih (fun e he => hleaf e (by simp [he])) h
      · exact .inl hnil
      · exact .inr ⟨e', by simp [he'], hpre⟩

/-- The last write to a path -/
def lastPut (es : List (Path × Value)) (p : Path) : Option Value :=
  ((es.filter fun e => e.1 = p).getLast?).map Prod.snd

/-- No path goes on behind another. -/
def PathsFree (paths : List Path) : Prop := ∀ p ∈ paths, ∀ q ∈ paths, p <+: q → p = q

/-- The leaves are the last writes to their paths. -/
theorem leafAt_puts {es : List (Path × Value)} (hleaf : ∀ e ∈ es, e.2.isArray = false)
    (hfree : PathsFree (es.map Prod.fst)) (p : Path) : (puts es).leafAt p = lastPut es p := by
  induction es using List.reverseRecOn with
  | nil =>
    cases p with
    | nil => rfl
    | cons => rfl
  | append_singleton es e ih =>
    have hmem : ∀ q ∈ es.map Prod.fst, q ∈ (es ++ [e]).map Prod.fst := fun q hq => by
      rw [List.map_append]
      exact List.mem_append_left _ hq
    have hes := ih (fun e he => hleaf e (by simp [he]))
      fun q hq r hr => hfree q (hmem q hq) r (hmem r hr)
    rw [puts_concat, Value.leafAt_put _ _ _ (hleaf e (by simp)), lastPut, List.filter_append]
    by_cases hp : p = e.1
    · simp [hp]
    · have hfilter : [e].filter (fun e => e.1 = p) = [] := by simp [Ne.symm hp]
      rw [if_neg hp, hfilter, List.append_nil, hes, lastPut]
      split_ifs with hcmp
      · have hnone : es.filter (fun e => e.1 = p) = [] := by
          rw [List.filter_eq_nil_iff]
          intro x hx hxp
          have hxp : x.1 = p := by simpa using hxp
          have hin : p ∈ (es ++ [e]).map Prod.fst := hmem p (hxp ▸ List.mem_map_of_mem hx)
          have hein : e.1 ∈ (es ++ [e]).map Prod.fst := by simp
          rcases hcmp with hpre | hpre
          · exact hp (hfree p hin e.1 hein hpre)
          · exact hp (hfree e.1 hein p hin hpre).symm
        rw [hnone]
        rfl
      · rfl

end ExtHttp
