import ExtHttp.Negotiate
import ExtHttp.Params

/-!
# Accepted values

`php_http_negotiate` with what is accepted of the supported values: the best matching entry decides,
but from its quality a tenth is taken, divided by its score, and entries without a quality lose one
hundredth with each of them.
-/
namespace ExtHttp

/-- The quality an entry of the header gives, where `zval_get_double` is a parameter. -/
def givenQuality (number : Value → ℚ) (val : Value) : Option ℚ :=
  match val with
  | .array ht =>
      match Entries.find ht argumentsKey with
      | some (.array arg) => (Entries.find arg (.str (ascii "q"))).map number
      | _ => none
  | _ => none

/-- The first loop of `php_http_negotiate`: the qualities of the entries, where `i` counts those
that give none. -/
def negotiateArr (number : Value → ℚ) : ℕ → Entries → List (ArrayKey × ℚ)
  | _, [] => []
  | i, (key, val) :: params =>
      match givenQuality number val with
      | some q => (key, q) :: negotiateArr number i params
      | none => (key, 1 - ((i + 1 : ℕ) : ℚ) / 100) :: negotiateArr number (i + 1) params

section
variable (sep supported : Bytes)

/-- The turn of the loop in `php_http_negotiate_reduce`: `best_match` and `q`. -/
def reduceTurn (st : UInt32 × ℚ) (entry : ArrayKey × ℚ) : UInt32 × ℚ :=
  let m := negotiateMatch entry.1.stringify supported sep
  if st.1 < m then (m, entry.2 - 1 / 10 / (m.toNat : ℚ)) else st

/-- `q` behind the loop -/
def reducedQuality (arr : List (ArrayKey × ℚ)) : ℚ :=
  (arr.foldl (reduceTurn sep supported) (0, 0)).2

end

/-- `zend_hash_update` of the result -/
def resultUpdate (result : List (Bytes × ℚ)) (key : Bytes) (q : ℚ) : List (Bytes × ℚ) :=
  Assoc.set result key q

/-- `php_http_negotiate_reduce` -/
def negotiateReduce (sep : Bytes) (arr : List (ArrayKey × ℚ)) (result : List (Bytes × ℚ))
    (supported : Bytes) :
    List (Bytes × ℚ) :=
  let q := reducedQuality sep supported arr
  if 0 < q then resultUpdate result supported q else result

/-- `php_http_negotiate` behind the parser of parameters. -/
def negotiateParams (number : Value → ℚ) (params : Entries) (supported : List Bytes) (sep : Bytes) :
    List (Bytes × ℚ) :=
  (supported.foldl (negotiateReduce sep (negotiateArr number 0 params)) []).mergeSort fun a b =>
    b.2 ≤ a.2

/-- `php_http_negotiate`, which returns NULL for an empty value. -/
def negotiate (L : ParamsLib) (number : Value → ℚ) (value : Bytes) (supported : List Bytes)
    (sep : Bytes) :
    Except ParamsFault (Option (List (Bytes × ℚ))) :=
  if value = [] then .ok none
  else (paramsParse L { paramsOptsDefault with flags := { paramsDefault with rfc5987 := false } }
    [] value).map
    fun params => some (negotiateParams number params supported sep)

/-! ### The best entry -/

/-- An entry of the header: its name, the quality it gives, and how many of the entries up to it
give none. -/
structure NegotiateEntry where
  key : ArrayKey
  given : Option ℚ
  place : ℕ

def negotiateEntries (number : Value → ℚ) : ℕ → Entries → List NegotiateEntry
  | _, [] => []
  | i, (key, val) :: params =>
      match givenQuality number val with
      | some q => ⟨key, some q, i⟩ :: negotiateEntries number i params
      | none => ⟨key, none, i + 1⟩ :: negotiateEntries number (i + 1) params

namespace NegotiateEntry

/-- The quality of an entry before anything is taken for its match. -/
def quality (e : NegotiateEntry) : ℚ := e.given.getD (1 - (e.place : ℚ) / 100)

/-- An entry accepts what it matches, unless it gives a quality that is not positive. -/
def Accepts (e : NegotiateEntry) : Prop := ∀ q ∈ e.given, 0 < q

def score (sep supported : Bytes) (e : NegotiateEntry) : ℕ :=
  (negotiateMatch e.key.stringify supported sep).toNat

end NegotiateEntry

/-- The entry that matches best, the first of them if there are several. -/
def bestEntry (sep supported : Bytes) (entries : List NegotiateEntry) : Option NegotiateEntry :=
  (entries.argmax (NegotiateEntry.score sep supported)).filter fun e => 0 < e.score sep supported

/-- There is an entry that matches, and the best one accepts. -/
def Acceptable (sep supported : Bytes) (entries : List NegotiateEntry) : Prop :=
  ∃ e ∈ bestEntry sep supported entries, e.Accepts

theorem negotiateArr_eq (number : Value → ℚ) (i : ℕ) (params : Entries) :
    negotiateArr number i params = (negotiateEntries number i params).map fun e =>
      (e.key, e.quality) := by
  induction params generalizing i with
  | nil => rfl
  | cons entry params ih =>
    unfold negotiateArr negotiateEntries
    cases givenQuality number entry.2 with
    | some q =>
      dsimp only
      rw [List.map_cons, ih]
      rfl
    | none =>
      dsimp only
      rw [List.map_cons, ih]
      rfl

section
variable {sep supported : Bytes}

theorem bestEntry_of_argmax {entries : List NegotiateEntry} {e : NegotiateEntry}
    (h : entries.argmax (NegotiateEntry.score sep supported) = some e) :
    bestEntry sep supported entries = if 0 < e.score sep supported then some e else none := by
  rw [bestEntry, h, Option.filter_some]
  simp only [decide_eq_true_eq]

/-- What the loop has of the best entry so far. -/
def reducedOf (sep supported : Bytes) (best : Option NegotiateEntry) : UInt32 × ℚ :=
  best.elim (0, 0) fun e =>
    (negotiateMatch e.key.stringify supported sep, e.quality - 1 / 10 / (e.score sep supported : ℚ))

/-- A turn takes an entry exactly if it scores more than the best one so far. -/
theorem reduceTurn_eq (best : Option NegotiateEntry) (e : NegotiateEntry) :
    reduceTurn sep supported (reducedOf sep supported best) (e.key, e.quality) =
      if best.elim 0 (NegotiateEntry.score sep supported) < e.score sep supported then
        reducedOf sep supported (some e)
      else reducedOf sep supported best := by
  unfold reduceTurn
  refine if_congr ?_ rfl rfl
  cases best with
  | none => exact UInt32.lt_iff_toNat_lt
  | some best => exact UInt32.lt_iff_toNat_lt

/-- The loop keeps the score of the best entry and what is left of its quality. -/
theorem foldl_reduceTurn (entries : List NegotiateEntry) :
    (entries.map fun e => (e.key, e.quality)).foldl (reduceTurn sep supported) (0, 0) =
      reducedOf sep supported (bestEntry sep supported entries) := by
  induction entries using List.reverseRecOn with
  | nil => rfl
  | append_singleton entries e ih =>
    rw [List.map_append, List.foldl_append, ih, List.map_singleton, List.foldl_cons, List.foldl_nil,
      reduceTurn_eq]
    have hconcat := List.argmax_concat (NegotiateEntry.score sep supported) e entries
    cases hbest : entries.argmax (NegotiateEntry.score sep supported) with
    | none =>
      rw [hbest] at hconcat
      rw [bestEntry_of_argmax hconcat, bestEntry, hbest]
      dsimp only [Option.filter_none, Option.elim_none]
      split_ifs with hpos
      · exact if_pos hpos
      · exact if_neg hpos
    | some best =>
      rw [hbest] at hconcat
      dsimp only at hconcat
      rw [bestEntry_of_argmax hbest]
      by_cases hless : best.score sep supported < e.score sep supported
      · rw [if_pos hless] at hconcat
        have hpos : 0 < e.score sep supported := by omega
        rw [bestEntry_of_argmax hconcat, if_pos hpos, if_pos]
        split_ifs
        · exact hless
        · exact hpos
      · rw [if_neg hless] at hconcat
        rw [bestEntry_of_argmax hconcat, if_neg]
        split_ifs with hpos
        · exact hless
        · rw [Option.elim_none]
          omega

theorem mem_resultUpdate {result : List (Bytes × ℚ)} {key s : Bytes} {q : ℚ} :
    s ∈ (resultUpdate result key q).map Prod.fst ↔ s ∈ result.map Prod.fst ∨ s = key :=
  Assoc.mem_keys_set

/-- The values of the result are those of which something is left. -/
theorem mem_foldl_reduce (arr : List (ArrayKey × ℚ)) (supported : List Bytes)
    (result : List (Bytes × ℚ)) (s : Bytes) :
    s ∈ (supported.foldl (negotiateReduce sep arr) result).map Prod.fst ↔
      s ∈ result.map Prod.fst ∨ s ∈ supported ∧ 0 < reducedQuality sep s arr := by
  induction supported generalizing result with
  | nil => simp
  | cons value supported ih =>
    rw [List.foldl_cons, ih, negotiateReduce, List.mem_cons]
    split_ifs with hpos
    · rw [mem_resultUpdate, or_assoc]
      refine or_congr_right ⟨?_, ?_⟩
      · rintro (rfl | ⟨hmem, hq⟩)
        · exact ⟨.inl rfl, hpos⟩
        · exact ⟨.inr hmem, hq⟩
      · rintro ⟨rfl | hmem, hq⟩
        · exact .inl rfl
        · exact .inr ⟨hmem, hq⟩
    · refine or_congr_right ⟨fun h => ⟨.inr h.1, h.2⟩, ?_⟩
      rintro ⟨rfl | hmem, hq⟩
      · exact absurd hq hpos
      · exact ⟨hmem, hq⟩

end

theorem mem_negotiateParams (number : Value → ℚ) (params : Entries) (supported : List Bytes)
    (sep s : Bytes) :
    s ∈ (negotiateParams number params supported sep).map Prod.fst ↔
      s ∈ supported ∧ ∃ e ∈ bestEntry sep s (negotiateEntries number 0 params),
        1 / 10 / (e.score sep s : ℚ) < e.quality := by
  have hperm := (List.mergeSort_perm
    (supported.foldl (negotiateReduce sep (negotiateArr number 0 params)) [])
    fun a b => decide (b.2 ≤ a.2)).map Prod.fst
  rw [negotiateParams, hperm.mem_iff, mem_foldl_reduce, List.map_nil]
  simp only [List.not_mem_nil, false_or]
  refine and_congr_right fun _ => ?_
  rw [reducedQuality, negotiateArr_eq, foldl_reduceTurn]
  cases bestEntry sep s (negotiateEntries number 0 params) with
  | none => simp [reducedOf]
  | some e => simp [reducedOf]

/-- An entry accepts what it matches, but a tenth divided by its score is not less than its quality;
without a quality, the hundredths of the entries that give none come on top. -/
def NegotiateEntry.Loses (e : NegotiateEntry) (score : ℕ) : Prop :=
  match e.given with
  | some q => 0 < q ∧ q ≤ 1 / 10 / (score : ℚ)
  | none => 1 ≤ (e.place : ℚ) / 100 + 1 / 10 / (score : ℚ)

theorem NegotiateEntry.not_loses_iff (e : NegotiateEntry) (score : ℕ) :
    ¬ e.Loses score ↔ (1 / 10 / (score : ℚ) < e.quality ↔ e.Accepts) := by
  have htenth : (0 : ℚ) ≤ 1 / 10 / (score : ℚ) := by positivity
  unfold Loses quality Accepts
  cases hgiven : e.given with
  | some q =>
    simp only [Option.getD_some, Option.mem_some_iff, forall_eq', not_and, not_le]
    exact ⟨fun h => ⟨fun hq => htenth.trans_lt hq, h⟩, fun h => h.mpr⟩
  | none =>
    simp only [Option.getD_none, Option.not_mem_none, false_implies, implies_true, iff_true, not_le]
    exact lt_sub_iff_add_lt'.symm

/-- Something is left of an entry that accepts, unless it is lost. -/
theorem NegotiateEntry.quality_iff (e : NegotiateEntry) (score : ℕ) :
    1 / 10 / (score : ℚ) < e.quality ↔ e.Accepts ∧ ¬ e.Loses score := by
  rw [e.not_loses_iff]
  refine ⟨fun h => ?_, fun h => h.2.mpr h.1⟩
  have haccepts : e.Accepts := by
    intro q hq
    have htenth : (0 : ℚ) ≤ 1 / 10 / (score : ℚ) := by positivity
    rw [quality, Option.mem_def.mp hq, Option.getD_some] at h
    exact htenth.trans_lt h
  exact ⟨haccepts, iff_of_true h haccepts⟩

end ExtHttp
