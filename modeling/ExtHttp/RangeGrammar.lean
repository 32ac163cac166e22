import ExtHttp.RequestRanges

/-!
# Ranges as they are written

What the value of a `Range` header says by the grammar of byte ranges, and when the ranges that are
read from it are these. The loop knows no parts of a range: digits and hyphens may come in any
order.
-/
namespace ExtHttp

/-- A part of a range header, with the digits of its numerals. -/
inductive RangeSpec
  | closed (first last : Bytes)
  | openEnd (first : Bytes)
  | suffix (last : Bytes)
  deriving DecidableEq, Repr

/-- A numeral of decimal digits. -/
def Numeral (digits : Bytes) : Prop := digits ≠ [] ∧ ∀ c ∈ digits, isDigit c = true

instance (digits : Bytes) : Decidable (Numeral digits) :=
  inferInstanceAs (Decidable (digits ≠ [] ∧ ∀ c ∈ digits, isDigit c = true))

namespace RangeSpec

def Valid : RangeSpec → Prop
  | closed first last => Numeral first ∧ Numeral last
  | openEnd first => Numeral first
  | suffix last => Numeral last

def text : RangeSpec → Bytes
  | closed first last => first ++ [hyphen] ++ last
  | openEnd first => first ++ [hyphen]
  | suffix last => [hyphen] ++ last

/-- The range a part asks for: the last byte is one of the entity, and a suffix is counted from its
end. -/
def resolve (length : ℕ) : RangeSpec → ℕ × ℕ
  | closed first last => (numeral 10 first, min (numeral 10 last) (length - 1))
  | openEnd first => (numeral 10 first, length - 1)
  | suffix last => (length - numeral 10 last, length - 1)

/-- The digits of its two fields. -/
def digits : RangeSpec → Bytes × Bytes
  | closed first last => (first, last)
  | openEnd first => (first, [])
  | suffix last => ([], last)

end RangeSpec

/-- The text of a list of ranges, with blanks around its commas. -/
inductive RangeList : Bytes → List RangeSpec → Prop
  | one {spec : RangeSpec} (hspec : spec.Valid) : RangeList spec.text [spec]
  | cons {spec : RangeSpec} {front back rest : Bytes} {specs : List RangeSpec} (hspec : spec.Valid)
      (hfront : ∀ c ∈ front, c = space) (hback : ∀ c ∈ back, c = space)
      (hrest : RangeList rest specs) :
      RangeList (spec.text ++ (front ++ [comma] ++ back ++ rest)) (spec :: specs)

/-! ### Reading a list -/

/-- What the digits of a numeral come to. -/
def fieldOf (digits : Bytes) : ℤ := digits.foldl rangeDigit (-1)

theorem fold_digits_first {digits : Bytes} (hdigits : ∀ c ∈ digits, isDigit c = true)
    (first last : ℤ) :
    digits.foldl RangeFields.step ⟨first, last, false⟩ =
      ⟨digits.foldl rangeDigit first, last, false⟩ := by
  induction digits generalizing first with
  | nil => rfl
  | cons c digits ih =>
    rw [List.forall_mem_cons] at hdigits
    have hstep : RangeFields.step ⟨first, last, false⟩ c = ⟨rangeDigit first c, last, false⟩ := by
      simp [RangeFields.step, hdigits.1]
    rw [List.foldl_cons, hstep, ih hdigits.2, List.foldl_cons]

theorem fold_digits_last {digits : Bytes} (hdigits : ∀ c ∈ digits, isDigit c = true)
    (first last : ℤ) :
    digits.foldl RangeFields.step ⟨first, last, true⟩ =
      ⟨first, digits.foldl rangeDigit last, true⟩ := by
  induction digits generalizing last with
  | nil => rfl
  | cons c digits ih =>
    rw [List.forall_mem_cons] at hdigits
    have hstep : RangeFields.step ⟨first, last, true⟩ c = ⟨first, rangeDigit last c, true⟩ := by
      simp [RangeFields.step, hdigits.1]
    rw [List.foldl_cons, hstep, ih hdigits.2, List.foldl_cons]

theorem fold_blanks {blanks : Bytes} (hblanks : ∀ c ∈ blanks, c = space) (f : RangeFields) :
    blanks.foldl RangeFields.step f = f := by
  have hstep : ∀ f : RangeFields, f.step space = f := fun f => by
    simp [RangeFields.step, show isDigit space = false by decide, show space ≠ hyphen by decide]
  induction blanks with
  | nil => rfl
  | cons c blanks ih =>
    rw [List.forall_mem_cons] at hblanks
    rw [List.foldl_cons, hblanks.1, hstep, ih hblanks.2]

theorem RangeSpec.text_eq (spec : RangeSpec) : spec.text =
    spec.digits.1 ++ hyphen :: spec.digits.2 := by
  cases spec <;> simp [RangeSpec.text, RangeSpec.digits]

theorem RangeSpec.Valid.digits {spec : RangeSpec} (h : spec.Valid) :
    (∀ c ∈ spec.digits.1, isDigit c = true) ∧ ∀ c ∈ spec.digits.2, isDigit c = true := by
  cases spec with
  | closed first last => exact ⟨h.1.2, h.2.2⟩
  | openEnd first => exact ⟨h.2, by simp [RangeSpec.digits]⟩
  | suffix last => exact ⟨by simp [RangeSpec.digits], h.2⟩

theorem RangeSpec.Valid.fields {spec : RangeSpec} (h : spec.Valid) :
    specFields spec.text = ⟨fieldOf spec.digits.1, fieldOf spec.digits.2, true⟩ := by
  have hhyphen : RangeFields.step ⟨fieldOf spec.digits.1, -1, false⟩ hyphen =
      ⟨fieldOf spec.digits.1, -1, true⟩ := by
    simp [RangeFields.step, show isDigit hyphen = false by decide]
  rw [specFields, spec.text_eq, List.foldl_append, RangeFields.init, fold_digits_first h.digits.1,
    List.foldl_cons]
  change List.foldl RangeFields.step
    (RangeFields.step ⟨fieldOf spec.digits.1, -1, false⟩ hyphen) _ = _
  rw [hhyphen, fold_digits_last h.digits.2]
  rfl

theorem RangeSpec.Valid.chars {spec : RangeSpec} (h : spec.Valid) :
    ∀ c ∈ spec.text, isRangeChar c = true := by
  intro c hc
  rw [spec.text_eq] at hc
  unfold isRangeChar
  rcases List.mem_append.mp hc with hc | hc
  · simp [h.digits.1 c hc]
  · rcases List.mem_cons.mp hc with rfl | hc
    · decide
    · simp [h.digits.2 c hc]

theorem rangeSpecs_append {front text spec : Bytes} {more : List Bytes} (hfront : comma ∉ front)
    (h : rangeSpecs text = spec :: more) : rangeSpecs (front ++ text) =
      (front ++ spec) :: more := by
  induction front with
  | nil => exact h
  | cons c front ih =>
    rw [List.mem_cons, not_or] at hfront
    rw [List.cons_append, rangeSpecs, if_neg (Ne.symm hfront.1), ih hfront.2]
    rfl

/-- The parts of a list are read as its ranges. -/
theorem RangeList.parts {text : Bytes} {specs : List RangeSpec} (h : RangeList text specs) :
    (∀ c ∈ text, isRangeChar c = true ∨ c = comma) ∧
      List.Forall₂ (fun part spec => specFields part = specFields spec.text ∧ spec.Valid)
        (rangeSpecs text) specs := by
  have hcomma : ∀ part : Bytes, (∀ c ∈ part, isRangeChar c = true) → comma ∉ part :=
    fun part hpart hmem => absurd (hpart comma hmem) (by decide)
  have hblank : ∀ gap : Bytes, (∀ c ∈ gap, c = space) → ∀ c ∈ gap, isRangeChar c = true :=
    fun gap hgap c hc => by rw [hgap c hc]; decide
  induction h with
  | @one spec hspec =>
    have hparts : rangeSpecs (spec.text ++ []) = [spec.text ++ []] :=
      rangeSpecs_append (hcomma _ hspec.chars) rfl
    rw [List.append_nil] at hparts
    exact ⟨fun c hc => Or.inl (hspec.chars c hc), by rw [hparts]; exact .cons ⟨rfl, hspec⟩ .nil⟩
  | @cons spec front back rest specs hspec hfront hback hrest ih =>
    obtain ⟨hchars, hparts⟩ := ih
    constructor
    · intro c hc
      simp only [List.mem_append, List.mem_singleton] at hc
      rcases hc with hc | ((hc | hc) | hc) | hc
      · exact Or.inl (hspec.chars c hc)
      · exact Or.inl (hblank front hfront c hc)
      · exact Or.inr hc
      · exact Or.inl (hblank back hback c hc)
      · exact hchars c hc
    · cases hfirst : rangeSpecs rest with
      | nil => exact absurd hfirst (rangeSpecs_ne_nil rest)
      | cons part more =>
        rw [hfirst] at hparts
        have hback' := rangeSpecs_append (hcomma back (hblank back hback)) hfirst
        have hgap : rangeSpecs (comma :: (back ++ rest)) = [] :: (back ++ part) :: more := by
          rw [rangeSpecs, if_pos rfl, hback']
        have hmine := rangeSpecs_append
          (hcomma (spec.text ++ front) (List.forall_mem_append.mpr
            ⟨hspec.chars, hblank front hfront⟩)) hgap
        have htext : spec.text ++ (front ++ [comma] ++ back ++ rest) =
            spec.text ++ front ++ comma :: (back ++ rest) := by simp
        rw [htext, hmine, List.append_nil]
        cases hparts with
        | cons hpart hmore =>
          refine .cons ⟨?_, hspec⟩ (.cons ⟨?_, hpart.2⟩ hmore)
          · rw [specFields, List.foldl_append, fold_blanks hfront]
            rfl
          · rw [specFields, List.foldl_append, fold_blanks hback]
            exact hpart.1

/-! ### Numerals in a `long` -/

theorem isLong_fieldOf {digits : Bytes} (hdigits : ∀ c ∈ digits, isDigit c = true) :
    IsLong (fieldOf digits) := by
  have hfold : ∀ v : ℤ, IsLong v → IsLong (digits.foldl rangeDigit v) := by
    induction digits with
    | nil => exact fun v hv => hv
    | cons c digits ih =>
      rw [List.forall_mem_cons] at hdigits
      exact fun v hv => ih hdigits.2 _ (isLong_rangeDigit hv hdigits.1)
  exact hfold (-1) (by unfold IsLong; decide)

/-- A numeral that a `long` holds is read as it is; nothing and zero have marks of their own. -/
theorem fieldOf_exact {digits : Bytes} (hdigits : ∀ c ∈ digits, isDigit c = true)
    (hfits : numeral 10 digits < 2 ^ 63) :
    fieldOf digits =
      if digits = [] then -1 else if numeral 10 digits = 0 then -10
        else (numeral 10 digits : ℤ) := by
  have hzero : ∀ c : Byte, isDigit c = true → (c = 48 ↔ digitVal c = 0) ∧ digitVal c ≤ 9 := by
    decide +kernel
  induction digits using List.reverseRecOn with
  | nil => rfl
  | append_singleton digits c ih =>
    rw [numeral_append] at hfits ⊢
    obtain ⟨hc, hle⟩ := hzero c (hdigits c (by simp))
    have hbefore := ih (fun d hd => hdigits d (by simp [hd])) (by omega)
    have hlast : fieldOf (digits ++ [c]) = rangeDigit (fieldOf digits) c := by
      rw [fieldOf, List.foldl_concat, fieldOf]
    rw [hlast, if_neg (by simp), hbefore, rangeDigit]
    simp only [hc]
    have hten := wrapLong_of_isLong (n := (numeral 10 digits : ℤ) * 10) ⟨by omega, by omega⟩
    have hall := wrapLong_of_isLong (n := (numeral 10 digits : ℤ) * 10 + digitVal c)
      ⟨by omega, by omega⟩
    by_cases hempty : digits = []
    · subst hempty
      have hmark := wrapLong_of_isLong (n := -10) ⟨by omega, by omega⟩
      simp only [if_true, numeral_nil, zero_mul, zero_add]
      by_cases hd : digitVal c = 0
      · rw [if_pos hd, if_pos (by decide), if_pos hd]
        exact hmark
      · rw [if_neg hd, if_neg (by decide), if_neg hd]
    · rw [if_neg hempty]
      by_cases hn : numeral 10 digits = 0
      · rw [if_pos hn, hn]
        simp only [zero_mul, zero_add]
        by_cases hd : digitVal c = 0
        · rw [if_pos hd, if_neg (by decide), if_pos hd]
        · rw [if_neg hd, if_neg (by decide), if_neg hd]
      · rw [if_neg hn]
        by_cases hd : digitVal c = 0
        · rw [if_pos hd, if_pos (by omega), if_neg (by omega), hten, hd]
          push_cast
          ring
        · rw [if_neg hd, if_pos (by omega), if_neg (by omega), hten, hall]
          push_cast
          ring

/-! ### Ranges as written -/

/-- The last byte a field stands for. -/
def lastNumber (v : ℤ) : ℕ := if v = -10 then 0 else toSize v

/-- The numerals of a range fit into a `long` as far as it matters: the first one fits; the last one
is cut to the same end as what is left of it; a suffix is not longer than the entity, or what is
left of it is all of it. -/
def ReadAsWritten (length : ℕ) : RangeSpec → Prop
  | .closed first last => numeral 10 first < 2 ^ 63 ∧
      min (lastNumber (fieldOf last)) (length - 1) = min (numeral 10 last) (length - 1)
  | .openEnd first => numeral 10 first < 2 ^ 63
  | .suffix last => toSize (fieldOf last) = min (numeral 10 last) length

/-- The range is the one the part asks for. -/
def Resolves (length : ℕ) (spec : RangeSpec) (range : ℤ × ℤ) : Prop :=
  range.1 = (spec.resolve length).1 ∧ range.2 = (spec.resolve length).2

theorem toSize_cases {n : ℤ} (h : IsLong n) :
    (0 ≤ n ∧ (toSize n : ℤ) = n) ∨ (n < 0 ∧ (toSize n : ℤ) = n + 2 ^ 64) := by
  unfold IsLong at h
  unfold toSize
  omega

theorem lastNumber_cases (n : ℤ) : (n = -10 ∧ lastNumber n = 0) ∨
    (n ≠ -10 ∧ lastNumber n = toSize n) := by
  unfold lastNumber
  split_ifs with h
  · exact Or.inl ⟨h, rfl⟩
  · exact Or.inr ⟨h, rfl⟩

/-- What a field holds for a numeral. -/
def Reads (v : ℤ) (n : ℕ) : Prop := (n = 0 ∧ v = -10) ∨ (0 < n ∧ n < 2 ^ 63 ∧ v = n) ∨ 2 ^ 63 ≤ n

theorem reads_fieldOf {digits : Bytes} (h : Numeral digits) :
    Reads (fieldOf digits) (numeral 10 digits) := by
  have hexact := fieldOf_exact h.2
  rw [if_neg h.1] at hexact
  unfold Reads
  by_cases hfits : numeral 10 digits < 2 ^ 63
  · rw [hexact hfits]
    split_ifs with hzero
    · exact Or.inl ⟨hzero, rfl⟩
    · exact Or.inr (Or.inl ⟨Nat.pos_of_ne_zero hzero, hfits, rfl⟩)
  · exact Or.inr (Or.inr (Nat.le_of_not_lt hfits))

section
variable {length : ℕ} (hpos : 0 < length) (hlength : length < 2 ^ 63)
include hpos hlength

theorem validateRange_closed_iff {a b : ℤ} {m n : ℕ} (ha : IsLong a) (hb : IsLong b)
    (hm : Reads a m) (hn : Reads b n) {range : ℤ × ℤ}
    (h : validateRange length a b = .ok range) :
    (range.1 = m ∧ range.2 = (min n (length - 1) : ℕ)) ↔
      m < 2 ^ 63 ∧ min (lastNumber b) (length - 1) = min n (length - 1) := by
  have hend := wrapLong_of_isLong (n := length - 1) ⟨by omega, by omega⟩
  have hsuffix := isLong_wrapLong (length - b)
  have hfirst := toSize_cases ha
  have hlast := toSize_cases hb
  have hvalue := lastNumber_cases b
  unfold IsLong at ha hb hsuffix
  unfold Reads at hm hn
  unfold validateRange at h
  rw [if_neg hpos.ne', hend] at h
  split_ifs at h <;> cases h
  all_goals
    dsimp only
    omega

theorem validateRange_openEnd_iff {a : ℤ} {m : ℕ} (ha : IsLong a) (hm : Reads a m) {range : ℤ × ℤ}
    (h : validateRange length a (-1) = .ok range) :
    (range.1 = m ∧ range.2 = (length - 1 : ℕ)) ↔ m < 2 ^ 63 := by
  have hend := wrapLong_of_isLong (n := length - 1) ⟨by omega, by omega⟩
  have hfirst := toSize_cases ha
  obtain ⟨b, hb⟩ : ∃ b : ℤ, b = -1 := ⟨-1, rfl⟩
  rw [← hb] at h
  unfold IsLong at ha
  unfold Reads at hm
  unfold validateRange at h
  rw [if_neg hpos.ne', hend] at h
  split_ifs at h <;> cases h
  all_goals
    dsimp only
    omega

theorem validateRange_suffix_iff {b : ℤ} {n : ℕ} (hb : IsLong b) {range : ℤ × ℤ}
    (h : validateRange length (-1) b = .ok range) :
    (range.1 = (length - n : ℕ) ∧ range.2 = (length - 1 : ℕ)) ↔ toSize b = min n length := by
  have hend := wrapLong_of_isLong (n := length - 1) ⟨by omega, by omega⟩
  have hsuffix := wrapLong_cases (length - b)
  have hlast := toSize_cases hb
  unfold IsLong at hb
  unfold validateRange at h
  rw [if_neg hpos.ne', hend] at h
  split_ifs at h <;> cases h
  all_goals
    dsimp only
    omega

/-- A part that is accepted gives the range it asks for if its numerals are read as written. -/
theorem resolves_iff {spec : RangeSpec} (hspec : spec.Valid) {range : ℤ × ℤ}
    (h : SpecRange length (specFields spec.text) range) :
    Resolves length spec range ↔ ReadAsWritten length spec := by
  rw [hspec.fields] at h
  cases spec with
  | closed first last =>
    exact validateRange_closed_iff hpos hlength (isLong_fieldOf hspec.1.2)
      (isLong_fieldOf hspec.2.2) (reads_fieldOf hspec.1) (reads_fieldOf hspec.2) h
  | openEnd first =>
    exact validateRange_openEnd_iff hpos hlength (isLong_fieldOf hspec.2) (reads_fieldOf hspec) h
  | suffix last =>
    exact validateRange_suffix_iff hpos hlength (isLong_fieldOf hspec.2) h

end

section
variable {α β γ : Type*} {R : α → β → Prop} {S : α → γ → Prop} {T : β → γ → Prop}

/-- Two lists that go with a third one go with each other. -/
theorem forall₂_join {as : List α} {bs : List β} {cs : List γ} (hb : List.Forall₂ R as bs)
    (hc : List.Forall₂ S as cs) (h : ∀ a b c, R a b → S a c → T b c) : List.Forall₂ T bs cs := by
  induction hb generalizing cs with
  | nil =>
    cases hc
    exact .nil
  | cons hr _ ih =>
    cases hc with
    | cons hs hc => exact .cons (h _ _ _ hr hs) (ih hc)

end

/-- The ranges that are stored are those that are written if the header is a list whose numerals are
read as written, and only then. -/
theorem getRequestRanges_written_iff (length : ℕ) (hpos : 0 < length) (hlength : length < 2 ^ 63)
    (headers : Headers) (value : Bytes)
    (hvalue : getRequestHeader headers (ascii "Range") = some value) :
    (∀ out, getRequestRanges length headers = (.ok, out) → ∃ text specs, value = bytesUnit ++ text ∧
        RangeList text specs ∧ List.Forall₂ (Resolves length) specs out) ↔
      RangesRefused length value ∨ ∃ text specs, value = bytesUnit ++ text ∧ RangeList text specs ∧
        ∀ spec ∈ specs, ReadAsWritten length spec := by
  -- the ranges of an accepted list, beside its parts
  have haccepted : ∀ out text specs, value = bytesUnit ++ text → RangeList text specs →
      getRequestRanges length headers = (.ok, out) →
      List.Forall₂ (fun spec range => spec.Valid ∧ SpecRange length (specFields spec.text) range)
        specs out := by
    intro out text specs htext hlist hout
    obtain ⟨text', htext', -, hranges⟩ := (getRequestRanges_ok_iff hvalue out).mp hout
    rw [htext, List.append_cancel_left_eq] at htext'
    subst htext'
    refine forall₂_join hlist.parts.2 hranges fun part spec range hpart hrange => ⟨hpart.2, ?_⟩
    rwa [hpart.1] at hrange
  constructor
  · intro hwritten
    by_cases hrefused : RangesRefused length value
    · exact Or.inl hrefused
    · right
      obtain ⟨out, hout⟩ := getRequestRanges_not_refused hvalue hrefused
      obtain ⟨text, specs, htext, hlist, hresolves⟩ := hwritten out hout
      refine ⟨text, specs, htext, hlist, fun spec hspec => ?_⟩
      have hranges := haccepted out text specs htext hlist hout
      have hboth : List.Forall₂ (fun range spec => Resolves length spec range →
          ReadAsWritten length spec) out specs :=
        hranges.flip.imp fun range spec h => (resolves_iff hpos hlength h.1 h.2).mp
      have hread : List.Forall₂ (fun spec spec' => spec = spec' → ReadAsWritten length spec)
          specs specs :=
        forall₂_join hresolves.flip hboth fun range spec spec' hresolves hread heq => by
          subst heq
          exact hread hresolves
      exact (List.forall₂_same.mp hread) spec hspec rfl
  · rintro hcond out hout
    rcases hcond with hrefused | ⟨text, specs, htext, hlist, hread⟩
    · exact absurd hrefused (not_refused_of_ok hpos hvalue hout)
    · refine ⟨text, specs, htext, hlist, ?_⟩
      have hranges := haccepted out text specs htext hlist hout
      refine (List.forall₂_and_left _ _ |>.mpr ⟨hread, hranges⟩).imp fun spec range h => ?_
      exact (resolves_iff hpos hlength h.2.1 h.2.2).mpr h.1

theorem getRequestRanges_written_two :
    (∀ out, getRequestRanges 10 (rangeHeader "bytes=0-4, -2") = (.ok, out) →
      ∃ text specs, ascii "bytes=0-4, -2" = bytesUnit ++ text ∧ RangeList text specs ∧
        List.Forall₂ (Resolves 10) specs out) ↔
      RangesRefused 10 (ascii "bytes=0-4, -2") ∨ ∃ text specs,
        ascii "bytes=0-4, -2" = bytesUnit ++ text ∧
        RangeList text specs ∧ ∀ spec ∈ specs, ReadAsWritten 10 spec :=
  getRequestRanges_written_iff 10 (by decide) (by decide) _ _ (by decide)

theorem RangeList.hyphen_mem {text : Bytes} {specs : List RangeSpec} (h : RangeList text specs) :
    hyphen ∈ text := by
  cases h with
  | one hspec => simp [RangeSpec.text_eq]
  | cons hspec hfront hback hrest => simp [RangeSpec.text_eq]

/-- A number by itself is no range, but it is taken for one. -/
theorem getRequestRanges_bare :
    getRequestRanges 10 (rangeHeader "bytes=5") = (.ok, [(5, 9)]) ∧
      ¬ ∃ text specs, ascii "bytes=5" = bytesUnit ++ text ∧ RangeList text specs ∧
        List.Forall₂ (Resolves 10) specs [(5, 9)] := by
  constructor
  · decide
  · rintro ⟨text, specs, htext, hlist, -⟩
    have hmem : hyphen ∈ ascii "bytes=5" := by
      rw [htext]
      exact List.mem_append_right _ hlist.hyphen_mem
    revert hmem
    decide

end ExtHttp
