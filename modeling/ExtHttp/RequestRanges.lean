import ExtHttp.EntityTags

/-!
# Ranges of a request

`php_http_env_get_request_ranges`. Begin and end of a range are signed longs that the digits are put
into as they come: -1 stands for no digit yet, -10 for zeros only.
-/
namespace ExtHttp

/-- `php_http_range_status_t` -/
inductive RangeStatus
  | no
  | ok
  | err
  deriving DecidableEq, Repr

/-- What is left of a number in a signed `long`. -/
def wrapLong (n : ℤ) : ℤ := Int.bmod n (2 ^ 64)

/-- The cast of a `long` to `size_t`. -/
def toSize (n : ℤ) : ℕ := (n % 2 ^ 64).toNat

/-- A digit at the end of the number. -/
def rangeDigit (v : ℤ) (c : Byte) : ℤ :=
  if c = 48 then (if v ≠ -10 then wrapLong (v * 10) else v)
  else if 0 < v then wrapLong (wrapLong (v * 10) + digitVal c)
  else digitVal c

/-- `begin`, `end` and whether `ptr` points to `end`. -/
structure RangeFields where
  first : ℤ
  last : ℤ
  atLast : Bool
  deriving DecidableEq, Repr

namespace RangeFields

def init : RangeFields := ⟨-1, -1, false⟩

/-- The digits go where the pointer is, which a hyphen puts to the end. -/
def step (f : RangeFields) (c : Byte) : RangeFields :=
  if isDigit c then
    if f.atLast then { f with last := rangeDigit f.last c }
      else { f with first := rangeDigit f.first c }
  else if c = hyphen then { f with atLast := true }
  else f

end RangeFields

/-- The `switch` that validates a range and completes it. -/
def validateRange (length : ℕ) (first last : ℤ) : Except RangeStatus (ℤ × ℤ) :=
  if length = 0 then .ok (first, last)
  -- `0-12345`
  else if first = -10 then
    if last = -1 then .error .no
    else if last = -10 then .ok (0, 0)
    else if length ≤ toSize last then .ok (0, wrapLong (length - 1))
    else .ok (0, last)
  -- `-12345`
  else if first = -1 then
    if last = -1 ∨ last = -10 then .error .err
    else .ok (wrapLong (length - last), wrapLong (length - 1))
  -- `12345-(NNN)`
  else if length ≤ toSize first then .error .err
  else if last = -10 then .error .err
  else if last = -1 then .ok (first, wrapLong (length - 1))
  else if length ≤ toSize last then .ok (first, wrapLong (length - 1))
  else if last < first then .error .err
  else .ok (first, last)

/-- A byte that is part of a range or stands between two parts of it. -/
def isRangeChar (c : Byte) : Bool := isDigit c || c = hyphen || c = space

/-- The loop of `php_http_env_get_request_ranges` -/
def requestRangesLoop (length : ℕ) : Bytes → RangeFields → List (ℤ × ℤ) → RangeStatus × List (ℤ × ℤ)
  | [], f, ranges =>
      match validateRange length f.first f.last with
      | .error status => (status, ranges)
      | .ok range => (.ok, ranges ++ [range])
  | c :: text, f, ranges =>
      if isRangeChar c then requestRangesLoop length text (f.step c) ranges
      else if c = comma then
        match validateRange length f.first f.last with
        | .error status => (status, ranges)
        | .ok range => requestRangesLoop length text .init (ranges ++ [range])
      else (.no, ranges)

def bytesUnit : Bytes := ascii "bytes="

/-- `php_http_env_get_request_ranges`: the status and the ranges that have been stored. -/
def getRequestRanges (length : ℕ) (headers : Headers) : RangeStatus × List (ℤ × ℤ) :=
  match getRequestHeader headers (ascii "Range") with
  | none => (.no, [])
  | some range =>
      if bytesUnit <+: range then requestRangesLoop length (range.drop bytesUnit.length) .init []
      else (.no, [])

/-! ### The ranges of a text -/

/-- The parts of a text between its commas. -/
def rangeSpecs : Bytes → List Bytes
  | [] => [[]]
  | c :: text =>
      if c = comma then [] :: rangeSpecs text
      else match rangeSpecs text with
        | [] => [[c]]
        | spec :: more => (c :: spec) :: more

/-- What the loop has read of a range. -/
def specFields (spec : Bytes) : RangeFields := spec.foldl RangeFields.step .init

/-- A part gives this range. -/
def SpecRange (length : ℕ) (f : RangeFields) (range : ℤ × ℤ) : Prop :=
  validateRange length f.first f.last = .ok range

theorem rangeSpecs_ne_nil (text : Bytes) : rangeSpecs text ≠ [] := by
  cases text with
  | nil => simp [rangeSpecs]
  | cons c text =>
    rw [rangeSpecs]
    split_ifs
    · simp
    · cases rangeSpecs text <;> simp

theorem validateRange_error {length : ℕ} {first last : ℤ} {status : RangeStatus}
    (h : validateRange length first last = .error status) : status ≠ .ok := by
  unfold validateRange at h
  split_ifs at h <;> cases h <;> decide

/-- The ranges of the part that is being read, whose beginning has been put into the fields, and of
the parts behind it. -/
def RangesFrom (length : ℕ) (f : RangeFields) (text : Bytes) (new : List (ℤ × ℤ)) : Prop :=
  ∃ spec more range later, rangeSpecs text = spec :: more ∧ new = range :: later ∧
    SpecRange length (spec.foldl RangeFields.step f) range ∧
    List.Forall₂ (fun spec range => SpecRange length (specFields spec) range) more later

theorem rangesFrom_init {length : ℕ} {text : Bytes} {new : List (ℤ × ℤ)} :
    RangesFrom length .init text new ↔
      List.Forall₂ (fun spec range => SpecRange length (specFields spec) range)
        (rangeSpecs text) new := by
  constructor
  · rintro ⟨spec, more, range, later, hspecs, rfl, hrange, hlater⟩
    rw [hspecs]
    exact .cons hrange hlater
  · intro h
    cases hspecs : rangeSpecs text with
    | nil => exact absurd hspecs (rangeSpecs_ne_nil text)
    | cons spec more =>
      rw [hspecs] at h
      cases h with
      | cons hrange hlater => exact ⟨spec, more, _, _, hspecs, rfl, hrange, hlater⟩

theorem rangesFrom_char {length : ℕ} {f : RangeFields} {c : Byte} (hc : c ≠ comma) {text : Bytes}
    {new : List (ℤ × ℤ)} : RangesFrom length f (c :: text) new ↔
      RangesFrom length (f.step c) text new := by
  have hspecs : ∀ spec more, rangeSpecs (c :: text) = spec :: more ↔
      ∃ spec', spec = c :: spec' ∧ rangeSpecs text = spec' :: more := by
    intro spec more
    rw [rangeSpecs, if_neg hc]
    cases h : rangeSpecs text with
    | nil => exact absurd h (rangeSpecs_ne_nil text)
    | cons spec' more' =>
      simp only [List.cons.injEq]
      constructor
      · rintro ⟨rfl, rfl⟩
        exact ⟨spec', rfl, rfl, rfl⟩
      · rintro ⟨_, rfl, rfl, rfl⟩
        exact ⟨rfl, rfl⟩
  constructor
  · rintro ⟨spec, more, range, later, hspec, hnew, hrange, hlater⟩
    obtain ⟨spec', rfl, htext⟩ := (hspecs spec more).mp hspec
    exact ⟨spec', more, range, later, htext, hnew, hrange, hlater⟩
  · rintro ⟨spec, more, range, later, hspec, hnew, hrange, hlater⟩
    exact ⟨c :: spec, more, range, later, (hspecs _ more).mpr ⟨spec, rfl, hspec⟩, hnew,
      hrange, hlater⟩

theorem rangesFrom_comma {length : ℕ} {f : RangeFields} {text : Bytes} {new : List (ℤ × ℤ)} :
    RangesFrom length f (comma :: text) new ↔
      ∃ range later, new = range :: later ∧ SpecRange length f range ∧
        RangesFrom length .init text later := by
  simp only [rangesFrom_init]
  constructor
  · rintro ⟨spec, more, range, later, hspecs, hnew, hrange, hlater⟩
    rw [rangeSpecs, if_pos rfl, List.cons.injEq] at hspecs
    obtain ⟨rfl, rfl⟩ := hspecs
    exact ⟨range, later, hnew, hrange, hlater⟩
  · rintro ⟨range, later, hnew, hrange, hlater⟩
    exact ⟨[], rangeSpecs text, range, later, by rw [rangeSpecs, if_pos rfl], hnew, hrange, hlater⟩

/-- The loop from any place on. -/
theorem requestRangesLoop_ok_iff (length : ℕ) (text : Bytes) (f : RangeFields)
    (ranges out : List (ℤ × ℤ)) :
    requestRangesLoop length text f ranges = (.ok, out) ↔
      (∀ c ∈ text, isRangeChar c = true ∨ c = comma) ∧
        ∃ new, out = ranges ++ new ∧ RangesFrom length f text new := by
  induction text generalizing f ranges with
  | nil =>
    rw [requestRangesLoop]
    cases hvalid : validateRange length f.first f.last with
    | error status =>
      have hstatus := validateRange_error hvalid
      simp only [Prod.mk.injEq, hstatus, false_and, false_iff]
      rintro ⟨-, new, -, spec, more, range, later, hspecs, -, hrange, -⟩
      cases hspecs
      rw [SpecRange, List.foldl_nil, hvalid] at hrange
      cases hrange
    | ok range =>
      simp only [Prod.mk.injEq, true_and]
      constructor
      · rintro rfl
        exact ⟨by simp, [range], rfl, [], [], range, [], rfl, rfl, hvalid, .nil⟩
      · rintro ⟨-, new, rfl, spec, more, range', later, hspecs, rfl, hrange, hlater⟩
        cases hspecs
        cases hlater
        rw [SpecRange, List.foldl_nil, hvalid] at hrange
        cases hrange
        rfl
  | cons c text ih =>
    rw [requestRangesLoop, List.forall_mem_cons]
    by_cases hchar : isRangeChar c = true
    · have hc : c ≠ comma := by
        rintro rfl
        exact absurd hchar (by decide)
      rw [if_pos hchar, ih]
      simp only [rangesFrom_char hc, hchar, true_or, true_and]
    · rw [if_neg hchar]
      by_cases hc : c = comma
      · subst hc
        rw [if_pos rfl]
        simp only [rangesFrom_comma, or_true, true_and]
        cases hvalid : validateRange length f.first f.last with
        | error status =>
          have hstatus := validateRange_error hvalid
          simp only [Prod.mk.injEq, hstatus, false_and, false_iff]
          rintro ⟨-, new, -, range, later, -, hrange, -⟩
          rw [SpecRange, hvalid] at hrange
          cases hrange
        | ok range =>
          simp only
          rw [ih]
          refine and_congr_right fun _ => ?_
          constructor
          · rintro ⟨new, rfl, hnew⟩
            exact ⟨range :: new, by simp, range, new, rfl, hvalid, hnew⟩
          · rintro ⟨_, rfl, range', later, rfl, hrange, hnew⟩
            rw [SpecRange, hvalid] at hrange
            cases hrange
            exact ⟨later, by simp, hnew⟩
      · rw [if_neg hc]
        simp [hchar, hc]

/-- The ranges are accepted: every byte has its place, and every part gives a range. -/
theorem getRequestRanges_ok_iff {length : ℕ} {headers : Headers} {value : Bytes}
    (hvalue : getRequestHeader headers (ascii "Range") = some value) (out : List (ℤ × ℤ)) :
    getRequestRanges length headers = (.ok, out) ↔ ∃ text, value = bytesUnit ++ text ∧
      (∀ c ∈ text, isRangeChar c = true ∨ c = comma) ∧
      List.Forall₂ (fun spec range => SpecRange length (specFields spec) range)
        (rangeSpecs text) out := by
  rw [getRequestRanges, hvalue]
  by_cases hunit : bytesUnit <+: value
  · obtain ⟨text, rfl⟩ := hunit
    simp only [List.prefix_append, if_true, List.drop_left, requestRangesLoop_ok_iff,
      List.nil_append, rangesFrom_init, List.append_cancel_left_eq]
    constructor
    · rintro ⟨hchars, new, rfl, hnew⟩
      exact ⟨text, rfl, hchars, hnew⟩
    · rintro ⟨_, rfl, hchars, hnew⟩
      exact ⟨hchars, out, rfl, hnew⟩
  · simp only [if_neg hunit, Prod.mk.injEq, reduceCtorEq, false_and, false_iff]
    rintro ⟨text, rfl, -⟩
    exact hunit (List.prefix_append ..)

/-! ### Numbers in a `long` -/

def IsLong (n : ℤ) : Prop := -2 ^ 63 ≤ n ∧ n < 2 ^ 63

theorem wrapLong_cases (n : ℤ) :
    (wrapLong n = n % 2 ^ 64 ∧ n % 2 ^ 64 < 2 ^ 63) ∨
      (wrapLong n = n % 2 ^ 64 - 2 ^ 64 ∧ 2 ^ 63 ≤ n % 2 ^ 64) := by
  rw [wrapLong, Int.bmod_def]
  norm_num
  omega

theorem isLong_wrapLong (n : ℤ) : IsLong (wrapLong n) := by
  have hcases := wrapLong_cases n
  unfold IsLong
  omega

theorem wrapLong_of_isLong {n : ℤ} (h : IsLong n) : wrapLong n = n := by
  have hcases := wrapLong_cases n
  unfold IsLong at h
  omega

theorem isLong_rangeDigit {v : ℤ} (h : IsLong v) {c : Byte} (hc : isDigit c = true) :
    IsLong (rangeDigit v c) := by
  have hdigit : ∀ c : Byte, isDigit c = true → digitVal c ≤ 9 := by decide +kernel
  have hle := hdigit c hc
  unfold rangeDigit
  split_ifs
  · exact isLong_wrapLong _
  · exact h
  · exact isLong_wrapLong _
  · unfold IsLong
    omega

/-- Both fields of a part are longs. -/
structure RangeFields.Longs (f : RangeFields) : Prop where
  first : IsLong f.first
  last : IsLong f.last

theorem RangeFields.Longs.step {f : RangeFields} (h : f.Longs) (c : Byte) : (f.step c).Longs := by
  unfold RangeFields.step
  split_ifs with hdigit hlast
  · exact ⟨h.first, isLong_rangeDigit h.last hdigit⟩
  · exact ⟨isLong_rangeDigit h.first hdigit, h.last⟩
  · exact ⟨h.first, h.last⟩
  · exact h

theorem specFields_longs (spec : Bytes) : (specFields spec).Longs := by
  have hfold : ∀ f : RangeFields, f.Longs → (spec.foldl RangeFields.step f).Longs := by
    induction spec with
    | nil => exact fun f h => h
    | cons c spec ih => exact fun f h => ih _ (h.step c)
  exact hfold .init ⟨by unfold IsLong; decide, by unfold IsLong; decide⟩

/-! ### Ranges inside the entity -/

def Inside (length : ℕ) (range : ℤ × ℤ) : Prop :=
  0 ≤ range.1 ∧ range.1 ≤ range.2 ∧ range.2 < length

/-- The parts that are refused: `0-`, a lone hyphen, `-0`, a range that begins behind the entity,
one that ends with 0, and one that ends before it begins. -/
def FieldsRefused (length : ℕ) (f : RangeFields) : Prop :=
  (f.first = -10 ∧ f.last = -1) ∨ (f.first = -1 ∧ (f.last = -1 ∨ f.last = -10)) ∨
    (f.first ≠ -10 ∧ f.first ≠ -1 ∧
      (length ≤ toSize f.first ∨ f.last = -10 ∨
        (f.last ≠ -1 ∧ toSize f.last < length ∧ f.last < f.first)))

theorem specRange_of_not_refused {length : ℕ} {f : RangeFields} (h : ¬ FieldsRefused length f) :
    ∃ range, SpecRange length f range := by
  unfold FieldsRefused at h
  unfold SpecRange validateRange
  split_ifs
  all_goals first
    | exact ⟨_, rfl⟩
    | omega

theorem not_refused_of_specRange {length : ℕ} (hpos : 0 < length) {f : RangeFields} {range : ℤ × ℤ}
    (h : SpecRange length f range) : ¬ FieldsRefused length f := by
  unfold SpecRange validateRange at h
  unfold FieldsRefused
  split_ifs at h <;> omega

/-- A range that has been completed lies inside unless it is a suffix of no size or one longer than
the entity. -/
theorem inside_iff {length : ℕ} (hpos : 0 < length) (hlength : length < 2 ^ 63) {f : RangeFields}
    (hlongs : f.Longs) {range : ℤ × ℤ} (h : SpecRange length f range) :
    Inside length range ↔ (f.first = -1 → 1 ≤ f.last ∧ f.last ≤ length) := by
  have hfirst := hlongs.first
  have hlast := hlongs.last
  have hend := wrapLong_of_isLong (n := length - 1) ⟨by omega, by omega⟩
  have hsuffix := wrapLong_cases (length - f.last)
  unfold IsLong at hfirst hlast
  unfold SpecRange validateRange toSize at h
  unfold Inside
  split_ifs at h <;> cases h
  all_goals
    dsimp only
    omega

/-- The value is refused: its unit is another one, or it has a byte of no range or a part that is
refused. -/
def RangesRefused (length : ℕ) (value : Bytes) : Prop :=
  ∀ text, value = bytesUnit ++ text →
    (∃ c ∈ text, ¬ (isRangeChar c = true ∨ c = comma)) ∨
      ∃ spec ∈ rangeSpecs text, FieldsRefused length (specFields spec)

section
variable {α β : Type*} {R : α → β → Prop}

theorem forall₂_exists_right {as : List α} {bs : List β} (h : List.Forall₂ R as bs) {a : α}
    (ha : a ∈ as) :
    ∃ b ∈ bs, R a b := by
  induction h with
  | nil => exact absurd ha (by simp)
  | cons hr _ ih =>
    rcases List.mem_cons.mp ha with rfl | ha
    · exact ⟨_, List.mem_cons_self, hr⟩
    · obtain ⟨b, hb, hab⟩ := ih ha
      exact ⟨b, List.mem_cons_of_mem _ hb, hab⟩

theorem forall₂_of_exists {as : List α} (h : ∀ a ∈ as, ∃ b, R a b) :
    ∃ bs, List.Forall₂ R as bs := by
  induction as with
  | nil => exact ⟨[], .nil⟩
  | cons a as ih =>
    obtain ⟨b, hb⟩ := h a List.mem_cons_self
    obtain ⟨bs, hbs⟩ := ih fun a' ha => h a' (List.mem_cons_of_mem _ ha)
    exact ⟨b :: bs, .cons hb hbs⟩

end

section
variable {length : ℕ} {headers : Headers} {value : Bytes}

/-- A value that is not refused is accepted. -/
theorem getRequestRanges_not_refused
    (hvalue : getRequestHeader headers (ascii "Range") = some value)
    (h : ¬ RangesRefused length value) : ∃ out, getRequestRanges length headers = (.ok, out) := by
  unfold RangesRefused at h
  push Not at h
  obtain ⟨text, rfl, hchars, hspecs⟩ := h
  obtain ⟨out, hout⟩ := forall₂_of_exists
    (R := fun spec range => SpecRange length (specFields spec) range)
    fun spec hspec => specRange_of_not_refused (hspecs spec hspec)
  exact ⟨out, (getRequestRanges_ok_iff hvalue out).mpr ⟨text, rfl, fun c hc => hchars c hc, hout⟩⟩

theorem not_refused_of_ok (hpos : 0 < length)
    (hvalue : getRequestHeader headers (ascii "Range") = some value) {out : List (ℤ × ℤ)}
    (h : getRequestRanges length headers = (.ok, out)) : ¬ RangesRefused length value := by
  obtain ⟨text, rfl, hchars, hspecs⟩ := (getRequestRanges_ok_iff hvalue out).mp h
  intro hrefused
  rcases hrefused text rfl with ⟨c, hc, hbad⟩ | ⟨spec, hspec, hbad⟩
  · exact hbad (hchars c hc)
  · obtain ⟨range, -, hrange⟩ := forall₂_exists_right hspecs hspec
    exact not_refused_of_specRange hpos hrange hbad

end

/-- The ranges that are accepted lie inside the entity if no suffix of no size and none that is
longer than the entity is asked for, and only then. -/
theorem getRequestRanges_inside_iff (length : ℕ) (hpos : 0 < length) (hlength : length < 2 ^ 63)
    (headers : Headers) (value : Bytes)
    (hvalue : getRequestHeader headers (ascii "Range") = some value) :
    (∀ out, getRequestRanges length headers = (.ok, out) → ∀ range ∈ out, Inside length range) ↔
      RangesRefused length value ∨
        ∀ text, value = bytesUnit ++ text → ∀ spec ∈ rangeSpecs text,
          (specFields spec).first = -1 → 1 ≤ (specFields spec).last ∧
            (specFields spec).last ≤ length := by
  constructor
  · intro hinside
    by_cases hrefused : RangesRefused length value
    · exact Or.inl hrefused
    · right
      intro text htext spec hspec
      obtain ⟨out, hout⟩ := getRequestRanges_not_refused hvalue hrefused
      obtain ⟨text', htext', -, hspecs⟩ := (getRequestRanges_ok_iff hvalue out).mp hout
      rw [htext, List.append_cancel_left_eq] at htext'
      subst htext'
      obtain ⟨range, hrange, hgives⟩ := forall₂_exists_right hspecs hspec
      exact (inside_iff hpos hlength (specFields_longs spec) hgives).mp
        (hinside out hout range hrange)
  · rintro hcond out hout range hrange
    obtain ⟨text, htext, -, hspecs⟩ := (getRequestRanges_ok_iff hvalue out).mp hout
    obtain ⟨spec, hspec, hgives⟩ := forall₂_exists_right hspecs.flip hrange
    rcases hcond with hrefused | hsuffix
    · exact absurd hrefused (not_refused_of_ok hpos hvalue hout)
    · exact (inside_iff hpos hlength (specFields_longs spec) hgives).mpr
        (hsuffix text htext spec hspec)

/-- Headers with nothing but a range. -/
def rangeHeader (value : String) : Headers := [(ascii "Range", .scalar (.str (ascii value)))]

theorem getRequestRanges_inside_two :
    (∀ out, getRequestRanges 10 (rangeHeader "bytes=0-4, -2") = (.ok, out) → ∀ range ∈ out,
      Inside 10 range) ↔
      RangesRefused 10 (ascii "bytes=0-4, -2") ∨
        ∀ text, ascii "bytes=0-4, -2" = bytesUnit ++ text → ∀ spec ∈ rangeSpecs text,
          (specFields spec).first = -1 → 1 ≤ (specFields spec).last ∧
            (specFields spec).last ≤ (10 : ℕ) :=
  getRequestRanges_inside_iff 10 (by decide) (by decide) _ _ (by decide +kernel)

/-- A suffix that is longer than the entity begins before it. -/
theorem getRequestRanges_outside :
    getRequestRanges 5 (rangeHeader "bytes=-10") = (.ok, [(-5, 4)]) ∧ ¬ Inside 5 (-5, 4) := by
  constructor
  · decide +kernel
  · unfold Inside
    decide

end ExtHttp
