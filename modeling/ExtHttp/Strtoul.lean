import ExtHttp.Bytes

/-!
# `strtoul`

The numerals of the extension are read by the C library's `strtoul`, which skips blanks, takes a
sign and, in base 16, a `0x` prefix, and saturates. `unsigned long` has 64 bits.
-/
namespace ExtHttp

/-- `ULONG_MAX` -/
def ulongMax : ℕ := 2 ^ 64 - 1

/-- The value of a digit, of any base up to 36. -/
def digitVal (c : Byte) : ℕ :=
  if isDigit c then c.toNat - 48
  else if isUpper c then c.toNat - 55
  else if isLower c then c.toNat - 87
  else 255

def isBaseDigit (base : ℕ) (c : Byte) : Bool := digitVal c < base

/-- The number a list of digits denotes, most significant digit first. -/
def numeral (base : ℕ) (ds : Bytes) : ℕ := ds.foldl (fun n c => n * base + digitVal c) 0

/-- The length of the `0x` prefix, which counts only when a hexadecimal digit follows. -/
def hexPrefix (base : ℕ) : Bytes → ℕ
  | z :: x :: d :: _ => if base = 16 ∧ z = 48 ∧ (x = 120 ∨ x = 88) ∧ isBaseDigit 16 d then 2 else 0
  | _ => 0

/-- `strtoul(s, &stop, base)`: the value and `stop - s`, which is 0 when there was no digit. -/
def strtoul (base : ℕ) (s : Bytes) : ℕ × ℕ :=
  let blanks := (s.takeWhile isSpace).length
  let s₁ := s.dropWhile isSpace
  let sign := if s₁.head? = some 45 ∨ s₁.head? = some 43 then 1 else 0
  let s₂ := s₁.drop sign
  let pre := hexPrefix base s₂
  let ds := (s₂.drop pre).takeWhile (isBaseDigit base)
  if ds = [] then (0, 0)
  else
    let v := numeral base ds
    let v := if ulongMax < v then ulongMax
      else if s₁.head? = some 45 then (2 ^ 64 - v) % 2 ^ 64 else v
    (v, blanks + sign + pre + ds.length)

example : strtoul 16 (ascii "1aF;x\r\n") = (0x1af, 3) := by decide
example : strtoul 16 (ascii " -0x1") = (ulongMax, 5) := by decide
example : strtoul 16 (ascii " \r\n0xg") = (0, 4) := by decide

theorem isBaseDigit_sixteen_not_isSpace {c : Byte} (h : isBaseDigit 16 c = true) :
    isSpace c = false ∧ c ≠ 45 ∧ c ≠ 43 := by
  revert c; decide +kernel

theorem isSpace_not_isBaseDigit {c : Byte} (h : isSpace c = true) : isBaseDigit 16 c = false := by
  revert c; decide +kernel

@[simp] theorem numeral_nil (base : ℕ) : numeral base [] = 0 := rfl

theorem numeral_append (base : ℕ) (ds : Bytes) (c : Byte) :
    numeral base (ds ++ [c]) = numeral base ds * base + digitVal c := by
  simp [numeral]

theorem takeWhile_append_of_stop {p : Byte → Bool} {ds : Bytes} (h : ∀ c ∈ ds, p c = true)
    {rest : Bytes} (hs : ∀ c, rest.head? = some c → p c = false) :
    (ds ++ rest).takeWhile p = ds := by
  rw [List.takeWhile_append_of_pos h]
  cases rest with
  | nil => simp
  | cons c rest => simp [hs c rfl]

/-- A plain numeral, up to the first byte that is neither a digit nor the `x` of a prefix, is read
as what it says, or saturates. -/
theorem strtoul_digits (ds rest : Bytes) (hne : ds ≠ []) (hd : ∀ c ∈ ds, isBaseDigit 16 c = true)
    (hs : ∀ c, rest.head? = some c → isBaseDigit 16 c = false ∧ c ≠ 120 ∧ c ≠ 88) :
    strtoul 16 (ds ++ rest) =
      (if ulongMax < numeral 16 ds then ulongMax else numeral 16 ds, ds.length) := by
  obtain ⟨d, ds', rfl⟩ := List.exists_cons_of_ne_nil hne
  have hd0 := isBaseDigit_sixteen_not_isSpace (hd d (by simp))
  have hstop : ∀ c, rest.head? = some c → isBaseDigit 16 c = false := fun c hc => (hs c hc).1
  have hpre : hexPrefix 16 (d :: (ds' ++ rest)) = 0 := by
    -- the byte behind a leading 0 is another digit or the byte that ends the numeral
    match ds', rest with
    | [], [] => rfl
    | [], [c] => rfl
    | [], c :: e :: r => have := hs c rfl; simp [hexPrefix, this.2.1, this.2.2]
    | [c], [] => rfl
    | [c], e :: r =>
      have hc := hd c (by simp)
      have : c ≠ 120 ∧ c ≠ 88 := by constructor <;> rintro rfl <;> exact absurd hc (by decide)
      simp [hexPrefix, this.1, this.2]
    | c :: e :: r, _ =>
      have hc := hd c (by simp)
      have : c ≠ 120 ∧ c ≠ 88 := by constructor <;> rintro rfl <;> exact absurd hc (by decide)
      simp [hexPrefix, this.1, this.2]
  have hsp : (d :: (ds' ++ rest)).takeWhile isSpace = [] := by simp [hd0.1]
  have hdr : (d :: (ds' ++ rest)).dropWhile isSpace = d :: (ds' ++ rest) := by simp [hd0.1]
  have hds : (d :: (ds' ++ rest)).takeWhile (isBaseDigit 16) = d :: ds' := by
    rw [← List.cons_append]
    exact takeWhile_append_of_stop hd hstop
  simp only [strtoul, List.cons_append, hsp, hdr, List.head?_cons, Option.some.injEq, hd0.2.1,
    hd0.2.2, or_self, if_false, List.drop_zero, hpre, hds, List.length_nil, Nat.zero_add,
    Nat.add_zero]
  simp

theorem strtoul_numeral (ds rest : Bytes) (hne : ds ≠ []) (hd : ∀ c ∈ ds, isBaseDigit 16 c = true)
    (hs : ∀ c, rest.head? = some c → isBaseDigit 16 c = false ∧ c ≠ 120 ∧ c ≠ 88)
    (hv : numeral 16 ds ≤ ulongMax) :
    strtoul 16 (ds ++ rest) = (numeral 16 ds, ds.length) := by
  rw [strtoul_digits ds rest hne hd hs, if_neg (Nat.not_lt.mpr hv)]

theorem isBaseDigit_ten {c : Byte} : isBaseDigit 10 c = isDigit c := by
  revert c; decide +kernel

theorem isDigit_not_isSpace {c : Byte} (h : isDigit c = true) :
    isSpace c = false ∧ c ≠ 45 ∧ c ≠ 43 := by
  revert c; decide +kernel

theorem hexPrefix_ten (s : Bytes) : hexPrefix 10 s = 0 := by
  unfold hexPrefix
  split
  · exact if_neg fun h => absurd h.1 (by decide)
  · rfl

/-- A plain decimal numeral is read as what it says, or saturates. -/
theorem strtoul_decimal {ds rest : Bytes} (hne : ds ≠ []) (hd : ∀ c ∈ ds, isDigit c = true)
    (hs : ∀ c, rest.head? = some c → isDigit c = false) :
    strtoul 10 (ds ++ rest) = (min (numeral 10 ds) ulongMax, ds.length) := by
  have hds : (ds ++ rest).takeWhile (isBaseDigit 10) = ds :=
    takeWhile_append_of_stop (fun c hc => isBaseDigit_ten.trans (hd c hc))
      fun c hc => isBaseDigit_ten.trans (hs c hc)
  obtain ⟨d, ds', rfl⟩ := List.exists_cons_of_ne_nil hne
  have hd0 := isDigit_not_isSpace (hd d (by simp))
  have hsp : (d :: (ds' ++ rest)).takeWhile isSpace = [] := by simp [hd0.1]
  have hdr : (d :: (ds' ++ rest)).dropWhile isSpace = d :: (ds' ++ rest) := by simp [hd0.1]
  rw [List.cons_append] at hds
  simp only [strtoul, List.cons_append, hsp, hdr, List.head?_cons, Option.some.injEq, hd0.2.1,
    hd0.2.2, or_self, if_false, List.drop_zero, hexPrefix_ten, hds, List.length_nil, Nat.zero_add,
    Nat.add_zero]
  rw [if_neg (List.cons_ne_nil _ _), Nat.min_def]
  split_ifs <;> first | rfl | (refine Prod.ext ?_ rfl; dsimp only; omega)

theorem takeWhile_append_space {p : Byte → Bool} {c : Byte} (hc : p c = false) (x y : Bytes) :
    (x ++ c :: y).takeWhile p = x.takeWhile p := by
  rw [List.takeWhile_append]
  split_ifs with h
  · rw [List.takeWhile_cons_of_neg (by simp [hc]), List.append_nil]
    exact ((List.takeWhile_sublist p).eq_of_length h).symm
  · rfl

theorem hexPrefix_le (s : Bytes) : hexPrefix 16 s ≤ s.length := by
  unfold hexPrefix
  split
  · split_ifs <;> simp
  · simp

theorem hexPrefix_append_space {c : Byte} (hc : isSpace c = true) (x y : Bytes) :
    hexPrefix 16 (x ++ c :: y) = hexPrefix 16 x := by
  have h48 : c ≠ 48 := by rintro rfl; exact absurd hc (by decide)
  have h120 : c ≠ 120 := by rintro rfl; exact absurd hc (by decide)
  have h88 : c ≠ 88 := by rintro rfl; exact absurd hc (by decide)
  match x, y with
  | [], [] => rfl
  | [], [a] => rfl
  | [], a :: b :: y => simp [hexPrefix, h48]
  | [a], [] => rfl
  | [a], b :: y => simp [hexPrefix, h120, h88]
  | [a, b], y => simp [hexPrefix, isSpace_not_isBaseDigit hc]
  | a :: b :: d :: x, y => rfl

/-- A numeral ends at the blank behind it, unless there are only blanks in front of that. -/
theorem strtoul_append_space {x : Bytes} {c : Byte} (hx : ∃ d ∈ x, isSpace d = false)
    (hc : isSpace c = true) (y : Bytes) : strtoul 16 (x ++ c :: y) = strtoul 16 x := by
  have hne : x.dropWhile isSpace ≠ [] := by
    obtain ⟨d, hd, hs⟩ := hx
    rw [Ne, List.dropWhile_eq_nil_iff]
    intro h
    simp [h d hd] at hs
  have htake : (x ++ c :: y).takeWhile isSpace = x.takeWhile isSpace := by
    rw [List.takeWhile_append, if_neg]
    intro h
    rw [Ne, List.dropWhile_eq_nil_iff] at hne
    exact hne fun d hd => List.mem_takeWhile_imp
      ((List.takeWhile_sublist isSpace).eq_of_length h ▸ hd)
  have hdrop := dropWhile_append_of_ne_nil hne (c :: y)
  obtain ⟨d, t, ht⟩ := List.exists_cons_of_ne_nil hne
  have hsign : ∀ n, n ≤ 1 → (d :: t ++ c :: y).drop n = (d :: t).drop n ++ c :: y := by
    intro n hn
    exact List.drop_append_of_le_length (by simp; omega)
  have hdigit := isSpace_not_isBaseDigit hc
  simp only [strtoul, htake, hdrop, ht]
  rw [hsign _ (by split_ifs <;> simp), hexPrefix_append_space hc,
    List.drop_append_of_le_length (hexPrefix_le _), takeWhile_append_space hdigit]
  rfl

theorem dropWhile_append_stop {p : Byte → Bool} {c : Byte} (hc : p c = false) (x y : Bytes) :
    (x ++ c :: y).dropWhile p = x.dropWhile p ++ c :: y := by
  by_cases h : x.dropWhile p = []
  · simp [List.dropWhile_append, h, hc]
  · exact dropWhile_append_of_ne_nil h _

theorem hexPrefix_le_nul (w y : Bytes) : hexPrefix 16 (w ++ nul :: y) ≤ w.length := by
  have h48 : nul ≠ 48 := by decide
  have hx : nul ≠ 120 ∧ nul ≠ 88 := by decide
  have hdigit : isBaseDigit 16 nul = false := by decide
  match w, y with
  | [], [] => exact Nat.zero_le _
  | [], [_] => exact Nat.zero_le _
  | [], _ :: _ :: _ => simp [hexPrefix, h48]
  | [_], [] => exact Nat.zero_le _
  | [_], _ :: _ => simp [hexPrefix, hx]
  | [_, _], _ => simp [hexPrefix, hdigit]
  | _ :: _ :: _ :: _, _ =>
    simp only [hexPrefix, List.cons_append, List.length_cons]
    split_ifs <;> omega

/-- A number ends at the NUL of its string. -/
theorem strtoul_le (x y : Bytes) : (strtoul 16 (x ++ nul :: y)).2 ≤ x.length := by
  have hsplit := congrArg List.length (List.takeWhile_append_dropWhile (p := isSpace) (l := x))
  rw [List.length_append] at hsplit
  unfold strtoul
  dsimp only
  rw [takeWhile_append_space (by decide), dropWhile_append_stop (by decide)]
  generalize x.dropWhile isSpace = v at hsplit
  generalize hsign : (if (v ++ nul :: y).head? = some 45 ∨ (v ++ nul :: y).head? = some 43 then 1
    else 0 : ℕ) = sign
  have hsignle : sign ≤ v.length := by
    subst hsign
    cases v with
    | nil => simp [nul]
    | cons c v => split_ifs <;> simp
  rw [List.drop_append_of_le_length hsignle]
  have hvlen : (v.drop sign).length = v.length - sign := List.length_drop
  generalize v.drop sign = w at hvlen
  have hpre := hexPrefix_le_nul w y
  rw [List.drop_append_of_le_length hpre, takeWhile_append_space (by decide)]
  have hdigits := (List.takeWhile_sublist (isBaseDigit 16)
    (l := w.drop (hexPrefix 16 (w ++ nul :: y)))).length_le
  rw [List.length_drop] at hdigits
  split
  · exact Nat.zero_le _
  · dsimp only
    omega

end ExtHttp
