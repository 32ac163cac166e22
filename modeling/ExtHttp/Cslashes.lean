import ExtHttp.Params

/-!
# Escaping in the style of C

`php_addcslashes` for the characters that headers do not take, and `php_stripcslashes`.
-/
namespace ExtHttp

/-- `"\0..\37\173\\\""` -/
def isCslashed (c : Byte) : Bool := c < 32 || c = 123 || c = backslash || c = quote

/-- The letter that stands for a control character. -/
def cslashLetter (c : Byte) : Option Byte :=
  if c = 10 then some 110 else if c = 9 then some 116 else if c = 13 then some 114
    else if c = 7 then some 97
  else if c = 11 then some 118 else if c = 8 then some 98 else if c = 12 then some 102 else none

/-- What `php_addcslashes` puts behind the backslash. -/
def cslashCode (c : Byte) : Bytes :=
  if c < 32 ∨ 126 < c then
    (cslashLetter c).elim [48 + c / 64, 48 + c / 8 % 8, 48 + c % 8] fun letter => [letter]
  else [c]

def addcslash (c : Byte) : Bytes := if isCslashed c then backslash :: cslashCode c else [c]

/-- `php_addcslashes` -/
def phpAddcslashes (s : Bytes) : Bytes := s.flatMap addcslash

/-- The control character a letter stands for. -/
def stripLetter (c : Byte) : Option Byte :=
  if c = 110 then some 10 else if c = 116 then some 9 else if c = 114 then some 13
    else if c = 97 then some 7
  else if c = 118 then some 11 else if c = 98 then some 8 else if c = 102 then some 12 else none

/-- The number that digits of a base stand for, as a character. -/
def digitsChar (base : ℕ) (digits : Bytes) : Byte := (numeral base digits).toUInt8

/-- What `php_stripcslashes` makes of the text behind a backslash: a character, and how much is read
for it. -/
def stripCode (c : Byte) (rest : Bytes) : Byte × ℕ :=
  match stripLetter c with
  | some d => (d, 0)
  | none =>
      let hex := (rest.take 2).takeWhile (isBaseDigit 16)
      let octal := ((c :: rest).take 3).takeWhile (isBaseDigit 8)
      if c = 120 ∧ hex ≠ [] then (digitsChar 16 hex, hex.length)
      else if octal ≠ [] then (digitsChar 8 octal, octal.length - 1)
      else (c, 0)

/-- `php_stripcslashes` -/
def phpStripcslashes : Bytes → Bytes
  | [] => []
  | [c] => [c]
  | c :: d :: rest =>
      if c = backslash then (stripCode d rest).1 :: phpStripcslashes
        (rest.drop (stripCode d rest).2)
      else c :: phpStripcslashes (d :: rest)
termination_by s => s.length
decreasing_by all_goals simp <;> omega

theorem phpStripcslashes_plain {c : Byte} (h : c ≠ backslash) (s : Bytes) :
    phpStripcslashes (c :: s) = c :: phpStripcslashes s := by
  cases s with
  | nil => simp [phpStripcslashes]
  | cons d s => rw [phpStripcslashes, if_neg h]

theorem phpStripcslashes_code (c : Byte) (s : Bytes) :
    phpStripcslashes (backslash :: c :: s) =
      (stripCode c s).1 :: phpStripcslashes (s.drop (stripCode c s).2) := by
  rw [phpStripcslashes, if_pos rfl]

/-! ### Single characters -/

/-- A character that stands for itself is no letter and no digit. -/
theorem stripCode_self {c : Byte} (h : c = 123 ∨ c = backslash ∨ c = quote) (s : Bytes) :
    stripCode c s = (c, 0) := by
  have hc : stripLetter c = none ∧ isBaseDigit 8 c = false ∧ c ≠ 120 := by
    rcases h with rfl | rfl | rfl <;> decide
  simp [stripCode, hc.1, hc.2.1, hc.2.2]

theorem stripCode_letter {c letter : Byte} (h : cslashLetter c = some letter) (s : Bytes) :
    stripCode letter s = (c, 0) := by
  have hletter : ∀ c : Byte, ∀ letter ∈ cslashLetter c, stripLetter letter = some c := by
    decide +kernel
  simp [stripCode, hletter c letter h]

theorem octal_digits :
    ∀ c : Byte, isBaseDigit 8 (48 + c / 64) = true ∧ isBaseDigit 8 (48 + c / 8 % 8) = true ∧
    isBaseDigit 8 (48 + c % 8) = true ∧ stripLetter (48 + c / 64) = none ∧ 48 + c / 64 ≠ 120 ∧
      digitsChar 8 [48 + c / 64, 48 + c / 8 % 8, 48 + c % 8] = c := by
  decide +kernel

theorem stripCode_octal (c : Byte) (s : Bytes) :
    stripCode (48 + c / 64) ((48 + c / 8 % 8) :: (48 + c % 8) :: s) = (c, 2) := by
  obtain ⟨hhigh, hmid, hlow, hletter, hx, hvalue⟩ := octal_digits c
  simp [stripCode, hletter, hx, hhigh, hmid, hlow, hvalue]

/-- A character that has been escaped is read back. -/
theorem phpStripcslashes_addcslash (c : Byte) (s : Bytes) :
    phpStripcslashes (addcslash c ++ s) = c :: phpStripcslashes s := by
  unfold addcslash
  split_ifs with hc
  · unfold cslashCode
    split_ifs with hcontrol
    · cases hletter : cslashLetter c with
      | some letter => simp [phpStripcslashes_code, stripCode_letter hletter]
      | none => simp [phpStripcslashes_code, stripCode_octal]
    · have hself : c = 123 ∨ c = backslash ∨ c = quote := by
        simp only [isCslashed, Bool.or_eq_true, decide_eq_true_eq] at hc
        tauto
      simp [phpStripcslashes_code, stripCode_self hself]
  · have hne : c ≠ backslash := fun h => hc (by rw [h]; rfl)
    exact phpStripcslashes_plain hne s

/-- Stripping gives back what has been escaped. -/
theorem phpStripcslashes_phpAddcslashes (s : Bytes) : phpStripcslashes (phpAddcslashes s) = s := by
  induction s with
  | nil => simp [phpAddcslashes, phpStripcslashes]
  | cons c s ih =>
    have hcons : phpAddcslashes (c :: s) = addcslash c ++ phpAddcslashes s := rfl
    rw [hcons, phpStripcslashes_addcslash, ih]

/-! ### Whole texts -/

theorem addcslash_length (c : Byte) : 1 ≤ (addcslash c).length ∧
    (isCslashed c = true → 2 ≤ (addcslash c).length) := by
  revert c
  decide +kernel

theorem phpAddcslashes_length_le (s : Bytes) : s.length ≤ (phpAddcslashes s).length := by
  induction s with
  | nil => simp
  | cons c s ih =>
    have hc := (addcslash_length c).1
    rw [phpAddcslashes, List.flatMap_cons, List.length_append, List.length_cons]
    rw [phpAddcslashes] at ih
    omega

theorem phpAddcslashes_plain {s : Bytes} (h : ∀ c ∈ s, isCslashed c = false) :
    phpAddcslashes s = s := by
  induction s with
  | nil => rfl
  | cons c s ih =>
    rw [List.forall_mem_cons] at h
    have hcons : phpAddcslashes (c :: s) = addcslash c ++ phpAddcslashes s := rfl
    rw [hcons, ih h.2, addcslash, h.1]
    rfl

/-- A text that does not get longer has nothing in it to escape. -/
theorem phpAddcslashes_length_eq {s : Bytes} (h : (phpAddcslashes s).length = s.length) :
    ∀ c ∈ s, isCslashed c = false := by
  induction s with
  | nil => simp
  | cons c s ih =>
    have hc := addcslash_length c
    have hs := phpAddcslashes_length_le s
    have hcons : (phpAddcslashes (c :: s)).length =
        (addcslash c).length + (phpAddcslashes s).length := by
      rw [← List.length_append]
      rfl
    rw [hcons, List.length_cons] at h
    rw [List.forall_mem_cons]
    refine ⟨?_, ih (by omega)⟩
    cases hslashed : isCslashed c with
    | false => rfl
    | true =>
      have h2 := hc.2 hslashed
      omega

theorem nul_notMem_phpAddcslashes (s : Bytes) : nul ∉ phpAddcslashes s := by
  intro h
  obtain ⟨c, -, hc⟩ := List.mem_flatMap.mp h
  revert hc
  revert c
  decide +kernel

end ExtHttp
