import ExtHttp.Bytes

/-! Header names: their characters and the spelling `php_http_pretty_key` gives them. -/
namespace ExtHttp

def underscore : Byte := 95

/-- The loop of `php_http_pretty_key` over the characters behind the first. -/
def prettyKeyTail (uctitle xhyphen : Bool) : Bool → Bytes → Bytes
  | _, [] => []
  | wasalpha, c :: key =>
      if isAlpha c then
        (if !wasalpha && uctitle then toUpper c else toLower c) ::
          prettyKeyTail uctitle xhyphen true key
      else (if xhyphen && c = underscore then hyphen else c) ::
        prettyKeyTail uctitle xhyphen false key

/-- `php_http_pretty_key`. An underscore in front is not replaced. -/
def prettyKey (uctitle xhyphen : Bool) : Bytes → Bytes
  | [] => []
  | c :: key =>
      if isAlpha c then
        (if uctitle then toUpper c else toLower c) :: prettyKeyTail uctitle xhyphen true key
      else c :: prettyKeyTail uctitle xhyphen false key

example : prettyKey true true (ascii "_content_TYPE-x9y") = ascii "_Content-Type-X9Y" := by decide

/-- The case of a character does not tell whether it is a letter, or may be in a name, and is
changed once. -/
theorem letterCase : ∀ c : Byte,
    (isAlpha (toUpper c) = isAlpha c ∧ isAlpha (toLower c) = isAlpha c) ∧
      (toUpper (toUpper c) = toUpper c ∧ toLower (toLower c) = toLower c) ∧
        (isNameChar c = true → isNameChar (toUpper c) = true ∧ isNameChar (toLower c) = true) := by
  decide +kernel

theorem isAlpha_toUpper {c : Byte} : isAlpha (toUpper c) = isAlpha c := (letterCase c).1.1

theorem isAlpha_toLower {c : Byte} : isAlpha (toLower c) = isAlpha c := (letterCase c).1.2

theorem toUpper_toUpper {c : Byte} : toUpper (toUpper c) = toUpper c := (letterCase c).2.1.1

theorem toLower_toLower {c : Byte} : toLower (toLower c) = toLower c := (letterCase c).2.1.2

theorem prettyKeyTail_idempotent (uctitle xhyphen wasalpha : Bool) (key : Bytes) :
    prettyKeyTail uctitle xhyphen wasalpha (prettyKeyTail uctitle xhyphen wasalpha key) =
      prettyKeyTail uctitle xhyphen wasalpha key := by
  induction key generalizing wasalpha with
  | nil => rfl
  | cons c key ih =>
    by_cases hc : isAlpha c = true
    · cases hw : !wasalpha && uctitle <;>
        simp [prettyKeyTail, hc, hw, isAlpha_toUpper, isAlpha_toLower, toUpper_toUpper,
          toLower_toLower, ih]
    · by_cases hx : xhyphen = true ∧ c = underscore
      · obtain ⟨rfl, rfl⟩ := hx
        simpa [prettyKeyTail, underscore, hyphen, isAlpha, isUpper, isLower] using ih false
      · simp [prettyKeyTail, hc, hx, ih]

theorem prettyKey_idempotent (uctitle xhyphen : Bool) (key : Bytes) :
    prettyKey uctitle xhyphen (prettyKey uctitle xhyphen key) = prettyKey uctitle xhyphen key := by
  cases key with
  | nil => rfl
  | cons c key =>
    by_cases hc : isAlpha c = true
    · cases uctitle <;>
        simp [prettyKey, hc, isAlpha_toUpper, isAlpha_toLower, toUpper_toUpper, toLower_toLower,
          prettyKeyTail_idempotent]
    · simp [prettyKey, hc, prettyKeyTail_idempotent]

theorem isNameChar_toUpper {c : Byte} (h : isNameChar c = true) : isNameChar (toUpper c) = true :=
  ((letterCase c).2.2 h).1

theorem isNameChar_toLower {c : Byte} (h : isNameChar c = true) : isNameChar (toLower c) = true :=
  ((letterCase c).2.2 h).2

theorem prettyKeyTail_nameChars (uctitle xhyphen wasalpha : Bool) {key : Bytes}
    (h : ∀ c ∈ key, isNameChar c = true) :
    ∀ c ∈ prettyKeyTail uctitle xhyphen wasalpha key, isNameChar c = true := by
  induction key generalizing wasalpha with
  | nil => simp [prettyKeyTail]
  | cons c key ih =>
    have hc := h c (by simp)
    have hkey := fun w => ih w fun x hx => h x (by simp [hx])
    have hhyphen : isNameChar hyphen = true := by decide
    rw [prettyKeyTail]
    split
    · refine List.forall_mem_cons.mpr ⟨?_, hkey _⟩
      split_ifs
      · exact isNameChar_toUpper hc
      · exact isNameChar_toLower hc
    · refine List.forall_mem_cons.mpr ⟨?_, hkey _⟩
      split_ifs
      · exact hhyphen
      · exact hc

/-- The characters of a name stay name characters. -/
theorem prettyKey_nameChars (uctitle xhyphen : Bool) {key : Bytes}
    (h : ∀ c ∈ key, isNameChar c = true) :
    ∀ c ∈ prettyKey uctitle xhyphen key, isNameChar c = true := by
  cases key with
  | nil => simp [prettyKey]
  | cons c key =>
    have hc := h c (by simp)
    have htail : ∀ w, ∀ x ∈ prettyKeyTail uctitle xhyphen w key, isNameChar x = true := fun w =>
      prettyKeyTail_nameChars uctitle xhyphen w fun x hx => h x (by simp [hx])
    rw [prettyKey]
    split
    · refine List.forall_mem_cons.mpr ⟨?_, htail _⟩
      split_ifs
      · exact isNameChar_toUpper hc
      · exact isNameChar_toLower hc
    · exact List.forall_mem_cons.mpr ⟨hc, htail _⟩

/-! ### Names in any case -/

/-- The case of a letter, and nothing else, is lost in lower case. -/
theorem lowerCase :
    ∀ c : Byte, toUpper (toLower c) = toUpper c ∧ (isAlpha c = false → toLower c = c) := by
  decide +kernel

theorem toUpper_toLower {c : Byte} : toUpper (toLower c) = toUpper c := (lowerCase c).1

theorem toLower_of_not_isAlpha {c : Byte} (h : isAlpha c = false) : toLower c = c :=
  (lowerCase c).2 h

theorem prettyKeyTail_length (uctitle xhyphen wasalpha : Bool) (key : Bytes) :
    (prettyKeyTail uctitle xhyphen wasalpha key).length = key.length := by
  induction key generalizing wasalpha with
  | nil => rfl
  | cons c key ih =>
    rw [prettyKeyTail]
    split
    · rw [List.length_cons, ih, List.length_cons]
    · rw [List.length_cons, ih, List.length_cons]

theorem prettyKey_length (uctitle xhyphen : Bool) (key : Bytes) :
    (prettyKey uctitle xhyphen key).length = key.length := by
  cases key with
  | nil => rfl
  | cons c key =>
    rw [prettyKey]
    split
    · rw [List.length_cons, prettyKeyTail_length, List.length_cons]
    · rw [List.length_cons, prettyKeyTail_length, List.length_cons]

/-- The flag of the loop sees the letters, and not their case. -/
theorem prettyKeyTail_lower (uctitle xhyphen wasalpha : Bool) (key : Bytes) :
    prettyKeyTail uctitle xhyphen wasalpha (key.map toLower) =
      prettyKeyTail uctitle xhyphen wasalpha key := by
  induction key generalizing wasalpha with
  | nil => rfl
  | cons c key ih =>
    rw [List.map_cons, prettyKeyTail, prettyKeyTail, isAlpha_toLower]
    by_cases hc : isAlpha c = true
    · rw [if_pos hc, if_pos hc, toUpper_toLower, toLower_toLower, ih]
    · rw [if_neg hc, if_neg hc, toLower_of_not_isAlpha (Bool.eq_false_of_not_eq_true hc), ih]

theorem prettyKey_lower (uctitle xhyphen : Bool) (key : Bytes) :
    prettyKey uctitle xhyphen (key.map toLower) = prettyKey uctitle xhyphen key := by
  cases key with
  | nil => rfl
  | cons c key =>
    rw [List.map_cons, prettyKey, prettyKey, isAlpha_toLower, prettyKeyTail_lower,
      prettyKeyTail_lower]
    by_cases hc : isAlpha c = true
    · rw [if_pos hc, if_pos hc, toUpper_toLower, toLower_toLower]
    · rw [if_neg hc, if_neg hc, toLower_of_not_isAlpha (Bool.eq_false_of_not_eq_true hc)]

end ExtHttp
