import ExtHttp.Message
import ExtHttp.HeaderText

/-!
# Matching words

What `php_http_match` finds with `PHP_HTTP_MATCH_WORD`. It looks at one occurrence of the needle
only, the first one, so that a longer word hides the words behind it.
-/
namespace ExtHttp

/-- The needle stands at this place of the haystack, in any case. -/
def OccursAt (needle haystack : Bytes) (i : ℕ) : Prop :=
  needle.map toLower <+: (haystack.drop i).map toLower

instance (needle haystack : Bytes) (i : ℕ) : Decidable (OccursAt needle haystack i) :=
  inferInstanceAs (Decidable (needle.map toLower <+: (haystack.drop i).map toLower))

/-- It stands there and nowhere before. -/
structure FirstAt (needle haystack : Bytes) (i : ℕ) : Prop where
  occurs : OccursAt needle haystack i
  least : ∀ k < i, ¬ OccursAt needle haystack k

/-- It stands there as a word: the bytes before and behind it are absent or not alphanumeric. -/
structure WordAt (needle haystack : Bytes) (i : ℕ) : Prop where
  occurs : OccursAt needle haystack i
  before : i = 0 ∨ ∀ c ∈ haystack[i - 1]?, isAlnum c = false
  behind : ∀ c ∈ haystack[i + needle.length]?, isAlnum c = false

instance (needle haystack : Bytes) (i : ℕ) : Decidable (WordAt needle haystack i) :=
  decidable_of_iff (OccursAt needle haystack i ∧
      (i = 0 ∨ ∀ c ∈ haystack[i - 1]?, isAlnum c = false) ∧
      ∀ c ∈ haystack[i + needle.length]?, isAlnum c = false)
    ⟨fun h => ⟨h.1, h.2.1, h.2.2⟩, fun h => ⟨h.occurs, h.before, h.behind⟩⟩

theorem FirstAt.unique {needle haystack : Bytes} {i j : ℕ} (hi : FirstAt needle haystack i)
    (hj : FirstAt needle haystack j) : i = j := by
  rcases Nat.lt_trichotomy i j with hlt | heq | hgt
  · exact absurd hi.occurs (hj.least i hlt)
  · exact heq
  · exact absurd hj.occurs (hi.least j hgt)

theorem OccursAt.first {needle haystack : Bytes} {j : ℕ} (h : OccursAt needle haystack j) :
    ∃ i ≤ j, FirstAt needle haystack i := by
  classical
  have hex : ∃ i, OccursAt needle haystack i := ⟨j, h⟩
  exact ⟨Nat.find hex, Nat.find_min' hex h, Nat.find_spec hex, fun k hk => Nat.find_min hex hk⟩

theorem isAlnum_toLower {c : Byte} : isAlnum (toLower c) = isAlnum c := by
  revert c; decide +kernel

theorem locateStr_least {needle hay : Bytes} {i : ℕ} (h : locateStr needle hay = some i) :
    ∀ k < i, ¬ needle <+: hay.drop k := by
  induction hay generalizing i with
  | nil =>
    simp only [locateStr, Option.ite_none_right_eq_some, Option.some.injEq] at h
    omega
  | cons c hay ih =>
    rw [locateStr] at h
    split_ifs at h with hpre
    · cases h
      omega
    · obtain ⟨j, hj, rfl⟩ := Option.map_eq_some_iff.mp h
      intro k hk
      cases k with
      | zero => exact hpre
      | succ k => exact ih hj k (by omega)

/-- The search in the lowered strings finds the first occurrence. -/
theorem locateStr_lower_iff {needle haystack : Bytes} {i : ℕ} :
    locateStr (needle.map toLower) (haystack.map toLower) = some i ↔ FirstAt needle haystack i := by
  have hfirst : ∀ j, locateStr (needle.map toLower) (haystack.map toLower) = some j →
      FirstAt needle haystack j := by
    intro j hj
    refine ⟨?_, fun k hk => ?_⟩
    · have hspec := locateStr_spec hj
      rwa [← List.map_drop] at hspec
    · have hleast := locateStr_least hj k hk
      rwa [← List.map_drop] at hleast
  refine ⟨hfirst i, fun h => ?_⟩
  cases hfound : locateStr (needle.map toLower) (haystack.map toLower) with
  | none =>
    have hoccurs := h.occurs
    rw [OccursAt, List.map_drop] at hoccurs
    exact absurd (hoccurs.isInfix.trans (List.drop_suffix i _).isInfix)
      (locateStr_eq_none.mp hfound)
  | some j => rw [(hfirst j hfound).unique h]

theorem isAlnum_byteAt_lower (haystack : Bytes) (i : ℕ) :
    isAlnum (byteAt (haystack.map toLower) i) = false ↔ ∀ c ∈ haystack[i]?, isAlnum c = false := by
  rw [byteAt, List.getD_eq_getElem?_getD, List.getElem?_map]
  cases haystack[i]? with
  | none => simp [show isAlnum nul = false by decide]
  | some c => simp [isAlnum_toLower]

/-- What the two tests around an occurrence say. -/
theorem wordAt_iff {needle haystack : Bytes} {i : ℕ} (h : OccursAt needle haystack i) :
    WordAt needle haystack i ↔
      (i = 0 ∨ isAlnum (byteAt (haystack.map toLower) (i - 1)) = false) ∧
        isAlnum (byteAt (haystack.map toLower) (i + needle.length)) = false := by
  rw [isAlnum_byteAt_lower, isAlnum_byteAt_lower]
  exact ⟨fun hw => ⟨hw.before, hw.behind⟩, fun hw => ⟨h, hw.1, hw.2⟩⟩

theorem matchWord_iff_cString (haystack needle : Bytes) :
    matchWord haystack needle = true ↔
      ∃ i, FirstAt needle (cString haystack) i ∧ WordAt needle (cString haystack) i := by
  rw [matchWord, show haystack.takeWhile (· ≠ nul) = cString haystack from rfl]
  cases hfound : locateStr (needle.map toLower) ((cString haystack).map toLower) with
  | none =>
    simp only [Bool.false_eq_true, false_iff]
    rintro ⟨i, hfirst, -⟩
    rw [locateStr_lower_iff.mpr hfirst] at hfound
    cases hfound
  | some found =>
    have hfirst := locateStr_lower_iff.mp hfound
    have hword := wordAt_iff hfirst.occurs
    simp only [Bool.and_eq_true, Bool.or_eq_true, decide_eq_true_eq, Bool.not_eq_true']
    rw [← hword]
    refine ⟨fun h => ⟨found, hfirst, h⟩, ?_⟩
    rintro ⟨i, hi, h⟩
    rwa [hi.unique hfirst] at h

/-- It is the first occurrence that decides. -/
theorem matchWord_iff {haystack : Bytes} (hnul : nul ∉ haystack) (needle : Bytes) :
    matchWord haystack needle = true ↔ ∃ i, FirstAt needle haystack i ∧
      WordAt needle haystack i := by
  rw [matchWord_iff_cString, cString_of_noNul hnul]

/-- A word is found unless an occurrence of the needle inside a longer word comes first. -/
theorem matchWord_complete_iff (haystack needle : CString) :
    (matchWord haystack.bytes needle.bytes = true ↔ ∃ i, WordAt needle.bytes haystack.bytes i) ↔
      ¬ ∃ i j, i < j ∧ FirstAt needle.bytes haystack.bytes i ∧
        ¬ WordAt needle.bytes haystack.bytes i ∧
        WordAt needle.bytes haystack.bytes j := by
  rw [matchWord_iff haystack.noNul]
  constructor
  · rintro hiff ⟨i, j, -, hfirst, hinside, hword⟩
    obtain ⟨k, hk, hkword⟩ := hiff.mpr ⟨j, hword⟩
    rw [hk.unique hfirst] at hkword
    exact hinside hkword
  · intro hhidden
    refine ⟨fun hfound => hfound.imp fun _ h => h.2, ?_⟩
    rintro ⟨j, hword⟩
    obtain ⟨i, hij, hfirst⟩ := hword.occurs.first
    refine ⟨i, hfirst, ?_⟩
    by_contra hinside
    have hne : i ≠ j := fun he => hinside (he ▸ hword)
    exact hhidden ⟨i, j, by omega, hfirst, hinside, hword⟩

/-- The second `gzip` is a word. -/
theorem matchWord_hidden :
    ¬ (matchWord (ascii "xgzip, gzip") (ascii "gzip") = true ↔
      ∃ i, WordAt (ascii "gzip") (ascii "xgzip, gzip") i) := by
  intro hiff
  have hfound : matchWord (ascii "xgzip, gzip") (ascii "gzip") = true :=
    hiff.mpr ⟨7, by decide +kernel⟩
  exact absurd hfound (by decide)

end ExtHttp
