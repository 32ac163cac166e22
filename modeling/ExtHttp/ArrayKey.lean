import ExtHttp.Strtoul

/-! The keys of PHP's hash tables. -/
namespace ExtHttp

/-- The decimal numeral of a long. -/
def formatLong (n : ℤ) : Bytes := ascii (toString n)

theorem formatLong_nat (n : ℕ) :
    formatLong n = (Nat.toDigits 10 n).map fun c => c.toNat.toUInt8 := by
  rw [formatLong, ascii, show toString (n : ℤ) = toString n from rfl,
    Nat.toString_eq_ofList_toDigits, String.toList_ofList]

theorem isDigit_char {c : Char} (h : c.isDigit = true) :
    isDigit c.toNat.toUInt8 = true ∧ c.toNat.toUInt8.toNat = c.toNat := by
  have hrange : 48 ≤ c.toNat ∧ c.toNat ≤ 57 := by
    simpa [Char.isDigit, UInt32.le_iff_toNat_le] using h
  have hbyte : c.toNat.toUInt8.toNat = c.toNat := by
    rw [Nat.toUInt8_eq, UInt8.toNat_ofNat']
    exact Nat.mod_eq_of_lt (by omega)
  refine ⟨?_, hbyte⟩
  simp only [isDigit, Bool.and_eq_true, decide_eq_true_eq, UInt8.le_iff_toNat_le, hbyte]
  exact hrange

theorem formatLong_isDigit (n : ℕ) : ∀ c ∈ formatLong n, isDigit c = true := by
  intro c hc
  rw [formatLong_nat] at hc
  obtain ⟨d, hd, rfl⟩ := List.mem_map.mp hc
  exact (isDigit_char (Nat.isDigit_of_mem_toDigits (by norm_num) (by norm_num) hd)).1

theorem formatLong_ne_nil (n : ℕ) : formatLong n ≠ [] := by
  rw [formatLong_nat]
  simp

/-- Reading a numeral digit by digit, with what a register of a given size keeps of it. -/
theorem foldl_formatLong (M n : ℕ) :
    (formatLong n).foldl (fun m c => (m * 10 + (c.toNat - 48)) % M) 0 = n % M := by
  have hfold : ∀ (l : List Char) (m : ℕ), (∀ c ∈ l, c.isDigit = true) →
      (l.map fun c => c.toNat.toUInt8).foldl (fun m c => (m * 10 + (c.toNat - 48)) % M) (m % M) =
        Nat.ofDigitChars 10 l m % M := by
    intro l
    induction l with
    | nil => simp
    | cons c l ih =>
      intro m hl
      rw [List.map_cons, List.foldl_cons, Nat.ofDigitChars_cons,
        ← ih _ fun d hd => hl d (by simp [hd]), (isDigit_char (hl c List.mem_cons_self)).2]
      congr 1
      rw [Nat.add_mod, Nat.mod_mul_mod, ← Nat.add_mod, Nat.mul_comm]
      rfl
  have h := hfold (Nat.toDigits 10 n) 0 fun c hc =>
    Nat.isDigit_of_mem_toDigits (by norm_num) (by norm_num) hc
  rwa [Nat.zero_mod, Nat.ofDigitChars_ten_toDigits, ← formatLong_nat] at h

inductive ArrayKey
  | long (n : ℤ)
  | str (s : Bytes)
  deriving DecidableEq, Repr

/-- `ZEND_HANDLE_NUMERIC_STR`: the numeral of a long, as it would be printed. -/
def numericKey (s : Bytes) : Option ℤ :=
  let n : ℤ := if s.head? = some 45 then -numeral 10 s.tail else numeral 10 s
  if formatLong n = s ∧ -2 ^ 63 ≤ n ∧ n < 2 ^ 63 then some n else none

example : numericKey (ascii "-17") = some (-17) := by decide
example : numericKey (ascii "007") = none := by decide
example : numericKey (ascii "9223372036854775808") = none := by decide

/-- The key that `zend_symtable_str_update` and its like store a string under. -/
def symKey (s : Bytes) : ArrayKey := (numericKey s).elim (.str s) .long

/-- `php_http_arrkey_stringify` -/
def ArrayKey.stringify : ArrayKey → Bytes
  | .long n => formatLong n
  | .str s => s

theorem symKey_eq_str {s : Bytes} : symKey s = .str s ↔ numericKey s = none := by
  cases h : numericKey s <;> simp [symKey, h]

@[simp] theorem stringify_symKey (s : Bytes) : (symKey s).stringify = s := by
  unfold symKey
  cases h : numericKey s with
  | none => rfl
  | some n =>
    simp only [numericKey, Option.ite_none_right_eq_some, Option.some.injEq] at h
    obtain ⟨⟨hs, -⟩, rfl⟩ := h
    exact hs

theorem symKey_injective : Function.Injective symKey :=
  Function.LeftInverse.injective (g := ArrayKey.stringify) stringify_symKey

end ExtHttp
