import Mathlib

/-!
# Bytes, character classes and line ends

The C strings and buffers of the extension are lists of bytes here. The character classes are those
of the C locale, which `PHP_HTTP_IS_CTYPE` asks for.
-/
namespace ExtHttp

abbrev Byte := UInt8
abbrev Bytes := List Byte

/-- The bytes of an ASCII literal of the source. -/
def ascii (s : String) : Bytes := s.toList.map fun c => c.toNat.toUInt8

def nul : Byte := 0
def lf : Byte := 10
def cr : Byte := 13
def space : Byte := 32
def colon : Byte := 58
def hyphen : Byte := 45
def semicolon : Byte := 59
def equalSign : Byte := 61
def slash : Byte := 47
def question : Byte := 63
def hash : Byte := 35
def atSign : Byte := 64
def percent : Byte := 37
def dot : Byte := 46
def comma : Byte := 44
def asterisk : Byte := 42

/-- `PHP_HTTP_CRLF` -/
def crlf : Bytes := [cr, lf]

def isSpace (c : Byte) : Bool := c = space || (9 ≤ c && c ≤ 13)
def isUpper (c : Byte) : Bool := 65 ≤ c && c ≤ 90
def isLower (c : Byte) : Bool := 97 ≤ c && c ≤ 122
def isAlpha (c : Byte) : Bool := isUpper c || isLower c
def isDigit (c : Byte) : Bool := 48 ≤ c && c ≤ 57
def isAlnum (c : Byte) : Bool := isAlpha c || isDigit c
def toUpper (c : Byte) : Byte := if isLower c then c - 32 else c
def toLower (c : Byte) : Byte := if isUpper c then c + 32 else c

/-- The characters of `PHP_HTTP_HEADER_NAME_CHARS`, which are those of a token. -/
def isNameChar (c : Byte) : Bool :=
  isAlnum c || [33, 35, 36, 37, 38, 39, 42, 43, 45, 46, 94, 95, 96, 124, 126].contains c

example : (ascii "!#$%&'*+-.^_`|~").all isNameChar = true := by decide

/-- The two bytes every end of line consists of. -/
def isEol (c : Byte) : Bool := c = cr || c = lf

/-- A blank that does not end the line. -/
def isBlank (c : Byte) : Bool := isSpace c && !isEol c

/-- What a pointer at offset `i` reads. -/
def byteAt (mem : Bytes) (i : ℕ) : Byte := mem.getD i nul

theorem byteAt_eq_headD (mem : Bytes) (n : ℕ) : byteAt mem n = (mem.drop n).headD nul := by
  rw [byteAt, List.getD_eq_getElem?_getD, ← List.head?_drop, List.headD_eq_head?_getD]

/-- A C string: what `%s` prints of it. -/
def cString (s : Bytes) : Bytes := s.takeWhile (· ≠ nul)

theorem cString_of_noNul {s : Bytes} (h : nul ∉ s) : cString s = s :=
  List.takeWhile_eq_self_iff.mpr fun c hc => by
    have hne : c ≠ nul := fun he => h (he ▸ hc)
    simpa using hne

/-- A `char *` that ends with its NUL. -/
structure CString where
  bytes : Bytes
  noNul : nul ∉ bytes
  deriving DecidableEq, Repr

/-- The difference of two `size_t`. -/
def sizeSub (a b : ℕ) : ℕ := (a + 2 ^ 64 - b % 2 ^ 64) % 2 ^ 64

theorem sizeSub_of_le {a b : ℕ} (h : b ≤ a) (ha : a < 2 ^ 64) : sizeSub a b = a - b := by
  unfold sizeSub
  omega

/-- The value of a `char` as the arithmetic of the source sees it: signed. -/
def charVal (c : Byte) : ℤ := if c.toNat < 128 then c.toNat else (c.toNat : ℤ) - 256

theorem isEol_isSpace : ∀ {c : Byte}, isEol c = true → isSpace c = true := by
  intro c h
  simp only [isEol, Bool.or_eq_true, decide_eq_true_eq] at h
  rcases h with rfl | rfl <;> decide

@[simp] theorem isEol_cr : isEol cr = true := by decide
@[simp] theorem isEol_lf : isEol lf = true := by decide
@[simp] theorem isEol_colon : isEol colon = false := by decide
@[simp] theorem isEol_space : isEol space = false := by decide
@[simp] theorem isSpace_space : isSpace space = true := by decide
@[simp] theorem isSpace_colon : isSpace colon = false := by decide
@[simp] theorem isSpace_nul : isSpace nul = false := by decide

theorem isEol_iff {c : Byte} : isEol c = true ↔ c = cr ∨ c = lf := by simp [isEol]

/-- No byte of the list belongs to an end of line. -/
def NoEol (b : Bytes) : Prop := ∀ c ∈ b, isEol c = false

instance (b : Bytes) : Decidable (NoEol b) := inferInstanceAs (Decidable (∀ c ∈ b, _))

@[simp] theorem noEol_nil : NoEol [] := by simp [NoEol]

@[simp] theorem noEol_cons {c : Byte} {b : Bytes} :
    NoEol (c :: b) ↔ isEol c = false ∧ NoEol b := by simp [NoEol]

@[simp] theorem noEol_append {a b : Bytes} : NoEol (a ++ b) ↔ NoEol a ∧ NoEol b := by
  simp [NoEol, or_imp, forall_and]

/-! ### `php_http_locate_bin_eol` -/

/-- Offset and length of the first end of line. A CR is joined with the LF that follows it. The byte
behind the buffer, where the source looks when a CR comes last, never makes a difference: it is the
NUL of `php_http_buffer_fix`, or the length is clamped by `php_http_buffer_cut`. -/
def locateBinEol : Bytes → Option (ℕ × ℕ)
  | [] => none
  | c :: b =>
      if isEol c then some (0, if c = cr ∧ b.head? = some lf then 2 else 1)
      else (locateBinEol b).map fun e => (e.1 + 1, e.2)

@[simp] theorem locateBinEol_nil : locateBinEol [] = none := rfl

theorem locateBinEol_eq_none {b : Bytes} : locateBinEol b = none ↔ NoEol b := by
  induction b with
  | nil => simp
  | cons c b ih =>
    simp only [locateBinEol, noEol_cons, ← ih]
    split_ifs with h <;> simp [h]

/-- What the returned offset and length say about the buffer. -/
theorem locateBinEol_spec {b : Bytes} {i l : ℕ} (h : locateBinEol b = some (i, l)) :
    ∃ line eol rest, b = line ++ eol ++ rest ∧ line.length = i ∧ eol.length = l ∧ NoEol line ∧
      (eol = crlf ∨ (eol = [lf]) ∨ (eol = [cr] ∧ rest.head? ≠ some lf)) := by
  induction b generalizing i with
  | nil => simp at h
  | cons c b ih =>
    simp only [locateBinEol] at h
    split_ifs at h with hc hj
    · obtain ⟨rfl, hl⟩ := hj
      obtain ⟨rest, rfl⟩ : ∃ rest, b = lf :: rest := by
        cases b with
        | nil => simp at hl
        | cons x xs => exact ⟨xs, by simpa using hl⟩
      simp only [Option.some.injEq, Prod.mk.injEq] at h
      exact ⟨[], crlf, rest, by simp [crlf], by simpa using h.1, by simpa [crlf] using h.2, by simp,
        Or.inl rfl⟩
    · simp only [Option.some.injEq, Prod.mk.injEq] at h
      refine ⟨[], [c], b, by simp, by simpa using h.1, by simpa using h.2, by simp, ?_⟩
      rcases isEol_iff.mp hc with rfl | rfl
      · exact Or.inr (Or.inr ⟨rfl, fun hb => hj ⟨rfl, hb⟩⟩)
      · exact Or.inr (Or.inl rfl)
    · obtain ⟨⟨j, m⟩, he, heq⟩ := Option.map_eq_some_iff.mp h
      simp only [Prod.mk.injEq] at heq
      obtain ⟨rfl, rfl⟩ := heq
      obtain ⟨line, eol, rest, rfl, hi, hl, hn, hk⟩ := ih he
      exact ⟨c :: line, eol, rest, by simp, by simp [hi], hl, by simp [hc, hn], hk⟩

theorem locateBinEol_bounds {b : Bytes} {i l : ℕ} (h : locateBinEol b = some (i, l)) :
    0 < l ∧ l ≤ 2 ∧ i + l ≤ b.length ∧ NoEol (b.take i) := by
  obtain ⟨line, eol, rest, rfl, rfl, rfl, hn, hk⟩ := locateBinEol_spec h
  refine ⟨?_, ?_, by simp, by simpa [List.append_assoc] using hn⟩ <;>
    rcases hk with rfl | rfl | ⟨rfl, -⟩ <;> simp [crlf]

/-- A line, its CRLF and whatever follows. -/
theorem locateBinEol_crlf {line : Bytes} (h : NoEol line) (rest : Bytes) :
    locateBinEol (line ++ crlf ++ rest) = some (line.length, 2) := by
  induction line with
  | nil => simp [locateBinEol, crlf]
  | cons c line ih =>
    rw [noEol_cons] at h
    simp only [List.cons_append, locateBinEol, h.1, Bool.false_eq_true, if_false, ih h.2]
    simp

theorem locateBinEol_append_noEol {a : Bytes} (h : NoEol a) (b : Bytes) :
    locateBinEol (a ++ b) = (locateBinEol b).map fun e => (a.length + e.1, e.2) := by
  induction a with
  | nil => cases he : locateBinEol b <;> simp [he]
  | cons c a ih =>
    rw [noEol_cons] at h
    simp only [List.cons_append, locateBinEol, h.1, Bool.false_eq_true, if_false, ih h.2,
      Option.map_map]
    congr 1
    funext e
    simp only [Function.comp_apply, List.length_cons, Prod.mk.injEq, and_true]
    omega

/-- More bytes behind the buffer leave a located end of line where it is. Only its length can
change, when a CR was the last byte and an LF follows. -/
theorem locateBinEol_append {b : Bytes} {i l : ℕ} (h : locateBinEol b = some (i, l)) (u : Bytes) :
    locateBinEol (b ++ u) = some (i, l) ∨
      (locateBinEol (b ++ u) = some (i, 2) ∧ l = 1 ∧ i + 1 = b.length ∧ b[i]? = some cr ∧
        u.head? = some lf) := by
  induction b generalizing i with
  | nil => simp at h
  | cons c b ih =>
    simp only [locateBinEol] at h
    simp only [List.cons_append, locateBinEol]
    by_cases hc : isEol c = true
    · simp only [hc, if_true, Option.some.injEq, Prod.mk.injEq] at h ⊢
      obtain ⟨rfl, rfl⟩ := h
      cases b with
      | nil =>
        by_cases hu : c = cr ∧ u.head? = some lf
        · exact Or.inr (by simp [hu.1, hu.2])
        · exact Or.inl (by simp [hu])
      | cons x xs => exact Or.inl (by simp)
    · simp only [hc, if_false, Bool.false_eq_true] at h ⊢
      obtain ⟨⟨j, m⟩, he, heq⟩ := Option.map_eq_some_iff.mp h
      simp only [Prod.mk.injEq] at heq
      obtain ⟨rfl, rfl⟩ := heq
      rcases ih he with h1 | ⟨h1, h2, h3, h4, h5⟩
      · exact Or.inl (by simp [h1])
      · exact Or.inr ⟨by simp [h1], h2, by simp [h3], by simpa using h4, h5⟩

/-- `php_http_locate_eol`, which looks no further than the end of the C string. -/
def locateEol (line : Bytes) : Option (ℕ × ℕ) := locateBinEol (line.takeWhile (· ≠ nul))

/-- Seen from the longer buffer: its end of line begins where the shorter one's does, or behind
it. -/
theorem locateBinEol_of_append {b u : Bytes} {i l : ℕ} (h : locateBinEol (b ++ u) = some (i, l)) :
    (∃ l', locateBinEol b = some (i, l')) ∨ (locateBinEol b = none ∧ b.length ≤ i) := by
  cases he : locateBinEol b with
  | none =>
    rw [locateBinEol_append_noEol (locateBinEol_eq_none.mp he)] at h
    obtain ⟨e, -, heq⟩ := Option.map_eq_some_iff.mp h
    simp only [Prod.mk.injEq] at heq
    exact Or.inr ⟨rfl, by omega⟩
  | some e =>
    rcases locateBinEol_append he u with h1 | ⟨h1, -⟩ <;> rw [h] at h1 <;>
      simp only [Option.some.injEq, Prod.mk.injEq] at h1
    · exact Or.inl ⟨e.2, by simp [h1]⟩
    · exact Or.inl ⟨e.2, by simp [h1]⟩

/-! ### Dropping a class of bytes from the front -/

theorem dropWhile_dropWhile_append (p : Byte → Bool) (b u : Bytes) :
    (b.dropWhile p ++ u).dropWhile p = (b ++ u).dropWhile p := by
  rw [List.dropWhile_append, List.dropWhile_append, List.dropWhile_idempotent]

theorem dropWhile_of_head {p : Byte → Bool} {b : Bytes} (h : ∀ c, b.head? = some c → p c = false) :
    b.dropWhile p = b := by
  cases b with
  | nil => rfl
  | cons c b => simp [h c rfl]

/-- The bytes in front of the first one outside the class do not matter for what follows it. -/
theorem dropWhile_append_of_ne_nil {p : Byte → Bool} {b : Bytes} (h : b.dropWhile p ≠ [])
    (u : Bytes) : (b ++ u).dropWhile p = b.dropWhile p ++ u := by
  simp [List.dropWhile_append, h]

end ExtHttp
