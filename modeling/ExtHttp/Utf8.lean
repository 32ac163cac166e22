import ExtHttp.Url

/-!
# Characters of several bytes

`utf8towc` with each of its reads, and what it takes for a character beyond what UTF-8 has: a
continuation byte alone, forms that are longer than they need to be, surrogates, and values above
U+10FFFF.
-/
namespace ExtHttp

/-- What `utf8towc` does with the bytes there are: it reads where there is none, returns 0, or
returns the length of a character. -/
inductive WideChar where
  | overread
  | refused
  | char (wc length : ℕ)
  deriving DecidableEq, Repr

/-- `utf8_mask` -/
def utf8Mask (ub : ℕ) : Byte :=
  match ub with
  | 1 => 0x7f
  | 2 => 0x1f
  | 3 => 0x0f
  | 4 => 0x07
  | 5 => 0x03
  | 6 => 0x01
  | _ => 0

/-- The cases of the `switch` one after the other; each looks at the byte behind the cursor. -/
def utf8Switch (ub : ℕ) : ℕ → ℕ → Bytes → WideChar
  | 0, wc, _ => .char wc ub
  | n + 1, wc, uc =>
      match uc[1]? with
      | none => .overread
      | some d => if d &&& 0xc0 ≠ 0x80 then .refused else utf8Switch ub n
        (wc * 64 + (d &&& 0x3f).toNat) uc.tail

/-- `utf8towc`, where the bytes are those within `len`. -/
def utf8Towc (uc : Bytes) : WideChar :=
  match uc[0]? with
  | none => .overread
  | some c =>
      let ub := utf8MbLen c
      if ub = 0 ∨ uc.length < ub ∨ 4 < ub then .refused
      else utf8Switch ub (ub - 1) (c &&& utf8Mask ub).toNat uc

/-- The first `k` bytes are the encoding of a character. -/
def Encodes (uc : Bytes) (wc k : ℕ) : Prop :=
  ∃ ch : Char, ch.toNat = wc ∧ String.utf8EncodeChar ch = uc.take k ∧
    (String.utf8EncodeChar ch).length = k

/-- A continuation byte -/
def Continues (d : Byte) : Prop := 128 ≤ d.toNat ∧ d.toNat < 192

instance : DecidablePred Continues :=
  fun d => inferInstanceAs (Decidable (128 ≤ d.toNat ∧ d.toNat < 192))

/-- A text that begins with what looks like a character, and is none. -/
inductive Lax : Bytes → Prop where
  | stray {c : Byte} (b : Bytes) : Continues c → Lax (c :: b)
  | overlongTwo {c d : Byte} (b : Bytes) : 0xc0 ≤ c.toNat → c.toNat ≤ 0xc1 → Continues d →
    Lax (c :: d :: b)
  | overlongThree {c d e : Byte} (b : Bytes) : c.toNat = 0xe0 → Continues d → d.toNat < 0xa0 →
    Continues e →
      Lax (c :: d :: e :: b)
  | surrogate {c d e : Byte} (b : Bytes) : c.toNat = 0xed → Continues d → 0xa0 ≤ d.toNat →
    Continues e →
      Lax (c :: d :: e :: b)
  | overlongFour {c d e f : Byte} (b : Bytes) : c.toNat = 0xf0 → Continues d → d.toNat < 0x90 →
    Continues e →
      Continues f → Lax (c :: d :: e :: f :: b)
  | beyond {c d e f : Byte} (b : Bytes) : c.toNat = 0xf4 → Continues d → 0x90 ≤ d.toNat →
    Continues e →
      Continues f → Lax (c :: d :: e :: f :: b)
  | farBeyond {c d e f : Byte} (b : Bytes) : 0xf5 ≤ c.toNat → c.toNat ≤ 0xf7 → Continues d →
    Continues e →
      Continues f → Lax (c :: d :: e :: f :: b)

/-- The masks as numbers. -/
theorem utf8_masks : ∀ c : Byte,
    ((c &&& utf8Mask 1).toNat = c.toNat % 128 ∧ (c &&& utf8Mask 2).toNat = c.toNat % 32 ∧
        (c &&& utf8Mask 3).toNat = c.toNat % 16 ∧ (c &&& utf8Mask 4).toNat = c.toNat % 8) ∧
      ((c &&& 0x3f).toNat = c.toNat % 64 ∧ (c &&& 0xc0 = 0x80 ↔ Continues c)) ∧
        utf8MbLen c = if c.toNat < 192 then 1 else if c.toNat < 224 then 2
          else if c.toNat < 240 then 3
          else if c.toNat < 248 then 4 else if c.toNat < 252 then 5 else 6 := by
  decide +kernel

theorem continues_iff (d : Byte) : d &&& 0xc0 = 0x80 ↔ Continues d := (utf8_masks d).2.1.2

theorem mask_one (c : Byte) : (c &&& utf8Mask 1).toNat = c.toNat % 128 := (utf8_masks c).1.1

theorem mask_two (c : Byte) : (c &&& utf8Mask 2).toNat = c.toNat % 32 := (utf8_masks c).1.2.1

theorem mask_three (c : Byte) : (c &&& utf8Mask 3).toNat = c.toNat % 16 := (utf8_masks c).1.2.2.1

theorem mask_four (c : Byte) : (c &&& utf8Mask 4).toNat = c.toNat % 8 := (utf8_masks c).1.2.2.2

theorem and_sixtythree (n : ℕ) : n &&& 63 = n % 64 := Nat.and_two_pow_sub_one_eq_mod n 6

theorem mask_tail (d : Byte) : (d &&& 0x3f).toNat = d.toNat % 64 := (utf8_masks d).2.1.1

theorem utf8MbLen_toNat (c : Byte) : utf8MbLen c =
    if c.toNat < 192 then 1 else if c.toNat < 224 then 2 else if c.toNat < 240 then 3
    else if c.toNat < 248 then 4 else if c.toNat < 252 then 5 else 6 := (utf8_masks c).2.2

/-- What `utf8towc` takes for a character: bytes that look like one, and their value. -/
inductive Shape : Bytes → ℕ → ℕ → Prop where
  | one {c : Byte} (b : Bytes) : c.toNat < 192 → Shape (c :: b) (c.toNat % 128) 1
  | two {c d : Byte} (b : Bytes) : 192 ≤ c.toNat → c.toNat < 224 → Continues d →
      Shape (c :: d :: b) (c.toNat % 32 * 64 + d.toNat % 64) 2
  | three {c d e : Byte} (b : Bytes) : 224 ≤ c.toNat → c.toNat < 240 → Continues d → Continues e →
      Shape (c :: d :: e :: b) ((c.toNat % 16 * 64 + d.toNat % 64) * 64 + e.toNat % 64) 3
  | four {c d e f : Byte} (b : Bytes) : 240 ≤ c.toNat → c.toNat < 248 → Continues d → Continues e →
      Continues f → Shape (c :: d :: e :: f :: b)
        (((c.toNat % 8 * 64 + d.toNat % 64) * 64 + e.toNat % 64) * 64 + f.toNat % 64) 4

theorem utf8Switch_succ (ub n wc : ℕ) (c d : Byte) (b : Bytes) :
    utf8Switch ub (n + 1) wc (c :: d :: b) =
    if Continues d then utf8Switch ub n (wc * 64 + d.toNat % 64) (d :: b) else .refused := by
  rw [utf8Switch, List.getElem?_cons_succ, List.getElem?_cons_zero, List.tail_cons]
  dsimp only
  rw [mask_tail, ite_not, if_congr (continues_iff d) rfl rfl]

/-- The number of bytes is known from the first one. -/
theorem utf8Towc_cons (c : Byte) (b : Bytes) : utf8Towc (c :: b) =
    if b.length + 1 < utf8MbLen c ∨ 4 < utf8MbLen c then .refused
    else utf8Switch (utf8MbLen c) (utf8MbLen c - 1) (c &&& utf8Mask (utf8MbLen c)).toNat
      (c :: b) := by
  have hpos : utf8MbLen c ≠ 0 := by
    rw [utf8MbLen_toNat]
    split_ifs <;> omega
  rw [utf8Towc, List.getElem?_cons_zero, List.length_cons]
  simp only [hpos, false_or]

theorem Shape.utf8Towc {uc : Bytes} {wc k : ℕ} (h : Shape uc wc k) : utf8Towc uc = .char wc k := by
  cases h with
  | one b hc =>
    rw [utf8Towc_cons, utf8MbLen_toNat, if_pos hc, if_neg (by omega), mask_one]
    rfl
  | @two c d b hlo hhi hd =>
    have hlen : utf8MbLen c = 2 := by rw [utf8MbLen_toNat, if_neg (by omega), if_pos hhi]
    rw [utf8Towc_cons, hlen, if_neg (by rw [List.length_cons]; omega), mask_two, utf8Switch_succ,
      if_pos hd]
    rfl
  | @three c d e b hlo hhi hd he =>
    have hlen : utf8MbLen c = 3 := by
      rw [utf8MbLen_toNat, if_neg (by omega), if_neg (by omega), if_pos hhi]
    rw [utf8Towc_cons, hlen, if_neg (by simp only [List.length_cons]; omega), mask_three,
      utf8Switch_succ, if_pos hd, utf8Switch_succ, if_pos he]
    rfl
  | @four c d e f b hlo hhi hd he hf =>
    have hlen : utf8MbLen c = 4 := by
      rw [utf8MbLen_toNat, if_neg (by omega), if_neg (by omega), if_neg (by omega), if_pos hhi]
    rw [utf8Towc_cons, hlen, if_neg (by simp only [List.length_cons]; omega), mask_four,
      utf8Switch_succ, if_pos hd, utf8Switch_succ, if_pos he, utf8Switch_succ, if_pos hf]
    rfl

/-- Where there are bytes, none is read behind them, and a character has one of the shapes. -/
theorem utf8Towc_shape (c : Byte) (b : Bytes) :
    utf8Towc (c :: b) = .refused ∨ ∃ wc k, utf8Towc (c :: b) = .char wc k ∧
      Shape (c :: b) wc k := by
  by_cases hbad : b.length + 1 < utf8MbLen c ∨ 4 < utf8MbLen c
  · rw [utf8Towc_cons, if_pos hbad]
    exact .inl rfl
  have hlen := utf8MbLen_toNat c
  split_ifs at hlen with h1 h2 h3 h4 h5
  · have hshape := Shape.one b h1
    exact .inr ⟨_, _, hshape.utf8Towc, hshape⟩
  · rw [hlen] at hbad
    match b, hbad with
    | [], hbad => exact absurd (.inl (by simp)) hbad
    | d :: b, hbad =>
      by_cases hd : Continues d
      · have hshape := Shape.two b (by omega) h2 hd
        exact .inr ⟨_, _, hshape.utf8Towc, hshape⟩
      · rw [utf8Towc_cons, hlen, if_neg hbad, utf8Switch_succ, if_neg hd]
        exact .inl rfl
  · rw [hlen] at hbad
    match b, hbad with
    | [], hbad => exact absurd (.inl (by simp)) hbad
    | [_], hbad => exact absurd (.inl (by simp)) hbad
    | d :: e :: b, hbad =>
      by_cases hd : Continues d
      · by_cases he : Continues e
        · have hshape := Shape.three b (by omega) h3 hd he
          exact .inr ⟨_, _, hshape.utf8Towc, hshape⟩
        · rw [utf8Towc_cons, hlen, if_neg hbad, utf8Switch_succ, if_pos hd, utf8Switch_succ,
            if_neg he]
          exact .inl rfl
      · rw [utf8Towc_cons, hlen, if_neg hbad, utf8Switch_succ, if_neg hd]
        exact .inl rfl
  · rw [hlen] at hbad
    match b, hbad with
    | [], hbad => exact absurd (.inl (by simp)) hbad
    | [_], hbad => exact absurd (.inl (by simp)) hbad
    | [_, _], hbad => exact absurd (.inl (by simp)) hbad
    | d :: e :: f :: b, hbad =>
      by_cases hd : Continues d
      · by_cases he : Continues e
        · by_cases hf : Continues f
          · have hshape := Shape.four b (by omega) h4 hd he hf
            exact .inr ⟨_, _, hshape.utf8Towc, hshape⟩
          · rw [utf8Towc_cons, hlen, if_neg hbad, utf8Switch_succ, if_pos hd, utf8Switch_succ,
              if_pos he, utf8Switch_succ, if_neg hf]
            exact .inl rfl
        · rw [utf8Towc_cons, hlen, if_neg hbad, utf8Switch_succ, if_pos hd, utf8Switch_succ,
            if_neg he]
          exact .inl rfl
      · rw [utf8Towc_cons, hlen, if_neg hbad, utf8Switch_succ, if_neg hd]
        exact .inl rfl
  · exact absurd (.inr (by omega)) hbad
  · exact absurd (.inr (by omega)) hbad

theorem utf8Towc_char {uc : Bytes} {wc k : ℕ} : utf8Towc uc = .char wc k ↔ Shape uc wc k := by
  refine ⟨fun h => ?_, Shape.utf8Towc⟩
  cases uc with
  | nil => cases h
  | cons c b =>
    rcases utf8Towc_shape c b with hrefused | ⟨wc', k', hchar, hshape⟩
    · rw [hrefused] at h
      cases h
    · rw [hchar] at h
      cases h
      exact hshape

theorem Shape.utf8ToWc {uc : Bytes} {wc k : ℕ} (h : Shape uc wc k) :
    utf8ToWc uc = some (wc, k) := by
  cases h with
  | @one c b hc =>
    have hlen : utf8MbLen c = 1 := by rw [utf8MbLen_toNat, if_pos hc]
    have hmask := mask_one c
    simp only [utf8Mask] at hmask
    simp [ExtHttp.utf8ToWc, hlen, hmask]
  | @two c d b hlo hhi hd =>
    have hlen : utf8MbLen c = 2 := by rw [utf8MbLen_toNat, if_neg (by omega), if_pos hhi]
    have hmask := mask_two c
    simp only [utf8Mask] at hmask
    simp [ExtHttp.utf8ToWc, hlen, hmask, and_sixtythree, (continues_iff d).mpr hd]
  | @three c d e b hlo hhi hd he =>
    have hlen : utf8MbLen c = 3 := by
      rw [utf8MbLen_toNat, if_neg (by omega), if_neg (by omega), if_pos hhi]
    have hmask := mask_three c
    simp only [utf8Mask] at hmask
    simp [ExtHttp.utf8ToWc, hlen, hmask, and_sixtythree, (continues_iff d).mpr hd,
      (continues_iff e).mpr he]
  | @four c d e f b hlo hhi hd he hf =>
    have hlen : utf8MbLen c = 4 := by
      rw [utf8MbLen_toNat, if_neg (by omega), if_neg (by omega), if_neg (by omega), if_pos hhi]
    have hmask := mask_four c
    simp only [utf8Mask] at hmask
    simp [ExtHttp.utf8ToWc, hlen, hmask, and_sixtythree, (continues_iff d).mpr hd,
      (continues_iff e).mpr he, (continues_iff f).mpr hf]

theorem utf8ToWc_shape {c : Byte} {b : Bytes} {o : ℕ × ℕ} (h : utf8ToWc (c :: b) = some o) :
    ∃ wc k, Shape (c :: b) wc k := by
  rw [utf8ToWc] at h
  dsimp only at h
  by_cases hbad : 4 < utf8MbLen c ∨ (b.take (utf8MbLen c - 1)).length < utf8MbLen c - 1 ∨
      ∃ d ∈ b.take (utf8MbLen c - 1), d &&& 192 ≠ 128
  · rw [if_pos hbad] at h
    cases h
  simp only [not_or, not_exists, not_and, not_not, not_lt, List.length_take] at hbad
  obtain ⟨hle, hlength, hcont⟩ := hbad
  have hlen := utf8MbLen_toNat c
  split_ifs at hlen with h1 h2 h3 h4 h5
  · exact ⟨_, _, .one b h1⟩
  · rw [hlen] at hlength hcont
    obtain ⟨d, b, rfl⟩ := List.exists_cons_of_length_pos (l := b) (by omega)
    exact ⟨_, _, .two b (by omega) h2 ((continues_iff d).mp (hcont d (by simp)))⟩
  · rw [hlen] at hlength hcont
    obtain ⟨d, b, rfl⟩ := List.exists_cons_of_length_pos (l := b) (by omega)
    rw [List.length_cons] at hlength
    obtain ⟨e, b, rfl⟩ := List.exists_cons_of_length_pos (l := b) (by omega)
    exact ⟨_, _, .three b (by omega) h3 ((continues_iff d).mp (hcont d (by simp)))
      ((continues_iff e).mp (hcont e (by simp)))⟩
  · rw [hlen] at hlength hcont
    obtain ⟨d, b, rfl⟩ := List.exists_cons_of_length_pos (l := b) (by omega)
    rw [List.length_cons] at hlength
    obtain ⟨e, b, rfl⟩ := List.exists_cons_of_length_pos (l := b) (by omega)
    rw [List.length_cons] at hlength
    obtain ⟨f, b, rfl⟩ := List.exists_cons_of_length_pos (l := b) (by omega)
    exact ⟨_, _, .four b (by omega) h4 ((continues_iff d).mp (hcont d (by simp)))
      ((continues_iff e).mp (hcont e (by simp))) ((continues_iff f).mp (hcont f (by simp)))⟩
  · omega
  · omega

/-- The scanners of URLs take the same bytes for a character. -/
theorem utf8ToWc_iff {uc : Bytes} {wc k : ℕ} : utf8ToWc uc = some (wc, k) ↔
    utf8Towc uc = .char wc k := by
  refine ⟨fun h => ?_, fun h => (utf8Towc_char.mp h).utf8ToWc⟩
  cases uc with
  | nil => cases h
  | cons c b =>
    obtain ⟨wc', k', hshape⟩ := utf8ToWc_shape h
    rw [hshape.utf8ToWc] at h
    cases h
    exact hshape.utf8Towc

/-! ### The encoding -/

theorem encodeChar_eq {ch : Char} {n : ℕ} (hn : ch.toNat = n) : String.utf8EncodeChar ch =
    if n ≤ 0x7f then [UInt8.ofNat n]
    else if n ≤ 0x7ff then [UInt8.ofNat (n / 64 % 0x20 + 0xc0), UInt8.ofNat (n % 0x40 + 0x80)]
    else if n ≤ 0xffff then
      [UInt8.ofNat (n / 4096 % 0x10 + 0xe0), UInt8.ofNat (n / 64 % 0x40 + 0x80),
        UInt8.ofNat (n % 0x40 + 0x80)]
    else
      [UInt8.ofNat (n / 262144 % 0x08 + 0xf0), UInt8.ofNat (n / 4096 % 0x40 + 0x80),
        UInt8.ofNat (n / 64 % 0x40 + 0x80), UInt8.ofNat (n % 0x40 + 0x80)] := by
  subst hn
  rfl

/-- The values of characters. -/
theorem char_range (ch : Char) : ch.toNat < 0xd800 ∨
    0xdfff < ch.toNat ∧ ch.toNat < 0x110000 := ch.valid

theorem exists_char {n : ℕ} (h : n < 0xd800 ∨ 0xdfff < n ∧ n < 0x110000) :
    ∃ ch : Char, ch.toNat = n := by
  refine ⟨Char.ofNat n, ?_⟩
  rw [Char.toNat_ofNat, if_pos h]

theorem ofNat_toNat {n : ℕ} (c : Byte) (h : n = c.toNat) : UInt8.ofNat n = c := by
  rw [h, UInt8.ofNat_toNat]

theorem toNat_ofNat {n : ℕ} (h : n < 256) : (UInt8.ofNat n).toNat = n := UInt8.toNat_ofNat_of_lt' h

/-- What is written for a character has the shape that is read. -/
theorem Encodes.shape {uc : Bytes} {wc k : ℕ} (h : Encodes uc wc k) : Shape uc wc k := by
  obtain ⟨ch, hwc, htake, hlength⟩ := h
  have huc : uc = String.utf8EncodeChar ch ++ uc.drop k := by rw [htake, List.take_append_drop]
  have hrange := char_range ch
  rw [hwc] at hrange
  rw [huc]
  generalize uc.drop k = b
  rw [encodeChar_eq hwc] at hlength ⊢
  clear huc htake
  split_ifs at hlength ⊢ with h1 h2 h3
  · have hc : (UInt8.ofNat wc).toNat = wc := toNat_ofNat (by omega)
    have hshape := Shape.one b (show (UInt8.ofNat wc).toNat < 192 by omega)
    rw [hc, Nat.mod_eq_of_lt (by omega)] at hshape
    exact hlength ▸ hshape
  · have hc : (UInt8.ofNat (wc / 64 % 32 + 192)).toNat = wc / 64 % 32 + 192 :=
      toNat_ofNat (by omega)
    have hd : (UInt8.ofNat (wc % 64 + 128)).toNat = wc % 64 + 128 := toNat_ofNat (by omega)
    have hshape := Shape.two (c := UInt8.ofNat (wc / 64 % 32 + 192))
      (d := UInt8.ofNat (wc % 64 + 128)) b
      (by omega) (by omega) (by unfold Continues; omega)
    have hvalue : (wc / 64 % 32 + 192) % 32 * 64 + (wc % 64 + 128) % 64 = wc := by omega
    rw [hc, hd, hvalue] at hshape
    exact hlength ▸ hshape
  · have hc : (UInt8.ofNat (wc / 4096 % 16 + 224)).toNat = wc / 4096 % 16 + 224 :=
      toNat_ofNat (by omega)
    have hd : (UInt8.ofNat (wc / 64 % 64 + 128)).toNat = wc / 64 % 64 + 128 :=
      toNat_ofNat (by omega)
    have he : (UInt8.ofNat (wc % 64 + 128)).toNat = wc % 64 + 128 := toNat_ofNat (by omega)
    have hshape := Shape.three (c := UInt8.ofNat (wc / 4096 % 16 + 224))
      (d := UInt8.ofNat (wc / 64 % 64 + 128))
      (e := UInt8.ofNat (wc % 64 + 128)) b (by omega) (by omega) (by unfold Continues; omega)
      (by unfold Continues; omega)
    have hvalue : ((wc / 4096 % 16 + 224) % 16 * 64 + (wc / 64 % 64 + 128) % 64) * 64 +
        (wc % 64 + 128) % 64 = wc := by omega
    rw [hc, hd, he, hvalue] at hshape
    exact hlength ▸ hshape
  · have hc : (UInt8.ofNat (wc / 262144 % 8 + 240)).toNat = wc / 262144 % 8 + 240 :=
      toNat_ofNat (by omega)
    have hd : (UInt8.ofNat (wc / 4096 % 64 + 128)).toNat = wc / 4096 % 64 + 128 :=
      toNat_ofNat (by omega)
    have he : (UInt8.ofNat (wc / 64 % 64 + 128)).toNat = wc / 64 % 64 + 128 :=
      toNat_ofNat (by omega)
    have hf : (UInt8.ofNat (wc % 64 + 128)).toNat = wc % 64 + 128 := toNat_ofNat (by omega)
    have hshape := Shape.four (c := UInt8.ofNat (wc / 262144 % 8 + 240))
      (d := UInt8.ofNat (wc / 4096 % 64 + 128))
      (e := UInt8.ofNat (wc / 64 % 64 + 128)) (f := UInt8.ofNat (wc % 64 + 128)) b (by omega)
        (by omega)
      (by unfold Continues; omega) (by unfold Continues; omega) (by unfold Continues; omega)
    have hvalue : (((wc / 262144 % 8 + 240) % 8 * 64 + (wc / 4096 % 64 + 128) % 64) * 64 +
        (wc / 64 % 64 + 128) % 64) * 64 + (wc % 64 + 128) % 64 = wc := by omega
    rw [hc, hd, he, hf, hvalue] at hshape
    exact hlength ▸ hshape

/-- What has the shape of a character is one unless it is lax. -/
theorem Shape.encodes_iff {uc : Bytes} {wc k : ℕ} (h : Shape uc wc k) :
    Encodes uc wc k ↔ ¬ Lax uc := by
  cases h with
  | @one c b hc =>
    by_cases hascii : c.toNat < 128
    · refine iff_of_true ?_ fun hlax => ?_
      · obtain ⟨ch, hch⟩ := exists_char (n := c.toNat % 128) (by omega)
        have hencode := encodeChar_eq hch
        rw [if_pos (by omega), ofNat_toNat c (by omega)] at hencode
        exact ⟨ch, hch, hencode, by rw [hencode]; rfl⟩
      · cases hlax <;> unfold Continues at * <;> omega
    · refine iff_of_false ?_ fun hlax => hlax (.stray b ⟨by omega, hc⟩)
      rintro ⟨ch, hch, htake, -⟩
      rw [encodeChar_eq hch, if_pos (by omega)] at htake
      have hbyte := congrArg UInt8.toNat (List.cons.inj htake).1
      rw [toNat_ofNat (by omega)] at hbyte
      omega
  | @two c d b hlo hhi hd =>
    by_cases hlong : c.toNat ≤ 0xc1
    · refine iff_of_false ?_ fun hlax => hlax (.overlongTwo b hlo hlong hd)
      rintro ⟨ch, hch, -, hlength⟩
      rw [encodeChar_eq hch, if_pos (by omega)] at hlength
      cases hlength
    · have hd' := hd
      unfold Continues at hd'
      refine iff_of_true ?_ fun hlax => ?_
      · obtain ⟨ch, hch⟩ := exists_char (n := c.toNat % 32 * 64 + d.toNat % 64) (by omega)
        have hencode := encodeChar_eq hch
        rw [if_neg (by omega), if_pos (by omega), ofNat_toNat c (by omega),
          ofNat_toNat d (by omega)] at hencode
        exact ⟨ch, hch, hencode, by rw [hencode]; rfl⟩
      · cases hlax <;> unfold Continues at * <;> omega
  | @three c d e b hlo hhi hd he =>
    have hd' := hd
    have he' := he
    unfold Continues at hd' he'
    by_cases hlong : c.toNat = 0xe0 ∧ d.toNat < 0xa0
    · refine iff_of_false ?_ fun hlax => hlax (.overlongThree b hlong.1 hd hlong.2 he)
      rintro ⟨ch, hch, -, hlength⟩
      rw [encodeChar_eq hch] at hlength
      split_ifs at hlength
      · cases hlength
      · cases hlength
      · omega
      · omega
    by_cases hsurrogate : c.toNat = 0xed ∧ 0xa0 ≤ d.toNat
    · refine iff_of_false ?_ fun hlax => hlax (.surrogate b hsurrogate.1 hd hsurrogate.2 he)
      rintro ⟨ch, hch, -, -⟩
      have hrange := char_range ch
      omega
    · refine iff_of_true ?_ fun hlax => ?_
      · obtain ⟨ch, hch⟩ := exists_char (n := (c.toNat % 16 * 64 + d.toNat % 64) * 64 +
          e.toNat % 64) (by omega)
        have hencode := encodeChar_eq hch
        rw [if_neg (by omega), if_neg (by omega), if_pos (by omega), ofNat_toNat c (by omega),
          ofNat_toNat d (by omega), ofNat_toNat e (by omega)] at hencode
        exact ⟨ch, hch, hencode, by rw [hencode]; rfl⟩
      · cases hlax <;> unfold Continues at * <;> omega
  | @four c d e f b hlo hhi hd he hf =>
    have hd' := hd
    have he' := he
    have hf' := hf
    unfold Continues at hd' he' hf'
    by_cases hlong : c.toNat = 0xf0 ∧ d.toNat < 0x90
    · refine iff_of_false ?_ fun hlax => hlax (.overlongFour b hlong.1 hd hlong.2 he hf)
      rintro ⟨ch, hch, -, hlength⟩
      rw [encodeChar_eq hch] at hlength
      split_ifs at hlength
      · cases hlength
      · cases hlength
      · cases hlength
      · omega
    by_cases hbeyond : c.toNat = 0xf4 ∧ 0x90 ≤ d.toNat
    · refine iff_of_false ?_ fun hlax => hlax (.beyond b hbeyond.1 hd hbeyond.2 he hf)
      rintro ⟨ch, hch, -, -⟩
      have hrange := char_range ch
      omega
    by_cases hfar : 0xf5 ≤ c.toNat
    · refine iff_of_false ?_ fun hlax => hlax (.farBeyond b hfar (by omega) hd he hf)
      rintro ⟨ch, hch, -, -⟩
      have hrange := char_range ch
      omega
    · refine iff_of_true ?_ fun hlax => ?_
      · obtain ⟨ch, hch⟩ := exists_char
          (n := ((c.toNat % 8 * 64 + d.toNat % 64) * 64 + e.toNat % 64) * 64 + f.toNat % 64)
            (by omega)
        have hencode := encodeChar_eq hch
        rw [if_neg (by omega), if_neg (by omega), if_neg (by omega), ofNat_toNat c (by omega),
          ofNat_toNat d (by omega), ofNat_toNat e (by omega), ofNat_toNat f (by omega)] at hencode
        exact ⟨ch, hch, hencode, by rw [hencode]; rfl⟩
      · cases hlax <;> unfold Continues at * <;> omega

theorem Lax.shape {uc : Bytes} (h : Lax uc) : ∃ wc k, Shape uc wc k := by
  cases h with
  | stray b hc => exact ⟨_, _, .one b hc.2⟩
  | overlongTwo b hlo hhi hd => exact ⟨_, _, .two b hlo (by omega) hd⟩
  | overlongThree b hc hd _ he => exact ⟨_, _, .three b (by omega) (by omega) hd he⟩
  | surrogate b hc hd _ he => exact ⟨_, _, .three b (by omega) (by omega) hd he⟩
  | overlongFour b hc hd _ he hf => exact ⟨_, _, .four b (by omega) (by omega) hd he hf⟩
  | beyond b hc hd _ he hf => exact ⟨_, _, .four b (by omega) (by omega) hd he hf⟩
  | farBeyond b hlo hhi hd he hf => exact ⟨_, _, .four b (by omega) (by omega) hd he hf⟩

/-- `utf8towc` accepts the encodings of characters and refuses anything else, without a read where
there is no byte, exactly where there is one and the text is not lax. -/
theorem utf8Towc_iff (uc : Bytes) :
    ((∀ wc k, utf8Towc uc = .char wc k ↔ 1 ≤ k ∧ Encodes uc wc k) ∧ utf8Towc uc ≠ .overread) ↔
      uc ≠ [] ∧ ¬ Lax uc := by
  constructor
  · rintro ⟨hiff, hread⟩
    refine ⟨fun hnil => hread (hnil ▸ rfl), fun hlax => ?_⟩
    obtain ⟨wc, k, hshape⟩ := hlax.shape
    exact hshape.encodes_iff.mp ((hiff wc k).mp hshape.utf8Towc).2 hlax
  · rintro ⟨hne, hlax⟩
    refine ⟨fun wc k => ⟨fun h => ?_, fun h => h.2.shape.utf8Towc⟩, ?_⟩
    · have hshape := utf8Towc_char.mp h
      refine ⟨?_, hshape.encodes_iff.mpr hlax⟩
      cases hshape <;> omega
    · obtain ⟨c, b, rfl⟩ := List.exists_cons_of_ne_nil hne
      rcases utf8Towc_shape c b with hrefused | ⟨wc, k, hchar, -⟩
      · rw [hrefused]
        exact WideChar.noConfusion
      · rw [hchar]
        exact WideChar.noConfusion

/-- A continuation byte alone is taken for the digit `1`. -/
theorem utf8Towc_stray : ¬ ((∀ wc k, utf8Towc [0xb1] = .char wc k ↔ 1 ≤ k ∧ Encodes [0xb1] wc k) ∧
    utf8Towc [0xb1] ≠ .overread) := by
  rintro ⟨hiff, -⟩
  obtain ⟨-, ch, hch, htake, -⟩ := (hiff 0x31 1).mp (by decide)
  rw [encodeChar_eq hch] at htake
  exact absurd htake (by decide)

end ExtHttp
