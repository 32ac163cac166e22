import ExtHttp.Dechunk

/-!
# Chunk sizes

The size lines that the dechunk stream takes, against the grammar `1*HEXDIG` with blanks or a `;`
extension behind it.
-/
namespace ExtHttp
open BufferLoop

/-- The size that a turn has read from a size line it has taken; 0 is that of the last chunk. -/
def chunkSize : Turn DechunkState Byte DechunkExit → Option ℕ
  | .next s _ => some s.hexlen
  | .ret .zeroed _ _ => some 0
  | .ret _ _ _ => none

/-- Blanks, and an extension behind a `;`. -/
def ChunkExtension (ext : Bytes) : Prop :=
  ext.dropWhile isBlank = [] ∨ (ext.dropWhile isBlank).head? = some semicolon

instance (ext : Bytes) : Decidable (ChunkExtension ext) := inferInstanceAs (Decidable (_ ∨ _))

/-- The line at the head of the buffer is `1*HEXDIG` and an extension, and `n` is the value of the
digits. -/
def ExactSize (b : Bytes) (n : ℕ) : Prop :=
  ∃ digits ext rest, b = digits ++ (ext ++ rest) ∧ digits ≠ [] ∧
    (∀ c ∈ digits, isBaseDigit 16 c = true) ∧ NoEol ext ∧ ChunkExtension ext ∧
    (∃ c ∈ rest.head?, isEol c = true) ∧ n = numeral 16 digits

/-- The buffer begins with a digit, its digits denote an `unsigned long`, and behind them there is
an extension only. -/
def StrictSize (b : Bytes) : Prop :=
  b.takeWhile (isBaseDigit 16) ≠ [] ∧ numeral 16 (b.takeWhile (isBaseDigit 16)) ≤ ulongMax ∧
    ChunkExtension ((b.dropWhile (isBaseDigit 16)).takeWhile fun c => !isEol c)

instance (b : Bytes) : Decidable (StrictSize b) := inferInstanceAs (Decidable (_ ∧ _ ∧ _))

/-- Whatever size the turn takes is exact. -/
def SizeExact (flushFull : Bool) (s : DechunkState) (b : Bytes) : Prop :=
  s.hexlen = 0 → ∀ n ∈ chunkSize (dechunkTurn flushFull s b), ExactSize (b.dropWhile isEol) n

/-- The turn does not come to a line with a number in it that is not at its beginning, not alone
there or too large. -/
def SizeStrict (s : DechunkState) (b : Bytes) : Prop :=
  s.hexlen = 0 → locateBinEol (b.dropWhile isEol) ≠ none → (strtoul 16 (b.dropWhile isEol)).2 ≠ 0 →
    StrictSize (b.dropWhile isEol)

theorem extension_stop {ext rest : Bytes} (h : ChunkExtension ext)
    (hrest : ∃ c ∈ rest.head?, isEol c = true) :
    ∀ c, (ext ++ rest).head? = some c → isBaseDigit 16 c = false ∧ c ≠ 120 ∧ c ≠ 88 := by
  have hchar : ∀ c : Byte, isBlank c = true ∨ c = semicolon ∨ isEol c = true →
      isBaseDigit 16 c = false ∧ c ≠ 120 ∧ c ≠ 88 := by decide +kernel
  intro c hc
  refine hchar c ?_
  cases ext with
  | nil =>
    obtain ⟨d, hd, heol⟩ := hrest
    rw [List.nil_append] at hc
    exact .inr (.inr (Option.mem_unique hd hc ▸ heol))
  | cons d ext =>
    obtain rfl : d = c := Option.some.inj hc
    by_cases hblank : isBlank d = true
    · exact .inl hblank
    · rw [ChunkExtension, List.dropWhile_cons_of_neg hblank] at h
      exact .inr (.inl (Option.some.inj (h.resolve_left (List.cons_ne_nil _ _))))

theorem exactSize_iff {b : Bytes} (hline : locateBinEol b ≠ none) :
    ExactSize b (strtoul 16 b).1 ↔ StrictSize b := by
  constructor
  · rintro ⟨digits, ext, rest, rfl, hne, hdigits, hext, hchunk, heol, hvalue⟩
    have hstop := extension_stop hchunk heol
    have htake : (digits ++ (ext ++ rest)).takeWhile (isBaseDigit 16) = digits :=
      takeWhile_append_of_stop hdigits fun c hc => (hstop c hc).1
    have hdrop : (digits ++ (ext ++ rest)).dropWhile (isBaseDigit 16) = ext ++ rest := by
      have := List.takeWhile_append_dropWhile (p := isBaseDigit 16) (l := digits ++ (ext ++ rest))
      rw [htake] at this
      exact List.append_cancel_left this
    have hextTake : (ext ++ rest).takeWhile (fun c => !isEol c) = ext := by
      refine takeWhile_append_of_stop (fun c hc => by simp [hext c hc]) fun c hc => ?_
      obtain ⟨d, hd, hdeol⟩ := heol
      obtain rfl := Option.mem_unique hd hc
      simp [hdeol]
    refine ⟨by rwa [htake], ?_, by rwa [hdrop, hextTake]⟩
    rw [htake]
    rw [strtoul_digits digits _ hne hdigits hstop] at hvalue
    dsimp only at hvalue
    split_ifs at hvalue <;> omega
  · rintro ⟨hne, hle, hchunk⟩
    have hdigits : ∀ c ∈ b.takeWhile (isBaseDigit 16), isBaseDigit 16 c = true :=
      fun c hc => List.mem_takeWhile_imp hc
    have hsplit := List.takeWhile_append_dropWhile (p := isBaseDigit 16) (l := b)
    generalize b.takeWhile (isBaseDigit 16) = digits, b.dropWhile (isBaseDigit 16) = tail
      at hne hle hchunk hdigits hsplit
    subst hsplit
    have htail := List.takeWhile_append_dropWhile (p := fun c => !isEol c) (l := tail)
    have hext : NoEol (tail.takeWhile fun c => !isEol c) := fun c hc => by
      simpa using List.mem_takeWhile_imp hc
    have heol : ∃ c ∈ (tail.dropWhile fun c => !isEol c).head?, isEol c = true := by
      cases hrest : tail.dropWhile fun c => !isEol c with
      | nil =>
        rw [Ne, locateBinEol_eq_none] at hline
        refine absurd (fun c hc => ?_) hline
        have hdigit : ∀ c : Byte, isBaseDigit 16 c = true → isEol c = false := by decide +kernel
        rcases List.mem_append.mp hc with hc | hc
        · exact hdigit c (hdigits c hc)
        · simpa using List.dropWhile_eq_nil_iff.mp hrest c hc
      | cons c rest =>
        have hhead := List.head?_dropWhile_not (fun c => !isEol c) tail
        rw [hrest] at hhead
        exact ⟨c, rfl, by simpa using hhead⟩
    generalize (tail.takeWhile fun c => !isEol c) = ext, (tail.dropWhile fun c => !isEol c) = rest
      at hchunk htail hext heol
    subst htail
    refine ⟨digits, ext, rest, rfl, hne, hdigits, hext, hchunk, heol, ?_⟩
    rw [strtoul_numeral digits _ hne hdigits (extension_stop hchunk heol) hle]

theorem sizeExact_iff (flushFull : Bool) (s : DechunkState) (b : Bytes) :
    SizeExact flushFull s b ↔ SizeStrict s b := by
  unfold SizeExact SizeStrict
  refine forall_congr' fun hs => ?_
  by_cases hb : b.dropWhile isEol = []
  · have hturn : dechunkTurn flushFull s b = .ret .more s [] := by
      rw [← dechunkTurn_dropWhile flushFull hs, hb, dechunkTurn_nil]
    simp [hturn, chunkSize, hb]
  · rw [dechunkTurn_size flushFull hs hb]
    cases he : locateBinEol (b.dropWhile isEol) with
    | none => simp [dechunkSizeLine, he, chunkSize]
    | some e =>
      obtain ⟨i, l⟩ := e
      have hexact := exactSize_iff (b := b.dropWhile isEol) (by simp [he])
      rcases hk : strtoul 16 (b.dropWhile isEol) with ⟨n, k⟩
      rw [hk] at hexact
      rw [dechunkSizeLine_some s he hk]
      by_cases hstop : k = 0
      · simp [hstop, chunkSize]
      · by_cases hzero : n = 0
        · simpa [hstop, hzero, chunkSize] using hexact
        · simpa [hstop, hzero, chunkSize] using hexact

/-- In a call of `dechunk_update` every chunk size is exact if and only if every line where one is
read is strict. -/
theorem dechunk_sizes_exact_iff (flushFull : Bool) (ctx : DechunkCtx) (data : Bytes) :
    (∀ d, (dechunkLoop flushFull).Visits (⟨ctx.hexlen, []⟩, ctx.buffer ++ data) d →
      SizeExact flushFull d.1 d.2) ↔
    ∀ d, (dechunkLoop flushFull).Visits (⟨ctx.hexlen, []⟩, ctx.buffer ++ data) d →
      SizeStrict d.1 d.2 :=
  forall_congr' fun d => forall_congr' fun _ => sizeExact_iff flushFull d.1 d.2

/-- A sign, a prefix, a blank, another text behind the digits, and a size that does not fit. -/
theorem dechunk_sizes_not_exact :
    [ascii "-1\n", ascii "0x5\n", ascii " 5\n", ascii "5g\n", ascii "10000000000000000\n"].Forall
      fun data => ¬ SizeExact false ⟨dechunkInit.hexlen, []⟩ (dechunkInit.buffer ++ data) ∧
        (dechunkUpdate false dechunkInit data).1 = some [] := by
  have hstrict : ∀ data ∈ [ascii "-1\n", ascii "0x5\n", ascii " 5\n", ascii "5g\n",
      ascii "10000000000000000\n"], (locateBinEol (data.dropWhile isEol) ≠ none ∧
        (strtoul 16 (data.dropWhile isEol)).2 ≠ 0 ∧ ¬ StrictSize (data.dropWhile isEol)) ∧
        (dechunkUpdate false dechunkInit data).1 = some [] := by decide +kernel
  refine List.forall_iff_forall_mem.mpr fun data hdata => ?_
  obtain ⟨⟨hline, hstop, hlax⟩, hupdate⟩ := hstrict data hdata
  exact ⟨fun h => hlax ((sizeExact_iff _ _ _).mp h rfl hline hstop), hupdate⟩

end ExtHttp
