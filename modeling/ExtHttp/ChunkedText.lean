import ExtHttp.ChunkedDecoders

/-! The chunked coding as text, and what each of the decoders makes of it. -/
namespace ExtHttp
open BufferLoop

/-! ### The text -/

structure Token where
  bytes : Bytes
  ne : bytes ≠ []
  chars : ∀ c ∈ bytes, isNameChar c = true

/-- `;token[=token]` -/
structure ChunkExt where
  name : Token
  value : Option Token

def ChunkExt.text (e : ChunkExt) : Bytes :=
  semicolon :: (e.name.bytes ++ e.value.elim [] fun v => equalSign :: v.bytes)

/-- A chunk of at least one byte and at most `ULONG_MAX`. -/
structure Chunk where
  size : Bytes
  ext : Option ChunkExt
  data : Bytes
  size_hex : ∀ c ∈ size, isBaseDigit 16 c = true
  size_eq : numeral 16 size = data.length
  data_ne : data ≠ []
  data_lt : data.length < 2 ^ 64

def Chunk.extText (c : Chunk) : Bytes := c.ext.elim [] ChunkExt.text

def Chunk.text (c : Chunk) : Bytes := c.size ++ c.extText ++ crlf ++ (c.data ++ crlf)

/-- `0` CRLF CRLF -/
def lastChunk : Bytes := [48] ++ crlf ++ crlf

def chunkedText (cs : List Chunk) : Bytes := cs.flatMap Chunk.text ++ lastChunk

def chunkedData (cs : List Chunk) : Bytes := cs.flatMap Chunk.data

@[simp] theorem chunkedText_cons (c : Chunk) (cs : List Chunk) :
    chunkedText (c :: cs) = c.text ++ chunkedText cs := by
  simp [chunkedText]

@[simp] theorem chunkedData_cons (c : Chunk) (cs : List Chunk) :
    chunkedData (c :: cs) = c.data ++ chunkedData cs := by
  simp [chunkedData]

theorem isNameChar_plain {c : Byte} (h : isNameChar c = true) :
    isEol c = false ∧ c ≠ nul ∧ c ≠ space := by
  revert c; decide +kernel

theorem isBaseDigit_plain {c : Byte} (h : isBaseDigit 16 c = true) : isEol c = false ∧ c ≠ nul := by
  revert c; decide +kernel

theorem ChunkExt.text_plain (e : ChunkExt) : ∀ c ∈ e.text, isEol c = false ∧ c ≠ nul := by
  have hname : ∀ c ∈ e.name.bytes, isEol c = false ∧ c ≠ nul := fun c hc =>
    have h := isNameChar_plain (e.name.chars c hc)
    ⟨h.1, h.2.1⟩
  have hvalue : ∀ v ∈ e.value, ∀ c ∈ v.bytes, isEol c = false ∧ c ≠ nul := fun v _ c hc =>
    have h := isNameChar_plain (v.chars c hc)
    ⟨h.1, h.2.1⟩
  intro c hc
  unfold ChunkExt.text at hc
  rcases List.mem_cons.mp hc with rfl | hc
  · decide
  rcases List.mem_append.mp hc with hc | hc
  · exact hname c hc
  cases hv : e.value with
  | none => simp [hv] at hc
  | some v =>
    simp only [hv, Option.elim_some, List.mem_cons] at hc
    rcases hc with rfl | hc
    · decide
    · exact hvalue v hv c hc

namespace Chunk
variable (c : Chunk)

theorem size_ne : c.size ≠ [] := by
  intro h
  have hsize := c.size_eq
  rw [h, numeral_nil] at hsize
  exact c.data_ne (List.length_eq_zero_iff.mp hsize.symm)

theorem extText_plain : ∀ b ∈ c.extText, isEol b = false ∧ b ≠ nul := by
  unfold extText
  cases c.ext with
  | none => simp
  | some e => exact e.text_plain

theorem two_le_extText (h : c.ext ≠ none) : 2 ≤ c.extText.length := by
  obtain ⟨e, he⟩ := Option.ne_none_iff_exists'.mp h
  have := List.length_pos_of_ne_nil e.name.ne
  simp only [extText, he, Option.elim_some, ChunkExt.text, List.length_cons, List.length_append]
  omega

/-- The byte behind the size is the first of the extension or of the end of line. -/
theorem extText_crlf (rest : Bytes) :
    ∃ b bs, c.extText ++ (crlf ++ rest) = b :: bs ∧ (b = semicolon ∨ b = cr) := by
  unfold extText
  cases c.ext with
  | none => exact ⟨cr, lf :: rest, by simp [crlf], Or.inr rfl⟩
  | some e => exact ⟨semicolon, _, rfl, Or.inl rfl⟩

theorem strtoul_text (rest : Bytes) :
    strtoul 16 (c.text ++ rest) = (c.data.length, c.size.length) := by
  obtain ⟨b, bs, hb, hbs⟩ := c.extText_crlf (c.data ++ crlf ++ rest)
  have ht : c.text ++ rest = c.size ++ (b :: bs) := by
    simp only [text, ← hb, List.append_assoc]
  have hle : numeral 16 c.size ≤ ulongMax := by
    have := c.data_lt
    rw [c.size_eq, ulongMax]
    omega
  rw [ht, strtoul_numeral _ _ c.size_ne c.size_hex _ hle, c.size_eq]
  intro x hx
  cases hx
  rcases hbs with rfl | rfl <;> decide

theorem locateBinEol_text (rest : Bytes) :
    locateBinEol (c.text ++ rest) = some ((c.size ++ c.extText).length, 2) := by
  have hline : NoEol (c.size ++ c.extText) := by
    rw [noEol_append]
    exact ⟨fun b hb => (isBaseDigit_plain (c.size_hex b hb)).1,
      fun b hb => (c.extText_plain b hb).1⟩
  have := locateBinEol_crlf hline (c.data ++ crlf ++ rest)
  simpa only [text, List.append_assoc] using this

theorem text_dropWhile (rest : Bytes) : (c.text ++ rest).dropWhile isEol = c.text ++ rest := by
  obtain ⟨d, ds, hd⟩ := List.exists_cons_of_ne_nil c.size_ne
  apply dropWhile_of_head
  intro b hb
  simp only [text, hd, List.cons_append, List.head?_cons, Option.some.injEq] at hb
  exact (isBaseDigit_plain (c.size_hex b (by simp [hd, hb]))).1

end Chunk

/-! ### The stream -/

theorem Chunk.text_drop (c : Chunk) (rest : Bytes) :
    (c.text ++ rest).drop ((c.size ++ c.extText).length + 2) = c.data ++ (crlf ++ rest) := by
  have htext : c.text ++ rest = (c.size ++ c.extText ++ crlf) ++ (c.data ++ (crlf ++ rest)) := by
    simp [Chunk.text]
  rw [htext]
  exact List.drop_left' (by simp [crlf, Nat.add_assoc])

theorem dechunkLoop_chunk (flushFull : Bool) (c : Chunk) (out rest : Bytes) :
    (dechunkLoop flushFull).run ⟨0, out⟩ (c.text ++ rest) =
      (dechunkLoop flushFull).run ⟨0, out ++ c.data⟩ rest := by
  have hlen : c.data.length ≠ 0 := by simpa using c.data_ne
  have hne : c.text ++ rest ≠ [] := by simp [Chunk.text, crlf]
  have hsize : (dechunkLoop flushFull).turn ⟨0, out⟩ (c.text ++ rest) =
      .next ⟨c.data.length, out⟩ (c.data ++ (crlf ++ rest)) := by
    have hstop : c.size.length ≠ 0 := by simpa using c.size_ne
    have ht := dechunkTurn_size flushFull (s := ⟨0, out⟩) (b := c.text ++ rest) rfl
      (by rwa [c.text_dropWhile])
    rw [c.text_dropWhile, dechunkSizeLine_some _ (c.locateBinEol_text rest) (c.strtoul_text rest),
      if_neg hstop, if_neg hlen, c.text_drop] at ht
    exact ht
  have hdata : (dechunkLoop flushFull).turn ⟨c.data.length, out⟩ (c.data ++ (crlf ++ rest)) =
      .next ⟨0, out ++ c.data⟩ (crlf ++ rest) := by
    have ht := dechunkTurn_data flushFull (s := ⟨c.data.length, out⟩)
      (b := c.data ++ (crlf ++ rest)) (by simp [c.data_ne]) hlen (by simp)
    rw [List.take_left, List.drop_left] at ht
    exact ht
  have hcrlf : crlf.dropWhile isEol = [] := by decide
  rw [Machine.run_next hsize, Machine.run_next hdata,
    ← dechunkLoop_dropWhile flushFull (s := ⟨0, out ++ c.data⟩) rfl crlf rest, hcrlf,
    List.nil_append]

theorem strtoul_lastChunk (rest : Bytes) : strtoul 16 (lastChunk ++ rest) = (0, 1) :=
  strtoul_numeral [48] (crlf ++ crlf ++ rest) (by simp) (by decide +kernel)
    (fun x hx => by cases hx; decide) (by decide)

theorem dechunkLoop_lastChunk (flushFull : Bool) (out rest : Bytes) :
    (dechunkLoop flushFull).run ⟨0, out⟩ (lastChunk ++ rest) =
      (.zeroed, ⟨0, out⟩, rest.dropWhile isEol) := by
  have htext : lastChunk ++ rest = [48] ++ crlf ++ (crlf ++ rest) := by simp [lastChunk]
  have hloc : locateBinEol (lastChunk ++ rest) = some (1, 2) := by
    rw [htext]
    exact locateBinEol_crlf (by simp [isEol, cr, lf]) _
  have hstrip : (lastChunk ++ rest).dropWhile isEol = lastChunk ++ rest := by
    refine dropWhile_of_head fun b hb => ?_
    rw [htext] at hb
    cases hb
    decide
  have hdrop : ((lastChunk ++ rest).drop (1 + 2)).dropWhile isEol = rest.dropWhile isEol := by
    rw [htext]
    have : ([48] ++ crlf ++ (crlf ++ rest)).drop (1 + 2) = crlf ++ rest :=
      List.drop_left' (by decide)
    rw [this, ← dropWhile_dropWhile_append]
    rfl
  have ht := dechunkTurn_size flushFull (s := ⟨0, out⟩) (b := lastChunk ++ rest) rfl
    (by rw [hstrip, htext]; simp)
  rw [hstrip, dechunkSizeLine_some _ hloc (strtoul_lastChunk rest), if_neg (by simp), if_pos rfl,
    hdrop] at ht
  exact Machine.run_ret ht

theorem dechunkLoop_chunkedText (flushFull : Bool) (cs : List Chunk) (out rest : Bytes) :
    (dechunkLoop flushFull).run ⟨0, out⟩ (chunkedText cs ++ rest) =
      (.zeroed, ⟨0, out ++ chunkedData cs⟩, rest.dropWhile isEol) := by
  induction cs generalizing out with
  | nil => simpa [chunkedText, chunkedData] using dechunkLoop_lastChunk flushFull out rest
  | cons c cs ih =>
    rw [chunkedText_cons, List.append_assoc, dechunkLoop_chunk, ih, chunkedData_cons,
      List.append_assoc]

/-- The stream decodes a chunked text, and leaves what follows it up to line ends. -/
theorem dechunkUpdate_chunkedText (flushFull : Bool) (cs : List Chunk) (rest : Bytes) :
    dechunkUpdate flushFull dechunkInit (chunkedText cs ++ rest) =
      (some (chunkedData cs), ⟨rest.dropWhile isEol, 0, true⟩) := by
  have h := dechunkLoop_chunkedText flushFull cs [] rest
  simp only [List.nil_append] at h
  simp [dechunkUpdate, dechunkInit, h]

end ExtHttp
