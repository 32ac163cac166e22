import ExtHttp.ChunkedText

/-! The three decoders of the chunked coding side by side. -/
namespace ExtHttp
open BufferLoop

/-! ### The one-shot function on a chunk -/

/-- Whatever stands between the size and its CRLF, the function moves on by the CRLF's length. -/
theorem dechunkEol_chunk (c : Chunk) {mem rest : Bytes} {n : ℕ}
    (h : mem.drop n = c.extText ++ (crlf ++ rest)) (len eolLen : ℕ) :
    ∃ ws, dechunkEol mem len n eolLen = (n + 2, 2, ws) ∧ (c.ext = none → ws = []) := by
  obtain ⟨b, bs, hb, hbs⟩ := c.extText_crlf rest
  have hbyte : byteAt mem n ≠ nul := by
    rw [byteAt_eq_headD, h, hb]
    rcases hbs with rfl | rfl <;> simp [semicolon, cr, nul]
  have heol : locateEol (mem.drop n) = some (c.extText.length, 2) := by
    have hext : c.extText.takeWhile (· ≠ nul) = c.extText := by
      rw [List.takeWhile_eq_self_iff]
      exact fun x hx => by simpa using (c.extText_plain x hx).2
    have htake : (c.extText ++ (crlf ++ rest)).takeWhile (· ≠ nul) =
        c.extText ++ crlf ++ rest.takeWhile (· ≠ nul) := by
      rw [List.takeWhile_append_of_pos fun x hx => by simpa using (c.extText_plain x hx).2]
      simp [crlf, cr, lf, nul]
    rw [locateEol, h, htake]
    exact locateBinEol_crlf (fun x hx => (c.extText_plain x hx).1) _
  have hspace : (mem.drop n).takeWhile (· = space) = [] := by
    rw [h, hb]
    rcases hbs with rfl | rfl <;> simp [semicolon, cr, space]
  have hmatch : eolMatch (mem.drop n) = (if 0 = c.extText.length then some 0 else none, 2) := by
    simp [eolMatch, heol, hspace]
  rw [dechunkEol, if_neg hbyte, hmatch]
  by_cases hext : 0 = c.extText.length
  · rw [if_pos hext]
    exact ⟨[], rfl, fun _ => rfl⟩
  · rw [if_neg hext]
    refine ⟨_, rfl, fun hnone => absurd ?_ hext⟩
    simp [Chunk.extText, hnone]

theorem Chunk.text_length (c : Chunk) :
    c.text.length = c.size.length + c.extText.length + c.data.length + 4 := by
  simp only [Chunk.text, List.length_append, crlf, List.length_cons, List.length_nil]
  omega

/-- A turn of the one-shot function. It takes the two bytes behind the size for the end of line. -/
theorem dechunkLoopFrom_chunk (c : Chunk) {mem rest : Bytes} {len e : ℕ}
    (hdrop : mem.drop e = c.text ++ rest) (hlen : e + c.text.length < len) (hlt : len < 2 ^ 64)
    (eolLen : ℕ) (out : Bytes) (ws : List DechunkWarning) :
    ∃ ws', dechunkLoopFrom mem len e eolLen out ws =
      dechunkLoopFrom mem len (e + c.size.length + 2 + c.data.length + 2) 2
        (out ++ (mem.drop (e + c.size.length + 2)).take c.data.length) ws' ∧
      (c.ext = none → ws' = ws) := by
  have htext := c.text_length
  have hdata : c.data.length ≠ 0 := by simpa using c.data_ne
  have hsize : c.size.length ≠ 0 := by simpa using c.size_ne
  have hbehind : mem.drop (e + c.size.length) =
      c.extText ++ (crlf ++ (c.data ++ crlf ++ rest)) := by
    rw [← List.drop_drop, hdrop]
    simp [Chunk.text]
  obtain ⟨w, heol, hw⟩ := dechunkEol_chunk c hbehind len eolLen
  have hrest : sizeSub len (e + c.size.length + 2) = len - (e + c.size.length + 2) :=
    sizeSub_of_le (by omega) hlt
  have hmin : min c.data.length (len - (e + c.size.length + 2)) = c.data.length := by omega
  have hmore : ¬ c.data.length = len - (e + c.size.length + 2) := by omega
  have hall : ¬ len - (e + c.size.length + 2) < c.data.length := by omega
  refine ⟨ws ++ w, ?_, fun hc => by rw [hw hc, List.append_nil]⟩
  rw [dechunkLoopFrom, if_pos (by omega)]
  simp only [hdrop, c.strtoul_text rest, heol, hrest, hmin]
  rw [dif_neg hsize, if_neg hdata, if_neg hmore, if_neg hall, List.append_nil]

theorem dechunkLoopFrom_lastChunk {mem beyond : Bytes} {len e : ℕ}
    (hdrop : mem.drop e = lastChunk ++ nul :: beyond) (hlen : len = e + lastChunk.length)
    (eolLen : ℕ) (out : Bytes) (ws : List DechunkWarning) :
    dechunkLoopFrom mem len e eolLen out ws = ⟨out, some len, ws⟩ := by
  have hnum : strtoul 16 (mem.drop e) = (0, 1) := by
    rw [hdrop, lastChunk, List.append_assoc, List.append_assoc]
    exact strtoul_numeral [48] _ (by simp) (by decide +kernel)
      (fun x hx => by cases hx; decide) (by decide)
  have hskip : (mem.drop e).takeWhile isTerminator = lastChunk := by
    rw [hdrop]
    exact takeWhile_append_of_stop (by decide +kernel) fun x hx => by cases hx; decide
  have hpos : 0 < lastChunk.length := by decide
  rw [dechunkLoopFrom, if_pos (by omega)]
  simp only [hnum]
  rw [dif_neg (by simp), if_pos trivial, hskip, hlen]

/-- Chunks without extensions are decoded as what they are, without complaints. -/
theorem dechunkLoopFrom_chunks {cs : List Chunk} (hcs : ∀ c ∈ cs, c.ext = none)
    {mem rest : Bytes} {len e : ℕ} (hdrop : mem.drop e = cs.flatMap Chunk.text ++ rest)
    (hlen : e + (cs.flatMap Chunk.text).length < len) (hlt : len < 2 ^ 64) (eolLen : ℕ)
    (out : Bytes) (ws : List DechunkWarning) :
    ∃ eolLen', dechunkLoopFrom mem len e eolLen out ws =
      dechunkLoopFrom mem len (e + (cs.flatMap Chunk.text).length) eolLen' (out ++ chunkedData cs)
        ws := by
  induction cs generalizing e eolLen out with
  | nil => exact ⟨eolLen, by simp [chunkedData]⟩
  | cons c cs ih =>
    rw [List.flatMap_cons, List.append_assoc] at hdrop
    rw [List.flatMap_cons, List.length_append] at hlen ⊢
    have hnone := hcs c (by simp)
    have hext : c.extText = [] := by simp [Chunk.extText, hnone]
    have htext := c.text_length
    rw [hext, List.length_nil] at htext
    obtain ⟨ws', hturn, hws⟩ := dechunkLoopFrom_chunk c hdrop (by omega) hlt eolLen out ws
    have hdata : (mem.drop (e + c.size.length + 2)).take c.data.length = c.data := by
      rw [Nat.add_assoc, ← List.drop_drop, hdrop, Chunk.text, hext]
      have : c.size ++ [] ++ crlf ++ (c.data ++ crlf) ++ (cs.flatMap Chunk.text ++ rest) =
          (c.size ++ crlf) ++ (c.data ++ (crlf ++ (cs.flatMap Chunk.text ++ rest))) := by simp
      rw [this, List.drop_left' (by simp [crlf]), List.take_left]
    have hnext : mem.drop (e + c.text.length) = cs.flatMap Chunk.text ++ rest := by
      rw [← List.drop_drop, hdrop, List.drop_left]
    obtain ⟨eolLen', hrest⟩ :=
      ih (fun d hd => hcs d (by simp [hd])) hnext (by omega) 2 (out ++ c.data)
    refine ⟨eolLen', ?_⟩
    rw [hturn, hdata, hws hnone,
      show e + c.size.length + 2 + c.data.length + 2 = e + c.text.length by omega, hrest,
      chunkedData_cons, List.append_assoc, Nat.add_assoc]

/-- Behind the first turn the output only grows. -/
theorem dechunkLoopFrom_prefix (mem : Bytes) (len e eolLen : ℕ) (out : Bytes)
    (ws : List DechunkWarning) (he : 0 < e)
    (hstop : (dechunkLoopFrom mem len e eolLen out ws).stop ≠ none) :
    out <+: (dechunkLoopFrom mem len e eolLen out ws).decoded := by
  fun_induction dechunkLoopFrom mem len e eolLen out ws with
  | case1 => omega
  | case2 => simp at hstop
  | case3 => exact List.prefix_rfl
  | case4 => exact List.prefix_append _ _
  | case5 e eolLen out ws _ _ hsize n data rest chunkLen ws' out' _ ih =>
    have hle : n ≤ data.1 := le_dechunkEol mem len n eolLen
    exact (List.prefix_append out _).trans (ih (by omega) hstop)
  | case6 => exact List.prefix_rfl

/-! ### Agreement -/

theorem chunkedDecode_chunkedText (flushInc closing : Bool) (cs : List Chunk) {buckets : List Bytes}
    (h : buckets.flatten = chunkedText cs) :
    let o := chunkedDecode flushInc closing ⟨[], 0⟩ buckets
    o.1 ≠ .errFatal ∧ o.2.1.flatten = chunkedData cs ∧ o.2.2.1 = true := by
  have hjoin := dechunkLoop_joined flushInc ⟨0, []⟩ (chunkedText cs)
  have hstream := dechunkLoop_chunkedText flushInc cs [] []
  rcases hr : (chunkedDecodeLoop flushInc).run ⟨0, []⟩ (chunkedText cs) with ⟨e, s, b⟩
  simp only [hr, ChunkedDecodeState.joined, List.flatten_nil] at hjoin
  rw [List.append_nil, hjoin] at hstream
  simp only [Prod.mk.injEq, DechunkState.mk.injEq, List.nil_append] at hstream
  obtain ⟨rfl, ⟨hhex, hout⟩, -⟩ := hstream
  have hbuckets : buckets.flatten = chunkedText cs := h
  simp only [chunkedDecode, List.nil_append, hbuckets, hr]
  refine ⟨?_, by simp [hhex, hout], by simp⟩
  simp only [reduceCtorEq, if_false]
  split_ifs <;> simp

/-- All three decoders succeed with the chunks' data, and the first two stop at the same place. -/
def DecodersAgree (cs : List Chunk) (beyond : Bytes) (flushFull flushInc closing : Bool)
    (buckets : List Bytes) : Prop :=
  let text := chunkedText cs
  let oneShot := encodingDechunk text beyond
  let stream := dechunkUpdate flushFull dechunkInit text
  let filter := chunkedDecode flushInc closing ⟨[], 0⟩ buckets
  oneShot.stop = some (text.length - stream.2.buffer.length) ∧ oneShot.decoded = chunkedData cs ∧
    stream.1 = some (chunkedData cs) ∧ filter.1 ≠ .errFatal ∧ filter.2.1.flatten = chunkedData cs

instance (cs : List Chunk) (beyond : Bytes) (flushFull flushInc closing : Bool)
    (buckets : List Bytes) :
    Decidable (DecodersAgree cs beyond flushFull flushInc closing buckets) :=
  inferInstanceAs (Decidable (_ ∧ _ ∧ _ ∧ _ ∧ _))

theorem encodingDechunk_chunkedText {cs : List Chunk} (hcs : ∀ c ∈ cs, c.ext = none)
    (hlt : (chunkedText cs).length < 2 ^ 64) (beyond : Bytes) :
    encodingDechunk (chunkedText cs) beyond =
      ⟨chunkedData cs, some (chunkedText cs).length, []⟩ := by
  have hlen : 0 + (cs.flatMap Chunk.text).length < (chunkedText cs).length := by
    simp [chunkedText, lastChunk]
  have hdrop : (chunkedText cs ++ nul :: beyond).drop 0 =
      cs.flatMap Chunk.text ++ (lastChunk ++ nul :: beyond) := by
    simp [chunkedText]
  obtain ⟨eolLen, hchunks⟩ := dechunkLoopFrom_chunks hcs hdrop hlen hlt 0 [] []
  rw [encodingDechunk, hchunks, List.nil_append]
  exact dechunkLoopFrom_lastChunk (by rw [← List.drop_drop, hdrop, List.drop_left])
    (by simp [chunkedText]) _ _ _

/-- Where the one-shot function returns the data of a text with extensions, the first chunk that has
one repeats what stands in front of its data: the function copies from two bytes behind the size. -/
theorem encodingDechunk_extension {pre post : List Chunk} {c : Chunk}
    (hpre : ∀ d ∈ pre, d.ext = none) (hext : c.ext ≠ none)
    (hlt : (chunkedText (pre ++ c :: post)).length < 2 ^ 64) {beyond : Bytes}
    (hstop : (encodingDechunk (chunkedText (pre ++ c :: post)) beyond).stop ≠ none)
    (hdec : (encodingDechunk (chunkedText (pre ++ c :: post)) beyond).decoded =
      chunkedData (pre ++ c :: post)) :
    c.data <+: c.extText.drop 2 ++ crlf ++ c.data := by
  have htext : chunkedText (pre ++ c :: post) =
      pre.flatMap Chunk.text ++ (c.text ++ chunkedText post) := by
    simp [chunkedText]
  have hdata : chunkedData (pre ++ c :: post) =
      chunkedData pre ++ (c.data ++ chunkedData post) := by
    simp [chunkedData]
  rw [hdata] at hdec
  rw [htext] at hlt hstop hdec
  set p := (pre.flatMap Chunk.text).length with hp
  have hpos : 0 < (chunkedText post).length := by simp [chunkedText, lastChunk]
  have hlen : p + c.text.length <
      (pre.flatMap Chunk.text ++ (c.text ++ chunkedText post)).length := by
    simp only [List.length_append, ← hp]
    omega
  set mem := pre.flatMap Chunk.text ++ (c.text ++ chunkedText post) ++ nul :: beyond with hmem
  have hdrop : mem.drop 0 =
      pre.flatMap Chunk.text ++ (c.text ++ (chunkedText post ++ nul :: beyond)) := by
    simp [hmem]
  have hdrop' : mem.drop p = c.text ++ (chunkedText post ++ nul :: beyond) := by
    rw [← Nat.zero_add p, ← List.drop_drop, hdrop, hp, List.drop_left]
  obtain ⟨l, hchunks⟩ := dechunkLoopFrom_chunks hpre hdrop (by omega) hlt 0 [] []
  obtain ⟨ws, hchunk, -⟩ := dechunkLoopFrom_chunk c hdrop' hlen hlt l (chunkedData pre) []
  rw [encodingDechunk, hchunks, Nat.zero_add, ← hp, List.nil_append, hchunk] at hstop hdec
  -- the function copies from two bytes behind the size
  have hbehind : mem.drop (p + c.size.length + 2) = c.extText.drop 2 ++ crlf ++ c.data ++
      (crlf ++ (chunkedText post ++ nul :: beyond)) := by
    have hsize : c.text ++ (chunkedText post ++ nul :: beyond) =
        c.size ++ (c.extText ++ (crlf ++ c.data ++
          (crlf ++ (chunkedText post ++ nul :: beyond)))) := by
      simp [Chunk.text]
    rw [← List.drop_drop, ← List.drop_drop, hdrop', hsize, List.drop_left,
      List.drop_append_of_le_length (c.two_le_extText hext)]
    simp
  have hle : c.data.length ≤ (c.extText.drop 2 ++ crlf ++ c.data).length := by
    simp only [List.length_append]
    omega
  have hcopy := dechunkLoopFrom_prefix _ _ _ _ _ _ (by omega) hstop
  rw [hdec, hbehind, List.prefix_append_right_inj, List.take_append_of_le_length hle] at hcopy
  have hcopied : ((c.extText.drop 2 ++ crlf ++ c.data).take c.data.length).length =
      c.data.length := by
    rw [List.length_take, min_eq_left hle]
  have heq : (c.extText.drop 2 ++ crlf ++ c.data).take c.data.length = c.data :=
    (List.prefix_of_prefix_length_le hcopy (List.prefix_append _ _) hcopied.le).eq_of_length hcopied
  have := List.take_prefix c.data.length (c.extText.drop 2 ++ crlf ++ c.data)
  rwa [heq] at this

/-- The decoders agree on every text without extensions. With extensions they disagree, unless the
data of the first chunk that has one repeats the bytes in front of it. -/
theorem decodersAgree_extensions {cs : List Chunk} (hlt : (chunkedText cs).length < 2 ^ 64)
    (beyond : Bytes) (flushFull flushInc closing : Bool) {buckets : List Bytes}
    (hbuckets : buckets.flatten = chunkedText cs) :
    ((∀ c ∈ cs, c.ext = none) → DecodersAgree cs beyond flushFull flushInc closing buckets) ∧
      (DecodersAgree cs beyond flushFull flushInc closing buckets →
        ∀ pre c post, cs = pre ++ c :: post → (∀ d ∈ pre, d.ext = none) → c.ext ≠ none →
          c.data <+: c.extText.drop 2 ++ crlf ++ c.data) := by
  obtain ⟨hstatus, hfilter, -⟩ := chunkedDecode_chunkedText flushInc closing cs hbuckets
  have hstream := dechunkUpdate_chunkedText flushFull cs []
  rw [List.append_nil] at hstream
  constructor
  · intro hcs
    have hone := encodingDechunk_chunkedText hcs hlt beyond
    simp only [DecodersAgree, hone, hstream]
    exact ⟨by simp, trivial, trivial, hstatus, hfilter⟩
  · rintro ⟨hstop, hdec, -⟩ pre c post rfl hpre hext
    exact encodingDechunk_extension hpre hext hlt (by rw [hstop]; simp) hdec

/-- A chunk of five bytes under the size `5`. -/
def helloChunk (ext : Option ChunkExt) : Chunk where
  size := ascii "5"
  ext := ext
  data := ascii "hello"
  size_hex := by decide +kernel
  size_eq := by decide
  data_ne := by decide
  data_lt := by decide

def fooExt : ChunkExt where
  name := ⟨ascii "foo", by decide, by decide +kernel⟩
  value := some ⟨ascii "bar", by decide, by decide +kernel⟩

theorem decoders_disagree_on_extension :
    ¬ DecodersAgree [helloChunk (some fooExt)] [] false false true
      [ascii "5;foo=bar\r\nhello\r\n0\r\n\r\n"] := by
  decide +kernel

theorem decodersAgree_hello :
    DecodersAgree [helloChunk none, helloChunk none] [] false false true
        [ascii "5\r\nhe", ascii "llo\r\n5\r\nhello\r\n0\r\n\r\n"] ∧
      ¬ DecodersAgree [helloChunk none, helloChunk (some fooExt)] [] false false true
        [ascii "5\r\nhello\r\n5;foo=bar\r\nhello\r\n0\r\n\r\n"] := by
  constructor
  · refine (decodersAgree_extensions ?_ [] false false true ?_).1 ?_
    · decide
    · decide
    · simp [helloChunk]
  · intro h
    have hprefix := (decodersAgree_extensions (by decide) [] false false true
      (by decide)).2 h [helloChunk none] _ [] rfl (by simp [helloChunk]) (by simp [helloChunk])
    exact absurd hprefix (by decide)

end ExtHttp
