import ExtHttp.ChunkedText

/-! The `chunked_encode` filter, and its output under the dechunk stream. -/
namespace ExtHttp
open BufferLoop

/-- A digit of `%lx`. -/
def hexDigit (d : ℕ) : Byte := (if d < 10 then 48 + d else 87 + d).toUInt8

/-- `%lx` -/
def formatHex (n : ℕ) : Bytes := if n = 0 then [48] else (Nat.digits 16 n).reverse.map hexDigit

/-- A stream bucket, whose length fits `long unsigned int`. -/
structure Bucket where
  data : Bytes
  data_lt : data.length < 2 ^ 64

def encodeBucket (b : Bucket) : Bytes := formatHex b.data.length ++ crlf ++ (b.data ++ crlf)

/-- The buckets one invocation of the filter puts out. -/
def chunkedEncode (closing : Bool) (bucketsIn : List Bucket) : List Bytes :=
  bucketsIn.map encodeBucket ++ if closing then [lastChunk] else []

/-- The joined output of a series of invocations, of which the last one closes. -/
def chunkedEncodeRun (calls : List (List Bucket)) (last : List Bucket) : Bytes :=
  (calls.flatMap (chunkedEncode false)).flatten ++ (chunkedEncode true last).flatten

theorem chunkedEncodeRun_eq (calls : List (List Bucket)) (last : List Bucket) :
    chunkedEncodeRun calls last = (calls.flatten ++ last).flatMap encodeBucket ++ lastChunk := by
  have hcalls : (calls.flatMap (chunkedEncode false)).flatten =
      calls.flatten.flatMap encodeBucket := by
    induction calls with
    | nil => rfl
    | cons call calls ih =>
      simp only [List.flatMap_cons, List.flatten_append, ih, List.flatten_cons, List.flatMap_append]
      simp [chunkedEncode, List.flatMap]
  rw [chunkedEncodeRun, hcalls, List.flatMap_append, List.append_assoc]
  simp [chunkedEncode, List.flatMap]

/-! ### Sizes -/

theorem hexDigit_spec :
    ∀ d < 16, isBaseDigit 16 (hexDigit d) = true ∧ digitVal (hexDigit d) = d := by
  decide

theorem numeral_hexDigits {ds : List ℕ} (h : ∀ d ∈ ds, d < 16) :
    numeral 16 (ds.reverse.map hexDigit) = Nat.ofDigits 16 ds := by
  induction ds with
  | nil => rfl
  | cons d ds ih =>
    have hd := (hexDigit_spec d (h d (by simp))).2
    have hds := ih fun x hx => h x (by simp [hx])
    rw [List.reverse_cons, List.map_append, List.map_singleton, numeral_append, hds, hd,
      Nat.ofDigits_cons]
    omega

theorem numeral_formatHex (n : ℕ) : numeral 16 (formatHex n) = n := by
  unfold formatHex
  split_ifs with h
  · rw [h]
    rfl
  · rw [numeral_hexDigits fun d hd => Nat.digits_lt_base (by decide) hd, Nat.ofDigits_digits]

theorem formatHex_isBaseDigit (n : ℕ) : ∀ c ∈ formatHex n, isBaseDigit 16 c = true := by
  unfold formatHex
  split_ifs
  · decide +kernel
  · intro c hc
    obtain ⟨d, hd, rfl⟩ := List.mem_map.mp hc
    exact (hexDigit_spec d (Nat.digits_lt_base (by decide) (List.mem_reverse.mp hd))).1

/-! ### Decoding -/

/-- A bucket that is not empty is written as a chunk. -/
def Bucket.chunk (b : Bucket) (h : b.data ≠ []) : Chunk where
  size := formatHex b.data.length
  ext := none
  data := b.data
  size_hex := formatHex_isBaseDigit _
  size_eq := numeral_formatHex _
  data_ne := h
  data_lt := b.data_lt

theorem Bucket.chunk_text (b : Bucket) (h : b.data ≠ []) : (b.chunk h).text = encodeBucket b := by
  simp [Chunk.text, Chunk.extText, Bucket.chunk, encodeBucket]

/-- An empty bucket is written as the end of the text. -/
theorem encodeBucket_empty {b : Bucket} (h : b.data = []) : encodeBucket b = lastChunk := by
  simp [encodeBucket, h, formatHex, lastChunk]

theorem dechunkLoop_encoded (flushFull : Bool) {bs : List Bucket} (hbs : ∀ b ∈ bs, b.data ≠ [])
    (out rest : Bytes) :
    (dechunkLoop flushFull).run ⟨0, out⟩ (bs.flatMap encodeBucket ++ rest) =
      (dechunkLoop flushFull).run ⟨0, out ++ bs.flatMap Bucket.data⟩ rest := by
  induction bs generalizing out with
  | nil => simp
  | cons b bs ih =>
    have hb := hbs b (by simp)
    rw [List.flatMap_cons, List.append_assoc, ← b.chunk_text hb, dechunkLoop_chunk,
      ih fun d hd => hbs d (by simp [hd])]
    simp [Bucket.chunk]

/-- Up to the first empty bucket the data comes back, and the rest of the output is not consumed. -/
theorem dechunkUpdate_empty (flushFull : Bool) {pre : List Bucket} (hpre : ∀ b ∈ pre, b.data ≠ [])
    {b : Bucket} (hb : b.data = []) (post : List Bucket) :
    dechunkUpdate flushFull dechunkInit
        ((pre ++ b :: post).flatMap encodeBucket ++ lastChunk) =
      (some (pre.flatMap Bucket.data),
        ⟨(post.flatMap encodeBucket ++ lastChunk).dropWhile isEol, 0, true⟩) := by
  have hrun := dechunkLoop_encoded flushFull hpre []
    (lastChunk ++ (post.flatMap encodeBucket ++ lastChunk))
  rw [dechunkLoop_lastChunk] at hrun
  simp only [dechunkUpdate, dechunkInit, List.flatMap_append, List.flatMap_cons,
    encodeBucket_empty hb, List.append_assoc, List.nil_append, hrun]
  rfl

theorem dechunkUpdate_encoded (flushFull : Bool) {bs : List Bucket} (hbs : ∀ b ∈ bs, b.data ≠ []) :
    dechunkUpdate flushFull dechunkInit (bs.flatMap encodeBucket ++ lastChunk) =
      (some (bs.flatMap Bucket.data), ⟨[], 0, true⟩) := by
  have hlast := dechunkLoop_lastChunk flushFull (bs.flatMap Bucket.data) []
  rw [List.append_nil] at hlast
  have hrun := dechunkLoop_encoded flushFull hbs [] lastChunk
  rw [List.nil_append, hlast] at hrun
  simp [dechunkUpdate, dechunkInit, hrun]

/-- The stream gives back what went through the filter and consumes all of its output if and only if
no bucket was empty. -/
theorem chunkedEncode_roundtrip_iff (flushFull : Bool) (calls : List (List Bucket))
    (last : List Bucket) :
    dechunkUpdate flushFull dechunkInit (chunkedEncodeRun calls last) =
        (some ((calls.flatten ++ last).flatMap Bucket.data), ⟨[], 0, true⟩) ↔
      ∀ b ∈ calls.flatten ++ last, b.data ≠ [] := by
  rw [chunkedEncodeRun_eq]
  refine ⟨fun h => ?_, fun h => dechunkUpdate_encoded flushFull h⟩
  by_contra hempty
  obtain ⟨b, hb⟩ : ∃ b, (calls.flatten ++ last).find? (fun b => b.data = []) = some b := by
    rw [← Option.isSome_iff_exists, List.find?_isSome]
    simpa only [not_forall, not_not, exists_prop, decide_eq_true_eq] using hempty
  obtain ⟨hdata, pre, post, hbs, hpre⟩ := List.find?_eq_some_iff_append.mp hb
  rw [hbs, dechunkUpdate_empty flushFull (by simpa using hpre) (by simpa using hdata)] at h
  simp only [Prod.mk.injEq, DechunkCtx.mk.injEq, List.dropWhile_eq_nil_iff] at h
  have hzero := h.2.1 48 (by simp [lastChunk])
  exact absurd hzero (by decide)

theorem chunkedEncode_loses_after_empty_bucket :
    let calls : List (List Bucket) := [[⟨[], by decide⟩], [⟨ascii "a", by decide⟩]]
    dechunkUpdate false dechunkInit (chunkedEncodeRun calls []) ≠
      (some ((calls.flatten ++ []).flatMap Bucket.data), ⟨[], 0, true⟩) := by
  decide +kernel

end ExtHttp
