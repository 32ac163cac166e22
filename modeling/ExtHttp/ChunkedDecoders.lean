import ExtHttp.Dechunk

/-! The other decoders of the chunked coding: the one-shot function next to the stream, and the
`chunked_decode` filter of `php_http_filter.c`, which decodes like the stream. -/
namespace ExtHttp
open BufferLoop

/-! ### `php_http_encoding_dechunk` -/

/-- The notices and warnings of the one-shot function, with the numbers in their texts. -/
inductive DechunkWarning
  | notEncoded
  | trash (pos len : ℕ)
  | expectedCrlf (pos len : ℕ) (c d : Byte)
  | expectedLf (pos len : ℕ) (c : Byte)
  | truncated (chunkLen rest pos len : ℕ)
  deriving DecidableEq, Repr

/-- `eol_match`: where the end of line begins if only spaces precede it, and the length of the first
end of line there is. -/
def eolMatch (line : Bytes) : Option ℕ × ℕ :=
  let ptr := (line.takeWhile (· = space)).length
  match locateEol line with
  | none => (none, 0)
  | some (eol, eolLen) => (if ptr = eol then some ptr else none, eolLen)

/-- `<SP>* CRLF` behind a chunk size at offset `n`: the offset of the chunk's data, the length of
the end of line and the warning if there is something else. -/
def dechunkEol (mem : Bytes) (len n eolLen : ℕ) : ℕ × ℕ × List DechunkWarning :=
  if byteAt mem n = nul then (n + eolLen, eolLen, [])
  else match eolMatch (mem.drop n) with
    | (some ptr, eolLen) => (n + ptr + eolLen, eolLen, [])
    | (none, eolLen) =>
        (n + eolLen, eolLen,
          [if eolLen = 2 then .expectedCrlf n len (byteAt mem n) (byteAt mem (n + 1))
            else .expectedLf n len (byteAt mem n)])

/-- The output of `php_http_encoding_dechunk`, the offset of the pointer it returns (`none` for
`NULL`) and its warnings. -/
structure DechunkResult where
  decoded : Bytes
  stop : Option ℕ
  warnings : List DechunkWarning
  deriving DecidableEq, Repr

def isTerminator (c : Byte) : Bool := c = 48 || isEol c

theorem le_dechunkEol (mem : Bytes) (len n eolLen : ℕ) : n ≤ (dechunkEol mem len n eolLen).1 := by
  unfold dechunkEol
  split_ifs
  · simp
  · split <;> dsimp only <;> omega

/-- The loop of `php_http_encoding_dechunk` at offset `e` of the memory `mem`, in which the `len`
bytes of the argument come first, then its NUL, then whatever there is. -/
def dechunkLoopFrom (mem : Bytes) (len e eolLen : ℕ) (out : Bytes) (ws : List DechunkWarning) :
    DechunkResult :=
  if e < len then
    if _hstop : (strtoul 16 (mem.drop e)).2 = 0 then
      if e = 0 then ⟨mem.take len, some len, ws ++ [.notEncoded]⟩
      else ⟨[], none, ws ++ [.trash e len]⟩
    else if (strtoul 16 (mem.drop e)).1 = 0 then
      ⟨out, some (e + ((mem.drop e).takeWhile isTerminator).length), ws⟩
    else
      let n := e + (strtoul 16 (mem.drop e)).2
      let data := dechunkEol mem len n eolLen
      let rest := sizeSub len data.1
      let chunkLen := min (strtoul 16 (mem.drop e)).1 rest
      let ws := ws ++ data.2.2 ++
        if rest < (strtoul 16 (mem.drop e)).1 then
          [.truncated (strtoul 16 (mem.drop e)).1 rest data.1 len] else []
      let out := out ++ (mem.drop data.1).take chunkLen
      if chunkLen = rest then ⟨out, some (data.1 + chunkLen), ws⟩
      else dechunkLoopFrom mem len (data.1 + chunkLen + data.2.1) data.2.1 out ws
  else ⟨out, some e, ws⟩
termination_by len - e
decreasing_by
  have := le_dechunkEol mem len (e + (strtoul 16 (mem.drop e)).2) eolLen
  omega

/-- `php_http_encoding_dechunk` on a C string with `beyond` behind its NUL. -/
def encodingDechunk (encoded beyond : Bytes) : DechunkResult :=
  dechunkLoopFrom (encoded ++ nul :: beyond) encoded.length 0 0 [] []

example : encodingDechunk (ascii "3 \r\nabc\r\n0\r\n\r\n") [] = ⟨ascii "abc", some 14, []⟩ := by
  decide +kernel

/-! ### The `chunked_decode` filter -/

/-- `PHP_HTTP_FILTER_BUFFER(chunked_decode)` -/
structure ChunkedDecodeBuffer where
  buffer : Bytes
  hexlen : ℕ
  deriving DecidableEq, Repr

inductive FilterStatus
  | errFatal
  | feedMe
  | passOn
  deriving DecidableEq, Repr

/-- What the filter's loop carries along: `buffer->hexlen` and the new buckets. -/
structure ChunkedDecodeState where
  hexlen : ℕ
  buckets : List Bytes
  deriving DecidableEq, Repr

def chunkedDecodeTurn (flushInc : Bool) (s : ChunkedDecodeState) (b : Bytes) :
    Turn ChunkedDecodeState Byte DechunkExit :=
  if b = [] then .ret .more s b
  else if s.hexlen ≠ 0 then
    if b.length < s.hexlen then
      if flushInc then .next ⟨s.hexlen - b.length, s.buckets ++ [b]⟩ []
      else .ret .more s b
    else .next ⟨0, s.buckets ++ [b.take s.hexlen]⟩ (b.drop s.hexlen)
  else if b.dropWhile isEol = [] then .ret .more s []
  else match locateBinEol (b.dropWhile isEol) with
    | none => .ret .more s (b.dropWhile isEol)
    | some (eolstr, eollen) =>
        if (strtoul 16 (b.dropWhile isEol)).2 = 0 then .ret .failure s (b.dropWhile isEol)
        else if (strtoul 16 (b.dropWhile isEol)).1 = 0 then
          .ret .zeroed s ((b.dropWhile isEol).drop (eolstr + eollen))
        else .next ⟨(strtoul 16 (b.dropWhile isEol)).1, s.buckets⟩
          ((b.dropWhile isEol).drop (eolstr + eollen))

/-- The output so far, in one piece. -/
def ChunkedDecodeState.joined (s : ChunkedDecodeState) : DechunkState :=
  ⟨s.hexlen, s.buckets.flatten⟩

/-- Behind the last chunk's size line the stream moves on over line ends, the filter does not. -/
def stripAtEnd : DechunkExit → Bytes → Bytes
  | .zeroed, b => b.dropWhile isEol
  | _, b => b

theorem dechunkTurn_joined (flushInc : Bool) (s : ChunkedDecodeState) (b : Bytes) :
    dechunkTurn flushInc s.joined b =
      (chunkedDecodeTurn flushInc s b).map ChunkedDecodeState.joined stripAtEnd := by
  have hs : s.joined.hexlen = s.hexlen := rfl
  unfold dechunkTurn chunkedDecodeTurn dechunkSizeLine
  rw [hs]
  cases locateBinEol (b.dropWhile isEol) with
  | none => split_ifs <;> simp_all [ChunkedDecodeState.joined, stripAtEnd]
  | some e => split_ifs <;> simp_all [ChunkedDecodeState.joined, stripAtEnd]

theorem chunkedDecodeTurn_weight {flushInc : Bool} {s s' : ChunkedDecodeState} {b b' : Bytes}
    (h : chunkedDecodeTurn flushInc s b = .next s' b') : b'.length < b.length := by
  have ht := dechunkTurn_joined flushInc s b
  rw [h, Turn.map_next] at ht
  exact dechunkTurn_weight ht

/-- The loop of the filter function -/
def chunkedDecodeLoop (flushInc : Bool) : Machine ChunkedDecodeState Byte DechunkExit where
  turn := chunkedDecodeTurn flushInc
  weight _ b := b.length
  weight_lt := chunkedDecodeTurn_weight

/-- The filter's loop decodes what the stream's loop decodes. -/
theorem dechunkLoop_joined (flushInc : Bool) (s : ChunkedDecodeState) (b : Bytes) :
    let o := (chunkedDecodeLoop flushInc).run s b
    (dechunkLoop flushInc).run s.joined b = (o.1, o.2.1.joined, stripAtEnd o.1 o.2.2) :=
  Machine.run_map (M := chunkedDecodeLoop flushInc) (N := dechunkLoop flushInc)
    ChunkedDecodeState.joined stripAtEnd (dechunkTurn_joined flushInc) s b

/-- One call of the filter: its status, the buckets it puts out and whether it notified
`PHP_STREAM_NOTIFY_COMPLETED`. -/
def chunkedDecode (flushInc closing : Bool) (ctx : ChunkedDecodeBuffer) (bucketsIn : List Bytes) :
    FilterStatus × List Bytes × Bool × ChunkedDecodeBuffer :=
  let (e, s, b) := (chunkedDecodeLoop flushInc).run ⟨ctx.hexlen, []⟩
    (ctx.buffer ++ bucketsIn.flatten)
  if e = .failure then (.errFatal, s.buckets, false, ⟨b, s.hexlen⟩)
  else
    -- flush before close, but only if already waiting for more data
    let flush := closing ∧ s.hexlen ≠ 0 ∧ b ≠ []
    let out := if flush then s.buckets ++ [b] else s.buckets
    let ctx := if flush then ⟨[], 0⟩ else ⟨b, s.hexlen⟩
    (if out = [] then .feedMe else .passOn, out, e = .zeroed, ctx)

end ExtHttp
