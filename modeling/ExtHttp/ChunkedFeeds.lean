import ExtHttp.ChunkedText
import ExtHttp.DechunkSplit

/-!
# A chunked text in pieces

How far the dechunk stream has come in a chunked text that is fed piece by piece, when no piece ends
between the CR and the LF of an end of line.
-/
namespace ExtHttp
open BufferLoop

/-- `hexlen` and what is still to be read, when `out` has been decoded: ends of line in front of
more chunks, or what is left of the data of a chunk. -/
inductive ChunkPosition (rest whole : Bytes) : ℕ → Bytes → Bytes → Prop
  | line {w out : Bytes} {cs : List Chunk} : (∀ c ∈ w, isEol c = true) →
      whole = out ++ chunkedData cs → ChunkPosition rest whole 0 (w ++ (chunkedText cs ++ rest)) out
  | data {d out : Bytes} {cs : List Chunk} : d ≠ [] → whole = out ++ (d ++ chunkedData cs) →
      ChunkPosition rest whole d.length (d ++ (crlf ++ (chunkedText cs ++ rest))) out

/-- No end of line is cut between `b` and `u`. -/
def NotCut (b u : Bytes) : Prop := b.getLast? = some cr → u.head? ≠ some lf

instance (b u : Bytes) : Decidable (NotCut b u) := inferInstanceAs (Decidable (_ → _))

theorem NotCut.suffix {b b' u : Bytes} (h : NotCut b u) (hb : b' <:+ b) : NotCut b' u := by
  intro hlast
  obtain ⟨t, rfl⟩ := hb
  have hne : b' ≠ [] := by
    rintro rfl
    cases hlast
  exact h (by rwa [List.getLast?_append_of_ne_nil _ hne])

theorem chunkedText_head (cs : List Chunk) (rest : Bytes) :
    ∃ c t, chunkedText cs ++ rest = c :: t ∧ isBaseDigit 16 c = true := by
  cases cs with
  | nil => exact ⟨48, crlf ++ crlf ++ rest, rfl, by decide⟩
  | cons c cs =>
    obtain ⟨d, ds, hd⟩ := List.exists_cons_of_ne_nil c.size_ne
    refine ⟨d, ds ++ (c.extText ++ crlf ++ (c.data ++ crlf) ++ (chunkedText cs ++ rest)), ?_,
      c.size_hex d (by simp [hd])⟩
    simp [Chunk.text, hd]

/-- Ends of line in front of a text that begins with none are all there is to drop. -/
theorem eol_split {b u w t : Bytes} {c : Byte} (hw : ∀ c ∈ w, isEol c = true) (hc : isEol c = false)
    (h : b ++ u = w ++ c :: t) :
    b.dropWhile isEol = [] ∧ (∃ w', (∀ c ∈ w', isEol c = true) ∧ u = w' ++ c :: t) ∨
      b.dropWhile isEol ≠ [] ∧ b.dropWhile isEol ++ u = c :: t := by
  rcases List.append_eq_append_iff.mp h with ⟨w', rfl, hu⟩ | ⟨b₁, rfl, ht⟩
  · refine .inl ⟨List.dropWhile_eq_nil_iff.mpr fun x hx => hw x (by simp [hx]), w', ?_, hu⟩
    exact fun x hx => hw x (by simp [hx])
  · have hdrop : (w ++ b₁).dropWhile isEol = b₁.dropWhile isEol := by
      rw [List.dropWhile_append, List.dropWhile_eq_nil_iff.mpr hw]
      rfl
    cases b₁ with
    | nil =>
      refine .inl ⟨by rw [hdrop]; rfl, [], by simp, ?_⟩
      rw [List.nil_append] at ht ⊢
      exact ht.symm
    | cons d b₁ =>
      obtain ⟨rfl, rfl⟩ := List.cons_eq_cons.mp ht
      have hkeep : (c :: b₁).dropWhile isEol = c :: b₁ := List.dropWhile_cons_of_neg (by simp [hc])
      rw [hdrop, hkeep]
      exact .inr ⟨by simp, rfl⟩

/-- What a turn makes of the position. -/
inductive ChunkTurn (rest whole u out : Bytes) : Turn DechunkState Byte DechunkExit → Prop
  | next {s : DechunkState} {b : Bytes} :
    ChunkPosition rest whole s.hexlen (b ++ u) (out ++ s.tmp) →
      ChunkTurn rest whole u out (.next s b)
  | more {s : DechunkState} {b : Bytes} :
    ChunkPosition rest whole s.hexlen (b ++ u) (out ++ s.tmp) →
      ChunkTurn rest whole u out (.ret .more s b)
  | zeroed {s : DechunkState} {b : Bytes} : whole = out ++ s.tmp →
      ChunkTurn rest whole u out (.ret .zeroed s b)

variable {rest whole u out : Bytes} {s : DechunkState} {b : Bytes}

theorem dechunkSizeLine_position {cs : List Chunk} (hb : b ≠ [])
    (htext : b ++ u = chunkedText cs ++ rest) (hwhole : whole = out ++ s.tmp ++ chunkedData cs)
    (hs : s.hexlen = 0) (hcut : NotCut b u) :
    ChunkTurn rest whole u out (dechunkSizeLine s b) := by
  obtain ⟨c, t, hhead, hdigit⟩ := chunkedText_head cs rest
  obtain ⟨c', b₁, rfl⟩ := List.exists_cons_of_ne_nil hb
  obtain ⟨rfl, -⟩ := List.cons_eq_cons.mp (htext.trans hhead)
  have heol := (isBaseDigit_plain hdigit).1
  have hdrop : (c' :: b₁).dropWhile isEol = c' :: b₁ := List.dropWhile_cons_of_neg (by simp [heol])
  cases he : locateBinEol (c' :: b₁) with
  | none =>
    unfold dechunkSizeLine
    rw [he]
    refine .more ?_
    rw [hs, htext]
    exact .line (w := []) (by simp) hwhole
  | some e =>
    obtain ⟨i, l⟩ := e
    have hbounds := locateBinEol_bounds he
    have hpos : 0 < i := by
      rw [locateBinEol, if_neg (by simp [heol])] at he
      obtain ⟨_, -, hi⟩ := Option.map_eq_some_iff.mp he
      cases hi
      exact Nat.succ_pos _
    have hsettled : SizeLineSettled u (c' :: b₁) := by
      refine sizeLineSettled_of_line fun j k hj => ?_
      rw [hdrop, he] at hj
      cases hj
      rw [hdrop]
      refine ⟨⟨c', ?_, (isBaseDigit_sixteen_not_isSpace hdigit).1⟩, fun hend hl hcr => hcut ?_⟩
      · obtain ⟨j, rfl⟩ := Nat.exists_eq_succ_of_ne_zero hpos.ne'
        exact List.mem_cons_self
      · rw [List.getLast?_eq_getElem?, ← hcr]
        congr 1
        omega
    obtain ⟨hnum, hloc⟩ := hsettled (i, l) (by rw [hdrop]; exact he)
    rw [hdrop, htext] at hnum hloc
    cases cs with
    | nil =>
      have hzero : strtoul 16 (c' :: b₁) = (0, 1) := hnum.symm.trans (strtoul_lastChunk rest)
      rw [dechunkSizeLine_some s he hzero, if_neg Nat.one_ne_zero, if_pos rfl]
      exact .zeroed (by simpa [chunkedData] using hwhole)
    | cons c cs =>
      rw [chunkedText_cons, List.append_assoc, c.strtoul_text] at hnum
      rw [chunkedText_cons, List.append_assoc, c.locateBinEol_text, ← hnum] at hloc
      have hlen : c.data.length ≠ 0 := by simpa using c.data_ne
      have hstop : c.size.length ≠ 0 := by simpa using c.size_ne
      have hil := Option.some.inj (hloc hlen)
      cases hil
      rw [dechunkSizeLine_some s he hnum.symm, if_neg hstop, if_neg hlen]
      have hdata : (c' :: b₁).drop ((c.size ++ c.extText).length + 2) ++ u =
          c.data ++ (crlf ++ (chunkedText cs ++ rest)) := by
        rw [← List.drop_append_of_le_length hbounds.2.2.1, htext, chunkedText_cons,
          List.append_assoc, c.text_drop]
      refine .next ?_
      rw [hdata]
      exact .data c.data_ne (by rw [hwhole, chunkedData_cons])

theorem dechunkTurn_position (h : ChunkPosition rest whole s.hexlen (b ++ u) (out ++ s.tmp))
    (hcut : NotCut b u) : ChunkTurn rest whole u out (dechunkTurn false s b) := by
  generalize htext : b ++ u = text at h
  generalize hhex : s.hexlen = hexlen at h
  generalize hout : out ++ s.tmp = decoded at h
  cases h with
  | @line w decoded cs hw hwhole =>
    obtain ⟨c, t, hhead, hdigit⟩ := chunkedText_head cs rest
    have heol := (isBaseDigit_plain hdigit).1
    rw [hhead] at htext
    obtain ⟨hb, w', hw', hu⟩ | ⟨hb, hb₁⟩ := eol_split hw heol htext
    · have hturn : dechunkTurn false s b = .ret .more s [] := by
        rw [← dechunkTurn_dropWhile false hhex, hb, dechunkTurn_nil]
      rw [hturn]
      refine .more ?_
      rw [hhex, List.nil_append, hu, ← hhead, hout]
      exact .line hw' hwhole
    · rw [dechunkTurn_size false hhex hb]
      rw [← hhead] at hb₁
      rw [← hout] at hwhole
      exact dechunkSizeLine_position hb hb₁ hwhole hhex (hcut.suffix (List.dropWhile_suffix isEol))
  | @data d decoded cs hd hwhole =>
    have hne : s.hexlen ≠ 0 := by rw [hhex]; simpa using hd
    by_cases hshort : b.length < s.hexlen
    · rw [dechunkTurn_short hne hshort]
      refine .more ?_
      rw [hhex, htext, hout]
      exact .data hd hwhole
    · have hle := Nat.not_lt.mp hshort
      have hb : b ≠ [] := by
        rintro rfl
        exact hne (Nat.le_zero.mp hle)
      rw [dechunkTurn_data false hb hne hle]
      rw [hhex] at hle ⊢
      have htake : b.take d.length = d := by
        have := congrArg (List.take d.length) htext
        rwa [List.take_append_of_le_length hle, List.take_left] at this
      have hdrop : b.drop d.length ++ u = crlf ++ (chunkedText cs ++ rest) := by
        have := congrArg (List.drop d.length) htext
        rwa [List.drop_append_of_le_length hle, List.drop_left] at this
      rw [htake]
      refine .next ?_
      rw [hdrop]
      have hcrlf : ∀ c ∈ crlf, isEol c = true := by simp [crlf, isEol]
      refine .line (w := crlf) hcrlf ?_
      rw [hwhole, ← hout]
      simp only [List.append_assoc]

theorem chunkTurn_next {s : DechunkState} {b : Bytes} (h : ChunkTurn rest whole u out (.next s b)) :
    ChunkPosition rest whole s.hexlen (b ++ u) (out ++ s.tmp) := by
  cases h
  assumption

/-- A call goes on to another position, or decodes what is left of the text. -/
theorem dechunkUpdate_position {ctx : DechunkCtx} {p : Bytes} (hz : ctx.zeroed = false)
    (h : ChunkPosition rest whole ctx.hexlen (ctx.buffer ++ p ++ u) out)
    (hcut : NotCut (ctx.buffer ++ p) u) :
    ∃ dec ctx', dechunkUpdate false ctx p = (some dec, ctx') ∧ ctx'.buffer <:+ ctx.buffer ++ p ∧
      if dechunkDone ctx' then whole = out ++ dec
      else ChunkPosition rest whole ctx'.hexlen (ctx'.buffer ++ u) (out ++ dec) := by
  have hrule := Machine.run_rule (M := dechunkLoop false)
    (I := fun s b => ChunkPosition rest whole s.hexlen (b ++ u) (out ++ s.tmp) ∧
      b <:+ ctx.buffer ++ p)
    (Q := fun e s b => ChunkTurn rest whole u out (.ret e s b) ∧ b <:+ ctx.buffer ++ p)
    (fun {s b s' b'} hI ht => by
      have hturn := dechunkTurn_position hI.1 (hcut.suffix hI.2)
      have hsuffix := dechunkTurn_suffix false s b
      rw [show dechunkTurn false s b = _ from ht] at hturn hsuffix
      exact ⟨chunkTurn_next hturn, hsuffix.trans hI.2⟩)
    (fun {s b r s' b'} hI ht => by
      have hturn := dechunkTurn_position hI.1 (hcut.suffix hI.2)
      have hsuffix := dechunkTurn_suffix false s b
      rw [show dechunkTurn false s b = _ from ht] at hturn hsuffix
      exact ⟨hturn, hsuffix.trans hI.2⟩)
    (s := ⟨ctx.hexlen, []⟩) (b := ctx.buffer ++ p) ⟨by rwa [List.append_nil], List.suffix_refl _⟩
  unfold dechunkUpdate
  rw [hz, if_neg Bool.false_ne_true]
  generalize (dechunkLoop false).run ⟨ctx.hexlen, []⟩ (ctx.buffer ++ p) = o at hrule
  obtain ⟨e, s, b⟩ := o
  obtain ⟨hturn, hsuffix⟩ := hrule
  cases hturn with
  | more hpos => exact ⟨_, _, rfl, hsuffix, hpos⟩
  | zeroed hwhole => exact ⟨_, _, rfl, hsuffix, hwhole⟩

end ExtHttp
