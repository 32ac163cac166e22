import ExtHttp.Dechunk

/-!
# What the dechunk stream owes

The stream next to all that it has been fed and all that it has put out, over any sequence of
`dechunk_update` and `dechunk_flush`.
-/
namespace ExtHttp
open BufferLoop

inductive DechunkOp
  | update (flushFull : Bool) (data : Bytes)
  | flush
  deriving DecidableEq, Repr

/-- What a call of `dechunk_update` decodes into `tmp`; one that fails frees it. -/
def dechunkTmp (flushFull : Bool) (ctx : DechunkCtx) (data : Bytes) : Bytes :=
  if ctx.zeroed then []
  else ((dechunkLoop flushFull).run ⟨ctx.hexlen, []⟩ (ctx.buffer ++ data)).2.1.tmp

/-- The stream, what it has taken, and what each call has decoded and whether it has put that
out. -/
structure DechunkLedger where
  fed : Bytes
  outputs : List (Bool × Bytes)
  ctx : DechunkCtx
  deriving DecidableEq, Repr

/-- All that has been put out. -/
def DechunkLedger.delivered (l : DechunkLedger) : Bytes :=
  (l.outputs.filter Prod.fst).flatMap Prod.snd

/-- All that has been decoded. -/
def DechunkLedger.decoded (l : DechunkLedger) : Bytes := l.outputs.flatMap Prod.snd

/-- At its end the stream takes nothing more. -/
def DechunkLedger.step (l : DechunkLedger) : DechunkOp → DechunkLedger
  | .update flushFull data =>
      let (decoded, ctx) := dechunkUpdate flushFull l.ctx data
      ⟨l.fed ++ if l.ctx.zeroed then [] else data,
        l.outputs ++ [(decoded.isSome, decoded.getD (dechunkTmp flushFull l.ctx data))], ctx⟩
  | .flush =>
      let (decoded, ctx) := dechunkFlush l.ctx
      { l with outputs := l.outputs ++ [(true, decoded)], ctx := ctx }

def dechunkOps (ops : List DechunkOp) : DechunkLedger :=
  ops.foldl DechunkLedger.step ⟨[], [], dechunkInit⟩

example : dechunkOps [.update false (ascii "5\r\nhe"), .flush, .update true (ascii "l")] =
    ⟨ascii "5\r\nhel", [(true, []), (true, ascii "he"), (true, ascii "l")], ⟨[], 2, false⟩⟩ := by
  decide +kernel

/-- `line` is a size line in front of `rest` from which `size` has been read. What has been read may
begin with more than the line. -/
def SizeLine (line rest : Bytes) (size : ℕ) : Prop :=
  ∃ text i l stop, locateBinEol text = some (i, l) ∧ line = text.take (i + l) ∧
    text <+: line ++ rest ∧
    strtoul 16 text = (size, stop) ∧ stop ≠ 0

theorem SizeLine.append {line rest : Bytes} {size : ℕ} (h : SizeLine line rest size) (u : Bytes) :
    SizeLine line (rest ++ u) size := by
  obtain ⟨text, i, l, stop, hl, hline, hpre, hsize⟩ := h
  refine ⟨text, i, l, stop, hl, hline, ?_, hsize⟩
  rw [← List.append_assoc]
  exact hpre.trans (List.prefix_append _ _)

/-- The text of complete chunks and line ends, and the data in it. -/
inductive Decoded : Bytes → Bytes → Prop
  | nil : Decoded [] []
  | eol {t out w : Bytes} : Decoded t out → (∀ c ∈ w, isEol c = true) → Decoded (t ++ w) out
  | chunk {t out line data rest : Bytes} : Decoded t out →
      SizeLine line (data ++ rest) data.length → Decoded (t ++ (line ++ data)) (out ++ data)

/-- The account between the turns: no chunk is open, or of one of `size` bytes `del` has been
decoded, and delivered, and `hexlen` are missing. -/
inductive Account (fed decoded delivered buffer : Bytes) : ℕ → Prop
  | idle {t : Bytes} : fed = t ++ buffer → Decoded t decoded →
    Account fed decoded delivered buffer 0
  | chunk {t line before kept del : Bytes} {size hexlen : ℕ} :
    fed = t ++ (line ++ (del ++ buffer)) →
      Decoded t before → SizeLine line (del ++ buffer) size → decoded = before ++ del →
      delivered = kept ++ del → del.length + hexlen = size → 0 < hexlen →
      Account fed decoded delivered buffer hexlen

namespace Account
variable {fed decoded delivered buffer : Bytes} {hexlen : ℕ}

theorem feed (h : Account fed decoded delivered buffer hexlen) (data : Bytes) :
    Account (fed ++ data) decoded delivered (buffer ++ data) hexlen := by
  cases h with
  | idle hfed hdec => exact .idle (by rw [hfed, List.append_assoc]) hdec
  | chunk hfed hdec hline hdel hkept hsize hpos =>
    have hline := hline.append data
    rw [List.append_assoc] at hline
    exact .chunk (by simp [hfed]) hdec hline hdel hkept hsize hpos

/-- Less than what is missing is put out. -/
theorem flush (h : Account fed decoded delivered buffer hexlen) (hlt : buffer.length < hexlen) :
    Account fed (decoded ++ buffer) (delivered ++ buffer) [] (hexlen - buffer.length) := by
  cases h with
  | idle => exact absurd hlt (Nat.not_lt_zero _)
  | @chunk t line before kept del size hexlen hfed hdec hline hdel hkept hsize hpos =>
    have hline : SizeLine line (del ++ buffer ++ []) size := by rwa [List.append_nil]
    have hput : delivered ++ buffer = kept ++ (del ++ buffer) := by rw [hkept, List.append_assoc]
    refine .chunk (by simp [hfed]) hdec hline ?_ hput ?_ (Nat.sub_pos_of_lt hlt)
    · rw [hdel, List.append_assoc]
    · rw [List.length_append]
      omega

/-- What is missing is decoded, and the chunk is complete. -/
theorem complete (h : Account fed decoded delivered buffer hexlen) (hpos : hexlen ≠ 0)
    (hle : hexlen ≤ buffer.length) :
    Account fed (decoded ++ buffer.take hexlen) (delivered ++ buffer.take hexlen)
      (buffer.drop hexlen) 0 := by
  cases h with
  | idle => exact absurd rfl hpos
  | @chunk t line before kept del size hexlen hfed hdec hline hdel hkept hsize hpos =>
    have hlen : (del ++ buffer.take hexlen).length = size := by
      rw [List.length_append, List.length_take_of_le hle, hsize]
    have hsplit : del ++ buffer = (del ++ buffer.take hexlen) ++ buffer.drop hexlen := by
      rw [List.append_assoc, List.take_append_drop]
    rw [hsplit, ← hlen] at hline
    refine .idle (t := t ++ (line ++ (del ++ buffer.take hexlen))) ?_ ?_
    · rw [hfed, hsplit]
      simp
    · rw [hdel, List.append_assoc]
      exact .chunk hdec hline

theorem dropEol (h : Account fed decoded delivered buffer 0) :
    Account fed decoded delivered (buffer.dropWhile isEol) 0 := by
  cases h with
  | @idle t hfed hdec =>
    refine .idle (t := t ++ buffer.takeWhile isEol) ?_
      (.eol hdec fun c hc => List.mem_takeWhile_imp hc)
    rw [hfed, List.append_assoc, List.takeWhile_append_dropWhile]
  | chunk _ _ _ _ _ _ hpos => exact absurd hpos (Nat.lt_irrefl 0)

/-- The size line opens a chunk. -/
theorem openChunk (h : Account fed decoded delivered buffer 0) {i l : ℕ}
    (he : locateBinEol buffer = some (i, l)) (hstop : (strtoul 16 buffer).2 ≠ 0) :
    Account fed decoded delivered (buffer.drop (i + l)) (strtoul 16 buffer).1 := by
  have hn : strtoul 16 buffer = ((strtoul 16 buffer).1, (strtoul 16 buffer).2) := Prod.mk.eta.symm
  generalize (strtoul 16 buffer).1 = size at hn ⊢
  cases h with
  | @idle t hfed hdec =>
    have hline : SizeLine (buffer.take (i + l)) (buffer.drop (i + l)) size :=
      ⟨buffer, i, l, _, he, rfl, by rw [List.take_append_drop], hn, hstop⟩
    by_cases hzero : size = 0
    · rw [hzero] at hline ⊢
      refine .idle (t := t ++ buffer.take (i + l)) ?_ ?_
      · rw [hfed, List.append_assoc, List.take_append_drop]
      · have hchunk := Decoded.chunk hdec (show SizeLine _ ([] ++ _) ([] : Bytes).length from hline)
        rwa [List.append_nil, List.append_nil] at hchunk
    · have hline : SizeLine (buffer.take (i + l)) ([] ++ buffer.drop (i + l)) size := by
        rwa [List.nil_append]
      have hput : delivered = delivered ++ [] := (List.append_nil delivered).symm
      refine .chunk ?_ hdec hline (by simp) hput (by simp) (Nat.pos_of_ne_zero hzero)
      rw [hfed, List.nil_append, List.take_append_drop]
  | chunk _ _ _ _ _ _ hpos => exact absurd hpos (Nat.lt_irrefl 0)

/-- Where no chunk is open, it is of no consequence what has been put out. -/
theorem free (h : Account fed decoded delivered buffer 0) (delivered' : Bytes) :
    Account fed decoded delivered' buffer 0 := by
  cases h with
  | idle hfed hdec => exact .idle hfed hdec
  | chunk _ _ _ _ _ _ hpos => exact absurd hpos (Nat.lt_irrefl 0)

end Account

/-! ### The calls -/

/-- The account of a call that began with `decoded` and `delivered`. -/
def DechunkState.Account (fed decoded delivered : Bytes) (s : DechunkState) (b : Bytes) : Prop :=
  ExtHttp.Account fed (decoded ++ s.tmp) (delivered ++ s.tmp) b s.hexlen

/-- What holds when the loop of `dechunk_update` is left. -/
def Settled (fed decoded delivered : Bytes) (e : DechunkExit) (s : DechunkState)
    (b : Bytes) : Prop :=
  s.Account fed decoded delivered b ∧ (s.hexlen ≠ 0 → b.length < s.hexlen) ∧
    (e ≠ .more → s.hexlen = 0)

variable {flushFull : Bool} {fed decoded delivered : Bytes} {s s' : DechunkState} {b b' : Bytes}

theorem DechunkState.Account.dropEol (h : s.Account fed decoded delivered b) (hhex : s.hexlen = 0) :
    ExtHttp.Account fed (decoded ++ s.tmp) (delivered ++ s.tmp) (b.dropWhile isEol) 0 := by
  rw [DechunkState.Account, hhex] at h
  exact ExtHttp.Account.dropEol h

theorem dechunkTurn_account (h : s.Account fed decoded delivered b)
    (ht : dechunkTurn flushFull s b = .next s' b') : s'.Account fed decoded delivered b' := by
  unfold dechunkTurn at ht
  split_ifs at ht with hb hhex hshort hflush heol
  · cases ht
    have := ExtHttp.Account.flush h hshort
    rwa [List.append_assoc, List.append_assoc] at this
  · cases ht
    have := ExtHttp.Account.complete h hhex (Nat.not_lt.mp hshort)
    rwa [List.append_assoc, List.append_assoc] at this
  · have hdrop := h.dropEol (not_not.mp hhex)
    unfold dechunkSizeLine at ht
    split at ht
    · cases ht
    · next i l he =>
      split_ifs at ht with hstop hzero
      cases ht
      exact hdrop.openChunk he hstop

theorem dechunkTurn_settled (h : s.Account fed decoded delivered b) {e : DechunkExit}
    (ht : dechunkTurn flushFull s b = .ret e s' b') : Settled fed decoded delivered e s' b' := by
  have hidle : ∀ {b}, s.hexlen = 0 →
      ExtHttp.Account fed (decoded ++ s.tmp) (delivered ++ s.tmp) b 0 →
      ∀ e, Settled fed decoded delivered e s b := fun hhex haccount e =>
    ⟨by rwa [DechunkState.Account, hhex], fun hne => absurd hhex hne, fun _ => hhex⟩
  unfold dechunkTurn at ht
  split_ifs at ht with hb hhex hshort hflush heol
  · cases ht
    refine ⟨h, fun hne => ?_, fun he => absurd rfl he⟩
    rw [hb]
    exact Nat.pos_of_ne_zero hne
  · cases ht
    exact ⟨h, fun _ => hshort, fun he => absurd rfl he⟩
  · cases ht
    have hdrop := h.dropEol (not_not.mp hhex)
    rw [heol] at hdrop
    exact hidle (not_not.mp hhex) hdrop _
  · have hdrop := h.dropEol (not_not.mp hhex)
    unfold dechunkSizeLine at ht
    split at ht
    · cases ht
      exact hidle (not_not.mp hhex) hdrop _
    · next i l he =>
      split_ifs at ht with hstop hzero
      · cases ht
        exact hidle (not_not.mp hhex) hdrop _
      · cases ht
        have hopen := hdrop.openChunk he hstop
        rw [hzero] at hopen
        exact hidle (not_not.mp hhex) hopen.dropEol _

theorem dechunkLoop_settled (flushFull : Bool) (h : s.Account fed decoded delivered b) :
    let o := (dechunkLoop flushFull).run s b
    Settled fed decoded delivered o.1 o.2.1 o.2.2 :=
  Machine.run_rule (M := dechunkLoop flushFull) (I := DechunkState.Account fed decoded delivered)
    (Q := Settled fed decoded delivered) (fun h ht => dechunkTurn_account h ht)
    (fun h ht => dechunkTurn_settled h ht) h

/-- The account is in order, less is buffered than the open chunk misses, and none is open at the
end. -/
def DechunkLedger.Balanced (l : DechunkLedger) : Prop :=
  Account l.fed l.decoded l.delivered l.ctx.buffer l.ctx.hexlen ∧
    (l.ctx.hexlen ≠ 0 → l.ctx.buffer.length < l.ctx.hexlen)

theorem DechunkLedger.Balanced.update {l : DechunkLedger} (h : l.Balanced) (flushFull : Bool)
    (data : Bytes) : (l.step (.update flushFull data)).Balanced := by
  unfold DechunkLedger.step dechunkUpdate dechunkTmp
  dsimp only
  by_cases hz : l.ctx.zeroed = true
  · rw [if_pos hz, if_pos hz, if_pos hz]
    refine ⟨?_, h.2⟩
    simpa [DechunkLedger.decoded, DechunkLedger.delivered] using h.1
  · rw [if_neg hz, if_neg hz, if_neg hz]
    have hstart : DechunkState.Account (l.fed ++ data) l.decoded l.delivered ⟨l.ctx.hexlen, []⟩
        (l.ctx.buffer ++ data) := by
      have hfeed := h.1.feed data
      rwa [DechunkState.Account, List.append_nil, List.append_nil]
    have hrun := dechunkLoop_settled flushFull hstart
    dsimp only at hrun
    generalize (dechunkLoop flushFull).run ⟨l.ctx.hexlen, []⟩ (l.ctx.buffer ++ data) = o at hrun
    obtain ⟨e, s, b⟩ := o
    obtain ⟨haccount, hlt, hexit⟩ := hrun
    cases e with
    | more =>
      refine ⟨?_, hlt⟩
      simpa [DechunkState.Account, DechunkLedger.decoded, DechunkLedger.delivered] using haccount
    | zeroed =>
      refine ⟨?_, hlt⟩
      simpa [DechunkState.Account, DechunkLedger.decoded, DechunkLedger.delivered] using haccount
    | failure =>
      have hzero : s.hexlen = 0 := hexit (by simp)
      rw [DechunkState.Account, hzero] at haccount
      have hfree := haccount.free l.delivered
      refine ⟨?_, hlt⟩
      simpa [DechunkLedger.decoded, DechunkLedger.delivered, hzero] using hfree

theorem DechunkLedger.Balanced.flush {l : DechunkLedger} (h : l.Balanced) :
    (l.step .flush).Balanced := by
  unfold DechunkLedger.step dechunkFlush
  dsimp only
  by_cases hhex : l.ctx.hexlen = 0
  · rw [if_neg (not_not.mpr hhex)]
    refine ⟨?_, h.2⟩
    simpa [DechunkLedger.decoded, DechunkLedger.delivered] using h.1
  · rw [if_pos hhex]
    have hflush := h.1.flush (h.2 hhex)
    refine ⟨?_, fun hne => Nat.pos_of_ne_zero hne⟩
    simpa [DechunkLedger.decoded, DechunkLedger.delivered] using hflush

theorem dechunkOps_balanced (ops : List DechunkOp) : (dechunkOps ops).Balanced := by
  have hrun : ∀ l : DechunkLedger, l.Balanced → (ops.foldl DechunkLedger.step l).Balanced := by
    induction ops with
    | nil => exact fun l h => h
    | cons op ops ih =>
      intro l h
      refine ih _ ?_
      cases op with
      | update flushFull data => exact h.update flushFull data
      | flush => exact h.flush
  exact hrun _ ⟨.idle rfl .nil, fun h => absurd rfl h⟩

/-- What is put out is what is decoded, in its order, without what the failing calls have freed. -/
theorem DechunkLedger.delivered_sublist (l : DechunkLedger) : l.delivered.Sublist l.decoded := by
  obtain ⟨fed, outputs, ctx⟩ := l
  unfold DechunkLedger.delivered DechunkLedger.decoded
  induction outputs with
  | nil => exact .slnil
  | cons o outputs ih =>
    obtain ⟨put, out⟩ := o
    cases put with
    | true => exact (List.Sublist.refl out).append ih
    | false => exact ih.trans (List.sublist_append_right out _)

/-- In front of the buffer there is a line that `strtoul` reads no size from. -/
structure DechunkCtx.Unreadable (ctx : DechunkCtx) : Prop where
  hexlen : ctx.hexlen = 0
  zeroed : ctx.zeroed = false
  line : locateBinEol ctx.buffer ≠ none
  size : (strtoul 16 ctx.buffer).2 = 0

theorem dechunkTurn_failure (h : dechunkTurn flushFull s b = .ret .failure s' b') :
    s'.hexlen = 0 ∧ locateBinEol b' ≠ none ∧ (strtoul 16 b').2 = 0 := by
  unfold dechunkTurn at h
  split_ifs at h with hb hhex hshort hflush heol
  · cases h
  · cases h
  · cases h
  · unfold dechunkSizeLine at h
    split at h
    · cases h
    · next i l he =>
      split_ifs at h with hstop hzero
      · cases h
        exact ⟨not_not.mp hhex, by simp [he], hstop⟩
      · cases h

/-- A call fails behind the end, or on such a line. -/
theorem dechunkUpdate_failure {ctx : DechunkCtx} {data : Bytes}
    (h : (dechunkUpdate flushFull ctx data).1 = none) :
    ctx.zeroed = true ∨ (dechunkUpdate flushFull ctx data).2.Unreadable := by
  unfold dechunkUpdate at h ⊢
  by_cases hz : ctx.zeroed = true
  · exact .inl hz
  · rw [if_neg hz] at h ⊢
    obtain ⟨d, -, hd⟩ := Machine.exists_last_turn (dechunkLoop flushFull) ⟨ctx.hexlen, []⟩
      (ctx.buffer ++ data)
    generalize (dechunkLoop flushFull).run ⟨ctx.hexlen, []⟩ (ctx.buffer ++ data) = o at h hd
    obtain ⟨e, s, b⟩ := o
    cases e with
    | more => cases h
    | zeroed => cases h
    | failure =>
      obtain ⟨hhex, hline, hsize⟩ := dechunkTurn_failure hd
      exact .inr ⟨hhex, rfl, hline, hsize⟩

/-- Each call has one output, and what is not put out is of a call that has failed. -/
theorem DechunkLedger.step_outputs (l : DechunkLedger) (op : DechunkOp) :
    ∃ put out, (l.step op).outputs = l.outputs ++ [(put, out)] ∧
      (put = false → l.ctx.zeroed = true ∧ out = [] ∨ (l.step op).ctx.Unreadable) := by
  cases op with
  | flush => exact ⟨true, _, rfl, by simp⟩
  | update flushFull data =>
    refine ⟨_, _, rfl, fun hput => ?_⟩
    have hnone := Option.not_isSome_iff_eq_none.mp (Bool.eq_false_iff.mp hput)
    rcases dechunkUpdate_failure hnone with hz | hline
    · refine .inl ⟨hz, ?_⟩
      rw [hnone, dechunkTmp, if_pos hz]
      rfl
    · exact .inr hline

/-- Whatever the calls, less is buffered than an open chunk misses, so what `hexlen` is decreased by
is never more than it is; and what has been decoded, and of an open chunk put out, and what is
buffered are the data so far. Only what a call has decoded that fails behind it, on a line without a
size, is not put out. -/
theorem dechunk_conservation (ops : List DechunkOp) :
    let l := dechunkOps ops
    (l.ctx.hexlen ≠ 0 → l.ctx.buffer.length < l.ctx.hexlen) ∧
      (l.ctx.hexlen = 0 → ∃ t, l.fed = t ++ l.ctx.buffer ∧ Decoded t l.decoded) ∧
      (l.ctx.hexlen ≠ 0 → ∃ t line before kept del size,
        l.fed = t ++ (line ++ (del ++ l.ctx.buffer)) ∧ Decoded t before ∧
        SizeLine line (del ++ l.ctx.buffer) size ∧ l.decoded = before ++ del ∧
        l.delivered = kept ++ del ∧ del.length + l.ctx.hexlen = size) ∧
      l.delivered.Sublist l.decoded ∧
      ∀ op, ∃ put out, (dechunkOps (ops ++ [op])).outputs = l.outputs ++ [(put, out)] ∧
        (put = false → l.ctx.zeroed = true ∧ out = [] ∨
          (dechunkOps (ops ++ [op])).ctx.Unreadable) := by
  intro l
  obtain ⟨haccount, hlt⟩ := dechunkOps_balanced ops
  change Account l.fed l.decoded l.delivered l.ctx.buffer l.ctx.hexlen at haccount
  have hcalls : ∀ op, dechunkOps (ops ++ [op]) = l.step op := by
    simp [dechunkOps, l]
  refine ⟨hlt, fun hzero => ?_, fun hne => ?_, l.delivered_sublist, fun op => ?_⟩
  · rw [hzero] at haccount
    cases haccount with
    | idle hfed hdec => exact ⟨_, hfed, hdec⟩
    | chunk _ _ _ _ _ _ hpos => exact absurd hpos (Nat.lt_irrefl 0)
  · generalize l.ctx.hexlen = hexlen at haccount hne
    cases haccount with
    | idle => exact absurd rfl hne
    | chunk hfed hdec hline hdel hkept hsize hpos =>
      exact ⟨_, _, _, _, _, _, hfed, hdec, hline, hdel, hkept, hsize⟩
  · rw [hcalls op]
    exact l.step_outputs op

/-- The byte of the first chunk is decoded by a call that fails on the next line, and is not put
out. -/
theorem dechunk_freed :
    let l := dechunkOps [.update false (ascii "1\r\na\r\n \r\n")]
    l.fed = ascii "1\r\na\r\n" ++ l.ctx.buffer ∧ Decoded (ascii "1\r\na\r\n") (ascii "a") ∧
      l.delivered = [] ∧ l.outputs = [(false, ascii "a")] ∧ l.ctx = ⟨ascii " \r\n", 0, false⟩ := by
  have hline : SizeLine (ascii "1\r\n") (ascii "a" ++ []) (ascii "a").length :=
    ⟨ascii "1\r\na", 1, 2, 1, by decide +kernel, by decide +kernel, by decide +kernel,
      by decide +kernel, by decide⟩
  have hchunk : Decoded (ascii "1\r\na") (ascii "a") := Decoded.nil.chunk hline
  have hdecoded : Decoded (ascii "1\r\na" ++ crlf) (ascii "a") := hchunk.eol (by decide +kernel)
  refine ⟨by decide +kernel, hdecoded, by decide +kernel, by decide +kernel, by decide +kernel⟩

end ExtHttp
