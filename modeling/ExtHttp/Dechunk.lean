import ExtHttp.BufferLoop
import ExtHttp.Strtoul

/-! The dechunk encoding stream of `php_http_encoding.c`: one turn of the loop of `dechunk_update`,
the loop, and the stream operations over it. Allocation never fails here. -/
namespace ExtHttp
open BufferLoop

/-- `struct dechunk_ctx` -/
structure DechunkCtx where
  buffer : Bytes
  hexlen : ℕ
  zeroed : Bool
  deriving DecidableEq, Repr

def dechunkInit : DechunkCtx := ⟨[], 0, false⟩

/-- What the loop of `dechunk_update` carries along besides the buffer. -/
structure DechunkState where
  hexlen : ℕ
  tmp : Bytes
  deriving DecidableEq, Repr

/-- How the loop was left. -/
inductive DechunkExit
  | more
  | zeroed
  | failure
  deriving DecidableEq, Repr

/-- The part of the turn that reads `<chunk size hex><chunk extension><eol>`. -/
def dechunkSizeLine (s : DechunkState) (b : Bytes) : Turn DechunkState Byte DechunkExit :=
  match locateBinEol b with
  | none => .ret .more s b
  | some (eolstr, eollen) =>
      if (strtoul 16 b).2 = 0 then .ret .failure s b
      else if (strtoul 16 b).1 = 0 then
        .ret .zeroed s ((b.drop (eolstr + eollen)).dropWhile isEol)
      else .next ⟨(strtoul 16 b).1, s.tmp⟩ (b.drop (eolstr + eollen))

def dechunkTurn (flushFull : Bool) (s : DechunkState) (b : Bytes) :
    Turn DechunkState Byte DechunkExit :=
  if b = [] then .ret .more s b
  else if s.hexlen ≠ 0 then
    -- the size of the chunk is known and its data awaited
    if b.length < s.hexlen then
      if flushFull then .next ⟨s.hexlen - b.length, s.tmp ++ b⟩ []
      else .ret .more s b
    else .next ⟨0, s.tmp ++ b.take s.hexlen⟩ (b.drop s.hexlen)
  else if b.dropWhile isEol = [] then .ret .more s []
  else dechunkSizeLine s (b.dropWhile isEol)

theorem dechunkSizeLine_weight {s s' : DechunkState} {b b' : Bytes}
    (h : dechunkSizeLine s b = .next s' b') : b'.length < b.length := by
  unfold dechunkSizeLine at h
  split at h
  · cases h
  · next i l he =>
    have hb := locateBinEol_bounds he
    split_ifs at h
    cases h
    simp only [List.length_drop]
    omega

theorem dechunkTurn_weight {flushFull : Bool} {s s' : DechunkState} {b b' : Bytes}
    (h : dechunkTurn flushFull s b = .next s' b') : b'.length < b.length := by
  unfold dechunkTurn at h
  have hdrop : (b.dropWhile isEol).length ≤ b.length := (List.dropWhile_sublist _).length_le
  by_cases hb : b = []
  · simp [hb] at h
  · have hpos := List.length_pos_of_ne_nil hb
    split_ifs at h
    · cases h
      exact hpos
    · cases h
      simp only [List.length_drop]
      omega
    · exact (dechunkSizeLine_weight h).trans_le hdrop

/-- The loop of `dechunk_update` -/
def dechunkLoop (flushFull : Bool) : Machine DechunkState Byte DechunkExit where
  turn := dechunkTurn flushFull
  weight _ b := b.length
  weight_lt := dechunkTurn_weight

/-- `none` is `FAILURE`, which leaves no output: what the failing call had decoded is thrown
away. -/
def dechunkUpdate (flushFull : Bool) (ctx : DechunkCtx) (data : Bytes) :
    Option Bytes × DechunkCtx :=
  if ctx.zeroed then (none, ctx)
  else
    let (e, s, b) := (dechunkLoop flushFull).run ⟨ctx.hexlen, []⟩ (ctx.buffer ++ data)
    match e with
    | .failure => (none, ⟨b, s.hexlen, false⟩)
    | .more => (some s.tmp, ⟨b, s.hexlen, false⟩)
    | .zeroed => (some s.tmp, ⟨b, s.hexlen, true⟩)

/-- The output of `dechunk_flush`, which always succeeds. -/
def dechunkFlush (ctx : DechunkCtx) : Bytes × DechunkCtx :=
  if ctx.hexlen ≠ 0 then (ctx.buffer,
    { ctx with hexlen := ctx.hexlen - ctx.buffer.length, buffer := [] })
  else ([], ctx)

def dechunkDone (ctx : DechunkCtx) : Bool := ctx.zeroed

example : dechunkUpdate false dechunkInit (ascii "5;x=y\r\nhello\r\n0\r\n\r\nrest") =
    (some (ascii "hello"), ⟨ascii "rest", 0, true⟩) := by decide +kernel

/-! ### The turns of the loop, one by one -/

section Turns
variable (flushFull : Bool) {s : DechunkState} {b : Bytes}

@[simp] theorem dechunkTurn_nil : dechunkTurn flushFull s [] = .ret .more s [] := by
  simp [dechunkTurn]

theorem dechunkTurn_data (hb : b ≠ []) (hs : s.hexlen ≠ 0) (hl : s.hexlen ≤ b.length) :
    dechunkTurn flushFull s b = .next ⟨0, s.tmp ++ b.take s.hexlen⟩ (b.drop s.hexlen) := by
  simp [dechunkTurn, hb, hs, Nat.not_lt.mpr hl]

theorem dechunkTurn_short (hs : s.hexlen ≠ 0) (hl : b.length < s.hexlen) :
    dechunkTurn false s b = .ret .more s b := by
  by_cases hb : b = [] <;> simp [dechunkTurn, hb, hs, hl]

/-- Line ends in front of a size line are of no consequence. -/
theorem dechunkTurn_dropWhile (hs : s.hexlen = 0) :
    dechunkTurn flushFull s (b.dropWhile isEol) = dechunkTurn flushFull s b := by
  by_cases hb : b.dropWhile isEol = []
  · by_cases hb' : b = [] <;> simp [dechunkTurn, hs, hb, hb']
  · have : b ≠ [] := by rintro rfl; simp at hb
    simp [dechunkTurn, hs, this, hb, List.dropWhile_idempotent (p := isEol) b]

theorem dechunkTurn_size (hs : s.hexlen = 0) (hb : b.dropWhile isEol ≠ []) :
    dechunkTurn flushFull s b = dechunkSizeLine s (b.dropWhile isEol) := by
  have : b ≠ [] := by rintro rfl; simp at hb
  simp [dechunkTurn, this, hs, hb]

theorem dechunkSizeLine_some {b : Bytes} {i l n k : ℕ} (s : DechunkState)
    (he : locateBinEol b = some (i, l)) (hn : strtoul 16 b = (n, k)) :
    dechunkSizeLine s b =
      if k = 0 then .ret .failure s b
      else if n = 0 then .ret .zeroed s ((b.drop (i + l)).dropWhile isEol)
      else .next ⟨n, s.tmp⟩ (b.drop (i + l)) := by
  simp [dechunkSizeLine, he, hn]

end Turns

theorem dechunkSizeLine_suffix (s : DechunkState) (b : Bytes) :
    (dechunkSizeLine s b).buffer <:+ b := by
  unfold dechunkSizeLine
  split
  · exact List.suffix_refl _
  · split_ifs
    · exact List.suffix_refl _
    · exact (List.dropWhile_suffix isEol).trans (List.drop_suffix _ _)
    · exact List.drop_suffix _ _

/-- A turn only takes bytes from the front. -/
theorem dechunkTurn_suffix (flushFull : Bool) (s : DechunkState) (b : Bytes) :
    (dechunkTurn flushFull s b).buffer <:+ b := by
  unfold dechunkTurn
  split_ifs
  · exact List.suffix_refl b
  · exact List.nil_suffix
  · exact List.suffix_refl b
  · exact List.drop_suffix _ _
  · exact List.nil_suffix
  · exact (dechunkSizeLine_suffix s _).trans (List.dropWhile_suffix isEol)

@[simp] theorem dechunkLoop_nil (flushFull : Bool) (s : DechunkState) :
    (dechunkLoop flushFull).run s [] = (.more, s, []) :=
  Machine.run_ret (M := dechunkLoop flushFull) (dechunkTurn_nil flushFull (s := s))

theorem dechunkTurn_dropWhile_append (flushFull : Bool) {s : DechunkState} (hs : s.hexlen = 0)
    (b u : Bytes) :
    (dechunkLoop flushFull).turn s (b.dropWhile isEol ++ u) =
      (dechunkLoop flushFull).turn s (b ++ u) := by
  change dechunkTurn flushFull s _ = dechunkTurn flushFull s _
  rw [← dechunkTurn_dropWhile flushFull (b := b ++ u) hs,
    ← dechunkTurn_dropWhile flushFull (b := _ ++ u) hs,
    dropWhile_dropWhile_append]

theorem dechunkLoop_dropWhile (flushFull : Bool) {s : DechunkState} (hs : s.hexlen = 0)
    (b u : Bytes) :
    (dechunkLoop flushFull).run s (b.dropWhile isEol ++ u) =
      (dechunkLoop flushFull).run s (b ++ u) := by
  have hturn := dechunkTurn_dropWhile_append flushFull hs b u
  cases h : (dechunkLoop flushFull).turn s (b ++ u) with
  | next s' b' => rw [Machine.run_next h, Machine.run_next (hturn.trans h)]
  | ret r s' b' => rw [Machine.run_ret h, Machine.run_ret (hturn.trans h)]

/-- The state of a loop that began with `out` decoded already. -/
def DechunkState.behind (out : Bytes) (s : DechunkState) : DechunkState :=
  ⟨s.hexlen, out ++ s.tmp⟩

theorem dechunkTurn_behind (flushFull : Bool) (out : Bytes) (s : DechunkState) (b : Bytes) :
    dechunkTurn flushFull (s.behind out) b =
      (dechunkTurn flushFull s b).map (DechunkState.behind out) fun _ b => b := by
  have hsize : ∀ b, dechunkSizeLine (s.behind out) b =
      (dechunkSizeLine s b).map (DechunkState.behind out) fun _ b => b := by
    intro b
    unfold dechunkSizeLine
    cases locateBinEol b with
    | none => rfl
    | some e => dsimp only; split_ifs <;> rfl
  unfold dechunkTurn
  rw [hsize]
  simp only [apply_ite (Turn.map (DechunkState.behind out) _), Turn.map_next, Turn.map_ret]
  simp only [DechunkState.behind, List.append_assoc]

/-- What had been decoded before the loop stays in front of what it decodes. -/
theorem dechunkLoop_behind (flushFull : Bool) (out : Bytes) (s : DechunkState) (b : Bytes) :
    (dechunkLoop flushFull).run (s.behind out) b =
      (((dechunkLoop flushFull).run s b).1, ((dechunkLoop flushFull).run s b).2.1.behind out,
        ((dechunkLoop flushFull).run s b).2.2) :=
  Machine.run_map (M := dechunkLoop flushFull) (N := dechunkLoop flushFull)
    (DechunkState.behind out) (fun _ b => b) (dechunkTurn_behind flushFull out) s b

end ExtHttp
