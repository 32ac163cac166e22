import ExtHttp.ChunkedEncode
import ExtHttp.SeekStream

/-!
# Message bodies

`php_http_message_body_t` and what is read from it and appended to it. Its stream is a temporary one
or a file: a read is only short at the end, and a write is never short.
-/
namespace ExtHttp

/-- `php_http_message_body_t` -/
structure MessageBody where
  stream : SeekStream Byte
  boundary : Option CString
  deriving DecidableEq, Repr

/-! ### Callbacks -/

/-- `php_http_pass_callback_t` and what it works on. It returns -1 where there is `false` here. -/
abbrev PassCallback (σ : Type) := σ → Bytes → Bool × σ

/-- A callback gets one piece after the other until it fails. -/
def passAll {σ : Type} (cb : PassCallback σ) : σ → List Bytes → Bool × σ
  | s, [] => (true, s)
  | s, buf :: bufs => if (cb s buf).1 then passAll cb (cb s buf).2 bufs else (false, (cb s buf).2)

/-- What every call keeps up, of the state and all that has been passed, holds in the end. -/
theorem passAll_invariant {σ : Type} {cb : PassCallback σ} {I : σ → Bytes → Prop}
    (hcb : ∀ s done buf, I s done → (cb s buf).1 = true ∧ I (cb s buf).2 (done ++ buf)) {s : σ}
    {done : Bytes} (h : I s done) (bufs : List Bytes) :
    (passAll cb s bufs).1 = true ∧ I (passAll cb s bufs).2 (done ++ bufs.flatten) := by
  induction bufs generalizing s done with
  | nil => simpa [passAll] using h
  | cons buf bufs ih =>
    obtain ⟨hpassed, hnext⟩ := hcb s done buf h
    rw [passAll, if_pos hpassed, List.flatten_cons, ← List.append_assoc]
    exact ih hnext

/-- A boundary of `php_http_message_body_boundary`: the format `"%x.%x"`. -/
def randomBoundary (num : UInt32 × UInt32) : CString where
  bytes := formatHex num.1.toNat ++ [dot] ++ formatHex num.2.toNat
  noNul := by
    have hhex : ∀ n, nul ∉ formatHex n := fun n h =>
      absurd (formatHex_isBaseDigit n nul h) (by decide)
    simp only [List.mem_append, List.mem_singleton, not_or]
    exact ⟨⟨hhex _, by decide⟩, hhex _⟩

namespace MessageBody

/-- `php_http_message_body_size` -/
def size (body : MessageBody) : ℕ := body.stream.data.length

/-! ### Reading -/

/-- The loop of `php_http_message_body_to_callback`; `left` is what is left of the stream. -/
def toCallbackLoop {σ : Type} (cb : PassCallback σ) (s : σ) (forlen : ℕ) (left : Bytes) :
    Bool × σ :=
  if left = [] ∨ forlen = 0 then (true, s)
  else
    let buf := left.take (min forlen 4096)
    let o := cb s buf
    if o.1 = false then o
    -- `sizeof(buf)` is the size of a pointer
    else if buf.length < min forlen 8 then o
    else toCallbackLoop cb o.2 (forlen - buf.length) (left.drop buf.length)
termination_by left.length
decreasing_by
  have hend : left ≠ [] ∧ forlen ≠ 0 := not_or.mp ‹_›
  have hleft : 0 < left.length := List.length_pos_iff.mpr hend.1
  simp only [List.length_drop, List.length_take]
  omega

/-- `php_http_message_body_to_callback` -/
def toCallback {σ : Type} (body : MessageBody) (cb : PassCallback σ) (s : σ) (offset forlen : ℕ) :
    Bool × σ :=
  toCallbackLoop cb s (if forlen = 0 then 2 ^ 64 - 1 else forlen) (body.stream.seek offset).rest

theorem take_piece (forlen n : ℕ) (left : Bytes) :
    left.take (min forlen n) ++
      (left.drop (left.take (min forlen n)).length).take
        (forlen - (left.take (min forlen n)).length) =
        left.take forlen := by
  generalize hk : (left.take (min forlen n)).length = k
  rw [List.length_take] at hk
  have hpiece : left.take (min forlen n) = left.take k := by
    rw [← hk, List.take_eq_take_min]
  rw [hpiece, ← List.take_add, Nat.add_sub_cancel' (by omega)]

/-- The callback gets what has been asked for, in pieces. -/
theorem toCallbackLoop_pieces {σ : Type} (cb : PassCallback σ) (s : σ) (forlen : ℕ) (left : Bytes) :
    ∃ bufs : List Bytes, bufs.flatten = left.take forlen ∧
      toCallbackLoop cb s forlen left = passAll cb s bufs := by
  fun_induction toCallbackLoop cb s forlen left with
  | case1 s forlen left hend =>
    refine ⟨[], ?_, rfl⟩
    rcases hend with rfl | rfl <;> simp
  | case2 s forlen left hend buf o hfail =>
    refine ⟨[buf, (left.drop buf.length).take (forlen - buf.length)], ?_, ?_⟩
    · rw [List.flatten_cons, List.flatten_singleton]
      exact take_piece forlen 4096 left
    · have hstop : ¬ (cb s buf).1 = true := by simpa using hfail
      rw [passAll, if_neg hstop]
      exact Prod.ext hfail rfl
  | case3 s forlen left hend buf o hpassed hshort =>
    refine ⟨[buf], ?_, ?_⟩
    · rw [List.flatten_singleton]
      simp only [buf, List.length_take] at hshort ⊢
      rw [List.take_of_length_le (by omega), List.take_of_length_le (by omega)]
    · have hgo : (cb s buf).1 = true := by simpa using hpassed
      rw [passAll, if_pos hgo]
      exact Prod.ext hgo rfl
  | case4 s forlen left hend buf o hpassed hshort ih =>
    obtain ⟨bufs, hbufs, hrun⟩ := ih
    refine ⟨buf :: bufs, ?_, ?_⟩
    · rw [List.flatten_cons, hbufs]
      exact take_piece forlen 4096 left
    · have hgo : (cb s buf).1 = true := by simpa using hpassed
      rw [hrun, passAll, if_pos hgo]

/-- The callback gets the bytes that have been asked for, and each of its calls keeps up what the
last one left. -/
theorem toCallback_invariant {σ : Type} {cb : PassCallback σ} {I : σ → Bytes → Prop}
    (hcb : ∀ s done buf, I s done → (cb s buf).1 = true ∧ I (cb s buf).2 (done ++ buf)) {s : σ}
    {done : Bytes} (h : I s done) (body : MessageBody) (offset : ℕ) {forlen : ℕ}
    (hforlen : forlen ≠ 0) :
    (body.toCallback cb s offset forlen).1 = true ∧
      I (body.toCallback cb s offset forlen).2
        (done ++ (body.stream.data.drop offset).take forlen) := by
  obtain ⟨bufs, hbufs, hrun⟩ := toCallbackLoop_pieces cb s forlen (body.stream.seek offset).rest
  have hdone := passAll_invariant hcb h bufs
  rw [hbufs, ← hrun] at hdone
  rw [toCallback, if_neg hforlen]
  exact hdone

/-- Asked for nothing in particular, it gets everything. -/
theorem toCallback_all {σ : Type} {cb : PassCallback σ} {I : σ → Bytes → Prop}
    (hcb : ∀ s done buf, I s done → (cb s buf).1 = true ∧ I (cb s buf).2 (done ++ buf)) {s : σ}
    {done : Bytes} (h : I s done) {body : MessageBody} (hsize : body.size < 2 ^ 64) :
    (body.toCallback cb s 0 0).1 = true ∧
      I (body.toCallback cb s 0 0).2 (done ++ body.stream.data) := by
  have hall := toCallback_invariant hcb h body 0 (by norm_num : 2 ^ 64 - 1 ≠ 0)
  rw [List.drop_zero, List.take_of_length_le (by rw [size] at hsize; omega)] at hall
  exact hall

/-! ### Appending -/

/-- `php_http_message_body_append` -/
def append (body : MessageBody) (buf : Bytes) : MessageBody :=
  { body with stream := body.stream.seekEnd.write nul buf }

/-- `php_stream_copy_to_stream_ex` into the stream of a body: it is written where the stream is. -/
def copyFrom (body : MessageBody) (input : Bytes) : MessageBody :=
  { body with stream := body.stream.write nul input }

/-- `php_stream_truncate_set_size` on the stream of a body. -/
def truncate (body : MessageBody) (size : ℕ) : MessageBody :=
  { body with stream := body.stream.truncate nul size }

/-- `php_http_message_body_boundary`; `num` is what the generator gives, if it is asked. -/
def getBoundary (body : MessageBody) (num : UInt32 × UInt32) : CString × MessageBody :=
  match body.boundary with
  | some boundary => (boundary, body)
  | none => (randomBoundary num, { body with boundary := some (randomBoundary num) })

@[simp] theorem append_boundary (body : MessageBody) (buf : Bytes) :
    (body.append buf).boundary = body.boundary := rfl

@[simp] theorem copyFrom_boundary (body : MessageBody) (input : Bytes) :
    (body.copyFrom input).boundary = body.boundary := rfl

@[simp] theorem truncate_boundary (body : MessageBody) (size : ℕ) :
    (body.truncate size).boundary = body.boundary := rfl

@[simp] theorem append_data (body : MessageBody) (buf : Bytes) :
    (body.append buf).stream.data = body.stream.data ++ buf :=
  SeekStream.write_data_of_atEnd body.stream.seekEnd_atEnd nul buf

theorem append_atEnd (body : MessageBody) (buf : Bytes) : (body.append buf).stream.AtEnd :=
  SeekStream.write_atEnd body.stream.seekEnd_atEnd nul buf

theorem copyFrom_data {body : MessageBody} (h : body.stream.AtEnd) (input : Bytes) :
    (body.copyFrom input).stream.data = body.stream.data ++ input :=
  SeekStream.write_data_of_atEnd h nul input

end MessageBody

end ExtHttp
