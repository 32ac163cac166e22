import ExtHttp.BodyStream

/-!
# Bodies on streams with short reads

`php_http_message_body_to_callback` on any stream: a read may return less than is asked for, as
those of sockets and filters do, and the end may only be seen once a read returns nothing.
-/
namespace ExtHttp

/-- How a stream answers: what each read returns at most, and whether the end is known as soon as
all has been read. -/
structure ReadSizes where
  sizes : ℕ → ℕ
  eager : Bool

namespace ReadSizes

/-- What `php_stream_read` returns: at least a byte if there is one. -/
def read (r : ReadSizes) (count : ℕ) (left : Bytes) : Bytes :=
  left.take (min count (max 1 (r.sizes 0)))

/-- The answers to the reads that follow. -/
def next (r : ReadSizes) : ReadSizes := ⟨fun n => r.sizes (n + 1), r.eager⟩

theorem read_length (r : ReadSizes) (count : ℕ) (left : Bytes) :
    (r.read count left).length = min (min count (max 1 (r.sizes 0))) left.length :=
  List.length_take

theorem read_pos (r : ReadSizes) {count : ℕ} {left : Bytes} (hcount : count ≠ 0)
    (hleft : left ≠ []) :
    0 < (r.read count left).length := by
  have hpos := List.length_pos_iff.mpr hleft
  rw [read_length]
  omega

theorem read_append (r : ReadSizes) (count : ℕ) (left : Bytes) :
    r.read count left ++ left.drop (r.read count left).length = left :=
  List.prefix_iff_eq_append.mp (List.take_prefix ..)

theorem read_length_le (r : ReadSizes) (count : ℕ) (left : Bytes) :
    (r.read count left).length ≤ count := by
  rw [read_length]
  omega

/-- A read takes the first part of what is wanted. -/
theorem take_read (r : ReadSizes) {count want : ℕ} (hcount : count ≤ want) (left : Bytes) :
    r.read count left ++ (left.drop (r.read count left).length).take
      (want - (r.read count left).length) =
      left.take want := by
  have hle := (r.read_length_le count left).trans hcount
  conv_rhs => rw [← r.read_append count left]
  rw [List.take_append, List.take_of_length_le hle]

end ReadSizes

namespace MessageBody

/-- The loop of `php_http_message_body_to_callback`; `left` is what is left of the stream. -/
def toCallbackReads {σ : Type} (cb : PassCallback σ) (r : ReadSizes) (s : σ) (forlen : ℕ)
    (left : Bytes) :
    Bool × σ :=
  if left = [] ∧ r.eager = true then (true, s)
  else
    let buf := r.read (min forlen 4096) left
    let o := if buf = [] then (true, s) else cb s buf
    if o.1 = false then o
    -- `sizeof(buf)` is the size of a pointer
    else if buf.length < min forlen 8 then o
    else if forlen - buf.length = 0 then o
    else toCallbackReads cb r.next o.2 (forlen - buf.length) (left.drop buf.length)
termination_by left.length
decreasing_by
  have hshort : ¬ (r.read (min forlen 4096) left).length < min forlen 8 := ‹_›
  have hmore : ¬ forlen - (r.read (min forlen 4096) left).length = 0 := ‹_›
  have hlen := congrArg List.length (r.read_append (min forlen 4096) left)
  rw [List.length_append] at hlen
  omega

/-- `php_http_message_body_to_callback` on a stream that answers so. -/
def toCallbackFrom {σ : Type} (body : MessageBody) (cb : PassCallback σ) (r : ReadSizes) (s : σ)
    (offset forlen : ℕ) : Bool × σ :=
  toCallbackReads cb r s (if forlen = 0 then 2 ^ 64 - 1 else forlen) (body.stream.seek offset).rest

/-- What the stream returns if it is read until nothing is wanted any more. -/
def reads (r : ReadSizes) (want : ℕ) (left : Bytes) : List Bytes :=
  if left = [] ∨ want = 0 then []
  else
    let buf := r.read (min want 4096) left
    buf :: reads r.next (want - buf.length) (left.drop buf.length)
termination_by left.length
decreasing_by
  have hwanted : left ≠ [] ∧ want ≠ 0 := not_or.mp ‹_›
  have hpos := r.read_pos (by omega : min want 4096 ≠ 0) hwanted.1
  have hlen := congrArg List.length (r.read_append (min want 4096) left)
  rw [List.length_append] at hlen
  omega

/-- The reads the loop makes: the first one that is shorter than a pointer ends it. -/
def upToShort : ℕ → List Bytes → List Bytes
  | _, [] => []
  | forlen, buf :: more =>
      if buf.length < min forlen 8 then [buf] else buf :: upToShort (forlen - buf.length) more

theorem reads_end {r : ReadSizes} {want : ℕ} {left : Bytes} (h : left = [] ∨ want = 0) :
    reads r want left = [] := by
  rw [reads, if_pos h]

theorem reads_cons {r : ReadSizes} {want : ℕ} {left : Bytes} (h : ¬ (left = [] ∨ want = 0)) :
    reads r want left = r.read (min want 4096) left ::
      reads r.next (want - (r.read (min want 4096) left).length)
        (left.drop (r.read (min want 4096) left).length) := by
  conv_lhs => rw [reads, if_neg h]

/-- Reading on gives what is wanted. -/
theorem reads_flatten (r : ReadSizes) (want : ℕ) (left : Bytes) :
    (reads r want left).flatten = left.take want := by
  fun_induction reads r want left with
  | case1 r want left hend =>
    rcases hend with rfl | rfl <;> simp
  | case2 r want left hmore buf ih =>
    rw [List.flatten_cons, ih]
    exact r.take_read (by omega) left

theorem reads_ne_nil (r : ReadSizes) (want : ℕ) (left : Bytes) :
    ∀ buf ∈ reads r want left, buf ≠ [] := by
  fun_induction reads r want left with
  | case1 => simp
  | case2 r want left hmore buf ih =>
    obtain ⟨hleft, hwant⟩ := not_or.mp hmore
    intro piece hmem
    rcases List.mem_cons.mp hmem with rfl | hmem
    · exact List.ne_nil_of_length_pos (r.read_pos (by omega) hleft)
    · exact ih piece hmem

theorem read_eq_nil_iff (r : ReadSizes) {forlen : ℕ} (hforlen : forlen ≠ 0) (left : Bytes) :
    r.read (min forlen 4096) left = [] ↔ left = [] := by
  constructor
  · intro hbuf
    by_contra hleft
    have hpos := r.read_pos (by omega : min forlen 4096 ≠ 0) hleft
    rw [hbuf] at hpos
    exact absurd hpos (by simp)
  · rintro rfl
    exact List.take_nil

/-- One turn of the loop while there is something left. -/
theorem upToShort_reads {r : ReadSizes} {forlen : ℕ} (hforlen : forlen ≠ 0) {left : Bytes}
    (hleft : left ≠ []) :
    upToShort forlen (reads r forlen left) =
      if (r.read (min forlen 4096) left).length < min forlen 8 then [r.read (min forlen 4096) left]
      else r.read (min forlen 4096) left ::
        upToShort (forlen - (r.read (min forlen 4096) left).length)
          (reads r.next (forlen - (r.read (min forlen 4096) left).length)
            (left.drop (r.read (min forlen 4096) left).length)) := by
  rw [reads_cons (not_or.mpr ⟨hleft, hforlen⟩), upToShort]

/-- The callback gets the reads up to the first short one. -/
theorem toCallbackReads_pieces {σ : Type} (cb : PassCallback σ) (r : ReadSizes) (s : σ) {forlen : ℕ}
    (hforlen : forlen ≠ 0) (left : Bytes) :
    toCallbackReads cb r s forlen left = passAll cb s (upToShort forlen (reads r forlen left)) := by
  fun_induction toCallbackReads cb r s forlen left with
  | case1 r s forlen left hend =>
    rw [reads_end (Or.inl hend.1)]
    rfl
  | case2 r s forlen left hmore buf o hfail =>
    have hbuf : buf ≠ [] := by
      intro hbuf
      have hnone : o = (true, s) := if_pos hbuf
      rw [hnone] at hfail
      exact absurd hfail (by simp)
    have hcall : o = cb s buf := if_neg hbuf
    have hleft : left ≠ [] := fun h => hbuf ((read_eq_nil_iff r hforlen left).mpr h)
    rw [hcall] at hfail ⊢
    have hstop : ∀ more, passAll cb s (buf :: more) = cb s buf := by
      intro more
      rw [passAll, if_neg (by simp [hfail])]
      exact Prod.ext hfail.symm rfl
    rw [upToShort_reads hforlen hleft]
    by_cases hshort : (r.read (min forlen 4096) left).length < min forlen 8
    · rw [if_pos hshort, hstop]
    · rw [if_neg hshort, hstop]
  | case3 r s forlen left hmore buf o hpassed hshort =>
    by_cases hleft : left = []
    · have hnone : o = (true, s) := if_pos ((read_eq_nil_iff r hforlen left).mpr hleft)
      rw [hnone, reads_end (Or.inl hleft)]
      rfl
    · have hcall : o = cb s buf := if_neg fun h => hleft ((read_eq_nil_iff r hforlen left).mp h)
      rw [hcall, Bool.not_eq_false] at hpassed
      rw [upToShort_reads hforlen hleft, if_pos hshort, passAll, if_pos hpassed, hcall]
      exact Prod.ext hpassed rfl
  | case4 r s forlen left hmore buf o hpassed hshort hdone =>
    have hleft : left ≠ [] := by
      intro hleft
      have hbuf : buf = [] := (read_eq_nil_iff r hforlen left).mpr hleft
      rw [hbuf, List.length_nil] at hdone
      omega
    have hcall : o = cb s buf := if_neg fun h => hleft ((read_eq_nil_iff r hforlen left).mp h)
    rw [hcall, Bool.not_eq_false] at hpassed
    rw [upToShort_reads hforlen hleft, if_neg hshort, reads_end (Or.inr hdone), upToShort, passAll,
      if_pos hpassed, hcall]
    exact Prod.ext hpassed rfl
  | case5 r s forlen left hmore buf o hpassed hshort hgo ih =>
    have hleft : left ≠ [] := by
      intro hleft
      have hbuf : buf = [] := (read_eq_nil_iff r hforlen left).mpr hleft
      rw [hbuf, List.length_nil] at hshort
      omega
    have hcall : o = cb s buf := if_neg fun h => hleft ((read_eq_nil_iff r hforlen left).mp h)
    rw [hcall, Bool.not_eq_false] at hpassed
    rw [ih hgo, upToShort_reads hforlen hleft, if_neg hshort, passAll, if_pos hpassed, hcall]

/-- The reads that are passed are all there are unless one before the last is a short one. -/
theorem upToShort_flatten_iff {forlen : ℕ} {bufs : List Bytes} (hne : ∀ buf ∈ bufs, buf ≠ [])
    (hlen : bufs.flatten.length ≤ forlen) :
    (upToShort forlen bufs).flatten = bufs.flatten ↔ ∀ buf ∈ bufs.dropLast, 8 ≤ buf.length := by
  induction bufs generalizing forlen with
  | nil => simp [upToShort]
  | cons buf more ih =>
    rw [List.flatten_cons, List.length_append] at hlen
    rw [upToShort]
    cases more with
    | nil => split_ifs <;> simp [upToShort]
    | cons buf' more =>
      have hmore : 0 < (buf' :: more).flatten.length := by
        have hpos := List.length_pos_iff.mpr (hne buf' (by simp))
        rw [List.flatten_cons, List.length_append]
        omega
      rw [List.dropLast_cons_cons, List.forall_mem_cons, List.flatten_cons]
      by_cases hshort : buf.length < min forlen 8
      · rw [if_pos hshort, List.flatten_singleton]
        refine iff_of_false (fun heq => ?_) (by omega)
        have hnone := congrArg List.length heq
        rw [List.length_append] at hnone
        omega
      · rw [if_neg hshort, List.flatten_cons, List.append_cancel_left_eq,
          ih (fun b hb => hne b (List.mem_cons_of_mem _ hb)) (by omega)]
        exact (and_iff_right (by omega)).symm

/-- On a stream that returns what is asked for this is the loop on a file. -/
theorem toCallbackReads_file {σ : Type} (cb : PassCallback σ) {r : ReadSizes}
    (hfull : ∀ n, 4096 ≤ r.sizes n) (s : σ) {forlen : ℕ} (hforlen : forlen ≠ 0) (left : Bytes) :
    toCallbackReads cb r s forlen left = toCallbackLoop cb s forlen left := by
  have hread : ∀ r : ReadSizes, (∀ n, 4096 ≤ r.sizes n) → ∀ forlen left,
      r.read (min forlen 4096) left = left.take (min forlen 4096) := by
    intro r hfull forlen left
    have hzero := hfull 0
    rw [ReadSizes.read, show min (min forlen 4096) (max 1 (r.sizes 0)) = min forlen 4096 by omega]
  induction hn : left.length using Nat.strong_induction_on generalizing r s forlen left with
  | _ n ih =>
    subst hn
    rw [toCallbackReads, toCallbackLoop, hread r hfull]
    by_cases hleft : left = []
    · rw [if_pos (Or.inl hleft)]
      by_cases heager : r.eager = true
      · rw [if_pos ⟨hleft, heager⟩]
      · rw [if_neg (fun h => heager h.2)]
        simp only [hleft, List.take_nil, if_true, Bool.true_eq_false, if_false, List.length_nil]
        rw [if_pos (by omega)]
    · have hbuf : left.take (min forlen 4096) ≠ [] := by
        rw [← hread r hfull]
        exact fun h => hleft ((read_eq_nil_iff r hforlen left).mp h)
      rw [if_neg (fun h => hleft h.1), if_neg (not_or.mpr ⟨hleft, hforlen⟩)]
      simp only [if_neg hbuf]
      by_cases hfail : (cb s (left.take (min forlen 4096))).1 = false
      · rw [if_pos hfail, if_pos hfail]
      · rw [if_neg hfail, if_neg hfail]
        by_cases hshort : (left.take (min forlen 4096)).length < min forlen 8
        · rw [if_pos hshort, if_pos hshort]
        · rw [if_neg hshort, if_neg hshort]
          by_cases hdone : forlen - (left.take (min forlen 4096)).length = 0
          · rw [if_pos hdone, hdone, toCallbackLoop, if_pos (Or.inr rfl)]
            exact Prod.ext (by simpa using hfail) rfl
          · rw [if_neg hdone]
            refine ih _ ?_ (fun n => hfull (n + 1)) _ hdone _ rfl
            rw [List.length_drop]
            have hpos := List.length_pos_iff.mpr hleft
            have hpiece := List.length_pos_iff.mpr hbuf
            omega

/-- A callback that keeps what it gets. -/
def gather : PassCallback Bytes := fun s buf => (true, s ++ buf)

theorem passAll_gather (bufs : List Bytes) (s : Bytes) :
    passAll gather s bufs = (true, s ++ bufs.flatten) := by
  induction bufs generalizing s with
  | nil => simp [passAll]
  | cons buf bufs ih =>
    have hgather : (gather s buf).1 = true := rfl
    rw [passAll, if_pos hgather, ih, List.flatten_cons, gather, List.append_assoc]

/-- What is asked for: from `offset` on `forlen` bytes, or all there are. -/
def slice (body : MessageBody) (offset forlen : ℕ) : Bytes :=
  (body.stream.data.take (if forlen = 0 then body.size
    else min (offset + forlen) body.size)).drop offset

theorem slice_eq {body : MessageBody} (hsize : body.size < 2 ^ 63) (offset forlen : ℕ) :
    body.slice offset forlen =
      ((body.stream.seek offset).rest).take (if forlen = 0 then 2 ^ 64 - 1 else forlen) := by
  have hrest : (body.stream.seek offset).rest = body.stream.data.drop offset := rfl
  rw [hrest, slice, size]
  rw [size] at hsize
  by_cases hall : forlen = 0
  · rw [if_pos hall, if_pos hall, List.take_length, List.take_of_length_le]
    rw [List.length_drop]
    omega
  · rw [if_neg hall, if_neg hall, ← List.take_eq_take_min, List.drop_take, Nat.add_sub_cancel_left]

/-- The callback gets what is asked for if all reads but the last return eight bytes or more, and
only then. -/
theorem toCallbackFrom_exact_iff (body : MessageBody) (hsize : body.size < 2 ^ 63) (r : ReadSizes)
    (offset forlen : ℕ) :
    body.toCallbackFrom gather r [] offset forlen = (true, body.slice offset forlen) ↔
      ∀ buf ∈ (reads r (if forlen = 0 then 2 ^ 64 - 1 else forlen)
        (body.stream.data.drop offset)).dropLast, 8 ≤ buf.length := by
  have hpos : (if forlen = 0 then 2 ^ 64 - 1 else forlen) ≠ 0 := by
    split_ifs with hall
    · norm_num
    · exact hall
  rw [slice_eq hsize, toCallbackFrom]
  generalize (if forlen = 0 then 2 ^ 64 - 1 else forlen) = want at hpos ⊢
  change toCallbackReads gather r [] want (body.stream.data.drop offset) =
    (true, (body.stream.data.drop offset).take want) ↔ _
  have hall := reads_flatten r want (body.stream.data.drop offset)
  rw [toCallbackReads_pieces gather r [] hpos, passAll_gather, List.nil_append, Prod.mk.injEq,
    eq_self_iff_true, true_and, ← hall]
  refine upToShort_flatten_iff (reads_ne_nil r want _) ?_
  rw [hall, List.length_take]
  omega

theorem toCallbackFrom_exact_eight :
    (MessageBody.mk ⟨ascii "some text", 0⟩ none).toCallbackFrom gather ⟨fun _ => 8, true⟩ [] 1 0 =
        (true, (MessageBody.mk ⟨ascii "some text", 0⟩ none).slice 1 0) ↔
      ∀ buf ∈ (reads ⟨fun _ => 8, true⟩ (2 ^ 64 - 1) ((ascii "some text").drop 1)).dropLast,
        8 ≤ buf.length :=
  toCallbackFrom_exact_iff _ (by decide) _ _ _

/-- A read of four bytes is taken for the end. -/
theorem toCallbackFrom_short :
    (MessageBody.mk ⟨ascii "some text", 0⟩ none).toCallbackFrom gather ⟨fun _ => 4, true⟩ [] 0 0 ≠
      (true, (MessageBody.mk ⟨ascii "some text", 0⟩ none).slice 0 0) := by
  rw [toCallbackFrom, if_pos rfl, toCallbackReads_pieces gather _ _ (by norm_num),
    upToShort_reads (by norm_num) (by decide), if_pos (by decide +kernel), passAll_gather]
  decide +kernel

end MessageBody

end ExtHttp
