import ExtHttp.ChunkedDecoders

/-!
# The memory that the one-shot decoder touches

`php_http_encoding_dechunk` reads a C string of `len` bytes at the beginning of `mem` and writes to
`len + 1` allocated bytes.
-/
namespace ExtHttp

/-- What a turn copies: where the data of its chunk is, how long the end of line in front of it was,
what `rest` is then, and how many bytes are copied. -/
structure ChunkCopy where
  data : ℕ
  eolLen : ℕ
  rest : ℕ
  length : ℕ
  deriving DecidableEq, Repr

/-- The copy of the turn at offset `e`, if it comes to a chunk. -/
def chunkCopy (mem : Bytes) (len e eolLen : ℕ) : Option ChunkCopy :=
  if e < len ∧ (strtoul 16 (mem.drop e)).2 ≠ 0 ∧ (strtoul 16 (mem.drop e)).1 ≠ 0 then
    let data := dechunkEol mem len (e + (strtoul 16 (mem.drop e)).2) eolLen
    let rest := sizeSub len data.1
    some ⟨data.1, data.2.1, rest, min (strtoul 16 (mem.drop e)).1 rest⟩
  else none

theorem chunkCopy_some {mem : Bytes} {len e eolLen : ℕ} {c : ChunkCopy}
    (h : chunkCopy mem len e eolLen = some c) : e < len ∧ e < c.data := by
  unfold chunkCopy at h
  split_ifs at h with hturn
  obtain ⟨hlt, hstop, -⟩ := hturn
  cases h
  have hle := le_dechunkEol mem len (e + (strtoul 16 (mem.drop e)).2) eolLen
  exact ⟨hlt, by dsimp only; omega⟩

/-- The copies of the loop from offset `e` on, in order. -/
def chunkCopies (mem : Bytes) (len e eolLen : ℕ) : List ChunkCopy :=
  match _h : chunkCopy mem len e eolLen with
  | none => []
  | some c => c :: if c.length = c.rest then [] else
      chunkCopies mem len (c.data + c.length + c.eolLen) c.eolLen
termination_by len - e
decreasing_by
  have := chunkCopy_some _h
  omega

/-- The loop decodes what is copied, with all warnings left aside. -/
theorem dechunkLoopFrom_copy {mem : Bytes} {len e eolLen : ℕ} {c : ChunkCopy}
    (h : chunkCopy mem len e eolLen = some c) (out : Bytes) (ws : List DechunkWarning) :
    ∃ ws', dechunkLoopFrom mem len e eolLen out ws =
      if c.length = c.rest then
        ⟨out ++ (mem.drop c.data).take c.length, some (c.data + c.length), ws'⟩
      else dechunkLoopFrom mem len (c.data + c.length + c.eolLen) c.eolLen
        (out ++ (mem.drop c.data).take c.length) ws' := by
  unfold chunkCopy at h
  split_ifs at h with hturn
  obtain ⟨hlt, hstop, hsize⟩ := hturn
  cases h
  rw [dechunkLoopFrom, if_pos hlt, dif_neg hstop, if_neg hsize]
  exact ⟨_, rfl⟩

/-- The copies are within the string and within the allocated bytes, `rest` is what is left, and so
is the pointer that is returned. -/
structure OneShotBounded (encoded beyond : Bytes) : Prop where
  source : ∀ c ∈ chunkCopies (encoded ++ nul :: beyond) encoded.length 0 0,
    c.data ≤ encoded.length ∧ c.rest = encoded.length - c.data ∧ c.data + c.length ≤ encoded.length
  target : ((chunkCopies (encoded ++ nul :: beyond) encoded.length 0 0).map ChunkCopy.length).sum ≤
    encoded.length
  decoded : (encodingDechunk encoded beyond).decoded.length ≤ encoded.length
  stop : ∀ p ∈ (encodingDechunk encoded beyond).stop, p ≤ encoded.length

/-- Where the text ends behind a chunk size, there is nothing to skip, and behind the data of a
chunk, unless it is the rest of the text, there are as many bytes as the end of line in front of it
had. -/
def sizesTerminated (mem : Bytes) (len e eolLen : ℕ) : Bool :=
  match _h : chunkCopy mem len e eolLen with
  | none => true
  | some c =>
      decide (byteAt mem (e + (strtoul 16 (mem.drop e)).2) = nul →
        e + (strtoul 16 (mem.drop e)).2 + eolLen ≤ len) &&
      (c.length = c.rest || decide (c.data + c.length + c.eolLen ≤ len) &&
        sizesTerminated mem len (c.data + c.length + c.eolLen) c.eolLen)
termination_by len - e
decreasing_by
  have := chunkCopy_some _h
  omega

/-! ### Where the data of a chunk is -/

section Copy
variable {encoded beyond : Bytes} {e eolLen : ℕ}

theorem drop_string (he : e ≤ encoded.length) :
    (encoded ++ nul :: beyond).drop e = encoded.drop e ++ nul :: beyond :=
  List.drop_append_of_le_length he

theorem size_end_le (beyond : Bytes) (he : e ≤ encoded.length) :
    e + (strtoul 16 ((encoded ++ nul :: beyond).drop e)).2 ≤ encoded.length := by
  have h := strtoul_le (encoded.drop e) beyond
  rw [List.length_drop] at h
  rw [drop_string he]
  omega

theorem locateEol_le {n i l : ℕ} (hn : n ≤ encoded.length)
    (h : locateEol ((encoded ++ nul :: beyond).drop n) = some (i, l)) :
    l ≤ 2 ∧ n + i + l ≤ encoded.length := by
  obtain ⟨-, hl, hle, -⟩ := locateBinEol_bounds h
  rw [drop_string hn, takeWhile_append_space (by decide)] at hle
  have hlen := (List.takeWhile_sublist (fun c : Byte => decide (c ≠ nul))
    (l := encoded.drop n)).length_le
  rw [List.length_drop] at hlen
  omega

theorem dechunkEol_bounds (beyond : Bytes) {n : ℕ} (hn : n ≤ encoded.length) (heol : eolLen ≤ 2) :
    let data := dechunkEol (encoded ++ nul :: beyond) encoded.length n eolLen
    data.2.1 ≤ 2 ∧ data.1 ≤ encoded.length + 2 ∧
      (data.1 ≤ encoded.length ↔
        (byteAt (encoded ++ nul :: beyond) n = nul → n + eolLen ≤ encoded.length)) := by
  intro data
  by_cases hnul : byteAt (encoded ++ nul :: beyond) n = nul
  · have hdata : data = (n + eolLen, eolLen, []) := if_pos hnul
    rw [hdata]
    exact ⟨heol, by dsimp only; omega, by simp [hnul]⟩
  · have hdata : data.1 ≤ encoded.length ∧ data.2.1 ≤ 2 := by
      have heq : data = _ := if_neg hnul
      rw [heq]
      unfold eolMatch
      dsimp only
      cases he : locateEol ((encoded ++ nul :: beyond).drop n) with
      | none => exact ⟨by simpa using hn, by simp⟩
      | some o =>
        obtain ⟨i, l⟩ := o
        obtain ⟨hl, hle⟩ := locateEol_le hn he
        dsimp only
        split_ifs with hptr
        · refine ⟨?_, hl⟩
          dsimp only
          omega
        · refine ⟨?_, hl⟩
          dsimp only
          omega
    exact ⟨hdata.2, by omega, by simp [hnul, hdata.1]⟩

/-- A copy is in bounds unless it skips the end of the text. -/
theorem chunkCopy_bounds (hlen : encoded.length < 2 ^ 63) (heol : eolLen ≤ 2) {c : ChunkCopy}
    (h : chunkCopy (encoded ++ nul :: beyond) encoded.length e eolLen = some c) :
    c.eolLen ≤ 2 ∧ (c.data ≤ encoded.length ∧ c.rest = encoded.length - c.data ∧
      c.data + c.length ≤ encoded.length ↔
        (byteAt (encoded ++ nul :: beyond)
          (e + (strtoul 16 ((encoded ++ nul :: beyond).drop e)).2) = nul →
          e + (strtoul 16 ((encoded ++ nul :: beyond).drop e)).2 + eolLen ≤ encoded.length)) := by
  have hlt := (chunkCopy_some h).1
  have hdata := dechunkEol_bounds beyond (size_end_le beyond hlt.le) heol
  unfold chunkCopy at h
  split_ifs at h
  cases h
  dsimp only at hdata ⊢
  refine ⟨hdata.1, Iff.trans ?_ hdata.2.2⟩
  generalize dechunkEol (encoded ++ nul :: beyond) encoded.length _ eolLen = data at hdata ⊢
  constructor
  · exact fun h => h.1
  · intro hle
    have hrest : sizeSub encoded.length data.1 = encoded.length - data.1 :=
      sizeSub_of_le hle (by omega)
    refine ⟨hle, hrest, ?_⟩
    rw [hrest]
    omega

theorem chunkCopies_none {mem : Bytes} {len : ℕ} (h : chunkCopy mem len e eolLen = none) :
    chunkCopies mem len e eolLen = [] ∧ sizesTerminated mem len e eolLen = true := by
  rw [chunkCopies, sizesTerminated]
  constructor
  · split
    · rfl
    · simp_all
  · split
    · rfl
    · simp_all

theorem chunkCopies_some {mem : Bytes} {len : ℕ} {c : ChunkCopy}
    (h : chunkCopy mem len e eolLen = some c) :
    chunkCopies mem len e eolLen = c :: if c.length = c.rest then [] else
      chunkCopies mem len (c.data + c.length + c.eolLen) c.eolLen := by
  rw [chunkCopies]
  split
  · simp_all
  · next c' h' =>
    rw [h] at h'
    cases h'
    rfl

theorem sizesTerminated_some {mem : Bytes} {len : ℕ} {c : ChunkCopy}
    (h : chunkCopy mem len e eolLen = some c) : sizesTerminated mem len e eolLen = true ↔
      (byteAt mem (e + (strtoul 16 (mem.drop e)).2) = nul →
        e + (strtoul 16 (mem.drop e)).2 + eolLen ≤ len) ∧
      (c.length = c.rest ∨ c.data + c.length + c.eolLen ≤ len ∧
        sizesTerminated mem len (c.data + c.length + c.eolLen) c.eolLen = true) := by
  rw [sizesTerminated]
  split
  · simp_all
  · next c' h' =>
    rw [h] at h'
    cases h'
    simp only [Bool.and_eq_true, Bool.or_eq_true, decide_eq_true_eq]

/-- Where the loop does not come to another chunk. -/
theorem dechunkLoopFrom_stop (he : e ≤ encoded.length)
    (h : chunkCopy (encoded ++ nul :: beyond) encoded.length e eolLen = none) (out : Bytes)
    (ws : List DechunkWarning) :
    let r := dechunkLoopFrom (encoded ++ nul :: beyond) encoded.length e eolLen out ws
    (∀ p ∈ r.stop, p ≤ encoded.length) ∧
      (r.decoded = out ∨ r.decoded.length ≤ encoded.length) := by
  intro r
  by_cases hlt : e < encoded.length
  · by_cases hstop : (strtoul 16 ((encoded ++ nul :: beyond).drop e)).2 = 0
    · have hr : r = if e = 0 then ⟨(encoded ++ nul :: beyond).take encoded.length,
          some encoded.length, ws ++ [.notEncoded]⟩ else ⟨[], none,
          ws ++ [.trash e encoded.length]⟩ := by
        change dechunkLoopFrom _ _ _ _ _ _ = _
        rw [dechunkLoopFrom, if_pos hlt, dif_pos hstop]
      rw [hr]
      split_ifs
      · exact ⟨by simp, .inr (by simp)⟩
      · exact ⟨by simp, .inr (by simp)⟩
    · have hsize : (strtoul 16 ((encoded ++ nul :: beyond).drop e)).1 = 0 := by
        unfold chunkCopy at h
        by_contra hne
        rw [if_pos ⟨hlt, hstop, hne⟩] at h
        cases h
      have hr :
          r = ⟨out, some (e + (((encoded ++ nul :: beyond).drop e).takeWhile isTerminator).length),
          ws⟩ := by
        change dechunkLoopFrom _ _ _ _ _ _ = _
        rw [dechunkLoopFrom, if_pos hlt, dif_neg hstop, if_pos hsize]
      have hle := (List.takeWhile_sublist isTerminator (l := encoded.drop e)).length_le
      rw [List.length_drop] at hle
      rw [hr, drop_string he, takeWhile_append_space (by decide)]
      refine ⟨fun p hp => ?_, .inl rfl⟩
      obtain rfl := Option.some.inj hp
      omega
  · have hr : r = ⟨out, some e, ws⟩ := by
      change dechunkLoopFrom _ _ _ _ _ _ = _
      rw [dechunkLoopFrom, if_neg hlt]
    rw [hr]
    exact ⟨fun p hp => Option.some.inj hp ▸ he, .inl rfl⟩

/-- The copies from offset `e` on are in bounds, and the pointer that is returned is. -/
theorem dechunkLoopFrom_bounded_iff (beyond : Bytes) (hlen : encoded.length < 2 ^ 63)
    (he : e ≤ encoded.length) (heol : eolLen ≤ 2) (out : Bytes) (ws : List DechunkWarning) :
    let mem := encoded ++ nul :: beyond
    ((∀ c ∈ chunkCopies mem encoded.length e eolLen, c.data ≤ encoded.length ∧
        c.rest = encoded.length - c.data ∧ c.data + c.length ≤ encoded.length) ∧
      ∀ p ∈ (dechunkLoopFrom mem encoded.length e eolLen out ws).stop, p ≤ encoded.length) ↔
    sizesTerminated mem encoded.length e eolLen = true := by
  intro mem
  induction hw : encoded.length - e using Nat.strong_induction_on generalizing e eolLen out ws with
  | _ n ih =>
  cases hcopy : chunkCopy mem encoded.length e eolLen with
  | none =>
    obtain ⟨hcopies, hterm⟩ := chunkCopies_none hcopy
    rw [hcopies, hterm]
    simpa using (dechunkLoopFrom_stop he hcopy out ws).1
  | some c =>
    obtain ⟨hceol, hbounds⟩ := chunkCopy_bounds hlen heol hcopy
    obtain ⟨ws', hloop⟩ := dechunkLoopFrom_copy hcopy out ws
    have hlt := chunkCopy_some hcopy
    rw [chunkCopies_some hcopy, sizesTerminated_some hcopy, ← hbounds, hloop]
    by_cases hlast : c.length = c.rest
    · rw [if_pos hlast, if_pos hlast]
      simp only [List.mem_singleton, forall_eq, hlast, true_or, and_true]
      refine and_iff_left_of_imp fun h p hp => ?_
      obtain rfl := Option.some.inj hp
      exact h.2.2
    · rw [if_neg hlast, if_neg hlast]
      by_cases hnext : c.data + c.length + c.eolLen ≤ encoded.length
      · rw [← ih _ (by omega) hnext hceol (out ++ (mem.drop c.data).take c.length) ws' rfl]
        simp only [List.forall_mem_cons, hlast, false_or, hnext, true_and, and_assoc]
      · have hstop : (dechunkLoopFrom mem encoded.length (c.data + c.length + c.eolLen) c.eolLen
            (out ++ (mem.drop c.data).take c.length) ws').stop =
              some (c.data + c.length + c.eolLen) := by
          rw [dechunkLoopFrom, if_neg (by omega)]
        rw [hstop]
        simp only [hlast, hnext, false_and, or_false, and_false, iff_false, not_and, not_forall]
        exact fun _ => ⟨_, rfl, hnext⟩

theorem chunkCopies_sum {mem : Bytes} {len : ℕ} (he : e ≤ len)
    (h : ∀ c ∈ chunkCopies mem len e eolLen, c.data + c.length ≤ len) :
    ((chunkCopies mem len e eolLen).map ChunkCopy.length).sum ≤ len - e := by
  induction hw : len - e using Nat.strong_induction_on generalizing e eolLen with
  | _ n ih =>
  cases hcopy : chunkCopy mem len e eolLen with
  | none => simp [(chunkCopies_none hcopy).1]
  | some c =>
    have hlt := chunkCopy_some hcopy
    rw [chunkCopies_some hcopy] at h ⊢
    have hc := h c List.mem_cons_self
    rw [List.map_cons, List.sum_cons]
    split_ifs with hlast
    · simp only [List.map_nil, List.sum_nil]
      omega
    · rw [if_neg hlast] at h
      have hrest := fun d hd => h d (List.mem_cons_of_mem c hd)
      by_cases hnext : c.data + c.length + c.eolLen ≤ len
      · have := ih _ (by omega) hnext hrest rfl
        omega
      · have hnone : chunkCopy mem len (c.data + c.length + c.eolLen) c.eolLen = none :=
          if_neg fun hturn => by omega
        rw [(chunkCopies_none hnone).1, List.map_nil, List.sum_nil]
        omega

theorem decoded_length (he : e ≤ encoded.length) (out : Bytes) (ws : List DechunkWarning)
    (h : ∀ c ∈ chunkCopies (encoded ++ nul :: beyond) encoded.length e eolLen,
      c.data + c.length ≤ encoded.length) :
    (dechunkLoopFrom (encoded ++ nul :: beyond) encoded.length e eolLen out ws).decoded.length ≤
      max encoded.length (out.length +
        ((chunkCopies (encoded ++ nul :: beyond) encoded.length e eolLen).map
          ChunkCopy.length).sum) := by
  induction hw : encoded.length - e using Nat.strong_induction_on generalizing e eolLen out ws with
  | _ n ih =>
  cases hcopy : chunkCopy (encoded ++ nul :: beyond) encoded.length e eolLen with
  | none =>
    rcases (dechunkLoopFrom_stop he hcopy out ws).2 with hout | hle
    · rw [hout]
      omega
    · omega
  | some c =>
    obtain ⟨ws', hloop⟩ := dechunkLoopFrom_copy hcopy out ws
    have hlt := chunkCopy_some hcopy
    have htake := List.length_take_le c.length ((encoded ++ nul :: beyond).drop c.data)
    rw [hloop]
    rw [chunkCopies_some hcopy] at h ⊢
    rw [List.map_cons, List.sum_cons]
    split_ifs with hlast
    · simp only [List.length_append, List.map_nil, List.sum_nil]
      omega
    · rw [if_neg hlast] at h
      by_cases hnext : c.data + c.length + c.eolLen ≤ encoded.length
      · have := ih _ (by omega) hnext (out ++
          ((encoded ++ nul :: beyond).drop c.data).take c.length) ws'
          (fun d hd => h d (List.mem_cons_of_mem c hd)) rfl
        rw [List.length_append] at this
        omega
      · rw [dechunkLoopFrom, if_neg (by omega)]
        simp only [List.length_append]
        omega

theorem oneShotBounded_iff (hlen : encoded.length < 2 ^ 63) : OneShotBounded encoded beyond ↔
    sizesTerminated (encoded ++ nul :: beyond) encoded.length 0 0 = true := by
  have hiff := dechunkLoopFrom_bounded_iff beyond hlen (Nat.zero_le _) (Nat.zero_le 2) [] []
  constructor
  · exact fun h => hiff.mp ⟨h.source, h.stop⟩
  · intro h
    obtain ⟨hsource, hstop⟩ := hiff.mpr h
    have hsum := chunkCopies_sum (Nat.zero_le _) fun c hc => (hsource c hc).2.2
    rw [Nat.sub_zero] at hsum
    have hdecoded := decoded_length (Nat.zero_le _) [] [] fun c hc => (hsource c hc).2.2
    refine ⟨hsource, hsum, hdecoded.trans ?_, hstop⟩
    simp only [List.length_nil, Nat.zero_add, max_le_iff]
    exact ⟨le_rfl, hsum⟩

end Copy

/-- The one-shot decoder stays in bounds if and only if no chunk size is the end of the text behind
an end of line, and no chunk's data leaves less than an end of line. -/
theorem dechunk_bounded_iff (encoded beyond : Bytes) (hlen : encoded.length < 2 ^ 63) :
    OneShotBounded encoded beyond ↔
      sizesTerminated (encoded ++ nul :: beyond) encoded.length 0 0 = true :=
  oneShotBounded_iff hlen

theorem dechunk_bounded_example :
    (ascii "3 \r\nabc\r\n0\r\n\r\n").length < 2 ^ 63 ∧
      (OneShotBounded (ascii "3 \r\nabc\r\n0\r\n\r\n") [] ↔ sizesTerminated
        (ascii "3 \r\nabc\r\n0\r\n\r\n" ++ [nul])
          (ascii "3 \r\nabc\r\n0\r\n\r\n").length 0 0 = true) :=
  ⟨by decide, dechunk_bounded_iff _ _ (by decide)⟩

/-- At the end of the text the end of line of the last chunk is skipped once more; behind its data
it is skipped whether it is there or not. -/
theorem dechunk_not_bounded :
    ¬ OneShotBounded (ascii "3\r\nabc\r\n5") (ascii "secret") ∧
      (encodingDechunk (ascii "3\r\nabc\r\n5") (ascii "secret")).decoded = ascii "abcecret" ∧
      ¬ OneShotBounded (ascii "3\r\nabc\n") [] ∧
      (encodingDechunk (ascii "3\r\nabc\n") []).stop = some 8 := by
  have h : sizesTerminated (ascii "3\r\nabc\r\n5" ++ nul :: ascii "secret")
      (ascii "3\r\nabc\r\n5").length 0 0 = false ∧
      (encodingDechunk (ascii "3\r\nabc\r\n5") (ascii "secret")).decoded = ascii "abcecret" ∧
      sizesTerminated (ascii "3\r\nabc\n" ++ [nul]) (ascii "3\r\nabc\n").length 0 0 = false ∧
      (encodingDechunk (ascii "3\r\nabc\n") []).stop = some 8 := by decide +kernel
  refine ⟨fun hb => ?_, h.2.1, fun hb => ?_, h.2.2.2⟩
  · simpa [h.1] using (oneShotBounded_iff (by decide)).mp hb
  · simpa [h.2.2.1] using (oneShotBounded_iff (by decide)).mp hb

end ExtHttp
