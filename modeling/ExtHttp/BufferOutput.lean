import ExtHttp.BodyStream

/-! The output half of `php_http_buffer_t`: what goes in comes out in chunks of one size. -/
namespace ExtHttp

/-- `php_http_buffer_chunk_buffer`: the chunk, empty if there is none, and the storage. Asked for a
chunk of no size it gives all there is and frees the storage. -/
def chunkBuffer (storage : Option Bytes) (data : Bytes) (chunkSize : ℕ) : Bytes × Option Bytes :=
  let stored := storage.getD [] ++ data
  if chunkSize = 0 then (stored, none)
  else if chunkSize ≤ stored.length then (stored.take chunkSize, some (stored.drop chunkSize))
  else ([], some stored)

theorem chunkBuffer_append (storage : Option Bytes) (data : Bytes) (chunkSize : ℕ) :
    (chunkBuffer storage data chunkSize).1 ++ (chunkBuffer storage data chunkSize).2.getD [] =
      storage.getD [] ++ data := by
  unfold chunkBuffer
  generalize storage.getD [] ++ data = stored
  simp only
  split_ifs <;> simp

theorem chunkBuffer_lt {storage : Option Bytes} {data : Bytes} {chunkSize : ℕ}
    (hchunk : (chunkBuffer storage data chunkSize).1 ≠ []) :
    ((chunkBuffer storage data chunkSize).2.getD []).length <
      (storage.getD []).length + data.length := by
  have hpos := List.length_pos_iff.mpr hchunk
  have hlen := congrArg List.length (chunkBuffer_append storage data chunkSize)
  simp only [List.length_append] at hlen
  omega

/-- `php_http_buffer_chunked_output`: whether all has been passed, the buffer, and what the callback
works on. -/
def chunkedOutput {σ : Type} (passout : PassCallback σ) (storage : Option Bytes) (data : Bytes)
    (chunkLen : ℕ) (s : σ) : Bool × Option Bytes × σ :=
  let got := chunkBuffer storage data chunkLen
  if got.1 = [] then (true, got.2, s)
  else
    let o := passout s got.1
    if o.1 = false then (false, got.2, o.2)
    -- the last chunk
    else if chunkLen = 0 then (true, got.2, o.2)
    else chunkedOutput passout got.2 [] chunkLen o.2
termination_by (storage.getD []).length + data.length
decreasing_by simpa using chunkBuffer_lt ‹_›

/-- Nothing is lost and nothing changes its place on the way through the buffer. -/
theorem chunkedOutput_invariant {σ : Type} (passout : PassCallback σ) {I : σ → Bytes → Prop}
    (hpass : ∀ s done buf, I s done → (passout s buf).1 = true ∧ I (passout s buf).2 (done ++ buf))
    (storage : Option Bytes) (data : Bytes) (chunkLen : ℕ) {s : σ} {done : Bytes} (h : I s done) :
    let o := chunkedOutput passout storage data chunkLen s
    o.1 = true ∧ (chunkLen = 0 → o.2.1 = none) ∧
      ∃ sent, sent ++ o.2.1.getD [] = done ++ (storage.getD [] ++ data) ∧ I o.2.2 sent := by
  fun_induction chunkedOutput passout storage data chunkLen s generalizing done with
  | case1 storage data s got =>
    rename_i hgot
    have hall : got.2.getD [] = storage.getD [] ++ data := by
      have happend := chunkBuffer_append storage data chunkLen
      rwa [show (chunkBuffer storage data chunkLen).1 = [] from hgot] at happend
    refine ⟨rfl, fun h0 => ?_, done, by rw [hall], h⟩
    simp [got, chunkBuffer, h0]
  | case2 storage data s got hgot o =>
    rename_i hfail
    have hgo := (hpass s done got.1 h).1
    exact absurd (hgo.symm.trans hfail) (by decide)
  | case3 storage data s got hgot o hpassed =>
    have hkeep := (hpass s done got.1 h).2
    exact ⟨rfl,
      fun h0 => by simp [got, chunkBuffer, h0], _, by
        rw [List.append_assoc, chunkBuffer_append], hkeep⟩
  | case4 storage data s got hgot o hpassed hlen =>
    rename_i ih
    obtain ⟨hok, -, sent, hsent, hI⟩ := ih (hpass s done got.1 h).2
    refine ⟨hok, fun h0 => absurd h0 hlen, sent, ?_, hI⟩
    rw [hsent, List.append_nil, List.append_assoc, chunkBuffer_append]

end ExtHttp
