import ExtHttp.BufferOutput

/-! A run of `php_http_buffer_chunked_output` on one storage pointer: which chunks come out and what
is kept between two calls. -/
namespace ExtHttp
variable {σ : Type}

/-- One call after the other, with the storage each of them leaves. -/
def chunkedOutputs (passout : PassCallback σ) (chunkLen : ℕ) :
    List Bytes → Option Bytes → σ → Option Bytes × σ
  | [], storage, s => (storage, s)
  | data :: more, storage, s =>
      let o := chunkedOutput passout storage data chunkLen s
      chunkedOutputs passout chunkLen more o.2.1 o.2.2

theorem passAll_append {passout : PassCallback σ}
    (hpass : ∀ s buf, (passout s buf).1 = true) (s : σ) (front back : List Bytes) :
    (passAll passout s (front ++ back)).2 =
      (passAll passout (passAll passout s front).2 back).2 := by
  induction front generalizing s with
  | nil => rfl
  | cons buf front ih =>
    have hcons : ∀ rest, passAll passout s (buf :: rest) = passAll passout (passout s buf).2 rest :=
      fun rest => if_pos (hpass s buf)
    rw [List.cons_append, hcons, hcons, ih]

theorem chunkBuffer_full {storage : Option Bytes} {data : Bytes} {c : ℕ} (hc : 0 < c)
    (hchunk : (chunkBuffer storage data c).1 ≠ []) : (chunkBuffer storage data c).1.length = c := by
  unfold chunkBuffer at hchunk ⊢
  rw [if_neg hc.ne'] at hchunk ⊢
  by_cases hfull : c ≤ (storage.getD [] ++ data).length
  · rw [if_pos hfull]
    exact List.length_take_of_le hfull
  · rw [if_neg hfull] at hchunk
    exact absurd rfl hchunk

theorem chunkBuffer_kept {storage : Option Bytes} {data : Bytes} {c : ℕ} (hc : 0 < c)
    (hchunk : (chunkBuffer storage data c).1 = []) :
    ((chunkBuffer storage data c).2.getD []).length < c := by
  unfold chunkBuffer at hchunk ⊢
  rw [if_neg hc.ne'] at hchunk ⊢
  by_cases hfull : c ≤ (storage.getD [] ++ data).length
  · rw [if_pos hfull] at hchunk
    have hlen := congrArg List.length hchunk
    rw [List.length_take_of_le hfull, List.length_nil] at hlen
    omega
  · rw [if_neg hfull]
    exact Nat.lt_of_not_le hfull

/-- One call: all but less than a chunk is passed on, in whole chunks. -/
theorem chunkedOutput_chunks {passout : PassCallback σ} (hpass : ∀ s buf, (passout s buf).1 = true)
    {c : ℕ} (hc : 0 < c) (storage : Option Bytes) (data : Bytes) (s : σ) :
    ∃ chunks : List Bytes,
      (chunkedOutput passout storage data c s).1 = true ∧
      (chunkedOutput passout storage data c s).2.2 = (passAll passout s chunks).2 ∧
      (∀ chunk ∈ chunks, chunk.length = c) ∧
      chunks.flatten ++ (chunkedOutput passout storage data c s).2.1.getD [] =
        storage.getD [] ++ data ∧
      ((chunkedOutput passout storage data c s).2.1.getD []).length < c := by
  fun_induction chunkedOutput passout storage data c s with
  | case1 storage data s got hgot =>
    have happend := chunkBuffer_append storage data c
    rw [show (chunkBuffer storage data c).1 = [] from hgot] at happend
    exact ⟨[], rfl, rfl, by simp, happend, chunkBuffer_kept hc hgot⟩
  | case2 storage data s got hgot o hfail =>
    exact absurd ((hpass s got.1).symm.trans hfail) (by decide)
  | case3 => omega
  | case4 storage data s got hgot o hpassed hlen ih =>
    obtain ⟨chunks, htrue, hstate, hsize, hbytes, hkept⟩ := ih
    refine ⟨got.1 :: chunks, htrue, ?_, ?_, ?_, hkept⟩
    · rw [hstate, passAll, if_pos (hpass s got.1)]
    · intro chunk hmem
      rcases List.mem_cons.mp hmem with rfl | hmem
      · exact chunkBuffer_full hc hgot
      · exact hsize chunk hmem
    · rw [List.flatten_cons, List.append_assoc, hbytes, List.append_nil]
      exact chunkBuffer_append storage data c

/-- The accounting of a run: what has been passed on and what is stored are what came in. -/
theorem chunkedOutputs_chunks {passout : PassCallback σ} (hpass : ∀ s buf, (passout s buf).1 = true)
    {c : ℕ} (hc : 0 < c) (datas : List Bytes) (storage : Option Bytes) (s : σ)
    (hstored : (storage.getD []).length < c) :
    ∃ chunks : List Bytes,
      (chunkedOutputs passout c datas storage s).2 = (passAll passout s chunks).2 ∧
      (∀ chunk ∈ chunks, chunk.length = c) ∧
      chunks.flatten ++ (chunkedOutputs passout c datas storage s).1.getD [] =
        storage.getD [] ++ datas.flatten ∧
      ((chunkedOutputs passout c datas storage s).1.getD []).length < c := by
  induction datas generalizing storage s with
  | nil => exact ⟨[], rfl, by simp, by simp [chunkedOutputs], hstored⟩
  | cons data more ih =>
    obtain ⟨first, -, hfirst, hfirstSize, hfirstBytes, hkept⟩ :=
      chunkedOutput_chunks hpass hc storage data s
    obtain ⟨chunks, hstate, hsize, hbytes, hlast⟩ :=
      ih _ (chunkedOutput passout storage data c s).2.2 hkept
    refine ⟨first ++ chunks, ?_, ?_, ?_, hlast⟩
    · rw [chunkedOutputs, hstate, hfirst, passAll_append hpass]
    · intro chunk hmem
      rcases List.mem_append.mp hmem with hmem | hmem
      · exact hfirstSize chunk hmem
      · exact hsize chunk hmem
    · rw [chunkedOutputs, List.flatten_append, List.append_assoc, hbytes, ← List.append_assoc,
        hfirstBytes, List.flatten_cons, List.append_assoc]

/-- The last call, with no chunk size. -/
theorem chunkedOutput_rest {passout : PassCallback σ} (hpass : ∀ s buf, (passout s buf).1 = true)
    (storage : Option Bytes) (data : Bytes) (s : σ) :
    chunkedOutput passout storage data 0 s =
      (true, none, (passAll passout s (if storage.getD [] ++ data = [] then []
        else [storage.getD [] ++ data])).2) := by
  rw [chunkedOutput]
  simp only [chunkBuffer, if_true]
  by_cases hempty : storage.getD [] ++ data = []
  · rw [if_pos hempty, if_pos hempty]
    rfl
  · rw [if_neg hempty, if_neg hempty, if_neg (by rw [hpass]; decide), passAll, if_pos (hpass _ _)]
    rfl

/-- The bytes that go through the storage come out in their order, in chunks of the size asked for,
and those that are left when no chunk size is given come last. -/
theorem chunkedOutputs_conserves (passout : PassCallback σ)
    (hpass : ∀ s buf, (passout s buf).1 = true) (c : ℕ) (hc : 0 < c) (datas : List Bytes) (s : σ) :
    ∃ chunks : List Bytes, ∃ kept : Option Bytes,
      chunkedOutputs passout c datas none s = (kept, (passAll passout s chunks).2) ∧
      (∀ chunk ∈ chunks, chunk.length = c) ∧
      chunks.flatten ++ kept.getD [] = datas.flatten ∧
      (kept.getD []).length < c ∧
      ∀ t, chunkedOutput passout kept [] 0 t =
        (true, none, (passAll passout t (if kept.getD [] = [] then [] else [kept.getD []])).2) := by
  obtain ⟨chunks, hstate, hsize, hbytes, hkept⟩ := chunkedOutputs_chunks hpass hc datas none s hc
  refine ⟨chunks, (chunkedOutputs passout c datas none s).1, Prod.ext rfl hstate, hsize, hbytes,
    hkept, ?_⟩
  intro t
  have hrest := chunkedOutput_rest hpass (chunkedOutputs passout c datas none s).1 [] t
  rwa [List.append_nil] at hrest

theorem chunkedOutputs_conserves_abc :
    (∃ chunks : List Bytes, ∃ kept : Option Bytes,
      chunkedOutputs (fun (s : List Bytes) buf => (true, s ++ [buf])) 2
        [ascii "ab", ascii "c"] none [] =
        (kept, (passAll (fun (s : List Bytes) buf => (true, s ++ [buf])) [] chunks).2) ∧
      (∀ chunk ∈ chunks, chunk.length = 2) ∧
      chunks.flatten ++ kept.getD [] = [ascii "ab", ascii "c"].flatten ∧
      (kept.getD []).length < 2 ∧
      ∀ t, chunkedOutput (fun (s : List Bytes) buf => (true, s ++ [buf])) kept [] 0 t =
        (true, none, (passAll (fun (s : List Bytes) buf => (true, s ++ [buf])) t
          (if kept.getD [] = [] then [] else [kept.getD []])).2)) :=
  chunkedOutputs_conserves _ (fun _ _ => rfl) 2 (by decide) _ _

end ExtHttp
