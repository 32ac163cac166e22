import ExtHttp.DotSegments
import ExtHttp.PathSanitize

/-!
# What sanitizing makes of a path

The loop of the sanitizer as it works on segments, beside the removal of dot segments. The two part
where `..` ends the path, and where a relative path begins with dots or `..` takes its first
segment.
-/
namespace ExtHttp

/-! ### The loop, segment by segment -/

/-- What the loop makes of segments. The last one kept is `k`, and `ks` are those before it, from
the last to the first; so are the segments of the result. -/
def sanitizeSegments (k : Bytes) (ks : List Bytes) : List Bytes → List Bytes
  | [] => k :: ks
  | [s] => (if IsDots s then [] else s) :: k :: ks
  | s :: t :: ts =>
    if s = [] ∨ s = [dot] then sanitizeSegments k ks (t :: ts)
    else if s = [dot, dot] then
      match ks with
      | k' :: ks => sanitizeSegments k' ks (t :: ts)
      | [] =>
        if k = [] then sanitizeSegments [] [] (t :: ts)
        -- back at the beginning of the path, of which the first character stays
        else sanitizeSegments (k.take 1 ++ t) [] ts
    else sanitizeSegments s (k :: ks) (t :: ts)

def keptText : List Bytes → Bytes
  | [] => []
  | k :: ks => beforeText ks ++ k

/-- The pointer is in the last of the segments kept. -/
structure AtSegments (s : PathMemory) (size : ℕ) (k : Bytes) (ks rs : List Bytes) : Prop where
  holds : s.Holds size (beforeText ks ++ (k ++ behindText rs))
  lower : (beforeText ks).length ≤ s.ptr
  upper : s.ptr ≤ (beforeText ks).length + k.length
  last : slash ∉ k
  before : Parted ks
  behind : Parted rs

section
variable {s t : PathMemory} {size : ℕ} {k : Bytes} {ks rs : List Bytes}

/-- The slash that is found is the one behind the last segment kept. -/
theorem AtSegments.found (h : AtSegments s size k ks rs) {kept rest : Bytes}
    (htext : beforeText ks ++ (k ++ behindText rs) = kept ++ slash :: rest)
    (hptr : s.ptr ≤ kept.length) (hnone : slash ∉ kept.drop s.ptr) :
    kept = beforeText ks ++ k ∧ ∃ r ts, rs = r :: ts ∧ rest = r ++ behindText ts := by
  have hdrop := congrArg (List.drop s.ptr) htext
  obtain ⟨j, hj⟩ := Nat.exists_eq_add_of_le h.lower
  have hjk : j ≤ k.length := by
    have hupper := h.upper
    omega
  rw [List.drop_append_of_le_length hptr] at hdrop
  have hleft : (beforeText ks ++ (k ++ behindText rs)).drop s.ptr = k.drop j ++ behindText rs := by
    rw [hj, List.drop_length_add_append, List.drop_append_of_le_length hjk]
  rw [hleft] at hdrop
  have hk : slash ∉ k.drop j := fun hin => h.last (List.mem_of_mem_drop hin)
  obtain ⟨-, r, ts, rfl, rfl⟩ := first_segment hk hnone hdrop
  rw [behindText, ← List.append_assoc] at htext
  exact ⟨(List.append_cancel_right htext).symm, r, ts, rfl, rfl⟩

theorem slashBefore_skip (hk : slash ∉ k) (before : Bytes) {i : ℕ} (hi : i ≤ k.length) :
    slashBefore (before ++ k) (before.length + i) = slashBefore before before.length := by
  induction i with
  | zero => exact slashBefore_append before k (le_refl _)
  | succ i ih =>
    have hbyte : byteAt (before ++ k) (before.length + i) = k[i] := by
      rw [byteAt, List.getD_append_right _ _ _ _ (by omega), Nat.add_sub_cancel_left,
        List.getD_eq_getElem]
    have hslash : ¬ byteAt (before ++ k) (before.length + i) = slash := by
      rw [hbyte]
      intro hc
      exact hk (hc ▸ List.getElem_mem _)
    rw [← Nat.add_assoc, slashBefore, if_neg hslash, ih (by omega)]

theorem slashBefore_kept (hk : slash ∉ k) (ks : List Bytes) :
    slashBefore (beforeText ks ++ k) (beforeText ks ++ k).length = (beforeText ks).length - 1 := by
  rw [List.length_append, slashBefore_skip hk _ (le_refl _)]
  match ks with
  | [] => rfl
  | k' :: ks =>
    have hlen : (beforeText (k' :: ks)).length = (beforeText ks ++ k').length + 1 := by
      simp [beforeText]
      omega
    have hbyte : byteAt (beforeText (k' :: ks)) (beforeText ks ++ k').length = slash := by
      rw [beforeText, ← List.append_assoc, byteAt, List.getD_append_right _ _ _ _ (le_refl _)]
      simp
    rw [hlen, slashBefore, if_pos hbyte, Nat.add_sub_cancel]

/-- The pointer is in segments of which the same is made as of these. -/
def SameSegments (t : PathMemory) (size : ℕ) (k : Bytes) (ks rs : List Bytes) : Prop :=
  ∃ k' ks' rs', AtSegments t size k' ks' rs' ∧
    sanitizeSegments k' ks' rs' = sanitizeSegments k ks rs

/-- The pointer stays in the last segment kept, and segments behind it are gone. -/
theorem AtSegments.stay (h : AtSegments s size k ks rs) {rs' : List Bytes} (hrs' : Parted rs')
    (ht : t.Holds size ((beforeText ks ++ k) ++ behindText rs'))
    (hptr : t.ptr = (beforeText ks ++ k).length)
    (hsame : sanitizeSegments k ks rs' = sanitizeSegments k ks rs) : SameSegments t size k ks rs := by
  refine ⟨k, ks, rs', ⟨?_, ?_, ?_, h.last, h.before, hrs'⟩, hsame⟩
  · rwa [List.append_assoc] at ht
  · simp [hptr]
  · simp [hptr]

/-- The next segment is kept. -/
theorem AtSegments.keep (h : AtSegments s size k ks rs) {r : Bytes} {rs' : List Bytes}
    (hr : slash ∉ r) (hrs' : Parted rs')
    (ht : t.Holds size ((beforeText ks ++ k) ++ slash :: (r ++ behindText rs')))
    (hptr : t.ptr = (beforeText ks ++ k).length + 1)
    (hsame : sanitizeSegments r (k :: ks) rs' = sanitizeSegments k ks rs) :
    SameSegments t size k ks rs := by
  refine ⟨r, k :: ks, rs', ⟨?_, ?_, ?_, hr, parted_cons.mpr ⟨h.last, h.before⟩, hrs'⟩, hsame⟩
  · simpa [beforeText] using ht
  · simp [hptr, beforeText]
    omega
  · simp [hptr, beforeText]
    omega

/-- The last segment kept is taken away with the two dots behind it. -/
theorem AtSegments.up {u : Bytes} {us : List Bytes}
    (h : AtSegments s size k ks ([dot, dot] :: u :: us))
    (ht : t.Holds size (((beforeText ks ++ k) ++ [slash]).take ((beforeText ks).length - 1 + 1) ++
      (u ++ behindText us)))
    (hptr : t.ptr = (beforeText ks).length - 1) :
    SameSegments t size k ks ([dot, dot] :: u :: us) := by
  have hus : Parted (u :: us) := (parted_cons.mp h.behind).2
  cases ks with
  | nil =>
    by_cases hk : k = []
    · subst hk
      refine ⟨[], [], u :: us, ⟨?_, ?_, ?_, by simp, by simp, hus⟩, ?_⟩
      · simpa [behindText, beforeText] using ht
      · simp [beforeText]
      · simp [hptr, beforeText]
      · simp [sanitizeSegments]
    · obtain ⟨c, w, rfl⟩ := List.exists_cons_of_ne_nil hk
      obtain ⟨hu, hus⟩ := parted_cons.mp hus
      have hc : slash ∉ [c] := fun hin =>
        h.last (List.mem_cons.mpr (.inl (List.mem_singleton.mp hin)))
      refine ⟨[c] ++ u, [], us, ⟨?_, ?_, ?_, ?_, by simp, hus⟩, ?_⟩
      · simpa [beforeText] using ht
      · simp [beforeText]
      · simp [hptr, beforeText]
      · rw [List.mem_append, not_or]
        exact ⟨hc, hu⟩
      · simp [sanitizeSegments]
  | cons k' ks =>
    obtain ⟨hk', hks⟩ := parted_cons.mp h.before
    have hlen : (beforeText (k' :: ks)).length - 1 + 1 = (beforeText (k' :: ks)).length :=
      Nat.sub_add_cancel (by simp [beforeText]; omega)
    refine ⟨k', ks, u :: us, ⟨?_, ?_, ?_, hk', hks, hus⟩, ?_⟩
    · rw [hlen, List.append_assoc, List.take_left] at ht
      simpa [beforeText, behindText] using ht
    · simp [hptr, beforeText]
    · simp [hptr, beforeText]
    · simp [sanitizeSegments]

theorem sanitizeSegments_plain {r : Bytes} {ts : List Bytes} (h : PlainRest (r ++ behindText ts))
    (k : Bytes) (ks : List Bytes) :
    sanitizeSegments r (k :: ks) ts = sanitizeSegments k ks (r :: ts) := by
  cases ts with
  | nil =>
    have hdots : ¬ IsDots r := by
      rintro (rfl | rfl)
      · exact h.notHereEnd rfl
      · exact h.notUpEnd rfl
    simp [sanitizeSegments, hdots]
  | cons u us =>
    have hempty : r ≠ [] := by
      rintro rfl
      exact h.notAgain _ rfl
    have hhere : r ≠ [dot] := by
      rintro rfl
      exact h.notHere _ rfl
    have hup : r ≠ [dot, dot] := by
      rintro rfl
      exact h.notUp _ rfl
    simp [sanitizeSegments, hempty, hhere, hup]

/-- A turn makes the same of the segments. -/
theorem AtSegments.turn {r text : Bytes} {ts : List Bytes} (h : AtSegments s size k ks (r :: ts))
    (hturn : PathTurn (beforeText ks ++ k) (r ++ behindText ts) text t.ptr)
    (ht : t.Holds size text) : SameSegments t size k ks (r :: ts) := by
  obtain ⟨hr, hts⟩ := parted_cons.mp h.behind
  generalize hptr : t.ptr = ptr at hturn
  generalize hrest : r ++ behindText ts = rest at hturn
  cases hturn with
  | again r' =>
    obtain ⟨rfl, u, us, rfl, rfl⟩ := first_segment (a := []) hr List.not_mem_nil hrest
    exact h.stay hts (by simpa [behindText] using ht) hptr (by simp [sanitizeSegments])
  | hereEnd =>
    obtain ⟨rfl, rfl⟩ := only_segment slash_not_dot hrest
    have hempty : Parted [[]] := by simp
    exact h.stay hempty (by simpa [behindText] using ht) hptr (by simp [sanitizeSegments])
  | here r' =>
    obtain ⟨rfl, u, us, rfl, rfl⟩ := first_segment (a := [dot]) hr slash_not_dot hrest
    exact h.stay hts (by simpa [behindText] using ht) hptr (by simp [sanitizeSegments])
  | upEnd =>
    obtain ⟨rfl, rfl⟩ := only_segment slash_not_dots hrest
    exact h.keep List.not_mem_nil parted_nil (by simpa [behindText] using ht) hptr
      (by simp [sanitizeSegments])
  | up r' =>
    obtain ⟨rfl, u, us, rfl, rfl⟩ := first_segment (a := [dot, dot]) hr slash_not_dots hrest
    rw [slashBefore_kept h.last] at ht hptr
    exact h.up ht hptr
  | plain hplain =>
    subst hrest
    exact h.keep hr hts ht hptr (sanitizeSegments_plain hplain k ks)

/-- A round of the loop makes the same of the segments. -/
theorem AtSegments.step (h : AtSegments s size k ks rs) (hmore : ¬ s.Ended) :
    ∃ t, sanitizeStep s = .ok t ∧ SameSegments t size k ks rs ∧
      2 * (cString t.mem).length - t.ptr < 2 * (cString s.mem).length - s.ptr := by
  obtain ⟨kept, rest, text, t, htext, hptr, hnone, hturn, hstep, ht⟩ :=
    sanitizeStep_holds h.holds hmore
  obtain ⟨rfl, r, ts, rfl, rfl⟩ := h.found htext hptr hnone
  refine ⟨t, hstep, h.turn hturn ht, ?_⟩
  have hsize := hturn.size
  have hlower := h.lower
  rw [ht.text, h.holds.text, htext, List.length_append, List.length_cons]
  omega

end

theorem AtSegments.ended {s : PathMemory} {size : ℕ} {k : Bytes} {ks rs : List Bytes}
    (h : AtSegments s size k ks rs) (hended : s.Ended) :
    cString s.mem = keptText (sanitizeSegments k ks rs) := by
  rcases h.holds.search with ⟨-, hnone⟩ | ⟨kept, rest, tail, -, -, -, -, hfound⟩
  · match rs with
    | [] =>
      rw [h.holds.text, behindText, List.append_nil, sanitizeSegments, keptText]
    | r :: rs =>
      refine absurd ?_ hnone
      have hupper := h.upper
      rw [← List.append_assoc, List.drop_append_of_le_length (by rw [List.length_append]; omega)]
      exact List.mem_append_right _ List.mem_cons_self
  · rw [PathMemory.Ended, hfound] at hended
    exact absurd hended (Option.some_ne_none _)

/-- The path is sanitized segment by segment. -/
theorem sanitizePath_segments {s : Bytes} {ss : List Bytes} (hnul : nul ∉ s ++ behindText ss)
    (hs : slash ∉ s) (hss : Parted ss) : sanitizePath (s ++ behindText ss) =
      keptText (sanitizeSegments s [] ss) := by
  rw [sanitizePath]
  split_ifs with hshort
  · cases ss with
    | nil =>
      rw [behindText, List.append_nil, sanitizeSegments, keptText, beforeText, List.nil_append]
    | cons t ts =>
      rw [behindText, List.length_append, List.length_cons, List.length_append] at hshort
      obtain rfl : s = [] := List.eq_nil_of_length_eq_zero (by omega)
      obtain rfl : t = [] := List.eq_nil_of_length_eq_zero (by omega)
      cases ts with
      | nil => rfl
      | cons u us =>
        rw [behindText, List.length_cons] at hshort
        omega
  · have hinit : AtSegments (.init (s ++ behindText ss))
        ((s ++ behindText ss).length + 1) s [] ss :=
      ⟨init_holds hnul, Nat.zero_le _, Nat.zero_le _, hs, parted_nil, hss⟩
    obtain ⟨t, hrun, ⟨k, ks, rs, hat, hsame⟩, hended⟩ := Steps.run_ends
      (fun u => SameSegments u ((s ++ behindText ss).length + 1) s [] ss)
      PathMemory.Ended (fun u => 2 * (cString u.mem).length - u.ptr)
      (by
        rintro u ⟨k, ks, rs, hat, hsame⟩ hmore
        obtain ⟨t, hstep, ⟨k', ks', rs', hat', hsame'⟩, hless⟩ := hat.step hmore
        exact ⟨t, hstep, ⟨k', ks', rs', hat', hsame'.trans hsame⟩, hless⟩)
      (by
        rintro u ⟨k, ks, rs, hat, -⟩ hended
        exact sanitizeStep_ended hat.holds hended)
      ⟨s, [], ss, hinit, rfl⟩ (n := 2 * (s ++ behindText ss).length)
        (by rw [hinit.holds.text]; exact Nat.sub_le _ _)
    rw [hrun, ← hsame]
    exact hat.ended hended

/-! ### Beside the removal of dot segments -/

section
variable {s t k : Bytes} {ts ks : List Bytes}

theorem sanitizeSegments_skip (hs : s = [] ∨ s = [dot]) (k : Bytes) (ks : List Bytes) :
    sanitizeSegments k ks (s :: t :: ts) = sanitizeSegments k ks (t :: ts) := by
  rw [sanitizeSegments.eq_def]
  exact if_pos hs

theorem sanitizeSegments_up (k k' : Bytes) (ks : List Bytes) :
    sanitizeSegments k (k' :: ks) ([dot, dot] :: t :: ts) = sanitizeSegments k' ks (t :: ts) := by
  simp [sanitizeSegments]

theorem sanitizeSegments_root :
    sanitizeSegments [] [] ([dot, dot] :: t :: ts) = sanitizeSegments [] [] (t :: ts) := by
  rw [sanitizeSegments, if_neg (by decide), if_pos rfl]
  exact if_pos rfl

theorem sanitizeSegments_front (hk : k ≠ []) :
    sanitizeSegments k [] ([dot, dot] :: t :: ts) = sanitizeSegments (k.take 1 ++ t) [] ts := by
  rw [sanitizeSegments, if_neg (by decide), if_pos rfl]
  exact if_neg hk

theorem sanitizeSegments_keep (hne : s ≠ []) (hdots : ¬ IsDots s) (k : Bytes) (ks rs : List Bytes) :
    sanitizeSegments k ks (s :: rs) = sanitizeSegments s (k :: ks) rs := by
  cases rs with
  | nil => simp only [sanitizeSegments, if_neg hdots]
  | cons t ts =>
    rw [sanitizeSegments.eq_def]
    simp only [if_neg (fun h : s = [] ∨ s = [dot] => h.elim hne (fun h => hdots (.inl h))),
      if_neg (fun h : s = [dot, dot] => hdots (.inr h))]

theorem keptText_cons (s k : Bytes) (ks : List Bytes) :
    keptText (s :: k :: ks) = keptText (k :: ks) ++ slash :: s := by
  simp [keptText, beforeText]

theorem keptText_one (k : Bytes) : keptText [k] = k := rfl

end

/-- The first character of a relative path stays. -/
theorem sanitizeSegments_head {c : Byte} (hc : c ≠ slash) (k : Bytes) (ks rs : List Bytes)
    (h : (keptText (k :: ks)).head? = some c) : (keptText (sanitizeSegments k ks rs)).head? =
      some c := by
  fun_induction sanitizeSegments k ks rs with
  | case1 k ks => exact h
  | case2 k ks s =>
    rw [keptText_cons, List.head?_append, h]
    rfl
  | case3 k ks s t ts hskip ih => exact ih h
  | case4 k t ts k' ks hskip ih =>
    refine ih ?_
    rw [keptText_cons, List.head?_append] at h
    cases hfirst : (keptText (k' :: ks)).head? with
    | none =>
      rw [hfirst] at h
      exact absurd (Option.some.inj h).symm hc
    | some d => rwa [hfirst] at h
  | case5 t ts hskip ih => exact ih h
  | case6 k t ts hk hskip ih =>
    refine ih ?_
    obtain ⟨d, w, rfl⟩ := List.exists_cons_of_ne_nil hk
    exact h
  | case7 k ks s t ts hskip hup ih =>
    refine ih ?_
    rw [keptText_cons, List.head?_append, h]
    rfl

theorem dropSegment_kept {k : Bytes} (hk : slash ∉ k) (k' : Bytes) (ks : List Bytes) :
    dropSegment (keptText (k :: k' :: ks)) = keptText (k' :: ks) := by
  rw [keptText_cons, dropSegment_append hk]

/-- Text in front of the output stays in front of it, or the removal comes to the root. -/
theorem sanitizeSegments_after {c : Byte} (hc : c ≠ slash) {front : Bytes}
    (hfront : front.head? = some c) {rs : List Bytes} (hrs : Parted rs) {k : Bytes}
    {ks : List Bytes} (hk : slash ∉ k) (hks : Parted ks) {output : Bytes}
    (hkept : keptText (k :: ks) = front ++ output) :
    keptText (sanitizeSegments k ks rs) ≠ removeDots (collapsed rs) output := by
  have hpos : 0 < front.length :=
    List.length_pos_iff.mpr (fun h => by rw [h] at hfront; cases hfront)
  induction rs generalizing k ks output with
  | nil =>
    rw [sanitizeSegments, hkept]
    intro h
    have hlen := congrArg List.length h
    rw [collapsed, behindText, collapseSlashes, removeDots_nil, List.length_append] at hlen
    omega
  | cons s rs ih =>
    obtain ⟨hs, hts⟩ := parted_cons.mp hrs
    cases rs with
    | nil =>
      have hdrop := dropSegment_length output
      intro h
      have hlen := congrArg List.length h
      rw [sanitizeSegments, keptText_cons, hkept] at hlen
      by_cases hdots : IsDots s
      · rw [if_pos hdots, collapsed_last hs] at hlen
        rcases hdots with rfl | rfl
        · rw [removeDots_hereEnd] at hlen
          simp only [List.length_append, List.length_cons, List.length_nil] at hlen
          omega
        · rw [removeDots_upEnd] at hlen
          simp only [List.length_append, List.length_cons, List.length_nil] at hlen
          omega
      · rw [if_neg hdots, removed_last output hs hdots] at hlen
        simp only [List.length_append, List.length_cons] at hlen
        omega
    | cons t ts =>
      rcases segment_cases s with hskip | rfl | ⟨hne, hdots⟩
      · rw [sanitizeSegments_skip hskip, removed_skip output hskip hts]
        exact ih hts hk hks hkept
      · rw [removed_up output hts]
        rcases last_segment output with ⟨-, hdrop⟩ | ⟨before, w, rfl, hw, hdrop⟩
        · -- the removal has come to the root
          rw [hdrop]
          intro h
          have hhead : (keptText (k :: ks)).head? = some c := by
            rw [hkept, List.head?_append, hfront]
            rfl
          have hcode := sanitizeSegments_head hc k ks ([dot, dot] :: t :: ts) hhead
          have hrfc := removed_head hts slashFirst_nil (.inl (List.cons_ne_nil t ts))
          rw [h, hrfc] at hcode
          exact hc (Option.some.inj hcode).symm
        · cases ks with
          | nil =>
            rw [keptText_one] at hkept
            refine absurd ?_ hk
            rw [hkept]
            simp
          | cons k' ks =>
            obtain ⟨hk', hks⟩ := parted_cons.mp hks
            have hbefore := congrArg dropSegment hkept
            rw [dropSegment_kept hk, ← List.append_assoc, dropSegment_append hw] at hbefore
            rw [hdrop, sanitizeSegments_up]
            exact ih hts hk' hks hbefore
      · rw [sanitizeSegments_keep hne hdots, removed_keep output hs hne hdots hts]
        refine ih hts hs (parted_cons.mpr ⟨hk, hks⟩) ?_
        rw [keptText_cons, hkept, List.append_assoc]

/-- A first segment that is taken off leaves a part of itself behind. -/
theorem sanitizeSegments_dots {k : Bytes} (hne : k ≠ []) (hk : slash ∉ k) :
    ∀ {rs : List Bytes}, rs ≠ [] →
    Parted rs → keptText (sanitizeSegments k [] rs) ≠ removeDots (relative rs) []
  | [], h, _ => absurd rfl h
  | [s], _, hrs => by
    obtain ⟨hs, -⟩ := parted_cons.mp hrs
    rw [sanitizeSegments, keptText_cons, keptText_one, removedRelative_last hs]
    intro h
    have hlen := congrArg List.length h
    simp only [List.length_append, List.length_cons] at hlen
    omega
  | s :: t :: ts, _, hrs => by
    obtain ⟨hs, hts⟩ := parted_cons.mp hrs
    obtain ⟨ht, hts'⟩ := parted_cons.mp hts
    obtain ⟨c, w, rfl⟩ := List.exists_cons_of_ne_nil hne
    have hc : c ≠ slash := fun h => hk (h ▸ List.mem_cons_self)
    have hcw : slash ∉ [c] := fun h => hc (List.mem_singleton.mp h).symm
    rcases segment_cases s with hskip | rfl | ⟨hne', hdots⟩
    · rw [sanitizeSegments_skip hskip, removedRelative_dots hs (hskip.imp id .inl) hts]
      exact sanitizeSegments_dots hne hk (List.cons_ne_nil t ts) hts
    · rw [sanitizeSegments_front hne, removedRelative_dots hs (.inr (.inr rfl)) hts]
      have hcut : (c :: w).take 1 ++ t = c :: t := rfl
      have hct : slash ∉ c :: t := by
        rw [List.mem_cons, not_or]
        exact ⟨Ne.symm hc, ht⟩
      rw [hcut]
      match ts with
      | [] =>
        rw [sanitizeSegments, keptText_one, removedRelative_last ht]
        intro h
        have hlen := congrArg List.length h
        split_ifs at hlen
        simp at hlen
      | u :: us =>
        by_cases hdots : t = [] ∨ IsDots t
        · rw [removedRelative_dots ht hdots hts']
          exact sanitizeSegments_dots (List.cons_ne_nil c t) hct (List.cons_ne_nil u us) hts'
        · rw [not_or] at hdots
          rw [removedRelative_keep ht hdots.1 hdots.2 hts']
          have hfront : ([c] : Bytes).head? = some c := rfl
          exact sanitizeSegments_after hc hfront hts' hct parted_nil rfl
    · rw [sanitizeSegments_keep hne' hdots, removedRelative_keep hs hne' hdots hts]
      have hfront : ((c :: w) ++ [slash]).head? = some c := rfl
      refine sanitizeSegments_after hc hfront hts hs ?_ ?_
      · exact parted_cons.mpr ⟨hk, parted_nil⟩
      · rw [keptText_cons, keptText_one, List.append_assoc]
        rfl

/-! ### Where the two agree -/

/-- With `n` segments kept behind the first, these go on such that `..` does not end the path unless
nothing is left to remove, and never takes the first segment of a relative path. -/
def upsFit (root : Bool) : ℕ → List Bytes → Bool
  | _, [] => true
  | n, [s] => s ≠ [dot, dot] || (root && n == 0)
  | n, s :: t :: ts =>
    if s = [] ∨ s = [dot] then upsFit root n (t :: ts)
    else if s = [dot, dot] then (root || n != 0) && upsFit root (n - 1) (t :: ts)
    else upsFit root (n + 1) (t :: ts)

/-- Segments kept behind the first, none of them empty or of dots; the last comes first. -/
inductive Solid (first : Bytes) : List Bytes → Prop
  | first : Solid first [first]
  | keep {s : Bytes} {ks : List Bytes} : s ≠ [] → ¬ IsDots s → Solid first ks →
    Solid first (s :: ks)

theorem Solid.bottom {first k : Bytes} (h : Solid first [k]) : k = first := by
  cases h with
  | first => rfl
  | keep _ _ h => cases h

theorem Solid.pop {first k k' : Bytes} {ks : List Bytes} (h : Solid first (k :: k' :: ks)) :
    Solid first (k' :: ks) := by
  cases h with
  | keep _ _ h => exact h

theorem Solid.ne {first k k' : Bytes} {ks : List Bytes} (_ : Solid first (k :: k' :: ks)) :
    keptText (k :: k' :: ks) ≠ [] := by
  rw [keptText_cons]
  exact List.append_ne_nil_of_right_ne_nil _ (List.cons_ne_nil _ _)

/-- The last segment of a path makes a difference only if it is `..`. -/
theorem sanitizeSegments_last {first k s : Bytes} {ks : List Bytes} (hsolid : Solid first (k :: ks))
    (hs : slash ∉ s) :
    keptText (sanitizeSegments k ks [s]) = removeDots (collapsed [s]) (keptText (k :: ks)) ↔
      upsFit (first = []) ks.length [s] = true := by
  rw [sanitizeSegments, keptText_cons]
  by_cases hdots : IsDots s
  · rw [if_pos hdots, collapsed_last hs]
    rcases hdots with rfl | rfl
    · rw [removeDots_hereEnd]
      simp [upsFit]
    · have hsame : keptText (k :: ks) = dropSegment (keptText (k :: ks)) ↔
          keptText (k :: ks) = [] := by
        constructor
        · intro h
          have hdrop := dropSegment_length (keptText (k :: ks))
          rw [← h] at hdrop
          exact List.eq_nil_of_length_eq_zero (by omega)
        · intro h
          rw [h]
          rfl
      rw [removeDots_upEnd, List.append_left_inj, hsame]
      cases ks with
      | nil =>
        obtain rfl := hsolid.bottom
        simp [upsFit, keptText_one]
      | cons k' ks => simp [upsFit, hsolid.ne]
  · have hup : s ≠ [dot, dot] := fun h => hdots (.inr h)
    rw [if_neg hdots, removed_last _ hs hdots]
    simp [upsFit, hup]

/-- Behind a first segment that stays, the path is sanitized as its dot segments are removed,
exactly if the `..` in it fit. -/
theorem sanitizeSegments_iff {first : Bytes} {rs : List Bytes} (hrs : Parted rs) {k : Bytes}
    {ks : List Bytes} (hk : slash ∉ k) (hks : Parted ks) (hsolid : Solid first (k :: ks)) :
    keptText (sanitizeSegments k ks rs) = removeDots (collapsed rs) (keptText (k :: ks)) ↔
      upsFit (first = []) ks.length rs = true := by
  induction rs generalizing k ks with
  | nil =>
    rw [collapsed, behindText, collapseSlashes, removeDots_nil]
    simp [sanitizeSegments, upsFit]
  | cons s rs ih =>
    obtain ⟨hs, hts⟩ := parted_cons.mp hrs
    cases rs with
    | nil => exact sanitizeSegments_last hsolid hs
    | cons t ts =>
      rcases segment_cases s with hskip | rfl | ⟨hne, hdots⟩
      · rw [sanitizeSegments_skip hskip, removed_skip _ hskip hts, ih hts hk hks hsolid, upsFit,
          if_pos hskip]
      · rw [removed_up _ hts, upsFit, if_neg (by decide), if_pos rfl]
        cases ks with
        | nil =>
          obtain rfl := hsolid.bottom
          rw [keptText_one, dropSegment_segment hk]
          by_cases hempty : k = []
          · subst hempty
            have hrest := ih hts hk hks hsolid
            rw [keptText_one] at hrest
            rw [sanitizeSegments_root, hrest]
            simp
          · obtain ⟨c, w, rfl⟩ := List.exists_cons_of_ne_nil hempty
            have hc : c ≠ slash := fun h => hk (h ▸ List.mem_cons_self)
            have hcode := sanitizeSegments_head hc (c :: w) [] ([dot, dot] :: t :: ts) rfl
            have hrfc := removed_head hts slashFirst_nil (.inl (List.cons_ne_nil t ts))
            constructor
            · intro h
              rw [h, hrfc] at hcode
              exact absurd (Option.some.inj hcode).symm hc
            · simp
        | cons k' ks =>
          obtain ⟨hk', hks'⟩ := parted_cons.mp hks
          rw [dropSegment_kept hk, sanitizeSegments_up, ih hts hk' hks' hsolid.pop]
          simp
      · rw [sanitizeSegments_keep hne hdots, removed_keep _ hs hne hdots hts, ← keptText_cons,
          ih hts hs (parted_cons.mpr ⟨hk, hks⟩) (.keep hne hdots hsolid), upsFit,
          if_neg (fun h => h.elim hne (fun h => hdots (.inl h))), if_neg (fun h => hdots (.inr h))]
        rfl

/-! ### Clean segments -/

/-- No dot segment, and no empty segment before the last one. -/
structure Clean (ss : List Bytes) : Prop where
  noDots : ∀ s ∈ ss, ¬ IsDots s
  noEmpty : [] ∉ ss.dropLast

theorem Solid.forward {first : Bytes} {ks : List Bytes} (h : Solid first ks) :
    ∃ ss, ks = (first :: ss).reverse ∧ ∀ s ∈ ss, s ≠ [] ∧ ¬ IsDots s := by
  induction h with
  | first => exact ⟨[], rfl, fun _ h => absurd h List.not_mem_nil⟩
  | @keep s ks hne hdots _ ih =>
    obtain ⟨ss, rfl, hss⟩ := ih
    refine ⟨ss ++ [s], by simp, ?_⟩
    intro x hx
    rcases List.mem_append.mp hx with hx | hx
    · exact hss x hx
    · rw [List.mem_singleton.mp hx]
      exact ⟨hne, hdots⟩

theorem Solid.clean {first : Bytes} {ks : List Bytes} (h : Solid first ks) :
    ∃ ss, ks = (first :: ss).reverse ∧ Clean ss := by
  obtain ⟨ss, hks, hss⟩ := h.forward
  exact ⟨ss, hks, fun s hs => (hss s hs).2, fun h => (hss [] (List.mem_of_mem_dropLast h)).1 rfl⟩

theorem Solid.clean_last {first s : Bytes} {ks : List Bytes} (h : Solid first ks)
    (hs : ¬ IsDots s) :
    ∃ ss, s :: ks = (first :: ss).reverse ∧ Clean ss := by
  obtain ⟨ss, rfl, hss⟩ := h.forward
  refine ⟨ss ++ [s], by simp, ?_, ?_⟩
  · intro x hx
    rcases List.mem_append.mp hx with hx | hx
    · exact (hss x hx).2
    · rwa [List.mem_singleton.mp hx]
  · rw [List.dropLast_concat]
    exact fun h => (hss [] h).1 rfl

/-- Where the `..` fit, nothing is left to sanitize. -/
theorem sanitizeSegments_clean {first : Bytes} {rs : List Bytes} {k : Bytes} {ks : List Bytes}
    (hsolid : Solid first (k :: ks)) (hfit : upsFit (first = []) ks.length rs = true) :
    ∃ ss, sanitizeSegments k ks rs = (first :: ss).reverse ∧ Clean ss := by
  induction rs generalizing k ks with
  | nil => exact hsolid.clean
  | cons s rs ih =>
    cases rs with
    | nil =>
      refine hsolid.clean_last ?_
      split_ifs with hdots
      · decide
      · exact hdots
    | cons t ts =>
      rcases segment_cases s with hskip | rfl | ⟨hne, hdots⟩
      · rw [upsFit, if_pos hskip] at hfit
        rw [sanitizeSegments_skip hskip]
        exact ih hsolid hfit
      · rw [upsFit, if_neg (by decide), if_pos rfl, Bool.and_eq_true] at hfit
        match ks with
        | [] =>
          obtain rfl := hsolid.bottom
          obtain rfl : k = [] := by simpa using hfit.1
          rw [sanitizeSegments_root]
          exact ih hsolid hfit.2
        | k' :: ks =>
          rw [sanitizeSegments_up]
          exact ih hsolid.pop hfit.2
      · rw [upsFit, if_neg (fun h => h.elim hne (fun h => hdots (.inl h))),
          if_neg (fun h => hdots (.inr h))] at hfit
        rw [sanitizeSegments_keep hne hdots]
        exact ih (.keep hne hdots hsolid) hfit

/-- Clean segments are kept. -/
theorem Clean.sanitizeSegments {ss : List Bytes} (h : Clean ss) (k : Bytes) (ks : List Bytes) :
    sanitizeSegments k ks ss = ss.reverse ++ k :: ks := by
  induction ss generalizing k ks with
  | nil => rfl
  | cons s ss ih =>
    have hdots := h.noDots s List.mem_cons_self
    cases ss with
    | nil =>
      rw [ExtHttp.sanitizeSegments, if_neg hdots, List.reverse_singleton, List.singleton_append]
    | cons t ts =>
      have hempty := h.noEmpty
      rw [List.dropLast_cons_cons, List.mem_cons, not_or] at hempty
      have hrest : Clean (t :: ts) := ⟨fun x hx => h.noDots x (List.mem_cons_of_mem s hx), hempty.2⟩
      rw [sanitizeSegments_keep (Ne.symm hempty.1) hdots, ih hrest]
      simp

theorem sanitizeSegments_parted {k : Bytes} {ks rs : List Bytes} (hk : slash ∉ k) (hks : Parted ks)
    (hrs : Parted rs) : Parted (sanitizeSegments k ks rs) := by
  fun_induction sanitizeSegments k ks rs with
  | case1 k ks => exact parted_cons.mpr ⟨hk, hks⟩
  | case2 k ks s =>
    refine parted_cons.mpr ⟨?_, parted_cons.mpr ⟨hk, hks⟩⟩
    split_ifs
    · exact List.not_mem_nil
    · exact (parted_cons.mp hrs).1
  | case3 k ks s t ts hskip ih => exact ih hk hks (parted_cons.mp hrs).2
  | case4 k t ts k' ks hskip ih =>
    exact ih (parted_cons.mp hks).1 (parted_cons.mp hks).2 (parted_cons.mp hrs).2
  | case5 t ts hskip ih => exact ih hk hks (parted_cons.mp hrs).2
  | case6 k t ts hne hskip ih =>
    obtain ⟨ht, hts⟩ := parted_cons.mp (parted_cons.mp hrs).2
    refine ih ?_ parted_nil hts
    rw [List.mem_append, not_or]
    exact ⟨fun h => hk (List.mem_of_mem_take h), ht⟩
  | case7 k ks s t ts hskip hup ih =>
    obtain ⟨hs, hts⟩ := parted_cons.mp hrs
    exact ih hs (parted_cons.mpr ⟨hk, hks⟩) hts

theorem behindText_concat (ss : List Bytes) (s : Bytes) :
    behindText (ss ++ [s]) = behindText ss ++ slash :: s := by
  induction ss with
  | nil => simp [behindText]
  | cons t ts ih => simp [behindText, ih]

theorem keptText_reverse (first : Bytes) (ss : List Bytes) :
    keptText (first :: ss).reverse = first ++ behindText ss := by
  induction ss using List.reverseRecOn with
  | nil => simp [keptText, beforeText, behindText]
  | append_singleton ss s ih =>
    obtain ⟨k, ks, hks⟩ := List.exists_cons_of_ne_nil (l := (first :: ss).reverse) (by simp)
    have hreverse : (first :: (ss ++ [s])).reverse = s :: (first :: ss).reverse := by simp
    rw [hreverse, hks, keptText_cons, ← hks, ih, behindText_concat, List.append_assoc]

theorem slashes_behind {s X : Bytes} (hs : slash ∉ s) (h : [slash, slash] <:+: s ++ X) :
    [slash, slash] <:+: X := by
  induction s with
  | nil => exact h
  | cons c s ih =>
    rw [List.mem_cons, not_or] at hs
    rcases List.infix_cons_iff.mp h with h | h
    · exact absurd (List.cons_prefix_cons.mp h).1 hs.1
    · exact ih hs.2 h

theorem no_slashes {s : Bytes} {ss : List Bytes} (hs : slash ∉ s) (hss : Parted ss)
    (hempty : [] ∉ ss.dropLast) :
    ¬ [slash, slash] <:+: s ++ behindText ss := by
  intro h
  induction ss generalizing s with
  | nil => exact absurd (List.infix_nil.mp (slashes_behind hs h)) (List.cons_ne_nil _ _)
  | cons t ts ih =>
    obtain ⟨ht, hts⟩ := parted_cons.mp hss
    rcases List.infix_cons_iff.mp (slashes_behind hs h) with h | h
    · have hnext := (List.cons_prefix_cons.mp h).2
      match t, ts with
      | [], [] => exact absurd (List.prefix_nil.mp hnext) (List.cons_ne_nil _ _)
      | [], u :: us => exact hempty List.mem_cons_self
      | c :: t, ts => exact ht ((List.cons_prefix_cons.mp hnext).1 ▸ List.mem_cons_self)
    · refine ih ht hts ?_ h
      cases ts with
      | nil => exact List.not_mem_nil
      | cons u us => exact fun hin => hempty (List.mem_cons_of_mem t hin)

theorem sanitizePath_noNul {path : Bytes} (h : nul ∉ path) : nul ∉ sanitizePath path := by
  rw [sanitizePath]
  split_ifs
  · exact h
  · split
    · intro hin
      simpa using List.mem_takeWhile_imp hin
    · exact List.not_mem_nil

/-! ### The sanitized path -/

/-- A path as it is sanitized: no empty segment inside it, no dot segment, the path without its dot
segments and runs of slashes, and one that stays as it is. -/
structure PathSanitized (path result : Bytes) : Prop where
  noEmpty : ¬ [slash, slash] <:+: result
  noDots : ∀ s ∈ segments result, ¬ IsDots s
  removed : result = removeDotSegments (collapseSlashes path)
  again : sanitizePath result = result

/-- The path does not begin with dots, `..` does not take the first segment of a relative path, and
does not end a path of which something is kept. -/
def DotsFit (path : Bytes) : Prop :=
  match segments path with
  | [] => True
  | s :: ss => ¬ IsDots s ∧ upsFit (s = []) 0 ss = true

theorem removed_first {s : Bytes} {ss : List Bytes} (hs : slash ∉ s) (hss : Parted ss)
    (hdots : ¬ IsDots s) :
    removeDotSegments (collapseSlashes (s ++ behindText ss)) = removeDots (collapsed ss) s := by
  rw [collapse_segment hs, removeDotSegments]
  by_cases hne : s = []
  · rw [hne]
    rfl
  · exact removeDots_first [] hs hne hdots (slashFirst_collapsed hss)

/-- A path that begins with dots is not sanitized as its dot segments are removed. -/
theorem sanitizePath_leading {s : Bytes} {ss : List Bytes} (hnul : nul ∉ s ++ behindText ss)
    (hs : slash ∉ s) (hss : Parted ss) (hdots : IsDots s) :
    sanitizePath (s ++ behindText ss) ≠
      removeDotSegments (collapseSlashes (s ++ behindText ss)) := by
  have hne : s ≠ [] := by
    rintro rfl
    exact absurd hdots (by decide)
  rw [sanitizePath_segments hnul hs hss, collapse_segment hs, removeDotSegments]
  by_cases hmore : ss = []
  · subst hmore
    rw [sanitizeSegments, keptText_one, behindText, collapseSlashes, List.append_nil,
      removeDots_only [] hdots]
    exact hne
  · have hrest := collapsed_relative hss hmore
    rw [collapsed] at hrest
    rw [hrest, removeDots_leading _ [] hdots]
    exact sanitizeSegments_dots hne hs hmore hss

theorem sanitizePath_iff (path : CString) :
    PathSanitized path.bytes (sanitizePath path.bytes) ↔ DotsFit path.bytes := by
  obtain ⟨s, ss, hpath, hs, hss⟩ := exists_segments path.bytes
  have hnul := path.noNul
  rw [hpath] at hnul ⊢
  rw [DotsFit, segments_text hs hss]
  have hsame : ¬ IsDots s →
      (sanitizePath (s ++ behindText ss) =
        removeDotSegments (collapseSlashes (s ++ behindText ss)) ↔
        upsFit (s = []) 0 ss = true) := by
    intro hdots
    rw [sanitizePath_segments hnul hs hss, removed_first hs hss hdots]
    exact sanitizeSegments_iff hss hs parted_nil .first
  constructor
  · intro h
    have hdots : ¬ IsDots s := fun hdots => sanitizePath_leading hnul hs hss hdots h.removed
    exact ⟨hdots, (hsame hdots).mp h.removed⟩
  · rintro ⟨hdots, hfit⟩
    obtain ⟨ts, hts, hclean⟩ := sanitizeSegments_clean .first hfit
    have hresult : sanitizePath (s ++ behindText ss) = s ++ behindText ts := by
      rw [sanitizePath_segments hnul hs hss, hts, keptText_reverse]
    have hparted := sanitizeSegments_parted hs parted_nil hss
    rw [hts] at hparted
    have hparts : Parted ts := fun x hx =>
      hparted x (List.mem_reverse.mpr (List.mem_cons_of_mem s hx))
    have hnul' := sanitizePath_noNul hnul
    refine ⟨?_, ?_, (hsame hdots).mpr hfit, ?_⟩
    · rw [hresult]
      exact no_slashes hs hparts hclean.noEmpty
    · rw [hresult, segments_text hs hparts]
      exact List.forall_mem_cons.mpr ⟨hdots, hclean.noDots⟩
    · rw [hresult] at hnul' ⊢
      rw [sanitizePath_segments hnul' hs hparts, hclean.sanitizeSegments, ← keptText_reverse,
        List.reverse_cons]

/-- `..` at the end of `/a/..` -/
theorem sanitizePath_upEnd : ¬ PathSanitized (ascii "/a/..") (sanitizePath (ascii "/a/..")) := by
  intro h
  have hresult : sanitizePath (ascii "/a/..") = ascii "/a/" := by decide +kernel
  have hremoved : removeDotSegments (collapseSlashes (ascii "/a/..")) =
      ascii "/" := by decide +kernel
  have hsame := h.removed
  rw [hresult, hremoved] at hsame
  exact absurd hsame (by decide)

end ExtHttp
