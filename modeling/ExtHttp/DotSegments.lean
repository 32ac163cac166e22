import ExtHttp.Bytes
import Mathlib.Data.List.Infix

/-!
# Dot segments

The segments of a path, runs of slashes, and the removal of dot segments as section 5.2.4 of RFC
3986 has it, with an input and an output.
-/
namespace ExtHttp

/-! ### Segments -/

def segments (path : Bytes) : List Bytes := path.splitOn slash

/-- `.` and `..` -/
abbrev IsDots (s : Bytes) : Prop := s = [dot] ∨ s = [dot, dot]

/-- Segments behind a first one. -/
def behindText : List Bytes → Bytes
  | [] => []
  | s :: ss => slash :: (s ++ behindText ss)

/-- Segments before a last one, the last of them first. -/
def beforeText : List Bytes → Bytes
  | [] => []
  | k :: ks => beforeText ks ++ (k ++ [slash])

/-- No slash is in a segment. -/
def Parted (ss : List Bytes) : Prop := ∀ s ∈ ss, slash ∉ s

@[simp] theorem parted_nil : Parted [] := fun _ h => absurd h (List.not_mem_nil)

@[simp] theorem parted_cons {s : Bytes} {ss : List Bytes} :
    Parted (s :: ss) ↔ slash ∉ s ∧ Parted ss :=
  List.forall_mem_cons

theorem segments_text {s : Bytes} {ss : List Bytes} (hs : slash ∉ s) (hss : Parted ss) :
    segments (s ++ behindText ss) = s :: ss := by
  induction ss generalizing s with
  | nil => rw [behindText, List.append_nil, segments, List.splitOn_eq_singleton hs]
  | cons t ts ih =>
    rw [parted_cons] at hss
    rw [behindText, segments, List.splitOn_append_cons_self_of_not_mem hs]
    exact congrArg _ (ih hss.1 hss.2)

theorem exists_segments (path : Bytes) :
    ∃ s ss, path = s ++ behindText ss ∧ slash ∉ s ∧ Parted ss := by
  induction path with
  | nil => exact ⟨[], [], rfl, List.not_mem_nil, parted_nil⟩
  | cons c path ih =>
    obtain ⟨s, ss, rfl, hs, hss⟩ := ih
    by_cases hc : c = slash
    · exact ⟨[], s :: ss, by rw [hc]; rfl, List.not_mem_nil, parted_cons.mpr ⟨hs, hss⟩⟩
    · refine ⟨c :: s, ss, rfl, ?_, hss⟩
      rw [List.mem_cons, not_or]
      exact ⟨Ne.symm hc, hs⟩

/-- The first slash parts a text in one way only. -/
theorem first_slash {a b c d : Bytes} (ha : slash ∉ a) (hc : slash ∉ c)
    (h : a ++ slash :: b = c ++ slash :: d) :
    a = c ∧ b = d := by
  have hsplit := congrArg segments h
  rw [segments, segments, List.splitOn_append_cons_self_of_not_mem ha,
    List.splitOn_append_cons_self_of_not_mem hc, List.cons.injEq] at hsplit
  obtain ⟨rfl, -⟩ := hsplit
  exact ⟨rfl, (List.cons.inj (List.append_cancel_left h)).2⟩

theorem first_segment {s a r : Bytes} {ss : List Bytes} (hs : slash ∉ s) (ha : slash ∉ a)
    (h : s ++ behindText ss = a ++ slash :: r) : s = a ∧ ∃ t ts,
      ss = t :: ts ∧ r = t ++ behindText ts := by
  match ss with
  | [] =>
    rw [behindText, List.append_nil] at h
    exact absurd (h ▸ List.mem_append_right a List.mem_cons_self) hs
  | t :: ts =>
    obtain ⟨hsa, hr⟩ := first_slash hs ha h
    exact ⟨hsa, t, ts, rfl, hr.symm⟩

theorem only_segment {s a : Bytes} {ss : List Bytes} (ha : slash ∉ a) (h : s ++ behindText ss = a) :
    s = a ∧ ss = [] := by
  match ss with
  | [] => exact ⟨by rw [← h, behindText, List.append_nil], rfl⟩
  | t :: ts =>
    refine absurd ?_ ha
    rw [← h]
    exact List.mem_append_right s List.mem_cons_self

/-! ### Runs of slashes -/

/-- One slash for every run of slashes. -/
def collapseSlashes : Bytes → Bytes
  | [] => []
  | c :: r => if c = slash ∧ r.head? = some slash then collapseSlashes r else c :: collapseSlashes r

theorem collapse_segment {s : Bytes} (hs : slash ∉ s) (r : Bytes) :
    collapseSlashes (s ++ r) = s ++ collapseSlashes r := by
  induction s with
  | nil => rfl
  | cons c s ih =>
    rw [List.mem_cons, not_or] at hs
    rw [List.cons_append, collapseSlashes, if_neg (fun h => hs.1 h.1.symm), ih hs.2]
    rfl

/-- The segments behind a first one, without runs of slashes. -/
def collapsed (ss : List Bytes) : Bytes := collapseSlashes (behindText ss)

theorem collapsed_last {s : Bytes} (hs : slash ∉ s) : collapsed [s] = slash :: s := by
  have hnext : s.head? ≠ some slash := fun h => hs (List.mem_of_mem_head? h)
  rw [collapsed, behindText, behindText, collapseSlashes, List.append_nil,
    if_neg (fun h => hnext h.2)]
  rw [← List.append_nil s, collapse_segment hs]
  rfl

theorem collapsed_empty (t : Bytes) (ts : List Bytes) :
    collapsed ([] :: t :: ts) = collapsed (t :: ts) := by
  rw [collapsed, behindText, List.nil_append, collapseSlashes, if_pos ⟨rfl, rfl⟩]
  rfl

theorem collapsed_cons {s : Bytes} (hs : slash ∉ s) (hne : s ≠ []) (ss : List Bytes) :
    collapsed (s :: ss) = slash :: (s ++ collapsed ss) := by
  have hnext : (s ++ behindText ss).head? ≠ some slash := by
    obtain ⟨c, r, rfl⟩ := List.exists_cons_of_ne_nil hne
    intro h
    rw [List.cons_append, List.head?_cons, Option.some.injEq] at h
    exact hs (h ▸ List.mem_cons_self)
  rw [collapsed, behindText, collapseSlashes, if_neg (fun h => hnext h.2), collapse_segment hs]
  rfl

theorem collapsed_slash {ss : List Bytes} (hss : Parted ss) (hne : ss ≠ []) :
    ∃ r, collapsed ss = slash :: r := by
  induction ss with
  | nil => exact absurd rfl hne
  | cons s ss ih =>
    rw [parted_cons] at hss
    by_cases hs : s = []
    · subst hs
      cases ss with
      | nil => exact ⟨[], rfl⟩
      | cons t ts =>
        rw [collapsed_empty]
        exact ih hss.2 (List.cons_ne_nil t ts)
    · exact ⟨_, collapsed_cons hss.1 hs ss⟩

/-! ### The removal -/

/-- The output without its last segment and the slash before that. -/
def dropSegment (output : Bytes) : Bytes := (output.reverse.dropWhile (· ≠ slash)).tail.reverse

/-- `remove_dot_segments`; the steps are those of the RFC, from 2A to 2E. -/
def removeDots (input output : Bytes) : Bytes :=
  if [dot, dot, slash] <+: input then removeDots (input.drop 3) output
  else if [dot, slash] <+: input then removeDots (input.drop 2) output
  else if [slash, dot, slash] <+: input then removeDots (slash :: input.drop 3) output
  else if input = [slash, dot] then removeDots [slash] output
  else if [slash, dot, dot, slash] <+: input then removeDots (slash :: input.drop 4)
    (dropSegment output)
  else if input = [slash, dot, dot] then removeDots [slash] (dropSegment output)
  else if IsDots input then output
  else
    match input with
    | [] => output
    | c :: r => removeDots (r.dropWhile (· ≠ slash)) (output ++ c :: r.takeWhile (· ≠ slash))
termination_by input.length
decreasing_by
  all_goals
    first
      | (have hle := List.IsPrefix.length_le ‹_ <+: input›
         simp only [List.length_cons, List.length_nil, List.length_drop] at hle ⊢
         omega)
      | (subst input; simp)
      | (have hle := List.length_dropWhile_le (fun c => decide (c ≠ slash)) r
         simp only [List.length_cons]
         omega)

/-- The path without its dot segments. -/
def removeDotSegments (path : Bytes) : Bytes := removeDots path []

example : removeDotSegments (ascii "/a/b/c/./../../g") = ascii "/a/g" := by decide +kernel

/-! ### The removal, segment by segment -/

theorem dropSegment_append {k : Bytes} (hk : slash ∉ k) (before : Bytes) :
    dropSegment (before ++ slash :: k) = before := by
  have hall : ∀ c ∈ k.reverse, decide (c ≠ slash) = true := by
    intro c hc
    rw [decide_eq_true_eq]
    rintro rfl
    exact hk (List.mem_reverse.mp hc)
  rw [dropSegment, List.reverse_append, List.reverse_cons, List.append_assoc,
    List.dropWhile_append_of_pos hall]
  simp

theorem dropSegment_segment {k : Bytes} (hk : slash ∉ k) : dropSegment k = [] := by
  have hall : ∀ c ∈ k.reverse, decide (c ≠ slash) = true := by
    intro c hc
    rw [decide_eq_true_eq]
    rintro rfl
    exact hk (List.mem_reverse.mp hc)
  rw [dropSegment, List.dropWhile_eq_nil_iff.mpr hall]
  rfl

theorem dropSegment_length (output : Bytes) : (dropSegment output).length ≤ output.length - 1 := by
  have hle := List.length_dropWhile_le (fun c => decide (c ≠ slash)) output.reverse
  rw [List.length_reverse] at hle
  rw [dropSegment, List.length_reverse, List.length_tail]
  omega

/-- Nothing, or a slash at first. -/
def SlashFirst (X : Bytes) : Prop := ∀ c ∈ X.head?, c = slash

@[simp] theorem slashFirst_nil : SlashFirst [] := fun _ h => absurd h (by simp)

@[simp] theorem slashFirst_slash (r : Bytes) : SlashFirst (slash :: r) :=
  fun _ h => (Option.some.inj h).symm

theorem slashFirst_collapsed {ss : List Bytes} (hss : Parted ss) : SlashFirst (collapsed ss) := by
  by_cases hne : ss = []
  · subst hne
    exact slashFirst_nil
  · obtain ⟨r, hr⟩ := collapsed_slash hss hne
    rw [hr]
    exact slashFirst_slash r

section
variable {s X : Bytes}

theorem prefix_segment {a : Bytes} (hs : slash ∉ s) (ha : slash ∉ a) (hX : SlashFirst X)
    (h : a ++ [slash] <+: s ++ X) : s = a := by
  obtain ⟨r, hr⟩ := h
  rw [List.append_assoc, List.singleton_append] at hr
  match X with
  | [] =>
    rw [List.append_nil] at hr
    exact absurd (hr ▸ List.mem_append_right a List.mem_cons_self) hs
  | c :: Y =>
    obtain rfl : c = slash := hX c rfl
    exact (first_slash ha hs hr).1.symm

theorem whole_segment {a : Bytes} (ha : slash ∉ a) (hX : SlashFirst X) (h : s ++ X = a) :
    s = a := by
  match X with
  | [] => rw [← h, List.append_nil]
  | c :: Y =>
    obtain rfl : c = slash := hX c rfl
    exact absurd (h ▸ List.mem_append_right s List.mem_cons_self) ha

theorem takeWhile_segment (hs : slash ∉ s) (hX : SlashFirst X) :
    (s ++ X).takeWhile (· ≠ slash) = s := by
  rw [List.takeWhile_append_of_pos]
  · match X with
    | [] => simp
    | c :: Y =>
      obtain rfl : c = slash := hX c rfl
      simp
  · intro c hc
    rw [decide_eq_true_eq]
    rintro rfl
    exact hs hc

theorem dropWhile_segment (hs : slash ∉ s) (hX : SlashFirst X) :
    (s ++ X).dropWhile (· ≠ slash) = X := by
  have hsplit := List.takeWhile_append_dropWhile (p := (· ≠ slash)) (l := s ++ X)
  rw [takeWhile_segment hs hX] at hsplit
  exact List.append_cancel_left hsplit

variable (output : Bytes)

theorem slash_not_dot : slash ∉ [dot] := by decide

theorem slash_not_dots : slash ∉ [dot, dot] := by decide

theorem removeDots_nil : removeDots [] output = output := by
  rw [removeDots]
  simp

theorem removeDots_segment (hs : slash ∉ s) (hdots : ¬ IsDots s) (hX : SlashFirst X) :
    removeDots (slash :: (s ++ X)) output = removeDots X (output ++ slash :: s) := by
  have hdot : ¬ dot = slash := by decide
  have hhere : ¬ [slash, dot, slash] <+: slash :: (s ++ X) := fun h =>
    hdots (.inl (prefix_segment hs slash_not_dot hX (List.cons_prefix_cons.mp h).2))
  have hup : ¬ [slash, dot, dot, slash] <+: slash :: (s ++ X) := fun h =>
    hdots (.inr (prefix_segment hs slash_not_dots hX (List.cons_prefix_cons.mp h).2))
  have hhereEnd : ¬ slash :: (s ++ X) = [slash, dot] := fun h =>
    hdots (.inl (whole_segment slash_not_dot hX (List.cons.inj h).2))
  have hupEnd : ¬ slash :: (s ++ X) = [slash, dot, dot] := fun h =>
    hdots (.inr (whole_segment slash_not_dots hX (List.cons.inj h).2))
  have hrest : ¬ IsDots (slash :: (s ++ X)) := by
    rintro (h | h)
    · exact hdot (List.cons.inj h).1.symm
    · exact hdot (List.cons.inj h).1.symm
  rw [removeDots, if_neg (fun h => hdot (List.cons_prefix_cons.mp h).1),
    if_neg (fun h => hdot (List.cons_prefix_cons.mp h).1), if_neg hhere, if_neg hhereEnd,
    if_neg hup, if_neg hupEnd, if_neg hrest]
  simp only [takeWhile_segment hs hX, dropWhile_segment hs hX]

theorem removeDots_first (hs : slash ∉ s) (hne : s ≠ []) (hdots : ¬ IsDots s) (hX : SlashFirst X) :
    removeDots (s ++ X) output = removeDots X (output ++ s) := by
  obtain ⟨c, r, rfl⟩ := List.exists_cons_of_ne_nil hne
  have hc : ¬ slash = c := fun h => hs (h ▸ List.mem_cons_self)
  rw [List.cons_append]
  have hr : slash ∉ r := fun h => hs (List.mem_cons_of_mem c h)
  have hup : ¬ [dot, dot, slash] <+: c :: (r ++ X) :=
    fun h => hdots (.inr (prefix_segment hs slash_not_dots hX h))
  have hhere : ¬ [dot, slash] <+: c :: (r ++ X) := fun h =>
    hdots (.inl (prefix_segment hs slash_not_dot hX h))
  have hrest : ¬ IsDots (c :: (r ++ X)) := by
    rintro (h | h)
    · exact hdots (.inl (whole_segment slash_not_dot hX h))
    · exact hdots (.inr (whole_segment slash_not_dots hX h))
  rw [removeDots.eq_def, if_neg hup, if_neg hhere,
    if_neg (fun h => hc (List.cons_prefix_cons.mp h).1),
    if_neg (fun h => hc (List.cons.inj h).1.symm),
    if_neg (fun h => hc (List.cons_prefix_cons.mp h).1),
    if_neg (fun h => hc (List.cons.inj h).1.symm), if_neg hrest]
  simp only [takeWhile_segment hr hX, dropWhile_segment hr hX]

end

section
variable (r output : Bytes)

theorem removeDots_here : removeDots (slash :: dot :: slash :: r) output =
    removeDots (slash :: r) output := by
  rw [removeDots]
  simp [dot, slash]

theorem removeDots_hereEnd : removeDots [slash, dot] output = output ++ [slash] := by
  have hlast := removeDots_segment (s := []) (X := []) output (by simp) (by simp) slashFirst_nil
  rw [removeDots]
  simpa [dot, slash, removeDots_nil] using hlast

theorem removeDots_up : removeDots (slash :: dot :: dot :: slash :: r) output =
    removeDots (slash :: r) (dropSegment output) := by
  rw [removeDots]
  simp [dot, slash]

theorem removeDots_upEnd : removeDots [slash, dot, dot] output = dropSegment output ++ [slash] := by
  have hlast := removeDots_segment (s := []) (X := []) (dropSegment output) (by simp)
    (by simp) slashFirst_nil
  rw [removeDots]
  simpa [dot, slash, removeDots_nil] using hlast

/-- Dots at the beginning are taken off. -/
theorem removeDots_leading {s : Bytes} (hs : IsDots s) :
    removeDots (s ++ slash :: r) output = removeDots r output := by
  rw [removeDots.eq_def]
  rcases hs with rfl | rfl <;> simp [dot, slash]

theorem removeDots_only {s : Bytes} (hs : IsDots s) : removeDots s output = output := by
  rw [removeDots.eq_def]
  rcases hs with rfl | rfl <;> simp [dot, slash, IsDots]

end

/-! ### The removal of collapsed segments -/

theorem segment_cases (s : Bytes) : (s = [] ∨ s = [dot]) ∨ s = [dot, dot] ∨
    s ≠ [] ∧ ¬ IsDots s := by
  by_cases hempty : s = []
  · exact .inl (.inl hempty)
  by_cases hhere : s = [dot]
  · exact .inl (.inr hhere)
  by_cases hup : s = [dot, dot]
  · exact .inr (.inl hup)
  · exact .inr (.inr ⟨hempty, fun h => h.elim hhere hup⟩)

section
variable {s t : Bytes} {ts : List Bytes} (output : Bytes)

theorem removed_last (hs : slash ∉ s) (hdots : ¬ IsDots s) :
    removeDots (collapsed [s]) output = output ++ slash :: s := by
  have hlast := removeDots_segment output hs hdots slashFirst_nil
  rw [List.append_nil, removeDots_nil] at hlast
  rw [collapsed_last hs, hlast]

theorem removed_skip (hs : s = [] ∨ s = [dot]) (hts : Parted (t :: ts)) :
    removeDots (collapsed (s :: t :: ts)) output = removeDots (collapsed (t :: ts)) output := by
  rcases hs with rfl | rfl
  · rw [collapsed_empty]
  · obtain ⟨r, hr⟩ := collapsed_slash hts (List.cons_ne_nil t ts)
    rw [collapsed_cons slash_not_dot (List.cons_ne_nil _ _), hr]
    exact removeDots_here r output

theorem removed_up (hts : Parted (t :: ts)) :
    removeDots (collapsed ([dot, dot] :: t :: ts)) output =
      removeDots (collapsed (t :: ts)) (dropSegment output) := by
  obtain ⟨r, hr⟩ := collapsed_slash hts (List.cons_ne_nil t ts)
  rw [collapsed_cons slash_not_dots (List.cons_ne_nil _ _), hr]
  exact removeDots_up r output

theorem removed_keep (hs : slash ∉ s) (hne : s ≠ []) (hdots : ¬ IsDots s) (hts : Parted ts) :
    removeDots (collapsed (s :: ts)) output = removeDots (collapsed ts) (output ++ slash :: s) := by
  rw [collapsed_cons hs hne]
  exact removeDots_segment output hs hdots (slashFirst_collapsed hts)

end

/-- What an output is left with: the part before its last slash, or nothing. -/
theorem last_segment (output : Bytes) :
    slash ∉ output ∧ dropSegment output = [] ∨
      ∃ before k, output = before ++ slash :: k ∧ slash ∉ k ∧ dropSegment output = before := by
  by_cases hslash : slash ∈ output
  · right
    obtain ⟨k, before, hsplit, hk⟩ := List.eq_append_cons_of_mem (List.mem_reverse.mpr hslash)
    have hout : output = before.reverse ++ slash :: k.reverse := by
      rw [← List.reverse_reverse output, hsplit]
      simp
    have hk' : slash ∉ k.reverse := fun h => hk (List.mem_reverse.mp h)
    exact ⟨before.reverse, k.reverse, hout, hk', by rw [hout, dropSegment_append hk']⟩
  · exact .inl ⟨hslash, dropSegment_segment hslash⟩

theorem slashFirst_dropSegment {output : Bytes} (h : SlashFirst output) :
    SlashFirst (dropSegment output) := by
  rcases last_segment output with ⟨-, hdrop⟩ | ⟨before, k, rfl, -, hdrop⟩
  · rw [hdrop]
    exact slashFirst_nil
  · rw [hdrop]
    cases before with
    | nil => exact slashFirst_nil
    | cons c before => exact h

theorem slash_head {output : Bytes} (h : SlashFirst output) (X : Bytes) :
    (output ++ slash :: X).head? = some slash := by
  cases output with
  | nil => rfl
  | cons c r => exact congrArg some (h c rfl)

/-- From the root on there is a slash at first. -/
theorem removed_head {ss : List Bytes} (hss : Parted ss) {output : Bytes}
    (hfirst : SlashFirst output) (hne : ss ≠ [] ∨ output ≠ []) :
    (removeDots (collapsed ss) output).head? = some slash := by
  induction ss generalizing output with
  | nil =>
    obtain ⟨c, r, rfl⟩ := List.exists_cons_of_ne_nil (hne.resolve_left (fun h => h rfl))
    rw [collapsed, behindText, collapseSlashes, removeDots_nil]
    exact congrArg some (hfirst c rfl)
  | cons s ss ih =>
    obtain ⟨hs, hts⟩ := parted_cons.mp hss
    cases ss with
    | nil =>
      by_cases hdots : IsDots s
      · rw [collapsed_last hs]
        rcases hdots with rfl | rfl
        · rw [removeDots_hereEnd]
          exact slash_head hfirst []
        · rw [removeDots_upEnd]
          exact slash_head (slashFirst_dropSegment hfirst) []
      · rw [removed_last output hs hdots]
        exact slash_head hfirst s
    | cons t ts =>
      have hmore : t :: ts ≠ [] := List.cons_ne_nil t ts
      rcases segment_cases s with hskip | rfl | ⟨hne', hdots⟩
      · rw [removed_skip output hskip hts]
        exact ih hts hfirst (.inl hmore)
      · rw [removed_up output hts]
        exact ih hts (slashFirst_dropSegment hfirst) (.inl hmore)
      · rw [removed_keep output hs hne' hdots hts]
        refine ih hts ?_ (.inl hmore)
        intro c hc
        rw [slash_head hfirst s] at hc
        exact (Option.some.inj hc).symm

/-! ### A relative rest -/

/-- The segments behind a first one, without the slash in front of them. -/
def relative (ss : List Bytes) : Bytes := (collapsed ss).tail

section
variable {s t : Bytes} {ts : List Bytes}

theorem relative_last (hs : slash ∉ s) : relative [s] = s := by
    rw [relative, collapsed_last hs, List.tail_cons]

theorem relative_empty (t : Bytes) (ts : List Bytes) :
    relative ([] :: t :: ts) = relative (t :: ts) := by
  rw [relative, collapsed_empty, relative]

theorem relative_cons (hs : slash ∉ s) (hne : s ≠ []) (ts : List Bytes) :
    relative (s :: ts) = s ++ collapsed ts := by
  rw [relative, collapsed_cons hs hne, List.tail_cons]

theorem collapsed_relative {ss : List Bytes} (hss : Parted ss) (hne : ss ≠ []) :
    collapsed ss = slash :: relative ss := by
  obtain ⟨r, hr⟩ := collapsed_slash hss hne
  rw [relative, hr, List.tail_cons]

theorem removedRelative_last (hs : slash ∉ s) :
    removeDots (relative [s]) [] = if IsDots s then [] else s := by
  rw [relative_last hs]
  split_ifs with hdots
  · exact removeDots_only [] hdots
  · by_cases hne : s = []
    · rw [hne, removeDots_nil]
    · have hfirst := removeDots_first (X := []) [] hs hne hdots slashFirst_nil
      rwa [List.append_nil, removeDots_nil] at hfirst

theorem removedRelative_dots (hs : slash ∉ s) (hdots : s = [] ∨ IsDots s) (hts : Parted (t :: ts)) :
    removeDots (relative (s :: t :: ts)) [] = removeDots (relative (t :: ts)) [] := by
  by_cases hne : s = []
  · rw [hne, relative_empty]
  · rw [relative_cons hs hne, collapsed_relative hts (List.cons_ne_nil t ts)]
    exact removeDots_leading _ [] (hdots.resolve_left hne)

theorem removedRelative_keep (hs : slash ∉ s) (hne : s ≠ []) (hdots : ¬ IsDots s)
    (hts : Parted ts) :
    removeDots (relative (s :: ts)) [] = removeDots (collapsed ts) s := by
  rw [relative_cons hs hne, removeDots_first [] hs hne hdots (slashFirst_collapsed hts),
    List.nil_append]

end

end ExtHttp
