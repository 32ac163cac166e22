import ExtHttp.Dechunk

/-! Feeding the dechunk stream piece by piece, compared with one call on the whole input. -/
namespace ExtHttp
open BufferLoop

/-- What a series of `dechunk_update` calls comes to: the verdict, the output of all the calls, and
the input not consumed, in the stream's buffer or not even fed. -/
structure DechunkOutcome where
  success : Bool
  zeroed : Bool
  decoded : Bytes
  rest : Bytes
  deriving DecidableEq, Repr

/-- Feed the pieces one by one, up to the piece that fails or sets `zeroed`. -/
def dechunkFeed (ctx : DechunkCtx) : List Bytes → DechunkOutcome
  | [] => ⟨true, ctx.zeroed, [], ctx.buffer⟩
  | p :: ps =>
      match dechunkUpdate false ctx p with
      | (none, ctx') => ⟨false, ctx'.zeroed, [], ctx'.buffer ++ ps.flatten⟩
      | (some decoded, ctx') =>
          if ctx'.zeroed then ⟨true, true, decoded, ctx'.buffer ++ ps.flatten⟩
          else
            let o := dechunkFeed ctx' ps
            { o with decoded := decoded ++ o.decoded }

/-- The pieces and their concatenation come to the same verdict, output and remainder. -/
def DechunkSplitInvariant (ps : List Bytes) : Prop :=
  let split := dechunkFeed dechunkInit ps
  let whole := dechunkFeed dechunkInit [ps.flatten]
  split.success = whole.success ∧ split.decoded = whole.decoded ∧
    split.rest.dropWhile isEol = whole.rest.dropWhile isEol

instance (ps : List Bytes) : Decidable (DechunkSplitInvariant ps) :=
  inferInstanceAs (Decidable (_ ∧ _ ∧ _))

/-- The failing call throws away what it has decoded, a CR that ends a buffered size line is not
joined with the LF of the next piece, and `strtoul` runs over the end of a blank size line. -/
theorem dechunk_not_split_invariant :
    ¬ DechunkSplitInvariant [ascii "1\r\na\r\n", ascii "z\r\n"] ∧
      ¬ DechunkSplitInvariant [ascii "5\r", ascii "\nhello\r\n0\r\n\r\n"] ∧
      ¬ DechunkSplitInvariant [ascii " \r\n", ascii "2\r\n0\r\n\r\n"] := by
  decide +kernel

/-! ### When a turn resumes -/

/-- A size line at the head of the buffer is read the same with `u` behind the buffer: the same
number, and, unless it is the last chunk's, the same end of line. -/
def SizeLineSettled (u b : Bytes) : Prop :=
  ∀ e ∈ locateBinEol (b.dropWhile isEol),
    strtoul 16 (b.dropWhile isEol ++ u) = strtoul 16 (b.dropWhile isEol) ∧
      ((strtoul 16 (b.dropWhile isEol)).1 ≠ 0 →
        locateBinEol (b.dropWhile isEol ++ u) = some e)

instance (u b : Bytes) : Decidable (SizeLineSettled u b) := by
  unfold SizeLineSettled
  infer_instance

/-- A size line with something in it is settled, unless its CR and LF are in different pieces. -/
theorem sizeLineSettled_of_line {u b : Bytes}
    (h : ∀ i l, locateBinEol (b.dropWhile isEol) = some (i, l) →
      (∃ c ∈ (b.dropWhile isEol).take i, isSpace c = false) ∧
        (i + l = (b.dropWhile isEol).length → l = 1 → (b.dropWhile isEol)[i]? = some cr →
          u.head? ≠ some lf)) :
    SizeLineSettled u b := by
  rintro ⟨i, l⟩ he
  obtain ⟨hline, hcut⟩ := h i l he
  obtain ⟨line, eol, rest, hb, rfl, rfl, -, heol⟩ := locateBinEol_spec he
  rw [hb, List.append_assoc, List.take_left] at hline
  constructor
  · obtain ⟨c, eol', rfl, hc⟩ : ∃ c eol', eol = c :: eol' ∧ isSpace c = true := by
      rcases heol with rfl | rfl | ⟨rfl, -⟩
      · exact ⟨cr, [lf], rfl, rfl⟩
      · exact ⟨lf, [], rfl, rfl⟩
      · exact ⟨cr, [], rfl, rfl⟩
    rw [hb]
    simp only [List.append_assoc, List.cons_append, strtoul_append_space hline hc]
  · intro _
    rcases locateBinEol_append he u with h1 | ⟨-, h2, h3, h4, h5⟩
    · exact h1
    · exact absurd h5 (hcut (by rw [h2, h3]) h2 h4)

abbrev DechunkFinal (e : DechunkExit) : Prop := e ≠ .more

/-- The outcome of a run up to line ends in front of the remainder. -/
def dechunkView (o : DechunkExit × DechunkState × Bytes) : DechunkExit × Bytes × Bytes :=
  (o.1, o.2.1.tmp, o.2.2.dropWhile isEol)

/-- Behind the size line of the last chunk it makes no difference whether the LF of a CRLF has been
cut off with its CR. -/
theorem drop_eol_dropWhile {b u : Bytes} {i l l' : ℕ} (he : locateBinEol b = some (i, l))
    (he' : locateBinEol (b ++ u) = some (i, l')) :
    ((b ++ u).drop (i + l')).dropWhile isEol = (b.drop (i + l) ++ u).dropWhile isEol := by
  have hil := (locateBinEol_bounds he).2.2.1
  rcases locateBinEol_append he u with h | ⟨h, rfl, hi, -, hu⟩
  · rw [h] at he'
    cases he'
    rw [List.drop_append_of_le_length hil]
  · rw [h] at he'
    cases he'
    obtain ⟨u', rfl⟩ : ∃ u', u = lf :: u' := by
      cases u with
      | nil => simp at hu
      | cons c u => exact ⟨u, by simpa using hu⟩
    have hd : b.drop (i + 1) = [] := by simp [hi]
    have hd' : (b ++ lf :: u').drop (i + 2) = u' := by
      rw [show i + 2 = b.length + 1 by omega]
      simp
    simp [hd, hd']

theorem dechunkSizeLine_resumes {u b : Bytes} {s : DechunkState} (hs : s.hexlen = 0)
    (hb : b.dropWhile isEol = b) (hne : b ≠ []) (h : SizeLineSettled u b) :
    (dechunkLoop false).Resumes (dechunkLoop false) DechunkFinal dechunkView u s b := by
  have hturn : ∀ v, (dechunkLoop false).turn s (b ++ v) = dechunkSizeLine s (b ++ v) := by
    intro v
    have hbv : (b ++ v).dropWhile isEol = b ++ v := by
      rw [dropWhile_append_of_ne_nil (hb.symm ▸ hne), hb]
    have hne' : (b ++ v).dropWhile isEol ≠ [] := by simp [hbv, hne]
    exact (dechunkTurn_size false hs hne').trans (by rw [hbv])
  have hturn₀ : (dechunkLoop false).turn s b = dechunkSizeLine s b := by simpa using hturn []
  unfold SizeLineSettled at h
  rw [hb] at h
  cases he : locateBinEol b with
  | none =>
    have ht : dechunkSizeLine s b = .ret .more s b := by simp [dechunkSizeLine, he]
    exact .of_wait (hturn₀.trans ht) (by simp) rfl
  | some e =>
    obtain ⟨i, l⟩ := e
    obtain ⟨hn, hl⟩ := h (i, l) he
    obtain ⟨-, -, hil, -⟩ := locateBinEol_bounds he
    obtain ⟨l', he'⟩ : ∃ l', locateBinEol (b ++ u) = some (i, l') := by
      rcases locateBinEol_append he u with h1 | ⟨h1, -⟩ <;> exact ⟨_, h1⟩
    rcases hk : strtoul 16 b with ⟨n, k⟩
    rw [hk] at hn hl
    have ht := dechunkSizeLine_some s he hk
    have hu := dechunkSizeLine_some s he' hn
    by_cases hk0 : k = 0
    · -- no digits: the line fails where it stands
      simp only [hk0, if_true] at ht hu
      exact .of_done (hturn₀.trans ht) (by simp) (by rw [Machine.run_ret ((hturn u).trans hu)])
    · by_cases hn0 : n = 0
      · simp only [hk0, hn0, if_true, if_false] at ht hu
        refine .of_done (hturn₀.trans ht) (by simp) ?_
        rw [Machine.run_ret ((hturn u).trans hu)]
        simp [dechunkView, dropWhile_dropWhile_append, drop_eol_dropWhile he he',
          List.dropWhile_idempotent]
      · rw [hl hn0] at he'
        cases he'
        simp only [hk0, hn0, if_false, List.drop_append_of_le_length hil] at ht hu
        exact .of_next (hturn₀.trans ht) (Machine.run_next ((hturn u).trans hu))

/-- Where the size lines are settled, every turn of the decoder resumes. -/
theorem dechunkTurn_resumes {u b : Bytes} {s : DechunkState}
    (h : s.hexlen = 0 → SizeLineSettled u b) :
    (dechunkLoop false).Resumes (dechunkLoop false) DechunkFinal dechunkView u s b := by
  by_cases hs : s.hexlen = 0
  · have hturn := dechunkTurn_dropWhile false (b := b) hs
    have hrun := dechunkLoop_dropWhile false hs b u
    by_cases hb : b.dropWhile isEol = []
    · rw [hb, dechunkTurn_nil] at hturn
      rw [hb] at hrun
      exact .of_wait hturn.symm (by simp) hrun.symm
    · have hsettled : SizeLineSettled u (b.dropWhile isEol) := by
        have := h hs
        simpa only [SizeLineSettled, List.dropWhile_idempotent (p := isEol) b] using this
      have hres := dechunkSizeLine_resumes hs (List.dropWhile_idempotent (p := isEol) b) hb
        hsettled
      have hturn : (dechunkLoop false).turn s (b.dropWhile isEol) = (dechunkLoop false).turn s b :=
        hturn
      constructor
      · intro s' b' ht
        rw [← hrun]
        exact hres.next (hturn.trans ht)
      · intro r s' b' ht hf
        rw [← hrun]
        exact hres.wait (hturn.trans ht) hf
      · intro r s' b' ht hf
        rw [← hrun]
        exact hres.done (hturn.trans ht) hf
  · by_cases hl : b.length < s.hexlen
    · exact .of_wait (dechunkTurn_short hs hl) (by simp) rfl
    · have hb : b ≠ [] := by rintro rfl; simp at hl; omega
      have hl : s.hexlen ≤ b.length := Nat.not_lt.mp hl
      have ht := dechunkTurn_data false (b := b ++ u) (by simp [hb]) hs
        (by simp; omega)
      rw [List.take_append_of_le_length hl, List.drop_append_of_le_length hl] at ht
      exact .of_next (dechunkTurn_data false hb hs hl)
        (Machine.run_next (M := dechunkLoop false) ht)

/-! ### Feeding the pieces -/

/-- The loop of every `dechunk_update` call on the stream. -/
abbrev dechunkCalls : Unit → Machine DechunkState Byte DechunkExit := fun _ => dechunkLoop false

/-- The stream's calls as one series of runs of the loop that hand on what they have decoded. -/
def dechunkRuns (s : DechunkState) (b : Bytes) (ps : List Bytes) :
    DechunkExit × DechunkState × Bytes :=
  feed dechunkCalls DechunkFinal .more s b (ps.map ((), ·))

theorem later_unit (ps : List Bytes) : later (ps.map (((), ·) : Bytes → Unit × Bytes)) =
    ps.flatten := by
  simp [later, Function.comp_def]

/-- A failing call throws its output away, the calls before it do not. -/
theorem dechunkFeed_runs (ps : List Bytes) {ctx : DechunkCtx} (hz : ctx.zeroed = false)
    (out : Bytes) :
    let o := dechunkFeed ctx ps
    let f := dechunkRuns ⟨ctx.hexlen, out⟩ ctx.buffer ps
    (o.success = true ↔ f.1 ≠ .failure) ∧ (o.zeroed = true ↔ f.1 = .zeroed) ∧ o.rest = f.2.2 ∧
      (f.1 ≠ .failure → out ++ o.decoded = f.2.1.tmp) ∧ out ++ o.decoded <+: f.2.1.tmp := by
  induction ps generalizing ctx out with
  | nil => simp [dechunkFeed, dechunkRuns, feed, hz]
  | cons p ps ih =>
    have hrun := dechunkLoop_behind false out ⟨ctx.hexlen, []⟩ (ctx.buffer ++ p)
    rcases hr : (dechunkLoop false).run ⟨ctx.hexlen, []⟩ (ctx.buffer ++ p) with ⟨e, s, b⟩
    simp only [hr, DechunkState.behind, List.append_nil] at hrun
    cases e with
    | more =>
      have := @ih ⟨b, s.hexlen, false⟩ rfl (out ++ s.tmp)
      simpa [dechunkFeed, dechunkUpdate, dechunkRuns, feed, hz, hr, hrun, later_unit] using this
    | zeroed => simp [dechunkFeed, dechunkUpdate, dechunkRuns, feed, hz, hr, hrun, later_unit]
    | failure => simp [dechunkFeed, dechunkUpdate, dechunkRuns, feed, hz, hr, hrun, later_unit]

/-- A loop that waits for more has done all it can do with its buffer. -/
theorem dechunkLoop_rerun {s s' : DechunkState} {b b' : Bytes}
    (h : (dechunkLoop false).run s b = (.more, s', b')) :
    (dechunkLoop false).run s' b' = (.more, s', b') := by
  obtain ⟨⟨t, c⟩, -, ht⟩ := (dechunkLoop false).exists_last_turn s b
  rw [h] at ht
  have ht : dechunkTurn false t c = .ret .more s' b' := ht
  refine Machine.run_ret (show dechunkTurn false s' b' = .ret .more s' b' from ?_)
  by_cases ht0 : t.hexlen = 0
  · obtain ⟨d, hd, hdt⟩ : ∃ d, d.dropWhile isEol = d ∧ dechunkTurn false t d = .ret .more s' b' :=
      ⟨c.dropWhile isEol, List.dropWhile_idempotent (p := isEol) c,
        (dechunkTurn_dropWhile false ht0).trans ht⟩
    by_cases hne : d = []
    · rw [hne, dechunkTurn_nil] at hdt
      cases hdt
      exact dechunkTurn_nil false
    · have hsize := hdt
      rw [dechunkTurn_size false ht0 (hd.symm ▸ hne), hd] at hsize
      unfold dechunkSizeLine at hsize
      split at hsize
      · cases hsize
        exact hdt
      · split_ifs at hsize <;> cases hsize
  · by_cases hl : c.length < t.hexlen
    · have hshort := dechunkTurn_short ht0 hl
      rw [hshort] at ht
      cases ht
      exact hshort
    · have hc : c ≠ [] := by rintro rfl; simp at hl; omega
      rw [dechunkTurn_data false hc ht0 (Nat.not_lt.mp hl)] at ht
      cases ht

/-- In every call, at every turn that begins with a size line, that line is settled. -/
def SizeLinesSettled (ps : List Bytes) : Prop :=
  Throughout dechunkCalls DechunkFinal (fun _ u s b => s.hexlen = 0 → SizeLineSettled u b)
    ⟨0, []⟩ [] (ps.map ((), ·))

instance (ps : List Bytes) : Decidable (SizeLinesSettled ps) := by
  unfold SizeLinesSettled
  infer_instance

theorem dechunkRuns_split {ps : List Bytes} (h : SizeLinesSettled ps) :
    dechunkView ((dechunkLoop false).run ⟨0, []⟩ ps.flatten) =
      dechunkView (dechunkRuns ⟨0, []⟩ [] ps) := by
  have hview := view_feed (N := dechunkLoop false) dechunkView _ .more (by simp)
    (h.mono fun hs => dechunkTurn_resumes hs)
  rw [later_unit, List.nil_append] at hview
  rw [hview, dechunkRuns]
  split_ifs with hf
  · rfl
  · rw [feed_rerun (N := dechunkLoop false) _ (fun _ s b hs => ?_)
      (dechunkLoop_nil false _) hf]
    rcases hr : (dechunkLoop false).run s b with ⟨e, s', b'⟩
    simp only [hr, DechunkFinal, ne_eq, not_not] at hs
    subst hs
    exact dechunkLoop_rerun hr

theorem dechunkFeed_failure {ctx : DechunkCtx} {p : Bytes}
    (h : (dechunkFeed ctx [p]).success = false) : (dechunkFeed ctx [p]).decoded = [] := by
  simp only [dechunkFeed] at h ⊢
  split at h
  · rfl
  · split_ifs at h

/-- Feeding the pieces one by one or as a whole makes no difference to the verdict, to the output of
a successful decoding and to the remainder. Where it fails, the single call has no output, and the
calls on the pieces may have some: a part of what precedes the line that fails. -/
theorem dechunk_split {ps : List Bytes} (h : SizeLinesSettled ps) :
    let split := dechunkFeed dechunkInit ps
    let whole := dechunkFeed dechunkInit [ps.flatten]
    split.success = whole.success ∧ split.zeroed = whole.zeroed ∧
      split.rest.dropWhile isEol = whole.rest.dropWhile isEol ∧
      (whole.success = true → split.decoded = whole.decoded) ∧
      (whole.success = false → whole.decoded = [] ∧
        split.decoded <+: ((dechunkLoop false).run ⟨0, []⟩ ps.flatten).2.1.tmp) := by
  intro split whole
  obtain ⟨hs, hz, hr, hd, hp⟩ := dechunkFeed_runs ps (show dechunkInit.zeroed = false from rfl) []
  obtain ⟨hs', hz', hr', hd', -⟩ :=
    dechunkFeed_runs [ps.flatten] (show dechunkInit.zeroed = false from rfl) []
  have hwhole : dechunkRuns ⟨dechunkInit.hexlen, []⟩ dechunkInit.buffer [ps.flatten] =
      (dechunkLoop false).run ⟨0, []⟩ ps.flatten := by
    simp [dechunkRuns, feed, dechunkInit]
  rw [hwhole] at hs' hz' hr' hd'
  obtain ⟨hexit, htmp, hrest⟩ : _ ∧ _ ∧ _ := by
    simpa only [dechunkView, Prod.mk.injEq] using dechunkRuns_split h
  have hsuccess : split.success = whole.success := by
    rw [Bool.eq_iff_iff]
    exact hs.trans (by rw [hs', hexit]; rfl)
  refine ⟨hsuccess, ?_, ?_, fun hw => ?_, fun hw => ⟨dechunkFeed_failure hw, ?_⟩⟩
  · rw [Bool.eq_iff_iff]
    exact hz.trans (by rw [hz', hexit]; rfl)
  · exact (congrArg _ hr).trans (hrest.symm.trans (congrArg _ hr'.symm))
  · exact (hd (hs.mp (hsuccess.trans hw))).trans (htmp.symm.trans (hd' (hs'.mp hw)).symm)
  · rw [htmp]
    exact hp

theorem dechunk_split_inside_tokens :
    let ps := [ascii "5;na", ascii "me\r\nhel", ascii "lo\r\n0", ascii "\r", ascii "\n\r\nGET"]
    (dechunkFeed dechunkInit ps).success = (dechunkFeed dechunkInit [ps.flatten]).success ∧
      ((dechunkFeed dechunkInit [ps.flatten]).success = true →
        (dechunkFeed dechunkInit ps).decoded = (dechunkFeed dechunkInit [ps.flatten]).decoded) := by
  intro ps
  have h : SizeLinesSettled ps := by decide +kernel
  obtain ⟨hs, -, -, hd, -⟩ := dechunk_split h
  exact ⟨hs, hd⟩

end ExtHttp
