import ExtHttp.HeaderSafety

/-! Feeding the header parser piece by piece, compared with one call on the whole input. -/
namespace ExtHttp
open BufferLoop

abbrev HeaderFinal (r : HeaderState) : Prop := r = .done ∨ r = .failure

section Split
variable {Url : Type} (P : UrlParsers Url)

/-- The calls without CLEANUP, each of which may find other memory behind its buffers. -/
abbrev headerFeeding (beyond : Bytes → Bytes) :
    Machine (HeaderConfig (HeaderLog Url)) Byte HeaderState :=
  headerLoop P headerLog ⟨false, beyond⟩

abbrev headerCleanup (beyond : Bytes → Bytes) :
    Machine (HeaderConfig (HeaderLog Url)) Byte HeaderState :=
  headerLoop P headerLog ⟨true, beyond⟩

def headerStart : HeaderConfig (HeaderLog Url) := (headerParserInit, ⟨[], []⟩)

/-- Append the pieces one by one, with a call behind each of them, and if that decides nothing call
once more with CLEANUP: the returned state, parser, findings and the bytes not consumed. -/
def headerFeed (beyond : Bytes → Bytes) (ps : List ((Bytes → Bytes) × Bytes)) :
    HeaderState × HeaderConfig (HeaderLog Url) × Bytes :=
  let f := feed (headerFeeding P) HeaderFinal .start headerStart [] ps
  if HeaderFinal f.1 then f else (headerCleanup P beyond).run f.2.1 f.2.2

def headerWhole (beyond : Bytes → Bytes) (s : Bytes) :
    HeaderState × HeaderConfig (HeaderLog Url) × Bytes :=
  (headerCleanup P beyond).run headerStart s

/-- What the parser decides about the line at the head of the buffer stays decided with `u` behind
the buffer: an end of headers or a start line has its whole end of line; a start line and what is
not one are told apart the same; if a name ends the buffer up to blanks, more than blanks follow. -/
def KeySettled (call call' : HeaderCall) (u b : Bytes) : Prop :=
  match locateBinEol b with
  | some (0, l) => locateBinEol (b ++ u) = some (0, l)
  | eol => match infoParse P (call.mem b) with
    | some info => eol ≠ none ∧ locateBinEol (b ++ u) = eol ∧
        infoParse P (call'.mem (b ++ u)) = some info
    | none => (eol = none ∧ colonAt b = none) ∨
        infoParse P (call'.mem (b ++ u)) = none ∧
          ∀ colon ∈ colonAt b, (b.drop (colon + 1)).dropWhile isBlank = [] → u ≠ [] →
            u.dropWhile isBlank ≠ []

/-- The end of a line of a value is there as a whole. -/
def ValueSettled (u b : Bytes) : Prop := ∀ e ∈ locateBinEol b, locateBinEol (b ++ u) = some e

def HeaderSettled (beyond' beyond : Bytes → Bytes) (u : Bytes) (c : HeaderConfig (HeaderLog Url))
    (b : Bytes) : Prop :=
  match c.1.state with
  | .key => KeySettled P ⟨false, beyond⟩ ⟨true, beyond'⟩ u b
  | .value => ValueSettled u b
  | _ => True

instance [DecidableEq Url] (call call' : HeaderCall) (u b : Bytes) :
    Decidable (KeySettled P call call' u b) := by
  unfold KeySettled
  split
  · infer_instance
  · split <;> infer_instance

instance (u b : Bytes) : Decidable (ValueSettled u b) := by
  unfold ValueSettled
  infer_instance

instance [DecidableEq Url] (beyond' beyond : Bytes → Bytes) (u : Bytes)
    (c : HeaderConfig (HeaderLog Url)) (b : Bytes) :
    Decidable (HeaderSettled P beyond' beyond u c b) := by
  unfold HeaderSettled
  split <;> infer_instance

/-! ### When a turn resumes -/

variable {P}

theorem trim_append_blanks {bl : Bytes} (h : ∀ c ∈ bl, isSpace c = true) (line : Bytes) :
    trim (bl ++ line) = trim line := by
  rw [trim, trim, List.dropWhile_append_of_pos h]

/-- Blanks in front of a value do not matter. -/
theorem valueTurn_dropWhile (beyond : Bytes → Bytes) (hp : HeaderParser) (log : HeaderLog Url)
    (b : Bytes) :
    valueTurn ⟨true, beyond⟩ hp log (b.dropWhile isBlank) = valueTurn ⟨true, beyond⟩ hp log b := by
  have hblank : ∀ c ∈ b.takeWhile isBlank, isSpace c = true ∧ isEol c = false := fun c hc => by
    simpa [isBlank] using List.mem_takeWhile_imp hc
  have hnoEol : NoEol (b.takeWhile isBlank) := fun c hc => (hblank c hc).2
  have htrim := trim_append_blanks (fun c hc => (hblank c hc).1)
  have hsplit := List.takeWhile_append_dropWhile (p := isBlank) (l := b)
  set bl := b.takeWhile isBlank
  set r := b.dropWhile isBlank
  have hset : ∀ x, setAddVal hp.val (bl ++ x) = setAddVal hp.val x := fun x => by
    simp only [setAddVal, htrim]
  rw [← hsplit]
  unfold valueTurn
  rw [locateBinEol_append_noEol hnoEol]
  cases locateBinEol r with
  | none => simp [hset]
  | some e =>
    simp only [Option.map_some, Turn.next.injEq, Prod.mk.injEq, HeaderParser.mk.injEq, true_and,
      and_true]
    constructor
    · rw [List.take_length_add_append, hset]
    · rw [Nat.add_assoc, List.drop_length_add_append]

theorem headerCleanup_value_dropWhile (beyond : Bytes → Bytes) {hp : HeaderParser}
    (hs : hp.state = .value) (log : HeaderLog Url) {b : Bytes} (hb : b.dropWhile isBlank ≠ []) :
    (headerCleanup P beyond).run (hp, log) (b.dropWhile isBlank) =
      (headerCleanup P beyond).run (hp, log) b := by
  have hb' : b ≠ [] := by
    rintro rfl
    exact hb rfl
  have hturn : (headerCleanup P beyond).turn (hp, log) (b.dropWhile isBlank) =
      (headerCleanup P beyond).turn (hp, log) b := by
    change headerTurn P headerLog _ _ _ = headerTurn P headerLog _ _ _
    simp only [headerTurn, hs, if_neg hb, if_neg hb', valueTurn_dropWhile]
  cases h : (headerCleanup P beyond).turn (hp, log) b with
  | next s' b' => rw [Machine.run_next h, Machine.run_next (hturn.trans h)]
  | ret r s' b' => rw [Machine.run_ret h, Machine.run_ret (hturn.trans h)]

theorem locateBinEol_append_pos {b u : Bytes} (hb : b ≠ [])
    (h : ∀ l, locateBinEol b ≠ some (0, l)) (l : ℕ) : locateBinEol (b ++ u) ≠ some (0, l) := by
  intro hu
  rcases locateBinEol_of_append hu with ⟨l', h'⟩ | ⟨-, h'⟩
  · exact h l' h'
  · exact hb (List.length_eq_zero_iff.mp (Nat.le_zero.mp h'))

theorem takeWhile_append_of_lt {p : Byte → Bool} {b : Bytes}
    (h : (b.takeWhile p).length < b.length) (u : Bytes) :
    (b ++ u).takeWhile p = b.takeWhile p := by
  rw [List.takeWhile_append, if_neg (by omega)]

/-- A name's colon is where it is, whatever follows. -/
theorem colonAt_append {b : Bytes} {n : ℕ} (h : colonAt b = some n) (u : Bytes) :
    colonAt (b ++ u) = some n := by
  obtain ⟨rfl, hlt, heol⟩ := colonAt_eq_some.mp h
  rw [colonAt_eq_some, takeWhile_append_of_lt hlt]
  refine ⟨rfl, by rw [List.length_append]; omega, ?_⟩
  rintro ⟨i, l⟩ he
  rcases locateBinEol_of_append he with ⟨l', h'⟩ | ⟨-, h'⟩
  · exact heol (i, l') h'
  · exact hlt.trans_le h'

/-- Where the line ends before a colon it does so with more bytes, too. -/
theorem colonAt_append_none {b : Bytes} (h : colonAt b = none) (heol : locateBinEol b ≠ none)
    (u : Bytes) : colonAt (b ++ u) = none := by
  obtain ⟨⟨i, l⟩, he⟩ := Option.ne_none_iff_exists'.mp heol
  have hil := locateBinEol_bounds he
  rw [Option.eq_none_iff_forall_ne_some] at h ⊢
  intro n hn
  obtain ⟨rfl, hlt, heol'⟩ := colonAt_eq_some.mp hn
  obtain ⟨l', he'⟩ : ∃ l', locateBinEol (b ++ u) = some (i, l') := by
    rcases locateBinEol_append he u with h1 | ⟨h1, -⟩ <;> exact ⟨_, h1⟩
  have hi := heol' _ he'
  have hb : (b.takeWhile (· ≠ colon)).length < b.length := by
    by_contra hb
    have hle := (List.takeWhile_sublist (l := b) (· ≠ colon)).length_le
    rw [List.takeWhile_append, if_pos (by omega), List.length_append] at hi
    omega
  rw [takeWhile_append_of_lt hb] at hi
  refine h _ (colonAt_eq_some.mpr ⟨rfl, hb, ?_⟩)
  rintro e he''
  rw [he] at he''
  cases he''
  exact hi

theorem keySettled_line {call call' : HeaderCall} {u b : Bytes} (h : KeySettled P call call' u b)
    (hb : ∀ l, locateBinEol b ≠ some (0, l)) :
    (∀ info, infoParse P (call.mem b) = some info → locateBinEol b ≠ none ∧
        locateBinEol (b ++ u) = locateBinEol b ∧ infoParse P (call'.mem (b ++ u)) = some info) ∧
      (infoParse P (call.mem b) = none → (locateBinEol b = none ∧ colonAt b = none) ∨
        infoParse P (call'.mem (b ++ u)) = none ∧
          ∀ n ∈ colonAt b, (b.drop (n + 1)).dropWhile isBlank = [] → u ≠ [] →
            u.dropWhile isBlank ≠ []) := by
  unfold KeySettled at h
  split at h
  · exact absurd ‹_› (hb _)
  · cases hi : infoParse P (call.mem b) with
    | none =>
      rw [hi] at h
      exact ⟨fun _ hsome => (nomatch hsome), fun _ => h⟩
    | some info =>
      rw [hi] at h
      refine ⟨fun _ hsome => ?_, fun hnone => (nomatch hnone)⟩
      cases hsome
      exact h

theorem keyTurn_resumes {beyond beyond' : Bytes → Bytes} {hp : HeaderParser} {log : HeaderLog Url}
    {u b : Bytes} (hs : hp.state = .key) (hb : b ≠ [])
    (h : KeySettled P ⟨false, beyond⟩ ⟨true, beyond'⟩ u b) :
    (headerFeeding P beyond).Resumes (headerCleanup P beyond') HeaderFinal id u (hp, log) b := by
  have hbu : b ++ u ≠ [] := by simp [hb]
  have hM : (headerFeeding P beyond).turn (hp, log) b =
      keyTurn P headerLog ⟨false, beyond⟩ hp log b := by
    change headerTurn P headerLog _ _ _ = _
    simp [headerTurn, hs, hb]
  have hN : (headerCleanup P beyond').turn (hp, log) (b ++ u) =
      keyTurn P headerLog ⟨true, beyond'⟩ hp log (b ++ u) := by
    change headerTurn P headerLog _ _ _ = _
    simp [headerTurn, hs, hbu]
  by_cases heol : ∃ l, locateBinEol b = some (0, l)
  · obtain ⟨l, hl⟩ := heol
    have hlen := (locateBinEol_bounds hl).2.2.1
    have hlu : locateBinEol (b ++ u) = some (0, l) := by simpa [KeySettled, hl] using h
    refine .of_next (hM.trans (by simp only [keyTurn, hl]; rfl)) (Machine.run_next (hN.trans ?_))
    simp only [keyTurn, hlu, List.drop_append_of_le_length (show l ≤ b.length by omega)]
  · push Not at heol
    have heolu := locateBinEol_append_pos (u := u) hb heol
    obtain ⟨hinfo, hline⟩ := keySettled_line h heol
    cases hi : infoParse P (HeaderCall.mem ⟨false, beyond⟩ b) with
    | some info =>
      obtain ⟨hne, hsame, hiu⟩ := hinfo info hi
      obtain ⟨⟨i, l⟩, he⟩ := Option.ne_none_iff_exists'.mp hne
      have hlen := (locateBinEol_bounds he).2.2.1
      refine .of_next (hM.trans (keyTurn_info heol hi)) (Machine.run_next (hN.trans ?_))
      rw [keyTurn_info heolu hiu, hsame, he]
      simp only [Option.elim_some, List.drop_append_of_le_length hlen]
    | none =>
      cases hc : colonAt b with
      | some n =>
        obtain ⟨hiu, hblank⟩ : infoParse P (HeaderCall.mem ⟨true, beyond'⟩ (b ++ u)) = none ∧ _ :=
          (hline hi).resolve_left (by simp [hc])
        have hn : n < b.length := (colonAt_eq_some.mp hc).2.1
        have hturn : keyTurn P headerLog ⟨false, beyond⟩ hp log b = _ := keyTurn_field heol hi hc
        have hturnu : keyTurn P headerLog ⟨true, beyond'⟩ hp log (b ++ u) = _ :=
          keyTurn_field heolu hiu (colonAt_append hc u)
        rw [List.take_append_of_le_length (by omega), List.drop_append_of_le_length (by omega)]
          at hturnu
        by_cases hname : ∀ c ∈ b.take n, isNameChar c = true
        · rw [if_pos hname] at hturn hturnu
          refine .of_next (hM.trans hturn) ((Machine.run_next (hN.trans hturnu)).trans ?_)
          by_cases hrest : (b.drop (n + 1)).dropWhile isBlank = []
          · rw [List.dropWhile_append, hrest]
            by_cases hu : u = []
            · simp [hu]
            · exact headerCleanup_value_dropWhile beyond' rfl log (hblank n hc hrest hu)
          · rw [dropWhile_append_of_ne_nil hrest]
        · rw [if_neg hname] at hturn hturnu
          refine .of_done (hM.trans hturn) (Or.inr rfl) ?_
          rw [Machine.run_ret (hN.trans hturnu)]
      | none =>
        have hturn : keyTurn P headerLog ⟨false, beyond⟩ hp log b = _ := keyTurn_other heol hi hc
        cases he : locateBinEol b with
        | none =>
          -- nothing is decided yet
          rw [if_neg (by simp [he])] at hturn
          exact .of_wait (hM.trans hturn) (by simp) rfl
        | some e =>
          obtain ⟨hiu, -⟩ : infoParse P (HeaderCall.mem ⟨true, beyond'⟩ (b ++ u)) = none ∧ _ :=
            (hline hi).resolve_left (by simp [he])
          have hturnu : keyTurn P headerLog ⟨true, beyond'⟩ hp log (b ++ u) = _ :=
            keyTurn_other heolu hiu (colonAt_append_none hc (by simp [he]) u)
          rw [if_pos (by simp [he])] at hturn
          rw [if_pos (by simp)] at hturnu
          refine .of_done (hM.trans hturn) (Or.inr rfl) ?_
          rw [Machine.run_ret (hN.trans hturnu)]

theorem valueTurn_resumes {beyond beyond' : Bytes → Bytes} {hp : HeaderParser} {log : HeaderLog Url}
    {u b : Bytes} (hs : hp.state = .value) (hb : b ≠ []) (h : ValueSettled u b) :
    (headerFeeding P beyond).Resumes (headerCleanup P beyond') HeaderFinal id u (hp, log) b := by
  have hM : (headerFeeding P beyond).turn (hp, log) b = valueTurn ⟨false, beyond⟩ hp log b := by
    change headerTurn P headerLog _ _ _ = _
    simp [headerTurn, hs, hb]
  have hN : (headerCleanup P beyond').turn (hp, log) (b ++ u) =
      valueTurn ⟨true, beyond'⟩ hp log (b ++ u) := by
    change headerTurn P headerLog _ _ _ = _
    simp [headerTurn, hs, hb]
  cases he : locateBinEol b with
  | none =>
    refine .of_wait (r := .value) (hM.trans ?_) (by simp) rfl
    simp [valueTurn, he]
  | some e =>
    obtain ⟨i, l⟩ := e
    have hlen := (locateBinEol_bounds he).2.2.1
    refine .of_next (hM.trans (by simp only [valueTurn, he]; rfl)) (Machine.run_next (hN.trans ?_))
    simp only [valueTurn, h _ he, List.take_append_of_le_length (show i ≤ b.length by omega),
      List.drop_append_of_le_length hlen]

/-- Every turn of a call without CLEANUP resumes where the line it decides about is settled. -/
theorem headerTurn_resumes {beyond beyond' : Bytes → Bytes} {c : HeaderConfig (HeaderLog Url)}
    {u b : Bytes} (hstart : c.1.state = .start → ∀ x, (b ++ u).head? = some x → isSpace x = false)
    (h : HeaderSettled P beyond' beyond u c b) :
    (headerFeeding P beyond).Resumes (headerCleanup P beyond') HeaderFinal id u c b := by
  obtain ⟨⟨state, key, val⟩, log⟩ := c
  cases state with
  | failure => exact .of_done rfl (Or.inr rfl) (by rw [Machine.run_ret rfl])
  | start =>
    by_cases hb : b = []
    · subst hb
      exact .of_wait rfl (by simp) rfl
    · have hspace : ∀ v, (∀ x, (b ++ v).head? = some x → isSpace x = false) ∧ b ++ v ≠ [] := by
        intro v
        refine ⟨fun x hx => hstart rfl x ?_, by simp [hb]⟩
        rw [List.head?_append_of_ne_nil _ hb] at hx ⊢
        exact hx
      have hturn : ∀ cleanup mem v, (headerLoop P headerLog ⟨cleanup, mem⟩).turn
          (⟨.start, key, val⟩, log) (b ++ v) = .next (⟨.key, key, val⟩, log) (b ++ v) := by
        intro cleanup mem v
        change headerTurn P headerLog ⟨cleanup, mem⟩ (⟨.start, key, val⟩, log) (b ++ v) = _
        simp only [headerTurn, if_neg (hspace v).2, dropWhile_of_head (hspace v).1]
      have hM := hturn false beyond []
      rw [List.append_nil] at hM
      exact .of_next hM (Machine.run_next (hturn true beyond' u))
  | key =>
    by_cases hb : b = []
    · subst hb
      exact .of_wait rfl (by simp) rfl
    · exact keyTurn_resumes rfl hb h
  | value =>
    by_cases hb : b = []
    · subst hb
      exact .of_wait rfl (by simp) rfl
    · exact valueTurn_resumes rfl hb h
  | valueEx =>
    have hM : (headerFeeding P beyond).turn (⟨.valueEx, key, val⟩, log) b =
        valueExTurn ⟨false, beyond⟩ ⟨.valueEx, key, val⟩ log b := rfl
    have hN : (headerCleanup P beyond').turn (⟨.valueEx, key, val⟩, log) (b ++ u) =
        valueExTurn ⟨true, beyond'⟩ ⟨.valueEx, key, val⟩ log (b ++ u) := rfl
    by_cases hb : b = []
    · subst hb
      exact .of_wait hM (by simp) rfl
    · simp only [valueExTurn, List.head?_append_of_ne_nil _ hb] at hM hN
      by_cases hfold : b.head? = some space ∨ b.head? = some 9
      · rw [if_pos hfold] at hM hN
        exact .of_next hM (Machine.run_next hN)
      · rw [if_neg hfold, if_pos (by simp [hb])] at hM hN
        exact .of_next hM (Machine.run_next hN)
  | headerDone =>
    have hturn : ∀ cleanup mem v, (headerLoop P headerLog ⟨cleanup, mem⟩).turn
        (⟨.headerDone, key, val⟩, log) v = headerDoneTurn headerLog ⟨.headerDone, key, val⟩ log v :=
      fun _ _ _ => rfl
    match key, val with
    | some key, some val =>
      by_cases hnul : nul ∈ val
      · refine .of_done ((hturn _ _ _).trans (by simp only [headerDoneTurn, if_pos hnul]; rfl))
          (Or.inr rfl) ?_
        rw [Machine.run_ret ((hturn _ _ _).trans (by simp only [headerDoneTurn, if_pos hnul]; rfl))]
      · exact .of_next ((hturn _ _ _).trans (by simp only [headerDoneTurn, if_neg hnul]; rfl))
          (Machine.run_next ((hturn _ _ _).trans (by simp only [headerDoneTurn, if_neg hnul])))
    | none, _ => exact .of_next (hturn _ _ _) (Machine.run_next (hturn _ _ _))
    | some _, none => exact .of_next (hturn _ _ _) (Machine.run_next (hturn _ _ _))
  | done => exact .of_done rfl (Or.inl rfl) (by rw [Machine.run_ret rfl])

/-! ### Feeding the pieces -/

/-- Only the parsing of start lines looks at the memory behind the buffer. -/
theorem headerTurn_beyond {cleanup : Bool} {beyond beyond' : Bytes → Bytes}
    {c : HeaderConfig (HeaderLog Url)} {b : Bytes}
    (h : c.1.state = .key → infoParse P (HeaderCall.mem ⟨cleanup, beyond'⟩ b) =
      infoParse P (HeaderCall.mem ⟨cleanup, beyond⟩ b)) :
    headerTurn P headerLog ⟨cleanup, beyond'⟩ c b =
      headerTurn P headerLog ⟨cleanup, beyond⟩ c b := by
  unfold headerTurn
  split <;> try rfl
  next hs => simp only [keyTurn, h hs]

variable (P)

/-- Throughout the calls without CLEANUP the lines are settled, and the parsing of start lines in
the last call does not depend on the memory behind the buffer. -/
def HeadersSettled (beyond beyond' : Bytes → Bytes) (ps : List ((Bytes → Bytes) × Bytes)) : Prop :=
  let f := feed (headerFeeding P) HeaderFinal .start headerStart [] ps
  Throughout (headerFeeding P) HeaderFinal (HeaderSettled P beyond') headerStart [] ps ∧
    (¬ HeaderFinal f.1 → ∀ d, (headerCleanup P beyond).Visits f.2 d → d.1.1.state = .key →
      infoParse P (HeaderCall.mem ⟨true, beyond'⟩ d.2) =
        infoParse P (HeaderCall.mem ⟨true, beyond⟩ d.2))

instance [DecidableEq Url] (beyond beyond' : Bytes → Bytes) (ps : List ((Bytes → Bytes) × Bytes)) :
    Decidable (HeadersSettled P beyond beyond' ps) :=
  have := (headerCleanup P beyond).decidableVisits
    (fun (c : HeaderConfig (HeaderLog Url)) b => c.1.state = HeaderState.key →
      infoParse P (HeaderCall.mem ⟨true, beyond'⟩ b) =
        infoParse P (HeaderCall.mem ⟨true, beyond⟩ b))
    (feed (headerFeeding P) HeaderFinal .start headerStart [] ps).2
  inferInstanceAs (Decidable (_ ∧ _))

/-- The pieces and their concatenation come to the same: returned state, parser, headers, callbacks
and bytes not consumed. -/
def HeaderSplitInvariant (beyond beyond' : Bytes → Bytes) (ps : List ((Bytes → Bytes) × Bytes)) :
    Prop :=
  headerFeed P beyond ps = headerWhole P beyond' (later ps)

instance [DecidableEq Url] (beyond beyond' : Bytes → Bytes) (ps : List ((Bytes → Bytes) × Bytes)) :
    Decidable (HeaderSplitInvariant P beyond beyond' ps) :=
  inferInstanceAs (Decidable (_ = _))

/-- For input that does not begin with a blank, cutting it into pieces makes no difference to what
the parser returns, stores, calls back with and leaves in the buffer, if all lines are settled. -/
theorem headerParser_split {beyond beyond' : Bytes → Bytes} {ps : List ((Bytes → Bytes) × Bytes)}
    (hspace : ∀ x ∈ (later ps).head?, isSpace x = false) (h : HeadersSettled P beyond beyond' ps) :
    HeaderSplitInvariant P beyond beyond' ps := by
  obtain ⟨hlines, hlast⟩ := h
  have hstart : Throughout (headerFeeding P) HeaderFinal (fun _ u c b => c.1.state = .start →
      ∀ x, (b ++ u).head? = some x → isSpace x = false) headerStart [] ps := by
    refine Throughout.of_invariant (I := fun (c : HeaderConfig (HeaderLog Url)) b =>
      c.1.state = .start → ∀ x, b.head? = some x → isSpace x = false) (fun _ => hspace) ?_ ?_
    · intro _ _ _ _ _ _ _ ht hs
      exact absurd hs (headerTurn_next P headerLog ht).1
    · intro _ _ _ _ _ _ _ hi ht hr
      obtain ⟨rfl, -, -, hwait⟩ := headerTurn_ret P headerLog ht
      rw [hwait (fun hf => hr (Or.inr hf)) fun hd => hr (Or.inl hd)]
      exact hi
  have hview := view_feed (N := headerCleanup P beyond') id ps .start (by simp)
    ((hstart.and hlines).mono fun hsettled => headerTurn_resumes hsettled.1 hsettled.2)
  unfold HeaderSplitInvariant headerWhole headerFeed
  dsimp only
  rw [List.nil_append] at hview
  rw [show (headerCleanup P beyond').run headerStart (later ps) = _ from hview]
  split_ifs with hf
  · rfl
  · refine (Machine.run_congr fun d hd => ?_).symm
    exact headerTurn_beyond (hlast hf d hd)

end Split

/-- Pieces behind whose buffers there is nothing but zeros. -/
def plainPieces (ps : List Bytes) : List ((Bytes → Bytes) × Bytes) := ps.map (fun _ => [], ·)

/-- Without the condition: a CR that is cut from its LF ends the headers; a status line that is cut
is taken with what is there of it; a request line that is cut at a colon is taken for a field;
blanks behind a name and nothing else leave the parser in another state. -/
theorem headerParser_not_split_invariant :
    let invariant := fun ps => HeaderSplitInvariant rawUrls (fun _ => []) (fun _ => [])
      (plainPieces ps)
    ¬ invariant [ascii "A: b\r", ascii "\nC: d\r\n\r\n"] ∧
      ¬ invariant [ascii "HTTP/1.1 20", ascii "0 OK\r\n\r\n"] ∧
      ¬ invariant [ascii "GET http:", ascii "//x/ HTTP/1.1\r\n\r\n"] ∧
      ¬ invariant [ascii "A:", ascii "  "] := by
  decide +kernel

theorem headerParser_split_pieces :
    HeaderSplitInvariant rawUrls (fun _ => []) (fun _ => []) (plainPieces
      [ascii "HTTP/1.1 200 OK\r\nA", ascii ": b \r\n\tc", ascii "\r\n", ascii "\r\nx"]) :=
  headerParser_split rawUrls (by decide +kernel) (by decide +kernel)

end ExtHttp
