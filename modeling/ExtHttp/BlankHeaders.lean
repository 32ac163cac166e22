import ExtHttp.Message

/-!
# Headers without a value

A message comes into being with its start line or with its first field that has a value. This is the
grammar of the blocks of headers that have neither, and the header parser comes to their end without
a message.
-/
namespace ExtHttp
open BufferLoop

/-- What may be left of such a block when the header parser is in a state: fields with blank values,
folded or not, up to an empty line. With CLEANUP the block may be cut off. -/
inductive BlankHeaders (cleanup : Bool) : HeaderState → Bytes → Prop
  | start {b : Bytes} :
      BlankHeaders cleanup .key (b.dropWhile isSpace) → BlankHeaders cleanup .start b
  | emptyLine {b : Bytes} {l : ℕ} : locateBinEol b = some (0, l) → BlankHeaders cleanup .key b
  | noLine : cleanup = true → BlankHeaders cleanup .key []
  | field {name b : Bytes} : (∀ c ∈ name, isNameChar c = true) → BlankHeaders cleanup .value b →
      BlankHeaders cleanup .key (name ++ colon :: b)
  | blanks {b : Bytes} {i l : ℕ} : locateBinEol b = some (i, l) →
      (∀ c ∈ b.take i, isBlank c = true) → BlankHeaders cleanup .valueEx (b.drop (i + l)) →
      BlankHeaders cleanup .value b
  | cutBlanks {b : Bytes} : cleanup = true → (∀ c ∈ b, isBlank c = true) →
      BlankHeaders cleanup .value b
  | folded {b : Bytes} : b.head? = some space ∨ b.head? = some 9 → BlankHeaders cleanup .value b →
      BlankHeaders cleanup .valueEx b
  | unfolded {b : Bytes} : ¬ (b.head? = some space ∨ b.head? = some 9) →
      BlankHeaders cleanup .headerDone b → BlankHeaders cleanup .valueEx b
  | headerDone {b : Bytes} : BlankHeaders cleanup .key b → BlankHeaders cleanup .headerDone b
  | done {b : Bytes} : BlankHeaders cleanup .done b

namespace BlankHeaders
variable {cleanup : Bool}

theorem value_append_iff {bl : Bytes} (h : ∀ c ∈ bl, isBlank c = true) (b : Bytes) :
    BlankHeaders cleanup .value (bl ++ b) ↔ BlankHeaders cleanup .value b := by
  have hno : NoEol bl := fun c hc => by
    have := h c hc
    simp only [isBlank, Bool.and_eq_true, Bool.not_eq_true'] at this
    exact this.2
  have hloc := locateBinEol_append_noEol hno b
  constructor
  · intro hb
    cases hb with
    | blanks he hi hv =>
      rw [hloc] at he
      obtain ⟨⟨j, m⟩, hb, heq⟩ := Option.map_eq_some_iff.mp he
      simp only [Prod.mk.injEq] at heq
      obtain ⟨rfl, rfl⟩ := heq
      refine .blanks hb (fun c hc => hi c ?_) ?_
      · rw [List.take_length_add_append]
        exact List.mem_append_right _ hc
      · rwa [Nat.add_assoc, List.drop_length_add_append] at hv
    | cutBlanks hc hall => exact .cutBlanks hc fun c hb => hall c (List.mem_append_right _ hb)
  · intro hb
    cases hb with
    | @blanks _ j m he hi hv =>
      refine .blanks (i := bl.length + j) (l := m) (by rw [hloc, he]; rfl) ?_ ?_
      · rw [List.take_length_add_append]
        exact fun c hc => (List.mem_append.mp hc).elim (h c) (hi c)
      · rwa [Nat.add_assoc, List.drop_length_add_append]
    | cutBlanks hc hall =>
      exact .cutBlanks hc fun c hb => (List.mem_append.mp hb).elim (h c) (hall c)

theorem value_dropWhile_iff (b : Bytes) :
    BlankHeaders cleanup .value (b.dropWhile isBlank) ↔ BlankHeaders cleanup .value b := by
  have hsplit := List.takeWhile_append_dropWhile (p := isBlank) (l := b)
  have hblank : ∀ c ∈ b.takeWhile isBlank, isBlank c = true := fun c hc => List.mem_takeWhile_imp hc
  rw [← value_append_iff hblank, hsplit]

/-- The line of a blank value ends with its buffer or at an end of line. -/
theorem value_line {b : Bytes} (h : BlankHeaders cleanup .value b) (rest : Bytes) :
    ∃ line stop tail, b ++ nul :: rest = line ++ stop :: tail ∧ (∀ c ∈ line, isBlank c = true) ∧
      (stop = nul ∨ isEol stop = true) := by
  cases h with
  | blanks he hi _ =>
    obtain ⟨line, eol, tail, rfl, rfl, rfl, -, hk⟩ := locateBinEol_spec he
    simp only [List.append_assoc, List.take_left'] at hi
    obtain ⟨c, eol', rfl, hc⟩ : ∃ c eol', eol = c :: eol' ∧ isEol c = true := by
      rcases hk with rfl | rfl | ⟨rfl, -⟩
      · exact ⟨cr, [lf], rfl, by decide⟩
      · exact ⟨lf, [], rfl, by decide⟩
      · exact ⟨cr, [], rfl, by decide⟩
    exact ⟨line, c, eol' ++ (tail ++ nul :: rest), by simp, hi, .inr hc⟩
  | cutBlanks _ hall => exact ⟨b, nul, rest, rfl, hall, .inl rfl⟩

end BlankHeaders

theorem infoParse_blankField {Url : Type} (P : UrlParsers Url) {cleanup : Bool} {name b : Bytes}
    (hname : ∀ c ∈ name, isNameChar c = true) (h : BlankHeaders cleanup .value b) (rest : Bytes) :
    infoParse P (name ++ colon :: b ++ nul :: rest) = none := by
  obtain ⟨line, stop, tail, heq, hline, hstop⟩ := h.value_line rest
  refine infoParse_of_not_infix P fun hin => ?_
  have hmem : (47 : Byte) ∈ firstLine (name ++ colon :: b ++ nul :: rest) :=
    hin.subset (by simp [httpSlash])
  have hmem' : (47 : Byte) ∈ (name ++ colon :: line ++ stop :: tail).takeWhile
      fun c => c ≠ nul && !isEol c := by
    rw [firstLine] at hmem
    simpa [heq] using hmem
  have hin : (47 : Byte) ∈ name ++ colon :: line := by
    rw [List.takeWhile_append] at hmem'
    split_ifs at hmem' with hall
    · rw [List.takeWhile_cons_of_neg (by rcases hstop with rfl | hs <;> simp [*]),
        List.append_nil] at hmem'
      exact hmem'
    · exact (List.takeWhile_sublist _).subset hmem'
  rcases List.mem_append.mp hin with hn | hl
  · exact absurd (hname _ hn) (by decide)
  · rcases List.mem_cons.mp hl with hc | hl
    · exact absurd hc (by decide)
    · exact absurd (hline _ hl) (by decide)

/-! ### The header parser on such a block -/

theorem BlankHeaders.key_iff {cleanup : Bool} {b : Bytes} (hb : b ≠ [])
    (h : ∀ l, locateBinEol b ≠ some (0, l)) : BlankHeaders cleanup .key b ↔
      ∃ n, colonAt b = some n ∧ (∀ c ∈ b.take n, isNameChar c = true) ∧
        BlankHeaders cleanup .value (b.drop (n + 1)) := by
  constructor
  · intro hk
    cases hk with
    | emptyLine he => exact absurd he (h _)
    | noLine _ => exact absurd rfl hb
    | field hname hv => exact ⟨_, colonAt_field hname _, by simpa using hname, by simpa using hv⟩
  · rintro ⟨n, hn, hname, hv⟩
    rw [colonAt_split hn]
    exact .field hname hv

/-- What the header parser holds between the turns: a key while it looks for its value, and a value
only then. A value that is to be continued has the data that continues it. -/
structure HeaderParser.Pending (hp : HeaderParser) (b : Bytes) : Prop where
  key : hp.state = .value ∨ hp.state = .valueEx → hp.key ≠ none
  val : hp.val ≠ none →
    hp.key ≠ none ∧ (hp.state = .valueEx ∨ hp.state = .headerDone ∨ hp.state = .value ∧ b ≠ [])

section Turn
variable {Url : Type} {P : UrlParsers Url} {call : HeaderCall}

abbrev MessageHeaderConfig (Url : Type) := HeaderConfig (Chain Url)

/-- There is no message and what is left to parse brings none. -/
def NoMessage (call : HeaderCall) (c : MessageHeaderConfig Url) (b : Bytes) : Prop :=
  c.2 = [] ∧ c.1.val = none ∧ BlankHeaders call.cleanup c.1.state b

/-- The block of headers is over and there is no message. -/
def EndsWithout (call : HeaderCall) (r : HeaderState) (c : MessageHeaderConfig Url) (b : Bytes) :
    Prop :=
  c.2 = [] ∧ (r = .done ∨ r ≠ .failure ∧ b = [] ∧ call.cleanup = true)

/-- What `p` says of the configuration before a turn holds of the one behind it. -/
def TurnKeeps (call : HeaderCall) (p : Prop) :
    Turn (MessageHeaderConfig Url) Byte HeaderState → Prop
  | .next c b => c.1.Pending b ∧ (p ↔ NoMessage call c b)
  | .ret r c b => c.1.Pending b ∧ (p ↔ EndsWithout call r c b)

theorem keyTurn_keeps {hp : HeaderParser} {ms : Chain Url} {b : Bytes} (hs : hp.state = .key)
    (hp0 : hp.Pending b) (hb : b ≠ []) :
    TurnKeeps call (NoMessage call (hp, ms) b) (keyTurn P messageSink call hp ms b) := by
  have hval : hp.val = none := by
    by_contra hv
    simpa [hs] using (hp0.val hv).2
  unfold keyTurn
  split
  · next l he =>
    refine ⟨⟨by simp, fun hv => absurd hval hv⟩, ?_⟩
    simp [NoMessage, hval, hs, BlankHeaders.emptyLine he, BlankHeaders.done]
  · next h0 =>
    have h0 : ∀ l, locateBinEol b ≠ some (0, l) := fun l hl => h0 l hl
    have hkey : NoMessage call (hp, ms) b ↔ ms = [] ∧ ∃ n, colonAt b = some n ∧
        (∀ c ∈ b.take n, isNameChar c = true) ∧
          BlankHeaders call.cleanup .value (b.drop (n + 1)) := by
      rw [← BlankHeaders.key_iff hb h0]
      simp [NoMessage, hval, hs]
    rw [hkey]
    split
    · next info hi =>
      have hms : messageSink.info info ms ≠ [] := by
        cases ms <;> simp [messageSink, infoCallback]
        split_ifs <;> simp
      refine ⟨⟨by simp, fun hv => absurd hval hv⟩, ?_⟩
      simp only [NoMessage, hms, false_and, iff_false, not_and]
      rintro - ⟨n, hn, hname, hv⟩
      have hnone := infoParse_blankField P hname hv (call.beyond b)
      rw [← colonAt_split hn] at hnone
      rw [HeaderCall.mem, hnone] at hi
      cases hi
    · split
      · next n hn =>
        split_ifs with hname
        · refine ⟨⟨by simp, fun hv => absurd hval hv⟩, ?_⟩
          simp only [NoMessage, hval, BlankHeaders.value_dropWhile_iff, true_and]
          constructor
          · rintro ⟨hms, n', hn', -, hv⟩
            cases hn.symm.trans hn'
            exact ⟨hms, hv⟩
          · rintro ⟨hms, hv⟩
            exact ⟨hms, n, hn, hname, hv⟩
        · refine ⟨⟨by simp, fun hv => absurd hval hv⟩, ?_⟩
          simp only [EndsWithout, reduceCtorEq, ne_eq, not_true_eq_false, false_and, or_false,
            and_false, iff_false, not_and]
          rintro - ⟨n', hn', hname', -⟩
          cases hn.symm.trans hn'
          exact hname hname'
      · next hn =>
        split_ifs <;>
          exact ⟨⟨by simp [hs], fun hv => absurd hval hv⟩, by simp [EndsWithout, hn, hb]⟩

/-- Only blanks leave a value as it is. -/
theorem setAddVal_eq_none {val : Option Bytes} {line : Bytes} :
    setAddVal val line = none ↔ val = none ∧ ∀ c ∈ line, isSpace c = true := by
  have htrim : trim line = [] ↔ ∀ c ∈ line, isSpace c = true := by
    rw [trim, List.rdropWhile_eq_nil_iff, ← List.dropWhile_eq_nil_iff,
      List.dropWhile_idempotent isSpace line, List.dropWhile_eq_nil_iff]
  unfold setAddVal
  split_ifs with h
  · exact ⟨fun hv => ⟨hv, htrim.mp h⟩, fun hv => hv.1⟩
  · simp [htrim.not.mp h]

theorem NoEol.isBlank_iff {line : Bytes} (h : NoEol line) :
    (∀ c ∈ line, isBlank c = true) ↔ ∀ c ∈ line, isSpace c = true :=
  forall₂_congr fun c hc => by simp [isBlank, h c hc]

theorem valueTurn_keeps {hp : HeaderParser} {ms : Chain Url} {b : Bytes} (hs : hp.state = .value)
    (hp0 : hp.Pending b) (hb : b ≠ []) :
    TurnKeeps call (NoMessage call (hp, ms) b) (valueTurn call hp ms b) := by
  have hkey := hp0.key (.inl hs)
  unfold valueTurn
  split
  · next i l he =>
    refine ⟨⟨fun _ => hkey, fun _ => ⟨hkey, .inl rfl⟩⟩, ?_⟩
    have hno : NoEol (b.take i) := (locateBinEol_bounds he).2.2.2
    have hblank : BlankHeaders call.cleanup .value b ↔
        (∀ c ∈ b.take i, isBlank c = true) ∧
          BlankHeaders call.cleanup .valueEx (b.drop (i + l)) := by
      constructor
      · intro hv
        cases hv with
        | blanks he' hi hrest =>
          cases he.symm.trans he'
          exact ⟨hi, hrest⟩
        | cutBlanks _ hall =>
          have hno : NoEol b := fun c hc => by
            have hblank := hall c hc
            simp only [isBlank, Bool.and_eq_true, Bool.not_eq_true'] at hblank
            exact hblank.2
          rw [locateBinEol_eq_none.mpr hno] at he
          cases he
      · rintro ⟨hi, hrest⟩
        exact .blanks he hi hrest
    simp only [NoMessage, hs, hblank, setAddVal_eq_none, hno.isBlank_iff, and_assoc]
  · next he =>
    have hno := locateBinEol_eq_none.mp he
    have hblank : BlankHeaders call.cleanup .value b ↔
        call.cleanup = true ∧ ∀ c ∈ b, isBlank c = true := by
      constructor
      · intro hv
        cases hv with
        | blanks he' => rw [he] at he'; cases he'
        | cutBlanks hc hall => exact ⟨hc, hall⟩
      · rintro ⟨hc, hall⟩
        exact .cutBlanks hc hall
    split_ifs with hc
    · refine ⟨⟨by simp, fun _ => ⟨hkey, .inr (.inl rfl)⟩⟩, ?_⟩
      have hdone : BlankHeaders call.cleanup .headerDone [] := .headerDone (.noLine hc)
      simp only [NoMessage, hs, hblank, setAddVal_eq_none, hno.isBlank_iff, hdone, and_true]
      simp [hc]
    · refine ⟨hp0, ?_⟩
      simp only [NoMessage, EndsWithout, hs, hblank]
      simp [hc, hb]

theorem BlankHeaders.headerDone_iff {cleanup : Bool} {b : Bytes} :
    BlankHeaders cleanup .headerDone b ↔ BlankHeaders cleanup .key b := by
  refine ⟨fun h => ?_, .headerDone⟩
  cases h with
  | headerDone h => exact h

/-- Only with CLEANUP does a block end with the input. -/
theorem BlankHeaders.cleanup_of_nil {cleanup : Bool} {state : HeaderState}
    (h : BlankHeaders cleanup state []) (hs : state ≠ .done) : cleanup = true := by
  generalize hb : ([] : Bytes) = b at h
  induction h with
  | start _ ih => exact ih (by simp) (by simp [← hb])
  | emptyLine he => rw [← hb] at he; cases he
  | noLine hc => exact hc
  | field _ _ _ => simp at hb
  | blanks he _ _ _ => rw [← hb] at he; cases he
  | cutBlanks hc _ => exact hc
  | folded _ _ ih => exact ih (by simp) hb
  | unfolded _ _ ih => exact ih (by simp) hb
  | headerDone _ ih => exact ih (by simp) hb
  | done => exact absurd rfl hs

theorem valueExTurn_keeps {hp : HeaderParser} {ms : Chain Url} {b : Bytes}
    (hs : hp.state = .valueEx) (hp0 : hp.Pending b) :
    TurnKeeps call (NoMessage call (hp, ms) b) (valueExTurn call hp ms b) := by
  have hkey := hp0.key (.inr hs)
  unfold valueExTurn
  split_ifs with hfold hmore
  · have hb : b ≠ [] := by rintro rfl; simp at hfold
    refine ⟨⟨fun _ => hkey, fun _ => ⟨hkey, .inr (.inr ⟨rfl, hb⟩)⟩⟩, ?_⟩
    have hblank : BlankHeaders call.cleanup .valueEx b ↔ BlankHeaders call.cleanup .value b := by
      refine ⟨fun hv => ?_, .folded hfold⟩
      cases hv with
      | folded _ hv => exact hv
      | unfolded hn _ => exact absurd hfold hn
    simp only [NoMessage, hs, hblank]
  · refine ⟨⟨by simp, fun _ => ⟨hkey, .inr (.inl rfl)⟩⟩, ?_⟩
    have hblank : BlankHeaders call.cleanup .valueEx b ↔
        BlankHeaders call.cleanup .headerDone b := by
      refine ⟨fun hv => ?_, .unfolded hfold⟩
      cases hv with
      | folded hf _ => exact absurd hf hfold
      | unfolded _ hv => exact hv
    simp only [NoMessage, hs, hblank]
  · push Not at hmore
    obtain ⟨rfl, hc⟩ := hmore
    refine ⟨hp0, ?_⟩
    have hblank : ¬ BlankHeaders call.cleanup .valueEx [] :=
      fun h => hc (h.cleanup_of_nil (by simp))
    simp only [NoMessage, EndsWithout, hs, hblank]
    simp [hc]

theorem headerDoneTurn_keeps {hp : HeaderParser} {ms : Chain Url} {b : Bytes}
    (hs : hp.state = .headerDone) (hp0 : hp.Pending b) :
    TurnKeeps call (NoMessage call (hp, ms) b) (headerDoneTurn messageSink hp ms b) := by
  unfold headerDoneTurn
  split
  · next key val hk hv =>
    have hno : ¬ NoMessage call (hp, ms) b := fun h => by simp [NoMessage, hv] at h
    split_ifs
    · exact ⟨⟨by simp, by simp⟩, by simp [hno, EndsWithout]⟩
    · refine ⟨⟨by simp, by simp⟩, ?_⟩
      have hms : messageSink.header (prettyKey true true key) val ms ≠ [] := by
        cases ms <;> simp [messageSink, infoCallback]
      exact iff_of_false hno fun h => hms h.1
  · next hnot =>
    have hval : hp.val = none := by
      by_contra hv
      obtain ⟨val, hval⟩ := Option.ne_none_iff_exists'.mp hv
      obtain ⟨key, hkey⟩ := Option.ne_none_iff_exists'.mp (hp0.val hv).1
      exact hnot key val hkey hval
    refine ⟨⟨by simp, by simp⟩, ?_⟩
    simp [NoMessage, hval, hs, BlankHeaders.headerDone_iff]

theorem headerTurn_keeps (P : UrlParsers Url) (call : HeaderCall) {c : MessageHeaderConfig Url}
    {b : Bytes} (hp0 : c.1.Pending b) :
    TurnKeeps call (NoMessage call c b) (headerTurn P messageSink call c b) := by
  obtain ⟨hp, ms⟩ := c
  dsimp only at hp0
  -- a state that is left without data has its block cut off there
  have hempty : b = [] → hp.state ∈ [HeaderState.start, .key, .value] →
      TurnKeeps call (NoMessage call (hp, ms) b) (.ret hp.state (hp, ms) b) := by
    rintro rfl hs
    have hval : hp.val = none := by
      by_contra hv
      obtain h | h | ⟨-, h⟩ := (hp0.val hv).2
      · simp [h] at hs
      · simp [h] at hs
      · exact h rfl
    refine ⟨hp0, ?_⟩
    have hblank : BlankHeaders call.cleanup hp.state [] ↔ call.cleanup = true := by
      refine ⟨fun h => h.cleanup_of_nil fun hd => by simp [hd] at hs, fun hc => ?_⟩
      rcases List.mem_cons.mp hs with hs | hs
      · exact hs ▸ .start (.noLine hc)
      · rcases List.mem_cons.mp hs with hs | hs
        · exact hs ▸ .noLine hc
        · exact List.mem_singleton.mp hs ▸ .cutBlanks hc (by simp)
    have hd : hp.state ≠ .done := fun hd => by simp [hd] at hs
    have hf : hp.state ≠ .failure := fun hf => by simp [hf] at hs
    simp [NoMessage, EndsWithout, hval, hblank, hd, hf]
  unfold headerTurn
  dsimp only
  cases hs : hp.state <;> rw [hs] at hempty <;> dsimp only
  case failure =>
    refine ⟨hp0, ?_⟩
    have hblank : ¬ BlankHeaders call.cleanup .failure b := nofun
    simp [NoMessage, EndsWithout, hs, hblank]
  case start =>
    have hval : hp.val = none := by
      by_contra hv
      simpa [hs] using (hp0.val hv).2
    split_ifs with hb
    · exact hempty hb (by simp)
    · refine ⟨⟨by simp, fun hv => absurd hval hv⟩, ?_⟩
      have hblank : BlankHeaders call.cleanup .start b ↔
          BlankHeaders call.cleanup .key (b.dropWhile isSpace) := by
        refine ⟨fun h => ?_, .start⟩
        cases h with
        | start h => exact h
      simp only [NoMessage, hs, hval, hblank]
  case key =>
    split_ifs with hb
    · exact hempty hb (by simp)
    · exact keyTurn_keeps hs hp0 hb
  case value =>
    split_ifs with hb
    · exact hempty hb (by simp)
    · exact valueTurn_keeps hs hp0 hb
  case valueEx => exact valueExTurn_keeps hs hp0
  case headerDone => exact headerDoneTurn_keeps hs hp0
  case done =>
    have hval : hp.val = none := by
      by_contra hv
      simpa [hs] using (hp0.val hv).2
    refine ⟨⟨by simp, fun hv => absurd hval hv⟩, ?_⟩
    simp [NoMessage, EndsWithout, hs, hval, BlankHeaders.done]

/-- The header parser comes to the end of the headers without a message just on the blocks of the
grammar. -/
theorem headerLoop_blank (P : UrlParsers Url) (call : HeaderCall) {hp : HeaderParser} {b : Bytes}
    (hp0 : hp.Pending b) :
    let o := (headerLoop P messageSink call).run (hp, []) b
    o.2.1.1.Pending o.2.2 ∧ (EndsWithout call o.1 o.2.1 o.2.2 ↔
      hp.val = none ∧ BlankHeaders call.cleanup hp.state b) := by
  have h := Machine.run_rule (M := headerLoop P messageSink call)
    (I := fun c b' => c.1.Pending b' ∧ (NoMessage call (hp, ([] : Chain Url)) b ↔
      NoMessage call c b'))
    (Q := fun r c b' => c.1.Pending b' ∧
      (NoMessage call (hp, ([] : Chain Url)) b ↔ EndsWithout call r c b')) ?_ ?_ ⟨hp0, Iff.rfl⟩
  · refine ⟨h.1, h.2.symm.trans ?_⟩
    simp [NoMessage]
  · intro c b' d b'' hi ht
    have hk := headerTurn_keeps P call hi.1
    rw [show headerTurn P messageSink call c b' = _ from ht] at hk
    exact ⟨hk.1, hi.2.trans hk.2⟩
  · intro c b' r d b'' hi ht
    have hk := headerTurn_keeps P call hi.1
    rw [show headerTurn P messageSink call c b' = _ from ht] at hk
    exact ⟨hk.1, hi.2.trans hk.2⟩

end Turn

end ExtHttp
