import ExtHttp.BufferLoop
import ExtHttp.Info
import ExtHttp.PrettyKey

/-!
# The header parser

One turn of the loop of `php_http_header_parser_parse` and the loop. The stack of states never holds
more than one, and an empty one means `START`, so a single state stands for it. Where start lines
and headers go is left to a `HeaderSink`.
-/
namespace ExtHttp
open BufferLoop

inductive HeaderState
  | failure
  | start
  | key
  | value
  | valueEx
  | headerDone
  | done
  deriving DecidableEq, Repr

/-- `php_http_header_parser_t` without `info`, which is empty between the turns. -/
structure HeaderParser where
  state : HeaderState
  key : Option Bytes
  val : Option Bytes
  deriving DecidableEq, Repr

def headerParserInit : HeaderParser := ⟨.start, none, none⟩

/-- What the parser does with its findings: call back with a start line, store a header field. -/
structure HeaderSink (Url S : Type) where
  info : Info Url → S → S
  header : Bytes → Bytes → S → S

/-- What a call of the parser depends on besides the buffer: the CLEANUP flag, and the memory behind
the NUL that `php_http_buffer_fix` puts behind a buffer, where `php_http_info_parse` may look. -/
structure HeaderCall where
  cleanup : Bool
  beyond : Bytes → Bytes

def HeaderCall.mem (call : HeaderCall) (b : Bytes) : Bytes := b ++ nul :: call.beyond b

abbrev HeaderConfig (S : Type) := HeaderParser × S

section Turn
variable {Url S : Type} (P : UrlParsers Url) (sink : HeaderSink Url S)

/-- `colon` behind a name, or none if the line ends before it. -/
def colonAt (b : Bytes) : Option ℕ :=
  let colon := (b.takeWhile (· ≠ colon)).length
  if colon < b.length ∧ ∀ e ∈ locateBinEol b, colon < e.1 then some colon else none

theorem colonAt_eq_some {b : Bytes} {n : ℕ} : colonAt b = some n ↔
    (b.takeWhile (· ≠ colon)).length = n ∧ n < b.length ∧ ∀ e ∈ locateBinEol b, n < e.1 := by
  simp only [colonAt, Option.ite_none_right_eq_some, Option.some.injEq]
  constructor
  · rintro ⟨h, rfl⟩
    exact ⟨rfl, h⟩
  · rintro ⟨rfl, h⟩
    exact ⟨h, rfl⟩

theorem isNameChar_ne_colon {c : Byte} (h : isNameChar c = true) : c ≠ colon := by
  rintro rfl
  exact absurd h (by decide)

theorem isNameChar_not_isEol {c : Byte} (h : isNameChar c = true) : isEol c = false := by
  rw [Bool.eq_false_iff]
  intro he
  rcases isEol_iff.mp he with rfl | rfl <;> exact absurd h (by decide)

theorem colonAt_field {name : Bytes} (h : ∀ c ∈ name, isNameChar c = true) (b : Bytes) :
    colonAt (name ++ colon :: b) = some name.length := by
  have hno : NoEol (name ++ [colon]) := by
    refine noEol_append.mpr ⟨fun c hc => isNameChar_not_isEol (h c hc), ?_⟩
    simp [show isEol colon = false by decide]
  refine colonAt_eq_some.mpr ⟨?_, by simp, ?_⟩
  · rw [List.takeWhile_append_of_pos (by simpa using fun c hc => isNameChar_ne_colon (h c hc))]
    simp
  · intro e he
    have hb : name ++ colon :: b = (name ++ [colon]) ++ b := by simp
    rw [hb, locateBinEol_append_noEol hno] at he
    obtain ⟨e', -, rfl⟩ := Option.map_eq_some_iff.mp he
    simp only [List.length_append, List.length_singleton]
    omega

theorem colonAt_split {b : Bytes} {n : ℕ} (h : colonAt b = some n) :
    b = b.take n ++ colon :: b.drop (n + 1) := by
  obtain ⟨rfl, hlt, -⟩ := colonAt_eq_some.mp h
  have hsplit := List.takeWhile_append_dropWhile (p := (· ≠ colon)) (l := b)
  have hnot := List.head?_dropWhile_not (· ≠ colon) b
  generalize b.takeWhile (· ≠ colon) = w at hsplit hlt ⊢
  cases hd : b.dropWhile (· ≠ colon) with
  | nil =>
    rw [hd, List.append_nil] at hsplit
    rw [hsplit] at hlt
    exact absurd hlt (lt_irrefl _)
  | cons c rest =>
    rw [hd] at hsplit hnot
    obtain rfl : c = colon := by simpa using hnot
    rw [← hsplit]
    simp

/-- `PHP_HTTP_HEADER_PARSER_STATE_KEY` -/
def keyTurn (call : HeaderCall) (hp : HeaderParser) (s : S) (b : Bytes) :
    Turn (HeaderConfig S) Byte HeaderState :=
  match locateBinEol b with
  | some (0, eolLen) => .next ({ hp with state := .done }, s) (b.drop eolLen)
  | eol => match infoParse P (call.mem b) with
    | some info =>
        -- without an end of line the whole buffer is cut
        .next ({ hp with state := .headerDone }, sink.info info s)
          (eol.elim [] fun e => b.drop (e.1 + e.2))
    | none => match colonAt b with
      | some colon =>
          if ∀ c ∈ b.take colon, isNameChar c = true then
            .next ({ hp with state := .value, key := some (b.take colon) }, s)
              ((b.drop (colon + 1)).dropWhile isBlank)
          else .ret .failure ({ hp with state := .failure, key := none }, s) b
      | none =>
          if eol.isSome ∨ call.cleanup = true then .ret .failure
            ({ hp with state := .failure }, s) b
          else .ret .key (hp, s) b

def trim (line : Bytes) : Bytes := (line.dropWhile isSpace).rdropWhile isSpace

/-- `SET_ADD_VAL`: folded lines are joined by a space. -/
def setAddVal (val : Option Bytes) (line : Bytes) : Option Bytes :=
  if trim line = [] then val
  else some (val.elim (trim line) fun v => v ++ space :: trim line)

/-- `PHP_HTTP_HEADER_PARSER_STATE_VALUE` -/
def valueTurn (call : HeaderCall) (hp : HeaderParser) (s : S) (b : Bytes) :
    Turn (HeaderConfig S) Byte HeaderState :=
  match locateBinEol b with
  | some (eolStr, eolLen) =>
      .next ({ hp with state := .valueEx, val := setAddVal hp.val (b.take eolStr) }, s)
        (b.drop (eolStr + eolLen))
  | none =>
      if call.cleanup then
        .next ({ hp with state := .headerDone, val := setAddVal hp.val b }, s) []
      else .ret .value (hp, s) b

/-- `PHP_HTTP_HEADER_PARSER_STATE_VALUE_EX` -/
def valueExTurn (call : HeaderCall) (hp : HeaderParser) (s : S) (b : Bytes) :
    Turn (HeaderConfig S) Byte HeaderState :=
  if b.head? = some space ∨ b.head? = some 9 then .next ({ hp with state := .value }, s) b
  else if b ≠ [] ∨ call.cleanup = true then .next ({ hp with state := .headerDone }, s) b
  else .ret .valueEx (hp, s) b

/-- `PHP_HTTP_HEADER_PARSER_STATE_HEADER_DONE` -/
def headerDoneTurn (hp : HeaderParser) (s : S) (b : Bytes) :
    Turn (HeaderConfig S) Byte HeaderState :=
  match hp.key, hp.val with
  | some key, some val =>
      if nul ∈ val then .ret .failure (⟨.failure, none, none⟩, s) b
      else .next (⟨.key, none, none⟩, sink.header (prettyKey true true key) val s) b
  | _, _ => .next (⟨.key, none, none⟩, s) b

/-- A turn of the loop. Only the states that need data leave an empty buffer alone. -/
def headerTurn (call : HeaderCall) (c : HeaderConfig S) (b : Bytes) :
    Turn (HeaderConfig S) Byte HeaderState :=
  match c.1.state with
  | .failure => .ret .failure c b
  | .start =>
      if b = [] then .ret .start c b else .next ({ c.1 with state := .key }, c.2)
        (b.dropWhile isSpace)
  | .key => if b = [] then .ret .key c b else keyTurn P sink call c.1 c.2 b
  | .value => if b = [] then .ret .value c b else valueTurn call c.1 c.2 b
  | .valueEx => valueExTurn call c.1 c.2 b
  | .headerDone => headerDoneTurn sink c.1 c.2 b
  | .done => .ret .done ({ c.1 with state := .start }, c.2) b

/-- The states that pass the buffer on without taking from it come before those that take. -/
def HeaderState.rank : HeaderState → ℕ
  | .valueEx => 2
  | .headerDone => 1
  | .start => 1
  | _ => 0

section Line
variable {P sink} {call : HeaderCall} {hp : HeaderParser} {s : S} {b : Bytes}

theorem keyTurn_info (h : ∀ l, locateBinEol b ≠ some (0, l)) {info : Info Url}
    (hi : infoParse P (call.mem b) = some info) :
    keyTurn P sink call hp s b = .next ({ hp with state := .headerDone }, sink.info info s)
      ((locateBinEol b).elim [] fun e => b.drop (e.1 + e.2)) := by
  unfold keyTurn
  split
  · exact absurd ‹_› (h _)
  · rw [hi]

theorem keyTurn_field (h : ∀ l, locateBinEol b ≠ some (0, l))
    (hi : infoParse P (call.mem b) = none) {n : ℕ} (hc : colonAt b = some n) :
    keyTurn P sink call hp s b =
      if ∀ c ∈ b.take n, isNameChar c = true then
        .next ({ hp with state := .value, key := some (b.take n) }, s)
          ((b.drop (n + 1)).dropWhile isBlank)
      else .ret .failure ({ hp with state := .failure, key := none }, s) b := by
  unfold keyTurn
  split
  · exact absurd ‹_› (h _)
  · rw [hi, hc]

theorem keyTurn_other (h : ∀ l, locateBinEol b ≠ some (0, l))
    (hi : infoParse P (call.mem b) = none) (hc : colonAt b = none) :
    keyTurn P sink call hp s b =
      if (locateBinEol b).isSome ∨ call.cleanup = true then
        .ret .failure ({ hp with state := .failure }, s) b
      else .ret .key (hp, s) b := by
  unfold keyTurn
  split
  · exact absurd ‹_› (h _)
  · rw [hi, hc]

end Line

theorem keyTurn_weight {call : HeaderCall} {hp : HeaderParser} {s : S} {d : HeaderConfig S}
    {b b' : Bytes} (hb : b ≠ []) (h : keyTurn P sink call hp s b = .next d b') :
    b'.length < b.length ∧ d.1.state.rank ≤ 1 := by
  have hpos := List.length_pos_of_ne_nil hb
  have hdrop : ∀ i l, locateBinEol b = some (i, l) → (b.drop (i + l)).length < b.length := by
    intro i l he
    have := locateBinEol_bounds he
    rw [List.length_drop]
    omega
  unfold keyTurn at h
  split at h
  · next eolLen he =>
    cases h
    have := hdrop 0 eolLen he
    rw [Nat.zero_add] at this
    exact ⟨this, by simp [HeaderState.rank]⟩
  · split at h
    · cases h
      refine ⟨?_, by simp [HeaderState.rank]⟩
      cases he : locateBinEol b with
      | none => simpa using hpos
      | some e => exact hdrop e.1 e.2 he
    · split at h
      · next colon hc =>
        split_ifs at h
        cases h
        have := (List.dropWhile_sublist (l := b.drop (colon + 1)) isBlank).length_le
        rw [List.length_drop] at this
        exact ⟨by omega, by simp [HeaderState.rank]⟩
      · split_ifs at h

theorem valueTurn_weight {call : HeaderCall} {hp : HeaderParser} {s : S} {d : HeaderConfig S}
    {b b' : Bytes} (hb : b ≠ []) (h : valueTurn call hp s b = .next d b') :
    b'.length < b.length ∧ d.1.state.rank ≤ 2 := by
  have hpos := List.length_pos_of_ne_nil hb
  unfold valueTurn at h
  split at h
  · next i l he =>
    cases h
    have := locateBinEol_bounds he
    rw [List.length_drop]
    exact ⟨by omega, by simp [HeaderState.rank]⟩
  · split_ifs at h
    cases h
    exact ⟨by simpa using hpos, by simp [HeaderState.rank]⟩

theorem headerTurn_weight {call : HeaderCall} {c d : HeaderConfig S} {b b' : Bytes}
    (h : headerTurn P sink call c b = .next d b') :
    4 * b'.length + d.1.state.rank < 4 * b.length + c.1.state.rank := by
  unfold headerTurn at h
  split at h
  · cases h
  · next hs =>
    split_ifs at h
    cases h
    have := (List.dropWhile_sublist (l := b) isSpace).length_le
    simp only [hs, HeaderState.rank]
    omega
  · split_ifs at h with hb
    have := keyTurn_weight P sink hb h
    omega
  · split_ifs at h with hb
    have := valueTurn_weight hb h
    omega
  · next hs =>
    unfold valueExTurn at h
    split_ifs at h <;> cases h <;> simp [hs, HeaderState.rank]
  · next hs =>
    unfold headerDoneTurn at h
    split at h
    · split_ifs at h
      cases h
      simp [hs, HeaderState.rank]
    · cases h
      simp [hs, HeaderState.rank]
  · cases h

/-- What a turn that goes round again can do to state and buffer. -/
theorem headerTurn_next {call : HeaderCall} {c d : HeaderConfig S} {b b' : Bytes}
    (h : headerTurn P sink call c b = .next d b') :
    d.1.state ≠ .start ∧ d.1.state ≠ .failure ∧ b'.length ≤ b.length ∧
      (d.1.state = .done → b'.length < b.length) := by
  unfold headerTurn at h
  split at h
  · cases h
  · split_ifs at h
    cases h
    exact ⟨by simp, by simp, (List.dropWhile_sublist isSpace).length_le, by simp⟩
  · split_ifs at h with hb
    have hlt := (keyTurn_weight P sink hb h).1
    refine (and_assoc.mp ⟨?_, hlt.le, fun _ => hlt⟩)
    unfold keyTurn at h
    split at h
    · cases h
      simp
    · split at h
      · cases h
        simp
      · split at h <;> split_ifs at h
        cases h
        simp
  · split_ifs at h with hb
    have hlt := (valueTurn_weight hb h).1
    refine (and_assoc.mp ⟨?_, hlt.le, fun _ => hlt⟩)
    unfold valueTurn at h
    split at h
    · cases h
      simp
    · split_ifs at h
      cases h
      simp
  · unfold valueExTurn at h
    split_ifs at h <;> cases h <;> simp
  · unfold headerDoneTurn at h
    split at h
    · split_ifs at h
      cases h
      simp
    · cases h
      simp
  · cases h

/-- A turn that leaves the loop takes nothing from the buffer. One that waits for more leaves
everything as it was, and only the state `DONE` is left with `DONE`. -/
theorem headerTurn_ret {call : HeaderCall} {c d : HeaderConfig S} {r : HeaderState} {b b' : Bytes}
    (h : headerTurn P sink call c b = .ret r d b') :
    b' = b ∧ d.1.state ≠ .done ∧ (r = .done → c.1.state = .done) ∧
      (r ≠ .failure → r ≠ .done → d = c) := by
  unfold headerTurn at h
  split at h
  · next hs =>
    cases h
    simp [hs]
  · next hs =>
    split_ifs at h
    cases h
    simp [hs]
  · next hs =>
    split_ifs at h
    · cases h
      simp [hs]
    · unfold keyTurn at h
      split at h
      · cases h
      · split at h
        · cases h
        · split at h <;> split_ifs at h <;> cases h <;> simp [hs]
  · next hs =>
    split_ifs at h
    · cases h
      simp [hs]
    · unfold valueTurn at h
      split at h
      · cases h
      · split_ifs at h
        cases h
        simp [hs]
  · next hs =>
    unfold valueExTurn at h
    split_ifs at h
    cases h
    simp [hs]
  · unfold headerDoneTurn at h
    split at h
    · split_ifs at h
      cases h
      simp
    · cases h
  · next hs =>
    cases h
    simp [hs]

theorem headerTurn_failure {call : HeaderCall} {c d : HeaderConfig S} {b b' : Bytes}
    (h : headerTurn P sink call c b = .ret .failure d b') : d.1.state = .failure := by
  unfold headerTurn at h
  split at h
  · next hs =>
    cases h
    exact hs
  · split_ifs at h
    cases h
  · split_ifs at h
    · cases h
    · unfold keyTurn at h
      split at h
      · cases h
      · split at h
        · cases h
        · split at h <;> split_ifs at h <;> cases h <;> rfl
  · split_ifs at h
    · cases h
    · unfold valueTurn at h
      split at h
      · cases h
      · split_ifs at h
        cases h
  · unfold valueExTurn at h
    split_ifs at h
    cases h
  · unfold headerDoneTurn at h
    split at h
    · split_ifs at h
      cases h
      rfl
    · cases h
  · cases h

/-- What the sink keeps, whatever it is given, the parser keeps. -/
theorem headerTurn_sink {I : S → Prop} (hinfo : ∀ info s, I s → I (sink.info info s))
    (hheader : ∀ key val s, I s → I (sink.header key val s)) {call : HeaderCall}
    {c : HeaderConfig S} (b : Bytes) (h : I c.2) : I (headerTurn P sink call c b).state.2 := by
  unfold headerTurn
  split
  · exact h
  · split_ifs <;> exact h
  · split_ifs
    · exact h
    · unfold keyTurn
      split
      · exact h
      · split
        · exact hinfo _ _ h
        · split <;> split_ifs <;> exact h
  · split_ifs
    · exact h
    · unfold valueTurn
      split
      · exact h
      · split_ifs <;> exact h
  · unfold valueExTurn
    split_ifs <;> exact h
  · unfold headerDoneTurn
    split
    · split_ifs
      · exact h
      · exact hheader _ _ _ h
    · exact h
  · exact h

/-- The turns do not look at what the sink has, so they keep related sinks related. -/
theorem headerTurn_related {R : S → S → Prop} (hinfo : ∀ info {s s'}, R s s' →
      R (sink.info info s) (sink.info info s'))
    (hheader : ∀ key val {s s'}, R s s' → R (sink.header key val s) (sink.header key val s'))
    {call : HeaderCall} {hp : HeaderParser} {s s' : S} (b : Bytes) (h : R s s') :
    Machine.Related (fun c c' : HeaderConfig S => c.1 = c'.1 ∧ R c.2 c'.2)
      (headerTurn P sink call (hp, s) b) (headerTurn P sink call (hp, s') b) := by
  unfold headerTurn
  dsimp only
  split
  · exact .ret ⟨rfl, h⟩
  · split_ifs
    · exact .ret ⟨rfl, h⟩
    · exact .next ⟨rfl, h⟩
  · split_ifs
    · exact .ret ⟨rfl, h⟩
    · unfold keyTurn
      split
      · exact .next ⟨rfl, h⟩
      · split
        · exact .next ⟨rfl, hinfo _ h⟩
        · split <;> split_ifs
          · exact .next ⟨rfl, h⟩
          · exact .ret ⟨rfl, h⟩
          · exact .ret ⟨rfl, h⟩
          · exact .ret ⟨rfl, h⟩
  · split_ifs
    · exact .ret ⟨rfl, h⟩
    · unfold valueTurn
      split
      · exact .next ⟨rfl, h⟩
      · split_ifs
        · exact .next ⟨rfl, h⟩
        · exact .ret ⟨rfl, h⟩
  · unfold valueExTurn
    split_ifs
    · exact .next ⟨rfl, h⟩
    · exact .next ⟨rfl, h⟩
    · exact .ret ⟨rfl, h⟩
  · unfold headerDoneTurn
    split
    · split_ifs
      · exact .ret ⟨rfl, h⟩
      · exact .next ⟨rfl, hheader _ _ h⟩
    · exact .next ⟨rfl, h⟩
  · exact .ret ⟨rfl, h⟩

/-- The loop of `php_http_header_parser_parse` -/
def headerLoop (call : HeaderCall) : Machine (HeaderConfig S) Byte HeaderState where
  turn := headerTurn P sink call
  weight c b := 4 * b.length + c.1.state.rank
  weight_lt := headerTurn_weight P sink

/-- A call leaves no more in the buffer than there was, and less if it comes to the end of
headers. -/
theorem headerLoop_length (call : HeaderCall) (c : HeaderConfig S) (b : Bytes) :
    let o := (headerLoop P sink call).run c b
    o.2.2.length ≤ b.length ∧ o.2.1.1.state ≠ .done ∧
      (o.1 = .done → c.1.state ≠ .done → o.2.2.length < b.length) := by
  refine Machine.run_rule (M := headerLoop P sink call)
    (I := fun d b' => b'.length ≤ b.length ∧
      (d.1.state = .done → c.1.state ≠ .done → b'.length < b.length))
    (Q := fun r d b' => b'.length ≤ b.length ∧ d.1.state ≠ .done ∧
      (r = .done → c.1.state ≠ .done → b'.length < b.length)) ?_ ?_
    ⟨le_rfl, fun hs hne => absurd hs hne⟩
  · intro d b₁ d' b₂ hi ht
    obtain ⟨-, -, hle, hlt⟩ := headerTurn_next P sink ht
    exact ⟨hle.trans hi.1, fun hs _ => (hlt hs).trans_le hi.1⟩
  · intro d b₁ r d' b₂ hi ht
    obtain ⟨rfl, hne, hdone, -⟩ := headerTurn_ret P sink ht
    exact ⟨hi.1, hne, fun hr => hi.2 (hdone hr)⟩

/-- A call that fails leaves the parser in `FAILURE`. -/
theorem headerLoop_failure (call : HeaderCall) (c : HeaderConfig S) (b : Bytes)
    (h : ((headerLoop P sink call).run c b).1 = .failure) :
    ((headerLoop P sink call).run c b).2.1.1.state = .failure := by
  obtain ⟨d, -, ht⟩ := (headerLoop P sink call).exists_last_turn c b
  rw [h] at ht
  exact headerTurn_failure P sink ht

theorem headerLoop_related {R : S → S → Prop} (hinfo : ∀ info {s s'}, R s s' →
      R (sink.info info s) (sink.info info s'))
    (hheader : ∀ key val {s s'}, R s s' → R (sink.header key val s) (sink.header key val s'))
    (call : HeaderCall) (hp : HeaderParser) {s s' : S} (b : Bytes) (h : R s s') :
    let o := (headerLoop P sink call).run (hp, s) b
    let o' := (headerLoop P sink call).run (hp, s') b
    o'.1 = o.1 ∧ o.2.1.1 = o'.2.1.1 ∧ R o.2.1.2 o'.2.1.2 ∧ o'.2.2 = o.2.2 := by
  have hrun := Machine.run_related (M := headerLoop P sink call) (N := headerLoop P sink call)
    (R := fun c c' => c.1 = c'.1 ∧ R c.2 c'.2)
    (fun {c c'} b hc => by
      obtain ⟨hp, s⟩ := c
      obtain ⟨rfl, hs⟩ := hc
      exact headerTurn_related P sink hinfo hheader b hs) b (s := (hp, s)) (t := (hp, s')) ⟨rfl, h⟩
  exact ⟨hrun.1, hrun.2.1.1, hrun.2.1.2, hrun.2.2⟩

theorem headerLoop_sink {I : S → Prop} (hinfo : ∀ info s, I s → I (sink.info info s))
    (hheader : ∀ key val s, I s → I (sink.header key val s)) (call : HeaderCall)
    {c : HeaderConfig S} (b : Bytes) (h : I c.2) : I ((headerLoop P sink call).run c b).2.1.2 :=
  Machine.run_state_invariant (I := fun c : HeaderConfig S => I c.2)
    (fun b h => headerTurn_sink P sink hinfo hheader b h) b h

end Turn

end ExtHttp
