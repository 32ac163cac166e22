import ExtHttp.UrlSafe
import ExtHttp.UrlSettled

/-!
# The buffer of the URL parser

`struct parse_state` has `maxlen + 1` bytes for the components. Here the stages of the parser check
each of their writes. Inside of the text no turn of a loop writes more than three bytes for a byte
that it takes.
-/
namespace ExtHttp
open Scan

/-! ### Writes -/

/-- How a stage ends that comes to no result. -/
inductive UrlFault
  | refused
  /-- a read behind the memory -/
  | overread
  /-- a write behind the buffer -/
  | overrun
  deriving DecidableEq, Repr

/-- No buffer has room for a copy of `(size_t) -2` bytes. -/
def UrlExit.fault : UrlExit → UrlFault
  | .refused => .refused
  | .overread => .overread
  | .runaway => .overrun

def checked {α : Type} (x : Except UrlExit α) : Except UrlFault α := x.mapError UrlExit.fault

/-- `state->buffer[state->offset++] = c` -/
def storeByte (maxlen : ℕ) (st : UrlState) (c : Byte) : Except UrlFault UrlState :=
  if st.offset ≤ maxlen then .ok (st.put [c]) else .error .overrun

/-- One write after the other -/
def store (maxlen : ℕ) (st : UrlState) (w : Bytes) : Except UrlFault UrlState :=
  w.foldlM (storeByte maxlen) st

/-- What a turn has written when it reads behind the memory: of a triple that begins with `%%` two
bytes are copied before the third is looked at. -/
def beforeRead (cur : UrlCursor) : Bytes :=
  if cur.text.take 2 = [percent, percent] then [percent, percent] else []

section Loops
variable {σ : Type} (maxlen : ℕ) (stop : Byte → Bool) (word : UrlWord σ)

/-- A turn of a loop that writes to the buffer: how many bytes it takes, and the state then. -/
def turnIn (x : σ × UrlState) (cur : UrlCursor) : Except UrlFault (ℕ × σ × UrlState) :=
  match word x.1 cur with
  | .ok (w, n, s) => do .ok (n, s, ← store maxlen x.2 w)
  | .error .overread => do
      let _ ← store maxlen x.2 (beforeRead cur)
      .error .overread
  | .error e => .error e.fault

def onTextIn (x : σ × UrlState) (rest after : Bytes) : Except UrlFault (Bytes × ℕ × σ × UrlState) :=
  (turnIn maxlen word x (.on rest after)).map fun o => ([], o)

/-- The state where a loop ends, how many bytes it has taken, and whether it has stopped in front of
a character. -/
structure LoopIn (σ : Type) where
  state : σ
  buffer : UrlState
  taken : ℕ
  stopped : Bool

/-- `while (ptr < end)` -/
def whileIn (s : σ) (st : UrlState) (cur : UrlCursor) : Except UrlFault (LoopIn σ) :=
  if 0 < cur.left then
    (scanE stop (onTextIn maxlen word) cur.after (s, st) 0 cur.rest).map fun o =>
      ⟨o.state.1, o.state.2, cur.rest.length - o.rest.length + o.excess, o.rest ≠ []⟩
  else .ok ⟨s, st, 0, false⟩

/-- `do { … } while (++ptr < end)` -/
def doIn (s : σ) (st : UrlState) (cur : UrlCursor) : Except UrlFault (LoopIn σ) :=
  if 0 < cur.left then whileIn maxlen stop word s st cur
  else do
    let c ← checked (cur.read 0)
    if stop c then .ok ⟨s, st, 0, true⟩
    else (turnIn maxlen word (s, st) cur).map fun o => ⟨o.2.1, o.2.2, o.1, false⟩

end Loops

/-! ### Stages -/

namespace UrlScanner
variable (S : UrlSystem) (flags : UrlFlags) (maxlen : ℕ)

/-- `goto softfail` -/
def softfail {α : Type} (a : α) : Except UrlFault α → Except UrlFault α
  | .error .refused => .ok a
  | x => x

/-- `parse_scheme` -/
def parseSchemeIn (st : UrlState) (cur : UrlCursor) : Except UrlFault (UrlState × UrlCursor) :=
  softfail (st, cur) do
    let scheme ← doIn maxlen isColon (schemeWord S flags) true st cur
    if scheme.stopped then do
      let st ← store maxlen scheme.buffer [nul]
      .ok ({ st with scheme := some 0 }, cur.advance (scheme.taken + 1))
    else .ok (st, cur)

/-- `parse_userinfo` -/
def parseUserinfoIn (st : UrlState) (cur : UrlCursor) : Except UrlFault UrlState := do
  let user ← doIn maxlen isColon (userinfoWord S flags) () { st with user := some st.offset } cur
  let st ← store maxlen user.buffer [nul]
  if user.stopped then do
    let pass ← whileIn maxlen never (userinfoWord S flags) () { st with pass := some st.offset }
      (cur.advance (user.taken + 1))
    store maxlen pass.buffer [nul]
  else .ok st

/-- The loop of `parse_hostinfo` -/
def hostLoopIn (st : UrlState) (cur : UrlCursor) : Except UrlFault UrlState :=
  if cur.left = 0 then .ok st
  else do
    let host ← doIn maxlen isColon (hostWord S flags) false st cur
    if host.stopped then do
      let port ← whileIn maxlen never (portWord flags) st.port host.buffer
        (cur.advance (host.taken + 1))
      .ok { port.buffer with port := port.state }
    else .ok host.buffer

/-- `parse_hostinfo` behind its loop. What the IDN library writes is not looked at. -/
def hostEndIn (len : ℕ) (st : UrlState) : Except UrlFault UrlState :=
  match st.host with
  | none => do
      let st' ← store maxlen { st with host := some len } [nul]
      if flags.toidn then checked (parseIdna S flags st' len (st.offset - len)) else .ok st'
  | some host => if flags.toidn then checked (parseIdna S flags st host len) else .ok st

/-- `parse_hostinfo`. A literal address, for which `inet_ntop` is told its room, is not looked at
either. -/
def parseHostinfoIn (st : UrlState) (cur : UrlCursor) : Except UrlFault UrlState := do
  let c ← checked (cur.read 0)
  if c = 91 then checked (parseHostinfo S flags st cur)
  else do hostEndIn S flags maxlen st.offset (← hostLoopIn S flags maxlen st cur)

def userinfoIn (st : UrlState) (cur : UrlCursor) (n : ℕ) : Except UrlFault UrlState :=
  if n = 0 then .ok st else parseUserinfoIn S flags maxlen st ⟨cur.text, n⟩

/-- `parse_authority` up to the host info -/
def beforeHostIn (st : UrlState) (cur : UrlCursor) :
    Except UrlFault (UrlState × Option UrlCursor × UrlCursor) := do
  let n := (cur.rest.takeWhile inAuthority).length
  let c ← checked ((cur.advance n).read 0)
  if c = atSign then do
    let st ← userinfoIn S flags maxlen st cur n
    if 0 < (cur.advance n).left then do
      let cur := cur.advance (n + 1)
      let n := (cur.rest.takeWhile (inHost flags)).length
      let c ← checked ((cur.advance n).read 0)
      if c = atSign ∧ flags.ignoreErrors = false then .error .refused
      else .ok (st, infoOf cur n, cur.advance n)
    else .ok (st, some (cur.advance (n + 1)), cur.advance n)
  else .ok (st, infoOf cur n, cur.advance n)

def hostIn (st : UrlState) : Option UrlCursor → Except UrlFault UrlState
  | none => .ok st
  | some info => parseHostinfoIn S flags maxlen st info

/-- `parse_path` -/
def parsePathIn (st : UrlState) (cur : UrlCursor) : Except UrlFault (UrlState × UrlCursor) := do
  let c ← checked (cur.read 0)
  if c = nul then .ok (st, cur)
  else do
    let path ← doIn maxlen isPathEnd (pathWord S flags) () { st with path := some st.offset } cur
    if path.taken = 0 then .ok (st, cur) else do .ok (← store maxlen path.buffer [nul],
      cur.advance path.taken)

/-- `parse_query` -/
def parseQueryIn (st : UrlState) (cur : UrlCursor) : Except UrlFault (UrlState × UrlCursor) := do
  let c ← checked (cur.read 0)
  if c ≠ question then .ok (st, cur)
  else do
    let query ← whileIn maxlen isHash (queryWord S flags) () { st with query := some st.offset }
      (cur.advance 1)
    .ok (← store maxlen query.buffer [nul], cur.advance (query.taken + 1))

/-- `parse_fragment` -/
def parseFragmentIn (st : UrlState) (cur : UrlCursor) : Except UrlFault (UrlState × UrlCursor) := do
  let c ← checked (cur.read 0)
  if c ≠ hash then .ok (st, cur)
  else do
    let fragment ← doIn maxlen never (fragmentWord S flags) ()
      { st with fragment := some st.offset } (cur.advance 1)
    .ok (← store maxlen fragment.buffer [nul], cur.advance (fragment.taken + 1))

/-- A stage that checks its writes -/
def urlStepIn : UrlConfig → Except UrlFault UrlConfig
  | ⟨.scheme, st, cur⟩ => (parseSchemeIn S flags maxlen st cur).map fun o => ⟨.hier, o.1, o.2⟩
  | ⟨.hier, st, cur⟩ => checked (urlStep S flags ⟨.hier, st, cur⟩)
  | ⟨.authority, st, cur⟩ => (beforeHostIn S flags maxlen st cur).map fun o =>
    ⟨.host o.2.1, o.1, o.2.2⟩
  | ⟨.host info, st, cur⟩ => (hostIn S flags maxlen st info).map fun st => ⟨.path, st, cur⟩
  | ⟨.path, st, cur⟩ => (parsePathIn S flags maxlen st cur).map fun o => ⟨.query, o.1, o.2⟩
  | ⟨.query, st, cur⟩ => (parseQueryIn S flags maxlen st cur).map fun o => ⟨.fragment, o.1, o.2⟩
  | ⟨.fragment, st, cur⟩ => (parseFragmentIn S flags maxlen st cur).map fun o => ⟨.done, o.1, o.2⟩
  | ⟨.done, st, cur⟩ => .ok ⟨.done, st, cur⟩

end UrlScanner

/-! ### What writes come to -/

/-- The state behind so many writes -/
def stored (st : UrlState) (w : Bytes) : UrlState := w.foldl (fun st c => st.put [c]) st

/-- There is room for `n` bytes at an offset. -/
def Fits (maxlen offset n : ℕ) : Prop := n = 0 ∨ offset + n ≤ maxlen + 1

instance (maxlen offset n : ℕ) : Decidable (Fits maxlen offset n) :=
  inferInstanceAs (Decidable (_ ∨ _))

theorem stored_append (st : UrlState) (v w : Bytes) : stored st (v ++ w) = stored (stored st v) w :=
  List.foldl_append ..

@[simp] theorem stored_offset (st : UrlState) (w : Bytes) :
    (stored st w).offset = st.offset + w.length := by
  induction w generalizing st with
  | nil => rfl
  | cons c w ih =>
    rw [stored, List.foldl_cons]
    change (stored (st.put [c]) w).offset = _
    rw [ih, UrlState.put, List.length_singleton, List.length_cons]
    dsimp only
    omega

/-- Bytes that are written one after the other, and others behind them. -/
theorem stored_put (st : UrlState) (v w : Bytes) : (stored st v).put w = st.put (v ++ w) := by
  induction v generalizing st with
  | nil => rfl
  | cons c v ih =>
    rw [stored, List.foldl_cons]
    change (stored (st.put [c]) v).put w = _
    rw [ih, put_put, List.cons_append, List.nil_append, List.cons_append]

/-- Writes go through exactly if there is room for all of them. -/
theorem store_eq (maxlen : ℕ) (st : UrlState) (w : Bytes) :
    store maxlen st w = if Fits maxlen st.offset w.length then .ok (stored st w)
      else .error .overrun := by
  induction w generalizing st with
  | nil => exact (if_pos (.inl rfl)).symm
  | cons c w ih =>
    have hput : (st.put [c]).offset = st.offset + 1 := rfl
    rw [store, List.foldlM_cons, storeByte]
    by_cases hfree : st.offset ≤ maxlen
    · rw [if_pos hfree]
      change store maxlen (st.put [c]) w = _
      rw [ih, hput]
      have hfits : Fits maxlen (st.offset + 1) w.length ↔
          Fits maxlen st.offset (c :: w).length := by
        rw [List.length_cons, Fits, Fits]
        omega
      rw [if_congr hfits rfl rfl]
      rfl
    · have hfull : ¬ Fits maxlen st.offset (c :: w).length := by
        rw [List.length_cons, Fits]
        omega
      rw [if_neg hfree, if_neg hfull]
      rfl

@[simp] theorem stored_host (st : UrlState) (w : Bytes) : (stored st w).host = st.host := by
  induction w generalizing st with
  | nil => rfl
  | cons c w ih => exact ih (st.put [c])

@[simp] theorem stored_port (st : UrlState) (w : Bytes) : (stored st w).port = st.port := by
  induction w generalizing st with
  | nil => rfl
  | cons c w ih => exact ih (st.put [c])

theorem store_ok {maxlen : ℕ} {st : UrlState} {w : Bytes} (h : Fits maxlen st.offset w.length) :
    store maxlen st w = .ok (stored st w) := by rw [store_eq, if_pos h]

/-- The terminator behind a component -/
theorem store_nul {maxlen : ℕ} {st : UrlState} {w : Bytes} (h : st.offset + w.length ≤ maxlen) :
    store maxlen (stored st w) [nul] = .ok (st.put (w ++ [nul])) := by
  have hfits : Fits maxlen (stored st w).offset [nul].length := by
    rw [stored_offset, List.length_singleton, Fits]
    omega
  rw [store_ok hfits]
  exact congrArg Except.ok (stored_put st w [nul])

/-! ### Three bytes for one -/

theorem length_pctEncode (b : Bytes) : (pctEncode b).length = 3 * b.length := by
  induction b with
  | nil => rfl
  | cons c b ih =>
    rw [pctEncode, List.flatMap_cons, List.length_append]
    change 3 + (pctEncode b).length = _
    rw [ih, List.length_cons]
    omega

/-- Inside of the text a turn writes no more than three bytes for each that it takes. -/
def Threefold {σ : Type} (word : UrlWord σ) : Prop := ∀ s c b after w n s',
  word s (.on (c :: b) after) = .ok (w, n, s') → w.length ≤ 3 * (min (n - 1) b.length + 1)

section Words
variable {S : UrlSystem} {flags : UrlFlags} {σ : Type}

theorem threefold_short {w : Bytes} (h : w.length ≤ 3) (n : ℕ) (b : Bytes) :
    w.length ≤ 3 * (min (n - 1) b.length + 1) :=
  h.trans (Nat.le_mul_of_pos_right 3 (Nat.succ_pos _))

theorem threefold_one (c : Byte) (n : ℕ) (b : Bytes) :
    [c].length ≤ 3 * (min (n - 1) b.length + 1) :=
  threefold_short (w := [c]) (Nat.le_add_left 1 2) n b

theorem orElse_written {o : Bytes × ℕ × σ} {w : Bytes} {n : ℕ} {s : σ}
    (h : ExtHttp.orElse flags o = .ok (w, n, s)) :
    w = o.1 := by
  unfold ExtHttp.orElse at h
  split_ifs at h
  cases h
  rfl

theorem mbWord_threefold {what : UrlPart} {s s' : σ} {c : Byte} {b after w : Bytes} {n : ℕ}
    (h : mbWord S flags what s (.on (c :: b) after) = .ok (w, n, s')) :
    w.length ≤ 3 * (min (n - 1) b.length + 1) := by
  have hother : ExtHttp.orElse flags ([c], 1, s) = .ok (w, n, s') →
      w.length ≤ 3 * (min (n - 1) b.length + 1) := by
    intro h
    rw [orElse_written h]
    exact threefold_one _ _ _
  rw [mbWord_eq (c := c) rfl, mbAt_on] at h
  cases hmb : mbFound S flags (c :: b) with
  | invalid =>
    rw [hmb] at h
    exact hother h
  | incomplete wc =>
    rw [hmb] at h
    dsimp only [bind, Except.bind] at h
    split_ifs at h
    exact hother h
  | char wc tail =>
    have hle := mbFound_le hmb
    have hchars := List.length_take_le (tail + 1) (UrlCursor.on (c :: b) after).text
    rw [hmb] at h
    dsimp only [bind, Except.bind] at h
    split_ifs at h
    · exact hother h
    · cases h
      omega
    · cases h
      rw [length_pctEncode]
      omega

/-- At a `%` three bytes are written at most. -/
theorem Looks.threefold {word : UrlWord σ} {ignored : σ → Bytes × ℕ × σ}
    (h : Looks flags word ignored) (hshort : ∀ s, (ignored s).1.length ≤ 3)
    (hword : ∀ s c b after w n s', c ≠ percent →
      word s (.on (c :: b) after) = .ok (w, n, s') → w.length ≤ 3 * (min (n - 1) b.length + 1)) :
      Threefold word := by
  intro s c b after w n s' hok
  by_cases hc : c = percent
  · subst hc
    rw [h.atPercent] at hok
    obtain ⟨o, ho, hok⟩ := ok_eq_bind hok
    apply threefold_short
    cases o with
    | none =>
      rw [orElse_written hok]
      exact hshort s
    | some v =>
      obtain ⟨x, y, -, hv, -⟩ := triple_some ho
      cases hok
      rw [hv]
      exact Nat.le_refl 3
  · exact hword s c b after w n s' hc hok

namespace UrlScanner

theorem schemeWord_threefold : Threefold (schemeWord S flags) := by
  intro first c b after w n first' h
  obtain ⟨_, ⟨⟩, h⟩ := ok_eq_bind h
  split_ifs at h
  · cases h
    exact threefold_one _ _ _
  · exact mbWord_threefold h

theorem userinfoWord_threefold : Threefold (userinfoWord S flags) := by
  apply userinfoWord_looks.threefold
  · exact fun _ => Nat.le_add_left 1 2
  · intro s c b after w n s' hc h
    obtain ⟨_, ⟨⟩, h⟩ := ok_eq_bind h
    simp only [if_neg hc] at h
    split_ifs at h
    · rw [orElse_written h]
      exact threefold_one _ _ _
    · cases h
      exact threefold_one _ _ _
    · exact mbWord_threefold h

theorem hostWord_threefold : Threefold (hostWord S flags) := by
  apply hostWord_looks.threefold
  · exact fun _ => Nat.le_add_left 1 2
  · intro label c b after w n label' hc h
    obtain ⟨_, ⟨⟩, h⟩ := ok_eq_bind h
    simp only [if_neg hc] at h
    split_ifs at h
    · cases h
      exact threefold_one _ _ _
    · rw [orElse_written h]
      exact Nat.zero_le _
    · cases h
      exact threefold_one _ _ _
    · rw [orElse_written h]
      exact Nat.zero_le _
    · cases h
      exact threefold_one _ _ _
    · exact mbWord_threefold h

theorem portWord_threefold : Threefold (portWord flags) := by
  apply portWord_looks.threefold
  · exact fun _ => Nat.le_add_left 1 2
  · intro port c b after w n port' hc h
    obtain ⟨_, ⟨⟩, h⟩ := ok_eq_bind h
    simp only [if_neg hc] at h
    split_ifs at h
    · cases h
      exact Nat.zero_le _
    · rw [orElse_written h]
      exact Nat.zero_le _

theorem pathWord_threefold : Threefold (pathWord S flags) := by
  apply pathWord_looks.threefold
  · exact fun _ => Nat.le_add_left 1 2
  · intro s c b after w n s' hc h
    obtain ⟨_, ⟨⟩, h⟩ := ok_eq_bind h
    simp only [if_neg hc] at h
    split_ifs at h
    · cases h
      exact threefold_one _ _ _
    · exact mbWord_threefold h

theorem length_unsafeChar (c : Byte) : (unsafeChar flags c).length ≤ 3 := by
  unfold unsafeChar
  split_ifs
  · exact (length_pctEncode [c]).le
  · exact Nat.le_add_left 1 2

theorem textWord_threefold (what : UrlPart) : Threefold (textWord S flags what) := by
  apply (textWord_looks what).threefold
  · exact fun _ => length_unsafeChar percent
  · intro s c b after w n s' hc h
    obtain ⟨_, ⟨⟩, h⟩ := ok_eq_bind h
    simp only [if_neg hc] at h
    split_ifs at h
    · cases h
      exact threefold_short (length_unsafeChar c) _ _
    · cases h
      exact threefold_one _ _ _
    · exact mbWord_threefold h

theorem fragmentWord_threefold : Threefold (fragmentWord S flags) := by
  intro s c b after w n s' h
  obtain ⟨_, ⟨⟩, h⟩ := ok_eq_bind h
  split_ifs at h
  · rw [orElse_written h]
    exact threefold_one _ _ _
  · exact textWord_threefold .fragment s c b after w n s' h

end UrlScanner

end Words

/-! ### Loops with room -/

section Room
open UrlScanner
variable {σ : Type} {maxlen : ℕ} {stop : Byte → Bool} {word : UrlWord σ} {s : σ} {st : UrlState}

theorem beforeRead_length (cur : UrlCursor) : (beforeRead cur).length ≤ 2 := by
  unfold beforeRead
  split_ifs
  · exact Nat.le_refl 2
  · exact Nat.zero_le 2

/-- With room for what it writes, a turn is the turn of the loop that does not check. -/
theorem turnIn_eq {cur : UrlCursor}
    (hroom : ∀ w n s', word s cur = .ok (w, n, s') → Fits maxlen st.offset w.length)
    (hbefore : Fits maxlen st.offset (beforeRead cur).length) : turnIn maxlen word (s, st) cur =
      (checked (word s cur)).map fun o => (o.2.1, o.2.2, stored st o.1) := by
  unfold turnIn
  dsimp only
  cases hword : word s cur with
  | ok o =>
    obtain ⟨w, n, s'⟩ := o
    dsimp only
    rw [store_ok (hroom w n s' hword)]
    rfl
  | error e =>
    cases e with
    | overread =>
      dsimp only
      rw [store_ok hbefore]
      rfl
    | refused => rfl
    | runaway => rfl

/-- Three bytes of room for each byte of the text, and the loop writes as the one that does not
check. -/
theorem scanIn_eq (hword : Threefold word) {k : ℕ} {b after : Bytes}
    (hroom : st.offset + 3 * (b.length - k) ≤ maxlen + 1) :
    scanE stop (onTextIn maxlen word) after (s, st) k b =
      (checked (scanE stop (onText word) after s k b)).map fun o =>
      ⟨[], (o.state, stored st o.written), o.rest, o.excess⟩ := by
  induction b generalizing s st k with
  | nil => cases k <;> rfl
  | cons c b ih =>
    cases k with
    | succ k =>
      rw [List.length_cons, Nat.succ_sub_succ] at hroom
      exact ih hroom
    | zero =>
      rw [List.length_cons, Nat.sub_zero] at hroom
      by_cases hc : stop c = true
      · rw [scanE_stop hc, scanE_stop hc]
        rfl
      rw [Bool.not_eq_true] at hc
      have hturn : onTextIn maxlen word (s, st) (c :: b) after =
          (checked (word s (.on (c :: b) after))).map fun o =>
            ([], o.2.1, o.2.2, stored st o.1) := by
        rw [onTextIn, turnIn_eq]
        · cases word s (.on (c :: b) after) <;> rfl
        · intro w n s' hok
          have hlen := hword s c b after w n s' hok
          right
          omega
        · have hlen := beforeRead_length (.on (c :: b) after)
          right
          omega
      cases hok : word s (.on (c :: b) after) with
      | error e =>
        rw [hok] at hturn
        rw [scanE_error hc hturn, scanE_error hc
          (show onText word s (c :: b) after = .error e from hok)]
        rfl
      | ok o =>
        obtain ⟨w, n, s'⟩ := o
        have hlen := hword s c b after w n s' hok
        rw [hok] at hturn
        rw [scanE_word hc hturn, scanE_word hc
          (show onText word s (c :: b) after = .ok (w, n, s') from hok)]
        dsimp only
        rw [ih (by rw [stored_offset]; omega)]
        cases scanE stop (onText word) after s' (n - 1) b with
        | error e => rfl
        | ok o =>
          change Except.ok (⟨[], (o.state, stored (stored st w) o.written), o.rest,
            o.excess⟩ : Outcome Byte Byte _) =
            .ok ⟨[], (o.state, stored st (w ++ o.written)), o.rest, o.excess⟩
          rw [stored_append]

/-- A loop that has not gone behind the end of its text. -/
theorem scan_threefold (hword : Threefold word) {k : ℕ} {b after : Bytes} {o : Outcome Byte Byte σ}
    (h : scanE stop (onText word) after s k b = .ok o) :
    o.written.length + 3 * o.rest.length ≤ 3 * (b.length - k) := by
  induction b generalizing s k o with
  | nil =>
    cases k <;> cases h <;> exact Nat.zero_le _
  | cons c b ih =>
    cases k with
    | succ k =>
      rw [List.length_cons, Nat.succ_sub_succ]
      exact ih h
    | zero =>
      by_cases hc : stop c = true
      · rw [scanE_stop hc] at h
        cases h
        exact (Nat.zero_add _).le
      rw [Bool.not_eq_true] at hc
      cases hok : word s (.on (c :: b) after) with
      | error e =>
        rw [scanE_error hc (show onText word s (c :: b) after = .error e from hok)] at h
        cases h
      | ok o =>
        obtain ⟨w, n, s'⟩ := o
        have hlen := hword s c b after w n s' hok
        rw [scanE_word hc (show onText word s (c :: b) after = .ok (w, n, s') from hok)] at h
        obtain ⟨o', ho, rfl⟩ := ok_eq_map h
        have hrest := ih ho
        rw [Outcome.behind, List.length_append, List.length_cons]
        dsimp only
        omega

theorem advance_next {cur : UrlCursor} {n : ℕ} {c : Byte} {p after : Bytes}
    (h : cur.advance n = .on (c :: p) after) :
    cur.advance (n + 1) = .on p after := by
  rw [← UrlCursor.advance_advance, h]
  exact UrlCursor.advance_on _ _ (Nat.le_add_left 1 p.length)

/-- What a loop leaves of the room in front of its text: what it has written is no more than three
bytes for each that it has taken, and if there is text left, it is behind a character at which the
loop has stopped. -/
theorem whileLoop_threefold (hword : Threefold word) {b after : Bytes} {o : LoopEnd σ}
    (h : whileLoop stop word s (.on b after) = .ok o) : o.written.length ≤ 3 * b.length ∧
      (o.stopped = false → ((UrlCursor.on b after).advance o.taken).left ≤ 0) ∧
      (o.stopped = true → ∃ c p, (UrlCursor.on b after).advance o.taken = .on (c :: p) after ∧
        stop c = true ∧
        o.written.length + 3 * (p.length + 1) ≤ 3 * b.length) := by
  rw [whileLoop_eq] at h
  obtain ⟨r, hr, rfl⟩ := ok_eq_map h
  have hlen := scan_threefold hword hr
  rw [Nat.sub_zero] at hlen
  refine ⟨by dsimp only; omega, ?_, ?_⟩
  · intro hstop
    have hrest : r.rest = [] := by simpa using hstop
    rw [hrest]
    change (b.length : ℤ) - (b.length - 0 + r.excess : ℕ) ≤ 0
    omega
  · intro hstop
    have hrest : r.rest ≠ [] := by simpa using hstop
    obtain ⟨c, p, hcp⟩ := List.exists_cons_of_ne_nil hrest
    have hexcess : r.excess = 0 := by
      by_contra hne
      exact hrest (rest_nil (scanE_ok hr) (Nat.pos_of_ne_zero hne))
    refine ⟨c, p, ?_, rest_head (scanE_ok hr) c (by rw [hcp]; rfl), ?_⟩
    · rw [← hcp]
      exact advance_rest hr hexcess after
    · rw [hcp, List.length_cons] at hlen
      exact hlen

theorem whileIn_eq (hword : Threefold word) {b after : Bytes}
    (hroom : st.offset + 3 * b.length ≤ maxlen + 1) :
    whileIn maxlen stop word s st (.on b after) =
      (checked (whileLoop stop word s (.on b after))).map fun o =>
      ⟨o.state, stored st o.written, o.taken, o.stopped⟩ := by
  unfold whileIn whileLoop
  rw [UrlCursor.on_rest, UrlCursor.on_after]
  split_ifs
  · rw [scanIn_eq hword (by omega)]
    cases scanE stop (onText word) after s 0 b <;> rfl
  · rfl

theorem doIn_eq (hword : Threefold word) {b after : Bytes} (hb : b ≠ [])
    (hroom : st.offset + 3 * b.length ≤ maxlen + 1) :
    doIn maxlen stop word s st (.on b after) =
      (checked (whileLoop stop word s (.on b after))).map fun o =>
      ⟨o.state, stored st o.written, o.taken, o.stopped⟩ := by
  have hpos : 0 < (UrlCursor.on b after).left := by
    have hlen := List.length_pos_iff.mpr hb
    rw [UrlCursor.on_left]
    omega
  rw [doIn, if_pos hpos, whileIn_eq hword hroom]

/-- A loop with nothing in front of it. -/
theorem whileIn_end {cur : UrlCursor} (h : ¬ 0 < cur.left) :
    whileIn maxlen stop word s st cur = .ok ⟨s, st, 0, false⟩ :=
  if_neg h

theorem whileLoop_end {cur : UrlCursor} (h : ¬ 0 < cur.left) :
    whileLoop stop word s cur = .ok ⟨[], s, 0, false⟩ :=
  if_neg h

end Room

end ExtHttp
