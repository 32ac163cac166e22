import ExtHttp.ParamsSeparators

/-!
# The cursor of the parser of parameters

The loop of `php_http_params_parse` with the pointers and lengths of `php_http_params_state_t`. A
pointer is its distance from the beginning of the input; a separator that is not given is an empty
list.
-/
namespace ExtHttp

inductive CursorFault
  /-- a byte is read that does not belong to the input -/
  | outside
  /-- `input.len` wraps around -/
  | wraps
  /-- a turn of the loop takes nothing -/
  | stuck
  deriving DecidableEq, Repr

/-- What `php_http_params_state_t` has of the input. -/
structure ParamsCursor where
  str : ℕ
  len : ℕ
  param : Option ℕ
  arg : Option ℕ
  val : Option ℕ
  quotes : Bool
  escape : Bool
  deriving DecidableEq, Repr

def ParamsCursor.init (input : Bytes) : ParamsCursor :=
  ⟨0, input.length, none, none, none, false, false⟩

/-- The pointers of which `push_param` takes the first that is set. -/
def ParamsCursor.phase (x : ParamsCursor) : ParamsPhase :=
  if x.val.isSome then .val x.arg.isSome
  else if x.arg.isSome then .arg
  else if x.param.isSome then .param
  else .start

def ParamsCursor.start (x : ParamsCursor) : ℕ := ((x.val.or x.arg).or x.param).getD x.str

/-- The slice that `push_param` gets, from its first byte to the byte behind it. -/
structure ParamsSlice where
  phase : ParamsPhase
  start : ℕ
  stop : ℕ
  deriving DecidableEq, Repr

def ParamsCursor.slice (x : ParamsCursor) : ParamsSlice := ⟨x.phase, x.start, x.str⟩

def ParamsSlice.Inside (input : Bytes) (s : ParamsSlice) : Prop :=
  s.start ≤ s.stop ∧ s.stop ≤ input.length

def ParamsSlice.text (input : Bytes) (s : ParamsSlice) : ParamsPhase × Bytes :=
  (s.phase, (input.take s.stop).drop s.start)

section Machine
variable (opts : ParamsOpts) (input : Bytes)

def readByte (i : ℕ) : Except CursorFault Byte := input[i]?.elim (.error .outside) .ok

def readBytes (i n : ℕ) : Except CursorFault Bytes :=
  if i + n ≤ input.length then .ok ((input.drop i).take n) else .error .outside

/-- `check_str` -/
def checkStr (str len : ℕ) : Bytes → Except CursorFault Bool
  | [] => .ok false
  | d :: more =>
      if len < more.length + 1 then .ok false
      else do
        let c ← readByte input str
        if c = d then do
          let s ← readBytes input (str + 1) more.length
          .ok (s = more)
        else .ok false

/-- The loop of `check_sep` -/
def findSep (str len : ℕ) : List Bytes → Except CursorFault ℕ
  | [] => .ok 0
  | sep :: seps => do
      let found ← checkStr input str len sep
      if found then .ok sep.length else findSep str len seps

/-- `check_sep` -/
def checkSepAt (x : ParamsCursor) (seps : List Bytes) : Except CursorFault ℕ :=
  if x.quotes || x.escape then .ok 0 else findSep input x.str x.len seps

/-- The condition of the loop of `skip_sep` -/
def anySepAt (x : ParamsCursor) (param arg val : List Bytes) : Except CursorFault ℕ := do
  let n ← checkSepAt input x param
  if 0 < n then .ok n
  else do
    let n ← checkSepAt input x arg
    if 0 < n then .ok n else checkSepAt input x val

def ParamsCursor.move (x : ParamsCursor) (n : ℕ) : ParamsCursor :=
  { x with str := x.str + n, len := x.len - n }

/-- New pointers to what is being read -/
def ParamsCursor.begin (x : ParamsCursor) (param arg val : Option ℕ) : ParamsCursor :=
  { x with param := param, arg := arg, val := val }

/-- The loop of `skip_sep` -/
def skipSeps (param arg val : List Bytes) (x : ParamsCursor) : Except CursorFault ParamsCursor :=
  match anySepAt input x param arg val with
  | .error e => .error e
  | .ok 0 => .ok x
  | .ok (n + 1) => if x.len < n + 1 then .error .wraps else skipSeps param arg val (x.move (n + 1))
termination_by x.len
decreasing_by
  simp only [ParamsCursor.move]
  omega

/-- `skip_sep` -/
def skipSepAt (param arg val : List Bytes) (skip : ℕ) (x : ParamsCursor) :
    Except CursorFault ParamsCursor :=
  if x.len < skip then .error .wraps else skipSeps input param arg val (x.move skip)

/-- The top of the loop -/
def ParamsCursor.track (flags : ParamsFlags) (x : ParamsCursor) (c : Byte) : ParamsCursor :=
  if flags.rfc5988 = true ∧ x.arg = none then
    { x with quotes := if c = 60 then true else if c = 62 then false else x.quotes }
  else if c = quote ∧ x.escape = false then { x with quotes := !x.quotes }
  else { x with escape := c = backslash }

/-- A turn of the loop of `php_http_params_parse` behind its top -/
def cursorStep (x : ParamsCursor) : Except CursorFault (Option ParamsSlice × ParamsCursor) :=
  if x.param = none then do
    -- initialize
    let y ← skipSepAt input opts.param opts.arg opts.val 0 x
    let y := y.begin (some y.str) y.arg y.val
    .ok (none, if y.len = 0 then y else y.move 1)
  else do
    let paramSep ← checkSepAt input x opts.param
    if 0 < paramSep then do
      let y ← skipSepAt input opts.param opts.arg opts.val paramSep x
      .ok (some x.slice, y.begin (some y.str) none none)
    else do
      let argSep ← checkSepAt input x opts.arg
      if 0 < argSep then do
        let y ← skipSepAt input [] opts.arg opts.val argSep x
        .ok (some x.slice, y.begin y.param (some y.str) none)
      else do
        let valSep ← checkSepAt input x opts.val
        -- only handle separator if we're not already reading in a val
        if 0 < valSep ∧ x.val = none then do
          let y ← skipSepAt input [] [] opts.val valSep x
          .ok (some x.slice, y.begin y.param y.arg (some y.str))
        else .ok (none, x.move 1)

/-- A turn of the loop of `php_http_params_parse` -/
def cursorTurn (x : ParamsCursor) : Except CursorFault (Option ParamsSlice × ParamsCursor) := do
  let c ← readByte input x.str
  cursorStep opts input (x.track opts.flags c)

/-- The loop of `php_http_params_parse`, with the slices for `push_param` -/
def cursorLoop (x : ParamsCursor) : Except CursorFault (List ParamsSlice) :=
  if x.len = 0 then .ok [x.slice]
  else match cursorTurn opts input x with
    | .error e => .error e
    | .ok (pushed, y) =>
        if y.len < x.len then (cursorLoop y).map (pushed.toList ++ ·) else .error .stuck
termination_by x.len

end Machine

/-- A state the loop comes to. -/
def CursorReaches (opts : ParamsOpts) (input : Bytes) : ParamsCursor → Prop :=
  Relation.ReflTransGen (fun x y => x.len ≠ 0 ∧ ∃ pushed, cursorTurn opts input x = .ok (pushed, y))
    (.init input)

/-! ### What is compared belongs to the input -/

section
variable {opts : ParamsOpts} {input : Bytes}

theorem readByte_eq {i : ℕ} {c : Byte} {rest : Bytes} (h : input.drop i = c :: rest) :
    readByte input i = .ok c := by
  have hget : input[i]? = some c := by
    rw [← List.head?_drop, h]
    rfl
  rw [readByte, hget]
  rfl

theorem checkStr_eq {str len : ℕ} (h : str + len = input.length) (sep : Bytes) :
    checkStr input str len sep = .ok (sep ≠ [] ∧ sep <+: input.drop str) := by
  cases sep with
  | nil => simp [checkStr]
  | cons d more =>
    rw [checkStr]
    by_cases hlen : len < more.length + 1
    · have hno : ¬ d :: more <+: input.drop str := by
        intro hpre
        have := hpre.length_le
        rw [List.length_drop, List.length_cons] at this
        omega
      simp [hlen, hno]
    · have hread : readBytes input (str + 1) more.length =
          .ok ((input.drop (str + 1)).take more.length) :=
        if_pos (by omega)
      obtain ⟨c, rest, hrest⟩ : ∃ c rest, input.drop str = c :: rest := by
        refine List.exists_cons_of_ne_nil fun hnil => ?_
        rw [List.drop_eq_nil_iff] at hnil
        omega
      have htail : input.drop (str + 1) = rest := by rw [← List.tail_drop, hrest, List.tail_cons]
      rw [if_neg hlen, readByte_eq hrest, hread, htail, hrest]
      by_cases hc : c = d
      · simp [hc, List.prefix_iff_eq_take, eq_comm, bind, Except.bind]
      · simp [hc, List.cons_prefix_cons, Ne.symm hc, bind, Except.bind]

theorem findSep_eq {str len : ℕ} (h : str + len = input.length) (seps : List Bytes) :
    findSep input str len seps =
      .ok (((seps.find? fun sep => sep ≠ [] ∧ sep <+: input.drop str).map List.length).getD 0) := by
  induction seps with
  | nil => rfl
  | cons sep seps ih =>
    rw [findSep, checkStr_eq h, List.find?_cons]
    by_cases hsep : sep ≠ [] ∧ sep <+: input.drop str
    · simp [hsep, bind, Except.bind]
    · simp only [hsep, decide_false, bind, Except.bind]
      exact ih

theorem checkSepAt_eq {x : ParamsCursor} (h : x.str + x.len = input.length) (seps : List Bytes) :
    checkSepAt input x seps = .ok (checkSep x.quotes x.escape seps (input.drop x.str)) := by
  rw [checkSepAt, checkSep]
  split_ifs
  · rfl
  · exact findSep_eq h seps

theorem checkSep_append (quotes escape : Bool) (seps more : List Bytes) (s : Bytes) :
    checkSep quotes escape (seps ++ more) s = if 0 < checkSep quotes escape seps s then
      checkSep quotes escape seps s else checkSep quotes escape more s := by
  unfold checkSep
  split_ifs with hq hpos hpos
  · rfl
  · rfl
  · rw [List.find?_append]
    cases hfind : seps.find? fun sep => sep ≠ [] ∧ sep <+: s with
    | none =>
      rw [hfind] at hpos
      exact absurd hpos (Nat.lt_irrefl 0)
    | some sep => rfl
  · rw [List.find?_append]
    cases hfind : seps.find? fun sep => sep ≠ [] ∧ sep <+: s with
    | none => rfl
    | some sep =>
      have hsep := List.find?_some hfind
      simp only [ne_eq, decide_eq_true_eq] at hsep
      rw [hfind] at hpos
      exact absurd (List.length_pos_of_ne_nil hsep.1) hpos

theorem anySepAt_eq {x : ParamsCursor} (h : x.str + x.len = input.length)
    (param arg val : List Bytes) :
    anySepAt input x param arg val =
      .ok (checkSep x.quotes x.escape (param ++ arg ++ val) (input.drop x.str)) := by
  rw [anySepAt, checkSepAt_eq h, checkSepAt_eq h, checkSepAt_eq h, checkSep_append, checkSep_append]
  simp only [bind, Except.bind]
  split_ifs <;> simp_all

theorem ParamsCursor.move_total {x : ParamsCursor} (h : x.str + x.len = input.length) {n : ℕ}
    (hn : n ≤ x.len) : (x.move n).str + (x.move n).len = input.length := by
  simp only [ParamsCursor.move]
  omega

/-- Skipping stays in the input, and comes to where `skipSep` comes to. -/
theorem skipSeps_eq {x : ParamsCursor} (h : x.str + x.len = input.length)
    (param arg val : List Bytes) :
    ∃ n ≤ x.len, skipSeps input param arg val x = .ok (x.move n) ∧
      input.drop (x.move n).str = skipSep x.quotes x.escape (param ++ arg ++ val)
        (input.drop x.str) := by
  induction hlen : x.len using Nat.strong_induction_on generalizing x with
  | _ k ih =>
    subst hlen
    rw [skipSeps, anySepAt_eq h, skipSep]
    cases hsep : checkSep x.quotes x.escape (param ++ arg ++ val) (input.drop x.str) with
    | zero => exact ⟨0, Nat.zero_le _, rfl, rfl⟩
    | succ m =>
      have hle := checkSep_le x.quotes x.escape (param ++ arg ++ val) (input.drop x.str)
      rw [hsep, List.length_drop] at hle
      have hm : m + 1 ≤ x.len := by omega
      have htotal := ParamsCursor.move_total h hm
      have hlt : (x.move (m + 1)).len < x.len := by
        simp only [ParamsCursor.move]
        omega
      obtain ⟨n, hn, hskip, hdrop⟩ := ih _ hlt htotal rfl
      refine ⟨m + 1 + n, ?_, ?_, ?_⟩
      · simp only [ParamsCursor.move] at hn
        omega
      · simp only [if_neg (Nat.not_lt.mpr hm), hskip]
        simp [ParamsCursor.move, Nat.add_assoc, Nat.sub_sub]
      · rw [if_neg (Nat.succ_ne_zero m), List.drop_drop]
        simpa [ParamsCursor.move, Nat.add_assoc] using hdrop

theorem skipSepAt_eq {x : ParamsCursor} (h : x.str + x.len = input.length)
    (param arg val : List Bytes) {skip : ℕ} (hskip : skip ≤ x.len) :
    ∃ n ≤ x.len, skipSepAt input param arg val skip x = .ok (x.move n) ∧ input.drop (x.str + n) =
      skipSep x.quotes x.escape (param ++ arg ++ val) ((input.drop x.str).drop skip) := by
  obtain ⟨n, hn, heq, hdrop⟩ := skipSeps_eq (ParamsCursor.move_total h hskip) param arg val
  simp only [ParamsCursor.move] at hn heq hdrop
  refine ⟨skip + n, by omega, ?_, ?_⟩
  · rw [skipSepAt, if_neg (Nat.not_lt.mpr hskip), ParamsCursor.move, heq]
    simp [ParamsCursor.move, Nat.add_assoc, Nat.sub_sub]
  · rw [← Nat.add_assoc, hdrop, List.drop_drop]

/-! ### Turns -/

/-- The invariant of the loop: the end of the input stays where it is, and what is being read began
before the cursor. -/
structure ParamsCursor.Sound (input : Bytes) (x : ParamsCursor) : Prop where
  total : x.str + x.len = input.length
  param : x.param = none → x.arg = none ∧ x.val = none
  started : ∀ i, x.param = some i ∨ x.arg = some i ∨ x.val = some i → i ≤ x.str

/-- The scan that is at the cursor. -/
def ParamsCursor.scan (input : Bytes) (x : ParamsCursor) : ParamsScan :=
  ⟨x.phase, x.quotes, x.escape, (x.slice.text input).2, input.drop x.str⟩

theorem ParamsCursor.Sound.init (input : Bytes) : (ParamsCursor.init input).Sound input :=
  ⟨Nat.zero_add _, fun _ => ⟨rfl, rfl⟩, by simp [ParamsCursor.init]⟩

theorem ParamsCursor.scan_init (input : Bytes) : (ParamsCursor.init input).scan input =
    .init input := by
  simp [ParamsCursor.scan, ParamsCursor.init, ParamsScan.init, ParamsCursor.phase, ParamsSlice.text,
    ParamsCursor.slice]

theorem ParamsCursor.Sound.slice {x : ParamsCursor} (h : x.Sound input) : x.slice.Inside input := by
  have htotal := h.total
  refine ⟨?_, by simp only [ParamsCursor.slice]; omega⟩
  simp only [ParamsCursor.slice, ParamsCursor.start]
  cases hstart : (x.val.or x.arg).or x.param with
  | none => exact le_rfl
  | some i =>
    refine h.started i ?_
    simp only [Option.or_eq_some_iff] at hstart
    tauto

theorem ParamsCursor.phase_start {x : ParamsCursor} (h : x.Sound input) :
    x.phase = .start ↔ x.param = none := by
  constructor
  · intro hphase
    unfold ParamsCursor.phase at hphase
    split_ifs at hphase with hval harg hparam
    simpa using hparam
  · intro hparam
    obtain ⟨harg, hval⟩ := h.param hparam
    simp [ParamsCursor.phase, hparam, harg, hval]

theorem ParamsCursor.track_eq (flags : ParamsFlags) {x : ParamsCursor} (c : Byte) :
    x.track flags c = { x with
      quotes := (trackQuotes flags x.phase x.quotes x.escape c).1
      escape := (trackQuotes flags x.phase x.quotes x.escape c).2 } := by
  have harg : x.arg = none ↔ x.phase ≠ .arg ∧ x.phase ≠ .val true := by
    rcases x with ⟨_, _, param, arg, val, _, _⟩
    cases val <;> cases arg <;> cases param <;> simp [ParamsCursor.phase]
  unfold ParamsCursor.track trackQuotes
  simp only [harg]
  split_ifs <;> rfl

theorem drop_take_self (s : Bytes) (n : ℕ) : (s.take n).drop n = [] :=
  List.drop_eq_nil_of_le (List.length_take_le n s)

theorem readByte_ok {x : ParamsCursor} (h : x.Sound input) (hlen : x.len ≠ 0) :
    ∃ c rest, input.drop x.str = c :: rest ∧ readByte input x.str = .ok c := by
  have htotal := h.total
  obtain ⟨c, rest, hrest⟩ : ∃ c rest, input.drop x.str = c :: rest := by
    refine List.exists_cons_of_ne_nil fun hnil => ?_
    rw [List.drop_eq_nil_iff] at hnil
    omega
  exact ⟨c, rest, hrest, readByte_eq hrest⟩

/-- Another character of what is being read. -/
theorem ParamsCursor.Sound.next {x : ParamsCursor} (h : x.Sound input) (hparam : x.param ≠ none)
    {c : Byte} {rest : Bytes} (hrest : input.drop x.str = c :: rest) :
    (x.move 1).Sound input ∧
      (x.move 1).scan input = ⟨x.phase, x.quotes, x.escape, (x.slice.text input).2 ++ [c],
        rest⟩ := by
  have htotal := h.total
  have hstart := h.slice.1
  have hlen : x.len ≠ 0 := by
    intro hzero
    rw [List.drop_eq_nil_of_le (by omega)] at hrest
    cases hrest
  have hget : input[x.str]? = some c := by
    rw [← List.head?_drop, hrest]
    rfl
  have hmove : (x.move 1).start = x.start := by
    obtain ⟨i, hi⟩ := Option.ne_none_iff_exists'.mp hparam
    cases hva : x.val.or x.arg <;> simp [ParamsCursor.start, ParamsCursor.move, hva, hi]
  refine ⟨⟨ParamsCursor.move_total h.total (by omega), h.param, fun i hi => ?_⟩, ?_⟩
  · exact (h.started i hi).trans (Nat.le_succ _)
  · have hslice : ((x.move 1).slice.text input).2 = (x.slice.text input).2 ++ [c] := by
      change (input.take (x.str + 1)).drop (x.move 1).start = (input.take x.str).drop x.start ++ [c]
      rw [hmove, List.take_add_one, hget, List.drop_append_of_le_length]
      · rfl
      · rw [List.length_take]
        simp only [ParamsCursor.slice] at hstart
        omega
    have hdrop : input.drop (x.str + 1) = rest := by rw [← List.tail_drop, hrest, List.tail_cons]
    rw [ParamsCursor.scan, hslice]
    exact congrArg _ hdrop

/-- Something new is begun at the cursor. -/
theorem ParamsCursor.Sound.fresh {x : ParamsCursor} (h : x.Sound input) {n : ℕ} (hn : n ≤ x.len)
    (param arg val : Option ℕ) (hparam : param ≠ none)
    (hnew : (val.or arg).or param = some (x.str + n))
    (hold : ∀ i, param = some i ∨ arg = some i ∨ val = some i →
      i = x.str + n ∨ x.param = some i ∨ x.arg = some i ∨ x.val = some i) :
    ((x.move n).begin param arg val).Sound input ∧ ((x.move n).begin param arg val).scan input =
      ⟨(x.begin param arg val).phase, x.quotes, x.escape, [], input.drop (x.str + n)⟩ := by
  refine ⟨⟨ParamsCursor.move_total h.total hn, fun hnone => absurd hnone hparam, fun i hi => ?_⟩,
    ?_⟩
  · rcases hold i hi with rfl | hi
    · exact le_rfl
    · exact (h.started i hi).trans (Nat.le_add_right _ _)
  · have hslice : (input.take (x.str + n)).drop (((val.or arg).or param).getD
        (x.str + n)) = [] := by
      rw [hnew, Option.getD_some, drop_take_self]
    simp only [ParamsCursor.scan, ParamsSlice.text, ParamsCursor.slice, ParamsCursor.start,
      ParamsCursor.move, ParamsCursor.begin, hslice]
    rfl

theorem checkSep_le_len {x : ParamsCursor} (h : x.str + x.len = input.length) (quotes escape : Bool)
    (seps : List Bytes) : checkSep quotes escape seps (input.drop x.str) ≤ x.len := by
  have hle := checkSep_le quotes escape seps (input.drop x.str)
  rw [List.length_drop] at hle
  omega

/-- `paramsTurn` at the top of a loop that has come to `x`. -/
def TurnAt (opts : ParamsOpts) (input : Bytes) (x : ParamsCursor)
    (turn : Bool × ParamsScan) : Prop :=
  ∀ scan c rest, scan.phase = x.phase → scan.slice = (x.slice.text input).2 →
    trackQuotes opts.flags scan.phase scan.quotes scan.escape c = (x.quotes, x.escape) →
    input.drop x.str = c :: rest → paramsTurn opts scan c rest = turn

theorem cursorStep_start (opts : ParamsOpts) {x : ParamsCursor} (h : x.Sound input)
    (hparam : x.param = none) : ∃ y, cursorStep opts input x = .ok (none, y) ∧ y.Sound input ∧
      TurnAt opts input x (false, y.scan input) := by
  obtain ⟨n, hn, heq, hdrop⟩ := skipSepAt_eq h.total opts.param opts.arg opts.val (Nat.zero_le _)
  obtain ⟨harg, hval⟩ := h.param hparam
  obtain ⟨hy, hfresh⟩ := h.fresh hn (some (x.str + n)) x.arg x.val (by simp)
    (by simp [harg, hval]) (by simp [harg, hval])
  have hphase : (x.begin (some (x.str + n)) x.arg x.val).phase = .param := by
    simp [ParamsCursor.phase, ParamsCursor.begin, harg, hval]
  rw [hphase] at hfresh
  have hturn : TurnAt opts input x
      (false, ⟨.param, x.quotes, x.escape, (input.drop (x.str + n)).take 1,
      (input.drop (x.str + n)).drop 1⟩) := by
    intro scan c rest hscan _ htrack hrest
    have hstart : scan.phase = .start := hscan.trans ((ParamsCursor.phase_start h).mpr hparam)
    unfold paramsTurn
    rw [htrack, if_pos hstart, hdrop, hrest, List.drop_zero]
  have hstep : cursorStep opts input x = .ok (none, if x.len - n = 0 then
      (x.move n).begin (some (x.str + n)) x.arg x.val else
        ((x.move n).begin (some (x.str + n)) x.arg x.val).move 1) := by
    rw [cursorStep, if_pos hparam, heq]
    rfl
  have htotal := h.total
  cases hrest : input.drop (x.str + n) with
  | nil =>
    rw [hrest] at hturn hfresh
    rw [List.drop_eq_nil_iff] at hrest
    refine ⟨_, hstep, ?_⟩
    rw [if_pos (by omega), hfresh]
    exact ⟨hy, hturn⟩
  | cons c rest =>
    have hlen : x.len - n ≠ 0 := by
      intro hzero
      rw [List.drop_eq_nil_of_le (by omega)] at hrest
      cases hrest
    obtain ⟨hmove, hnext⟩ := hy.next (by simp [ParamsCursor.begin]) hrest
    have hbegun : ((x.move n).begin (some (x.str + n)) x.arg x.val).phase = .param := hphase
    have hslice := congrArg ParamsScan.slice hfresh
    simp only [ParamsCursor.scan] at hslice
    rw [hrest] at hturn
    rw [hslice, hbegun] at hnext
    refine ⟨_, hstep, ?_⟩
    rw [if_neg hlen, hnext]
    exact ⟨hmove, hturn⟩

/-- Behind a separator something new is begun. -/
theorem cursorStep_go (opts : ParamsOpts) {x : ParamsCursor} (h : x.Sound input)
    (hparam : x.param ≠ none) {c : Byte} {rest : Bytes} (hrest : input.drop x.str = c :: rest) :
    ∃ pushed y, cursorStep opts input x = .ok (pushed, y) ∧ y.Sound input ∧
      (∀ s ∈ pushed, s = x.slice) ∧
      TurnAt opts input x (pushed.isSome, y.scan input) := by
  have hphase : x.phase ≠ .start := fun hp => hparam ((ParamsCursor.phase_start h).mp hp)
  have hsep := checkSepAt_eq h.total
  have hle := checkSep_le_len h.total x.quotes x.escape
  unfold cursorStep
  simp only [if_neg hparam, hsep, bind, Except.bind]
  by_cases hp : 0 < checkSep x.quotes x.escape opts.param (input.drop x.str)
  · obtain ⟨n, hn, heq, hdrop⟩ := skipSepAt_eq h.total opts.param opts.arg opts.val (hle opts.param)
    obtain ⟨hy, hfresh⟩ := h.fresh hn (some (x.str + n)) none none (by simp)
      (by simp) (by simp)
    refine ⟨some x.slice, _, by rw [if_pos hp, heq]; rfl, hy, by simp, ?_⟩
    intro scan c rest hscan _ htrack hrest
    unfold paramsTurn
    rw [htrack, if_neg (hscan ▸ hphase), ← hrest, if_pos hp, ← hdrop]
    exact congrArg _ hfresh.symm
  by_cases ha : 0 < checkSep x.quotes x.escape opts.arg (input.drop x.str)
  · obtain ⟨n, hn, heq, hdrop⟩ := skipSepAt_eq h.total [] opts.arg opts.val (hle opts.arg)
    obtain ⟨hy, hfresh⟩ := h.fresh hn x.param (some (x.str + n)) none hparam
      (by simp) (by simp; tauto)
    refine ⟨some x.slice, _, by rw [if_neg hp, if_pos ha, heq]; rfl, hy, by simp, ?_⟩
    intro scan c rest hscan _ htrack hrest
    unfold paramsTurn
    rw [htrack, if_neg (hscan ▸ hphase), ← hrest, if_neg hp, if_pos ha]
    rw [List.nil_append] at hdrop
    rw [← hdrop]
    exact congrArg _ hfresh.symm
  have hval : (scan : ParamsScan) → scan.phase = x.phase →
      (scan.phase ≠ .val false ∧ scan.phase ≠ .val true ↔ x.val = none) := by
    intro scan hscan
    rw [hscan]
    rcases x with ⟨_, _, param, arg, val, _, _⟩
    cases val <;> cases arg <;> cases param <;> simp [ParamsCursor.phase]
  by_cases hv : 0 < checkSep x.quotes x.escape opts.val (input.drop x.str) ∧ x.val = none
  · obtain ⟨n, hn, heq, hdrop⟩ := skipSepAt_eq h.total [] [] opts.val (hle opts.val)
    obtain ⟨hy, hfresh⟩ := h.fresh hn x.param x.arg (some (x.str + n)) hparam
      (by simp) (by simp; tauto)
    refine ⟨some x.slice, _, by rw [if_neg hp, if_neg ha, if_pos hv, heq]; rfl, hy, by simp, ?_⟩
    intro scan c rest hscan _ htrack hrest
    have hof : (x.begin x.param x.arg (some (x.str + n))).phase = .val (x.phase = .arg) := by
      cases harg : x.arg <;> cases hprm : x.param <;>
        simp [ParamsCursor.phase, ParamsCursor.begin, hv.2, harg, hprm]
    unfold paramsTurn
    rw [htrack, if_neg (hscan ▸ hphase), ← hrest, if_neg hp, if_neg ha]
    rw [if_pos ⟨hv.1, (hval scan hscan).mpr hv.2⟩, hscan]
    rw [List.nil_append, List.nil_append] at hdrop
    rw [← hdrop, ← hof]
    exact congrArg _ hfresh.symm
  · obtain ⟨hy, hnext⟩ := h.next hparam hrest
    refine ⟨none, _, by rw [if_neg hp, if_neg ha, if_neg hv], hy, by simp, ?_⟩
    intro scan d more hscan hslice htrack hmore
    obtain ⟨rfl, rfl⟩ := List.cons.inj (hrest.symm.trans hmore)
    unfold paramsTurn
    rw [htrack, if_neg (hscan ▸ hphase), ← hrest, if_neg hp, if_neg ha]
    rw [if_neg (fun hcond => hv ⟨hcond.1, (hval scan hscan).mp hcond.2⟩), hscan, hslice, hnext]
    rfl

theorem cursorStep_eq (opts : ParamsOpts) {x : ParamsCursor} (h : x.Sound input) {c : Byte}
    {rest : Bytes} (hrest : input.drop x.str = c :: rest) :
    ∃ pushed y, cursorStep opts input x = .ok (pushed, y) ∧ y.Sound input ∧
      (∀ s ∈ pushed, s = x.slice) ∧
      TurnAt opts input x (pushed.isSome, y.scan input) := by
  by_cases hparam : x.param = none
  · obtain ⟨y, hstep, hy, hturn⟩ := cursorStep_start opts h hparam
    exact ⟨none, y, hstep, hy, by simp, hturn⟩
  · exact cursorStep_go opts h hparam hrest

/-- A turn of the loop reads only what belongs to the input, and it is one of `paramsTurn`. -/
theorem cursorTurn_eq (opts : ParamsOpts) {x : ParamsCursor} (h : x.Sound input)
    (hlen : x.len ≠ 0) :
    ∃ pushed y c rest, cursorTurn opts input x = .ok (pushed, y) ∧ y.Sound input ∧
      (∀ s ∈ pushed, s = x.slice) ∧ input.drop x.str = c :: rest ∧
      paramsTurn opts (x.scan input) c rest = (pushed.isSome, y.scan input) := by
  obtain ⟨c, rest, hrest, hread⟩ := readByte_ok h hlen
  have htrack := ParamsCursor.track_eq opts.flags (x := x) c
  have hsound : (x.track opts.flags c).Sound input := by
    rw [htrack]
    exact ⟨h.total, h.param, h.started⟩
  obtain ⟨pushed, y, hstep, hy, hslice, hturn⟩ :=
    cursorStep_eq opts hsound
      (by rw [htrack]; exact hrest : input.drop (x.track opts.flags c).str = c :: rest)
  refine ⟨pushed, y, c, rest, ?_, hy, ?_, hrest, ?_⟩
  · rw [cursorTurn, hread]
    exact hstep
  · rw [htrack] at hslice
    exact hslice
  · refine hturn _ c rest ?_ ?_ ?_ ?_ <;> rw [htrack]
    · rfl
    · rfl
    · rfl
    · exact hrest

theorem ParamsCursor.Sound.len {x y : ParamsCursor} (h : x.Sound input) (hy : y.Sound input)
    (hlt : (y.scan input).input.length < (x.scan input).input.length) : y.len < x.len := by
  have hx := h.total
  have hy := hy.total
  simp only [ParamsCursor.scan, List.length_drop] at hlt
  omega

/-- A turn takes something, and what it pushes lies in the input. -/
theorem cursorTurn_lt (opts : ParamsOpts) {x : ParamsCursor} (h : x.Sound input)
    (hlen : x.len ≠ 0) :
    ∃ pushed y, cursorTurn opts input x = .ok (pushed, y) ∧ y.Sound input ∧ y.len < x.len ∧
      ∀ s ∈ pushed, s.Inside input := by
  obtain ⟨pushed, y, c, rest, hstep, hy, hslice, hrest, hturn⟩ := cursorTurn_eq opts h hlen
  refine ⟨pushed, y, hstep, hy, h.len hy ?_, fun s hs => hslice s hs ▸ h.slice⟩
  have hlt := paramsTurn_lt opts (x.scan input) c rest
  rw [hturn] at hlt
  rwa [← hrest] at hlt

theorem CursorReaches.sound {x : ParamsCursor} (h : CursorReaches opts input x) :
    x.Sound input := by
  induction h with
  | refl => exact .init input
  | tail _ hturn ih =>
    obtain ⟨hlen, pushed, hturn⟩ := hturn
    obtain ⟨pushed', y, hstep, hy, -⟩ := cursorTurn_lt opts ih hlen
    obtain ⟨-, rfl⟩ := Prod.mk.inj (Except.ok.inj (hstep.symm.trans hturn))
    exact hy

/-- The loop comes to its end, and the slices are those of the parser. -/
theorem cursorLoop_eq (opts : ParamsOpts) {x : ParamsCursor} (h : x.Sound input) :
    ∃ slices, cursorLoop opts input x = .ok slices ∧ (∀ s ∈ slices, s.Inside input) ∧
      slices.map (ParamsSlice.text input) = paramsSlices opts (x.scan input) := by
  induction hlen : x.len using Nat.strong_induction_on generalizing x with
  | _ k ih =>
    rw [cursorLoop]
    by_cases hzero : x.len = 0
    · have hinput : (x.scan input).input = [] := by
        have htotal := h.total
        exact List.drop_eq_nil_of_le (by omega)
      refine ⟨[x.slice], if_pos hzero, by simpa using h.slice, ?_⟩
      rw [paramsSlices_end hinput]
      rfl
    · obtain ⟨pushed, y, c, rest, hstep, hy, hslice, hrest, hturn⟩ := cursorTurn_eq opts h hzero
      obtain ⟨pushed', y', hstep', -, hlt, hinside⟩ := cursorTurn_lt opts h hzero
      obtain ⟨rfl, rfl⟩ := Prod.mk.inj (Except.ok.inj (hstep.symm.trans hstep'))
      obtain ⟨slices, hloop, hall, htext⟩ := ih y.len (hlen ▸ hlt) hy rfl
      refine ⟨pushed.toList ++ slices, ?_, ?_, ?_⟩
      · rw [if_neg hzero, hstep]
        simp only [if_pos hlt, hloop]
        rfl
      · intro s hs
        rcases List.mem_append.mp hs with hs | hs
        · exact hinside s (Option.mem_toList.mp hs)
        · exact hall s hs
      · rw [paramsSlices_turn (x := x.scan input) hrest, hturn, List.map_append, htext]
        cases pushed with
        | none => rfl
        | some s =>
          rw [hslice s rfl]
          rfl

/-- The parser of parameters stays in its input and comes to an end: every turn of the loop takes
something and reads only bytes of the input, and what it makes is made of slices of the input. -/
theorem paramsParse_bounds (L : ParamsLib) (opts : ParamsOpts) (params : Entries) (input : Bytes) :
    (∀ x, CursorReaches opts input x → x.str + x.len = input.length ∧
      (x.len ≠ 0 → ∃ pushed y, cursorTurn opts input x = .ok (pushed, y) ∧ y.len < x.len ∧
        ∀ s ∈ pushed, s.Inside input)) ∧
    ∃ slices, cursorLoop opts input (.init input) = .ok slices ∧ (∀ s ∈ slices, s.Inside input) ∧
      paramsParse L opts params input = ((slices.map (ParamsSlice.text input)).foldlM
        (fun st slice => pushParam L opts slice.1 slice.2 st) ⟨params, none, none, false⟩).map
          ParamsState.params := by
  refine ⟨fun x hx => ⟨hx.sound.total, fun hlen => ?_⟩, ?_⟩
  · obtain ⟨pushed, y, hstep, -, hlt, hinside⟩ := cursorTurn_lt opts hx.sound hlen
    exact ⟨pushed, y, hstep, hlt, hinside⟩
  · obtain ⟨slices, hloop, hinside, htext⟩ := cursorLoop_eq opts (.init input)
    refine ⟨slices, hloop, hinside, ?_⟩
    rw [htext, ParamsCursor.scan_init, paramsParse, paramsLoop_eq]

end

end ExtHttp
