import ExtHttp.NegotiateQuality
import ExtHttp.ValueLeaves

/-!
# Accepted values of a header

The entries of a header, one behind the other, and the table that the parser of parameters makes of
them, where an entry replaces another one of the same name.
-/
namespace ExtHttp

/-- The options in `php_http_negotiate` -/
def negotiateOpts : ParamsOpts :=
  { paramsOptsDefault with flags := { paramsDefault with rfc5987 := false } }

/-- The next slice of a header: a name begins an entry of its own, and the other slices go to the
entry that is being read. -/
def readSlice (L : ParamsLib) (st : Entries × ParamsState) (slice : ParamsPhase × Bytes) :
    Except ParamsFault (Entries × ParamsState) :=
  if slice.1 = .param then
    (pushParam L negotiateOpts .param slice.2 { st.2 with params := [] }).map fun cur =>
      if cur.params.isEmpty then st else (st.1 ++ st.2.params, cur)
  else (pushParam L negotiateOpts slice.1 slice.2 st.2).map (Prod.mk st.1)

/-- The entries of a header in their order, also those of the same name. -/
def headerEntries (L : ParamsLib) (value : Bytes) : Except ParamsFault Entries :=
  ((paramsSlices negotiateOpts (.init value)).foldlM (readSlice L)
    ([], ⟨[], none, none, false⟩)).map fun st => st.1 ++ st.2.params

/-- The table of entries: the last one of a name, at the place of the first one. -/
def mergedEntries (es : Entries) : Entries := es.foldl (fun ht e => Entries.update ht e.1 e.2) []

/-! ### The table -/

section Merged
variable {es : Entries}

theorem mergedEntries_concat (es : Entries) (e : ArrayKey × Value) :
    mergedEntries (es ++ [e]) = Entries.update (mergedEntries es) e.1 e.2 := by
  rw [mergedEntries, List.foldl_append]
  rfl

theorem mem_keys_mergedEntries {key : ArrayKey} :
    key ∈ (mergedEntries es).map Prod.fst ↔ key ∈ es.map Prod.fst := by
  induction es using List.reverseRecOn with
  | nil => exact Iff.rfl
  | append_singleton es e ih =>
    rw [mergedEntries_concat, Entries.update, Assoc.mem_keys_set, ih, List.map_append,
      List.mem_append, List.map_singleton, List.mem_singleton]

theorem distinct_mergedEntries (es : Entries) : Assoc.Distinct (mergedEntries es) := by
  induction es using List.reverseRecOn with
  | nil => exact List.nodup_nil
  | append_singleton es e ih =>
    rw [mergedEntries_concat]
    exact ih.set e.1 e.2

/-- The first of the greatest keys is the same one in the table. -/
theorem argmax_mergedEntries (f : ArrayKey → ℕ) (es : Entries) :
    ((mergedEntries es).map Prod.fst).argmax f = (es.map Prod.fst).argmax f := by
  induction es using List.reverseRecOn with
  | nil => rfl
  | append_singleton es e ih =>
    have hkeys := Assoc.keys_set (mergedEntries es) e.1 e.2
    rw [mergedEntries_concat, Entries.update, hkeys, List.map_append, List.map_singleton]
    split_ifs with hnone
    · rw [List.argmax_concat, List.argmax_concat, ih]
    · rw [Assoc.find_eq_none, not_not, mem_keys_mergedEntries] at hnone
      rw [ih, List.argmax_concat]
      cases hmax : (es.map Prod.fst).argmax f with
      | none =>
        rw [List.argmax_eq_none] at hmax
        rw [hmax] at hnone
        cases hnone
      | some c => exact (if_neg (not_lt.mpr (List.le_of_mem_argmax hnone hmax))).symm

end Merged

section Best
variable {number : Value → ℚ} {sep s : Bytes} {es : Entries}

theorem negotiateEntries_keys (number : Value → ℚ) (i : ℕ) (es : Entries) :
    (negotiateEntries number i es).map NegotiateEntry.key = es.map Prod.fst := by
  induction es generalizing i with
  | nil => rfl
  | cons e es ih =>
    unfold negotiateEntries
    cases givenQuality number e.2 <;> exact congrArg _ (ih _)

theorem negotiateEntries_concat (number : Value → ℚ) (i : ℕ) (es : Entries) (e : ArrayKey × Value) :
    ∃ x, x.key = e.1 ∧
      negotiateEntries number i (es ++ [e]) = negotiateEntries number i es ++ [x] := by
  induction es generalizing i with
  | nil =>
    rw [List.nil_append]
    unfold negotiateEntries
    cases givenQuality number e.2 <;> exact ⟨_, rfl, rfl⟩
  | cons e' es ih =>
    rw [List.cons_append]
    unfold negotiateEntries
    cases givenQuality number e'.2 with
    | some q =>
      obtain ⟨x, hx, hrest⟩ := ih i
      exact ⟨x, hx, congrArg _ hrest⟩
    | none =>
      obtain ⟨x, hx, hrest⟩ := ih (i + 1)
      exact ⟨x, hx, congrArg _ hrest⟩

/-- How much of a name matches -/
def keyScore (sep s : Bytes) (key : ArrayKey) : ℕ := (negotiateMatch key.stringify s sep).toNat

/-- The best entry has the best name. -/
theorem argmax_negotiateEntries (number : Value → ℚ) (i : ℕ) (es : Entries) :
    ((negotiateEntries number i es).argmax (NegotiateEntry.score sep s)).map NegotiateEntry.key =
      (es.map Prod.fst).argmax (keyScore sep s) := by
  induction es using List.reverseRecOn with
  | nil => rfl
  | append_singleton es e ih =>
    obtain ⟨x, hx, hconcat⟩ := negotiateEntries_concat number i es e
    rw [hconcat, List.map_append, List.map_singleton, List.argmax_concat, List.argmax_concat, ← ih]
    cases (negotiateEntries number i es).argmax (NegotiateEntry.score sep s) with
    | none => exact congrArg some hx
    | some best =>
      have hscore : keyScore sep s e.1 = x.score sep s := by rw [← hx]; rfl
      have hbest : keyScore sep s best.key = best.score sep s := rfl
      dsimp only [Option.map_some]
      rw [hscore, hbest]
      split_ifs
      · exact congrArg some hx
      · rfl

/-- The best entry of the table is the one with the name of the best entry. -/
theorem bestEntry_mergedEntries (number : Value → ℚ) (es : Entries) :
    (bestEntry sep s (negotiateEntries number 0 es)).map NegotiateEntry.key =
      (bestEntry sep s (negotiateEntries number 0 (mergedEntries es))).map NegotiateEntry.key := by
  have hkey := @argmax_negotiateEntries sep s number 0 es
  rw [← argmax_mergedEntries, ← argmax_negotiateEntries number 0 (mergedEntries es)] at hkey
  unfold bestEntry
  cases hbest : (negotiateEntries number 0 es).argmax (NegotiateEntry.score sep s) with
  | none =>
    rw [hbest] at hkey
    rw [Option.map_eq_none_iff.mp hkey.symm]
  | some e =>
    rw [hbest] at hkey
    obtain ⟨r, hr, hre⟩ := Option.map_eq_some_iff.mp hkey.symm
    have hscore : r.score sep s = e.score sep s := congrArg (keyScore sep s) hre
    rw [hr, Option.filter_some, Option.filter_some, hscore]
    split_ifs
    · exact congrArg some hre.symm
    · rfl

theorem mem_of_bestEntry {entries : List NegotiateEntry} {e : NegotiateEntry}
    (h : e ∈ bestEntry sep s entries) : e ∈ entries := by
  rw [bestEntry, Option.mem_def, Option.filter_eq_some_iff] at h
  exact List.argmax_mem h.1

/-- An entry of the table is known by its name. -/
theorem eq_of_mergedEntries {r r' : NegotiateEntry}
    (hr : r ∈ negotiateEntries number 0 (mergedEntries es))
    (hr' : r' ∈ negotiateEntries number 0 (mergedEntries es)) (hkey : r.key = r'.key) : r = r' := by
  have hnodup : ((negotiateEntries number 0 (mergedEntries es)).map NegotiateEntry.key).Nodup := by
    rw [negotiateEntries_keys]
    exact distinct_mergedEntries es
  exact List.inj_on_of_nodup_map hnodup hr hr' hkey

/-- The table keeps what the best entry of the header says. -/
def KeepsVerdict (number : Value → ℚ) (sep s : Bytes) (es : Entries) : Prop :=
  ∀ e ∈ bestEntry sep s (negotiateEntries number 0 es),
    ∀ r ∈ negotiateEntries number 0 (mergedEntries es), r.key = e.key →
      (e.Accepts → r.Accepts ∧ ¬ r.Loses (e.score sep s)) ∧
      (¬ e.Accepts → r.Accepts → r.Loses (e.score sep s))

theorem mem_mergedEntries_iff (number : Value → ℚ) (es : Entries) (supported : List Bytes)
    (sep s : Bytes) :
    (s ∈ (negotiateParams number (mergedEntries es) supported sep).map Prod.fst ↔
      s ∈ supported ∧ Acceptable sep s (negotiateEntries number 0 es)) ↔
    (s ∈ supported → KeepsVerdict number sep s es) := by
  have hbest := @bestEntry_mergedEntries sep s number es
  rw [mem_negotiateParams, and_congr_right_iff]
  refine imp_congr_right fun _ => ?_
  unfold Acceptable KeepsVerdict
  cases he : bestEntry sep s (negotiateEntries number 0 es) with
  | none =>
    rw [he] at hbest
    rw [Option.map_eq_none_iff.mp hbest.symm]
    simp
  | some e =>
    rw [he] at hbest
    obtain ⟨r, hr, hre⟩ := Option.map_eq_some_iff.mp hbest.symm
    have hscore : r.score sep s = e.score sep s := congrArg (keyScore sep s) hre
    have hmem := mem_of_bestEntry (Option.mem_def.mpr hr)
    have honly : ∀ r' ∈ negotiateEntries number 0 (mergedEntries es), r'.key = e.key → r' = r :=
      fun r' hr' hkey => eq_of_mergedEntries hr' hmem (hkey.trans hre.symm)
    rw [hr]
    simp only [Option.mem_some_iff, exists_eq_left', forall_eq', NegotiateEntry.quality_iff, hscore]
    constructor
    · intro h r' hr' hkey
      obtain rfl := honly r' hr' hkey
      exact ⟨h.mpr, fun hnot haccepts => by_contra fun hloses => hnot (h.mp ⟨haccepts, hloses⟩)⟩
    · intro h
      obtain ⟨hyes, hno⟩ := h r hmem hre
      refine ⟨fun hr => by_contra fun hnot => hr.2 (hno hnot hr.1), hyes⟩

end Best

/-! ### Reading a header -/

/-- What a slice says, without blanks around it and without quotes. -/
def sliceText (L : ParamsLib) (slice : Bytes) : Except ParamsFault Bytes :=
  if slice = [] then .ok [] else sanitizeEscaped L (phpTrim isTrimmed slice)

/-- Whether a slice has a name. -/
def namesEntry (L : ParamsLib) (slice : Bytes) : Bool :=
  match sliceText L slice with
  | .ok key => key ≠ []
  | .error _ => false

/-- No slice that is looked at is a lone quote, and no argument comes before the first name. -/
def ReadableSlices (L : ParamsLib) : Bool → List (ParamsPhase × Bytes) → Prop
  | _, [] => True
  | named, (.start, _) :: slices => ReadableSlices L named slices
  | named, (.param, slice) :: slices =>
      phpTrim isTrimmed slice ≠ [quote] ∧ ReadableSlices L (named || namesEntry L slice) slices
  | named, (.arg, slice) :: slices =>
      phpTrim isTrimmed slice ≠ [quote] ∧ (namesEntry L slice = true → named = true) ∧
        ReadableSlices L named slices
  | named, (.val _, slice) :: slices =>
      (named = true → phpTrim isTrimmed slice ≠ [quote]) ∧ ReadableSlices L named slices

/-- The entry that is being read, and the argument that gets the next value. -/
structure Reading where
  key : ArrayKey
  value : Value
  args : Entries
  arg : Option ArrayKey

namespace Reading

def param (x : Reading) : Value := .array [(valueKey, x.value), (argumentsKey, .array x.args)]

/-- An entry of which the name has been read. -/
def ofName (name : Bytes) : Reading := ⟨symKey name, .bool true, [], none⟩

def addArg (x : Reading) (name : Bytes) : Reading :=
  { x with args := Entries.update x.args (symKey name) (.bool true), arg := some (symKey name) }

def setValue (x : Reading) (w : Value) : Reading :=
  match x.arg with
  | none => { x with value := w }
  | some k => { x with args := ((Value.array x.args).set [k] w).entries }

end Reading

/-- The state of the parser, where a table has what has been read before. -/
def readingState (ht : Entries) : Option Reading → ParamsState
  | none => ⟨ht, none, none, false⟩
  | some x => ⟨Entries.update ht x.key x.param,
      some (x.arg.elim [x.key, valueKey] fun k => [x.key, argumentsKey, k]),
      some [x.key, argumentsKey], false⟩

/-- A slice that is no name. -/
def readInside (L : ParamsLib) (cur : Option Reading) (phase : ParamsPhase) (slice : Bytes) :
    Except ParamsFault (Option Reading) :=
  match phase, cur with
  | .arg, none => do
      let key ← sliceText L slice
      if key = [] then .ok none else .error .pointer
  | .arg, some x => (sliceText L slice).map fun key => if key = [] then x else x.addArg key
  | .val _, some x => (sliceText L slice).map fun v => x.setValue (.str v)
  | _, cur => .ok cur

section Read
variable {L : ParamsLib} {slice : Bytes} {cur : Option Reading}

theorem sliceText_ok : (∃ s, sliceText L slice = .ok s) ↔ phpTrim isTrimmed slice ≠ [quote] := by
  unfold sliceText sanitizeEscaped
  by_cases hslice : slice = []
  · subst hslice
    exact iff_of_true ⟨[], rfl⟩ (by decide)
  rw [if_neg hslice]
  split_ifs with hquotes hlength
  · refine iff_of_false (by simp) (not_not.mpr ?_)
    obtain ⟨s, hs⟩ := List.head?_eq_some_iff.mp hquotes.1
    rw [hs, List.length_cons] at hlength
    rw [hs, List.length_eq_zero_iff.mp (by omega : s.length = 0)]
  · refine iff_of_true ⟨_, rfl⟩ fun h => hlength ?_
    rw [h]
    decide
  · refine iff_of_true ⟨_, rfl⟩ fun h => hquotes ?_
    rw [h]
    decide

theorem sanitizeKey_negotiate (slice : Bytes) : sanitizeKey L negotiateOpts.flags slice =
    (sanitizeEscaped L (phpTrim isTrimmed slice)).map fun s => (.str s, false) := by
  have hplain : unescape L negotiateOpts.flags (phpTrim isTrimmed slice) =
      sanitizeEscaped L (phpTrim isTrimmed slice) := rfl
  unfold sanitizeKey
  dsimp only
  rw [hplain]
  cases sanitizeEscaped L (phpTrim isTrimmed slice) with
  | error fault => rfl
  | ok s =>
    rw [ok_bind]
    by_cases hs : s = []
    · rw [if_pos hs, hs]
      rfl
    · rw [if_neg hs]
      rfl

theorem pushParam_header {st : ParamsState} (hst : st.rfc5987 = false) :
    pushParam L negotiateOpts .param slice st =
      (sliceText L slice).map fun key => if key = [] then st else
        readingState st.params (some (.ofName key)) := by
  obtain ⟨params, val, args, rfc5987⟩ := st
  obtain rfl : rfc5987 = false := hst
  have hflags : ¬ negotiateOpts.flags.rfc5988 = true := by decide
  unfold pushParam sliceText
  dsimp only
  by_cases hslice : slice = []
  · rw [if_pos hslice, if_pos hslice]
    rfl
  · rw [if_neg hslice, if_neg hslice, if_neg hflags, sanitizeKey_negotiate]
    cases sanitizeEscaped L (phpTrim isTrimmed slice) with
    | error fault => rfl
    | ok key =>
      simp only [Except.map, ok_bind]
      split_ifs <;> rfl

theorem get_update (ht : Entries) (key : ArrayKey) (v : Value) (path : Path) :
    (Value.array (Entries.update ht key v)).get (key :: path) = v.get path := by
  rw [Value.get_cons, Value.entries, Entries.find_update_self, Option.bind_some]

theorem set_update (ht : Entries) (key : ArrayKey) (v w : Value) (path : Path) :
    (Value.array (Entries.update ht key v)).set (key :: path) w =
      .array (Entries.update ht key (v.set path w)) := by
  rw [Value.set, Entries.find_update_self]
  dsimp only
  rw [Entries.update_update]

theorem readingState_writeArgs (ht : Entries) (x : Reading) (args : Entries) :
    ParamsState.write (readingState ht (some x)) [x.key, argumentsKey] (.array args) =
      { readingState ht (some x) with
        params := Entries.update ht x.key (Reading.param { x with args := args }) } := by
  have hset : x.param.set [argumentsKey] (.array args) =
      Reading.param { x with args := args } := rfl
  rw [ParamsState.write, readingState, set_update, hset]

/-- A value goes to its argument, or to the parameter. -/
theorem readingState_writeValue (ht : Entries) (x : Reading) (w : Value) :
    { ParamsState.write (readingState ht (some x))
        (x.arg.elim [x.key, valueKey] fun k => [x.key, argumentsKey, k]) w with rfc5987 := false } =
      readingState ht (some (x.setValue w)) := by
  obtain ⟨key, value, args, arg⟩ := x
  cases arg with
  | none =>
    have hset : (Reading.param ⟨key, value, args, none⟩).set [valueKey] w =
        Reading.param ⟨key, w, args, none⟩ := rfl
    rw [Option.elim_none, ParamsState.write, readingState, set_update, hset]
    rfl
  | some k =>
    have hargs : (Value.array args).set [k] w = .array ((Value.array args).set [k] w).entries := by
      rw [Value.set]
      cases Entries.find args k <;> rfl
    have hset : (Reading.param ⟨key, value, args, some k⟩).set [argumentsKey, k] w =
        Reading.param (Reading.setValue ⟨key, value, args, some k⟩ w) := by
      have hinner : (Reading.param ⟨key, value, args, some k⟩).set [argumentsKey, k] w =
          .array [(valueKey, value), (argumentsKey, (Value.array args).set [k] w)] := rfl
      rw [hinner, hargs]
      rfl
    rw [Option.elim_some, ParamsState.write, readingState, set_update, hset]
    rfl

theorem pushParam_argument {st : ParamsState} (hst : st.rfc5987 = false) :
    pushParam L negotiateOpts .arg slice st =
      sliceText L slice >>= fun key => if key = [] then .ok st else pushArg st key false := by
  obtain ⟨params, val, args, rfc5987⟩ := st
  obtain rfl : rfc5987 = false := hst
  unfold pushParam sliceText
  dsimp only
  by_cases hslice : slice = []
  · rw [if_pos hslice, if_pos hslice]
    rfl
  · rw [if_neg hslice, if_neg hslice, sanitizeKey_negotiate]
    cases sanitizeEscaped L (phpTrim isTrimmed slice) with
    | error fault => rfl
    | ok key => simp only [Except.map, ok_bind]

theorem sanitizeValue_negotiate (slice : Bytes) : sanitizeValue L negotiateOpts.flags slice false =
    (sanitizeEscaped L (phpTrim isTrimmed slice)).map .str := by
  have hplain : unescape L negotiateOpts.flags (phpTrim isTrimmed slice) =
      sanitizeEscaped L (phpTrim isTrimmed slice) := rfl
  unfold sanitizeValue valueText
  dsimp only
  rw [if_neg Bool.false_ne_true, hplain]
  cases sanitizeEscaped L (phpTrim isTrimmed slice) with
  | error fault => rfl
  | ok s => rfl

/-- An argument goes to the entry that is being read. -/
theorem pushArg_reading (ht : Entries) (x : Reading) (key : Bytes) :
    pushArg (readingState ht (some x)) key false =
      .ok (readingState ht (some (x.addArg key))) := by
  have hget : x.param.get [argumentsKey] = some (.array x.args) := rfl
  have htable : (readingState ht (some x)).table (some [x.key, argumentsKey]) =
      .ok ([x.key, argumentsKey], x.args) := by
    rw [ParamsState.table, readingState]
    dsimp only
    rw [get_update, hget]
  have hargs : (readingState ht (some x)).args = some [x.key, argumentsKey] := rfl
  unfold pushArg
  rw [hargs, htable, ok_bind]
  dsimp only
  rw [if_neg Bool.false_ne_true, readingState_writeArgs]
  rfl

/-- What is read behind a name does not depend on what has been read before. -/
theorem pushParam_inside {phase : ParamsPhase} (hphase : phase ≠ .param) (ht : Entries) :
    pushParam L negotiateOpts phase slice (readingState ht cur) =
      (readInside L cur phase slice).map (readingState ht) := by
  cases phase with
  | param => exact absurd rfl hphase
  | start => cases cur <;> rfl
  | arg =>
    have hstate : (readingState ht cur).rfc5987 = false := by cases cur <;> rfl
    rw [pushParam_argument hstate]
    unfold readInside
    cases cur with
    | none =>
      cases sliceText L slice with
      | error fault => rfl
      | ok key =>
        simp only [ok_bind]
        split_ifs <;> rfl
    | some x =>
      cases sliceText L slice with
      | error fault => rfl
      | ok key =>
        simp only [ok_bind, Except.map]
        split_ifs
        · rfl
        · exact pushArg_reading ht x key
  | val ofArg =>
    cases cur with
    | none => rfl
    | some x =>
      have hwrite := fun w => readingState_writeValue ht x w
      unfold pushParam readInside sliceText
      dsimp only [readingState]
      by_cases hslice : slice = []
      · rw [if_neg (not_not.mpr hslice), if_pos hslice, ok_bind]
        exact congrArg Except.ok (hwrite _)
      · rw [if_pos hslice, if_neg hslice, sanitizeValue_negotiate]
        cases sanitizeEscaped L (phpTrim isTrimmed slice) with
        | error fault => rfl
        | ok s => exact congrArg Except.ok (hwrite _)

/-- The state of the parser that makes the table -/
def tableState (st : Entries × ParamsState) : ParamsState :=
  { st.2 with params := mergedEntries (st.1 ++ st.2.params) }

theorem tableState_reading (done : Entries) (cur : Option Reading) :
    tableState (done, readingState [] cur) = readingState (mergedEntries done) cur := by
  cases cur with
  | none =>
    rw [tableState, readingState, List.append_nil]
    rfl
  | some x =>
    have hparams : (readingState [] (some x)).params = [(x.key, x.param)] := rfl
    rw [tableState, hparams, mergedEntries_concat]
    rfl

theorem readingState_rfc5987 (ht : Entries) (cur : Option Reading) :
    (readingState ht cur).rfc5987 = false := by
  cases cur <;> rfl

theorem readSlice_name (done : Entries) : readSlice L (done, readingState [] cur) (.param, slice) =
    (sliceText L slice).map fun key => if key = [] then (done, readingState [] cur) else
      (done ++ (readingState [] cur).params, readingState [] (some (.ofName key))) := by
  have hst : { readingState [] cur with params := [] }.rfc5987 = false :=
    readingState_rfc5987 [] cur
  rw [readSlice, if_pos rfl, pushParam_header hst]
  cases sliceText L slice with
  | error fault => rfl
  | ok key =>
    by_cases hkey : key = []
    · simp only [Except.map, if_pos hkey]
      rfl
    · simp only [Except.map, if_neg hkey]
      rfl

theorem readSlice_inside {phase : ParamsPhase} (hphase : phase ≠ .param) (done : Entries) :
    readSlice L (done, readingState [] cur) (phase, slice) =
      (readInside L cur phase slice).map fun cur => (done, readingState [] cur) := by
  rw [readSlice, if_neg hphase, pushParam_inside hphase]
  cases readInside L cur phase slice <;> rfl

/-- The parser makes the table of the entries. -/
theorem foldlM_table (slices : List (ParamsPhase × Bytes)) (done : Entries) (cur : Option Reading) :
    slices.foldlM (fun st slice => pushParam L negotiateOpts slice.1 slice.2 st)
        (readingState (mergedEntries done) cur) =
      (slices.foldlM (readSlice L) (done, readingState [] cur)).map tableState := by
  induction slices generalizing done cur with
  | nil => exact congrArg Except.ok (tableState_reading done cur).symm
  | cons slice slices ih =>
    obtain ⟨phase, slice⟩ := slice
    rw [List.foldlM_cons, List.foldlM_cons]
    by_cases hphase : phase = .param
    · subst hphase
      rw [pushParam_header (readingState_rfc5987 _ cur), readSlice_name]
      cases sliceText L slice with
      | error fault => rfl
      | ok key =>
        simp only [Except.map, ok_bind]
        split_ifs
        · exact ih done cur
        · have hparams : (readingState (mergedEntries done) cur).params =
              mergedEntries (done ++ (readingState [] cur).params) := by
            rw [← tableState_reading]
            rfl
          rw [hparams]
          exact ih _ _
    · rw [pushParam_inside hphase, readSlice_inside hphase]
      cases readInside L cur phase slice with
      | error fault => rfl
      | ok cur' => exact ih done cur'

theorem sliceText_cases (slice : Bytes) :
    (phpTrim isTrimmed slice = [quote] ∧ namesEntry L slice = false ∧
      ∃ fault, sliceText L slice = .error fault) ∨
    phpTrim isTrimmed slice ≠ [quote] ∧ ∃ key, sliceText L slice = .ok key ∧
      (namesEntry L slice = true ↔ key ≠ []) := by
  unfold namesEntry
  cases htext : sliceText L slice with
  | error fault =>
    refine .inl ⟨?_, rfl, fault, rfl⟩
    by_contra hne
    obtain ⟨s, hs⟩ := sliceText_ok.mpr hne
    rw [htext] at hs
    cases hs
  | ok key => exact .inr ⟨sliceText_ok.mp ⟨key, htext⟩, key, rfl, decide_eq_true_iff⟩

/-- The header is read to its end exactly if its slices are readable. -/
theorem foldlM_readable (slices : List (ParamsPhase × Bytes)) (done : Entries)
    (cur : Option Reading) :
    (∃ st, slices.foldlM (readSlice L) (done, readingState [] cur) = .ok st) ↔
      ReadableSlices L cur.isSome slices := by
  induction slices generalizing done cur with
  | nil => exact iff_of_true ⟨_, rfl⟩ trivial
  | cons slice slices ih =>
    obtain ⟨phase, slice⟩ := slice
    rw [List.foldlM_cons]
    cases phase with
    | start =>
      rw [readSlice_inside (by simp)]
      exact ih done cur
    | param =>
      rw [readSlice_name, ReadableSlices]
      obtain ⟨hquote, -, fault, htext⟩ | ⟨hquote, key, htext, hnames⟩ :=
        sliceText_cases (L := L) slice
      · rw [htext]
        exact iff_of_false (by rintro ⟨st, h⟩; cases h) fun h => h.1 hquote
      · rw [htext]
        simp only [Except.map, ok_bind]
        split_ifs with hkey
        · have hnone : namesEntry L slice = false := Bool.eq_false_iff.mpr fun h => hnames.mp h hkey
          rw [ih, hnone, Bool.or_false, and_iff_right hquote]
        · rw [ih, hnames.mpr hkey, Bool.or_true, and_iff_right hquote]
          rfl
    | arg =>
      rw [readSlice_inside (by simp), ReadableSlices]
      obtain ⟨hquote, -, fault, htext⟩ | ⟨hquote, key, htext, hnames⟩ :=
        sliceText_cases (L := L) slice
      · refine iff_of_false ?_ fun h => h.1 hquote
        rintro ⟨st, h⟩
        cases cur <;> rw [readInside, htext] at h <;> cases h
      · rw [and_iff_right hquote]
        cases cur with
        | none =>
          rw [readInside, htext, ok_bind]
          split_ifs with hkey
          · have hnone : ¬ namesEntry L slice = true := fun h => hnames.mp h hkey
            exact (ih done none).trans (and_iff_right fun h => absurd h hnone).symm
          · refine iff_of_false (by rintro ⟨st, h⟩; cases h) fun h => ?_
            exact Bool.false_ne_true (h.1 (hnames.mpr hkey))
        | some x =>
          have hsome : ∀ y : Reading, (∃ st, slices.foldlM (readSlice L)
              (done, readingState [] (some y)) = .ok st) ↔
              (namesEntry L slice = true → (some x).isSome = true) ∧ ReadableSlices L true slices :=
            fun y => (ih done (some y)).trans (and_iff_right fun _ => rfl).symm
          rw [readInside, htext]
          by_cases hkey : key = []
          · simp only [Except.map, if_pos hkey]
            exact hsome x
          · simp only [Except.map, if_neg hkey]
            exact hsome (x.addArg key)
    | val ofArg =>
      rw [readSlice_inside (by simp), ReadableSlices]
      cases cur with
      | none => exact (ih done none).trans (and_iff_right fun h => absurd h (by simp)).symm
      | some x =>
        obtain ⟨hquote, -, fault, htext⟩ | ⟨hquote, key, htext, -⟩ := sliceText_cases (L := L) slice
        · rw [readInside, htext]
          exact iff_of_false (by rintro ⟨st, h⟩; cases h) fun h => h.1 rfl hquote
        · rw [readInside, htext]
          exact (ih done _).trans (and_iff_right fun _ => hquote).symm

end Read

section Header
variable (L : ParamsLib) (value : Bytes)

theorem paramsParse_header :
    paramsParse L negotiateOpts [] value = (headerEntries L value).map mergedEntries := by
  have hfold := foldlM_table (L := L) (paramsSlices negotiateOpts (.init value)) [] none
  have hstart : readingState (mergedEntries []) none = ⟨[], none, none, false⟩ := rfl
  have hempty : readingState [] none = ⟨[], none, none, false⟩ := rfl
  rw [hstart, hempty] at hfold
  rw [paramsParse, paramsLoop_eq, hfold, headerEntries]
  cases (paramsSlices negotiateOpts (.init value)).foldlM (readSlice L)
    ([], ⟨[], none, none, false⟩) <;> rfl

theorem headerEntries_ok : (∃ es, headerEntries L value = .ok es) ↔
    ReadableSlices L false (paramsSlices negotiateOpts (.init value)) := by
  have hreadable := foldlM_readable (L := L) (paramsSlices negotiateOpts (.init value)) [] none
  have hempty : readingState [] none = ⟨[], none, none, false⟩ := rfl
  rw [hempty] at hreadable
  rw [← show _ ↔ ReadableSlices L false _ from hreadable, headerEntries]
  cases (paramsSlices negotiateOpts (.init value)).foldlM (readSlice L)
    ([], ⟨[], none, none, false⟩) with
  | error fault =>
    exact iff_of_false (by rintro ⟨es, h⟩; cases h) (by rintro ⟨st, h⟩; cases h)
  | ok st => exact iff_of_true ⟨_, rfl⟩ ⟨_, rfl⟩

end Header

/-- A supported value is in the result exactly if the best entry of the header accepts it. -/
def AcceptsByQuality (L : ParamsLib) (number : Value → ℚ) (value : Bytes) (supported : List Bytes)
    (sep s : Bytes) : Prop :=
  ∃ es result, headerEntries L value = .ok es ∧
    negotiate L number value supported sep = .ok result ∧
    (s ∈ (result.getD []).map Prod.fst ↔
      s ∈ supported ∧ Acceptable sep s (negotiateEntries number 0 es))

/-- The result is that of the table; without a value there are no entries. -/
theorem negotiate_header {L : ParamsLib} (number : Value → ℚ) {value : Bytes}
    (supported : List Bytes) (sep s : Bytes) {es : Entries}
    (hes : headerEntries L value = .ok es) : ∃ result,
    negotiate L number value supported sep = .ok result ∧ (s ∈ (result.getD []).map Prod.fst ↔
      s ∈ (negotiateParams number (mergedEntries es) supported sep).map Prod.fst) := by
  unfold negotiate
  by_cases hempty : value = []
  · subst hempty
    have hslices : paramsSlices negotiateOpts (.init []) = [(.start, [])] := paramsSlices_end rfl
    have hnone : headerEntries L [] = .ok [] := by
      rw [headerEntries, hslices]
      rfl
    obtain rfl := Except.ok.inj (hes.symm.trans hnone)
    refine ⟨none, if_pos rfl, ?_⟩
    rw [mem_negotiateParams]
    exact iff_of_false List.not_mem_nil (by rintro ⟨-, e, he, -⟩; cases he)
  · have hparse := paramsParse_header L value
    rw [hes] at hparse
    refine ⟨some (negotiateParams number (mergedEntries es) supported sep), ?_, Iff.rfl⟩
    rw [if_neg hempty]
    exact congrArg _ hparse

theorem AcceptsByQuality.keeps {L : ParamsLib} {number : Value → ℚ} {value : Bytes}
    {supported : List Bytes} {sep s : Bytes}
    (h : AcceptsByQuality L number value supported sep s) (hs : s ∈ supported) {es : Entries}
    (hes : headerEntries L value = .ok es) : KeepsVerdict number sep s es := by
  obtain ⟨es', result, hes', hresult, hiff⟩ := h
  obtain rfl := Except.ok.inj (hes.symm.trans hes')
  obtain ⟨result', hresult', hmem⟩ := negotiate_header number supported sep s hes
  obtain rfl := Except.ok.inj (hresult.symm.trans hresult')
  exact (mem_mergedEntries_iff number es supported sep s).mp (hmem.symm.trans hiff) hs

/-- Negotiation accepts by quality exactly where the header can be read and, for a supported value,
the table keeps what the best entry says. -/
theorem negotiate_iff (L : ParamsLib) (number : Value → ℚ) (value : Bytes) (supported : List Bytes)
    (sep s : Bytes) : AcceptsByQuality L number value supported sep s ↔
      ReadableSlices L false (paramsSlices negotiateOpts (.init value)) ∧
      (s ∈ supported → ∀ es, headerEntries L value = .ok es → KeepsVerdict number sep s es) := by
  rw [← headerEntries_ok]
  constructor
  · intro h
    refine ⟨?_, fun hs es hes => h.keeps hs hes⟩
    obtain ⟨es, -, hes, -⟩ := h
    exact ⟨es, hes⟩
  · rintro ⟨⟨es, hes⟩, hkeeps⟩
    obtain ⟨result, hresult, hmem⟩ := negotiate_header number supported sep s hes
    exact ⟨es, result, hes, hresult,
      hmem.trans ((mem_mergedEntries_iff number es supported sep s).mpr fun hs => hkeeps hs es hes)⟩

/-- A few texts and their numbers -/
def someNumbers : Value → ℚ
  | .str s => if s = ascii "0.02" then 1 / 50 else if s = ascii "1" then 1 else 0
  | _ => 1

/-- An entry `de` with a quality -/
def germanEntry (q : Bytes) : ArrayKey × Value :=
  (.str (ascii "de"), .array [(valueKey, .bool true),
    (argumentsKey, .array [(.str (ascii "q"), .str q)])])

/-- `de;q=0.02` does not accept `de-AT`, and behind `de;q=1` an entry `de;q=0` takes `de` away. -/
theorem negotiate_lost :
    ¬ AcceptsByQuality plainParamsLib someNumbers (ascii "de;q=0.02") [ascii "de-AT"] [hyphen]
      (ascii "de-AT") ∧
    ¬ AcceptsByQuality plainParamsLib someNumbers (ascii "de;q=1, de;q=0") [ascii "de"] [hyphen]
      (ascii "de") := by
  constructor
  · intro h
    have hes : headerEntries plainParamsLib (ascii "de;q=0.02") =
        .ok [germanEntry (ascii "0.02")] := by
      have hslices : paramsSlices negotiateOpts (.init (ascii "de;q=0.02")) =
          [(.param, ascii "de"), (.arg, ascii "q"), (.val true, ascii "0.02")] := by decide +kernel
      rw [headerEntries, hslices]
      rfl
    let e : NegotiateEntry := ⟨.str (ascii "de"), some (1 / 50), 0⟩
    have hentries : negotiateEntries someNumbers 0 [germanEntry (ascii "0.02")] = [e] := rfl
    have hscore : e.score [hyphen] (ascii "de-AT") = 5 := by decide
    have hbest : bestEntry [hyphen] (ascii "de-AT") [e] = some e := by
      rw [bestEntry_of_argmax List.argmax_singleton, hscore]
      rfl
    have haccepts : e.Accepts := fun q hq => by
      cases hq
      norm_num
    obtain ⟨hkept, -⟩ := h.keeps List.mem_cons_self hes e (hentries ▸ hbest) e
      (List.mem_singleton.mpr rfl) rfl
    refine (hkept haccepts).2 ⟨by norm_num, ?_⟩
    rw [hscore]
    norm_num
  · intro h
    have hes : headerEntries plainParamsLib (ascii "de;q=1, de;q=0") =
        .ok [germanEntry (ascii "1"), germanEntry (ascii "0")] := by
      have hslices : paramsSlices negotiateOpts (.init (ascii "de;q=1, de;q=0")) =
          [(.param, ascii "de"), (.arg, ascii "q"), (.val true, ascii "1"),
            (.param, ascii " de"), (.arg, ascii "q"), (.val true, ascii "0")] := by decide +kernel
      rw [headerEntries, hslices]
      rfl
    let e : NegotiateEntry := ⟨.str (ascii "de"), some 1, 0⟩
    let r : NegotiateEntry := ⟨.str (ascii "de"), some 0, 0⟩
    have hentries : negotiateEntries someNumbers 0 [germanEntry (ascii "1"),
        germanEntry (ascii "0")] = [e] ++ [r] := rfl
    have hscore : 0 < e.score [hyphen] (ascii "de") := by decide
    have hbest : bestEntry [hyphen] (ascii "de") ([e] ++ [r]) = some e := by
      have hmax := List.argmax_concat (NegotiateEntry.score [hyphen] (ascii "de")) r [e]
      have hequal : ¬ e.score [hyphen] (ascii "de") < r.score [hyphen] (ascii "de") := lt_irrefl _
      rw [List.argmax_singleton] at hmax
      dsimp only at hmax
      rw [if_neg hequal] at hmax
      rw [bestEntry_of_argmax hmax, if_pos hscore]
    obtain ⟨hkept, -⟩ := h.keeps List.mem_cons_self hes e (hentries ▸ hbest) r
      (List.mem_singleton.mpr rfl) rfl
    have haccepts : e.Accepts := fun q hq => by
      cases hq
      norm_num
    exact absurd ((hkept haccepts).1 0 rfl) (lt_irrefl _)

end ExtHttp
