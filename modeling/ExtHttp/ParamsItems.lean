import ExtHttp.ParamsTokens

/-!
# Parameters with their arguments

What a text of parameters and arguments, each with or without a value, is read as.
-/
namespace ExtHttp

/-- A key and a value, if there is one, as they are written and as they are read. -/
structure ParamItem where
  key : Bytes
  val : Option Bytes
  name : Bytes
  value : Option Bytes

namespace ParamItem

/-- What is pushed for it. -/
def segments (sep : Byte) (ofArg : Bool) (i : ParamItem) : List Segment :=
  ⟨sep, if ofArg then .arg else .param, i.key⟩ :: i.val.elim [] fun v =>
    [⟨equalSign, .val ofArg, v⟩]

/-- Without a value it is true. -/
def valueOf (i : ParamItem) : Value := i.value.elim (.bool true) .str

def entry (i : ParamItem) : ArrayKey × Value := (symKey i.name, i.valueOf)

/-- It can be read, and as what it is read. -/
structure Reads (L : ParamsLib) (opts : ParamsOpts) (i : ParamItem) : Prop where
  key_ne : i.key ≠ []
  key : sanitizeKey L opts.flags i.key = .ok (.str i.name, false)
  name_ne : i.name ≠ []
  isSome : i.val.isSome = i.value.isSome
  val : ∀ v ∈ i.val, ∀ s ∈ i.value, v = [] ∧ s = [] ∨
    v ≠ [] ∧ sanitizeValue L opts.flags v false = .ok (.str s)
  fits : ∀ sep ofArg, ∀ g ∈ i.segments sep ofArg, g.Fits opts

end ParamItem

/-- A parameter with its arguments. -/
structure ParamGroup where
  param : ParamItem
  args : List ParamItem

namespace ParamGroup

def segments (p : ParamGroup) : List Segment :=
  p.param.segments comma false ++ p.args.flatMap (·.segments semicolon true)

def entry (p : ParamGroup) : ArrayKey × Value :=
  (symKey p.param.name,
    .array [(valueKey, p.param.valueOf), (argumentsKey, .array (p.args.map ParamItem.entry))])

structure Reads (L : ParamsLib) (opts : ParamsOpts) (p : ParamGroup) : Prop where
  param : p.param.Reads L opts
  args : ∀ a ∈ p.args, a.Reads L opts
  nodup : (p.args.map ParamItem.name).Nodup

end ParamGroup

section Push
variable {L : ParamsLib} {opts : ParamsOpts} {done args : Entries} {name : Bytes} {v : Value}
    {val : Option Path}
  {i : ParamItem} {st : ParamsState}

/-- The state behind a parameter and some of its arguments. -/
def paramsAt (done : Entries) (name : Bytes) (v : Value) (args : Entries) (val : Option Path) :
    ParamsState :=
  ⟨done ++ [(symKey name, .array [(valueKey, v), (argumentsKey, .array args)])], val,
    some [symKey name, argumentsKey], false⟩

theorem find_append {ht : Entries} {key : ArrayKey} (h : Entries.find ht key = none)
    (ht' : Entries) :
    Entries.find (ht ++ ht') key = Entries.find ht' key := by
  rw [Entries.find, Assoc.find_append, ← Entries.find, h, Option.none_or]
  rfl

/-- Writing into the last entry. -/
theorem set_last (hdone : Entries.find done (symKey name) = none) (x w : Value) (path : Path) :
    Value.set (.array (done ++ [(symKey name, x)])) (symKey name :: path) w =
      .array (done ++ [(symKey name, x.set path w)]) := by
  rw [Value.set, find_concat hdone]
  simp only [Entries.update_append hdone]

theorem get_last (hdone : Entries.find done (symKey name) = none) (x : Value) (path : Path) :
    Value.get (.array (done ++ [(symKey name, x)])) (symKey name :: path) = x.get path := by
  rw [Value.get, find_concat hdone]
  rfl

theorem write_value (hdone : Entries.find done (symKey name) = none) (w : Value) :
    (paramsAt done name v args val).write [symKey name, valueKey] w =
      paramsAt done name w args val := by
  simp only [ParamsState.write, paramsAt, set_last hdone]
  simp [Value.set, Entries.find_cons, Entries.update_cons]

theorem write_arguments (hdone : Entries.find done (symKey name) = none) (val : Option Path)
    (args : Entries) (path : Path) (w : Value) {args' : Entries}
    (h : Value.set (.array args) path w = .array args') :
    (paramsAt done name v args val).write (symKey name :: argumentsKey :: path) w =
      paramsAt done name v args' val := by
  have hne : valueKey ≠ argumentsKey := by decide
  simp only [ParamsState.write, paramsAt, set_last hdone]
  simp [Value.set, Entries.find_cons, Entries.update_cons, hne, h]

theorem table_arguments (hdone : Entries.find done (symKey name) = none) :
    (paramsAt done name v args val).table (some [symKey name, argumentsKey]) =
      .ok ([symKey name, argumentsKey], args) := by
  have hne : valueKey ≠ argumentsKey := by decide
  simp only [ParamsState.table, paramsAt, get_last hdone]
  simp [Value.get, Entries.find_cons, hne]

/-! ### One item -/

theorem pushParam_param (hopts : HeaderOpts opts) (hi : i.Reads L opts)
    (hnew : Entries.find st.params (symKey i.name) = none) :
    pushParam L opts .param i.key st =
      .ok (paramsAt st.params i.name (.bool true) [] (some [symKey i.name, valueKey])) := by
  have hflags : ¬ opts.flags.rfc5988 = true := by simp [hopts.rfc5988]
  unfold pushParam
  dsimp only
  rw [if_neg hi.key_ne, if_neg hflags, hi.key]
  simp [bind, Except.bind, hi.name_ne, pushKey, paramsAt, Entries.update_of_find_none hnew,
    hopts.defval]

theorem pushParam_arg (hdone : Entries.find done (symKey name) = none) (hi : i.Reads L opts)
    (hnew : Entries.find args (symKey i.name) = none) :
    pushParam L opts .arg i.key (paramsAt done name v args val) =
      .ok (paramsAt done name v (args ++ [(symKey i.name, .bool true)])
        (some [symKey name, argumentsKey, symKey i.name])) := by
  have hwrite := write_arguments (v := v) hdone val args []
    (.array (args ++ [(symKey i.name, .bool true)]))
    rfl
  have htable : (paramsAt done name v args val).table (paramsAt done name v args val).args =
      .ok ([symKey name, argumentsKey], args) := table_arguments hdone
  unfold pushParam
  dsimp only
  rw [if_neg hi.key_ne, hi.key]
  simp only [bind, Except.bind, if_neg hi.name_ne]
  have hsame : ({ paramsAt done name v args val with rfc5987 := false } : ParamsState) =
      paramsAt done name v args val := rfl
  rw [hsame, pushArg, htable]
  simp only [bind, Except.bind, Bool.false_eq_true, if_false, Entries.update_of_find_none hnew]
  rw [hwrite]
  rfl

/-- The value of a parameter or of its last argument. -/
theorem pushParam_val {ofArg : Bool} {path : Path} {token s : Bytes} (hval : st.val = some path)
    (hrfc5987 : st.rfc5987 = false)
    (h : token = [] ∧ s = [] ∨ token ≠ [] ∧ sanitizeValue L opts.flags token false = .ok (.str s)) :
    pushParam L opts (.val ofArg) token st =
      .ok { st.write path (.str s) with rfc5987 := false } := by
  unfold pushParam
  dsimp only
  rw [hval, hrfc5987]
  rcases h with ⟨rfl, rfl⟩ | ⟨hne, hread⟩
  · simp [bind, Except.bind]
  · simp [bind, Except.bind, hne, hread]

/-- What is pushed for one item. -/
def ParamItem.slices (i : ParamItem) (ofArg : Bool) : List (ParamsPhase × Bytes) :=
  (if ofArg then .arg else .param, i.key) :: i.val.elim [] fun v => [(.val ofArg, v)]

/-- Push slices one after the other. -/
def pushAll (L : ParamsLib) (opts : ParamsOpts) (st : ParamsState)
    (slices : List (ParamsPhase × Bytes)) :
    Except ParamsFault ParamsState :=
  slices.foldlM (fun st slice => pushParam L opts slice.1 slice.2 st) st

theorem pushAll_cons (slice : ParamsPhase × Bytes) (slices : List (ParamsPhase × Bytes))
    {st' : ParamsState} (h : pushParam L opts slice.1 slice.2 st = .ok st') :
    pushAll L opts st (slice :: slices) = pushAll L opts st' slices := by
  rw [pushAll, List.foldlM_cons, h]
  rfl

theorem pushAll_append {slices slices' : List (ParamsPhase × Bytes)} {st' : ParamsState}
    (h : pushAll L opts st slices = .ok st') : pushAll L opts st (slices ++ slices') =
      pushAll L opts st' slices' := by
  rw [pushAll, List.foldlM_append]
  rw [pushAll] at h
  rw [h]
  rfl

theorem pushAll_param (hopts : HeaderOpts opts) (hi : i.Reads L opts)
    (hnew : Entries.find st.params (symKey i.name) = none) :
    pushAll L opts st (i.slices false) =
      .ok (paramsAt st.params i.name i.valueOf [] (some [symKey i.name, valueKey])) := by
  rw [ParamItem.slices, pushAll_cons _ _ (pushParam_param hopts hi hnew)]
  have hsome := hi.isSome
  cases hval : i.val with
  | none =>
    rw [hval, Option.isSome_none, eq_comm, Option.isSome_eq_false_iff,
      Option.isNone_iff_eq_none] at hsome
    rw [ParamItem.valueOf, hsome]
    rfl
  | some token =>
    obtain ⟨s, hs⟩ := Option.isSome_iff_exists.mp (hsome.symm.trans (by rw [hval]; rfl))
    rw [Option.elim_some, pushAll_cons _ _ (pushParam_val rfl rfl (hi.val token hval s hs)),
      write_value hnew, ParamItem.valueOf, hs]
    rfl

theorem pushAll_arg (hdone : Entries.find done (symKey name) = none) (hi : i.Reads L opts)
    (hnew : Entries.find args (symKey i.name) = none) :
    pushAll L opts (paramsAt done name v args val) (i.slices true) =
      .ok (paramsAt done name v (args ++ [i.entry])
        (some [symKey name, argumentsKey, symKey i.name])) := by
  rw [ParamItem.slices, pushAll_cons _ _ (pushParam_arg hdone hi hnew)]
  have hsome := hi.isSome
  cases hval : i.val with
  | none =>
    rw [hval, Option.isSome_none, eq_comm, Option.isSome_eq_false_iff,
      Option.isNone_iff_eq_none] at hsome
    rw [ParamItem.entry, ParamItem.valueOf, hsome]
    rfl
  | some token =>
    obtain ⟨s, hs⟩ := Option.isSome_iff_exists.mp (hsome.symm.trans (by rw [hval]; rfl))
    have hset : Value.set (.array (args ++ [(symKey i.name, .bool true)])) [symKey i.name]
        (.str s) = .array (args ++ [(symKey i.name, .str s)]) := set_last hnew _ _ []
    rw [Option.elim_some, pushAll_cons _ _ (pushParam_val rfl rfl (hi.val token hval s hs)),
      write_arguments hdone _ _ _ _ hset, ParamItem.entry, ParamItem.valueOf, hs]
    rfl

/-! ### All of them -/

theorem pushAll_args (hdone : Entries.find done (symKey name) = none) (v : Value) (args : Entries)
    (val : Option Path) {items : List ParamItem} (hitems : ∀ i ∈ items, i.Reads L opts)
    (hnew : ∀ i ∈ items, Entries.find args (symKey i.name) = none)
    (hnodup : (items.map ParamItem.name).Nodup) :
    ∃ val', pushAll L opts (paramsAt done name v args val) (items.flatMap (·.slices true)) =
      .ok (paramsAt done name v (args ++ items.map ParamItem.entry) val') := by
  induction items generalizing args val with
  | nil =>
    rw [List.map_nil, List.append_nil]
    exact ⟨val, rfl⟩
  | cons i items ih =>
    rw [List.forall_mem_cons] at hitems hnew
    rw [List.map_cons, List.nodup_cons] at hnodup
    have hrest : ∀ j ∈ items, Entries.find (args ++ [i.entry])
        (symKey j.name) = none := fun j hj => by
      rw [find_append (hnew.2 j hj), Entries.find_cons, if_neg, Entries.find_nil]
      intro hkey
      exact hnodup.1 (symKey_injective hkey ▸ List.mem_map_of_mem hj)
    obtain ⟨val', hval'⟩ := ih (args ++ [i.entry]) (some [symKey name, argumentsKey, symKey i.name])
      hitems.2 hrest hnodup.2
    refine ⟨val', ?_⟩
    rw [List.flatMap_cons, pushAll_append (pushAll_arg hdone hitems.1 hnew.1), hval',
      List.append_assoc]
    rfl

def ParamGroup.slices (p : ParamGroup) : List (ParamsPhase × Bytes) :=
  p.param.slices false ++ p.args.flatMap (·.slices true)

theorem pushAll_group (hopts : HeaderOpts opts) {p : ParamGroup} (hp : p.Reads L opts)
    (hnew : Entries.find st.params (symKey p.param.name) = none) :
    ∃ val, pushAll L opts st p.slices =
      .ok (paramsAt st.params p.param.name p.param.valueOf (p.args.map ParamItem.entry) val) := by
  obtain ⟨val, hval⟩ := pushAll_args hnew p.param.valueOf []
    (some [symKey p.param.name, valueKey]) hp.args (fun _ _ => rfl) hp.nodup
  exact ⟨val, by
    rw [ParamGroup.slices, pushAll_append (pushAll_param hopts hp.param hnew), hval,
      List.nil_append]⟩

theorem pushAll_groups (hopts : HeaderOpts opts) (st : ParamsState) {groups : List ParamGroup}
    (hgroups : ∀ p ∈ groups, p.Reads L opts)
    (hnew : ∀ p ∈ groups, Entries.find st.params (symKey p.param.name) = none)
    (hnodup : (groups.map fun p => p.param.name).Nodup) :
    ∃ st', pushAll L opts st (groups.flatMap ParamGroup.slices) = .ok st' ∧
      st'.params = st.params ++ groups.map ParamGroup.entry := by
  induction groups generalizing st with
  | nil => exact ⟨st, rfl, (List.append_nil _).symm⟩
  | cons p groups ih =>
    rw [List.forall_mem_cons] at hgroups hnew
    rw [List.map_cons, List.nodup_cons] at hnodup
    obtain ⟨val, hval⟩ := pushAll_group hopts hgroups.1 hnew.1
    have hrest : ∀ q ∈ groups, Entries.find (st.params ++ [p.entry])
        (symKey q.param.name) = none := fun q hq => by
      rw [find_append (hnew.2 q hq), Entries.find_cons, if_neg, Entries.find_nil]
      intro hkey
      exact hnodup.1 (symKey_injective hkey ▸ List.mem_map_of_mem
        (f := fun p : ParamGroup => p.param.name) hq)
    obtain ⟨st', hst', hparams⟩ := ih (paramsAt st.params p.param.name p.param.valueOf
      (p.args.map ParamItem.entry) val) hgroups.2 hrest hnodup.2
    refine ⟨st', ?_, ?_⟩
    · rw [List.flatMap_cons, pushAll_append hval, hst']
    · rw [hparams, paramsAt, List.append_assoc]
      rfl

end Push

/-! ### The text -/

section Text
variable {L : ParamsLib} {opts : ParamsOpts} {i : ParamItem}

/-- Segments that can stand behind anything. -/
def Anywhere (opts : ParamsOpts) (gs : List Segment) : Prop :=
  ∀ phase ≠ .start, Chained opts phase gs

theorem Anywhere.nil : Anywhere opts [] := fun _ _ => trivial

theorem Chained.append {phase : ParamsPhase} {gs gs' : List Segment} (h : Chained opts phase gs)
    (hphase : phase ≠ .start) (h' : Anywhere opts gs') : Chained opts phase (gs ++ gs') := by
  induction gs generalizing phase with
  | nil => exact h' phase hphase
  | cons g gs ih =>
    obtain ⟨henters, hfits, hchained⟩ := h
    refine ⟨henters, hfits, ih hchained ?_⟩
    generalize g.sep = sep, g.phase = phase' at henters
    cases henters <;> simp

theorem Anywhere.append {gs gs' : List Segment} (h : Anywhere opts gs) (h' : Anywhere opts gs') :
    Anywhere opts (gs ++ gs') := fun phase hphase => (h phase hphase).append hphase h'

theorem Anywhere.flatMap {α : Type} {l : List α} {f : α → List Segment}
    (h : ∀ x ∈ l, Anywhere opts (f x)) :
    Anywhere opts (l.flatMap f) := by
  induction l with
  | nil => exact .nil
  | cons x l ih =>
    rw [List.forall_mem_cons] at h
    exact h.1.append (ih h.2)

/-- Behind a key comes its value. -/
theorem ParamItem.Reads.chained_val (hi : i.Reads L opts) (sep : Byte) (ofArg : Bool) :
    Chained opts (if ofArg then .arg else .param)
      (i.val.elim [] fun v => [⟨equalSign, .val ofArg, v⟩]) := by
  have hfits := hi.fits sep ofArg
  unfold ParamItem.segments at hfits
  cases hval : i.val with
  | none => trivial
  | some v =>
    refine ⟨?_, hfits _ (by simp [hval]), trivial⟩
    cases ofArg with
    | false => exact .paramVal
    | true => exact .argVal

theorem ParamItem.Reads.anywhere (hi : i.Reads L opts) {sep : Byte} {ofArg : Bool}
    (henters : ∀ phase, Enters opts phase sep (if ofArg then .arg else .param)) :
    Anywhere opts (i.segments sep ofArg) := fun phase _ =>
  ⟨henters phase, hi.fits sep ofArg _ List.mem_cons_self, hi.chained_val sep ofArg⟩

theorem anywhere_args {items : List ParamItem} (hitems : ∀ i ∈ items, i.Reads L opts) :
    Anywhere opts (items.flatMap (·.segments semicolon true)) :=
  .flatMap fun i hi => (hitems i hi).anywhere fun _ => .arg

theorem ParamGroup.Reads.anywhere {p : ParamGroup} (hp : p.Reads L opts)
    (hparam : opts.param = [[comma]]) :
    Anywhere opts p.segments :=
  (hp.param.anywhere fun _ => .param hparam).append (anywhere_args hp.args)

theorem ParamItem.segments_slices (i : ParamItem) (sep : Byte) (ofArg : Bool) :
    ((i.segments sep ofArg).map fun g => (g.phase, g.token)) = i.slices ofArg := by
  cases hval : i.val <;> simp [ParamItem.segments, ParamItem.slices, hval]

theorem args_slices (items : List ParamItem) :
    ((items.flatMap (·.segments semicolon true)).map fun g => (g.phase, g.token)) =
      items.flatMap (·.slices true) := by
  rw [List.map_flatMap]
  simp only [ParamItem.segments_slices]

theorem ParamGroup.segments_slices (p : ParamGroup) :
    (p.segments.map fun g => (g.phase, g.token)) = p.slices := by
  rw [ParamGroup.segments, List.map_append, ParamItem.segments_slices, args_slices]
  rfl

/-- The beginning of a text is read like the beginning of a parameter. -/
theorem paramsSlices_init (hopts : HeaderOpts opts) {s rest : Bytes} (hs : s ≠ [])
    (hhead : ∀ c ∈ s.head?, c ≠ comma ∧ c ≠ semicolon ∧ c ≠ equalSign) :
    paramsSlices opts (.init (s ++ rest)) =
      paramsSlices opts ⟨.param, false, false, [], s ++ rest⟩ := by
  obtain ⟨c, s, rfl⟩ := List.exists_cons_of_ne_nil hs
  have hc := hhead c rfl
  have hnone : ∀ sep ∈ opts.seps, ¬ sep <+: c :: (s ++ rest) := by
    intro sep hsep hpre
    rcases mem_seps.mp hsep with hsep | hsep | hsep
    · rw [hopts.sep_cases.1 hsep] at hpre
      exact hc.1 (List.cons_prefix_cons.mp hpre).1.symm
    · rw [hopts.sep_cases.2.1 hsep] at hpre
      exact hc.2.1 (List.cons_prefix_cons.mp hpre).1.symm
    · rw [hopts.sep_cases.2.2 hsep] at hpre
      exact hc.2.2 (List.cons_prefix_cons.mp hpre).1.symm
  have htrack : trackQuotes opts.flags .param false false c =
      (decide (c = quote), decide (c = backslash)) := by
    by_cases hquote : c = quote
    · rw [hquote]
      simp [trackQuotes, hopts.rfc5988]
      decide
    · rw [trackQuotes_other hopts.rfc5988 hquote, decide_eq_false hquote]
  have hchar := paramsSlices_char opts (show ParamsPhase.param ≠ .start by simp) false false c []
    (s ++ rest) fun seps hseps => hopts.checkSep_zero hc hseps _ _ _
  rw [htrack] at hchar
  rw [List.cons_append, paramsSlices_front hopts.rfc5988 hnone, hchar]
  rfl

/-- A text that begins with a parameter is read as its segments. -/
theorem paramsParse_segments (hopts : HeaderOpts opts) (hi : i.Reads L opts) {gs : List Segment}
    (hgs : Anywhere opts gs) (params : Entries) :
    paramsParse L opts params (i.key ++
      segmentsText ((i.val.elim [] fun v => [⟨equalSign, .val false, v⟩]) ++ gs)) =
      (pushAll L opts ⟨params, none, none, false⟩
        (i.slices false ++ gs.map fun g => (g.phase, g.token))).map ParamsState.params := by
  have hkey := hi.fits comma false _ List.mem_cons_self
  have hchained : Chained opts .param
      ((i.val.elim [] fun v => [⟨equalSign, .val false, v⟩]) ++ gs) :=
    (hi.chained_val comma false).append (by simp) hgs
  rw [paramsParse, paramsLoop_eq, paramsSlices_init hopts hi.key_ne hkey.head,
    hkey.passes _ (by simp), List.nil_append, paramsSlices_segments hopts (by simp) hchained]
  congr 2
  cases hval : i.val <;> simp [ParamItem.slices, hval]

/-- What parameters with their arguments look like. -/
def groupsText (groups : List ParamGroup) : Bytes :=
  (segmentsText (groups.flatMap ParamGroup.segments)).tail

/-- Parameters are read as what they are written for. -/
theorem paramsParse_groups (hopts : HeaderOpts opts) (hparam : opts.param = [[comma]])
    {groups : List ParamGroup} (hne : groups ≠ []) (hgroups : ∀ p ∈ groups, p.Reads L opts)
    (hnodup : (groups.map fun p => p.param.name).Nodup) :
    paramsParse L opts [] (groupsText groups) = .ok (groups.map ParamGroup.entry) := by
  obtain ⟨st, hst, hparams⟩ := pushAll_groups hopts ⟨[], none, none, false⟩ hgroups
    (fun _ _ => rfl) hnodup
  obtain ⟨p, groups, rfl⟩ := List.exists_cons_of_ne_nil hne
  rw [List.forall_mem_cons] at hgroups
  have hrest : Anywhere opts (p.args.flatMap (·.segments semicolon true) ++
      groups.flatMap ParamGroup.segments) :=
    (anywhere_args hgroups.1.args).append (.flatMap fun q hq => (hgroups.2 q hq).anywhere hparam)
  have hparse := paramsParse_segments hopts hgroups.1.param hrest []
  have htext : groupsText (p :: groups) = p.param.key ++ segmentsText
      ((p.param.val.elim [] fun v => [⟨equalSign, .val false, v⟩]) ++
        (p.args.flatMap (·.segments semicolon true) ++ groups.flatMap ParamGroup.segments)) := by
    simp [groupsText, segmentsText, ParamGroup.segments, ParamItem.segments]
  have hslices : p.param.slices false ++ (p.args.flatMap (·.segments semicolon true) ++
      groups.flatMap ParamGroup.segments).map (fun g => (g.phase, g.token)) =
        (p :: groups).flatMap ParamGroup.slices := by
    rw [List.map_append, args_slices, List.map_flatMap, List.flatMap_cons, ParamGroup.slices,
      List.append_assoc]
    simp only [ParamGroup.segments_slices]
  rw [htext, hparse, hslices, hst]
  exact congrArg Except.ok hparams

end Text

end ExtHttp
