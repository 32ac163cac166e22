import ExtHttp.ParamsItems

/-!
# Parameters of strings

Names and values of any characters are quoted where they have to be, and read back as they were.
-/
namespace ExtHttp

/-- A library with the functions of PHP. -/
def Cslashed (L : ParamsLib) : Prop := L.addcslashes = phpAddcslashes ∧
    L.stripcslashes = phpStripcslashes

/-- A string whose closing quote, if it gets one, is not behind a backslash. -/
def Closes (s : Bytes) : Prop := s.getLast? ≠ some backslash

instance (s : Bytes) : Decidable (Closes s) := inferInstanceAs (Decidable (_ ≠ _))

/-! ### A string -/

/-- What does not have to be quoted has no character of the syntax, and no blank. -/
def IsBare (s : Bytes) : Prop := ∀ c ∈ s, isCslashed c = false ∧ c ∉ ascii "()<>@,;:\"[]?=\x7b\x7d "

theorem isBare_char : ∀ c : Byte, isCslashed c = false ∧ c ∉ ascii "()<>@,;:\"[]?=\x7b\x7d " →
    IsPlain c ∧ isTrimmed c = false := by
  decide +kernel

section
variable {L : ParamsLib} {opts : ParamsOpts} {s : Bytes}

theorem quoteString_cases (hL : Cslashed L) (s : Bytes) :
    quoteString L s false = quote :: (phpAddcslashes s ++ [quote]) ∨
      quoteString L s false = s ∧ IsBare s := by
  unfold quoteString
  dsimp only
  rw [hL.1, cString_of_noNul (nul_notMem_phpAddcslashes s)]
  split_ifs with h
  · exact .inl rfl
  · simp only [Bool.or_eq_true, Bool.false_eq_true, false_or, decide_eq_true_eq, ne_eq, not_or,
      Decidable.not_not] at h
    have hslashed := phpAddcslashes_length_eq h.1
    have hsame := phpAddcslashes_plain hslashed
    rw [hsame] at h ⊢
    refine .inr ⟨rfl, fun c hc => ⟨hslashed c hc, fun hmem => h.2 ?_⟩⟩
    exact List.any_eq_true.mpr ⟨c, hc, decide_eq_true hmem⟩

theorem quoteString_eq_nil (hL : Cslashed L) : quoteString L s false = [] ↔ s = [] := by
  rcases quoteString_cases hL s with h | ⟨h, -⟩
  · refine iff_of_false (by simp [h]) ?_
    rintro rfl
    have hadd : L.addcslashes [] = [] := by
      rw [hL.1]
      rfl
    simp [quoteString, hadd, cString] at h
  · rw [h]

theorem quoteString_passes (hopts : HeaderOpts opts) (hL : Cslashed L) (hs : Closes s) :
    Passes opts (quoteString L s false) := by
  rcases quoteString_cases hL s with h | ⟨h, hbare⟩
  · rw [h]
    exact passes_quoted hopts hs
  · rw [h]
    exact passes_plain hopts fun c hc => (isBare_char c (hbare c hc)).1

theorem quoteString_head (hL : Cslashed L) : ∀ c ∈ (quoteString L s false).head?,
    c ≠ comma ∧ c ≠ semicolon ∧ c ≠ equalSign := by
  rcases quoteString_cases hL s with h | ⟨h, hbare⟩
  · rw [h]
    intro c hc
    obtain rfl : quote = c := Option.some.inj hc
    decide
  · rw [h]
    intro c hc
    obtain ⟨hcomma, hsemicolon, hequal, -⟩ := (isBare_char c (hbare c (List.mem_of_mem_head? hc))).1
    exact ⟨hcomma, hsemicolon, hequal⟩

/-- There is nothing to trim. -/
theorem quoteString_trim (hL : Cslashed L) (s : Bytes) :
    phpTrim isTrimmed (quoteString L s false) = quoteString L s false := by
  rcases quoteString_cases hL s with h | ⟨h, hbare⟩
  · have hlast : (quote :: (phpAddcslashes s ++ [quote])).getLast? = some quote := by
      rw [← List.cons_append, List.getLast?_concat]
    have htrim := @phpTrim_surrounded isTrimmed [] (quote :: (phpAddcslashes s ++ [quote])) []
      (by simp) (by simp; decide) (by rw [hlast]; simp; decide) (by simp)
    rw [h]
    simpa using htrim
  · rw [h]
    exact phpTrim_plain fun c hc => (isBare_char c (hbare c hc)).2

theorem quoteString_unescape (hL : Cslashed L) (s : Bytes) :
    unescape L paramsDefault (quoteString L s false) = .ok s := by
  have hstrip : ∀ t, phpAddcslashes t = t → phpStripcslashes t = t := fun t ht => by
    conv_lhs => rw [← ht, phpStripcslashes_phpAddcslashes]
  rw [unescape, if_pos (by decide), sanitizeEscaped]
  rcases quoteString_cases hL s with h | ⟨h, hbare⟩
  · have hlast : (quote :: (phpAddcslashes s ++ [quote])).getLast? = some quote := by
      rw [← List.cons_append, List.getLast?_concat]
    rw [h, if_pos ⟨rfl, hlast⟩, if_neg (by simp), hL.2, List.tail_cons, List.dropLast_concat,
      phpStripcslashes_phpAddcslashes]
  · have hhead : ¬ (s.head? = some quote ∧ s.getLast? = some quote) := fun hq =>
      (isBare_char _ (hbare _ (List.mem_of_mem_head? hq.1))).1.2.2.2.1 rfl
    rw [h, if_neg hhead, hL.2, hstrip s (phpAddcslashes_plain fun c hc => (hbare c hc).1)]

theorem quoteString_key (hL : Cslashed L) (hne : s ≠ []) (hlast : s.getLast? ≠ some asterisk) :
    sanitizeKey L paramsDefault (quoteString L s false) = .ok (.str s, false) := by
  unfold sanitizeKey
  dsimp only
  rw [quoteString_trim hL, quoteString_unescape hL]
  simp [bind, Except.bind, hne, paramsDefault, hlast]

theorem quoteString_value (hL : Cslashed L) (s : Bytes) :
    sanitizeValue L paramsDefault (quoteString L s false) false = .ok (.str s) := by
  unfold sanitizeValue valueText
  rw [quoteString_trim hL]
  dsimp only
  rw [if_neg Bool.false_ne_true, quoteString_unescape hL]
  simp [bind, Except.bind, paramsDefault]

end

/-! ### Names and values -/

/-- A name, and a string if it is not just true. -/
structure NamedString where
  name : Bytes
  value : Option Bytes
  name_ne : name ≠ []
  name_last : name.getLast? ≠ some asterisk
  name_closes : Closes name
  value_closes : ∀ s ∈ value, Closes s

namespace NamedString

def valueOf (a : NamedString) : Value := a.value.elim (.bool true) .str

def entry (a : NamedString) : ArrayKey × Value := (symKey a.name, a.valueOf)

def item (L : ParamsLib) (a : NamedString) : ParamItem :=
  ⟨quoteString L a.name false, a.value.map fun s => quoteString L s false, a.name, a.value⟩

variable {L : ParamsLib} {opts : ParamsOpts}

theorem item_reads (hopts : HeaderOpts opts) (hL : Cslashed L) (a : NamedString) :
    (a.item L).Reads L opts where
  key_ne := fun h => a.name_ne ((quoteString_eq_nil hL).mp h)
  key := by
    rw [hopts.flags]
    exact quoteString_key hL a.name_ne a.name_last
  name_ne := a.name_ne
  isSome := Option.isSome_map
  val v hv s hs := by
    have hvalue : a.value = some s := hs
    rw [item, hvalue, Option.map_some, Option.mem_some_iff] at hv
    subst hv
    rw [hopts.flags]
    by_cases hempty : s = []
    · exact .inl ⟨(quoteString_eq_nil hL).mpr hempty, hempty⟩
    · exact .inr ⟨fun h => hempty ((quoteString_eq_nil hL).mp h), quoteString_value hL s⟩
  fits sep ofArg g hg := by
    rw [ParamItem.segments, List.mem_cons] at hg
    rcases hg with rfl | hg
    · exact ⟨quoteString_passes hopts hL a.name_closes, quoteString_head hL,
        fun h => absurd ((quoteString_eq_nil hL).mp h) a.name_ne⟩
    · cases hvalue : a.value with
      | none => simp [item, hvalue] at hg
      | some s =>
        simp only [item, hvalue, Option.map_some, Option.elim_some, List.mem_singleton] at hg
        subst hg
        refine ⟨quoteString_passes hopts hL (a.value_closes s hvalue), quoteString_head hL,
          fun _ => ?_⟩
        cases ofArg with
        | false => exact .inl rfl
        | true => exact .inr rfl

end NamedString

/-- A parameter with its arguments. -/
structure NamedParam where
  param : NamedString
  args : List NamedString
  nodup : (args.map NamedString.name).Nodup

namespace NamedParam

/-- As it is written and read. -/
def entry (p : NamedParam) : ArrayKey × Value :=
  (symKey p.param.name, .array [(valueKey, p.param.valueOf),
    (argumentsKey, .array (p.args.map NamedString.entry))])

def group (L : ParamsLib) (p : NamedParam) : ParamGroup :=
  ⟨p.param.item L, p.args.map (NamedString.item L)⟩

theorem group_entry (L : ParamsLib) (p : NamedParam) : (p.group L).entry = p.entry := by
  rw [ParamGroup.entry, group, List.map_map]
  rfl

theorem group_reads {L : ParamsLib} {opts : ParamsOpts} (hopts : HeaderOpts opts) (hL : Cslashed L)
    (p : NamedParam) :
    (p.group L).Reads L opts where
  param := p.param.item_reads hopts hL
  args a ha := by
    obtain ⟨b, -, rfl⟩ := List.mem_map.mp ha
    exact b.item_reads hopts hL
  nodup := by
    rw [group, List.map_map]
    exact p.nodup

end NamedParam

/-! ### The text -/

section
variable {L : ParamsLib}

/-- The text of a name with its value. -/
def NamedString.text (L : ParamsLib) (a : NamedString) : Bytes :=
  quoteString L a.name false ++ a.value.elim [] fun s => equalSign :: quoteString L s false

theorem NamedString.text_ne (hL : Cslashed L) (a : NamedString) : a.text L ≠ [] :=
  List.append_ne_nil_of_left_ne_nil (fun h => a.name_ne ((quoteString_eq_nil hL).mp h)) _

theorem shiftVal_named (a : NamedString) (buf : Bytes) :
    shiftVal L paramsFormatDefault buf a.valueOf =
    buf ++ a.value.elim [] fun s => equalSign :: quoteString L s false := by
  unfold NamedString.valueOf
  cases a.value with
  | none => simp [shiftVal]
  | some s => simp [shiftVal, prepareValue, paramsFormatDefault, paramsDefault, Value.toStr]

theorem argPieces_named (a : NamedString) :
    argPieces L paramsFormatDefault a.entry.1.stringify a.entry.2 = [([semicolon], a.text L)] := by
  have hkey : shiftKey L paramsFormatDefault [] a.name [semicolon] =
      quoteString L a.name false := by
    simp [shiftKey, prepareKey, paramsFormatDefault, paramsDefault]
  have hscalar : shiftScalar L paramsFormatDefault [] a.name a.valueOf = a.text L := by
    rw [shiftScalar, show paramsFormatDefault.ass = [semicolon] from rfl, hkey]
    exact shiftVal_named a _
  rw [NamedString.entry, stringify_symKey, ← hscalar]
  unfold NamedString.valueOf
  cases a.value with
  | none => rfl
  | some s => rfl

theorem entryPieces_named (p : NamedParam) : entryPieces L paramsFormatDefault false p.entry =
    ([comma], p.param.text L) :: p.args.map fun a => ([semicolon], a.text L) := by
  have hne : valueKey ≠ argumentsKey := by decide
  have hvalue : paramValue p.entry.2 = (p.param.valueOf, false) := by
    simp [paramValue, NamedParam.entry, Entries.find_cons]
  have hargs : paramArgs p.entry.2 = p.args.map NamedString.entry := by
    simp [paramArgs, NamedParam.entry, Entries.find_cons, hne]
  have hkey : shiftKey L paramsFormatDefault [] p.param.name [comma] =
      quoteString L p.param.name false := by
    simp [shiftKey, prepareKey, paramsFormatDefault, paramsDefault]
  have hshift : shiftVal L paramsFormatDefault (quoteString L p.param.name false) p.param.valueOf =
      p.param.text L :=
    shiftVal_named p.param _
  have hparam : paramPieces L paramsFormatDefault p.entry.1.stringify p.param.valueOf false =
      [([comma], p.param.text L)] := by
    rw [NamedParam.entry, stringify_symKey, ← hshift, ← hkey]
    unfold NamedString.valueOf
    cases p.param.value with
    | none => rfl
    | some s => rfl
  rw [entryPieces, hvalue, hargs, Bool.false_or, hparam, List.singleton_append, List.flatMap_map]
  simp only [argPieces_named, ← List.map_eq_flatMap]

theorem segmentsText_item (a : NamedString) (sep : Byte) (ofArg : Bool) (gs : List Segment) :
    segmentsText ((a.item L).segments sep ofArg ++ gs) = sep :: (a.text L ++ segmentsText gs) := by
  cases hvalue : a.value <;>
    simp [segmentsText, ParamItem.segments, NamedString.item, NamedString.text, hvalue]

theorem segmentsText_args (args : List NamedString) (gs : List Segment) :
    segmentsText ((args.map (NamedString.item L)).flatMap (·.segments semicolon true) ++ gs) =
      (args.flatMap fun a => semicolon :: a.text L) ++ segmentsText gs := by
  induction args with
  | nil => rfl
  | cons a args ih =>
    rw [List.map_cons, List.flatMap_cons, List.append_assoc, segmentsText_item, ih,
      List.flatMap_cons, List.cons_append, List.cons_append, List.append_assoc]

theorem segmentsText_groups (params : List NamedParam) :
    segmentsText ((params.map (NamedParam.group L)).flatMap ParamGroup.segments) =
      (params.flatMap fun p => entryPieces L paramsFormatDefault false p.entry).flatMap fun p =>
        p.1 ++ p.2 := by
  induction params with
  | nil => rfl
  | cons p params ih =>
    rw [List.map_cons, List.flatMap_cons, ParamGroup.segments, NamedParam.group, List.append_assoc,
      segmentsText_item, segmentsText_args, ih, List.flatMap_cons, entryPieces_named,
      List.flatMap_append, List.flatMap_cons, List.flatMap_map]
    simp

/-- What is written is the text of these groups. -/
theorem paramsToString_named (hL : Cslashed L) {params : List NamedParam} (hne : params ≠ []) :
    paramsToString L paramsFormatDefault [] (params.map NamedParam.entry) =
      groupsText (params.map (NamedParam.group L)) := by
  have hfold := @foldl_shiftEntry L paramsFormatDefault (params.map NamedParam.entry) ?_ false
    (by simp) []
  · rw [paramsToString, hfold, groupsText, segmentsText_groups, List.flatMap_map]
    obtain ⟨p, params, rfl⟩ := List.exists_cons_of_ne_nil hne
    rw [List.flatMap_cons, entryPieces_named, List.cons_append, writePieces_cons, if_pos rfl,
      List.nil_append, writePieces_of_ne_nil _ (p.param.text_ne hL), List.flatMap_cons]
    rfl
  · have hplain : ∀ p : NamedParam, (paramValue p.entry.2).2 = false := fun p => by
      simp [NamedParam.entry, paramValue, Entries.find_cons]
    rw [List.pairwise_map]
    exact List.pairwise_of_forall fun p _ h => absurd ((hplain p).symm.trans h) Bool.false_ne_true

/-- Parameters that are written and read come back in their order, with their values and arguments,
whatever is in the strings. -/
theorem paramsParse_paramsToString (hL : Cslashed L) {params : List NamedParam} (hne : params ≠ [])
    (hnodup : (params.map fun p => p.param.name).Nodup) :
    paramsParse L paramsOptsDefault [] (paramsToString L paramsFormatDefault []
      (params.map NamedParam.entry)) = .ok (params.map NamedParam.entry) := by
  have hreads : ∀ g ∈ params.map (NamedParam.group L), g.Reads L paramsOptsDefault := fun g hg => by
    obtain ⟨p, -, rfl⟩ := List.mem_map.mp hg
    exact p.group_reads headerOpts_default hL
  have hnames : ((params.map (NamedParam.group L)).map fun g => g.param.name).Nodup := by
    rw [List.map_map]
    exact hnodup
  have hparse := paramsParse_groups headerOpts_default rfl (by simpa using hne) hreads hnames
  rw [List.map_map] at hparse
  rw [paramsToString_named hL hne, hparse]
  congr 1
  exact List.map_congr_left fun p _ => p.group_entry L

end

/-- The library of PHP, for text without extended values. -/
def cslashLib : ParamsLib := ⟨phpStripcslashes, phpAddcslashes, 64, fun _ => 0, true⟩

theorem five_ne : ascii "5" ≠ [] := by decide

theorem five_last : (ascii "5").getLast? ≠ some asterisk := by decide

/-- `a\"b` and an empty string. -/
def quotedParam : NamedParam where
  param := ⟨ascii "x y", some (ascii "a" ++ [backslash, quote] ++
    ascii "b;"), by decide, by decide, by decide, by decide⟩
  args := [⟨ascii "5", some [], five_ne, five_last, by decide, by decide⟩]
  nodup := by decide

theorem paramsParse_quoted :
    paramsParse cslashLib paramsOptsDefault []
        (ascii "\"x y\"=\"a\\\\\\\"b;\";5=") = .ok [quotedParam.entry] := by
  have htext : paramsToString cslashLib paramsFormatDefault [] [quotedParam.entry] =
      ascii "\"x y\"=\"a\\\\\\\"b;\";5=" := by decide
  rw [← htext]
  exact paramsParse_paramsToString ⟨rfl, rfl⟩ (List.cons_ne_nil quotedParam []) (by simp)

end ExtHttp
