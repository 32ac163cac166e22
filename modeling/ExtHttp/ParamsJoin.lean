import ExtHttp.ParamsWrite
import ExtHttp.Pieces

/-!
# Parameters one behind the other

What the functions of `php_http_params_to_string` write does not depend on the buffer but for
whether there is something in it. An array that is treated as arguments stands behind the separator
of arguments.
-/
namespace ExtHttp

section Pieces
variable (L : ParamsLib) (fmt : ParamsFormat)

/-! ### What is written -/

mutual

/-- What `shift_arg` writes. -/
def argPieces (key : Bytes) : Value → List (Piece Byte)
  | .array ht =>
      let rfc5987 := decide (cString key = ascii "*rfc5987*")
      (if rfc5987 then [] else [(fmt.ass, prepareKey L fmt.flags key)]) ++ argsPieces rfc5987 ht
  | .null => [(fmt.ass, shiftScalar L fmt [] key .null)]
  | .bool b => [(fmt.ass, shiftScalar L fmt [] key (.bool b))]
  | .long n => [(fmt.ass, shiftScalar L fmt [] key (.long n))]
  | .str s => [(fmt.ass, shiftScalar L fmt [] key (.str s))]

def argsPieces (rfc5987 : Bool) : List (ArrayKey × Value) → List (Piece Byte)
  | [] => []
  | (key, v) :: ht =>
      (if rfc5987 && v.isArray then
        [(fmt.ass, shiftRfc5987 L fmt (prepareKey L fmt.flags key.stringify) v)]
      else argPieces key.stringify v) ++ argsPieces rfc5987 ht

end

mutual

def elementPieces (key : Bytes) : Value → List (Piece Byte)
  | .array ht => dimensionPieces key ht
  | .null => [(fmt.pss, shiftString L fmt [] key [])]
  | .bool b => [(fmt.pss, shiftString L fmt [] key (Value.bool b).toStr)]
  | .long n => [(fmt.pss, shiftString L fmt [] key (Value.long n).toStr)]
  | .str s => [(fmt.pss, shiftString L fmt [] key s)]

/-- What `prepare_dimension` writes. -/
def dimensionPieces (keybuf : Bytes) : List (ArrayKey × Value) → List (Piece Byte)
  | [] => []
  | (key, v) :: ht =>
      (match dimensionName key with
        | none => []
        | some name => elementPieces (keybuf ++ openBracket :: (name ++ [closeBracket])) v) ++
        dimensionPieces keybuf ht

end

/-- What `shift_param` writes. -/
def paramPieces (key : Bytes) (v : Value) (rfc5987 : Bool) : List (Piece Byte) :=
  match v with
  | .array ht =>
      if fmt.flags.dimension then dimensionPieces L fmt key ht
      else if rfc5987 then [(fmt.pss, shiftRfc5987 L fmt (prepareKey L fmt.flags key) v)]
      else argPieces L fmt key v
  | v => [(fmt.pss, shiftParam L fmt [] key v rfc5987)]

/-- What a turn of the loop writes. -/
def entryPieces (rfc5987 : Bool) (e : ArrayKey × Value) : List (Piece Byte) :=
  paramPieces L fmt e.1.stringify (paramValue e.2).1 (rfc5987 || (paramValue e.2).2) ++
    (paramArgs e.2).flatMap fun arg => argPieces L fmt arg.1.stringify arg.2

variable {L fmt} {buf key : Bytes}

theorem shiftKey_eq (sep : Bytes) : shiftKey L fmt buf key sep =
    (if buf = [] then buf else buf ++ sep) ++ prepareKey L fmt.flags key := rfl

theorem shiftVal_append (b : Bytes) (v : Value) : shiftVal L fmt (buf ++ b) v =
    buf ++ shiftVal L fmt b v := by
  unfold shiftVal
  split <;> simp only [List.append_assoc]

theorem shiftRfc5987_append (b : Bytes) (v : Value) :
    shiftRfc5987 L fmt (buf ++ b) v = buf ++ shiftRfc5987 L fmt b v := by
  unfold shiftRfc5987
  split <;> simp only [List.append_assoc]

theorem shiftScalar_eq (v : Value) : shiftScalar L fmt buf key v =
    writePieces buf [(fmt.ass, shiftScalar L fmt [] key v)] := by
  unfold shiftScalar shiftRfc5988Val
  rw [shiftKey_eq, shiftKey_eq, if_pos rfl, List.nil_append, writePieces_cons, writePieces_nil]
  dsimp only
  rw [shiftVal_append]
  split <;> simp only [List.append_assoc]

theorem shiftString_eq (s : Bytes) : shiftString L fmt buf key s =
    writePieces buf [(fmt.pss, shiftString L fmt [] key s)] := by
  unfold shiftString
  rw [shiftKey_eq, shiftKey_eq, if_pos rfl, List.nil_append, writePieces_cons, writePieces_nil,
    shiftVal_append]

theorem shiftExtended_eq (sep : Bytes) (v : Value) :
    shiftRfc5987 L fmt (shiftKey L fmt buf key sep) v =
    writePieces buf [(sep, shiftRfc5987 L fmt (prepareKey L fmt.flags key) v)] := by
  rw [shiftKey_eq, shiftRfc5987_append, writePieces_cons, writePieces_nil]

mutual

theorem shiftArg_eq (buf key : Bytes) :
    ∀ v, shiftArg L fmt buf key v = writePieces buf (argPieces L fmt key v)
  | .array ht => by
    rw [shiftArg, argPieces, writePieces_append, shiftArgs_eq]
    split_ifs <;> rfl
  | .null => shiftScalar_eq _
  | .bool _ => shiftScalar_eq _
  | .long _ => shiftScalar_eq _
  | .str _ => shiftScalar_eq _

theorem shiftArgs_eq (rfc5987 : Bool) (buf : Bytes) :
    ∀ ht, shiftArgs L fmt rfc5987 buf ht = writePieces buf (argsPieces L fmt rfc5987 ht)
  | [] => rfl
  | (key, v) :: ht => by
    rw [shiftArgs, argsPieces, writePieces_append, shiftArgs_eq, shiftExtended_eq, shiftArg_eq]
    split_ifs <;> rfl

end

mutual

theorem prepareElement_eq (buf key : Bytes) :
    ∀ v, prepareElement L fmt buf key v = writePieces buf (elementPieces L fmt key v)
  | .array ht => prepareDimension_eq buf key ht
  | .null => shiftString_eq _
  | .bool _ => shiftString_eq _
  | .long _ => shiftString_eq _
  | .str _ => shiftString_eq _

theorem prepareDimension_eq (buf keybuf : Bytes) :
    ∀ ht, prepareDimension L fmt buf keybuf ht = writePieces buf (dimensionPieces L fmt keybuf ht)
  | [] => rfl
  | (key, v) :: ht => by
    rw [prepareDimension, dimensionPieces, writePieces_append]
    cases dimensionName key with
    | none => exact prepareDimension_eq buf keybuf ht
    | some name =>
      dsimp only
      rw [prepareElement_eq, prepareDimension_eq]

end

theorem shiftParam_eq (buf key : Bytes) (v : Value) (rfc5987 : Bool) :
    shiftParam L fmt buf key v rfc5987 = writePieces buf (paramPieces L fmt key v rfc5987) := by
  have hscalar : ∀ v, shiftVal L fmt
      (if fmt.flags.rfc5988 then shiftRfc5988 L fmt buf key fmt.pss
        else shiftKey L fmt buf key fmt.pss) v =
      writePieces buf [(fmt.pss, shiftVal L fmt
        (if fmt.flags.rfc5988 then shiftRfc5988 L fmt [] key fmt.pss
          else shiftKey L fmt [] key fmt.pss) v)] := by
    intro v
    unfold shiftRfc5988
    rw [shiftKey_eq, shiftKey_eq, if_pos rfl, List.nil_append, writePieces_cons, writePieces_nil,
      ← shiftVal_append]
    split <;> simp only [List.append_assoc, List.nil_append]
  cases v with
  | array ht =>
    unfold shiftParam paramPieces
    dsimp only
    rw [prepareDimension_eq, shiftExtended_eq, shiftArg_eq]
    split_ifs <;> rfl
  | null => exact hscalar .null
  | bool b => exact hscalar (.bool b)
  | long n => exact hscalar (.long n)
  | str s => exact hscalar (.str s)

theorem foldl_shiftArg (args : Entries) (buf : Bytes) :
    args.foldl (fun buf arg => shiftArg L fmt buf arg.1.stringify arg.2) buf =
      writePieces buf (args.flatMap fun arg => argPieces L fmt arg.1.stringify arg.2) := by
  induction args generalizing buf with
  | nil => rfl
  | cons arg args ih => rw [List.foldl_cons, ih, List.flatMap_cons, writePieces_append, shiftArg_eq]

theorem shiftEntry_eq (x : Bytes × Bool) (e : ArrayKey × Value) : shiftEntry L fmt x e =
    (writePieces x.1 (entryPieces L fmt x.2 e), x.2 || (paramValue e.2).2) := by
  unfold shiftEntry entryPieces
  dsimp only
  rw [foldl_shiftArg, shiftParam_eq, ← writePieces_append]

/-! ### Separators -/

mutual

theorem argPieces_sep (key : Bytes) : ∀ v, ∀ p ∈ argPieces L fmt key v, p.1 = fmt.ass
  | .array ht => by
    intro p hp
    rw [argPieces, List.mem_append] at hp
    rcases hp with hp | hp
    · split_ifs at hp
      · cases hp
      · rw [List.mem_singleton.mp hp]
    · exact argsPieces_sep _ ht p hp
  | .null => by simp [argPieces]
  | .bool _ => by simp [argPieces]
  | .long _ => by simp [argPieces]
  | .str _ => by simp [argPieces]

theorem argsPieces_sep (rfc5987 : Bool) : ∀ ht, ∀ p ∈ argsPieces L fmt rfc5987 ht, p.1 = fmt.ass
  | [] => by simp [argsPieces]
  | (key, v) :: ht => by
    intro p hp
    rw [argsPieces, List.mem_append] at hp
    rcases hp with hp | hp
    · split_ifs at hp
      · rw [List.mem_singleton.mp hp]
      · exact argPieces_sep _ v p hp
    · exact argsPieces_sep _ ht p hp

end

mutual

theorem elementPieces_sep (key : Bytes) : ∀ v, ∀ p ∈ elementPieces L fmt key v, p.1 = fmt.pss
  | .array ht => dimensionPieces_sep key ht
  | .null => by simp [elementPieces]
  | .bool _ => by simp [elementPieces]
  | .long _ => by simp [elementPieces]
  | .str _ => by simp [elementPieces]

theorem dimensionPieces_sep (keybuf : Bytes) : ∀ ht, ∀ p ∈ dimensionPieces L fmt keybuf ht,
    p.1 = fmt.pss
  | [] => by simp [dimensionPieces]
  | (key, v) :: ht => by
    intro p hp
    rw [dimensionPieces, List.mem_append] at hp
    rcases hp with hp | hp
    · cases hname : dimensionName key with
      | none =>
        rw [hname] at hp
        cases hp
      | some name =>
        rw [hname] at hp
        exact elementPieces_sep _ v p hp
    · exact dimensionPieces_sep keybuf ht p hp

end

variable (fmt) in
/-- An array that is neither a dimension nor an extended value is treated as arguments. -/
def asArguments (e : ArrayKey × Value) : Bool :=
  !fmt.flags.dimension && (paramValue e.2).1.isArray && !(paramValue e.2).2

theorem paramPieces_sep (e : ArrayKey × Value) :
    ∀ p ∈ paramPieces L fmt e.1.stringify (paramValue e.2).1 (paramValue e.2).2,
      p.1 = if asArguments fmt e then fmt.ass else fmt.pss := by
  intro p hp
  unfold asArguments
  cases hv : (paramValue e.2).1 with
  | array ht =>
    rw [hv, paramPieces] at hp
    split_ifs at hp with hdim hext
    · rw [dimensionPieces_sep _ _ p hp]
      simp [hdim]
    · rw [List.mem_singleton.mp hp]
      simp [hext]
    · rw [argPieces_sep _ _ p hp]
      simp [hdim, hext, Value.isArray]
  | _ =>
    rw [hv] at hp
    rw [List.mem_singleton.mp hp]
    simp [Value.isArray]

/-- Only arrays that are treated as arguments have to do with what was before them. -/
theorem entryPieces_eq {e : ArrayKey × Value} (h : asArguments fmt e = false) (rfc5987 : Bool) :
    entryPieces L fmt rfc5987 e = entryPieces L fmt false e := by
  unfold entryPieces
  congr 1
  cases hv : (paramValue e.2).1 with
  | array ht =>
    unfold paramPieces
    dsimp only
    by_cases hdim : fmt.flags.dimension = true
    · rw [if_pos hdim, if_pos hdim]
    · have hext : (paramValue e.2).2 = true := by
        simpa [asArguments, hv, hdim, Value.isArray] using h
      rw [hext, Bool.or_true, Bool.or_true]
  | _ => rfl

/-! ### The whole -/

/-- What an entry has in front of it behind others. -/
def entryLead (L : ParamsLib) (fmt : ParamsFormat) (e : ArrayKey × Value) : Bytes :=
  leadingSep (entryPieces L fmt false e)

/-- The first text is not empty: the key, and the value unless that is an array. -/
def Opens (L : ParamsLib) (fmt : ParamsFormat) (e : ArrayKey × Value) : Prop :=
  ∃ p ∈ (paramPieces L fmt e.1.stringify (paramValue e.2).1 (paramValue e.2).2).head?, p.2 ≠ []

theorem entryLead_eq {e : ArrayKey × Value} (h : Opens L fmt e) :
    entryLead L fmt e = if asArguments fmt e then fmt.ass else fmt.pss := by
  obtain ⟨p, hp, hne⟩ := h
  obtain ⟨ps, hps⟩ := List.head?_eq_some_iff.mp hp
  rw [entryLead, entryPieces, Bool.false_or, hps, List.cons_append, leadingSep_of_ne_nil _ hne]
  exact paramPieces_sep e p (hps ▸ List.mem_cons_self)

theorem foldl_shiftEntry {params : Entries}
    (hstale : params.Pairwise fun e e' => (paramValue e.2).2 = true → asArguments fmt e' = false)
    {rfc5987 : Bool} (hrfc5987 : rfc5987 = true → ∀ e ∈ params, asArguments fmt e = false)
    (buf : Bytes) :
    (params.foldl (shiftEntry L fmt) (buf, rfc5987)).1 =
      writePieces buf (params.flatMap (entryPieces L fmt false)) := by
  induction params generalizing buf rfc5987 with
  | nil => rfl
  | cons e params ih =>
    obtain ⟨hhead, htail⟩ := List.pairwise_cons.mp hstale
    have he : entryPieces L fmt rfc5987 e = entryPieces L fmt false e := by
      cases rfc5987 with
      | false => rfl
      | true => exact entryPieces_eq (hrfc5987 rfl e List.mem_cons_self) true
    rw [List.foldl_cons, shiftEntry_eq, List.flatMap_cons, writePieces_append, he]
    refine ih htail (fun h e' he' => ?_) _
    rcases Bool.or_eq_true_iff.mp h with h | h
    · exact hrfc5987 h e' (List.mem_cons_of_mem _ he')
    · exact hhead e' he' h

theorem paramsToString_single (e : ArrayKey × Value) :
    paramsToString L fmt [] [e] = writePieces [] (entryPieces L fmt false e) := by
  rw [paramsToString, foldl_shiftEntry (List.pairwise_singleton _ e) fun h =>
    absurd h Bool.false_ne_true, List.flatMap_singleton]

end Pieces

/-- Each entry is written as if it were alone, but for what is in front of it. -/
theorem paramsToString_join (L : ParamsLib) (fmt : ParamsFormat) {params : Entries}
    (halone : ∀ e ∈ params, paramsToString L fmt [] [e] ≠ [])
    (hstale : params.Pairwise fun e e' => (paramValue e.2).2 = true → asArguments fmt e' = false) :
    paramsToString L fmt [] params =
      (params.head?.elim [] fun e => paramsToString L fmt [] [e]) ++
        params.tail.flatMap (fun e => entryLead L fmt e ++ paramsToString L fmt [] [e]) ∧
    ∀ e ∈ params, Opens L fmt e → entryLead L fmt e = if asArguments fmt e then fmt.ass
      else fmt.pss := by
  refine ⟨?_, fun e _ hopens => entryLead_eq hopens⟩
  cases params with
  | nil => rfl
  | cons e params =>
    have hfirst := halone e List.mem_cons_self
    rw [paramsToString_single] at hfirst
    rw [paramsToString, foldl_shiftEntry hstale fun h => absurd h Bool.false_ne_true,
      writePieces_flatMap _ hfirst]
    simp only [paramsToString_single]
    rfl

/-- `a=b` and the array `c` with `d=e`. -/
def valueAndArray : Entries :=
  [(symKey (ascii "a"), .str (ascii "b")),
    (symKey (ascii "c"), .array [(symKey (ascii "d"), .str (ascii "e"))])]

theorem paramsToString_args :
    paramsToString plainParamsLib paramsFormatDefault [] valueAndArray =
      ascii "a=b" ++ [semicolon] ++ ascii "c;d=e" := by
  have halone : ∀ e ∈ valueAndArray,
      paramsToString plainParamsLib paramsFormatDefault [] [e] ≠ [] := by
    decide
  obtain ⟨hall, hlead⟩ := paramsToString_join plainParamsLib paramsFormatDefault halone (by decide)
  have hopens := hlead (symKey (ascii "c"), .array [(symKey (ascii "d"), .str (ascii "e"))])
    (List.mem_cons_of_mem _ List.mem_cons_self) ⟨_, rfl, by decide⟩
  rw [hall, valueAndArray, List.tail_cons, List.flatMap_singleton, hopens]
  decide

/-- An array is treated as arguments, it does not stand behind a comma. -/
theorem paramsToString_comma :
    (∀ e ∈ valueAndArray, paramsToString plainParamsLib paramsFormatDefault [] [e] ≠ []) ∧
      paramsToString plainParamsLib paramsFormatDefault [] valueAndArray ≠
        [comma].intercalate (valueAndArray.map fun e =>
          paramsToString plainParamsLib paramsFormatDefault [] [e]) := by
  decide

end ExtHttp
