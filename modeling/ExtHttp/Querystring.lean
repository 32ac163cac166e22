import ExtHttp.ParamsSeparators
import ExtHttp.ValueLeaves

/-!
# Query strings

`php_http_querystring_parse`, and what a query string of pairs `name[key]...=value` looks like.
-/
namespace ExtHttp

def ampersand : Byte := 38

/-- `PHP_HTTP_PARAMS_QUERY` -/
def paramsQuery : ParamsFlags := ⟨false, true, true, false, false⟩

/-- The options of `php_http_querystring_parse`; `asi` is the setting `arg_separator.input`. -/
def queryOpts (asi : Bytes) : ParamsOpts :=
  ⟨if asi = [] then [[ampersand]] else asi.map ([·]), [], [[equalSign]], some (.bool true),
    paramsQuery⟩

/-- `apply_querystring` -/
def applyQuerystring : Value → Value
  | .array prm => (Entries.find prm valueKey).getD (.array prm)
  | v => v

/-- `php_http_querystring_parse` -/
def querystringParse (L : ParamsLib) (asi : Bytes) (ht : Entries) (str : Bytes) :
    Except ParamsFault Entries :=
  (paramsParse L (queryOpts asi) ht str).map fun ht => ht.map fun e => (e.1, applyQuerystring e.2)

/-! ### Quotes -/

/-- Behind a text: whether quotes are open, and whether the last character escapes the next one. -/
def quoteState (s : Bytes) (st : Bool × Bool) : Bool × Bool :=
  s.foldl (fun st c => trackQuotes paramsQuery .param st.1 st.2 c) st

/-- All quotes of a text are closed. -/
def QuotesClosed (s : Bytes) : Prop := (quoteState s (false, false)).1 = false

instance (s : Bytes) : Decidable (QuotesClosed s) :=
  inferInstanceAs (Decidable ((quoteState s (false, false)).1 = false))

theorem quoteState_cons (c : Byte) (s : Bytes) (st : Bool × Bool) :
    quoteState (c :: s) st = quoteState s (trackQuotes paramsQuery .param st.1 st.2 c) := rfl

theorem quoteState_plain {s : Bytes} (hs : quote ∉ s) (st : Bool × Bool) :
    (quoteState s st).1 = st.1 := by
  induction s generalizing st with
  | nil => rfl
  | cons c s ih =>
    have hc : c ≠ quote := fun h => hs (h ▸ List.mem_cons_self)
    rw [quoteState_cons, ih fun h => hs (List.mem_cons_of_mem _ h)]
    simp [trackQuotes, paramsQuery, hc]

/-- Without quotes none is open. -/
theorem quotesClosed_plain {s : Bytes} (hs : quote ∉ s) : QuotesClosed s := quoteState_plain hs _

/-- Separators in front of a value do not count. -/
theorem quotesClosed_dropWhile (s : Bytes) :
    QuotesClosed (s.dropWhile fun c => c = equalSign) ↔ QuotesClosed s := by
  induction s with
  | nil => exact Iff.rfl
  | cons c s ih =>
    rw [List.dropWhile_cons]
    split_ifs with hc
    · obtain rfl := of_decide_eq_true hc
      exact ih
    · exact Iff.rfl

/-! ### Pairs -/

/-- A name or a key as it stands in a query string, with percent signs. -/
structure QueryName where
  text : Bytes
  ne : text ≠ []
  plain : ∀ c ∈ text, c ≠ ampersand ∧ c ≠ equalSign
  bracketFree : ∀ c ∈ urlDecode text, c ≠ openBracket ∧ c ≠ closeBracket

def QueryName.key (k : QueryName) : ArrayKey := symKey (urlDecode k.text)

/-- The text between brackets -/
def QueryName.bracketed (k : QueryName) : Bytes := openBracket :: (k.text ++ [closeBracket])

structure QueryPair where
  name : QueryName
  keys : List QueryName
  value : Bytes
  plain : ∀ c ∈ value, c ≠ ampersand

namespace QueryPair

def path (x : QueryPair) : Path := x.name.key :: x.keys.map QueryName.key

def leaf (x : QueryPair) : Value := .str (urlDecode x.value)

def key (x : QueryPair) : Bytes := x.name.text ++ x.keys.flatMap QueryName.bracketed

/-- What the parser takes for the value: all equal signs in a row are one separator. -/
def taken (x : QueryPair) : Bytes := x.value.dropWhile fun c => c = equalSign

/-- What it makes of it. -/
def stored (x : QueryPair) : Value := .str (urlDecode (phpTrim isTrimmed x.taken))

/-- A value of which nothing is left out. -/
def Kept (x : QueryPair) : Prop :=
  phpTrim isTrimmed x.value = x.value ∧ x.value.head? ≠ some equalSign

theorem key_plain (x : QueryPair) : ∀ c ∈ x.key, c ≠ ampersand ∧ c ≠ equalSign := by
  intro c hc
  rcases List.mem_append.mp hc with hc | hc
  · exact x.name.plain c hc
  · obtain ⟨k, -, hc⟩ := List.mem_flatMap.mp hc
    simp only [QueryName.bracketed, List.mem_cons, List.mem_append, List.not_mem_nil,
      or_false] at hc
    rcases hc with rfl | hc | rfl
    · decide
    · exact k.plain c hc
    · decide

theorem key_ne (x : QueryPair) : x.key ≠ [] := List.append_ne_nil_of_left_ne_nil x.name.ne _

end QueryPair

/-- Names and values, with their separators. -/
def joinPairs : List (Bytes × Bytes) → Bytes
  | [] => []
  | kv :: kvs =>
      kv.1 ++ equalSign :: (kv.2 ++ kvs.flatMap fun kv => ampersand :: (kv.1 ++ equalSign :: kv.2))

def queryText (pairs : List QueryPair) : Bytes := joinPairs (pairs.map fun x => (x.key, x.value))

/-! ### The slices of a query string -/

section Slices
variable {phase : ParamsPhase}

/-- What is no separator goes to the slice. -/
theorem paramsTurn_query (hphase : phase ≠ .start) {c : Byte} (hamp : c ≠ ampersand)
    (hequal : c = equalSign → phase = .val false) (quotes escape : Bool)
    (slice input rest : Bytes) :
    paramsTurn (queryOpts [ampersand]) ⟨phase, quotes, escape, slice, input⟩ c rest =
      (false, ⟨phase, (trackQuotes paramsQuery .param quotes escape c).1,
        (trackQuotes paramsQuery .param quotes escape c).2, slice ++ [c], rest⟩) := by
  have htrack : trackQuotes (queryOpts [ampersand]).flags phase quotes escape c =
      trackQuotes paramsQuery .param quotes escape c := rfl
  have hparam : ∀ quotes escape,
      ¬ 0 < checkSep quotes escape (queryOpts [ampersand]).param (c :: rest) := by
    intro quotes escape hpos
    refine hpos.ne' (checkSep_eq_zero (fun sep hsep _ hpre => ?_) quotes escape)
    rw [List.mem_singleton.mp hsep, List.cons_prefix_cons] at hpre
    exact hamp hpre.1.symm
  have harg : ∀ quotes escape,
      ¬ 0 < checkSep quotes escape (queryOpts [ampersand]).arg
        (c :: rest) := fun quotes escape hpos =>
    hpos.ne' (checkSep_eq_zero (fun sep hsep => absurd hsep List.not_mem_nil) quotes escape)
  have hval : ∀ quotes escape, ¬ (0 <
      checkSep quotes escape (queryOpts [ampersand]).val (c :: rest) ∧
      phase ≠ .val false ∧ phase ≠ .val true) := by
    rintro quotes escape ⟨hpos, hnot, -⟩
    refine hpos.ne' (checkSep_eq_zero (fun sep hsep _ hpre => ?_) quotes escape)
    rw [List.mem_singleton.mp hsep, List.cons_prefix_cons] at hpre
    exact hnot (hequal hpre.1.symm)
  unfold paramsTurn
  dsimp only
  rw [htrack, if_neg hphase, if_neg (hparam _ _), if_neg (harg _ _), if_neg (hval _ _)]

theorem paramsSlices_query (hphase : phase ≠ .start) {w : Bytes}
    (hw : ∀ c ∈ w, c ≠ ampersand ∧ (c = equalSign → phase = .val false)) (st : Bool × Bool)
    (slice rest : Bytes) :
    paramsSlices (queryOpts [ampersand]) ⟨phase, st.1, st.2, slice, w ++ rest⟩ =
      paramsSlices (queryOpts [ampersand])
        ⟨phase, (quoteState w st).1, (quoteState w st).2, slice ++ w, rest⟩ := by
  induction w generalizing st slice with
  | nil => rw [List.nil_append, List.append_nil]; rfl
  | cons c w ih =>
    rw [List.forall_mem_cons] at hw
    rw [List.cons_append, paramsSlices_go rfl (paramsTurn_query hphase hw.1.1 hw.1.2 _ _ _ _ _),
      quoteState_cons, ih hw.2, List.append_assoc]
    rfl

theorem skipSep_equal (s : Bytes) :
    skipSep false false [[equalSign]] s = s.dropWhile fun c => c = equalSign := by
  induction s with
  | nil => exact skipSep_of_zero rfl
  | cons c s ih =>
    have hcheck := checkSep_char equalSign c s
    rw [List.dropWhile_cons]
    by_cases hc : equalSign = c
    · rw [if_pos hc] at hcheck
      rw [skipSep, hcheck, if_neg one_ne_zero, if_pos (decide_eq_true hc.symm)]
      exact ih
    · rw [if_neg hc] at hcheck
      rw [skipSep_of_zero hcheck, if_neg (by simp [Ne.symm hc])]

/-- Behind a name its value begins. -/
theorem paramsSlices_equal (escape : Bool) (slice rest : Bytes) :
    paramsSlices (queryOpts [ampersand]) ⟨.param, false, escape, slice, equalSign :: rest⟩ =
      (.param, slice) :: paramsSlices (queryOpts [ampersand])
        ⟨.val false, false, false, [], rest.dropWhile fun c => c = equalSign⟩ := by
  have hturn : paramsTurn (queryOpts [ampersand]) ⟨.param, false, escape, slice, equalSign :: rest⟩
      equalSign rest =
        (true, ⟨.val false, false, false, [], skipSep false false [[equalSign]] rest⟩) := rfl
  rw [paramsSlices_turn rfl, hturn, if_pos rfl, skipSep_equal]

theorem noSep_query {c : Byte} (hc : c ≠ ampersand ∧ c ≠ equalSign) (rest : Bytes) :
    ∀ sep ∈ (queryOpts [ampersand]).seps, ¬ sep <+: c :: rest := by
  have hseps : (queryOpts [ampersand]).seps = [[ampersand], [equalSign]] := rfl
  rw [hseps]
  simp [List.cons_prefix_cons, Ne.symm hc.1, Ne.symm hc.2]

/-- Behind a value the next name begins. -/
theorem paramsSlices_ampersand (escape : Bool) (slice : Bytes) {c : Byte}
    (hc : c ≠ ampersand ∧ c ≠ equalSign) (rest : Bytes) :
    paramsSlices (queryOpts [ampersand])
        ⟨.val false, false, escape, slice, ampersand :: c :: rest⟩ =
      (.val false, slice) :: paramsSlices (queryOpts [ampersand])
        ⟨.param, false, false, [], c :: rest⟩ := by
  have hskip : skipSep false false (queryOpts [ampersand]).seps (c :: rest) = c :: rest :=
    skipSep_of_zero (checkSep_eq_zero (fun sep hsep _ => noSep_query hc rest sep hsep) _ _)
  have hturn : paramsTurn (queryOpts [ampersand])
      ⟨.val false, false, escape, slice, ampersand :: c :: rest⟩ ampersand (c :: rest) =
        (true, ⟨.param, false, false, [],
          skipSep false false (queryOpts [ampersand]).seps (c :: rest)⟩) := rfl
  rw [paramsSlices_turn rfl, hturn, if_pos rfl, hskip]

/-- The slices of names and values -/
def joinedSlices (kvs : List (Bytes × Bytes)) : List (ParamsPhase × Bytes) :=
  kvs.flatMap fun kv => [(.param, kv.1), (.val false, kv.2.dropWhile fun c => c = equalSign)]

/-- A text that can be a name with its keys. -/
structure IsNameText (k : Bytes) : Prop where
  ne : k ≠ []
  plain : ∀ c ∈ k, c ≠ ampersand ∧ c ≠ equalSign
  closed : QuotesClosed k

theorem paramsSlices_name {k : Bytes} (hk : IsNameText k) (rest : Bytes) :
    paramsSlices (queryOpts [ampersand]) ⟨.param, false, false, [], k ++ equalSign :: rest⟩ =
      (.param, k) :: paramsSlices (queryOpts [ampersand])
        ⟨.val false, false, false, [], rest.dropWhile fun c => c = equalSign⟩ := by
  have htext := paramsSlices_query (show ParamsPhase.param ≠ .start by simp)
    (fun c hc => ⟨(hk.plain c hc).1, fun h => absurd h (hk.plain c hc).2⟩) (false, false) []
    (equalSign :: rest)
  have hclosed : (quoteState k (false, false)).1 = false := hk.closed
  rw [htext, hclosed, paramsSlices_equal, List.nil_append]

theorem paramsSlices_value {v : Bytes} (hv : ∀ c ∈ v, c ≠ ampersand) (rest : Bytes) :
    paramsSlices (queryOpts [ampersand])
        ⟨.val false, false, false, [], (v.dropWhile fun c => c = equalSign) ++ rest⟩ =
      paramsSlices (queryOpts [ampersand])
        ⟨.val false, (quoteState (v.dropWhile fun c => c = equalSign) (false, false)).1,
          (quoteState (v.dropWhile fun c => c = equalSign) (false, false)).2,
          v.dropWhile fun c => c = equalSign, rest⟩ :=
  paramsSlices_query (by simp)
    (fun c hc => ⟨hv c ((List.dropWhile_sublist _).subset hc), fun _ => rfl⟩) (false, false) [] rest

theorem dropWhile_value (v : Bytes) {rest : Bytes} (hrest : rest.head? ≠ some equalSign) :
    (v ++ rest).dropWhile (fun c => c = equalSign) = (v.dropWhile fun c => c = equalSign) ++
      rest := by
  induction v with
  | nil =>
    cases rest with
    | nil => rfl
    | cons c rest =>
      have hc : c ≠ equalSign := fun h => hrest (by rw [h]; rfl)
      rw [List.nil_append, List.dropWhile_cons, if_neg (by simp [hc])]
      rfl
  | cons c v ih =>
    rw [List.cons_append, List.dropWhile_cons, List.dropWhile_cons]
    split_ifs
    · exact ih
    · rfl

/-- The slices are the names and the values, where quotes are closed before the next name. -/
theorem paramsSlices_joined (kv : Bytes × Bytes) (kvs : List (Bytes × Bytes))
    (hnames : ∀ kv' ∈ kv :: kvs, IsNameText kv'.1)
    (hvalues : ∀ kv' ∈ kv :: kvs, ∀ c ∈ kv'.2, c ≠ ampersand)
    (hclosed : ∀ kv' ∈ (kv :: kvs).dropLast, QuotesClosed kv'.2) :
    paramsSlices (queryOpts [ampersand]) ⟨.param, false, false, [], joinPairs (kv :: kvs)⟩ =
      joinedSlices (kv :: kvs) := by
  induction kvs generalizing kv with
  | nil =>
    have hname := hnames kv List.mem_cons_self
    have hvalue := paramsSlices_value (hvalues kv List.mem_cons_self) []
    rw [joinPairs, List.flatMap_nil, paramsSlices_name hname, dropWhile_value _ (by simp), hvalue,
      paramsSlices_end rfl]
    rfl
  | cons next kvs ih =>
    obtain ⟨hname, hmore⟩ := List.forall_mem_cons.mp hnames
    obtain ⟨hvalue, hrest⟩ := List.forall_mem_cons.mp hvalues
    rw [List.dropLast_cons_cons, List.forall_mem_cons] at hclosed
    obtain ⟨c, k, hk⟩ := List.exists_cons_of_ne_nil (hmore next List.mem_cons_self).ne
    have hc := (hmore next List.mem_cons_self).plain c (hk ▸ List.mem_cons_self)
    have htail : (next :: kvs).flatMap (fun kv => ampersand :: (kv.1 ++ equalSign :: kv.2)) =
        ampersand :: joinPairs (next :: kvs) := by
      simp [joinPairs]
    have hjoin : joinPairs (next :: kvs) = c :: (k ++ equalSign :: (next.2 ++
        kvs.flatMap fun kv => ampersand :: (kv.1 ++ equalSign :: kv.2))) := by
      simp [joinPairs, hk]
    have hquotes : (quoteState (kv.2.dropWhile fun c => c = equalSign) (false, false)).1 = false :=
      (quotesClosed_dropWhile kv.2).mpr hclosed.1
    rw [joinPairs, htail, paramsSlices_name hname,
      dropWhile_value _ (by simp [ampersand, equalSign]), paramsSlices_value hvalue, hquotes, hjoin,
      paramsSlices_ampersand _ _ hc, ← hjoin, ih next hmore hrest hclosed.2]
    rfl

theorem paramsSlices_joinPairs {kvs : List (Bytes × Bytes)} (hne : kvs ≠ [])
    (hnames : ∀ kv ∈ kvs, IsNameText kv.1) (hvalues : ∀ kv ∈ kvs, ∀ c ∈ kv.2, c ≠ ampersand)
    (hclosed : ∀ kv ∈ kvs.dropLast, QuotesClosed kv.2) :
    paramsSlices (queryOpts [ampersand]) (.init (joinPairs kvs)) = joinedSlices kvs := by
  obtain ⟨kv, kvs, rfl⟩ := List.exists_cons_of_ne_nil hne
  have hname := hnames kv List.mem_cons_self
  obtain ⟨c, k, hk⟩ := List.exists_cons_of_ne_nil hname.ne
  have hc := hname.plain c (hk ▸ List.mem_cons_self)
  have hjoin : joinPairs (kv :: kvs) = c :: (k ++ equalSign :: (kv.2 ++
      kvs.flatMap fun kv => ampersand :: (kv.1 ++ equalSign :: kv.2))) := by
    simp [joinPairs, hk]
  have hturn := fun rest => paramsTurn_query (show ParamsPhase.param ≠ .start by simp) hc.1
    (fun h => absurd h hc.2) false false [] (c :: rest) rest
  have htrack : trackQuotes paramsQuery .param false false c =
      (decide (c = quote), decide (c = backslash)) := by
    by_cases h : c = quote
    · simp [trackQuotes, paramsQuery, h, quote, backslash]
    · simp [trackQuotes, paramsQuery, h]
  rw [← paramsSlices_joined kv kvs hnames hvalues hclosed, hjoin,
    paramsSlices_front rfl (noSep_query hc _), paramsSlices_go rfl (hturn _), htrack]
  rfl

end Slices

/-! ### Names with keys -/

theorem urlDecode_front {a : Bytes} (ha : percent ∉ a) (s : Bytes) :
    urlDecode (a ++ s) = a.map plusToSpace ++ urlDecode s := by
  induction a with
  | nil => rfl
  | cons c a ih =>
    rw [List.mem_cons, not_or] at ha
    rw [List.cons_append, urlDecode_cons (Ne.symm ha.1), ih ha.2]
    rfl

/-- What is trimmed does not take part in what is decoded. -/
theorem urlDecode_trimmed {b : Bytes} (hb : ∀ c ∈ b, isTrimmed c = true) (s : Bytes) :
    urlDecode (s ++ b) = urlDecode s ++ b.map plusToSpace := by
  have hplain : ∀ c : Byte, isTrimmed c = true → c ≠ percent ∧ isBaseDigit 16 c = false := by
    decide +kernel
  cases b with
  | nil => rw [List.append_nil, List.map_nil, List.append_nil]
  | cons c b =>
    have hfront := urlDecode_front (a := c :: b) (fun h => (hplain _ (hb _ h)).1 rfl) []
    rw [List.append_nil] at hfront
    rw [urlDecode_append s (hplain c (hb c List.mem_cons_self)).2, hfront]
    simp [urlDecode]

/-- A value is stored as it is if nothing of it is left out. -/
theorem QueryPair.stored_eq_leaf (x : QueryPair) : x.stored = x.leaf ↔ x.Kept := by
  obtain ⟨a, b, hsplit, hab⟩ := phpTrim_split isTrimmed x.taken
  have hvalue : x.value = (x.value.takeWhile fun c => c = equalSign) ++ x.taken :=
    (List.takeWhile_append_dropWhile).symm
  constructor
  · intro h
    have hpercent : percent ∉ (x.value.takeWhile fun c => c = equalSign) ++ a := by
      intro hmem
      rcases List.mem_append.mp hmem with hmem | hmem
      · exact absurd (List.mem_takeWhile_imp hmem) (by decide)
      · exact absurd (hab _ (List.mem_append_left _ hmem)) (by decide)
    have hdecode := urlDecode_front hpercent (phpTrim isTrimmed x.taken ++ b)
    rw [urlDecode_trimmed (fun c hc => hab c (List.mem_append_right _ hc)), List.append_assoc,
      ← hsplit, ← hvalue] at hdecode
    have hlength := congrArg List.length (Value.str.inj h)
    rw [hdecode] at hlength
    simp only [List.length_append, List.length_map] at hlength
    have hequal : (x.value.takeWhile fun c => c = equalSign) = [] :=
      List.length_eq_zero_iff.mp (by omega)
    have ha : a = [] := List.length_eq_zero_iff.mp (by omega)
    have hb : b = [] := List.length_eq_zero_iff.mp (by omega)
    rw [hequal, List.nil_append] at hvalue
    rw [ha, hb, List.nil_append, List.append_nil, ← hvalue] at hsplit
    refine ⟨hsplit.symm, fun hhead => ?_⟩
    obtain ⟨v, hv⟩ := List.head?_eq_some_iff.mp hhead
    rw [hv] at hequal
    cases hequal
  · rintro ⟨htrim, hhead⟩
    have htaken : x.taken = x.value := by
      rw [QueryPair.taken]
      cases hv : x.value with
      | nil => rfl
      | cons c v =>
        rw [hv] at hhead
        exact List.dropWhile_cons_of_neg fun hc => hhead (congrArg some (of_decide_eq_true hc))
    rw [QueryPair.stored, htaken, htrim, QueryPair.leaf]

theorem urlDecode_ne {s : Bytes} (h : s ≠ []) : urlDecode s ≠ [] := by
  match s with
  | [] => exact absurd rfl h
  | [_] => simp [urlDecode]
  | [_, _] => simp [urlDecode]
  | a :: b :: c :: s =>
    rw [urlDecode]
    split_ifs <;> simp

/-- The brackets are found behind the decoding. -/
theorem urlDecode_bracketed (s : Bytes) (keys : List QueryName) :
    urlDecode (s ++ keys.flatMap QueryName.bracketed) =
      urlDecode s ++ keys.flatMap fun k => openBracket :: (urlDecode k.text ++ [closeBracket]) := by
  induction keys generalizing s with
  | nil => simp
  | cons k keys ih =>
    have hrest := ih []
    rw [List.nil_append] at hrest
    have hclose : urlDecode (closeBracket :: keys.flatMap QueryName.bracketed) =
        closeBracket :: urlDecode (keys.flatMap QueryName.bracketed) := urlDecode_cons (by decide) _
    have hopen : ∀ t, urlDecode (openBracket :: t) = openBracket :: urlDecode t :=
      fun t => urlDecode_cons (by decide) t
    rw [List.flatMap_cons, QueryName.bracketed, List.cons_append, List.append_assoc,
      List.singleton_append, urlDecode_append s (by decide), hopen,
      urlDecode_append k.text (by decide), hclose, hrest]
    simp [urlDecode]

section Dimension
variable {L : ParamsLib}

theorem dimensionKeys_text {s : Bytes} (hs : ∀ c ∈ s, c ≠ openBracket ∧ c ≠ closeBracket)
    (level : ℕ) (var rest : Bytes) : dimensionKeys L level var (s ++ rest) =
      dimensionKeys L level (var ++ s) rest := by
  induction s generalizing var with
  | nil => rw [List.nil_append, List.append_nil]
  | cons c s ih =>
    obtain ⟨hopen, hclose⟩ := hs c List.mem_cons_self
    rw [List.cons_append, dimensionKeys]
    rw [if_neg hopen, if_neg hclose, ih (fun d hd => hs d (List.mem_cons_of_mem _ hd)),
      List.append_assoc]
    rfl

/-- From one closing bracket to the next -/
theorem dimensionKeys_bracketed (keys : List QueryName) {level : ℕ}
    (hlevel : level + keys.length ≤ L.maxNesting) :
    dimensionKeys L level [] (keys.flatMap fun k => openBracket ::
      (urlDecode k.text ++ [closeBracket])) = some (keys.map QueryName.key) := by
  induction keys generalizing level with
  | nil => rfl
  | cons k keys ih =>
    rw [List.length_cons] at hlevel
    have hrest := ih (by omega : level + 1 + keys.length ≤ L.maxNesting)
    rw [List.flatMap_cons, List.cons_append, dimensionKeys]
    rw [if_pos rfl, if_neg (by omega), if_pos rfl, List.append_assoc,
      dimensionKeys_text k.bracketFree, List.nil_append, List.singleton_append, dimensionKeys]
    rw [if_neg (show closeBracket ≠ openBracket by decide), if_pos rfl,
      if_neg (urlDecode_ne k.ne), hrest]
    rfl

theorem sanitizeDimension_keys (name : QueryName) {keys : List QueryName}
    (hkeys : keys.length ≤ L.maxNesting) :
    sanitizeDimension L (urlDecode name.text ++
      keys.flatMap fun k => openBracket :: (urlDecode k.text ++ [closeBracket])) =
    if keys = [] then .str (urlDecode name.text) else .dimension name.key
      (keys.map QueryName.key) := by
  unfold sanitizeDimension
  rw [dimensionKeys_text name.bracketFree, List.nil_append]
  cases keys with
  | nil => rw [if_pos rfl, List.flatMap_nil, List.append_nil]; rfl
  | cons k keys =>
    rw [List.length_cons] at hkeys
    rw [List.flatMap_cons, List.cons_append, dimensionKeys]
    rw [if_pos rfl, if_neg (by omega), if_neg (urlDecode_ne name.ne), List.append_assoc,
      dimensionKeys_text k.bracketFree, List.nil_append, List.singleton_append, dimensionKeys]
    rw [if_neg (show closeBracket ≠ openBracket by decide), if_pos rfl, if_neg (urlDecode_ne k.ne),
      dimensionKeys_bracketed keys (by omega), if_neg (List.cons_ne_nil _ _),
      if_neg (urlDecode_ne name.ne)]
    rfl

/-- A name with its keys, maybe written with other percent signs. -/
structure QueryPair.IsWritten (x : QueryPair) (name : Bytes) : Prop extends IsNameText name where
  trimmed : phpTrim isTrimmed name = name
  decode : urlDecode name = urlDecode x.key

theorem QueryPair.IsWritten.sanitizeKey {x : QueryPair} {name : Bytes} (h : x.IsWritten name)
    (hnest : x.keys.length ≤ L.maxNesting) :
    ExtHttp.sanitizeKey L paramsQuery name =
      .ok (if x.keys = [] then .str (urlDecode x.name.text) else
      .dimension x.name.key (x.keys.map QueryName.key), false) := by
  have hplain : unescape L paramsQuery name = .ok name := rfl
  have hdimension := sanitizeDimension_keys x.name hnest
  unfold ExtHttp.sanitizeKey
  dsimp only
  rw [h.trimmed, hplain, ok_bind, if_neg h.ne]
  simp only [paramsQuery, Bool.false_and, Bool.false_eq_true, if_false, if_true]
  rw [h.decode, QueryPair.key, urlDecode_bracketed, hdimension]

theorem QueryPair.sanitizeValue (x : QueryPair) :
    sanitizeValue L paramsQuery x.taken false = .ok x.stored := rfl

end Dimension

end ExtHttp
