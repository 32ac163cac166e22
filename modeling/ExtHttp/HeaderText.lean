import ExtHttp.ArrayKey
import ExtHttp.HeaderSafety

/-!
# The text of headers

How header arrays are written, and how the header parser reads the lines of such a text, whatever
follows them.
-/
namespace ExtHttp
open BufferLoop

/-! ### Writing -/

/-- The format `"%s: %s%s"` -/
def formatHeader (crlf? : Bool) (key str : Bytes) : Bytes :=
  cString key ++ [colon, space] ++ cString str ++ if crlf? then crlf else []

/-- `php_http_header_to_callback_ex`: what the callback is called with, call by call. -/
def headerToCallbackEx (crlf? : Bool) (key : Bytes) (val : HeaderValue) : List Bytes :=
  val.toArray.map fun
    | .bool b => formatHeader crlf? key (if b then ascii "true" else ascii "false")
    | .str v => formatHeader crlf? key v
    | .long n => formatHeader crlf? key (formatLong n)

/-- `php_http_header_to_callback`, which passes over elements under integer keys. -/
def headerToCallback (crlf? : Bool) (headers : List (ArrayKey × HeaderValue)) : List Bytes :=
  headers.flatMap fun h => match h.1 with
    | .str key => headerToCallbackEx crlf? key h.2
    | .long _ => []

/-- `php_http_header_to_string` -/
def headerToString (headers : List (ArrayKey × HeaderValue)) : Bytes :=
  (headerToCallback true headers).flatten

/-- The hash table that the parser's headers are in. -/
def Headers.table (hs : Headers) : List (ArrayKey × HeaderValue) :=
  hs.map fun h => (symKey h.1, h.2)

/-- `php_http_header_parse`: the headers unless it fails. -/
def headerParse {Url : Type} (P : UrlParsers Url) (beyond : Bytes → Bytes) (header : Bytes) :
    Option (List (ArrayKey × HeaderValue)) :=
  let o := (headerLoop P headerLog ⟨true, beyond⟩).run (headerParserInit, ⟨[], []⟩) header
  if o.1 = .failure then none else some o.2.1.2.headers.table

example : headerToString [(.str (ascii "A"), .array [.str (ascii "b"), .bool true]),
    (.long 1, .scalar (.str (ascii "c")))] = ascii "A: b\r\nA: true\r\n" := by decide

/-! ### Reading a field -/

/-- A value that is read as it stands. -/
structure PlainValue (v : Bytes) : Prop extends ValueSafe v where
  noHttp : ¬ httpSlash <:+: v

/-- A name that is stored as it stands. -/
structure PlainName (name : Bytes) : Prop extends NameSafe name where
  ne : name ≠ []

def fieldLine (f : Bytes × Bytes) : Bytes := f.1 ++ [colon, space] ++ f.2 ++ crlf

/-- A field that takes a line of its own, with blanks around its value and in any spelling of its
name. Its line is not taken for a start line. -/
structure BlockField {Url : Type} (P : UrlParsers Url) (f : Bytes × Bytes) : Prop where
  name : ∀ c ∈ f.1, isNameChar c = true
  noEol : NoEol f.2
  noNul : nul ∉ f.2
  noStart : infoParse P (fieldLine f) = none

structure PlainField (f : Bytes × Bytes) : Prop where
  name : PlainName f.1
  value : PlainValue f.2

instance (v : Bytes) : Decidable (Trimmed v) :=
  decidable_of_iff ((∀ c ∈ v.head?, isSpace c = false) ∧ ∀ c ∈ v.getLast?, isSpace c = false)
    ⟨fun h => ⟨h.1, h.2⟩, fun h => ⟨h.head, h.last⟩⟩

instance (v : Bytes) : Decidable (PlainValue v) :=
  decidable_of_iff (v ≠ [] ∧ NoEol v ∧ Trimmed v ∧ nul ∉ v ∧ ¬ httpSlash <:+: v)
    ⟨fun ⟨hne, heol, htrim, hnul, hhttp⟩ => ⟨⟨⟨hne, heol, htrim⟩, hnul⟩, hhttp⟩,
      fun h => ⟨h.ne, h.noEol, h.trimmed, h.noNul, h.noHttp⟩⟩

instance (name : Bytes) : Decidable (PlainName name) :=
  decidable_of_iff ((∀ c ∈ name, isNameChar c = true) ∧ prettyKey true true name = name ∧ name ≠ [])
    ⟨fun ⟨hchars, hpretty, hne⟩ => ⟨⟨hchars, hpretty⟩, hne⟩, fun h => ⟨h.chars, h.pretty, h.ne⟩⟩

instance (f : Bytes × Bytes) : Decidable (PlainField f) :=
  decidable_of_iff (PlainName f.1 ∧ PlainValue f.2) ⟨fun h => ⟨h.1, h.2⟩,
    fun h => ⟨h.name, h.value⟩⟩

theorem infix_append_cons {l a b : Bytes} {x : Byte} (h : l <:+: a ++ x :: b) (hx : x ∉ l) :
    l <:+: a ∨ l <:+: b := by
  obtain ⟨s, t, h⟩ := h
  rw [List.append_assoc, List.append_eq_append_iff] at h
  rcases h with ⟨a', rfl, h⟩ | ⟨c', rfl, h⟩
  · rw [List.append_eq_append_iff] at h
    rcases h with ⟨a'', rfl, -⟩ | ⟨c', rfl, h⟩
    · exact .inl ⟨s, a'', by simp⟩
    · cases c' with
      | nil => exact .inl ⟨s, [], by simp⟩
      | cons y c' =>
        obtain ⟨rfl, -⟩ := List.cons_eq_cons.mp h
        exact absurd (by simp) hx
  · cases c' with
    | nil =>
      cases l with
      | nil => exact .inl ⟨[], a, rfl⟩
      | cons y l =>
        obtain ⟨rfl, -⟩ := List.cons_eq_cons.mp h
        exact absurd (by simp) hx
    | cons y c' =>
      obtain ⟨-, rfl⟩ := List.cons_eq_cons.mp h
      exact .inr ⟨c', t, by simp⟩

theorem firstLine_crlf {line : Bytes} (hline : NoEol line) (hnul : nul ∉ line) (rest : Bytes) :
    firstLine (line ++ crlf ++ rest) = line := by
  rw [List.append_assoc]
  refine takeWhile_append_of_stop (fun c hc => ?_) (fun c hc => ?_)
  · have hne : c ≠ nul := fun h => hnul (h ▸ hc)
    simp [hne, hline c hc]
  · obtain rfl : cr = c := by simpa [crlf] using hc
    decide

/-! ### A start line as it is seen from the line alone -/

theorem byteAt_append {a : Bytes} {i : ℕ} (h : i < a.length) (b : Bytes) :
    byteAt (a ++ b) i = byteAt a i := by
  simp [byteAt, List.getD_eq_getElem?_getD, List.getElem?_append_left h]

theorem locateStr_spec {needle hay : Bytes} {i : ℕ} (h : locateStr needle hay = some i) :
    needle <+: hay.drop i := by
  induction hay generalizing i with
  | nil =>
    simp only [locateStr, Option.ite_none_right_eq_some, Option.some.injEq] at h
    simp [h.1]
  | cons c hay ih =>
    rw [locateStr] at h
    split_ifs at h with hpre
    · cases h
      exact hpre
    · obtain ⟨j, hj, rfl⟩ := Option.map_eq_some_iff.mp h
      exact ih hj

theorem versionParse_append {t : Bytes} (h : 3 ≤ t.length ∨ t = crlf) (rest : Bytes) :
    versionParse (httpSlash ++ t ++ rest) = versionParse (httpSlash ++ t) := by
  rcases h with h | rfl
  · match t, h with
    | a :: b :: c :: t, _ => rfl
  · rfl

theorem responseParse_append {Url : Type} (version : Version) {line a b : Bytes}
    (ha : firstLine a = line) (hab : firstLine (a ++ b) = line) (hlen : line.length + 2 ≤ a.length)
    (off : ℕ) :
    (responseParse version (a ++ b) line.length off : Option (Info Url)) =
      responseParse version a line.length off := by
  unfold responseParse
  rw [ha, hab]
  dsimp only
  generalize off + ((line.drop off).takeWhile (· = space)).length = code
  by_cases hcode : code < line.length
  · rw [if_pos hcode, if_pos hcode, byteAt_append (by omega), byteAt_append (by omega),
      byteAt_append (by omega)]
  · rw [if_neg hcode, if_neg hcode]

theorem version_length {t : Bytes} {version : Version}
    (h : versionParse (httpSlash ++ (t ++ crlf)) = some version) : 2 ≤ t.length := by
  match t with
  | [] => cases h
  | [a] =>
    -- the CR is taken for the separator, and the LF is no digit
    have hnone : versionParse (httpSlash ++ ([a] ++ crlf)) = (decimal a).bind fun _ => none := rfl
    rw [hnone] at h
    cases hd : decimal a <;> simp [hd] at h
  | _ :: _ :: _ => simp

/-- What follows a line does not change whether it is a start line. -/
theorem infoParse_crlf {Url : Type} (P : UrlParsers Url) {line : Bytes} (hline : NoEol line)
    (hnul : nul ∉ line) (rest : Bytes) :
    infoParse P (line ++ crlf ++ rest) = infoParse P (line ++ crlf) := by
  have hfirst := firstLine_crlf hline hnul rest
  have hfirst' : firstLine (line ++ crlf) = line := by simpa using firstLine_crlf hline hnul []
  unfold infoParse
  rw [hfirst, hfirst']
  dsimp only
  cases hhttp : locateStr httpSlash line with
  | none => rfl
  | some http =>
    obtain ⟨t, ht⟩ := locateStr_spec hhttp
    have hlen : http + 5 + t.length = line.length := by
      have := congrArg List.length ht
      rw [List.length_append, List.length_drop] at this
      simp only [httpSlash, List.length_cons, List.length_nil] at this
      omega
    have hle : http ≤ line.length := by omega
    have hdrop : ∀ b, (line ++ b).drop http = httpSlash ++ (t ++ b) := by
      intro b
      rw [List.drop_append_of_le_length hle, ← ht, List.append_assoc]
    have hversion : versionParse ((line ++ crlf ++ rest).drop http) =
        versionParse ((line ++ crlf).drop http) := by
      rw [List.append_assoc, hdrop, hdrop, ← List.append_assoc t, ← List.append_assoc httpSlash]
      refine versionParse_append ?_ rest
      cases t with
      | nil => exact .inr rfl
      | cons a t => exact .inl (by simp [crlf])
    simp only [Option.bind_eq_bind, Option.bind_some, hversion]
    cases hv : versionParse ((line ++ crlf).drop http) with
    | none => rfl
    | some version =>
      rw [hdrop] at hv
      have htwo := version_length hv
      have hcrlf : (line ++ crlf).length = line.length + 2 := by simp [crlf]
      have hsep : byteAt (line ++ crlf ++ rest) (http + 6) = byteAt (line ++ crlf) (http + 6) :=
        byteAt_append (by omega) rest
      simp only [Option.bind_some, hsep]
      generalize hoff : (if version.major < 2 ∨ version.major = 2 ∧
        byteAt (line ++ crlf) (http + 6) = 46 then http + 6 + 2 else http + 6) = off
      have hoff' : off ≤ http + 8 := by
        subst hoff
        split_ifs <;> omega
      rw [byteAt_append (i := off) (by omega) rest,
        responseParse_append version hfirst' hfirst (by omega)]
      by_cases h0 : http = 0
      · simp only [h0, if_true]
      · rw [byteAt_append (i := http - 1) (by omega) rest]

/-! ### Reading a block of headers -/

theorem Trimmed.trim_eq {v : Bytes} (h : Trimmed v) : trim v = v := by
  rw [trim, dropWhile_of_head h.head, List.rdropWhile_eq_self_iff]
  intro hne
  simp [h.last _ (List.getLast?_eq_some_getLast hne)]

section Read
variable {Url S : Type} {P : UrlParsers Url} {sink : HeaderSink Url S} {call : HeaderCall}

/-- The parser at the beginning of a line. -/
def headerParserKey : HeaderParser := ⟨.key, none, none⟩

/-- What follows a line: more lines, or the end of the input. -/
structure LineEnds (call : HeaderCall) (rest : Bytes) : Prop where
  notFolded : rest.head? ≠ some space ∧ rest.head? ≠ some 9
  more : rest ≠ [] ∨ call.cleanup = true

/-- What the parser does with a field. -/
def HeaderSink.store (sink : HeaderSink Url S) (s : S) (f : Bytes × Bytes) : S :=
  if trim f.2 = [] then s else sink.header (prettyKey true true f.1) (trim f.2) s

/-- The line of a field holds neither an end of line nor a NUL before its own end. -/
theorem fieldLine_safe {name v : Bytes} (hname : ∀ c ∈ name, isNameChar c = true) (heol : NoEol v)
    (hnul : nul ∉ v) : NoEol (name ++ [colon, space] ++ v) ∧ nul ∉ name ++ [colon, space] ++ v := by
  have hsep : NoEol [colon, space] ∧ nul ∉ [colon, space] := ⟨by simp, by simp [nul, colon, space]⟩
  refine ⟨noEol_append.mpr ⟨noEol_append.mpr ⟨?_, hsep.1⟩, heol⟩, ?_⟩
  · exact fun c hc => isNameChar_not_isEol (hname c hc)
  · simp only [List.mem_append, not_or]
    exact ⟨⟨fun hc => absurd (hname _ hc) (by decide), hsep.2⟩, hnul⟩

/-- A value without `HTTP/` makes no start line of a field. -/
theorem infoParse_fieldLine (P : UrlParsers Url) {name v : Bytes}
    (hname : ∀ c ∈ name, isNameChar c = true) (heol : NoEol v) (hnul : nul ∉ v)
    (hhttp : ¬ httpSlash <:+: v) : infoParse P (fieldLine (name, v)) = none := by
  obtain ⟨hline, hlineNul⟩ := fieldLine_safe hname heol hnul
  refine infoParse_of_not_infix P ?_
  have hfirst : firstLine (fieldLine (name, v)) = name ++ [colon, space] ++ v := by
    simpa [fieldLine] using firstLine_crlf hline hlineNul []
  rw [hfirst, List.append_assoc]
  intro hin
  rcases infix_append_cons hin (by decide) with hin | hin
  · exact absurd (hname 47 (hin.subset (by decide))) (by decide)
  · rcases infix_append_cons (a := []) hin (by decide) with hin | hin
    · exact absurd (hin.subset (a := 47) (by decide)) (by simp)
    · exact hhttp hin

theorem BlockField.keyTurn {f : Bytes × Bytes} (hf : BlockField P f) (s : S) (rest : Bytes) :
    keyTurn P sink call headerParserKey s (fieldLine f ++ rest) =
      .next (⟨.value, some f.1, none⟩, s) (f.2.dropWhile isBlank ++ crlf ++ rest) := by
  obtain ⟨name, v⟩ := f
  have hsafe := fieldLine_safe hf.name hf.noEol hf.noNul
  have hloc : ∀ l, locateBinEol (fieldLine (name, v) ++ rest) ≠ some (0, l) := by
    intro l
    rw [fieldLine, locateBinEol_crlf hsafe.1]
    simp
  have hinfo : infoParse P (call.mem (fieldLine (name, v) ++ rest)) = none := by
    rw [HeaderCall.mem, fieldLine, List.append_assoc _ rest, infoParse_crlf P hsafe.1 hsafe.2]
    exact hf.noStart
  have hsplit : fieldLine (name, v) ++ rest = name ++ colon :: (space :: (v ++ crlf ++ rest)) := by
    simp [fieldLine]
  have hcolon := colonAt_field hf.name (space :: (v ++ crlf ++ rest))
  rw [← hsplit] at hcolon
  rw [keyTurn_field hloc hinfo hcolon, hsplit]
  have hdrop : (v ++ (crlf ++ rest)).dropWhile isBlank = v.dropWhile isBlank ++ (crlf ++ rest) :=
    dropWhile_append_stop (by decide) v (lf :: rest)
  have hblank : isBlank space = true := by decide
  simp only [List.take_left', List.drop_length_add_append, List.drop_succ_cons, List.drop_zero,
    List.dropWhile_cons_of_pos hblank, List.append_assoc, hdrop]
  exact if_pos hf.name

theorem trim_dropWhile_isBlank (v : Bytes) : trim (v.dropWhile isBlank) = trim v := by
  have hspace : ∀ c : Byte, isBlank c = true → isSpace c = true := by
    intro c hc
    rw [isBlank, Bool.and_eq_true] at hc
    exact hc.1
  induction v with
  | nil => rfl
  | cons c v ih =>
    by_cases hc : isBlank c = true
    · rw [List.dropWhile_cons_of_pos hc, ih, trim, trim, List.dropWhile_cons_of_pos (hspace c hc)]
    · rw [List.dropWhile_cons_of_neg hc]

/-- The line of a field, from its beginning to the beginning of the next. -/
theorem BlockField.run {f : Bytes × Bytes} (hf : BlockField P f) (s : S) {rest : Bytes}
    (hrest : LineEnds call rest) :
    (headerLoop P sink call).run (headerParserKey, s) (fieldLine f ++ rest) =
      (headerLoop P sink call).run (headerParserKey, sink.store s f) rest := by
  have hne : fieldLine f ++ rest ≠ [] ∧ f.2.dropWhile isBlank ++ crlf ++ rest ≠ [] := by
    simp [fieldLine, crlf]
  have hkey : headerTurn P sink call (headerParserKey, s) (fieldLine f ++ rest) = _ :=
    (if_neg hne.1).trans (hf.keyTurn s rest)
  have heol : NoEol (f.2.dropWhile isBlank) := fun c hc =>
    hf.noEol c ((List.dropWhile_sublist isBlank).subset hc)
  have hloc := locateBinEol_crlf heol rest
  have hline : valueTurn call ⟨.value, some f.1, none⟩ s (f.2.dropWhile isBlank ++ crlf ++ rest) =
      .next (⟨.valueEx, some f.1, setAddVal none f.2⟩, s) rest := by
    have hset : setAddVal none (f.2.dropWhile isBlank) = setAddVal none f.2 := by
      rw [setAddVal, setAddVal, trim_dropWhile_isBlank]
    unfold valueTurn
    rw [hloc]
    simp only [List.append_assoc, List.take_left', hset, List.drop_length_add_append]
    simp [crlf]
  have hval : headerTurn P sink call (⟨.value, some f.1, none⟩, s)
      (f.2.dropWhile isBlank ++ crlf ++ rest) = _ := (if_neg hne.2).trans hline
  have hvalEx : headerTurn P sink call (⟨.valueEx, some f.1, setAddVal none f.2⟩, s) rest =
      .next (⟨.headerDone, some f.1, setAddVal none f.2⟩, s) rest := by
    have hfold : ¬ (rest.head? = some space ∨ rest.head? = some 9) := not_or.mpr hrest.notFolded
    exact (if_neg hfold).trans (if_pos hrest.more)
  have hdone : headerTurn P sink call (⟨.headerDone, some f.1, setAddVal none f.2⟩, s) rest =
      .next (headerParserKey, sink.store s f) rest := by
    change headerDoneTurn sink ⟨.headerDone, some f.1, setAddVal none f.2⟩ s rest = _
    unfold headerDoneTurn HeaderSink.store setAddVal
    by_cases hempty : trim f.2 = []
    · simp only [if_pos hempty]
      rfl
    · have hnul : nul ∉ trim f.2 := by
        intro hmem
        have hdrop := (List.rdropWhile_prefix isSpace (f.2.dropWhile isSpace)).subset hmem
        exact hf.noNul ((List.dropWhile_sublist isSpace).subset hdrop)
      simp only [if_neg hempty, Option.elim_none]
      rw [if_neg hnul]
      rfl
  rw [Machine.run_next hkey, Machine.run_next hval, Machine.run_next hvalEx, Machine.run_next hdone]

theorem headerLoop_start {b : Bytes} (hb : b ≠ [])
    (hspace : ∀ c, b.head? = some c → isSpace c = false) (s : S) :
    (headerLoop P sink call).run (headerParserInit, s) b =
      (headerLoop P sink call).run (headerParserKey, s) b := by
  have hturn : headerTurn P sink call (headerParserInit, s) b =
      .next (headerParserKey, s) (b.dropWhile isSpace) := if_neg hb
  rw [Machine.run_next hturn, dropWhile_of_head hspace]

theorem isNameChar_not_isSpace {c : Byte} (h : isNameChar c = true) : isSpace c = false := by
  revert c; decide +kernel

theorem BlockField.lineEnds {f : Bytes × Bytes} (hf : BlockField P f) (call : HeaderCall)
    (b : Bytes) :
    LineEnds call (fieldLine f ++ b) := by
  obtain ⟨name, v⟩ := f
  cases name with
  | nil => exact ⟨by simp [fieldLine, colon, space], .inl (by simp [fieldLine])⟩
  | cons c name =>
    have hc := hf.name c (by simp)
    refine ⟨⟨?_, ?_⟩, .inl (by simp [fieldLine])⟩
    · rintro ⟨⟩
      exact absurd hc (by decide)
    · rintro ⟨⟩
      exact absurd hc (by decide)

theorem LineEnds.lines {fs : List (Bytes × Bytes)} (hfs : ∀ f ∈ fs, BlockField P f) {rest : Bytes}
    (hrest : LineEnds call rest) : LineEnds call (fs.flatMap fieldLine ++ rest) := by
  cases fs with
  | nil => exact hrest
  | cons f fs =>
    rw [List.flatMap_cons, List.append_assoc]
    exact (hfs f (by simp)).lineEnds call _

/-- Field lines are stored one after the other. -/
theorem headerLoop_block (sink : HeaderSink Url S) {fs : List (Bytes × Bytes)}
    (hfs : ∀ f ∈ fs, BlockField P f) (s : S) {rest : Bytes} (hrest : LineEnds call rest) :
    (headerLoop P sink call).run (headerParserKey, s) (fs.flatMap fieldLine ++ rest) =
      (headerLoop P sink call).run (headerParserKey, fs.foldl sink.store s) rest := by
  induction fs generalizing s with
  | nil => rfl
  | cons f fs ih =>
    have hfs' : ∀ f ∈ fs, BlockField P f := fun g hg => hfs g (by simp [hg])
    rw [List.flatMap_cons, List.append_assoc, (hfs f (by simp)).run s (hrest.lines hfs'), ih hfs']
    rfl

theorem PlainField.block {f : Bytes × Bytes} (hf : PlainField f) (P : UrlParsers Url) :
    BlockField P f :=
  ⟨hf.name.chars, hf.value.noEol, hf.value.noNul,
    infoParse_fieldLine P hf.name.chars hf.value.noEol hf.value.noNul hf.value.noHttp⟩

theorem PlainField.store {f : Bytes × Bytes} (hf : PlainField f) (s : S) :
    sink.store s f = sink.header f.1 f.2 s := by
  rw [HeaderSink.store, hf.value.trimmed.trim_eq, if_neg hf.value.ne, hf.name.pretty]

theorem foldl_store (sink : HeaderSink Url S) {fs : List (Bytes × Bytes)}
    (hfs : ∀ f ∈ fs, PlainField f) (s : S) :
    fs.foldl sink.store s = fs.foldl (fun s f => sink.header f.1 f.2 s) s := by
  induction fs generalizing s with
  | nil => rfl
  | cons f fs ih =>
    rw [List.foldl_cons, List.foldl_cons, (hfs f (by simp)).store,
      ih fun g hg => hfs g (by simp [hg])]

/-- Field lines that are stored as they stand go to the sink one after the other. -/
theorem headerLoop_lines (sink : HeaderSink Url S) {fs : List (Bytes × Bytes)}
    (hfs : ∀ f ∈ fs, PlainField f) (s : S) {rest : Bytes} (hrest : LineEnds call rest) :
    (headerLoop P sink call).run (headerParserKey, s) (fs.flatMap fieldLine ++ rest) =
      (headerLoop P sink call).run
        (headerParserKey, fs.foldl (fun s f => sink.header f.1 f.2 s) s) rest := by
  rw [headerLoop_block sink (fun f hf => (hfs f hf).block P) s hrest, foldl_store sink hfs]

/-- A start line. -/
theorem headerLoop_startLine {line : Bytes} {info : Info Url} (hne : line ≠ []) (hline : NoEol line)
    (hnul : nul ∉ line) (hinfo : infoParse P (line ++ crlf) = some info) (s : S) (rest : Bytes) :
    (headerLoop P sink call).run (headerParserKey, s) (line ++ crlf ++ rest) =
      (headerLoop P sink call).run (headerParserKey, sink.info info s) rest := by
  have hloc := locateBinEol_crlf hline rest
  have hkey : keyTurn P sink call headerParserKey s (line ++ crlf ++ rest) =
      .next (⟨.headerDone, none, none⟩, sink.info info s) rest := by
    have hmem : infoParse P (call.mem (line ++ crlf ++ rest)) = some info := by
      rw [HeaderCall.mem, List.append_assoc, infoParse_crlf P hline hnul, hinfo]
    have hpos : ∀ l, locateBinEol (line ++ crlf ++ rest) ≠ some (0, l) := by
      intro l
      rw [hloc]
      simp [hne]
    rw [keyTurn_info hpos hmem, hloc]
    have hlen : line.length + 2 = (line ++ crlf).length := by simp [crlf]
    simp only [Option.elim_some, hlen, List.drop_left']
    rfl
  have hturn : headerTurn P sink call (headerParserKey, s) (line ++ crlf ++ rest) = _ :=
    (if_neg (by simp [crlf])).trans hkey
  have hdone : headerTurn P sink call (⟨.headerDone, none, none⟩, sink.info info s) rest =
      .next (headerParserKey, sink.info info s) rest := rfl
  rw [Machine.run_next hturn, Machine.run_next hdone]

/-- The empty line behind the headers. -/
theorem headerLoop_end (s : S) (rest : Bytes) :
    (headerLoop P sink call).run (headerParserKey, s) (crlf ++ rest) =
      (.done, (headerParserInit, s), rest) := by
  have hkey : headerTurn P sink call (headerParserKey, s) (crlf ++ rest) =
      .next (⟨.done, none, none⟩, s) rest := rfl
  have hdone : headerTurn P sink call (⟨.done, none, none⟩, s) rest =
      .ret .done (headerParserInit, s) rest := rfl
  rw [Machine.run_next hkey, Machine.run_ret hdone]

theorem lineEnds_end (rest : Bytes) : LineEnds call (crlf ++ rest) :=
  ⟨⟨by simp [crlf, cr, space], by simp [crlf, cr]⟩, .inl (by simp [crlf])⟩

end Read

/-! ### The fields of a header array -/

/-- A value that the parser would have built: a string, or a list of several. -/
inductive PlainHeaderValue : HeaderValue → Prop
  | single {v : Bytes} : PlainValue v → PlainHeaderValue (.scalar (.str v))
  | list {vs : List Bytes} : 2 ≤ vs.length → (∀ v ∈ vs, PlainValue v) →
      PlainHeaderValue (.array (vs.map .str))

/-- The strings in a value. -/
def HeaderValue.strings (v : HeaderValue) : List Bytes :=
  v.toArray.filterMap fun
    | .str s => some s
    | _ => none

/-- The fields that a header array is written as. -/
def Headers.fields (hs : Headers) : List (Bytes × Bytes) :=
  hs.flatMap fun h => h.2.strings.map fun v => (h.1, v)

@[simp] theorem strings_single (v : Bytes) : (HeaderValue.scalar (.str v)).strings = [v] := rfl

@[simp] theorem strings_list (vs : List Bytes) :
    (HeaderValue.array (vs.map .str)).strings = vs := by
  simp [HeaderValue.strings, HeaderValue.toArray, List.filterMap_map]

theorem PlainHeaderValue.plain {hv : HeaderValue} (h : PlainHeaderValue hv) :
    ∀ v ∈ hv.strings, PlainValue v := by
  cases h with
  | single h => simpa using h
  | list _ h => rwa [strings_list]

theorem headerToCallbackEx_plain {key : Bytes} (hkey : PlainName key) {hv : HeaderValue}
    (h : PlainHeaderValue hv) :
    headerToCallbackEx true key hv = hv.strings.map fun v => fieldLine (key, v) := by
  have hnul : nul ∉ key := fun hc => absurd (hkey.chars _ hc) (by decide)
  have hformat : ∀ v, PlainValue v → formatHeader true key v = fieldLine (key, v) := by
    intro v hv
    rw [formatHeader, cString_of_noNul hnul, cString_of_noNul hv.noNul]
    rfl
  cases h with
  | single h => exact congrArg (fun l => [l]) (hformat _ h)
  | list _ h =>
    rw [strings_list, headerToCallbackEx, HeaderValue.toArray, List.map_map]
    exact List.map_congr_left fun v hv => hformat v (h v hv)

/-- A value under a new name goes to the end. -/
theorem Headers.add_new {hs : Headers} {key : Bytes} (h : key ∉ hs.map Prod.fst) (v : Bytes) :
    hs.add key v = hs ++ [(key, .scalar (.str v))] := by
  have hfind : hs.find key = none := Assoc.find_eq_none.mpr h
  rw [Headers.add, hfind]
  exact Assoc.set_of_none hfind _

/-- Another value under the name at the end. -/
theorem Headers.add_last {hs : Headers} {key : Bytes} (h : key ∉ hs.map Prod.fst)
    (old : HeaderValue) (v : Bytes) :
    Headers.add (hs ++ [(key, old)]) key v =
      hs ++ [(key, .array (old.toArray ++ [.str v]))] := by
  have hnone : hs.find key = none := Assoc.find_eq_none.mpr h
  have hfind : Headers.find (hs ++ [(key, old)]) key = some old := by
    rw [Headers.find, Assoc.find_append, ← Headers.find, hnone, Option.none_or, Assoc.find_cons,
      if_pos rfl]
  rw [Headers.add, hfind]
  exact Assoc.set_last hnone old _

theorem Headers.add_values {hs : Headers} {key : Bytes} (h : key ∉ hs.map Prod.fst)
    {hv : HeaderValue} (hplain : PlainHeaderValue hv) :
    (hv.strings.map fun v => (key, v)).foldl (fun hs f => Headers.add hs f.1 f.2) hs =
      hs ++ [(key, hv)] := by
  have hmore : ∀ (vs : List Bytes) (old : List HeaderScalar),
      (vs.map fun v => (key, v)).foldl (fun hs f => Headers.add hs f.1 f.2)
          (hs ++ [(key, .array old)]) = hs ++ [(key, .array (old ++ vs.map .str))] := by
    intro vs
    induction vs with
    | nil => simp
    | cons v vs ih =>
      intro old
      rw [List.map_cons, List.foldl_cons, Headers.add_last h]
      refine (ih (old ++ [.str v])).trans ?_
      rw [List.append_assoc]
      rfl
  cases hplain with
  | single _ => exact Headers.add_new h _
  | @list vs hlen _ =>
    match vs, hlen with
    | v :: w :: vs, _ =>
      rw [strings_list, List.map_cons, List.map_cons, List.foldl_cons, List.foldl_cons,
        Headers.add_new h, Headers.add_last h]
      simpa [HeaderValue.toArray] using hmore vs [.str v, .str w]

/-- Adding the fields of a header array one by one builds it again. -/
theorem Headers.add_fields {hs : Headers} (hplain : ∀ h ∈ hs, PlainHeaderValue h.2) (acc : Headers)
    (hnodup : ((acc ++ hs).map Prod.fst).Nodup) :
    hs.fields.foldl (fun hs f => Headers.add hs f.1 f.2) acc = acc ++ hs := by
  induction hs generalizing acc with
  | nil => simp [Headers.fields]
  | cons h hs ih =>
    have hkey : h.1 ∉ acc.map Prod.fst := by
      rw [List.map_append, List.nodup_append] at hnodup
      exact fun hmem => hnodup.2.2 _ hmem h.1 (by simp) rfl
    have hfields : Headers.fields (h :: hs) =
        (h.2.strings.map fun v => (h.1, v)) ++ Headers.fields hs := rfl
    rw [hfields, List.foldl_append, Headers.add_values hkey (hplain h (by simp)),
      ih (fun x hx => hplain x (by simp [hx])) _ (by simpa using hnodup)]
    simp

end ExtHttp
