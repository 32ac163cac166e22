import ExtHttp.HeaderText

/-! What `php_http_header_to_string` writes, `php_http_header_parse` gives back, but for the headers
whose names PHP takes for integers. -/
namespace ExtHttp
open BufferLoop

/-- A header array that is written with nothing in it that the parser would read otherwise. -/
structure PlainHeaders (headers : List (ArrayKey × HeaderValue)) : Prop where
  nodup : (headers.map Prod.fst).Nodup
  name : ∀ h ∈ headers, PlainName h.1.stringify
  value : ∀ h ∈ headers, PlainHeaderValue h.2

/-- The headers that are written, under their names. -/
def writtenHeaders (headers : List (ArrayKey × HeaderValue)) : Headers :=
  headers.filterMap fun h => match h.1 with
    | .str key => some (key, h.2)
    | .long _ => none

theorem mem_writtenHeaders {headers : List (ArrayKey × HeaderValue)} {h : Bytes × HeaderValue} :
    h ∈ writtenHeaders headers ↔ (.str h.1, h.2) ∈ headers := by
  simp only [writtenHeaders, List.mem_filterMap]
  constructor
  · rintro ⟨⟨key, v⟩, hmem, heq⟩
    cases key with
    | long n => cases heq
    | str key =>
      cases heq
      exact hmem
  · exact fun hmem => ⟨_, hmem, rfl⟩

theorem headerToString_plain {headers : List (ArrayKey × HeaderValue)} (h : PlainHeaders headers) :
    headerToString headers = (writtenHeaders headers).fields.flatMap fieldLine := by
  have hname := h.name
  have hvalue := h.value
  clear h
  induction headers with
  | nil => rfl
  | cons x headers ih =>
    obtain ⟨key, v⟩ := x
    have ih := ih (fun y hy => hname y (by simp [hy])) fun y hy => hvalue y (by simp [hy])
    cases key with
    | long n => exact ih
    | str key =>
      have hline : headerToCallbackEx true key v = v.strings.map fun v => fieldLine (key, v) :=
        headerToCallbackEx_plain (hname (.str key, v) (by simp)) (hvalue (.str key, v) (by simp))
      have hfields : (writtenHeaders ((.str key, v) :: headers)).fields =
          (v.strings.map fun v => (key, v)) ++ (writtenHeaders headers).fields := rfl
      rw [hfields, List.flatMap_append, ← ih]
      simp only [headerToString, headerToCallback, List.flatMap_cons,
        List.flatten_append] at hline ⊢
      rw [hline, List.flatMap_map]
      rfl

theorem PlainHeaders.fields {headers : List (ArrayKey × HeaderValue)} (h : PlainHeaders headers) :
    ∀ f ∈ (writtenHeaders headers).fields, PlainField f := by
  intro f hf
  obtain ⟨x, hx, hf⟩ := List.mem_flatMap.mp hf
  obtain ⟨v, hv, rfl⟩ := List.mem_map.mp hf
  have hmem := mem_writtenHeaders.mp hx
  exact ⟨h.name _ hmem, (h.value _ hmem).plain v hv⟩

theorem PlainHeaders.nodup_written {headers : List (ArrayKey × HeaderValue)}
    (h : PlainHeaders headers) : ((writtenHeaders headers).map Prod.fst).Nodup := by
  have hnodup := h.nodup
  clear h
  induction headers with
  | nil => simp [writtenHeaders]
  | cons x headers ih =>
    obtain ⟨key, v⟩ := x
    rw [List.map_cons, List.nodup_cons] at hnodup
    have ih := ih hnodup.2
    cases key with
    | long n => exact ih
    | str key =>
      change (key :: (writtenHeaders headers).map Prod.fst).Nodup
      refine List.nodup_cons.mpr ⟨fun hmem => hnodup.1 ?_, ih⟩
      obtain ⟨y, hy, rfl⟩ := List.mem_map.mp hmem
      exact List.mem_map.mpr ⟨_, mem_writtenHeaders.mp hy, rfl⟩

/-- Every header that is written is read again, under the key PHP has for its name. -/
theorem headerParse_toString {Url : Type} (P : UrlParsers Url) (beyond : Bytes → Bytes)
    {headers : List (ArrayKey × HeaderValue)} (h : PlainHeaders headers) :
    headerParse P beyond (headerToString headers) = some (writtenHeaders headers).table := by
  have hplain : ∀ x ∈ writtenHeaders headers, PlainHeaderValue x.2 := fun x hx =>
    h.value _ (mem_writtenHeaders.mp hx)
  have hends : LineEnds ⟨true, beyond⟩ [] := ⟨by simp, .inr rfl⟩
  have hrun : (headerLoop P headerLog ⟨true, beyond⟩).run (headerParserKey, ⟨[], []⟩)
      ((writtenHeaders headers).fields.flatMap fieldLine) =
      (.key, (headerParserKey, ⟨[], writtenHeaders headers⟩), []) := by
    have hlines := headerLoop_lines (P := P) headerLog h.fields ⟨[], []⟩ hends
    have hfold : ∀ (fs : List (Bytes × Bytes)) (log : HeaderLog Url),
        fs.foldl (fun s f => headerLog.header f.1 f.2 s) log =
          { log with headers := fs.foldl (fun hs f => Headers.add hs f.1 f.2) log.headers } := by
      intro fs
      induction fs with
      | nil => exact fun _ => rfl
      | cons f fs ih => exact fun log => ih _
    rw [List.append_nil, hfold,
      Headers.add_fields hplain [] (by simpa using h.nodup_written)] at hlines
    rw [hlines]
    exact Machine.run_ret rfl
  have hstart : headerParse P beyond ((writtenHeaders headers).fields.flatMap fieldLine) =
      some (writtenHeaders headers).table := by
    cases hfs : (writtenHeaders headers).fields with
    | nil =>
      have hnil := Headers.add_fields hplain [] (by simpa using h.nodup_written)
      rw [hfs] at hnil
      have hempty : writtenHeaders headers = [] := by simpa using hnil.symm
      have hturn : (headerLoop P headerLog ⟨true, beyond⟩).turn (headerParserInit, ⟨[], []⟩) [] =
          .ret .start (headerParserInit, ⟨[], []⟩) [] := rfl
      rw [hempty, headerParse, List.flatMap_nil, Machine.run_ret hturn]
      rfl
    | cons f fs =>
      have hname := (h.fields f (by simp [hfs])).name
      obtain ⟨c, name, hcons⟩ := List.exists_cons_of_ne_nil hname.ne
      have hc := isNameChar_not_isSpace (hname.chars c (by simp [hcons]))
      rw [headerParse, headerLoop_start (by simp [fieldLine, crlf])
        (fun d hd => by simp_all [fieldLine]), ← hfs, hrun]
      rfl
  rw [headerToString_plain h, hstart]

theorem filterMap_eq_self_iff {α : Type} {f : α → Option α} {l : List α} :
    l.filterMap f = l ↔ ∀ x ∈ l, f x = some x := by
  induction l with
  | nil => simp
  | cons x l ih =>
    rw [List.filterMap_cons]
    cases hx : f x with
    | none =>
      have hlen : l.filterMap f ≠ x :: l := fun he => by
        have := List.length_filterMap_le f l
        rw [he, List.length_cons] at this
        omega
      simp [hlen, hx]
    | some y =>
      rw [List.cons_eq_cons, ih]
      simp [hx]

/-- The headers come back as they were if and only if none of their names is an integer key, or
would become one. -/
theorem headerParse_toString_iff {Url : Type} (P : UrlParsers Url) (beyond : Bytes → Bytes)
    {headers : List (ArrayKey × HeaderValue)} (h : PlainHeaders headers) :
    headerParse P beyond (headerToString headers) = some headers ↔
      ∀ x ∈ headers, ∃ name, x.1 = .str name ∧ numericKey name = none := by
  have htable : (writtenHeaders headers).table = headers.filterMap fun x => match x.1 with
      | .str key => some (symKey key, x.2)
      | .long _ => none := by
    rw [Headers.table, writtenHeaders, List.map_filterMap]
    congr 1
    funext ⟨key, v⟩
    cases key <;> rfl
  rw [headerParse_toString P beyond h, Option.some.injEq, htable, filterMap_eq_self_iff]
  refine forall₂_congr fun x _ => ?_
  obtain ⟨key, v⟩ := x
  cases key with
  | long n => simp
  | str key => simp [symKey_eq_str]

theorem plainHeaders_singleton {key : ArrayKey} {v : Bytes} (hkey : PlainName key.stringify)
    (hv : PlainValue v) : PlainHeaders [(key, .scalar (.str v))] :=
  ⟨by simp, by simpa using hkey, by simpa using PlainHeaderValue.single hv⟩

theorem headerParse_toString_host :
    headerParse rawUrls (fun _ => [])
      (headerToString [(.str (ascii "Host"), .scalar (.str (ascii "x")))]) =
      some [(.str (ascii "Host"), .scalar (.str (ascii "x")))] :=
  (headerParse_toString_iff rawUrls (fun _ => [])
    (plainHeaders_singleton (by decide +kernel) (by decide +kernel))).mpr
    (List.forall_mem_singleton.mpr ⟨_, rfl, by decide⟩)

/-- A header that PHP keeps under an integer is not written, and one that is kept under a numeral is
read as an integer. -/
theorem headerParse_toString_integer :
    PlainHeaders [(.long 123, .scalar (.str (ascii "a")))] ∧
      headerParse rawUrls (fun _ => []) (headerToString [(.long 123, .scalar (.str (ascii "a")))]) =
        some [] ∧
      PlainHeaders [(.str (ascii "123"), .scalar (.str (ascii "a")))] ∧
      headerParse rawUrls (fun _ => [])
          (headerToString [(.str (ascii "123"), .scalar (.str (ascii "a")))]) =
        some [(.long 123, .scalar (.str (ascii "a")))] :=
  ⟨plainHeaders_singleton (by decide +kernel) (by decide +kernel), by decide +kernel,
    plainHeaders_singleton (by decide +kernel) (by decide +kernel), by decide +kernel⟩

end ExtHttp
