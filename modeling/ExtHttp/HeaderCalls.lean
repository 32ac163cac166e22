import ExtHttp.HeaderSafety

/-!
# Calls of the header parser

`http\Header\Parser::parse`, called again and again on one object, and what the loop condition of
`php_http_header_parser_parse` looks up in the table of states.
-/
namespace ExtHttp
open BufferLoop

/-- `php_http_header_parser_states`: the states in their order, and whether they need data. -/
def headerStates : List (HeaderState × Bool) :=
  [(.start, true), (.key, true), (.value, true), (.valueEx, false), (.headerDone, false),
    (.done, false)]

/-- The number of a state, by which the table is indexed. -/
def HeaderState.index : HeaderState → ℤ
  | .failure => -1
  | .start => 0
  | .key => 1
  | .value => 2
  | .valueEx => 3
  | .headerDone => 4
  | .done => 5

def HeaderState.InTable (state : HeaderState) : Prop :=
  0 ≤ state.index ∧ state.index < headerStates.length

theorem inTable_iff {state : HeaderState} : state.InTable ↔ state ≠ .failure := by
  cases state <;> simp [HeaderState.InTable, HeaderState.index, headerStates]

/-- What a call of the method brings: its flags, the data, and the array for the headers. -/
structure HeaderData (S : Type) where
  flags : HeaderCall
  data : Bytes
  headers : S

/-- A call of `php_http_header_parser_parse`. -/
structure HeaderParse (S : Type) where
  flags : HeaderCall
  parser : HeaderParser
  headers : S
  buffer : Bytes

variable {Url S : Type} (P : UrlParsers Url) (sink : HeaderSink Url S)

/-- The calls that a series of calls of `http\Header\Parser::parse` makes. A failure ends
nothing. -/
def headerCalls (hp : HeaderParser) (b : Bytes) : List (HeaderData S) → List (HeaderParse S)
  | [] => []
  | m :: ms =>
      let o := (headerLoop P sink m.flags).run (hp, m.headers) (b ++ m.data)
      ⟨m.flags, hp, m.headers, b ++ m.data⟩ :: headerCalls o.2.1.1 o.2.2 ms

/-- The table is consulted in the loop condition as soon as the buffer is empty. -/
def HeaderParse.LooksUp (call : HeaderParse S) (state : HeaderState) : Prop :=
  ∃ d, (headerLoop P sink call.flags).Visits ((call.parser, call.headers), call.buffer) d ∧
    d.2 = [] ∧
    d.1.1.state = state

/-- `FAILURE` is looked up where a call begins with it and has nothing in its buffer, and nowhere
else. -/
theorem looksUp_failure {call : HeaderParse S} : call.LooksUp P sink .failure ↔
    call.parser.state = .failure ∧ call.buffer = [] := by
  constructor
  · rintro ⟨d, hd, hb, hs⟩
    rcases Relation.ReflTransGen.cases_tail hd with rfl | ⟨e, -, hn⟩
    · exact ⟨hs, hb⟩
    · exact absurd hs ((headerTurn_next P sink hn).2.1)
  · rintro ⟨hs, hb⟩
    exact ⟨_, .refl _, hb, hs⟩

/-- In every series of calls all indices are in range if and only if no call comes upon a parser in
`FAILURE` with nothing in the buffer, its own data included. -/
theorem tableIndices_iff (ms : List (HeaderData S)) :
    (∀ call ∈ headerCalls P sink headerParserInit [] ms, ∀ state, call.LooksUp P sink state →
      state.InTable) ↔
    ∀ call ∈ headerCalls P sink headerParserInit [] ms,
      ¬ (call.parser.state = .failure ∧ call.buffer = []) := by
  refine forall₂_congr fun call _ => ?_
  rw [← looksUp_failure P sink]
  constructor
  · exact fun h hup => inTable_iff.mp (h _ hup) rfl
  · rintro h state hup
    refine inTable_iff.mpr ?_
    rintro rfl
    exact h hup

/-- A header that is cut short by a NUL fails behind the last byte of the buffer; an empty string
after it has the entry in front of the table looked up. -/
theorem tableIndices_below : ¬ ∀ call ∈ headerCalls rawUrls headerLog headerParserInit []
    [⟨⟨true, fun _ => []⟩, ascii "A: b\x00", (⟨[], []⟩ : HeaderLog Bytes)⟩,
      ⟨⟨false, fun _ => []⟩, [], ⟨[], []⟩⟩],
    ∀ state, call.LooksUp rawUrls headerLog state → state.InTable := by
  have hcall : (⟨⟨false, fun _ => []⟩, ⟨.failure, none, none⟩, ⟨[], []⟩, []⟩ : HeaderParse
      (HeaderLog Bytes)) ∈ headerCalls rawUrls headerLog headerParserInit []
        [⟨⟨true, fun _ => []⟩, ascii "A: b\x00", (⟨[], []⟩ : HeaderLog Bytes)⟩,
          ⟨⟨false, fun _ => []⟩, [], ⟨[], []⟩⟩] := by
    have hrun : (headerLoop rawUrls headerLog ⟨true, fun _ => []⟩).run
        (headerParserInit, (⟨[], []⟩ : HeaderLog Bytes)) (ascii "A: b\x00") =
        (.failure, (⟨.failure, none, none⟩, ⟨[], []⟩), []) := by decide +kernel
    simp only [headerCalls, List.nil_append, hrun, List.append_nil]
    exact .tail _ (.head _)
  exact fun h => absurd (h _ hcall .failure ⟨_, .refl _, rfl, rfl⟩) (by simp [inTable_iff])

end ExtHttp
