import ExtHttp.MessageText

/-! Messages one behind the other, parsed by one greedy parser: each comes out as if it were parsed
alone, but for those that the inflate stream of an earlier one gets hold of or that need other flags
of it. -/
namespace ExtHttp
open BufferLoop

variable {Url : Type} {E : Engine Url} {call : MessageCall} {mp : MessageParser Url}

/-- A message that ends itself and that a fresh parser can decode. -/
structure MessageText.SelfDelimiting (t : MessageText Url) (E : Engine Url) (call : MessageCall) :
    Prop extends MessageText.Delimited t E call where
  decoded : decodeBody E (t.stream E call none) t.payload.data ≠ none

def wire (ts : List (MessageText Url)) : Bytes := ts.flatMap MessageText.text

/-- The chain that a fresh parser makes of the messages has the ones it makes of each. -/
structure Pipelined (E : Engine Url) (call : MessageCall) (ts : List (MessageText Url)) : Prop where
  result : (messageParse E call messageParserInit (wire ts)).1 = some .start
  message : (messageParse E call messageParserInit (wire ts)).2.1.message =
    ts.reverse.flatMap fun t => (messageParse E call messageParserInit t.text).2.1.message

/-- The data of `t` come out of the stream that earlier messages have left behind as they do for a
fresh parser. Data of a message that is not compressed itself inflate to themselves; for a
compressed one the stream has not been set to raw data, or inflates the data as raw ones to the
same. -/
def Unharmed (E : Engine Url) (call : MessageCall) (left : InflateStream)
    (t : MessageText Url) : Prop :=
  if t.compressed E call then left.raw = true →
    (inflateUpdate E (inflateInit true) t.payload.data).map Prod.fst =
      (inflateUpdate E (inflateInit false) t.payload.data).map Prod.fst
  else (inflateUpdate E left t.payload.data).map Prod.fst = some t.payload.data

/-- Behind the data of `t`, and behind `inflate` in front of its headers. -/
def MessageText.behind (t : MessageText Url) (E : Engine Url) (call : MessageCall)
    (inflate : Option InflateStream) : Option InflateStream :=
  (decodeBody E (t.stream E call inflate) t.payload.data).elim none Prod.snd

/-- No message with body data is harmed by the inflate stream that the earlier ones have left
behind. -/
def Unspoiled (E : Engine Url) (call : MessageCall) :
    Option InflateStream → List (MessageText Url) → Prop
  | _, [] => True
  | inflate, t :: ts =>
      (∀ left ∈ inflate, t.payload.data ≠ [] → Unharmed E call left t) ∧
      Unspoiled E call (t.behind E call inflate) ts

instance (E : Engine Url) (call : MessageCall) (left : InflateStream) (t : MessageText Url) :
    Decidable (Unharmed E call left t) := inferInstanceAs (Decidable (ite _ _ _))

instance decidableUnspoiled (E : Engine Url) (call : MessageCall) :
    ∀ inflate ts, Decidable (Unspoiled E call inflate ts)
  | _, [] => .isTrue trivial
  | inflate, t :: ts =>
      have := decidableUnspoiled E call (t.behind E call inflate) ts
      inferInstanceAs (Decidable (_ ∧ _))

theorem decodeBody_data (stream : InflateStream) {data : Bytes} (hdata : data ≠ []) :
    (decodeBody E (some stream) data).map Prod.fst =
      (inflateUpdate E stream data).map Prod.fst := by
  rw [decodeBody, if_neg hdata]
  cases inflateUpdate E stream data <;> rfl

/-- The body of a message that is parsed alone. -/
def MessageText.body (t : MessageText Url) (E : Engine Url) (call : MessageCall) : Bytes :=
  ((decodeBody E (t.stream E call none) t.payload.data).map Prod.fst).getD []

theorem idle_init : Idle (messageParserInit : MessageParser Url) :=
  ⟨rfl, rfl, by simp [Begun, messageParserInit]⟩

theorem Idle.run_nil (h : Idle mp) :
    (messageLoop E call).run mp.config [] = (some .start, mp.config, []) :=
  Machine.run_ret (idle_wait _ h.stack)

theorem MessageText.SelfDelimiting.parse {t : MessageText Url} (h : t.SelfDelimiting E call)
    (hgreedy : call.greedy = true) (hlen : t.text.length < 2 ^ 64) :
    (messageParse E call messageParserInit t.text).2.1.message =
      [t.parsed E call (t.body E call)] := by
  have hrun := h.toDelimited.run idle_init hgreedy [] (by simpa using hlen)
  obtain ⟨⟨dec, inflate⟩, hdec⟩ := Option.ne_none_iff_exists'.mp h.decoded
  obtain ⟨mp', hidle, -, hmessage, ho⟩ := hrun.2 dec inflate hdec
  rw [List.append_nil] at ho
  have hbody : t.body E call = dec := by simp [MessageText.body, hdec]
  rw [messageParse, ho, hidle.run_nil, hbody]
  exact hmessage

theorem parsed_inj {t : MessageText Url} {dec dec' : Bytes} :
    t.parsed E call dec = t.parsed E call dec' ↔ dec = dec' :=
  ⟨fun h => congrArg Message.body h, fun h => h ▸ rfl⟩

theorem MessageText.SelfDelimiting.body_eq {t : MessageText Url} (h : t.SelfDelimiting E call) :
    (decodeBody E (t.stream E call none) t.payload.data).map Prod.fst = some (t.body E call) := by
  obtain ⟨o, ho⟩ := Option.ne_none_iff_exists'.mp h.decoded
  simp [MessageText.body, ho]

/-- Behind the inflate stream of an earlier message a message has its own body if and only if that
does not harm it. -/
theorem MessageText.SelfDelimiting.body_iff {t : MessageText Url} (h : t.SelfDelimiting E call)
    (inflate : Option InflateStream) :
    (decodeBody E (t.stream E call inflate) t.payload.data).map Prod.fst = some (t.body E call) ↔
      ∀ left ∈ inflate, t.payload.data ≠ [] → Unharmed E call left t := by
  have hbody := h.body_eq
  by_cases hdata : t.payload.data = []
  · rw [hdata] at hbody ⊢
    simp only [decodeBody_nil, Option.map_some, Option.some.injEq] at hbody ⊢
    exact iff_of_true hbody fun _ _ hne => absurd rfl hne
  cases inflate with
  | none => exact iff_of_true hbody (by simp)
  | some left =>
    simp only [Option.mem_some_iff, forall_eq', Unharmed, hdata, not_false_eq_true, true_imp_iff,
      ne_eq]
    by_cases hcoded : t.compressed E call = true
    · rw [MessageText.stream, if_pos hcoded, decodeBody_data _ hdata] at hbody ⊢
      rw [if_pos hcoded, ← hbody]
      cases left with
      | mk raw inputs buffer => cases raw <;> simp [inflateReset]
    · rw [MessageText.stream, if_neg hcoded] at hbody ⊢
      rw [decodeBody_plain, Option.map_some, Option.some.injEq] at hbody
      rw [if_neg hcoded, decodeBody_data _ hdata, ← hbody]

/-- What the parser makes of the messages, starting between two of them. -/
theorem Idle.run_wire {ts : List (MessageText Url)} (hmp : Idle mp)
    (h : ∀ t ∈ ts, t.SelfDelimiting E call) (hgreedy : call.greedy = true)
    (hlen : (wire ts).length < 2 ^ 64) :
    let o := (messageLoop E call).run mp.config (wire ts)
    (o.1 = some .start → ∃ ms, o.2.1.parser.message = ms ++ mp.message ∧ ms.length = ts.length) ∧
      (o.1 = some .start ∧ o.2.1.parser.message =
          (ts.reverse.map fun t => t.parsed E call (t.body E call)) ++ mp.message ↔
        Unspoiled E call mp.inflate ts) := by
  induction ts generalizing mp with
  | nil =>
    have hrun : (messageLoop E call).run mp.config (wire ([] : List (MessageText Url))) =
        (some .start, mp.config, []) :=
      hmp.run_nil
    rw [hrun]
    exact ⟨fun _ => ⟨[], rfl, rfl⟩, iff_of_true ⟨rfl, rfl⟩ trivial⟩
  | cons t ts ih =>
    have ht := h t (by simp)
    have hrun := ht.toDelimited.run hmp hgreedy (wire ts) hlen
    have hwire : wire (t :: ts) = t.text ++ wire ts := rfl
    rw [hwire]
    have hbody := ht.body_iff mp.inflate
    cases hdec : decodeBody E (t.stream E call mp.inflate) t.payload.data with
    | none =>
      have hfailed := hrun.1 hdec
      refine ⟨fun hstart => by simp [hfailed] at hstart, ?_⟩
      refine iff_of_false (fun hstart => by simp [hfailed] at hstart) fun hun => ?_
      have hsome := hbody.mpr hun.1
      simp [hdec] at hsome
    | some o =>
      obtain ⟨dec, inflate⟩ := o
      obtain ⟨mp', hidle, hinflate, hmessage, ho⟩ := hrun.2 dec inflate hdec
      have hlen' : (wire ts).length < 2 ^ 64 := by
        rw [hwire, List.length_append] at hlen
        omega
      obtain ⟨hchain, hiff⟩ := ih hidle (fun x hx => h x (by simp [hx])) hlen'
      have hbehind : t.behind E call mp.inflate = mp'.inflate := by
        rw [MessageText.behind, hdec, hinflate]
        rfl
      rw [hdec, Option.map_some, Option.some.injEq] at hbody
      rw [ho]
      refine ⟨fun hstart => ?_, ?_⟩
      · obtain ⟨ms, hms, hcount⟩ := hchain hstart
        exact ⟨ms ++ [t.parsed E call dec], by simp [hms, hmessage], by simp [hcount]⟩
      · rw [Unspoiled, ← hbody, ← @parsed_inj _ E call t, hbehind, ← hiff]
        constructor
        · rintro ⟨hstart, hall⟩
          obtain ⟨ms, hms, hcount⟩ := hchain hstart
          rw [hms, hmessage, List.reverse_cons, List.map_append, List.append_assoc] at hall
          obtain ⟨hfront, hrest⟩ := List.append_inj hall (by simp [hcount])
          refine ⟨by simpa using hrest, hstart, ?_⟩
          rw [hms, hfront]
        · rintro ⟨hparsed, hstart, hall⟩
          refine ⟨hstart, ?_⟩
          rw [hall, hmessage, hparsed]
          simp

/-- Messages that end themselves come out of one parser as they do out of a fresh one each, if and
only if none is harmed by the inflate stream of an earlier one. -/
theorem pipelined_iff {ts : List (MessageText Url)} (h : ∀ t ∈ ts, t.SelfDelimiting E call)
    (hgreedy : call.greedy = true) (hlen : (wire ts).length < 2 ^ 64) :
    Pipelined E call ts ↔ Unspoiled E call none ts := by
  have hrun := (idle_init.run_wire h hgreedy hlen).2
  have halone : (ts.reverse.flatMap fun t =>
      (messageParse E call messageParserInit t.text).2.1.message) =
      ts.reverse.map fun t => t.parsed E call (t.body E call) := by
    rw [List.map_eq_flatMap]
    refine List.flatMap_congr fun t ht => ?_
    have hmem := List.mem_reverse.mp ht
    refine (h t hmem).parse hgreedy (lt_of_le_of_lt ?_ hlen)
    exact (List.sublist_flatten_of_mem (List.mem_map_of_mem hmem)).length_le
  rw [show none = (messageParserInit : MessageParser Url).inflate from rfl, ← hrun]
  constructor
  · rintro ⟨hstart, hmessage⟩
    refine ⟨hstart, ?_⟩
    rw [halone] at hmessage
    exact hmessage.trans (List.append_nil _).symm
  · rintro ⟨hstart, hmessage⟩
    refine ⟨hstart, ?_⟩
    rw [halone]
    exact hmessage.trans (List.append_nil _)

/-- The word "hello" as it is deflated. -/
def rawHello : Bytes := [203, 72, 205, 201, 201, 7, 0]

/-- The word "hello" as zlib compresses it. -/
def zlibHello : Bytes := [120, 156] ++ rawHello ++ [6, 44, 2, 21]

/-- zlib on these two: behind the end of a stream nothing comes out. -/
def helloEngine : Engine Bytes :=
  { plainEngine with inflateRounds := fun raw inputs input =>
      if inputs ≠ [] then .ok [] input.length
      else if input = (if raw then rawHello else zlibHello) then .ok (ascii "hello") 0
      else .dataError 0 }

def greedyCall : MessageCall := { plainCall with greedy := true }

/-- A response with a plain or compressed body. -/
def okText (coding : List (Bytes × Bytes)) (length body : Bytes) : MessageText Bytes where
  head := headText (ascii "HTTP/1.1 200 OK") (coding ++ [(ascii "Content-Length", length)])
  message := ⟨some (.response ⟨1, 1⟩ 200 (some (ascii "OK"))),
    (coding ++ [(ascii "Content-Length", length)]).foldl (fun hs f => Headers.add hs f.1 f.2) [],
    []⟩
  payload := .plain body

theorem okText_selfDelimiting {coding : List (Bytes × Bytes)} {length : Bytes} {body : Bytes}
    (hfields : ∀ f ∈ coding ++ [(ascii "Content-Length", length)], PlainField f) (hbody : body ≠ [])
    (hstate : (messageHeaderDone helloEngine greedyCall messageParserInit
      (okText coding length body).message).2.2 = .bodyLength)
    (hlength : body.length = (messageHeaderDone helloEngine greedyCall messageParserInit
      (okText coding length body).message).1.bodyLength)
    (hdecoded : decodeBody helloEngine
      ((okText coding length body).stream helloEngine greedyCall none)
      body ≠ none) : (okText coding length body).SelfDelimiting helloEngine greedyCall := by
  have hhead : HeadBlock helloEngine greedyCall.beyond (okText coding length body).head
      (okText coding length body).message :=
    headBlock_text _ (by decide +kernel) (by decide +kernel) (by decide +kernel) (by decide +kernel)
      (by decide) hfields
  refine ⟨⟨hhead, ?_⟩, hdecoded⟩
  rw [hstate]
  exact .length hbody hlength

/-- Raw data behind data with a header, which are behind a plain message. -/
theorem pipelined_plain_first : Pipelined helloEngine greedyCall
    [okText [] (ascii "1") (ascii "a"),
      okText [(ascii "Content-Encoding", ascii "gzip")] (ascii "13") zlibHello,
      okText [(ascii "Content-Encoding", ascii "deflate")] (ascii "7") rawHello] := by
  refine (pipelined_iff ?_ rfl (by decide +kernel)).mpr ?_
  · intro t ht
    simp only [List.mem_cons, List.not_mem_nil, or_false] at ht
    rcases ht with rfl | rfl | rfl <;>
      exact okText_selfDelimiting (by decide +kernel) (by decide) (by decide +kernel)
        (by decide +kernel) (by decide +kernel)
  · decide +kernel

/-- A plain message behind a compressed one loses its body, and data with a header fail behind raw
ones. -/
theorem pipelined_plain_second :
    ((messageParse helloEngine greedyCall messageParserInit
      (ascii "HTTP/1.1 200 OK\r\nContent-Encoding: gzip\r\nContent-Length: 13\r\n\r\n" ++
        zlibHello ++
        ascii "HTTP/1.1 200 OK\r\nContent-Length: 1\r\n\r\na")).2.1.message.map Message.body =
      [[], ascii "hello"] ∧
    (messageParse helloEngine greedyCall messageParserInit
      (ascii "HTTP/1.1 200 OK\r\nContent-Length: 1\r\n\r\na")).2.1.message.map Message.body =
      [ascii "a"]) ∧
    (messageParse helloEngine greedyCall messageParserInit
      (ascii "HTTP/1.1 200 OK\r\nContent-Encoding: deflate\r\nContent-Length: 7\r\n\r\n" ++
        rawHello ++
        (ascii "HTTP/1.1 200 OK\r\nContent-Encoding: gzip\r\nContent-Length: 13\r\n\r\n" ++
          zlibHello))).1 = some .failure ∧
    (messageParse helloEngine greedyCall messageParserInit
      (ascii "HTTP/1.1 200 OK\r\nContent-Encoding: gzip\r\nContent-Length: 13\r\n\r\n" ++
        zlibHello)).2.1.message.map Message.body = [ascii "hello"] := by
  -- a literal is slow to read for the kernel
  simp only [ascii, String.reduceToList, List.map_cons, List.map_nil]
  decide +kernel

end ExtHttp
