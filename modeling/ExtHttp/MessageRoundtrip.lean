import ExtHttp.AuthorityKept
import ExtHttp.LengthFraming
import ExtHttp.MessageChain
import ExtHttp.Pipelining
import ExtHttp.WrittenHeaders

/-!
# Writing and reading chains of messages

`php_http_message_parse` reads the chain that `php_http_message_serialize` has written. Where a
response without a body does not give its length, it takes what follows for its body, so it must be
the last one that is written.
-/
namespace ExtHttp
open BufferLoop LinkedChain

section
variable {Url : Type} {E : Engine Url} {beyond : Bytes → Bytes} {mp : MessageParser Url}
    {ms : Chain Url}

/-- The flags that `php_http_message_parse` sets. -/
def parseCall (beyond : Bytes → Bytes) (greedy : Bool) : MessageCall :=
  ⟨true, false, false, greedy, beyond⟩

/-- The parser that `php_http_message_parse` starts with, with a message to parse into. -/
def blankParser : MessageParser Url :=
  { (messageParserInit : MessageParser Url) with message := [blankMessage] }

/-- `php_http_message_parse`, into a message of its own: the chain, unless the parser fails. Where
the parser follows a null pointer, there is nothing at all. -/
def Message.parse (E : Engine Url) (beyond : Bytes → Bytes) (greedy : Bool) (str : Bytes) :
    Option (Option (Chain Url)) :=
  let o := messageParse E (parseCall beyond greedy) blankParser str
  o.1.map fun state => if state = .failure then none else some o.2.1.message

/-! ### Between the messages -/

/-- The parser is in front of a message that will be in front of `ms`. The first one goes to the
message that is there. -/
structure Waiting (mp : MessageParser Url) (ms : Chain Url) : Prop where
  stack : mp.stack = []
  header : mp.header = headerParserInit
  inflate : mp.inflate = none
  message : mp.message = ms ∧ Begun ms ∨ mp.message = [blankMessage] ∧ ms = []

theorem waiting_blank : Waiting (blankParser : MessageParser Url) [] :=
  ⟨rfl, rfl, rfl, .inr ⟨rfl, rfl⟩⟩

theorem Waiting.read (h : Waiting mp ms) {head : Bytes} {m : Message Url}
    (hhead : HeadBlock E beyond head m) (cleanup : Bool) (rest : Bytes) :
    (headerLoop E.urls messageSink ⟨cleanup, beyond⟩).run
      (headerParserInit, mp.message) (head ++ rest) =
        (.done, (headerParserInit, m :: ms), rest) := by
  rcases h.message with ⟨hmessage, hms⟩ | ⟨hmessage, rfl⟩
  · rw [hmessage]
    exact hhead.read_behind hms cleanup rest
  · rw [hmessage]
    exact hhead.read_blank cleanup rest

/-! ### The end of the headers -/

theorem headerDone_length {m : Message Url}
    (hcoding : m.hdrs.find (ascii "Transfer-Encoding") = none)
    (hencoding : m.hdrs.find (ascii "Content-Encoding") = none)
    (hrange : m.hdrs.find (ascii "Content-Range") = none) {n : ℕ}
    (hlength : m.hdrs.find (ascii "Content-Length") = some (.scalar (.str (formatLong n))))
    (hlong : E.strToLong (formatLong n) = n) (greedy : Bool) :
    messageHeaderDone E (parseCall beyond greedy) messageParserInit m =
      ({ messageParserInit with bodyLength := n },
        { m with
          hdrs := m.hdrs.update (ascii "X-Original-Content-Length")
            (.scalar (.str (formatLong n))) },
        lengthState n) := by
  have hother : ascii "X-Original-Content-Length" ≠ ascii "Content-Range" ∧
      ascii "X-Original-Content-Length" ≠ ascii "Content-Encoding" := by decide
  have hframing : framing E m.hdrs =
      (m.hdrs.update (ascii "X-Original-Content-Length") (.scalar (.str (formatLong n))), false,
        (n : ℤ)) := by
    rw [framing, hcoding, hlength]
    exact congrArg (fun long => (_, false, long)) hlong
  have hrange' := (Headers.find_update_ne m.hdrs hother.1
    (.scalar (.str (formatLong n)))).trans hrange
  have hencoding' := (Headers.find_update_ne m.hdrs hother.2
    (.scalar (.str (formatLong n)))).trans hencoding
  unfold messageHeaderDone
  rw [hframing]
  dsimp only
  rw [hrange', contentEncoding, Option.map_none, Option.elim_none, hencoding']
  simp [parseCall]

theorem headerDone_noLength {m : Message Url}
    (hcoding : m.hdrs.find (ascii "Transfer-Encoding") = none)
    (hencoding : m.hdrs.find (ascii "Content-Encoding") = none)
    (hrange : m.hdrs.find (ascii "Content-Range") = none)
    (hlength : m.hdrs.find (ascii "Content-Length") = none) (mp : MessageParser Url)
    (greedy : Bool) :
    messageHeaderDone E (parseCall beyond greedy) mp m =
      (mp, m, if m.isRequest then .done else .bodyDumb) := by
  have hframing : framing E m.hdrs = (m.hdrs, false, -1) := by rw [framing, hcoding, hlength]
  unfold messageHeaderDone
  rw [hframing]
  dsimp only
  rw [hrange, contentEncoding, Option.map_none, Option.elim_none, hencoding]
  simp [parseCall]

end

/-! ### A written message -/

namespace OutgoingMessage

/-- The message says where it ends. -/
def EndsItself (out : OutgoingMessage) : Prop :=
  out.message.body ≠ [] ∨ out.message.isRequest = true ∨
    out.message.headerString (ascii "Content-Length") = some (ascii "0")

/-- A message that is read as it is written. -/
structure Readable (P : UrlParsers HttpUrl) (out : OutgoingMessage) :
    Prop extends out.PlainHeaders where
  info : ∃ info, out.message.info = some info ∧ info.Readable P ∧
    ∀ c, (infoToString crlf info).head? = some c → isSpace c = false

/-- What is read. -/
def reread (out : OutgoingMessage) : Message HttpUrl :=
  let hdrs := (updateHeaders out).stringed
  ⟨out.message.info, (hdrs.find (ascii "Content-Length")).elim hdrs fun v =>
    hdrs.update (ascii "X-Original-Content-Length") v, out.message.body⟩

variable {out : OutgoingMessage} {E : Engine HttpUrl} {beyond : Bytes → Bytes}

/-- The headers of a message up to the empty line, and what the header parser makes of them. -/
def wireText (out : OutgoingMessage) : MessageText HttpUrl :=
  ⟨messageHeaders out ++ crlf, ⟨out.message.info, (updateHeaders out).stringed, []⟩,
    .plain out.message.body⟩

theorem Readable.head (h : out.Readable E.urls) :
    HeadBlock E beyond out.wireText.head out.wireText.message := by
  obtain ⟨info, hinfo, hreadable, hspace⟩ := h.info
  obtain ⟨line, hline, hne, heol, hnul⟩ := hreadable.line
  obtain ⟨htext, hplain, hbuilt⟩ := h.updated.fields
  have hparse := infoParse_infoToString hreadable
  rw [hline] at hparse hspace
  have hhead : messageHeaders out ++ crlf = headText line (updateHeaders out).stringed.fields := by
    simp only [messageHeaders, hinfo, Option.map_some, Option.getD_some, hline, htext, headText,
      List.append_assoc]
  have hfirst : ∀ c, line.head? = some c → isSpace c = false := fun c hc =>
    hspace c (by rw [List.head?_append_of_ne_nil _ hne]; exact hc)
  have hblock := headBlock_text (E := E) beyond hne hfirst heol hnul hparse hplain
  rw [hbuilt] at hblock
  rw [wireText, hhead, hinfo]
  exact hblock

/-- The length that is written is that of the body, and it is missing only if there is no body. -/
theorem PlainHeaders.length (h : out.PlainHeaders) :
    (updateHeaders out).stringed.find (ascii "Content-Length") =
        some (.scalar (.str (formatLong out.message.body.length))) ∨
      (updateHeaders out).stringed.find (ascii "Content-Length") = none ∧ out.message.body = [] ∧
        out.message.headerString (ascii "Content-Length") ≠ some (ascii "0") := by
  have hranged : ¬ out.Ranged := by simp [Ranged, h.range]
  rw [find_stringed]
  by_cases hbody : out.message.body = []
  · have hspec := updateHeaders_spec out
    rcases (written_contentLength hranged hbody).1 with hzero | hnone
    · left
      obtain ⟨v, hv, hjoin⟩ := Option.map_eq_some_iff.mp hzero
      change (updateHeaders out).find (ascii "Content-Length") = some v at hv
      have hplain := h.updated.value _ (Headers.find_mem hv)
      rw [hv, Option.map_some, hbody]
      cases v with
      | scalar v =>
        change v.valueString = ascii "0" at hjoin
        rw [HeaderValue.stringed, hjoin]
        rfl
      | array vs =>
        have hcomma := (plain_join_array hplain).2
        rw [hjoin] at hcomma
        exact absurd hcomma (by decide)
    · right
      have hfind : (updateHeaders out).find (ascii "Content-Length") = none :=
        headerString_eq_none.mp hnone
      refine ⟨by rw [hfind]; rfl, hbody, fun hcl => ?_⟩
      have hkept : out.Settled := settled_iff.mpr (.empty hbody hcl)
      rw [hkept, ← headerString_eq_none, hcl] at hfind
      cases hfind
  · left
    have hlength : (updateHeaders out).find (ascii "Content-Length") =
        some (.scalar (.long out.message.body.length)) :=
      (written_body hranged hbody).1
    rw [hlength]
    rfl

theorem updated_none {key : Bytes} (hlength : ascii "Content-Length" ≠ key)
    (htype : ascii "Content-Type" ≠ key) (hnone : out.message.hdrs.find key = none) :
    (updateHeaders out).stringed.find key = none := by
  rw [find_stringed, find_updateHeaders out hlength (.inr htype), hnone]
  rfl

/-- PHP reads the numerals that are written for the sizes of bodies. -/
def ReadsLengths (E : Engine HttpUrl) : Prop := ∀ n : ℕ, n < 2 ^ 63 → E.strToLong (formatLong n) = n

/-- What is decided behind the headers: the message ends where its body does, or it is a response
without a length, and then it has no body. -/
inductive Framed (E : Engine HttpUrl) (beyond : Bytes → Bytes) (out : OutgoingMessage) : Prop
  | delimited (h : out.wireText.Delimited E (parseCall beyond true))
      (hinflate : out.wireText.compressed E (parseCall beyond true) = false)
      (hparsed : out.wireText.parsed E (parseCall beyond true) out.message.body = out.reread)
  | endless (hopen : ¬ out.EndsItself) (hbody : out.message.body = [])
      (hdone : ∀ mp, messageHeaderDone E (parseCall beyond true) mp out.wireText.message =
        (mp, out.reread, .bodyDumb))

theorem Readable.framed (h : out.Readable E.urls) (hE : ReadsLengths E) : Framed E beyond out := by
  have hcoding : out.wireText.message.hdrs.find (ascii "Transfer-Encoding") = none :=
    updated_none (by decide) (by decide) h.coding
  have hencoding : out.wireText.message.hdrs.find (ascii "Content-Encoding") = none :=
    updated_none (by decide) (by decide) h.encoding
  have hrange : out.wireText.message.hdrs.find (ascii "Content-Range") = none :=
    updated_none (by decide) (by decide) h.range
  rcases h.length with hlength | ⟨hlength, hbody, hzero⟩
  · have hdone := @headerDone_length _ E beyond _ hcoding hencoding hrange _ hlength
      (hE _ out.size_lt) true
    have hends : Payload.Ends
        { (messageParserInit : MessageParser HttpUrl) with bodyLength := out.message.body.length }
        (lengthState out.message.body.length) (.plain out.message.body) := by
      by_cases hbody : out.message.body = []
      · rw [hbody]
        exact .bodyDone
      · have hstate : lengthState out.message.body.length = .bodyLength :=
          if_pos fun h0 => hbody (List.length_eq_zero_iff.mp h0)
        rw [hstate]
        exact .length hbody rfl
    refine .delimited ⟨h.head, ?_⟩ ?_ ?_
    · rw [hdone]
      exact hends
    · rw [MessageText.compressed, hdone]
      rfl
    · rw [MessageText.parsed, hdone, reread, hlength]
      rfl
  · have hdone := @headerDone_noLength _ E beyond _ hcoding hencoding hrange hlength
    have hreread : out.wireText.message = out.reread := by
      rw [reread, hlength, hbody]
      rfl
    have htype : out.wireText.message.isRequest = out.message.isRequest := rfl
    cases hrequest : out.message.isRequest with
    | true =>
      have hdone' := hdone messageParserInit true
      rw [htype, hrequest, if_pos rfl] at hdone'
      refine .delimited ⟨h.head, ?_⟩ ?_ ?_
      · rw [hdone', wireText, hbody]
        exact .done
      · rw [MessageText.compressed, hdone']
        rfl
      · rw [MessageText.parsed, hdone', hreread, hbody]
        simp [reread, hbody]
    | false =>
      refine .endless (fun hends => ?_) hbody fun mp => ?_
      · rcases hends with hne | htrue | hcl
        · exact hne hbody
        · rw [hrequest] at htrue
          cases htrue
        · exact hzero hcl
      · rw [hdone mp true, htype, hrequest, ← hreread]
        rfl

/-! ### One message after the other -/

/-- What `php_http_message_serialize` writes of a message. -/
def serialized (out : OutgoingMessage) : Bytes := messageText out ++ crlf

theorem serialized_eq (out : OutgoingMessage) :
    serialized out = out.wireText.text ++ if out.message.body = [] then [] else crlf := by
  rw [serialized, messageText, MessageText.text, wireText]
  split_ifs with hbody
  · simp [Payload.text, hbody]
  · simp [Payload.text]

variable {mp : MessageParser HttpUrl} {ms : Chain HttpUrl}

theorem delimited_run (h : out.wireText.Delimited E (parseCall beyond true))
    (hinflate : out.wireText.compressed E (parseCall beyond true) = false) (hmp : Waiting mp ms)
    (rest : Bytes) (hlen : (serialized out ++ rest).length < 2 ^ 64) :
    ∃ mp' : MessageParser HttpUrl, Idle mp' ∧ mp'.inflate = none ∧
      mp'.message = out.wireText.parsed E (parseCall beyond true) out.message.body :: ms ∧
      (messageLoop E (parseCall beyond true)).run mp.config (serialized out ++ rest) =
        (messageLoop E (parseCall beyond true)).run mp'.config rest := by
  rw [serialized_eq, List.append_assoc] at hlen ⊢
  obtain ⟨mp', hidle, hnone, hmessage, hrun⟩ := (h.run_of_read hmp.stack hmp.header
    (fun rest => hmp.read h.head true rest) rfl _ hlen).2 out.message.body none
      (by rw [MessageText.stream, hinflate, hmp.inflate]; exact decodeBody_plain _)
  refine ⟨mp', hidle, hnone, hmessage, hrun.trans ?_⟩
  rw [← idle_run_dropWhile hidle.stack, ← idle_run_dropWhile hidle.stack rest]
  split_ifs
  · rfl
  · rfl

/-- A message that says where it ends is read, and the parser waits for another one. -/
theorem Readable.run (h : out.Readable E.urls) (hE : ReadsLengths E) (hends : out.EndsItself)
    (hmp : Waiting mp ms) (rest : Bytes) (hlen : (serialized out ++ rest).length < 2 ^ 64) :
    ∃ mp', Waiting mp' (out.reread :: ms) ∧ (messageLoop E (parseCall beyond true)).run mp.config
      (serialized out ++ rest) = (messageLoop E (parseCall beyond true)).run mp'.config rest := by
  have hframed : Framed E beyond out := h.framed hE
  cases hframed with
  | delimited hdelimited hinflate hparsed =>
    obtain ⟨mp', hidle, hnone, hmessage, hrun⟩ := delimited_run hdelimited hinflate hmp rest hlen
    rw [hparsed] at hmessage
    have hbegun := hidle.message
    rw [hmessage] at hbegun
    exact ⟨mp', ⟨hidle.stack, hidle.header, hnone, .inl ⟨hmessage, hbegun⟩⟩, hrun⟩
  | endless hopen _ _ => exact absurd hends hopen

/-- The last message need not say where it ends. -/
theorem Readable.run_last (h : out.Readable E.urls) (hE : ReadsLengths E) (hmp : Waiting mp ms)
    (hlen : (serialized out).length < 2 ^ 64) :
    let o := messageParse E (parseCall beyond true) mp (serialized out)
    (o.1 = some .start ∨ o.1 = some .bodyDumb) ∧ o.2.1.message = out.reread :: ms := by
  rw [← List.append_nil (serialized out)] at hlen ⊢
  have hframed : Framed E beyond out := h.framed hE
  cases hframed with
  | delimited hdelimited hinflate hparsed =>
    obtain ⟨mp', hidle, hnone, hmessage, hrun⟩ := delimited_run hdelimited hinflate hmp [] hlen
    rw [messageParse, hrun, hidle.run_nil, ← hparsed]
    exact ⟨.inl rfl, hmessage⟩
  | endless _ hbody hdone =>
    have hhead : HeadBlock E (parseCall beyond true).beyond out.wireText.head
        out.wireText.message := h.head
    have hrun := hhead.run_of_read hmp.stack hmp.header (fun rest => hmp.read hhead true rest) []
    rw [hdone] at hrun
    have htext : serialized out ++ [] = out.wireText.head ++ [] := by
      rw [serialized_eq, if_pos hbody, MessageText.text, wireText]
      simp [Payload.text, hbody]
    have hwait : ∀ c : MessageConfig HttpUrl, c.parser.state = .bodyDumb →
        (messageLoop E (parseCall beyond true)).run c [] =
          (some .bodyDumb, c.parser.config, []) := by
      intro c hc
      have hturn := messageTurn_wait (E := E) (parseCall beyond true) (c := c) (by rw [hc]; rfl)
      rw [hc] at hturn
      exact Machine.run_ret hturn
    rw [messageParse, htext, hrun, hwait _ rfl]
    exact ⟨.inr rfl, rfl⟩

/-- Messages that say where they end are read one after the other, the last one in front. -/
theorem run_serialized {outs : List OutgoingMessage}
    (h : ∀ out ∈ outs, out.Readable E.urls ∧ out.EndsItself) (hE : ReadsLengths E)
    (hmp : Waiting mp ms) (rest : Bytes)
    (hlen : (outs.flatMap serialized ++ rest).length < 2 ^ 64) :
    ∃ mp', Waiting mp' ((outs.map reread).reverse ++ ms) ∧
      (messageLoop E (parseCall beyond true)).run mp.config
      (outs.flatMap serialized ++ rest) =
        (messageLoop E (parseCall beyond true)).run mp'.config rest := by
  induction outs generalizing mp ms with
  | nil => exact ⟨mp, hmp, rfl⟩
  | cons out outs ih =>
    rw [List.flatMap_cons, List.append_assoc] at hlen ⊢
    obtain ⟨hout, hends⟩ := h out (by simp)
    obtain ⟨mp₁, hmp₁, hrun₁⟩ := @Readable.run _ E beyond _ _ hout hE hends hmp _ hlen
    rw [List.length_append] at hlen
    obtain ⟨mp₂, hmp₂, hrun₂⟩ := ih (fun o ho => h o (by simp [ho])) hmp₁ (by omega)
    refine ⟨mp₂, ?_, hrun₁.trans hrun₂⟩
    rw [List.map_cons, List.reverse_cons, List.append_assoc]
    exact hmp₂

/-- The text of a chain is parsed. -/
theorem parse_serialized {outs : List OutgoingMessage} {out : OutgoingMessage}
    (h : ∀ o ∈ outs, o.Readable E.urls ∧ o.EndsItself) (hout : out.Readable E.urls)
    (hE : ReadsLengths E) (hlen : (outs.flatMap serialized ++ serialized out).length < 2 ^ 64) :
    Message.parse E beyond true (outs.flatMap serialized ++ serialized out) =
      some (some (out.reread :: (outs.map reread).reverse)) := by
  obtain ⟨mp, hmp, hrun⟩ := @run_serialized E beyond _ _ _ h hE waiting_blank (serialized out) hlen
  rw [List.length_append] at hlen
  obtain ⟨hstate, hmessage⟩ := @Readable.run_last _ E beyond _ _ hout hE hmp (by omega)
  have hall : messageParse E (parseCall beyond true) blankParser
      (outs.flatMap serialized ++ serialized out) =
      messageParse E (parseCall beyond true) mp (serialized out) := by
    rw [messageParse, hrun]
    rfl
  rw [Message.parse, hall]
  rw [List.append_nil] at hmessage
  rcases hstate with hstate | hstate <;> rw [hstate, hmessage] <;> rfl

end OutgoingMessage

/-- What `php_http_message_serialize` writes of a chain is read again by `php_http_message_parse`:
the same messages in the same order, with their start lines and bodies and with the headers that
were written. -/
theorem messageParse_messageSerialize {α : Type} [DecidableEq α] {heap : MessageHeap α} {m : α}
    {l : List α} {fuel : ℕ} {E : Engine HttpUrl} (beyond : Bytes → Bytes)
    (hchain : Linked heap.parent (some m) l) (hfuel : l.length ≤ fuel)
    (hE : OutgoingMessage.ReadsLengths E) (hread : ∀ n ∈ l, (heap.message n).Readable E.urls)
    (hends : ∀ n ∈ l.tail, (heap.message n).EndsItself) :
    ∃ str message, messageSerialize fuel heap m = some (str, ⟨heap.parent, message⟩) ∧
      (str.length < 2 ^ 64 →
        Message.parse E beyond true str =
          some (some (l.map fun n => (heap.message n).reread))) := by
  obtain ⟨message, hserialize⟩ := messageSerialize_spec hchain hfuel
  refine ⟨_, message, hserialize, fun hlen => ?_⟩
  cases l with
  | nil => cases hchain
  | cons n l =>
    have htext : ((n :: l).reverse.flatMap fun k => messageText (heap.message k) ++ crlf) =
        (l.reverse.map heap.message).flatMap OutgoingMessage.serialized ++
          OutgoingMessage.serialized (heap.message n) := by
      rw [List.reverse_cons, List.flatMap_append, List.flatMap_singleton, List.flatMap_map]
      rfl
    rw [htext] at hlen ⊢
    have hparents : ∀ o ∈ l.reverse.map heap.message, o.Readable E.urls ∧ o.EndsItself := by
      intro o ho
      obtain ⟨k, hk, rfl⟩ := List.mem_map.mp ho
      have hk' := List.mem_reverse.mp hk
      exact ⟨hread k (by simp [hk']), hends k hk'⟩
    rw [OutgoingMessage.parse_serialized hparents (hread n (by simp)) hE hlen]
    simp [List.map_reverse]

/-! ### A request and a response -/

/-- The parsers of the repository, and no compression. -/
def urlEngine : Engine HttpUrl :=
  ⟨urlParsers plainLibs, plainEngine.strToLong, plainEngine.inflateRounds⟩

theorem urlEngine_readsLengths : OutgoingMessage.ReadsLengths urlEngine := by
  intro n hn
  have hlong := plainEngine_toLong (formatLong_ne_nil n) (formatLong_isDigit n)
  rw [numeral_formatLong] at hlong
  refine Eq.trans hlong (min_eq_left ?_)
  unfold zendLongMax
  omega

/-- `POST http://h/a?b` with the body `hello` -/
def postHello : OutgoingMessage :=
  ⟨⟨some (.request ⟨1, 1⟩ (ascii "POST") plainUrl), [], ascii "hello"⟩, none, by decide⟩

/-- A response without a length. -/
def noContent : OutgoingMessage :=
  ⟨⟨some (.response ⟨1, 1⟩ 204 (some (ascii "No Content"))),
    [(ascii "Date", .scalar (.long 0))], []⟩, none, by decide⟩

theorem postHello_readable : postHello.Readable (urlParsers plainLibs) := by
  refine ⟨⟨⟨List.nodup_nil, by simp [postHello], by simp [postHello]⟩, by
    simp [postHello], rfl, rfl, rfl⟩, _, rfl, ?_, ?_⟩
  · exact .request ⟨by decide, by decide, by decide⟩ (by decide +kernel) (by decide +kernel)
      (by decide +kernel) (by decide +kernel) (by decide +kernel) (by decide +kernel)
  · decide +kernel

theorem noContent_readable : noContent.Readable (urlParsers plainLibs) := by
  refine ⟨⟨⟨List.nodup_singleton _, ?_, ?_⟩, by simp [noContent], by decide +kernel, by
    decide +kernel, by decide +kernel⟩, _, rfl, ?_, ?_⟩
  · exact List.forall_mem_singleton.mpr ⟨by decide +kernel, by decide +kernel⟩
  · exact List.forall_mem_singleton.mpr (.single (plainValue_formatLong 0))
  · exact .response (.inl ⟨by decide, by decide, by decide⟩) (by decide) (by
      rintro s ⟨⟩
      exact ⟨by decide, by decide +kernel, by decide +kernel, by decide +kernel⟩)
  · decide +kernel

/-- The response is the current message and the request its parent. -/
def exchange : MessageHeap Bool :=
  ⟨fun n => if n then none else some true, fun n => if n then postHello else noContent⟩

theorem messageParse_exchange :
    ∃ str message, messageSerialize 2 exchange false = some (str, ⟨exchange.parent, message⟩) ∧
    (str.length < 2 ^ 64 → Message.parse urlEngine (fun _ => []) true str =
      some (some [noContent.reread, postHello.reread])) := by
  refine messageParse_messageSerialize (l := [false, true]) (fun _ => [])
    ⟨rfl, rfl, rfl⟩ le_rfl urlEngine_readsLengths ?_ ?_
  · intro n _
    cases n with
    | false => exact noContent_readable
    | true => exact postHello_readable
  · exact List.forall_mem_singleton.mpr (.inl (by decide))

end ExtHttp
