import ExtHttp.HeaderProgress
import ExtHttp.HeaderUpdate
import ExtHttp.MessageText

/-!
# Responses of the client

`php_http_curlm_responseparser` makes a chain of messages of all header blocks that curl has
received for a request, with informational responses and redirects among them, and gives the body to
the last one. What the headers of that one said about the transfer is kept under other names.
-/
namespace ExtHttp
open BufferLoop

/-- What has been received for a request: the `response` of a `php_http_client_curl_handler_t`. -/
structure CurlResponse where
  headers : Bytes
  body : Bytes
  size_lt : body.length < 2 ^ 63

namespace Headers

/-- What is done to a header that tells how the body was sent. -/
def moveOriginal (key original : Bytes) (hdrs : Headers) : Headers :=
  match hdrs.find key with
  | some v => (hdrs.delete key).update original v
  | none => hdrs

/-- The updates of `php_http_curlm_responseparser`. -/
def received (hdrs : Headers) : Headers :=
  let hdrs := match hdrs.find (ascii "Content-Length") with
    | some v => hdrs.update (ascii "X-Original-Content-Length") v
    | none => hdrs
  ((hdrs.moveOriginal (ascii "Transfer-Encoding")
    (ascii "X-Original-Transfer-Encoding")).moveOriginal
    (ascii "Content-Range") (ascii "X-Original-Content-Range")).moveOriginal
      (ascii "Content-Encoding") (ascii "X-Original-Content-Encoding")

end Headers

theorem Headers.find_moveOriginal (key original : Bytes) (hdrs : Headers) (k : Bytes) :
    (hdrs.moveOriginal key original).find k =
      if original = k then (hdrs.find key).or (hdrs.find original) else if key = k then none
        else hdrs.find k := by
  unfold Headers.moveOriginal
  cases hkey : hdrs.find key with
  | none =>
    by_cases horiginal : original = k
    · rw [if_pos horiginal, horiginal]
      rfl
    · rw [if_neg horiginal]
      split_ifs with heq
      · rw [← heq]
        exact hkey
      · rfl
  | some v =>
    dsimp only
    rw [Headers.find_update, Headers.find_delete]
    rfl

namespace CurlResponse

/-- The loop of `php_http_curlm_responseparser` on the chain `ms`. -/
def headersLoop (P : UrlParsers HttpUrl) (beyond : Bytes → Bytes) (fuel : ℕ) (ms : Chain HttpUrl)
    (b : Bytes) :
    Option (Chain HttpUrl) :=
  if b = [] then some ms
  else (headerDrain P messageSink ⟨true, beyond⟩ fuel (headerParserInit, ms) b).map fun o => o.2.1.2

/-- The newest message, with the body, as its headers are updated. -/
def finish (r : CurlResponse) (m : Message HttpUrl) : OutgoingMessage :=
  OutgoingMessage.written ⟨⟨m.info, m.hdrs.received, r.body⟩, none, r.size_lt⟩

/-- `php_http_curlm_responseparser`. The oldest message, which has had the body, is left without
one. -/
def responseParser (P : UrlParsers HttpUrl) (beyond : Bytes → Bytes) (fuel : ℕ) (r : CurlResponse) :
    Option (Chain HttpUrl) :=
  (headersLoop P beyond fuel [blankMessage] r.headers).map fun
    | m :: parents => (r.finish m).message :: parents
    | [] => []

end CurlResponse

/-! ### The blocks of a response -/

/-- A start line and fields, as a server sends them. -/
structure ReplyBlock where
  line : Bytes
  info : Info HttpUrl
  fields : List (Bytes × Bytes)

namespace ReplyBlock

structure Valid (P : UrlParsers HttpUrl) (block : ReplyBlock) : Prop where
  ne : block.line ≠ []
  space : ∀ c, block.line.head? = some c → isSpace c = false
  noEol : NoEol block.line
  noNul : nul ∉ block.line
  info : infoParse P (block.line ++ crlf) = some block.info
  fields : ∀ f ∈ block.fields, BlockField P f

def text (block : ReplyBlock) : Bytes := headText block.line block.fields

def message (block : ReplyBlock) : Message HttpUrl :=
  ⟨some block.info, headerBlock block.fields, []⟩

end ReplyBlock

section
variable {E : Engine HttpUrl} {beyond : Bytes → Bytes} {ms : Chain HttpUrl}

theorem ReplyBlock.Valid.headBlock {block : ReplyBlock} (h : block.Valid E.urls) :
    HeadBlock E beyond block.text block.message :=
  headBlock_fields beyond h.ne h.space h.noEol h.noNul h.info h.fields

namespace CurlResponse

/-- One call of the parser reads one text that ends itself. -/
theorem headersLoop_read {text rest : Bytes} {ms' : Chain HttpUrl} (hne : text ≠ [])
    (hread : (headerLoop E.urls messageSink ⟨true, beyond⟩).run (headerParserInit, ms)
      (text ++ rest) = (.done, (headerParserInit, ms'), rest)) (fuel : ℕ) :
    headersLoop E.urls beyond (fuel + 1) ms (text ++ rest) =
      headersLoop E.urls beyond fuel ms' rest := by
  rw [headersLoop, if_neg (by simp [hne]), headerDrain, hread, headersLoop]
  by_cases hrest : rest = []
  · simp [hrest]
  · simp [hrest]

/-- Fields do not begin with a blank. -/
theorem fieldLines_head {P : UrlParsers HttpUrl} {f : Bytes × Bytes} {fields : List (Bytes × Bytes)}
    (h : ∀ g ∈ f :: fields, BlockField P g) :
    ∀ c, ((f :: fields).flatMap fieldLine).head? = some c → isSpace c = false := by
  intro c hc
  have hname := (h f (by simp)).name
  obtain ⟨name, value⟩ := f
  cases name with
  | nil =>
    obtain rfl : colon = c := Option.some.inj hc
    rfl
  | cons d name =>
    obtain rfl : d = c := Option.some.inj hc
    exact isNameChar_not_isSpace (hname d (by simp))

/-- Trailer fields are stored in the newest message. No empty line follows them: the buffer ends. -/
theorem headersLoop_trailer {fields : List (Bytes × Bytes)}
    (hfields : ∀ f ∈ fields, BlockField E.urls f) (m : Message HttpUrl) (fuel : ℕ) :
    headersLoop E.urls beyond (fuel + 1) (m :: ms) (fields.flatMap fieldLine) =
      some ({ m with hdrs := fields.foldl storeField m.hdrs } :: ms) := by
  cases fields with
  | nil => rfl
  | cons f fields =>
    have hne : (f :: fields).flatMap fieldLine ≠ [] := by simp [fieldLine]
    have hend : LineEnds ⟨true, beyond⟩ [] := ⟨by simp, .inr rfl⟩
    have hrun : (headerLoop E.urls messageSink ⟨true, beyond⟩).run (headerParserInit, m :: ms)
        ((f :: fields).flatMap fieldLine) = (.key, (headerParserKey,
          { m with hdrs := (f :: fields).foldl storeField m.hdrs } :: ms), []) := by
      have hturn : ∀ s, headerTurn E.urls messageSink ⟨true, beyond⟩ (headerParserKey, s) [] =
        .ret .key (headerParserKey, s) [] := fun _ => rfl
      have hblock := headerLoop_block messageSink hfields (m :: ms) hend
      rw [List.append_nil, messageSink_store] at hblock
      rw [headerLoop_start hne (fieldLines_head hfields), hblock,
        Machine.run_ret (hturn _)]
    rw [headersLoop, if_neg hne, headerDrain, hrun]
    rfl

theorem ReplyBlock_text_ne (block : ReplyBlock) : block.text ≠ [] := by
  simp [ReplyBlock.text, headText, crlf]

/-- The blocks become a chain, the newest in front. -/
theorem headersLoop_blocks {blocks : List ReplyBlock} (h : ∀ block ∈ blocks, block.Valid E.urls)
    (hms : Begun ms) (fuel : ℕ) (rest : Bytes) :
    headersLoop E.urls beyond (fuel + blocks.length) ms (blocks.flatMap ReplyBlock.text ++ rest) =
      headersLoop E.urls beyond fuel ((blocks.map ReplyBlock.message).reverse ++ ms) rest := by
  induction blocks generalizing ms with
  | nil => rfl
  | cons block blocks ih =>
    have hblock : HeadBlock E beyond block.text block.message := (h block (by simp)).headBlock
    have hread := hblock.read_behind hms true (blocks.flatMap ReplyBlock.text ++ rest)
    have hbegun : Begun (block.message :: ms) := by
      rintro _ ⟨⟩
      simp [Message.begun, ReplyBlock.message]
    rw [List.flatMap_cons, List.append_assoc, List.length_cons, ← Nat.add_assoc,
      headersLoop_read (ReplyBlock_text_ne block) hread, ih (fun b hb => h b (by simp [hb])) hbegun,
      List.map_cons, List.reverse_cons, List.append_assoc]
    rfl

/-- The first block goes to the message that is there. -/
theorem headersLoop_all {blocks : List ReplyBlock} (hne : blocks ≠ [])
    (h : ∀ block ∈ blocks, block.Valid E.urls) (fuel : ℕ) (rest : Bytes) :
    headersLoop E.urls beyond (fuel + blocks.length) [blankMessage]
      (blocks.flatMap ReplyBlock.text ++ rest) =
      headersLoop E.urls beyond fuel (blocks.map ReplyBlock.message).reverse rest := by
  obtain ⟨block, blocks, rfl⟩ := List.exists_cons_of_ne_nil hne
  have hblock : HeadBlock E beyond block.text block.message := (h block (by simp)).headBlock
  have hread := hblock.read_blank true (blocks.flatMap ReplyBlock.text ++ rest)
  have hbegun : Begun [block.message] := by
    rintro _ ⟨⟩
    simp [Message.begun, ReplyBlock.message]
  rw [List.flatMap_cons, List.append_assoc, List.length_cons, ← Nat.add_assoc,
    headersLoop_read (ReplyBlock_text_ne block) hread,
    headersLoop_blocks (fun b hb => h b (by simp [hb])) hbegun, List.map_cons, List.reverse_cons]

theorem length_le_flatMap (blocks : List ReplyBlock) :
    blocks.length ≤ (blocks.flatMap ReplyBlock.text).length := by
  induction blocks with
  | nil => exact le_rfl
  | cons block blocks ih =>
    have hpos := List.length_pos_of_ne_nil (ReplyBlock_text_ne block)
    rw [List.flatMap_cons, List.length_append, List.length_cons]
    omega

/-- All that the loop makes of the blocks and the trailer. -/
theorem headersLoop_reply {blocks : List ReplyBlock} {block : ReplyBlock}
    {trailer : List (Bytes × Bytes)} (h : ∀ b ∈ blocks ++ [block], b.Valid E.urls)
    (htrailer : ∀ f ∈ trailer, BlockField E.urls f) {fuel : ℕ}
    (hfuel : ((blocks ++ [block]).flatMap ReplyBlock.text ++
      trailer.flatMap fieldLine).length < fuel) :
    headersLoop E.urls beyond fuel [blankMessage]
        ((blocks ++ [block]).flatMap ReplyBlock.text ++ trailer.flatMap fieldLine) =
      some (⟨some block.info, headerBlock (block.fields ++ trailer), []⟩ ::
        (blocks.map ReplyBlock.message).reverse) := by
  have hlength := length_le_flatMap (blocks ++ [block])
  rw [List.length_append] at hfuel
  obtain ⟨n, rfl⟩ : ∃ n, fuel = n + 1 + (blocks ++ [block]).length :=
    ⟨fuel - 1 - (blocks ++ [block]).length, by omega⟩
  rw [headersLoop_all (by simp) h, List.map_append, List.reverse_append]
  refine (headersLoop_trailer htrailer block.message n).trans ?_
  rw [headerBlock, List.foldl_append]
  rfl

/-! ### The headers of the newest message -/

/-- The headers that tell how the body was sent, and what they are called when it is there. -/
def originals : List (Bytes × Bytes) :=
  [(ascii "Content-Length", ascii "X-Original-Content-Length"),
    (ascii "Transfer-Encoding", ascii "X-Original-Transfer-Encoding"),
    (ascii "Content-Range", ascii "X-Original-Content-Range"),
    (ascii "Content-Encoding", ascii "X-Original-Content-Encoding")]

/-- What becomes of the headers `sent` with the body. -/
structure Received (sent : Headers) (body : Bytes) (hdrs : Headers) : Prop where
  length : body ≠ [] → hdrs.find (ascii "Content-Length") = some (.scalar (.long body.length))
  empty : body = [] → ∀ v ∈ hdrs.find (ascii "Content-Length"), v.join = ascii "0"
  moved : ∀ o ∈ originals, hdrs.find o.2 = (sent.find o.1).or (sent.find o.2)
  decoded : ∀ o ∈ originals, o.1 ≠ ascii "Content-Length" → hdrs.find o.1 = none
  kept : ∀ key, (∀ o ∈ originals, key ≠ o.1 ∧ key ≠ o.2) → hdrs.find key = sent.find key

/-- Headers that are moved one after the other do not get in each other's way. -/
theorem foldl_moveOriginal {os : List (Bytes × Bytes)} (h : (os.flatMap fun o => [o.1, o.2]).Nodup)
    (hdrs : Headers) :
    let moved := os.foldl (fun hdrs o => Headers.moveOriginal o.1 o.2 hdrs) hdrs
    (∀ o ∈ os, moved.find o.1 = none ∧ moved.find o.2 = (hdrs.find o.1).or (hdrs.find o.2)) ∧
      ∀ key, (∀ o ∈ os, key ≠ o.1 ∧ key ≠ o.2) → moved.find key = hdrs.find key := by
  induction os generalizing hdrs with
  | nil => simp
  | cons o os ih =>
    rw [List.flatMap_cons, List.nodup_append] at h
    obtain ⟨hown, hos, hapart⟩ := h
    have hne : o.1 ≠ o.2 := by simpa using hown
    have hother : ∀ p ∈ os, (p.1 ≠ o.1 ∧ p.1 ≠ o.2) ∧ p.2 ≠ o.1 ∧ p.2 ≠ o.2 := by
      intro p hp
      have hmem : ∀ k ∈ [p.1, p.2], k ∈ os.flatMap fun o => [o.1, o.2] := fun k hk =>
        List.mem_flatMap.mpr ⟨p, hp, hk⟩
      have hdiffer : ∀ k ∈ [o.1, o.2], ∀ l ∈ [p.1, p.2], l ≠ k := fun k hk l hl heq =>
        hapart k hk l (hmem l hl) heq.symm
      exact ⟨⟨hdiffer _ (by simp) _ (by simp), hdiffer _ (by simp) _ (by simp)⟩,
        hdiffer _ (by simp) _ (by simp), hdiffer _ (by simp) _ (by simp)⟩
    have hmove : ∀ k, k ≠ o.1 → k ≠ o.2 → (hdrs.moveOriginal o.1 o.2).find k = hdrs.find k := by
      intro k hk hk'
      rw [Headers.find_moveOriginal, if_neg (Ne.symm hk'), if_neg (Ne.symm hk)]
    obtain ⟨hmoved, hkept⟩ := ih hos (hdrs.moveOriginal o.1 o.2)
    refine ⟨fun p hp => ?_, fun key hkey => ?_⟩
    · rcases List.mem_cons.mp hp with rfl | hp
      · have hfirst := hkept p.1 fun q hq => ⟨Ne.symm (hother q hq).1.1, Ne.symm (hother q hq).2.1⟩
        have hsecond := hkept p.2 fun q hq => ⟨Ne.symm (hother q hq).1.2, Ne.symm (hother q hq).2.2⟩
        rw [Headers.find_moveOriginal, if_neg (Ne.symm hne), if_pos rfl] at hfirst
        rw [Headers.find_moveOriginal, if_pos rfl] at hsecond
        exact ⟨hfirst, hsecond⟩
      · obtain ⟨hfirst, hsecond⟩ := hmoved p hp
        obtain ⟨⟨h₁, h₂⟩, h₃, h₄⟩ := hother p hp
        rw [hmove _ h₁ h₂, hmove _ h₃ h₄] at hsecond
        exact ⟨hfirst, hsecond⟩
    · obtain ⟨hk, hk'⟩ := hkey o (by simp)
      refine (hkept key fun p hp => hkey p (by simp [hp])).trans (hmove key hk hk')

/-- The headers before the update. -/
theorem received_spec (sent : Headers) :
    (∀ o ∈ originals, sent.received.find o.2 = (sent.find o.1).or (sent.find o.2)) ∧
      (∀ o ∈ originals, o.1 ≠ ascii "Content-Length" → sent.received.find o.1 = none) ∧
      ∀ key, (∀ o ∈ originals, o.1 ≠ ascii "Content-Length" → key ≠ o.1) →
        (∀ o ∈ originals, key ≠ o.2) →
        sent.received.find key = sent.find key := by
  have hlength : ∃ hdrs, sent.received =
      originals.tail.foldl (fun hdrs o => Headers.moveOriginal o.1 o.2 hdrs) hdrs ∧
      hdrs.find (ascii "X-Original-Content-Length") = (sent.find (ascii "Content-Length")).or
        (sent.find (ascii "X-Original-Content-Length")) ∧
      ∀ key, ascii "X-Original-Content-Length" ≠ key → hdrs.find key = sent.find key := by
    refine ⟨_, rfl, ?_⟩
    cases sent.find (ascii "Content-Length") with
    | none => exact ⟨rfl, fun _ _ => rfl⟩
    | some v =>
      exact ⟨Headers.find_update_self _ _ _, fun key hkey => Headers.find_update_ne _ hkey _⟩
  obtain ⟨hdrs, hreceived, horiginal, hsame⟩ := hlength
  have hnodup : (originals.tail.flatMap fun o => [o.1, o.2]).Nodup := by decide +kernel
  obtain ⟨hmoved, hkept⟩ := foldl_moveOriginal hnodup hdrs
  rw [hreceived]
  have htail : ∀ o ∈ originals, o = (ascii "Content-Length", ascii "X-Original-Content-Length") ∨
      o ∈ originals.tail := fun o ho => List.mem_cons.mp ho
  have hapart : ∀ o ∈ originals.tail, (ascii "X-Original-Content-Length" ≠ o.1 ∧
      ascii "X-Original-Content-Length" ≠ o.2) ∧
      o.1 ≠ ascii "Content-Length" := by decide +kernel
  refine ⟨fun o ho => ?_, fun o ho hne => ?_, fun key hkey hkey' => ?_⟩
  · rcases htail o ho with rfl | ho
    · rw [hkept _ fun p hp => (hapart p hp).1]
      exact horiginal
    · obtain ⟨h₁, h₂⟩ := (hapart o ho).1
      rw [(hmoved o ho).2, hsame _ h₁, hsame _ h₂]
  · rcases htail o ho with rfl | ho
    · exact absurd rfl hne
    · exact (hmoved o ho).1
  · rw [hkept key fun o ho => ⟨hkey o (List.mem_of_mem_tail ho) (hapart o ho).2,
      hkey' o (List.mem_of_mem_tail ho)⟩]
    exact hsame key (Ne.symm (hkey' _ (List.mem_cons_self)))

theorem finish_received (r : CurlResponse) (m : Message HttpUrl) :
    Received m.hdrs r.body (r.finish m).message.hdrs := by
  obtain ⟨hmoved, hdecoded, hkept⟩ := received_spec m.hdrs
  let out : OutgoingMessage := ⟨⟨m.info, m.hdrs.received, r.body⟩, none, r.size_lt⟩
  have hother : ∀ key, ascii "Content-Length" ≠ key →
      (r.finish m).message.hdrs.find key = m.hdrs.received.find key := fun key hkey =>
    OutgoingMessage.find_updateHeaders out hkey (.inl rfl)
  have hranged : ¬ out.Ranged := by
    have hnone : out.message.hdrs.find (ascii "Content-Range") = none :=
      hdecoded (ascii "Content-Range", ascii "X-Original-Content-Range") (by decide) (by decide)
    simp [OutgoingMessage.Ranged, hnone]
  have hnames : ∀ o ∈ originals, ascii "Content-Length" ≠ o.2 := by decide +kernel
  refine ⟨fun hbody => (@OutgoingMessage.written_body out hranged hbody).1, fun hbody v hv => ?_,
    fun o ho => ?_, fun o ho hne => ?_, fun key hkey => ?_⟩
  · have hstring : out.written.message.headerString (ascii "Content-Length") = some v.join :=
      OutgoingMessage.headerString_find hv
    rcases (@OutgoingMessage.written_contentLength out hranged hbody).1 with hzero | hnone
    · exact Option.some.inj (hstring.symm.trans hzero)
    · cases hstring.symm.trans hnone
  · rw [hother _ (hnames o ho), hmoved o ho]
  · rw [hother _ (Ne.symm hne), hdecoded o ho hne]
  · have hlength : ascii "Content-Length" ≠ key := Ne.symm (hkey _ List.mem_cons_self).1
    rw [hother key hlength, hkept key (fun o ho _ => (hkey o ho).1) fun o ho => (hkey o ho).2]

/-- Header blocks have been received before the body and fields behind it. The response is the
newest message, with the body, the length of the body and the headers about the transfer under other
names. The others are behind it, without bodies. -/
theorem responseParser_reply {r : CurlResponse} {blocks : List ReplyBlock} {block : ReplyBlock}
    {trailer : List (Bytes × Bytes)} (h : ∀ b ∈ blocks ++ [block], b.Valid E.urls)
    (htrailer : ∀ f ∈ trailer, BlockField E.urls f)
    (hr : r.headers = (blocks ++ [block]).flatMap ReplyBlock.text ++ trailer.flatMap fieldLine)
    {fuel : ℕ} (hfuel : r.headers.length < fuel) :
    ∃ hdrs, responseParser E.urls beyond fuel r =
        some (⟨some block.info, hdrs, r.body⟩ :: (blocks.map ReplyBlock.message).reverse) ∧
      Received (headerBlock (block.fields ++ trailer)) r.body hdrs := by
  rw [hr] at hfuel
  refine ⟨_, ?_, finish_received r ⟨some block.info, headerBlock (block.fields ++ trailer), []⟩⟩
  rw [responseParser, hr, headersLoop_reply h htrailer hfuel]
  rfl

end CurlResponse
end

/-! ### A response after an informational one -/

def continueBlock : ReplyBlock :=
  ⟨ascii "HTTP/1.1 100 Continue", .response ⟨1, 1⟩ 100 (some (ascii "Continue")), []⟩

/-- One of its fields holds `HTTP/` and is no start line. -/
def chunkedBlock : ReplyBlock :=
  ⟨ascii "HTTP/1.1 200 OK", .response ⟨1, 1⟩ 200 (some (ascii "OK")),
    [(ascii "Server", ascii "SimpleHTTP/0.6"), (ascii "transfer-encoding", ascii "chunked")]⟩

/-- The body has come in chunks, with a field behind them. -/
def chunkedReply : CurlResponse :=
  ⟨ascii "HTTP/1.1 100 Continue\r\n\r\n" ++
      ascii "HTTP/1.1 200 OK\r\nServer: SimpleHTTP/0.6\r\ntransfer-encoding: chunked\r\n\r\n" ++
      ascii "Etag: x\r\n",
    ascii "hello", by decide⟩

theorem blocks_valid : ∀ b ∈ [continueBlock] ++ [chunkedBlock], b.Valid (urlParsers plainLibs) := by
  refine List.forall_mem_cons.mpr ⟨?_, List.forall_mem_singleton.mpr ?_⟩
  · exact ⟨by decide +kernel, by decide +kernel, by decide +kernel, by decide +kernel,
      by decide +kernel, by simp [continueBlock]⟩
  · refine ⟨by decide +kernel, by decide +kernel, by decide +kernel, by decide +kernel,
      by decide +kernel, List.forall_mem_cons.mpr ⟨?_, List.forall_mem_singleton.mpr ?_⟩⟩
    · exact ⟨by decide +kernel, by decide +kernel, by decide +kernel, by decide +kernel⟩
    · exact ⟨by decide +kernel, by decide +kernel, by decide +kernel, by decide +kernel⟩

theorem etag_blockField : ∀ f ∈ [(ascii "Etag", ascii "x")], BlockField (urlParsers plainLibs) f :=
  List.forall_mem_singleton.mpr
    ⟨by decide +kernel, by decide +kernel, by decide +kernel, by decide +kernel⟩

theorem responseParser_chunkedReply :
    ∃ hdrs, CurlResponse.responseParser (urlParsers plainLibs) (fun _ => []) 200 chunkedReply =
        some [⟨some chunkedBlock.info, hdrs, ascii "hello"⟩, continueBlock.message] ∧
      CurlResponse.Received (headerBlock (chunkedBlock.fields ++ [(ascii "Etag", ascii "x")]))
        (ascii "hello") hdrs :=
  CurlResponse.responseParser_reply
    (E := ⟨urlParsers plainLibs, fun _ => 0, fun _ _ _ => .error⟩) (r := chunkedReply)
    blocks_valid etag_blockField (by decide +kernel) (by decide +kernel)

end ExtHttp
