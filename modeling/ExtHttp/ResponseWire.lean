import ExtHttp.ResponseVerdict
import ExtHttp.StreamProtocol

/-!
# The wire

What a response that is sent puts on a stream: one header block, and behind it the body as the
header block frames it.
-/
namespace ExtHttp
open Operations

/-- The operations of `php_http_env_response_stream_ops`. -/
def streamOps (env : StreamEnv) : ResponseOps StreamResponse :=
  ⟨fun s op => s.step env op, fun s => s.statusCode⟩

/-- A stream that takes all it is given, and that is not at its end. -/
structure StreamEnv.TakesAll (env : StreamEnv) : Prop where
  take : ∀ log sent buf, ∃ n, env.take log sent buf = some n ∧ buf.length ≤ n
  eof : ∀ log, env.eof log = false
  filter : ∀ log, env.filter log = true

theorem StreamEnv.TakesAll.writeBuckets {env : StreamEnv} (henv : env.TakesAll)
    (log : List StreamEvent) (sent : Bytes) (buckets : List Bytes) :
    ExtHttp.writeBuckets env log sent buckets = (true, sent ++ buckets.flatten) := by
  induction buckets generalizing sent with
  | nil => simp [ExtHttp.writeBuckets]
  | cons bucket buckets ih =>
    obtain ⟨n, htake, hle⟩ := henv.take log sent bucket
    rw [ExtHttp.writeBuckets, htake]
    simp only
    rw [ih, List.take_of_length_le hle]
    simp

/-- Data behind a header block, as it has been written in pieces. -/
def frameBody (chunked : Bool) (pieces : List Bytes) : Bytes :=
  if chunked then pieces.flatMap encodeChunk else pieces.flatten

theorem frameBody_snoc (chunked : Bool) (pieces : List Bytes) (piece : Bytes) :
    frameBody chunked (pieces ++ [piece]) =
      frameBody chunked pieces ++ if chunked then encodeChunk piece else piece := by
  cases chunked <;> simp [frameBody]

/-- The end of it. -/
def frameEnd (chunked : Bool) : Bytes := if chunked then lastChunk else []

namespace StreamResponse

/-- All that has gone out. -/
def wire (r : StreamResponse) : Bytes := r.log.flatMap StreamEvent.sent

/-- A response of which nothing has been sent, with a status. -/
structure Untouched (c : ℤ) (r : StreamResponse) : Prop where
  started : r.started = false
  finished : r.finished = false
  filters : r.filters = 0
  log : r.log = []
  status : r.statusCode = c

/-- The header block of `head` has gone out, and pieces of data, none of them empty. -/
structure Begun (head r : StreamResponse) (pieces : List Bytes) : Prop where
  started : r.started = true
  finished : r.finished = false
  chunked : r.chunked = head.keepsChunked
  filter : head.keepsChunked = true → r.chunkedFilter = true
  filters : r.filters = if head.keepsChunked then 1 else 0
  wire : r.wire = head.headerBlock ++ frameBody head.keepsChunked pieces
  full : ∀ piece ∈ pieces, piece ≠ []

variable {env : StreamEnv} {c c' : ℤ} {r head : StreamResponse} {pieces : List Bytes}

theorem Untouched.open (h : r.Untouched c) : ¬ (r.started || r.finished) = true := by
  rw [h.started, h.finished]
  decide

theorem Untouched.tells (env : StreamEnv) (h : r.Untouched c) {op : StreamOp}
    (hop : op.tells = true) :
    (r.step env op).1 = true ∧ (r.step env op).2.Untouched c := by
  have hset : ∀ replace str, colon ∈ cString str →
      (r.setHeader replace str).1 = true ∧
        (r.setHeader replace str).2.Untouched c := fun replace str hcolon => by
    rw [setHeader, if_neg h.open, if_pos hcolon]
    exact ⟨rfl, h.started, h.finished, h.filters, h.log, h.status⟩
  cases op with
  | setProtocolVersion version =>
    rw [step, if_neg h.open]
    exact ⟨rfl, h.started, h.finished, h.filters, h.log, h.status⟩
  | setHeader str => exact hset true str (by simpa [StreamOp.tells] using hop)
  | addHeader str => exact hset false str (by simpa [StreamOp.tells] using hop)
  | delHeader key =>
    rw [step, if_neg h.open]
    exact ⟨rfl, h.started, h.finished, h.filters, h.log, h.status⟩
  | _ => cases hop

theorem Untouched.setStatus (env : StreamEnv) (h : r.Untouched c) (c' : ℤ) :
    (r.step env (.setStatus c')).1 = true ∧ (r.step env (.setStatus c')).2.Untouched c' := by
  rw [step, if_neg h.open]
  exact ⟨rfl, h.started, h.finished, h.filters, h.log, rfl⟩

/-- The flush of a stream that is not at its end sends nothing. -/
theorem flushStream_open (henv : env.TakesAll) (r : StreamResponse) :
    (r.flushStream env).2 = { r with log := r.log ++ [.last []] } := by
  simp [flushStream, henv.eof]

theorem Untouched.start (henv : env.TakesAll) (h : r.Untouched c) :
    (r.start env).1 = true ∧ r.Begun (r.start env).2 [] := by
  obtain ⟨n, htake, hle⟩ := henv.take r.log [] r.headerBlock
  have hwrite : streamWrite env r.log r.filters r.headerBlock =
      (some r.headerBlock.length, r.headerBlock) := by
    simp [streamWrite, r.headerBlock_ne, h.filters, htake, hle]
  have hhead : r.writeHead env = { r with
      chunked := r.keepsChunked, started := true, log := r.log ++
        [.head r.headerBlock r.headerBlock] } := by
    rw [writeHead, hwrite]
    simp
  rw [StreamResponse.start, if_neg h.open, flushStream_open henv, hhead]
  cases hchunked : r.keepsChunked with
  | false =>
    refine ⟨rfl, rfl, h.finished,
      hchunked.symm, by simp [hchunked], by simp [hchunked, h.filters], ?_, by simp⟩
    simp [wire, h.log, StreamEvent.sent, hchunked, frameBody]
  | true =>
    simp only [if_true, installFilter, henv.filter]
    refine ⟨trivial, rfl, h.finished, hchunked.symm, fun _ =>
      rfl, by simp [hchunked, h.filters], ?_, by simp⟩
    simp [wire, h.log, StreamEvent.sent, hchunked, frameBody]

theorem Begun.write (henv : env.TakesAll) (h : head.Begun r pieces) (data : Bytes) :
    (r.step env (.write data)).1 = true ∧
      ∃ pieces', head.Begun (r.step env (.write data)).2 pieces' ∧
        pieces'.flatten = pieces.flatten ++ data := by
  rw [step, StreamResponse.write, if_neg (by simp [h.finished]), ensureStarted, if_pos h.started]
  by_cases hdata : data = []
  · subst hdata
    refine ⟨by simp [streamWrite], pieces,
      ⟨h.started, h.finished, h.chunked, h.filter, h.filters, ?_, h.full⟩, by simp⟩
    rw [← h.wire]
    simp [StreamResponse.wire, streamWrite, StreamEvent.sent]
  · have hwrite : streamWrite env r.log r.filters data =
        (some data.length, if head.keepsChunked then encodeChunk data else data) := by
      obtain ⟨n, htake, hle⟩ := henv.take r.log [] data
      cases hchunked : head.keepsChunked with
      | false => simp [streamWrite, hdata, h.filters, hchunked, htake, hle]
      | true =>
        simp [streamWrite, hdata, h.filters, hchunked, henv.writeBuckets, henv.eof, encodeChain]
    refine ⟨by simp [hwrite], pieces ++ [data],
      ⟨h.started, h.finished, h.chunked, h.filter, h.filters, ?_, fun piece hpiece => ?_⟩, by simp⟩
    · rw [frameBody_snoc, ← List.append_assoc, ← h.wire]
      simp [StreamResponse.wire, hwrite, StreamEvent.sent]
    · rcases List.mem_append.mp hpiece with hpiece | hpiece
      · exact h.full piece hpiece
      · exact List.mem_singleton.mp hpiece ▸ hdata

theorem Begun.flushStream (henv : env.TakesAll) (h : head.Begun r pieces) :
    head.Begun (r.flushStream env).2 pieces := by
  rw [flushStream_open henv]
  refine ⟨h.started, h.finished, h.chunked, h.filter, h.filters, ?_, h.full⟩
  rw [← h.wire]
  simp [StreamResponse.wire, StreamEvent.sent]

theorem Begun.flush (henv : env.TakesAll) (h : head.Begun r pieces) :
    head.Begun (r.step env .flush).2 pieces := by
  rw [step, StreamResponse.flush, if_neg (by simp [h.finished]), ensureStarted, if_pos h.started]
  exact h.flushStream henv

theorem Begun.finish (henv : env.TakesAll) (h : head.Begun r pieces) :
    (r.step env .finish).1 = true ∧ (r.step env .finish).2.wire =
      head.headerBlock ++ (frameBody head.keepsChunked pieces ++ frameEnd head.keepsChunked) := by
  have hflushed := h.flushStream henv
  rw [step, StreamResponse.finish, if_neg (by simp [h.finished]), ensureStarted, if_pos h.started]
  refine ⟨rfl, ?_⟩
  rw [← List.append_assoc, ← hflushed.wire]
  cases hchunked : head.keepsChunked with
  | false => simp [hflushed.chunked, hchunked, frameEnd, StreamResponse.wire]
  | true =>
    simp [hflushed.chunked, hflushed.filter hchunked, hchunked, frameEnd, StreamResponse.wire,
      removeFilter, henv.writeBuckets, StreamEvent.sent]

end StreamResponse

/-! ### Sending -/

/-- A response of which nothing has been sent, as it comes from `s` by operations that say what is
in its header block. -/
def Setting (env : StreamEnv) (s : StreamResponse) (c : ℤ) (r : StreamResponse) : Prop :=
  r.Untouched c ∧ Moves (fun r op => r.step env op) (fun op => op.isSetter = true) s r

/-- Data has been written, behind a header block if that was needed. -/
def Writing (env : StreamEnv) (s : StreamResponse) (c : ℤ) (r : StreamResponse)
    (content : Bytes) : Prop :=
  Setting env s c r ∧ content = [] ∨
    ∃ head pieces, Setting env s c head ∧ head.Begun r pieces ∧ pieces.flatten = content

/-- A header block and all of the data have gone out. -/
def Written (env : StreamEnv) (s : StreamResponse) (c : ℤ) (r : StreamResponse)
    (content : Bytes) : Prop :=
  ∃ head pieces, Setting env s c head ∧ (∀ piece ∈ pieces, piece ≠ []) ∧ pieces.flatten = content ∧
    r.wire = head.headerBlock ++ (frameBody head.keepsChunked pieces ++ frameEnd head.keepsChunked)

section
variable {env : StreamEnv} {s : StreamResponse} {c : ℤ} {r : StreamResponse} {content : Bytes}

/-- The first operation that is not about the header block sends that. -/
theorem Writing.begun (henv : env.TakesAll) (h : Writing env s c r content) :
    ∃ head pieces, Setting env s c head ∧ head.Begun (r.ensureStarted env).2 pieces ∧
      pieces.flatten = content ∧
      (r.ensureStarted env).1 = true ∧ r.finished = false := by
  rcases h with ⟨hset, rfl⟩ | ⟨head, pieces, hset, hbegun, hcontent⟩
  · obtain ⟨hok, hbegun⟩ := hset.1.start henv
    have hstart : r.ensureStarted env = r.start env := if_neg (by simp [hset.1.started])
    rw [hstart]
    exact ⟨r, [], hset, hbegun, rfl, hok, hset.1.finished⟩
  · have hstart : r.ensureStarted env = (true, r) := if_pos hbegun.started
    rw [hstart]
    exact ⟨head, pieces, hset, hbegun, hcontent, rfl, hbegun.finished⟩

/-- An operation comes to the same when the response has been started before. -/
theorem step_ensureStarted {op : StreamOp} (hop : op.isSetter = false)
    (hfinished : r.finished = false) (hok : (r.ensureStarted env).1 = true)
    (hstarted : (r.ensureStarted env).2.started = true)
    (hopen : (r.ensureStarted env).2.finished = false) :
    r.step env op = (r.ensureStarted env).2.step env op := by
  have hsame : (r.ensureStarted env).2.ensureStarted env = (true, (r.ensureStarted env).2) :=
    if_pos hstarted
  have hclosed : ¬ r.finished = true := by simp [hfinished]
  have hclosed' : ¬ (r.ensureStarted env).2.finished = true := by simp [hopen]
  cases op with
  | write data =>
    simp only [StreamResponse.step, StreamResponse.write, if_neg hclosed, if_neg hclosed', hsame,
      if_pos hok, if_true]
  | flush =>
    simp only [StreamResponse.step, StreamResponse.flush, if_neg hclosed, if_neg hclosed', hsame,
      if_pos hok, if_true]
  | finish =>
    simp only [StreamResponse.step, StreamResponse.finish, if_neg hclosed, if_neg hclosed', hsame,
      if_pos hok, if_true]
  | _ => cases hop

/-- A stream that takes all it is given is one for responses. -/
theorem streamOps_takes (henv : env.TakesAll) (s : StreamResponse) :
    TakesResponse (streamOps env) (Setting env s) (Writing env s) (Written env s) where
  status c r h := h.1.status
  tells c r op h hop := by
    obtain ⟨hok, huntouched⟩ := h.1.tells env hop
    exact ⟨hok, huntouched, h.2.trans (.op (StreamOp.tells_isSetter hop))⟩
  setStatus c r c' h := by
    obtain ⟨hok, huntouched⟩ := h.1.setStatus env c'
    exact ⟨hok, huntouched, h.2.trans (.op rfl)⟩
  begins c r h := .inl ⟨h, rfl⟩
  writes c := by
    refine ⟨fun r content data h => ?_, fun r content h => ?_⟩
    · obtain ⟨head, pieces, hset, hbegun, rfl, hok, hfinished⟩ := h.begun henv
      obtain ⟨hwritten, pieces', hbegun', hpieces⟩ := hbegun.write henv data
      rw [← step_ensureStarted rfl hfinished hok hbegun.started hbegun.finished] at hwritten hbegun'
      exact ⟨hwritten, .inr ⟨head, pieces', hset, hbegun', hpieces⟩⟩
    · obtain ⟨head, pieces, hset, hbegun, rfl, hok, hfinished⟩ := h.begun henv
      have hbegun' := hbegun.flush henv
      rw [← step_ensureStarted rfl hfinished hok hbegun.started hbegun.finished] at hbegun'
      exact .inr ⟨head, pieces, hset, hbegun', rfl⟩
  finish c r content h := by
    obtain ⟨head, pieces, hset, hbegun, rfl, hok, hfinished⟩ := h.begun henv
    obtain ⟨hfinish, hwire⟩ := hbegun.finish henv
    rw [← step_ensureStarted rfl hfinished hok hbegun.started hbegun.finished] at hfinish hwire
    exact ⟨hfinish, head, pieces, hset, hbegun.full, rfl, hwire⟩

/-- Pieces that have been written in chunks come back from the dechunk stream. -/
theorem dechunkUpdate_frameBody {pieces : List Bytes} (hfull : ∀ piece ∈ pieces, piece ≠ [])
    (hlength : pieces.flatten.length < 2 ^ 64) (flushFull : Bool) :
    dechunkUpdate flushFull dechunkInit (frameBody true pieces ++ frameEnd true) =
      (some pieces.flatten, ⟨[], 0, true⟩) := by
  have hlt : ∀ piece ∈ pieces, piece.length < 2 ^ 64 := fun piece hpiece =>
    (List.sublist_flatten_of_mem hpiece).length_le.trans_lt hlength
  have hbuckets : ∃ buckets : List Bucket, buckets.map Bucket.data = pieces := by
    clear hfull hlength
    induction pieces with
    | nil => exact ⟨[], rfl⟩
    | cons piece pieces ih =>
      rw [List.forall_mem_cons] at hlt
      obtain ⟨buckets, rfl⟩ := ih hlt.2
      exact ⟨⟨piece, hlt.1⟩ :: buckets, rfl⟩
  obtain ⟨buckets, rfl⟩ := hbuckets
  have hframe : frameBody true (buckets.map Bucket.data) ++ frameEnd true =
      buckets.flatMap encodeBucket ++ lastChunk := by
    simp only [frameBody, frameEnd, if_true, List.flatMap_map, encodeChunk_eq]
  rw [hframe, dechunkUpdate_encoded flushFull fun b hb => hfull _ (List.mem_map_of_mem hb),
    List.flatMap_def]

end

/-- What stands behind a header block is some content: as it is, or in chunks from which the dechunk
stream gives it back. -/
def Carries (chunked : Bool) (text content : Bytes) : Prop :=
  if chunked then content.length < 2 ^ 64 → ∀ flushFull : Bool,
    dechunkUpdate flushFull dechunkInit text = (some content, ⟨[], 0, true⟩)
  else text = content

theorem Written.carries {env : StreamEnv} {s : StreamResponse} {c : ℤ} {r : StreamResponse}
    {content : Bytes} (h : Written env s c r content) :
    ∃ head text, Setting env s c head ∧ r.wire = head.headerBlock ++ text ∧
      Carries head.keepsChunked text content := by
  obtain ⟨head, pieces, hset, hfull, rfl, hwire⟩ := h
  refine ⟨head, _, hset, hwire, ?_⟩
  cases hchunked : head.keepsChunked with
  | false => simp [Carries, frameBody, frameEnd]
  | true =>
    rw [Carries, if_pos rfl]
    exact fun hlength flushFull => dechunkUpdate_frameBody hfull hlength flushFull

namespace Response
variable {ε : Type} {L : ResponseLib ε}

/-- Sending a response to a stream that takes all it is given succeeds. What goes out is one header
block, made by what the response has said of it, and content behind it: the answer that the request
and the options call for. -/
theorem send_wire {env : StreamEnv} (henv : env.TakesAll) {decode : Bool → Bytes → Option Bytes}
    (hdecode : Decodes L decode) (request : SentRequest) (options : SendOptions)
    (hsize : ∀ body ∈ options.body, body.size < 2 ^ 63)
    (hinside : ∀ body ∈ options.body, (getRequestRanges body.size request.headers).1 = .ok →
      ∀ range ∈ (getRequestRanges body.size request.headers).2, Inside body.size range)
    (origin : Option (Version × Bytes)) :
    (∀ o : Bool × Response StreamResponse ε,
      (responseInit ε options (streamInit origin)).send L (streamOps env) request = .ok o →
        o.1 = true ∧ ∃ head status text content, Setting env (streamInit origin) status head ∧
          o.2.state.wire = head.headerBlock ++ text ∧ Carries head.keepsChunked text content ∧
          Answers L decode options request 200 o.2 status content) ∧
      ((∀ fault, coding L options request ≠ .error fault) →
        ∃ o, (responseInit ε options (streamInit origin)).send L (streamOps env) request =
          .ok o) := by
  have hinit : Setting env (streamInit origin) 200 (streamInit origin) :=
    ⟨⟨rfl, rfl, rfl, rfl, rfl⟩, .refl _⟩
  have htakes := streamOps_takes henv (streamInit origin)
  refine ⟨fun o ho => ?_, send_ok htakes hinit options⟩
  obtain ⟨hok, status, content, hwritten, hanswers⟩ :=
    send_gets htakes hdecode request options hsize hinside hinit ho
  obtain ⟨head, text, hset, hwire, hcarries⟩ := hwritten.carries
  exact ⟨hok, head, status, text, content, hset, hwire, hcarries, hanswers⟩

/-- A stream that takes everything at once. -/
def openEnv : StreamEnv := ⟨fun _ _ buf => some buf.length, fun _ => false, fun _ => true,
    fun _ => true⟩

theorem openEnv_takesAll : openEnv.TakesAll :=
  ⟨fun _ _ buf => ⟨buf.length, rfl, le_rfl⟩, fun _ => rfl, fun _ => rfl⟩

/-- The last two bytes of a small body, each in a chunk of its own. -/
theorem send_wire_suffix :
    let options := { plainOptions (some ⟨⟨ascii "0123456789", 0⟩, none⟩) with throttleChunk := 1 }
    let request : SentRequest := ⟨rangeHeader "bytes=-2", ascii "GET"⟩
    ∃ o : Bool × Response StreamResponse Unit,
      o.2.state.wire = ascii ("HTTP/1.1 206 Partial Content\r\nAccept-Ranges: bytes\r\n" ++
        "Content-Range: bytes 8-9/10\r\nTransfer-Encoding: chunked\r\n\r\n1\r\n8\r\n1\r\n9\r\n0\r\n\r\n") ∧
      o.1 = true ∧ ∃ head status text content, Setting openEnv (streamInit none) status head ∧
        o.2.state.wire = head.headerBlock ++ text ∧ Carries head.keepsChunked text content ∧
        Answers copyingResponseLib (fun _ => some) options request 200 o.2 status content := by
  intro options request
  have hranges : getRequestRanges 10 request.headers = (.ok, [(8, 9)]) := by decide +kernel
  obtain ⟨hwire, hok⟩ := send_wire openEnv_takesAll copyingResponseLib_decodes request options
    (by simp [options, plainOptions, MessageBody.size, ascii]) (by
      rintro body ⟨⟩ -
      rw [show MessageBody.size ⟨⟨ascii "0123456789", 0⟩, none⟩ = 10 from rfl, hranges]
      simp [Inside]) none
  obtain ⟨o, ho⟩ := hok (by simp [coding, options, plainOptions, contentEncodingGzip])
  have hsent : ((responseInit Unit options (streamInit none)).send copyingResponseLib
      (streamOps openEnv) request).toOption.map (fun o => o.2.state.wire) = some (ascii
        ("HTTP/1.1 206 Partial Content\r\nAccept-Ranges: bytes\r\nContent-Range: bytes 8-9/10\r\n" ++
          "Transfer-Encoding: chunked\r\n\r\n1\r\n8\r\n1\r\n9\r\n0\r\n\r\n")) := by decide +kernel
  rw [ho] at hsent
  exact ⟨o, Option.some.inj hsent, hwire o ho⟩

end Response

end ExtHttp
