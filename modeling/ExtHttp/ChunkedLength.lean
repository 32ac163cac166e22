import ExtHttp.ChunkedFeeds
import ExtHttp.TransferFraming
import ExtHttp.MessageBody

/-!
# The Content-Length of chunked messages

Behind the headers of a chunked message the parser writes a Content-Length of 0. It would be put
right in a state that is never reached.
-/
namespace ExtHttp
open BufferLoop

namespace BufferLoop.Machine
variable {σ α ρ : Type*}

/-- The loop up to the first state with `p`, where it is left with `r`. -/
def upTo (M : Machine σ α ρ) (p : σ → Prop) [DecidablePred p] (r : ρ) : Machine σ α ρ where
  turn s b := if p s then .ret r s b else M.turn s b
  weight := M.weight
  weight_lt h := by
    split_ifs at h
    exact M.weight_lt h

theorem upTo_run (M : Machine σ α ρ) {p : σ → Prop} [DecidablePred p] (r : ρ) {s : σ} (h : p s)
    (b : List α) : (M.upTo p r).run s b = (r, s, b) := run_ret (if_pos h)

end BufferLoop.Machine

variable {Url : Type} {E : Engine Url} {call : MessageCall}

/-- A call up to the state `DONE`. -/
def untilDone (E : Engine Url) (call : MessageCall) :
    Machine (MessageConfig Url) Byte (Option MessageState) :=
  (messageLoop E call).upTo (fun c => c.parser.state = .done) (some .done)

theorem untilDone_turn (E : Engine Url) (call : MessageCall) {c : MessageConfig Url}
    (h : c.parser.state ≠ .done) (b : Bytes) : (untilDone E call).turn c b =
      (messageLoop E call).turn c b := if_neg h

/-- The message has no Transfer-Encoding, and its Content-Length is that of its body. -/
def TrueLength (c : MessageConfig Url) : Prop :=
  ∀ m ∈ c.parser.message.head?, m.hdrs.find (ascii "Transfer-Encoding") = none ∧
    m.hdrs.find (ascii "Content-Length") = some (.scalar (.long m.body.length))

/-- A call that ends in the body is followed by another one. -/
def BodyOver (r : Option MessageState) : Prop := r ≠ some .bodyChunked ∧ r ≠ some .bodyDumb

instance : DecidablePred BodyOver := fun _ => inferInstanceAs (Decidable (_ ∧ _))

/-! ### The data of the body -/

/-- What the dechunk stream makes of the pieces, up to the end of the chunks. -/
def dechunked (ctx : DechunkCtx) : List Bytes → List Bytes
  | [] => []
  | p :: ps =>
      if p = [] then dechunked ctx ps
      else match dechunkUpdate false ctx p with
        | (none, _) => []
        | (some dec, ctx') => dec :: if dechunkDone ctx' then [] else dechunked ctx' ps

/-- What is written of the data, with the inflate stream in their way if there is one. -/
def inflated (E : Engine Url) : Option InflateStream → List Bytes → Bytes
  | _, [] => []
  | stream, str :: strs => match decodeBody E stream str with
      | none => []
      | some (dec, stream') => dec ++ inflated E stream' strs

theorem inflated_plain (strs : List Bytes) : inflated E none strs = strs.flatten := by
  induction strs with
  | nil => rfl
  | cons str strs ih => simp [inflated, ih]

/-- The body data that come in the pieces `ps` behind the headers of `m`. -/
def bodyData (call : MessageCall) (m : Message Url) (ps : List Bytes) : List Bytes :=
  if call.Framed m then dechunked dechunkInit ps
  else if flagState call m = .done then [] else (ps.filter (· ≠ [])).take 1

/-- Nothing is written behind the headers of `m`. -/
def NoBody (E : Engine Url) (call : MessageCall) (m : Message Url) (stream : Option InflateStream)
    (cs : List Chunk) (ps : List Bytes) : Prop :=
  if call.Framed m ∧ stream = none then cs = [] else inflated E stream (bodyData call m ps) = []

/-- The chain has `m` in front, with the data `strs` behind its body. -/
def BodyWritten (E : Engine Url) (m : Message Url) (parents : Chain Url)
    (stream : Option InflateStream) (strs : List Bytes) (c : MessageConfig Url) : Prop :=
  c.parser.message = { m with body := m.body ++ inflated E stream strs } :: parents

theorem BodyWritten.cons {m : Message Url} {parents : Chain Url}
    {stream stream' : Option InflateStream} {str dec : Bytes} {strs : List Bytes}
    {c : MessageConfig Url} (hdec : decodeBody E stream str = some (dec, stream'))
    (h : BodyWritten E { m with body := m.body ++ dec } parents stream' strs c) :
    BodyWritten E m parents stream (str :: strs) c := by
  rw [BodyWritten, inflated, hdec]
  simpa [BodyWritten] using h

theorem BodyWritten.single {m : Message Url} {parents : Chain Url}
    {stream stream' : Option InflateStream} {str dec : Bytes} {c : MessageConfig Url}
    (hdec : decodeBody E stream str = some (dec, stream'))
    (h : c.parser.message = { m with body := m.body ++ dec } :: parents) :
    BodyWritten E m parents stream [str] c :=
  .cons hdec (by simpa [BodyWritten, inflated] using h)

/-! ### The calls -/

section Outcomes
variable {σ α ρ κ : Type*} {M : κ → Machine σ α ρ} {final : ρ → Prop} [DecidablePred final]
  {s s' : σ} {b' : List α} {k : κ} {p : List α} {r : ρ}

theorem outcomes_final (hrun : (M k).run s p = (r, s', b')) (hfinal : final r)
    (ps : List (κ × List α)) :
    outcomes M final s [] ((k, p) :: ps) = [(r, s', b')] := by
  rw [outcomes, List.nil_append]
  simp [hrun, hfinal]

theorem outcomes_more (hrun : (M k).run s p = (r, s', b')) (hfinal : ¬ final r)
    (ps : List (κ × List α)) :
    outcomes M final s [] ((k, p) :: ps) = (r, s', b') :: outcomes M final s' b' ps := by
  rw [outcomes, List.nil_append]
  simp [hrun, hfinal]

end Outcomes

/-- The parser in a body, which it reads in `state`. -/
structure InBody (state : MessageState) (m : Message Url) (parents : Chain Url)
    (mp : MessageParser Url) : Prop where
  stack : ∃ states, mp.stack = state :: states
  message : mp.message = m :: parents

section Call
variable {state : MessageState} {m : Message Url} {parents : Chain Url} {mp : MessageParser Url}
  {ctx : DechunkCtx} {rest whole fed p u out : Bytes}

theorem InBody.wait (h : InBody state m parents mp) (hdata : state.needData = true) :
    (untilDone E call).run mp.config [] = (some state, mp.config, []) := by
  obtain ⟨states, hstack⟩ := h.stack
  have hstate : mp.config.parser.state = state := by
    change mp.state = state
    rw [MessageParser.state, hstack]
    rfl
  have hne : mp.config.parser.state ≠ .done := by
    rw [hstate]
    rintro rfl
    cases hdata
  have hturn := messageTurn_wait (E := E) call (c := mp.config) (by rwa [hstate])
  rw [hstate] at hturn
  exact Machine.run_ret ((untilDone_turn E call hne []).trans hturn)

/-- A body is written and the state under it is next. -/
theorem body_write (mp : MessageParser Url) (hm : mp.message = m :: parents) (str : Bytes) (cut : ℕ)
    (b : Bytes) :
    (untilDone E call).run ⟨{ mp with stack := .body :: mp.stack }, str, cut⟩ b =
      match decodeBody E mp.inflate str with
      | none => (some .failure, { mp with stack := .failure :: mp.stack }.config, b)
      | some (dec, inflate) =>
          (untilDone E call).run (mp.written m parents dec inflate).config (b.drop cut) := by
  have hturn := (untilDone_turn E call (c := ⟨{ mp with stack := .body :: mp.stack }, str, cut⟩)
    (by simp [MessageParser.state]) b).trans (body_turn (E := E) call mp hm str cut b)
  cases hdec : decodeBody E mp.inflate str with
  | none =>
    rw [hdec] at hturn
    exact Machine.run_ret hturn
  | some o =>
    rw [hdec] at hturn
    exact Machine.run_next hturn

theorem untilDone_done {states : List MessageState} (hstack : mp.stack = .done :: states)
    (b : Bytes) :
    (untilDone E call).run mp.config b = (some .done, mp.config, b) := by
  have hstate : mp.config.parser.state = .done := by
    change mp.state = .done
    rw [MessageParser.state, hstack]
    rfl
  exact Machine.upTo_run (messageLoop E call) (p := fun c => c.parser.state = .done) _ hstate b

theorem bodyDone_done {states : List MessageState} (hstack : mp.stack = .bodyDone :: states)
    (b : Bytes) :
    ∃ c : MessageConfig Url, c.parser.message = mp.message ∧
      (untilDone E call).run mp.config b = (some .done, c, b) := by
  obtain ⟨stack, bodyLength, header, dechunk, inflate, message⟩ := mp
  obtain rfl : stack = .bodyDone :: states := hstack
  have hturn := (untilDone_turn E call
    (by simp [MessageParser.config, MessageParser.state]) b).trans
    (bodyDone_turn (E := E) call ⟨states, bodyLength, header, dechunk, inflate, message⟩ b)
  exact ⟨_, rfl, (Machine.run_next hturn).trans (@untilDone_done _ E call
    ⟨.done :: states, bodyLength, header, dechunk.map fun _ => none, inflate, message⟩ _ rfl b)⟩

/-- What a call with data comes to in a chunked body. -/
inductive ChunkedCall (E : Engine Url) (m : Message Url) (parents : Chain Url) (ctx : DechunkCtx)
    (mp : MessageParser Url) (p : Bytes) : Option MessageState × MessageConfig Url × Bytes → Prop
  | more {dec str : Bytes} {ctx' : DechunkCtx} {mp' : MessageParser Url} :
      dechunkUpdate false ctx p = (some str, ctx') → dechunkDone ctx' = false →
      decodeBody E mp.inflate str = some (dec, mp'.inflate) →
      InBody .bodyChunked { m with body := m.body ++ dec } parents mp' →
      mp'.dechunk = some (some ctx') →
      ChunkedCall E m parents ctx mp p (some .bodyChunked, mp'.config, [])
  | done {str : Bytes} {ctx' : DechunkCtx} {c : MessageConfig Url} {b : Bytes} :
      dechunkUpdate false ctx p = (some str, ctx') → dechunkDone ctx' = true →
      BodyWritten E m parents mp.inflate [str] c →
      ChunkedCall E m parents ctx mp p (some .done, c, b)
  | failure {c : MessageConfig Url} {b : Bytes} :
    ChunkedCall E m parents ctx mp p (some .failure, c, b)

theorem InBody.chunkedCall (h : InBody .bodyChunked m parents mp)
    (hdechunk : mp.dechunk = some (some ctx)) (hp : p ≠ []) :
    ChunkedCall E m parents ctx mp p ((untilDone E call).run mp.config p) := by
  obtain ⟨⟨states, hstack⟩, hmessage⟩ := h
  obtain ⟨stack, bodyLength, header, dechunk, inflate, message⟩ := mp
  dsimp only at hstack hmessage hdechunk
  subst hstack hmessage hdechunk
  have hturn : (untilDone E call).turn (MessageParser.config ⟨.bodyChunked :: states, bodyLength,
      header, some (some ctx), inflate, m :: parents⟩) p = bodyChunkedTurn ⟨states,
      bodyLength, header, some (some ctx), inflate, m :: parents⟩ p :=
    (untilDone_turn E call (by simp [MessageParser.config, MessageParser.state]) p).trans
      (if_neg fun h => hp h.1)
  unfold bodyChunkedTurn at hturn
  dsimp only at hturn
  generalize hupdate : dechunkUpdate false ctx p = u at hturn
  obtain ⟨str | str, ctx'⟩ := u
  · rw [Machine.run_ret hturn]
    exact .failure
  dsimp only at hturn
  have hwrite := fun next => @body_write _ E call _ _
    ⟨next :: states, bodyLength, header, some (some ctx'), inflate, m :: parents⟩ rfl str
  by_cases hdone : dechunkDone ctx' = true
  · rw [if_pos hdone] at hturn
    rw [Machine.run_next hturn]
    refine (congrArg _ (hwrite .bodyDone (sizeSub p.length ctx'.buffer.length) p)).mpr ?_
    cases hdec : decodeBody E inflate str with
    | none => exact .failure
    | some o =>
      obtain ⟨dec, inflate'⟩ := o
      obtain ⟨c, hc, hrun⟩ := @bodyDone_done _ E call (MessageParser.written
        ⟨.bodyDone :: states, bodyLength, header, some (some ctx'), inflate,
          m :: parents⟩ m parents dec inflate') _ rfl (p.drop (sizeSub p.length ctx'.buffer.length))
      dsimp only
      rw [hrun]
      exact .done hupdate hdone (.single hdec hc)
  · rw [if_neg hdone] at hturn
    rw [Machine.run_next hturn]
    refine (congrArg _ (hwrite .bodyChunked p.length p)).mpr ?_
    cases hdec : decodeBody E inflate str with
    | none => exact .failure
    | some o =>
      obtain ⟨dec, inflate'⟩ := o
      have hin : InBody .bodyChunked { m with body := m.body ++ dec } parents (MessageParser.written
          ⟨.bodyChunked :: states, bodyLength, header, some (some ctx'), inflate,
            m :: parents⟩ m parents
          dec inflate') := ⟨⟨states, rfl⟩, rfl⟩
      dsimp only
      rw [List.drop_length, hin.wait rfl]
      exact .more hupdate (by simpa using hdone) hdec hin rfl

theorem dechunked_cons {p : Bytes} (hp : p ≠ []) {str : Bytes} {ctx' : DechunkCtx}
    (hupdate : dechunkUpdate false ctx p = (some str, ctx')) (ps : List Bytes) :
    dechunked ctx (p :: ps) = str :: if dechunkDone ctx' then [] else dechunked ctx' ps := by
  rw [dechunked, if_neg hp, hupdate]

/-- Of the calls that are made, up to the first that ends outside of the body, one that reaches
`DONE` has written the data of all chunks. -/
theorem InBody.chunked_outcomes (ps : List (MessageCall × Bytes))
    (h : InBody .bodyChunked m parents mp) (hdechunk : mp.dechunk = some (some ctx))
    (hz : ctx.zeroed = false) (hpos : ChunkPosition rest whole ctx.hexlen
      (ctx.buffer ++ later ps) out)
    (hsuffix : ctx.buffer <:+ fed)
    (hcut : ∀ i < ps.length, NotCut (fed ++ later (ps.take (i + 1))) (later (ps.drop (i + 1)))) :
    ∀ o ∈ outcomes (untilDone E) BodyOver mp.config [] ps, o.1 = some .done →
      BodyWritten E m parents mp.inflate (dechunked ctx (ps.map Prod.snd)) o.2.1 ∧
        whole = out ++ (dechunked ctx (ps.map Prod.snd)).flatten := by
  induction ps generalizing fed mp m ctx out with
  | nil => simp [BufferLoop.outcomes]
  | cons kp ps ih =>
    obtain ⟨k, p⟩ := kp
    have hrest : ∀ i < ps.length, NotCut (fed ++ p ++ later (ps.take (i + 1)))
        (later (ps.drop (i + 1))) := fun i hi => by
      have := hcut (i + 1) (by simpa using hi)
      rwa [List.take_succ_cons, List.drop_succ_cons, later_cons, ← List.append_assoc] at this
    rw [List.map_cons]
    by_cases hp : p = []
    · subst hp
      have hnext := ih h hdechunk hz hpos (hsuffix.trans (by simp)) hrest
      rw [outcomes_more (h.wait rfl) (by simp [BodyOver]), dechunked, if_pos rfl]
      simpa using hnext
    · have hfirst : NotCut (fed ++ p) (later ps) := by simpa using hcut 0 (by simp)
      have hbuffer : ctx.buffer ++ p <:+ fed ++ p := by
        obtain ⟨w, rfl⟩ := hsuffix
        exact ⟨w, by simp⟩
      rw [later_cons, ← List.append_assoc] at hpos
      obtain ⟨str, ctx', hupdate, hsuffix', hnext⟩ :=
        dechunkUpdate_position hz hpos (hfirst.suffix hbuffer)
      have hcall : ChunkedCall E m parents ctx mp p ((untilDone E k).run mp.config p) :=
        h.chunkedCall hdechunk hp
      rw [dechunked_cons hp hupdate]
      generalize hrun : (untilDone E k).run mp.config p = o at hcall
      cases hcall with
      | failure =>
        rw [outcomes_final hrun (by simp [BodyOver])]
        simp
      | done hupdate' hdone hwritten =>
        cases hupdate.symm.trans hupdate'
        rw [if_pos hdone] at hnext ⊢
        rw [outcomes_final hrun (by simp [BodyOver])]
        simp [hwritten, hnext]
      | more hupdate' hdone hdec hin hdechunk' =>
        cases hupdate.symm.trans hupdate'
        rw [if_neg (by simp [hdone])] at hnext ⊢
        have hlater := ih hin hdechunk' (by simpa [dechunkDone] using hdone) hnext
          (hsuffix'.trans hbuffer) hrest
        rw [outcomes_more hrun (by simp [BodyOver])]
        refine List.forall_mem_cons.mpr ⟨by simp, fun o ho hodone => ?_⟩
        obtain ⟨hwritten, hwhole⟩ := hlater o ho hodone
        exact ⟨.cons hdec hwritten, by rw [hwhole]; simp⟩

/-- Under DUMB_BODIES the first call with data takes them for the whole body. -/
theorem InBody.dumb_outcomes (ps : List (MessageCall × Bytes)) (h : InBody .bodyDumb m parents mp) :
    ∀ o ∈ outcomes (untilDone E) BodyOver mp.config [] ps, o.1 = some .done →
      BodyWritten E m parents mp.inflate (((ps.map Prod.snd).filter (· ≠ [])).take 1) o.2.1 := by
  induction ps with
  | nil => simp [BufferLoop.outcomes]
  | cons kp ps ih =>
    obtain ⟨k, p⟩ := kp
    rw [List.map_cons]
    by_cases hp : p = []
    · subst hp
      rw [outcomes_more (h.wait rfl) (by simp [BodyOver])]
      simpa using ih
    · obtain ⟨⟨states, hstack⟩, hmessage⟩ := h
      obtain ⟨stack, bodyLength, header, dechunk, inflate, message⟩ := mp
      dsimp only at hstack hmessage
      subst hstack hmessage
      have hturn := (untilDone_turn E k
        (by simp [MessageParser.config, MessageParser.state]) p).trans
        (bodyDumb_turn (E := E) k ⟨states, bodyLength, header, dechunk, inflate, m :: parents⟩ hp)
      have hrun := (Machine.run_next hturn).trans (@body_write _ E k _ _
        ⟨.bodyDone :: states, bodyLength, header, dechunk, inflate, m :: parents⟩ rfl p p.length p)
      dsimp only at hrun ⊢
      rw [List.filter_cons_of_pos (by simpa using hp), List.take_succ_cons, List.take_zero]
      cases hdec : decodeBody E inflate p with
      | none =>
        rw [hdec] at hrun
        rw [outcomes_final hrun (by simp [BodyOver])]
        simp
      | some o =>
        obtain ⟨dec, inflate'⟩ := o
        obtain ⟨c, hc, hdone⟩ := @bodyDone_done _ E k (MessageParser.written
          ⟨.bodyDone :: states, bodyLength, header, dechunk, inflate, m :: parents⟩ m parents dec
            inflate') _ rfl (p.drop p.length)
        rw [hdec] at hrun
        rw [outcomes_final (hrun.trans hdone) (by simp [BodyOver])]
        simpa using BodyWritten.single hdec hc

end Call

/-- The inflate stream depends on Content-Encoding alone. -/
theorem contentEncoding_stream {hdrs hdrs' : Headers} (inflate : Option InflateStream)
    (h : hdrs'.find (ascii "Content-Encoding") = hdrs.find (ascii "Content-Encoding")) :
    (contentEncoding hdrs' inflate).2 = (contentEncoding hdrs inflate).2 := by
  unfold contentEncoding
  rw [h]
  split
  · split_ifs <;> rfl
  · rfl

/-- What is decided behind the headers of a chunked message. -/
theorem messageHeaderDone_coded {m : Message Url}
    (hcoding : m.hdrs.find (ascii "Transfer-Encoding") = some (.scalar (.str (ascii "chunked"))))
    (call : MessageCall) (mp : MessageParser Url) : ∃ hdrs, messageHeaderDone E call mp m =
      (if call.emptyRedirects && closedRedirect m m.hdrs then (mp, { m with hdrs := hdrs }, .done)
      else if call.dumbBodies then
        ({ mp with inflate := (contentEncoding m.hdrs mp.inflate).2 }, { m with hdrs := hdrs },
          .bodyDumb)
      else ({ mp with inflate := (contentEncoding m.hdrs mp.inflate).2
                      dechunk := some (some dechunkInit) }, { m with hdrs := hdrs },
                        .bodyChunked)) ∧
      hdrs.find (ascii "Transfer-Encoding") = none ∧
      hdrs.find (ascii "Content-Length") = some (.scalar (.long 0)) := by
  have hfind : (framing E m.hdrs).1.find (ascii "Content-Length") = some (.scalar (.long 0)) := by
    unfold framing
    rw [hcoding]
    simp
  have hdeleted := messageHeaderDone_transferEncoding E call mp m
  have hlength := (messageHeaderDone_find E call mp m (ascii "Content-Length") (by decide)
    (by decide)).trans hfind
  have hkept : ((((framing E m.hdrs).1.find (ascii "Content-Range")).map HeaderValue.join).elim
      (framing E m.hdrs).1 fun v => (framing E m.hdrs).1.update (ascii "Content-Range")
        (.scalar (.str v))).find (ascii "Content-Encoding") =
          m.hdrs.find (ascii "Content-Encoding") := by
    cases (framing E m.hdrs).1.find (ascii "Content-Range") with
    | none => exact framing_find m.hdrs (.inr (.inr rfl))
    | some v =>
      rw [Option.map_some, Option.elim_some, Headers.find_update, if_neg (by decide)]
      exact framing_find m.hdrs (.inr (.inr rfl))
  have hstream := contentEncoding_stream mp.inflate hkept
  have hredirect := closedRedirect_framing E m
  have hchunked : (framing E m.hdrs).2.1 = true := by
    unfold framing
    rw [hcoding]
    rfl
  refine ⟨(messageHeaderDone E call mp m).2.1.hdrs, ?_, hdeleted, hlength⟩
  rw [← hstream]
  unfold messageHeaderDone
  dsimp only
  rw [hredirect, hchunked]
  by_cases hclosed : (call.emptyRedirects && closedRedirect m m.hdrs) = true
  · rw [if_pos hclosed, if_pos hclosed]
  · rw [if_neg hclosed, if_neg hclosed]
    cases call.dumbBodies <;> rfl

theorem bodyWritten_trueLength {m : Message Url} {parents : Chain Url}
    {stream : Option InflateStream} {strs : List Bytes} {c : MessageConfig Url}
    (hcoding : m.hdrs.find (ascii "Transfer-Encoding") = none)
    (hlength : m.hdrs.find (ascii "Content-Length") = some (.scalar (.long 0)))
    (h : BodyWritten E m parents stream strs c) :
    TrueLength c ↔ m.body = [] ∧ inflated E stream strs = [] := by
  unfold TrueLength
  rw [h]
  simp only [List.head?_cons, Option.mem_some_iff, forall_eq', hcoding, hlength, true_and,
    Option.some.injEq, HeaderValue.scalar.injEq, HeaderScalar.long.injEq]
  rw [← List.append_eq_nil_iff, ← List.length_eq_zero_iff]
  omega

theorem chunkedData_eq_nil {cs : List Chunk} : chunkedData cs = [] ↔ cs = [] := by
  cases cs with
  | nil => simp [chunkedData]
  | cons c cs => simp [c.data_ne]

/-- At `DONE` the Content-Length of a chunked message is true if and only if it has no body. -/
theorem chunkedLength_iff (c : MessageConfig Url) (m : Message Url) (parents : Chain Url)
    (hstate : c.parser.state = .headerDone) (hm : c.parser.message = m :: parents)
    (hcoding : m.hdrs.find (ascii "Transfer-Encoding") = some (.scalar (.str (ascii "chunked"))))
    (call : MessageCall) (cs : List Chunk) (rest b₀ : Bytes) (ps : List (MessageCall × Bytes))
    (htext : b₀ ++ later ps = chunkedText cs ++ rest)
    (hcut : ∀ i, NotCut (b₀ ++ later (ps.take i)) (later (ps.drop i)))
    (o : Option MessageState × MessageConfig Url × Bytes)
    (ho : o ∈ outcomes (untilDone E) BodyOver c b₀ ((call, []) :: ps)) (hdone : o.1 = some .done) :
    TrueLength o.2.1 ↔ m.body = [] ∧ NoBody E call m (contentEncoding m.hdrs c.parser.inflate).2 cs
      (b₀ :: ps.map Prod.snd) := by
  obtain ⟨⟨stack, bodyLength, header, dechunk, inflate, message⟩, str, cut⟩ := c
  obtain ⟨states, rfl⟩ : ∃ states, stack = .headerDone :: states := by
    cases stack with
    | nil => cases hstate
    | cons s states => exact ⟨states, by rw [show s = .headerDone from hstate]⟩
  obtain rfl : message = m :: parents := hm
  obtain ⟨hdrs, heq, hdeleted, hlength⟩ := messageHeaderDone_coded (E := E) hcoding call
    ⟨states, bodyLength, header, dechunk, inflate, m :: parents⟩
  have hturn := headerDone_turn (E := E) call
    ⟨states, bodyLength, header, dechunk, inflate, m :: parents⟩ rfl str cut b₀
  rw [heq, ← untilDone_turn E call (by simp [MessageParser.state])] at hturn
  -- the calls behind that turn
  have hcalls : ∀ mp : MessageParser Url,
      (untilDone E call).turn ⟨⟨.headerDone :: states, bodyLength,
      header, dechunk, inflate, m :: parents⟩, str, cut⟩ b₀ = .next mp.config b₀ →
      o ∈ outcomes (untilDone E) BodyOver mp.config [] ((call, b₀) :: ps) := by
    intro mp hnext
    rw [outcomes, List.append_nil, Machine.run_next hnext] at ho
    rwa [outcomes, List.nil_append]
  have htrue := fun stream strs =>
    @bodyWritten_trueLength _ E { m with hdrs := hdrs } parents stream strs o.2.1 hdeleted hlength
  by_cases hclosed : (call.emptyRedirects && closedRedirect m m.hdrs) = true
  · have hcall : ¬ call.Framed m := fun h => by
      obtain ⟨hempty, hredirect⟩ := Bool.and_eq_true _ _ ▸ hclosed
      simp [h.emptyRedirects hempty] at hredirect
    have hflag : flagState call m = .done := if_pos hclosed
    rw [if_pos hclosed] at hturn
    have hout := hcalls ⟨.done :: states, bodyLength, header, dechunk, inflate,
      { m with hdrs := hdrs } :: parents⟩ hturn
    rw [outcomes_final (untilDone_done rfl b₀) (by simp [BodyOver])] at hout
    obtain rfl := List.mem_singleton.mp hout
    have hwritten := htrue inflate [] (by simp [BodyWritten, inflated, MessageParser.config])
    rw [hwritten, NoBody, if_neg fun h => hcall h.1, bodyData, if_neg hcall, if_pos hflag]
    rfl
  rw [if_neg hclosed] at hturn
  have hflag : flagState call m = .bodyDumb := if_neg hclosed
  cases hdumb : call.dumbBodies with
  | true =>
    have hcall : ¬ call.Framed m := fun h => by simp [h.dumbBodies] at hdumb
    rw [hdumb, if_pos rfl] at hturn
    have hin : InBody .bodyDumb { m with hdrs := hdrs } parents ⟨.bodyDumb :: states,
        bodyLength, header, dechunk, (contentEncoding m.hdrs inflate).2,
        { m with hdrs := hdrs } :: parents⟩ :=
      ⟨⟨states, rfl⟩, rfl⟩
    have hwritten := hin.dumb_outcomes (E := E) ((call, b₀) :: ps) o (hcalls _ hturn) hdone
    rw [htrue _ _ hwritten, NoBody, if_neg fun h => hcall h.1, bodyData, if_neg hcall,
      if_neg (by simp [hflag])]
    rfl
  | false =>
    have hcall : call.Framed m := ⟨hdumb, fun hempty => by simpa [hempty] using hclosed⟩
    rw [hdumb, if_neg (by simp)] at hturn
    have hin : InBody .bodyChunked { m with hdrs := hdrs } parents ⟨.bodyChunked :: states,
        bodyLength, header, some (some dechunkInit), (contentEncoding m.hdrs inflate).2,
        { m with hdrs := hdrs } :: parents⟩ := ⟨⟨states, rfl⟩, rfl⟩
    have hpos : ChunkPosition rest (chunkedData cs) dechunkInit.hexlen
        (dechunkInit.buffer ++ later ((call, b₀) :: ps)) [] := by
      rw [later_cons, htext]
      exact .line (w := []) (by simp) rfl
    have hempty : dechunkInit.buffer <:+ [] := List.suffix_refl []
    obtain ⟨hwritten, hwhole⟩ := hin.chunked_outcomes (E := E) ((call, b₀) :: ps) rfl rfl hpos
      hempty (fun i _ => by simpa using hcut i) o (hcalls _ hturn) hdone
    rw [htrue _ _ hwritten, NoBody]
    dsimp only [List.map_cons] at hwhole ⊢
    by_cases hplain : (contentEncoding m.hdrs inflate).2 = none
    · rw [if_pos ⟨hcall, hplain⟩, hplain, inflated_plain, ← hwhole.trans (List.nil_append _),
        chunkedData_eq_nil]
    · rw [if_neg fun h => hplain h.2, bodyData, if_pos hcall]
      rfl

def oneByteChunk : Chunk where
  size := ascii "1"
  ext := none
  data := ascii "a"
  size_hex := by decide +kernel
  size_eq := by decide
  data_ne := by decide
  data_lt := by decide

theorem chunkedLength_example :
    ∃ o ∈ outcomes (untilDone plainEngine) BodyOver
        (behindFields [(ascii "Transfer-Encoding", ascii "chunked")]) (ascii "1\r\na\r\n0")
        [(plainCall, []), (plainCall, ascii "\r\n\r\nGET")],
      o.1 = some .done ∧ (TrueLength o.2.1 ↔ ([] : Bytes) = [] ∧ NoBody plainEngine plainCall
        ⟨none, headerBlock [(ascii "Transfer-Encoding", ascii "chunked")], []⟩
        (contentEncoding (headerBlock [(ascii "Transfer-Encoding", ascii "chunked")]) none).2
        [oneByteChunk] [ascii "1\r\na\r\n0", ascii "\r\n\r\nGET"]) := by
  obtain ⟨o, ho, hdone⟩ : ∃ o ∈ outcomes (untilDone plainEngine) BodyOver
      (behindFields [(ascii "Transfer-Encoding", ascii "chunked")]) (ascii "1\r\na\r\n0")
      [(plainCall, []), (plainCall, ascii "\r\n\r\nGET")], o.1 = some .done := by decide +kernel
  refine ⟨o, ho, hdone, chunkedLength_iff
    (behindFields [(ascii "Transfer-Encoding", ascii "chunked")]) _ [] rfl rfl (by decide) plainCall
    [oneByteChunk] (ascii "GET") (ascii "1\r\na\r\n0") [(plainCall, ascii "\r\n\r\nGET")]
    (by decide) (fun i => ?_) o ho hdone⟩
  cases i with
  | zero => decide
  | succ i => simp [NotCut]

/-- The one byte of the body is not counted. -/
theorem chunkedLength_not_true :
    let o := (messageLoop plainEngine plainCall).run messageParserInit.config
      (ascii "HTTP/1.1 200 OK\r\nTransfer-Encoding: chunked\r\n\r\n1\r\na\r\n0\r\n\r\n")
    o.1 = some .done ∧ o.2.1.parser.message.map Message.body = [ascii "a"] ∧
      ¬ TrueLength o.2.1 := by
  unfold TrueLength
  simp only [ascii, String.reduceToList, List.map_cons, List.map_nil]
  decide +kernel

end ExtHttp
