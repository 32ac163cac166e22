import ExtHttp.MessageHead

/-! Bodies whose length is given by a Content-Length: however the bytes arrive, the parser takes
that many of them. -/
namespace ExtHttp
open BufferLoop

variable {Url : Type} {E : Engine Url} {call : MessageCall} {mp : MessageParser Url}

/-- A message whose one Content-Length is a decimal numeral, and nothing else says where its body
ends. -/
structure LengthDelimited (m : Message Url) (ds : Bytes) : Prop where
  digits : ∀ d ∈ ds, isDigit d = true
  pos : 0 < numeral 10 ds
  contentLength : m.hdrs.find (ascii "Content-Length") = some (.scalar (.str ds))
  transferEncoding : m.hdrs.find (ascii "Transfer-Encoding") = none
  contentRange : m.hdrs.find (ascii "Content-Range") = none
  contentEncoding : m.hdrs.find (ascii "Content-Encoding") = none

/-- The length that a numeral stands for: longs saturate. -/
def givenLength (ds : Bytes) : ℕ := min (numeral 10 ds) zendLongMax.toNat

/-- The message behind its headers. -/
def Message.lengthKept (m : Message Url) (ds : Bytes) : Message Url :=
  { m with hdrs := m.hdrs.update (ascii "X-Original-Content-Length") (.scalar (.str ds)) }

theorem givenLength_pos {ds : Bytes} (h : 0 < numeral 10 ds) : 0 < givenLength ds :=
  lt_min h (by decide)

theorem LengthDelimited.headerDone {m : Message Url} {ds : Bytes} (h : LengthDelimited m ds)
    (hlong : E.strToLong ds = min (numeral 10 ds : ℤ) zendLongMax) (hcall : call.Framed m) :
    messageHeaderDone E call mp m =
      ({ mp with bodyLength := givenLength ds }, m.lengthKept ds, .bodyLength) := by
  have hlen : E.strToLong ds = (givenLength ds : ℤ) := by
    rw [hlong, givenLength, zendLongMax]
    omega
  have hframing : framing E m.hdrs = ((m.lengthKept ds).hdrs, false, (givenLength ds : ℤ)) := by
    unfold framing
    simp only [h.transferEncoding, h.contentLength, headerToLong, hlen]
    rfl
  have hfind : ∀ key, ascii "X-Original-Content-Length" ≠ key →
      (m.lengthKept ds).hdrs.find key = m.hdrs.find key := by
    intro key hne
    rw [Message.lengthKept, Headers.find_update, if_neg hne]
  have hrange := (hfind (ascii "Content-Range") (by decide)).trans h.contentRange
  have hencoding : ExtHttp.contentEncoding (m.lengthKept ds).hdrs mp.inflate =
      ((m.lengthKept ds).hdrs, mp.inflate) := by
    unfold ExtHttp.contentEncoding
    rw [hfind (ascii "Content-Encoding") (by decide), h.contentEncoding]
  have hredirect : (call.emptyRedirects && closedRedirect m (m.lengthKept ds).hdrs) = false := by
    have hclosed : closedRedirect m (m.lengthKept ds).hdrs = closedRedirect m m.hdrs := by
      unfold closedRedirect
      rw [hfind (ascii "Location") (by decide), hfind (ascii "Connection") (by decide)]
    rw [hclosed, Bool.and_eq_false_imp]
    exact hcall.emptyRedirects
  have hpos := (givenLength_pos h.pos).ne'
  unfold messageHeaderDone
  simp only [hframing, hrange, Option.map_none, Option.elim_none]
  rw [if_neg (by simp [hredirect])]
  simp only [hencoding, hcall.dumbBodies, Bool.false_eq_true, if_false, Option.bind_none,
    Int.natCast_nonneg, if_true, Int.toNat_natCast, lengthState, if_pos hpos]
  rfl

/-- What a call comes to when `fed` bytes of the body have been fed: the body has the first `n`. -/
structure LengthOutcome (m : Message Url) (n : ℕ) (fed : Bytes)
    (o : Option MessageState × MessageConfig Url × Bytes) : Prop where
  result : o.1 = some (if n ≤ fed.length then .done else .bodyLength)
  message : o.2.1.parser.message = [{ m with body := fed.take n }]
  bodyLength : o.2.1.parser.bodyLength + min n fed.length = n
  buffer : o.2.2 = if n ≤ fed.length then (fed.drop n).dropWhile isSpace else []

/-- The parser in the middle of a body of `n` bytes. -/
structure InLength (m : Message Url) (n : ℕ) (fed : Bytes) (mp : MessageParser Url) : Prop where
  stack : mp.stack = [.bodyLength]
  inflate : mp.inflate = none
  message : mp.message = [{ m with body := fed }]
  bodyLength : mp.bodyLength + fed.length = n
  more : fed.length < n

theorem InLength.wait {m : Message Url} {n : ℕ} {fed : Bytes} (h : InLength m n fed mp) :
    (messageLoop E call).run mp.config [] = (some .bodyLength, mp.config, []) := by
  have hstate : mp.state = .bodyLength := by rw [MessageParser.state, h.stack]; rfl
  have hturn := messageTurn_wait (E := E) call (c := mp.config)
    (by rw [show mp.config.parser.state = .bodyLength from hstate]; rfl)
  rw [show mp.config.parser.state = .bodyLength from hstate] at hturn
  exact Machine.run_ret hturn

theorem InLength.outcome {m : Message Url} {n : ℕ} {fed : Bytes} (h : InLength m n fed mp) :
    LengthOutcome m n fed (some .bodyLength, mp.config, []) := by
  have hmore := Nat.not_le.mpr h.more
  have hlen := h.bodyLength
  refine ⟨by rw [if_neg hmore], ?_, ?_, by rw [if_neg hmore]⟩
  · rw [List.take_of_length_le h.more.le]
    exact h.message
  · change mp.bodyLength + min n fed.length = n
    omega

/-- A call takes all there is, or what is missing, and then it is done. -/
theorem InLength.run {m : Message Url} {n : ℕ} {fed : Bytes} (h : InLength m n fed mp)
    (hgreedy : call.greedy = false) (p : Bytes) :
    LengthOutcome m n (fed ++ p) ((messageLoop E call).run mp.config p) ∧
      ((fed ++ p).length < n → ∃ mp', (messageLoop E call).run mp.config p =
        (some .bodyLength, mp'.config, []) ∧ InLength m n (fed ++ p) mp') := by
  by_cases hp : p = []
  · subst hp
    rw [List.append_nil, h.wait]
    exact ⟨h.outcome, fun _ => ⟨mp, rfl, h⟩⟩
  · obtain ⟨stack, bodyLength, header, dechunk, inflate, message⟩ := mp
    obtain ⟨rfl, rfl, rfl, hlen, hmore⟩ := h
    dsimp only at hlen
    have hrun := run_bodyLength (E := E) call
      ⟨[], bodyLength, header, dechunk, none, [{ m with body := fed }]⟩ rfl hp
    simp only [goWrite, decodeBody_plain, MessageParser.written] at hrun
    by_cases hdone : bodyLength ≤ p.length
    · simp only [if_pos hdone, min_eq_left hdone] at hrun
      have hbodyDone := bodyDone_turn (E := E) call ⟨[], bodyLength - p.length, header,
        dechunk, none, [{ m with body := fed ++ p.take bodyLength }]⟩ (p.drop bodyLength)
      have hlast := done_turn_ret (E := E) ⟨[], bodyLength - p.length, header,
        dechunk.map fun _ => none, none, [{ m with body := fed ++ p.take bodyLength }]⟩ hgreedy
        (p.drop bodyLength)
      rw [hrun, Machine.run_next hbodyDone, Machine.run_ret hlast]
      have hn : n ≤ (fed ++ p).length := by
        rw [List.length_append]
        omega
      have hsplit : n = fed.length + bodyLength := by omega
      refine ⟨⟨by rw [if_pos hn], ?_, ?_, ?_⟩, fun hlt => absurd hn (Nat.not_le.mpr hlt)⟩
      · rw [hsplit, List.take_length_add_append]
        rfl
      · change bodyLength - p.length + min n (fed ++ p).length = n
        omega
      · rw [if_pos hn, hsplit, List.drop_length_add_append]
    · simp only [if_neg hdone, min_eq_right (Nat.le_of_not_le hdone)] at hrun
      rw [List.take_of_length_le (Nat.le_of_not_le hdone), List.drop_length] at hrun
      have hin : InLength m n (fed ++ p) ⟨[.bodyLength], bodyLength - p.length, header,
          dechunk, none, [{ m with body := fed ++ p }]⟩ := by
        refine ⟨rfl, rfl, rfl, ?_, ?_⟩
        · change bodyLength - p.length + (fed ++ p).length = n
          rw [List.length_append]
          omega
        · rw [List.length_append]
          omega
      rw [hrun, hin.wait]
      exact ⟨hin.outcome, fun _ => ⟨_, rfl, hin⟩⟩

theorem InLength.outcomes {m : Message Url} {n : ℕ} {fed : Bytes} (h : InLength m n fed mp)
    (ps : List (MessageCall × Bytes)) (hgreedy : ∀ p ∈ ps, p.1.greedy = false) :
    (∀ i o, (outcomes (messageLoop E) (· = some .done) mp.config [] ps)[i]? = some o →
        LengthOutcome m n (fed ++ later (ps.take (i + 1))) o) ∧
      ((∃ o ∈ outcomes (messageLoop E) (· = some .done) mp.config [] ps, o.1 = some .done) ↔
        n ≤ (fed ++ later ps).length) := by
  induction ps generalizing fed mp with
  | nil => simpa [BufferLoop.outcomes] using h.more
  | cons kp ps ih =>
    obtain ⟨k, p⟩ := kp
    obtain ⟨hout, hgo⟩ := h.run (E := E) (hgreedy (k, p) (by simp)) p
    rw [BufferLoop.outcomes, List.nil_append]
    by_cases hmore : (fed ++ p).length < n
    · obtain ⟨mp', hrun, hin⟩ := hgo hmore
      obtain ⟨hall, hdone⟩ := ih hin fun q hq => hgreedy q (by simp [hq])
      rw [hrun] at hout ⊢
      refine ⟨fun i o ho => ?_, ?_⟩
      · cases i with
        | zero =>
          obtain rfl : _ = o := by simpa using ho
          simpa using hout
        | succ i =>
          have := hall i o (by simpa using ho)
          simpa [List.append_assoc] using this
      · simpa [List.append_assoc] using hdone
    · have hn := Nat.le_of_not_lt hmore
      have hres := hout.result
      rw [if_pos hn] at hres
      rw [if_pos hres]
      refine ⟨fun i o ho => ?_, ?_⟩
      · cases i with
        | zero =>
          obtain rfl : _ = o := by simpa using ho
          simpa using hout
        | succ i => simp at ho
      · simp only [List.mem_singleton, exists_eq_left, hres, true_iff, later_cons]
        simp only [List.length_append] at hn ⊢
        omega

/-- A fresh parser that comes to the end of headers with a Content-Length, with the first bytes `b₀`
behind them in the buffer: whatever is fed then, and however it is cut into pieces. -/
theorem lengthBody_exact {c : MessageConfig Url} {b₀ : Bytes} (hread : ReadingHeaders E c b₀)
    (hstate : c.parser.state = .headerDone) {m : Message Url} (hm : c.parser.message = [m])
    {ds : Bytes} (h : LengthDelimited m ds)
    (hlong : E.strToLong ds = min (numeral 10 ds : ℤ) zendLongMax) (hcall : call.Framed m)
    (ps : List (MessageCall × Bytes)) (hgreedy : ∀ p ∈ (call, []) :: ps, p.1.greedy = false) :
    (∀ i o, (outcomes (messageLoop E) (· = some .done) c b₀ ((call, []) :: ps))[i]? = some o →
        LengthOutcome (m.lengthKept ds) (givenLength ds) (b₀ ++ later (ps.take i)) o) ∧
      ((∃ o ∈ outcomes (messageLoop E) (· = some .done) c b₀ ((call, []) :: ps), o.1 = some .done) ↔
        givenLength ds ≤ (b₀ ++ later ps).length) := by
  have hbefore := hread.beforeBody
  obtain ⟨⟨stack, bodyLength, header, dechunk, inflate, message⟩, str, cut⟩ := c
  have hstack : stack = [.headerDone] := by
    rcases hbefore.stack with hs | hs | hs <;> simp_all [MessageParser.state]
  obtain rfl : message = [m] := hm
  obtain rfl : inflate = none := hbefore.inflate
  have hbody : m.body = [] := hbefore.body m (by simp)
  subst hstack
  have hturn := headerDone_turn (E := E) call
    ⟨[], bodyLength, header, dechunk, none, [m]⟩ rfl str cut b₀
  simp only [h.headerDone hlong hcall] at hturn
  have hin : InLength (m.lengthKept ds) (givenLength ds) []
      ⟨[.bodyLength], givenLength ds, header, dechunk, none, [m.lengthKept ds]⟩ :=
    ⟨rfl, rfl, by simp [Message.lengthKept, hbody], rfl, givenLength_pos h.pos⟩
  have hgreedy' : ∀ p ∈ (call, b₀) :: ps, p.1.greedy = false := by simpa using hgreedy
  have houtcomes : outcomes (messageLoop E) (· = some .done)
      ⟨⟨[.headerDone], bodyLength, header, dechunk, none, [m]⟩, str, cut⟩ b₀ ((call, []) :: ps) =
      outcomes (messageLoop E) (· = some .done)
        (MessageParser.config ⟨[.bodyLength], givenLength ds, header, dechunk, none,
          [m.lengthKept ds]⟩)
        [] ((call, b₀) :: ps) := by
    rw [outcomes, outcomes, List.append_nil, List.nil_append, Machine.run_next hturn]
  rw [houtcomes]
  simpa using hin.outcomes ((call, b₀) :: ps) hgreedy'

/-- A response with three bytes to come, two of which are there. -/
theorem lengthBody_exact_three :
    ∃ o ∈ outcomes (messageLoop plainEngine) (· = some .done)
        ⟨⟨[.headerDone], 0, headerParserInit, none, none,
          [⟨some (.response ⟨1, 1⟩ 200 (some (ascii "OK"))),
            [(ascii "Content-Length", .scalar (.str (ascii "3")))], []⟩]⟩, [], 0⟩
        (ascii "ab") [(plainCall, []), (plainCall, ascii "c d")], o.1 = some .done := by
  have hfed := ReadingHeaders.init (E := plainEngine).feed
    (ascii "HTTP/1.1 200 OK\r\nContent-Length: 3\r\n\r\nab")
  have hstart := hfed.turn plainCall (.inl rfl)
  have hread := hstart.turn plainCall (.inr (by decide))
  have hthree : LengthDelimited (⟨some (.response ⟨1, 1⟩ 200 (some (ascii "OK"))),
      [(ascii "Content-Length", .scalar (.str (ascii "3")))], []⟩ : Message Bytes) (ascii "3") :=
    ⟨by decide +kernel, by decide +kernel, by decide +kernel, by decide +kernel, by decide +kernel,
      by decide⟩
  refine (lengthBody_exact (E := plainEngine) ?_ rfl rfl hthree (by decide)
    ⟨rfl, by simp [plainCall]⟩ [(plainCall, ascii "c d")] (by simp [plainCall])).2.mpr
    (by decide)
  convert hread using 1 <;> decide +kernel

/-- With DUMB_BODIES the length is ignored. -/
theorem lengthBody_dumb :
    (messageParse plainEngine { plainCall with dumbBodies := true } messageParserInit
      (ascii "HTTP/1.1 200 OK\r\nContent-Length: 1\r\n\r\nab")).2.1.message.map Message.body =
      [ascii "ab"] := by
  simp only [ascii, String.reduceToList, List.map_cons, List.map_nil]
  decide +kernel

end ExtHttp
