import ExtHttp.MessageHead

/-! Bodies that end with the connection: the parser takes what is in the buffer for all of it. -/
namespace ExtHttp
open BufferLoop

variable {Url : Type} {E : Engine Url} {call : MessageCall} {mp : MessageParser Url}

/-- A response whose headers say nothing about its body. -/
structure CloseDelimited (m : Message Url) : Prop where
  response : m.info.isSome = true ∧ m.isRequest = false
  contentLength : m.hdrs.find (ascii "Content-Length") = none
  transferEncoding : m.hdrs.find (ascii "Transfer-Encoding") = none
  contentRange : m.hdrs.find (ascii "Content-Range") = none
  contentEncoding : m.hdrs.find (ascii "Content-Encoding") = none

/-- All that follows the headers of `m` is its body: `b₀` that is in the buffer at their end, and
the pieces that are fed then. -/
structure BodyComplete (E : Engine Url) (c : MessageConfig Url) (b₀ : Bytes) (m : Message Url)
    (ps : List (MessageCall × Bytes)) : Prop where
  body : (feed (messageLoop E) (· = none) (some .headerDone) c b₀ ps).2.1.parser.message =
    [{ m with body := b₀ ++ later ps }]
  noHeader : Throughout (messageLoop E) (· = none) (fun _ _ d _ => d.parser.state ≠ .header) c b₀ ps

theorem CloseDelimited.headerDone {m : Message Url} (h : CloseDelimited m) :
    messageHeaderDone E call mp m =
      (mp, m, if call.emptyRedirects && closedRedirect m m.hdrs then .done else .bodyDumb) := by
  have hframing : framing E m.hdrs = (m.hdrs, false, -1) := by
    unfold framing
    rw [h.transferEncoding, h.contentLength]
  have hencoding : ExtHttp.contentEncoding m.hdrs mp.inflate = (m.hdrs, mp.inflate) := by
    unfold ExtHttp.contentEncoding
    rw [h.contentEncoding]
  unfold messageHeaderDone
  simp only [hframing, h.contentRange, Option.map_none, Option.elim_none, hencoding]
  by_cases hr : (call.emptyRedirects && closedRedirect m m.hdrs) = true
  · rw [if_pos hr, if_pos hr]
  · rw [if_neg hr, if_neg hr]
    simp [h.response.2]

/-! ### After the body -/

/-- A parser that has no message in progress stays out of the headers while it is fed blanks. -/
theorem idle_visits (hstack : mp.stack = []) (b : Bytes) :
    (∀ d, (messageLoop E call).Visits (mp.config, b) d → d.1.parser.state ≠ .header) ↔
      ∀ x ∈ b, isSpace x = true := by
  have hstart : mp.config.parser.state ≠ .header := by
    change mp.stack.headD .start ≠ .header
    simp [hstack]
  have hwait := Machine.forall_visits_ret (P := fun d _ => d.parser.state ≠ .header)
    (idle_wait (E := E) call hstack)
  by_cases hb : b = []
  · subst hb
    simpa using hwait.mpr hstart
  · have hturn := idle_turn (E := E) call hstack hb
    unfold startTurn at hturn
    split_ifs at hturn with hblank
    · rw [Machine.forall_visits_next (P := fun d _ => d.parser.state ≠ .header) hturn, hwait]
      simpa [hstart] using List.dropWhile_eq_nil_iff.mp hblank
    · have hheader : ¬ ∀ d, (messageLoop E call).Visits (mp.config, b) d →
          d.1.parser.state ≠ .header := fun hall => by
        have := ((Machine.forall_visits_next (P := fun d _ => d.parser.state ≠ .header) hturn).mp
          hall).2 _ (Machine.Visits.refl _)
        exact this rfl
      exact iff_of_false hheader fun hall => hblank (List.dropWhile_eq_nil_iff.mpr hall)

theorem idle_run (call : MessageCall) (hstack : mp.stack = []) {b : Bytes}
    (hb : ∀ x ∈ b, isSpace x = true) :
    (messageLoop E call).run mp.config b = (some .start, mp.config, []) := by
  have hwait := Machine.run_ret (idle_wait (E := E) call hstack)
  by_cases hne : b = []
  · rw [hne, hwait]
  · have hturn := idle_turn (E := E) call hstack hne
    rw [startTurn, if_pos (List.dropWhile_eq_nil_iff.mpr hb)] at hturn
    rw [Machine.run_next hturn, hwait]

/-- What is fed to such a parser leaves the messages alone, if it is blank, or is read as
headers. -/
theorem idle_feed (hstack : mp.stack = []) {b : Bytes} {ps : List (MessageCall × Bytes)}
    {r : Option MessageState} (h : Throughout (messageLoop E) (· = none)
      (fun _ _ d _ => d.parser.state ≠ .header) mp.config b ps) :
    (feed (messageLoop E) (· = none) r mp.config b ps).2.1.parser = mp := by
  induction ps generalizing b r with
  | nil => rfl
  | cons kp ps ih =>
    obtain ⟨k, p⟩ := kp
    have hblank := (idle_visits hstack (b ++ p)).mp h.1
    have hrun := idle_run (E := E) k hstack hblank
    have hrest := h.2 (by rw [hrun]; simp)
    rw [hrun] at hrest
    rw [feed, hrun]
    simpa using ih hrest

theorem idle_throughout (mp : MessageParser Url) (hstack : mp.stack = [])
    {ps : List (MessageCall × Bytes)} (h : later ps = []) : Throughout (messageLoop E) (· = none)
      (fun _ _ d _ => d.parser.state ≠ .header) mp.config [] ps := by
  induction ps with
  | nil => trivial
  | cons kp ps ih =>
    obtain ⟨k, p⟩ := kp
    obtain ⟨rfl, hps⟩ := List.append_eq_nil_iff.mp h
    have hrun := idle_run (E := E) k hstack (b := []) (by simp)
    refine ⟨(idle_visits hstack _).mpr (by simp), fun _ => ?_⟩
    rw [List.append_nil, hrun]
    exact ih hps

/-! ### The body -/

/-- In front of the body. -/
structure BeforeDumb (m : Message Url) (mp : MessageParser Url) : Prop where
  stack : mp.stack = [.bodyDumb]
  inflate : mp.inflate = none
  message : mp.message = [m]
  body : m.body = []

theorem BeforeDumb.wait {m : Message Url} (call : MessageCall) (h : BeforeDumb m mp) :
    (messageLoop E call).turn mp.config [] = .ret (some .bodyDumb) mp.config [] := by
  have hstate : mp.config.parser.state = .bodyDumb := by
    change mp.state = .bodyDumb
    rw [MessageParser.state, h.stack]
    rfl
  have hturn := messageTurn_wait (E := E) call (c := mp.config) (by rw [hstate]; rfl)
  rwa [hstate] at hturn

/-- The first call with data takes them for the whole body, and the message is done. -/
theorem BeforeDumb.take {m : Message Url} (h : BeforeDumb m mp) (hgreedy : call.greedy = false)
    {p : Bytes} (hp : p ≠ []) :
    ∃ mp' : MessageParser Url, mp'.stack = [] ∧ mp'.message = [{ m with body := p }] ∧
      (messageLoop E call).run mp.config p = (some .done, mp'.config, []) ∧
      ∀ d, (messageLoop E call).Visits (mp.config, p) d → d.1.parser.state ≠ .header := by
  obtain ⟨stack, bodyLength, header, dechunk, inflate, message⟩ := mp
  obtain ⟨rfl, rfl, rfl, hbody⟩ := h
  have hdumb := bodyDumb_turn (E := E) call ⟨[], bodyLength, header, dechunk, none, [m]⟩ hp
  have hwrite := body_turn (E := E) call
    ⟨[.bodyDone], bodyLength, header, dechunk, none, [m]⟩ rfl p p.length p
  have hdone := bodyDone_turn (E := E) call
    ⟨[], bodyLength, header, dechunk, none, [{ m with body := p }]⟩ []
  have hret := done_turn_ret (E := E) ⟨[], bodyLength, header, dechunk.map fun _ => none, none,
    [{ m with body := p }]⟩ hgreedy []
  simp only [decodeBody_plain, MessageParser.written, hbody, List.nil_append, List.drop_length]
    at hwrite
  refine ⟨⟨[], bodyLength, header, dechunk.map fun _ => none, none, [{ m with body := p }]⟩, rfl,
    rfl, ?_, ?_⟩
  · rw [Machine.run_next hdumb, Machine.run_next hwrite, Machine.run_next hdone,
      Machine.run_ret hret]
    rfl
  · rw [Machine.forall_visits_next (P := fun d _ => d.parser.state ≠ .header) hdumb,
      Machine.forall_visits_next (P := fun d _ => d.parser.state ≠ .header) hwrite,
      Machine.forall_visits_next (P := fun d _ => d.parser.state ≠ .header) hdone,
      Machine.forall_visits_ret (P := fun d _ => d.parser.state ≠ .header) hret]
    simp [MessageParser.config, MessageParser.state]

/-- At most one of the pieces has data. -/
def InOnePiece (ps : List Bytes) : Prop := (ps.filter (· ≠ [])).length ≤ 1

instance (ps : List Bytes) : Decidable (InOnePiece ps) := inferInstanceAs (Decidable (_ ≤ 1))

theorem later_eq_nil {ps : List (MessageCall × Bytes)} :
    later ps = [] ↔ (ps.map Prod.snd).filter (· ≠ []) = [] := by
  simp [later, List.filter_eq_nil_iff]

theorem BeforeDumb.complete_iff {m : Message Url} (h : BeforeDumb m mp)
    {ps : List (MessageCall × Bytes)} (hgreedy : ∀ p ∈ ps, p.1.greedy = false)
    (r : Option MessageState) :
    (feed (messageLoop E) (· = none) r mp.config [] ps).2.1.parser.message =
          [{ m with body := later ps }] ∧
        Throughout (messageLoop E) (· = none) (fun _ _ d _ => d.parser.state ≠ .header) mp.config []
          ps ↔ InOnePiece (ps.map Prod.snd) := by
  induction ps generalizing r with
  | nil => simp [feed, Throughout, InOnePiece, MessageParser.config, h.message, ← h.body]
  | cons kp ps ih =>
    obtain ⟨k, p⟩ := kp
    have hgreedy' : ∀ q ∈ ps, q.1.greedy = false := fun q hq => hgreedy q (by simp [hq])
    by_cases hp : p = []
    · subst hp
      have hrun := Machine.run_ret (h.wait (E := E) k)
      have hvisits : ∀ d, (messageLoop E k).Visits (mp.config, []) d →
          d.1.parser.state ≠ .header := by
        rw [Machine.forall_visits_ret (P := fun d _ => d.parser.state ≠ .header) (h.wait k)]
        simp [MessageParser.config, MessageParser.state, h.stack]
      have hone : InOnePiece (((k, []) :: ps).map Prod.snd) ↔ InOnePiece (ps.map Prod.snd) := by
        simp [InOnePiece]
      rw [hone, ← ih hgreedy' (some .bodyDumb)]
      simp only [feed, Throughout, List.append_nil, hrun, reduceCtorEq, if_false, later_cons,
        List.nil_append, not_false_eq_true, forall_const]
      exact and_congr_right fun _ => and_iff_right hvisits
    · obtain ⟨mp', hstack, hmessage, hrun, hvisits⟩ := h.take (E := E) (hgreedy (k, p) (by simp)) hp
      have hone : InOnePiece (((k, p) :: ps).map Prod.snd) ↔ later ps = [] := by
        rw [later_eq_nil]
        simp [InOnePiece, hp]
      rw [hone]
      constructor
      · rintro ⟨hf, -, ht⟩
        rw [List.nil_append, hrun] at ht
        have hidle := idle_feed (r := some .done) hstack (ht (by simp))
        simp only [feed, List.nil_append, hrun, reduceCtorEq, if_false, later_cons] at hf
        rw [hidle, hmessage] at hf
        simpa using hf
      · intro hps
        have ht := idle_throughout (E := E) mp' hstack hps
        have hidle := idle_feed (r := some .done) hstack ht
        refine ⟨?_, ?_, ?_⟩
        · simp only [feed, List.nil_append, hrun, reduceCtorEq, if_false, later_cons, hps]
          rw [hidle, hmessage, List.append_nil]
        · simpa using hvisits
        · simpa [hrun] using ht

/-- The first call goes on behind the headers as if `b₀` came as a piece. -/
theorem bodyComplete_next {c c' : MessageConfig Url} {b₀ : Bytes} {m : Message Url}
    {ps : List (MessageCall × Bytes)} (hstate : c.parser.state ≠ .header)
    (hturn : (messageLoop E call).turn c b₀ = .next c' b₀) :
    BodyComplete E c b₀ m ((call, []) :: ps) ↔ BodyComplete E c' [] m ((call, b₀) :: ps) := by
  have hrun := Machine.run_next hturn
  have hvisits := Machine.forall_visits_next (P := fun d _ => d.parser.state ≠ .header) hturn
  rw [and_iff_right hstate] at hvisits
  constructor
  · rintro ⟨hb, hv, ht⟩
    rw [List.append_nil, hvisits] at hv
    rw [List.append_nil, hrun] at ht
    refine ⟨?_, hv, ht⟩
    rw [feed, List.append_nil, hrun] at hb
    exact hb
  · rintro ⟨hb, hv, ht⟩
    refine ⟨?_, ?_, ?_⟩
    · rw [feed, List.append_nil, hrun]
      exact hb
    · rw [List.append_nil, hvisits]
      exact hv
    · rw [List.append_nil, hrun]
      exact ht

/-- A response without a hint at the length of its body, whose headers a fresh parser has come to
the end of: all that is fed becomes its body if and only if it all comes in one piece, and the
parser is not told to leave out the body of such a redirect. -/
theorem closeBody_complete_iff {c : MessageConfig Url} {b₀ : Bytes} (hread : ReadingHeaders E c b₀)
    (hstate : c.parser.state = .headerDone) {m : Message Url} (hm : c.parser.message = [m])
    (h : CloseDelimited m) (ps : List (MessageCall × Bytes))
    (hgreedy : ∀ p ∈ (call, []) :: ps, p.1.greedy = false) :
    BodyComplete E c b₀ m ((call, []) :: ps) ↔
      InOnePiece (b₀ :: ps.map Prod.snd) ∧
        ((call.emptyRedirects && closedRedirect m m.hdrs) = true → b₀ ++ later ps = []) := by
  have hbefore := hread.beforeBody
  obtain ⟨⟨stack, bodyLength, header, dechunk, inflate, message⟩, str, cut⟩ := c
  have hstack : stack = [.headerDone] := by
    rcases hbefore.stack with hs | hs | hs <;> simp_all [MessageParser.state]
  obtain rfl : message = [m] := hm
  obtain rfl : inflate = none := hbefore.inflate
  have hbody : m.body = [] := hbefore.body m (by simp)
  subst hstack
  have hturn := headerDone_turn (E := E) call
    ⟨[], bodyLength, header, dechunk, none, [m]⟩ rfl str cut b₀
  simp only [h.headerDone] at hturn
  rw [bodyComplete_next (by simp [MessageParser.state]) hturn]
  have hgreedy' : ∀ p ∈ (call, b₀) :: ps, p.1.greedy = false := by simpa using hgreedy
  by_cases hr : (call.emptyRedirects && closedRedirect m m.hdrs) = true
  · have hdone := done_turn_ret (E := E)
      ⟨[], bodyLength, header, dechunk, none, [m]⟩ (hgreedy (call, []) (by simp)) b₀
    have hrun := Machine.run_ret hdone
    have hvisits := Machine.forall_visits_ret (P := fun d _ => d.parser.state ≠ .header) hdone
    simp only [hr, if_true, true_implies] at hdone ⊢
    constructor
    · rintro ⟨hb, -, ht⟩
      rw [List.nil_append, hrun] at ht
      have hidle := idle_feed (r := some .done) rfl (ht (by simp))
      rw [feed, List.nil_append, hrun, if_neg (by simp), hidle] at hb
      have hnil : b₀ ++ later ps = [] := by
        simpa [hbody] using congrArg (List.map Message.body) hb.symm
      obtain ⟨rfl, hps⟩ := List.append_eq_nil_iff.mp hnil
      refine ⟨?_, hnil⟩
      rw [InOnePiece, List.filter_cons_of_neg (by simp), later_eq_nil.mp hps]
      exact Nat.zero_le 1
    · rintro ⟨-, hnil⟩
      obtain ⟨rfl, hps⟩ := List.append_eq_nil_iff.mp hnil
      have ht := idle_throughout (E := E) ⟨[], bodyLength, header, dechunk, none, [m]⟩ rfl hps
      have hidle := idle_feed (r := some .done) rfl ht
      refine ⟨?_, ?_, ?_⟩
      · simp only [feed, List.nil_append, hrun, reduceCtorEq, if_false, later_cons, hps]
        rw [List.dropWhile_nil, hidle]
        simp [← hbody]
      · rw [List.nil_append, hvisits]
        simp [MessageParser.config, MessageParser.state]
      · rw [List.nil_append, hrun]
        exact fun _ => ht
  · have hdumb : BeforeDumb m ⟨[.bodyDumb], bodyLength, header, dechunk, none, [m]⟩ :=
      ⟨rfl, rfl, rfl, hbody⟩
    have hiff := hdumb.complete_iff (E := E) hgreedy' (some .headerDone)
    simp only [hr, if_false, Bool.false_eq_true, false_implies, and_true]
    rw [List.map_cons] at hiff
    rw [← hiff]
    exact ⟨fun hc => ⟨hc.body, hc.noHeader⟩, fun hc => ⟨hc.1, hc.2⟩⟩

/-- A body that is in the buffer with the headers. -/
theorem closeBody_complete_hello :
    BodyComplete plainEngine
      ⟨⟨[.headerDone], 0, headerParserInit, none, none,
        [⟨some (.response ⟨1, 1⟩ 200 (some (ascii "OK"))), [], []⟩]⟩, [], 0⟩ (ascii "hello")
      ⟨some (.response ⟨1, 1⟩ 200 (some (ascii "OK"))), [], []⟩
      [(plainCall, []), ({ plainCall with cleanup := true }, [])] := by
  have hfed := ReadingHeaders.init (E := plainEngine).feed (ascii "HTTP/1.1 200 OK\r\n\r\nhello")
  have hstart := hfed.turn plainCall (.inl rfl)
  have hread := hstart.turn plainCall (.inr (by decide))
  refine (closeBody_complete_iff (E := plainEngine) ?_ rfl rfl
    ⟨⟨rfl, rfl⟩, rfl, rfl, rfl, rfl⟩ [({ plainCall with cleanup := true }, [])]
    (by simp [plainCall])).mpr ⟨by decide, by simp [plainCall]⟩
  convert hread using 1 <;> decide +kernel

/-- The second piece of a body is read as headers. -/
theorem closeBody_second_piece :
    (feed (messageLoop plainEngine) (· = none) none messageParserInit.config []
      [(plainCall, ascii "HTTP/1.1 200 OK\r\n\r\n"), (plainCall, ascii "a"),
        ({ plainCall with cleanup := true }, ascii "X: y\r\n\r\n")]).2.1.parser.message =
      [⟨some (.response ⟨1, 1⟩ 200 (some (ascii "OK"))),
        [(ascii "X", .scalar (.str (ascii "y")))], ascii "a"⟩] := by decide +kernel

end ExtHttp
