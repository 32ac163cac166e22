import ExtHttp.ChunkedText
import ExtHttp.MessageParser

/-! What the loop of the message parser makes of a body, state by state, whatever is left of the
buffer behind it. -/
namespace ExtHttp
open BufferLoop

variable {Url : Type} {E : Engine Url} {call : MessageCall} {mp : MessageParser Url}

/-- Body data as it is written, and the inflate stream then. -/
def decodeBody (E : Engine Url) (inflate : Option InflateStream) (str : Bytes) :
    Option (Bytes × Option InflateStream) :=
  if str = [] then some ([], inflate)
  else match inflate with
    | none => some (str, none)
    | some stream => (inflateUpdate E stream str).map fun o => (o.1, some o.2)

@[simp] theorem decodeBody_plain (str : Bytes) : decodeBody E none str = some (str, none) := by
  unfold decodeBody
  split_ifs with h
  · rw [h]
  · rfl

@[simp] theorem decodeBody_nil (inflate : Option InflateStream) :
    decodeBody E inflate [] = some ([], inflate) := rfl

/-- The message with `dec` behind its body, and the inflate stream `inflate`. -/
def MessageParser.written (mp : MessageParser Url) (m : Message Url) (parents : Chain Url)
    (dec : Bytes) (inflate : Option InflateStream) : MessageParser Url :=
  { mp with inflate := inflate, message := { m with body := m.body ++ dec } :: parents }

/-- How the loop goes on with the body data `str` when `cut` bytes are to be removed. -/
def goWrite (E : Engine Url) (call : MessageCall) (mp : MessageParser Url) (m : Message Url)
    (parents : Chain Url) (str : Bytes) (cut : ℕ) (b : Bytes) :
    Option MessageState × MessageConfig Url × Bytes :=
  match decodeBody E mp.inflate str with
  | none => (some .failure, { mp with stack := .failure :: mp.stack }.config, b)
  | some (dec, inflate) =>
      (messageLoop E call).run (mp.written m parents dec inflate).config (b.drop cut)

theorem bodyTurn_eq {m : Message Url} {parents : Chain Url} (hm : mp.message = m :: parents)
    (str : Bytes) (cut : ℕ) (b : Bytes) :
    bodyTurn E mp str cut b = match decodeBody E mp.inflate str with
      | none => leaveIn .failure mp b
      | some (dec, inflate) => .next (mp.written m parents dec inflate).config (b.drop cut) := by
  obtain ⟨stack, bodyLength, header, dechunk, inflate, message⟩ := mp
  obtain rfl : message = m :: parents := hm
  unfold bodyTurn decodeBody MessageParser.written
  split_ifs with hstr
  · simp
  · cases inflate with
    | none => rfl
    | some stream => cases hdec : inflateUpdate E stream str <;> simp [hdec]

theorem body_turn (call : MessageCall) (mp : MessageParser Url) {m : Message Url}
    {parents : Chain Url} (hm : mp.message = m :: parents)
    (str : Bytes) (cut : ℕ) (b : Bytes) :
    (messageLoop E call).turn ⟨{ mp with stack := .body :: mp.stack }, str, cut⟩ b =
      match decodeBody E mp.inflate str with
      | none => leaveIn .failure mp b
      | some (dec, inflate) => .next (mp.written m parents dec inflate).config (b.drop cut) := by
  have hturn : (messageLoop E call).turn ⟨{ mp with stack := .body :: mp.stack }, str, cut⟩ b =
      bodyTurn E mp str cut b := if_neg fun h => by cases h.2
  rw [hturn, bodyTurn_eq hm]

theorem run_body (mp : MessageParser Url) {m : Message Url} {parents : Chain Url}
    (hm : mp.message = m :: parents) (str : Bytes) (cut : ℕ) (b : Bytes) :
    (messageLoop E call).run ⟨{ mp with stack := .body :: mp.stack }, str, cut⟩ b =
      goWrite E call mp m parents str cut b := by
  have hturn := body_turn (E := E) call mp hm str cut b
  unfold goWrite
  cases hdec : decodeBody E mp.inflate str with
  | none =>
    rw [hdec] at hturn
    exact Machine.run_ret hturn
  | some o =>
    rw [hdec] at hturn
    exact Machine.run_next hturn

theorem run_bodyLength (call : MessageCall) (mp : MessageParser Url) {m : Message Url}
    {parents : Chain Url} (hm : mp.message = m :: parents) {b : Bytes} (hb : b ≠ []) :
    (messageLoop E call).run { mp with stack := .bodyLength :: mp.stack }.config b =
      goWrite E call { mp with
          stack := (if mp.bodyLength ≤ b.length then .bodyDone else .bodyLength) :: mp.stack
          bodyLength := mp.bodyLength - b.length }
        m parents (b.take mp.bodyLength) (min mp.bodyLength b.length) b := by
  have hturn : (messageLoop E call).turn { mp with stack := .bodyLength :: mp.stack }.config b =
      bodyLengthTurn mp b := if_neg fun h => hb h.1
  have hstate : (if mp.bodyLength - min mp.bodyLength b.length ≠ 0 then MessageState.bodyLength
      else .bodyDone) = if mp.bodyLength ≤ b.length then .bodyDone else .bodyLength := by
    split_ifs <;> first | rfl | omega
  have hlength : mp.bodyLength - min mp.bodyLength b.length = mp.bodyLength - b.length := by omega
  have htake : b.take (min mp.bodyLength b.length) = b.take mp.bodyLength := by
    rw [List.take_eq_take_iff]
    omega
  have hnext : bodyLengthTurn mp b = .next
      ⟨{ mp with
          stack := .body :: (if mp.bodyLength ≤ b.length then .bodyDone else .bodyLength) ::
            mp.stack
          bodyLength := mp.bodyLength - b.length },
        b.take mp.bodyLength, min mp.bodyLength b.length⟩ b := by
    rw [bodyLengthTurn, goBody, hstate, hlength, htake]
  rw [Machine.run_next (hturn.trans hnext)]
  exact run_body { mp with
      stack := (if mp.bodyLength ≤ b.length then .bodyDone else .bodyLength) :: mp.stack
      bodyLength := mp.bodyLength - b.length } hm _ _ _

theorem bodyDumb_turn (call : MessageCall) (mp : MessageParser Url) {b : Bytes} (hb : b ≠ []) :
    (messageLoop E call).turn { mp with stack := .bodyDumb :: mp.stack }.config b =
      .next ⟨{ mp with stack := .body :: .bodyDone :: mp.stack }, b, b.length⟩ b :=
  if_neg fun h => hb h.1

/-- A chunked body that has arrived as a whole. -/
theorem run_bodyChunked (call : MessageCall) (mp : MessageParser Url) {m : Message Url}
    {parents : Chain Url} (hm : mp.message = m :: parents)
    (hdechunk : mp.dechunk = some (some dechunkInit)) (cs : List Chunk) (rest : Bytes)
    (hlen : (chunkedText cs ++ rest).length < 2 ^ 64) :
    (messageLoop E call).run { mp with stack := .bodyChunked :: mp.stack }.config
        (chunkedText cs ++ rest) =
      goWrite E call { mp with
          stack := .bodyDone :: mp.stack
          dechunk := some (some ⟨rest.dropWhile isEol, 0, true⟩) }
        m parents (chunkedData cs) ((chunkedText cs ++ rest).length - (rest.dropWhile isEol).length)
        (chunkedText cs ++ rest) := by
  have hne : chunkedText cs ++ rest ≠ [] := by simp [chunkedText, lastChunk]
  have hturn : (messageLoop E call).turn { mp with stack := .bodyChunked :: mp.stack }.config
      (chunkedText cs ++ rest) = bodyChunkedTurn mp (chunkedText cs ++ rest) :=
    if_neg fun h => hne h.1
  have hle : (rest.dropWhile isEol).length ≤ (chunkedText cs ++ rest).length := by
    have := (List.dropWhile_sublist (l := rest) isEol).length_le
    rw [List.length_append]
    omega
  have hnext : bodyChunkedTurn mp (chunkedText cs ++ rest) = goBody .bodyDone
      { mp with dechunk := some (some ⟨rest.dropWhile isEol, 0, true⟩) } (chunkedData cs)
      ((chunkedText cs ++ rest).length - (rest.dropWhile isEol).length)
      (chunkedText cs ++ rest) := by
    unfold bodyChunkedTurn
    simp only [hdechunk, dechunkUpdate_chunkedText, dechunkDone, if_true, sizeSub_of_le hle hlen]
  rw [Machine.run_next (hturn.trans hnext)]
  exact run_body { mp with
      stack := .bodyDone :: mp.stack
      dechunk := some (some ⟨rest.dropWhile isEol, 0, true⟩) } hm _ _ _

theorem bodyDone_turn (call : MessageCall) (mp : MessageParser Url) (b : Bytes) :
    (messageLoop E call).turn { mp with stack := .bodyDone :: mp.stack }.config b =
      .next { mp with stack := .done :: mp.stack, dechunk := mp.dechunk.map fun _ => none }.config
        b :=
  if_neg fun h => by cases h.2

theorem done_turn (b : Bytes) :
    (messageLoop E call).turn { mp with stack := .done :: mp.stack }.config b =
      doneTurn call mp b :=
  if_neg fun h => by cases h.2

theorem done_turn_ret (mp : MessageParser Url) (hgreedy : call.greedy = false) (b : Bytes) :
    (messageLoop E call).turn { mp with stack := .done :: mp.stack }.config b =
      .ret (some .done) mp.config (b.dropWhile isSpace) := by
  rw [done_turn, doneTurn, hgreedy]
  rfl

theorem done_turn_next (mp : MessageParser Url) (hgreedy : call.greedy = true) (b : Bytes) :
    (messageLoop E call).turn { mp with stack := .done :: mp.stack }.config b =
      .next mp.config (b.dropWhile isSpace) := by
  rw [done_turn, doneTurn, hgreedy]
  rfl

end ExtHttp
