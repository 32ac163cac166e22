import ExtHttp.InfoRoundtrip
import ExtHttp.MessageChain
import ExtHttp.WordMatch

/-!
# Updating headers again

`php_http_message_update_headers` is called each time a message is written. Mostly the headers are
settled from the first time on. A stale `Content-Length` of a message without a body takes two
turns, and a type in which `boundary=` is found where no word begins or ends gets another boundary
each time.
-/
namespace ExtHttp

namespace Headers

theorem find_update_self (hs : Headers) (key : Bytes) (v : HeaderValue) :
    (hs.update key v).find key = some v := by
  rw [find_update, if_pos rfl]

theorem find_update_ne (hs : Headers) {key key' : Bytes} (h : key ≠ key') (v : HeaderValue) :
    (hs.update key v).find key' = hs.find key' := by
  rw [find_update, if_neg h]

theorem update_same {hs : Headers} {key : Bytes} {v : HeaderValue} (h : hs.find key = some v) :
    hs.update key v = hs := Assoc.set_same h

theorem update_eq_self_iff {hs : Headers} {key : Bytes} {v : HeaderValue} :
    hs.update key v = hs ↔ hs.find key = some v := by
  refine ⟨fun h => ?_, update_same⟩
  rw [← h, find_update_self]

theorem delete_eq_self_iff {hs : Headers} {key : Bytes} :
    hs.delete key = hs ↔ hs.find key = none := by
  refine ⟨fun h => ?_, Assoc.erase_of_none⟩
  rw [← h, find_delete, if_pos rfl]

end Headers

/-! ### The boundary in the type -/

theorem locateStr_front {needle a : Bytes} {i : ℕ} (h : locateStr needle a = some i) (b : Bytes) :
    locateStr needle (a ++ b) = some i := by
  induction a generalizing i with
  | nil =>
    simp only [locateStr, Option.ite_none_right_eq_some, Option.some.injEq] at h
    obtain ⟨rfl, rfl⟩ := h
    cases b with
    | nil => rfl
    | cons c b => rw [List.nil_append, locateStr, if_pos List.nil_prefix]
  | cons c a ih =>
    rw [locateStr] at h
    change (if needle <+: (c :: a) ++ b then some 0 else (locateStr needle (a ++ b)).map (· + 1)) =
      some i
    split_ifs at h with hpre
    · rw [if_pos (hpre.trans (List.prefix_append (c :: a) b))]
      exact h
    · obtain ⟨j, hj, rfl⟩ := Option.map_eq_some_iff.mp h
      have hlen : needle.length ≤ (c :: a).length := by
        have hle := (locateStr_spec hj).length_le
        rw [List.length_drop] at hle
        rw [List.length_cons]
        omega
      have hnot : ¬ needle <+: (c :: a) ++ b := fun hall =>
        hpre (List.prefix_of_prefix_length_le hall (List.prefix_append (c :: a) b) hlen)
      rw [if_neg hnot, ih hj]
      rfl

/-- `boundary=` -/
def boundaryWord : Bytes := ascii "boundary="

/-- The type with a boundary behind it. -/
def withBoundary (boundary : CString) (ct : Bytes) : Bytes :=
  cString ct ++ ascii "; boundary=\"" ++ boundary.bytes ++ ascii "\""

theorem withBoundary_noNul (boundary : CString) (ct : Bytes) : nul ∉ withBoundary boundary ct := by
  have hct : nul ∉ cString ct := fun h => by simpa using List.mem_takeWhile_imp h
  have htext : nul ∉ ascii "; boundary=\"" ∧ nul ∉ ascii "\"" := by decide
  simp only [withBoundary, List.mem_append, not_or]
  exact ⟨⟨⟨hct, htext.1⟩, boundary.noNul⟩, htext.2⟩

theorem withBoundary_ne (boundary : CString) (ct : Bytes) : withBoundary boundary ct ≠ ct := by
  intro h
  have hnul := withBoundary_noNul boundary ct
  rw [h] at hnul
  have hlength := congrArg List.length h
  rw [withBoundary, cString_of_noNul hnul, List.length_append, List.length_append,
    List.length_append] at hlength
  have hpos : 0 < (ascii "\"").length := by decide
  omega

/-- The boundary behind a type is seen unless `boundary=` is found in front of it already. -/
theorem matchWord_withBoundary (boundary : CString) {ct : Bytes}
    (hct : matchWord ct boundaryWord = false) :
    matchWord (withBoundary boundary ct) boundaryWord = true ↔
      ¬ boundaryWord <:+: (cString ct).map toLower := by
  have hlower : boundaryWord.map toLower = boundaryWord := by decide
  have hhay : withBoundary boundary ct =
      (cString ct ++ [59]) ++ space :: (boundaryWord ++ 34 :: (boundary.bytes ++ ascii "\"")) := by
    simp [withBoundary, ascii, boundaryWord, space]
  have hfront : ∀ i, FirstAt boundaryWord (cString ct) i →
      FirstAt boundaryWord (withBoundary boundary ct) i := by
    intro i hi
    rw [← locateStr_lower_iff] at hi ⊢
    rw [hhay, List.append_assoc, List.map_append]
    exact locateStr_front hi _
  have hsame : ∀ (i : ℕ) c, (cString ct)[i]? = some c →
      (withBoundary boundary ct)[i]? = some c := by
    intro i c hc
    have hlt := (List.getElem?_eq_some_iff.mp hc).1
    rw [hhay, List.append_assoc, List.getElem?_append_left hlt]
    exact hc
  rw [matchWord_iff (withBoundary_noNul boundary ct)]
  constructor
  · rintro ⟨i, hfirst, hword⟩ hinfix
    rw [← hlower] at hinfix
    obtain ⟨j, hj⟩ := Option.ne_none_iff_exists'.mp fun hnone => locateStr_eq_none.mp hnone hinfix
    have hfound := locateStr_lower_iff.mp hj
    obtain rfl := (hfront j hfound).unique hfirst
    have hno := (matchWord_iff_cString ct boundaryWord).not.mp (by simp [hct])
    exact hno ⟨j, hfound, hfound.occurs,
      hword.before.imp id fun hbefore c hc => hbefore c (hsame _ c hc), fun c hc =>
        hword.behind c (hsame _ c hc)⟩
  · intro hnot
    have hfree : ¬ boundaryWord <:+: (cString ct ++ [59]).map toLower := fun h => by
      rw [List.map_append] at h
      rcases infix_append_cons h (by decide) with h | h
      · exact hnot h
      · cases List.infix_nil.mp h
    have hfound := locateStr_behind hfree (by decide : space ∉ boundaryWord)
      ((34 :: (boundary.bytes ++ ascii "\"")).map toLower)
    have hlowered : (withBoundary boundary ct).map toLower = (cString ct ++ [59]).map toLower ++
        space :: (boundaryWord ++ (34 :: (boundary.bytes ++ ascii "\"")).map toLower) := by
      have hspace : toLower space = space := by decide
      rw [hhay]
      simp only [List.map_append, List.map_cons, hlower, hspace]
    rw [← hlowered, ← hlower, locateStr_lower_iff, List.length_map] at hfound
    refine ⟨_, hfound, hfound.occurs, .inr fun c hc => ?_, fun c hc => ?_⟩
    · rw [hhay, Nat.add_sub_cancel, List.getElem?_append_right le_rfl, Nat.sub_self] at hc
      obtain rfl : space = c := Option.some.inj hc
      rfl
    · have hplace : (cString ct ++ [59]).length + 1 + boundaryWord.length =
          (cString ct ++ [59]).length + (1 + boundaryWord.length) := by omega
      rw [hhay, hplace, List.getElem?_append_right (by omega), Nat.add_sub_cancel_left] at hc
      obtain rfl : (34 : Byte) = c := Option.some.inj hc
      rfl

/-! ### What is settled -/

namespace OutgoingMessage
variable (out : OutgoingMessage)

/-- Writing the message leaves its headers as they are. -/
def Settled : Prop := updateHeaders out = out.message.hdrs

/-- The message has a range of a body, and its headers are not touched. -/
def Ranged : Prop := (out.message.hdrs.find (ascii "Content-Range")).isSome = true

/-- A request that would be given a `Content-Length` of 0. -/
def AsksForLength : Prop :=
  ∃ version method url, out.message.info = some (.request version method url) ∧
    meansBody method = true ∧
    out.message.hdrs.find (ascii "Transfer-Encoding") = none

/-- Without a body, the length that is taken away would be written again. -/
def Stale : Prop :=
  ¬ out.Ranged ∧ out.message.body = [] ∧ out.AsksForLength ∧
    ∃ cl, out.message.headerString (ascii "Content-Length") = some cl ∧ cl ≠ ascii "0"

/-- The boundary of the body cannot be seen in the type. -/
def HidesBoundary : Prop :=
  ¬ out.Ranged ∧ out.message.body ≠ [] ∧ out.boundary.isSome = true ∧
    ∃ ct, out.message.headerString (ascii "Content-Type") = some ct ∧
      matchWord ct boundaryWord = false ∧
      boundaryWord <:+: (cString ct).map toLower

/-- The headers tell what is in the body. -/
inductive Truthful : Prop
  | ranged (h : out.Ranged)
  | body (hbody : out.message.body ≠ [])
      (hlength : out.message.hdrs.find (ascii "Content-Length") =
        some (.scalar (.long out.message.body.length)))
      (hboundary : out.boundary.isSome = true → ∃ ct,
        out.message.headerString (ascii "Content-Type") = some ct ∧
        matchWord ct boundaryWord = true)
  | empty (hbody : out.message.body = []) (hlength : out.message.headerString
    (ascii "Content-Length") = some (ascii "0"))
  | none (hbody : out.message.body = []) (hlength : out.message.headerString
    (ascii "Content-Length") = none)
      (hask : ¬ out.AsksForLength)

variable {out}

theorem headerString_eq_none {key : Bytes} : out.message.headerString key = none ↔
    out.message.hdrs.find key = none :=
  Option.map_eq_none_iff

/-- The cases of an update. -/
inductive Updated (out : OutgoingMessage) : Headers → Prop
  | ranged (h : out.Ranged) : Updated out out.message.hdrs
  | length (h : ¬ out.Ranged) (hbody : out.message.body ≠ [])
      (hboundary : out.boundary = none ∨ ∃ ct,
        out.message.headerString (ascii "Content-Type") = some ct ∧
        matchWord ct boundaryWord = true) :
      Updated out (out.message.hdrs.update (ascii "Content-Length")
        (.scalar (.long out.message.body.length)))
  | boundary (h : ¬ out.Ranged) (hbody : out.message.body ≠ []) {b : CString}
    (hb : out.boundary = some b) {ct : Bytes}
      (hct : (out.message.headerString (ascii "Content-Type")).getD (ascii "multipart/form-data") =
        ct)
      (hword : matchWord ct boundaryWord = false) :
      Updated out ((out.message.hdrs.update (ascii "Content-Length")
        (.scalar (.long out.message.body.length))).update
        (ascii "Content-Type") (.scalar (.str (withBoundary b ct))))
  | removed (h : ¬ out.Ranged) (hbody : out.message.body = []) {cl : Bytes}
      (hcl : out.message.headerString (ascii "Content-Length") = some cl) (hzero : cl ≠ ascii "0") :
      Updated out (out.message.hdrs.delete (ascii "Content-Length"))
  | zero (h : ¬ out.Ranged) (hbody : out.message.body = [])
      (hcl : out.message.headerString (ascii "Content-Length") = none) (hask : out.AsksForLength) :
      Updated out (out.message.hdrs.update (ascii "Content-Length") (.scalar (.long 0)))
  | kept (h : ¬ out.Ranged) (hbody : out.message.body = [])
      (hcl : out.message.headerString (ascii "Content-Length") = some (ascii "0") ∨
        out.message.headerString (ascii "Content-Length") = none ∧ ¬ out.AsksForLength) :
          Updated out out.message.hdrs

theorem multipart_noBoundary : matchWord (ascii "multipart/form-data") boundaryWord = false ∧
    ¬ boundaryWord <:+: (cString (ascii "multipart/form-data")).map toLower := by
  decide +kernel

theorem updateHeaders_body (h : ¬ out.Ranged) (hbody : out.message.body ≠ []) :
    Updated out (updateHeaders out) := by
  have hlength : out.message.body.length ≠ 0 := fun h0 => hbody (List.length_eq_zero_iff.mp h0)
  have hranged : ¬ (out.message.hdrs.find (ascii "Content-Range")).isSome = true := h
  unfold updateHeaders
  dsimp only
  rw [if_neg hranged, if_pos hlength]
  cases hb : out.boundary with
  | none => exact .length h hbody (.inl hb)
  | some b =>
    rw [Option.bind_some]
    cases hct : out.message.headerString (ascii "Content-Type") with
    | none =>
      exact .boundary h hbody hb (by rw [hct]; rfl) multipart_noBoundary.1
    | some ct =>
      cases hword : matchWord ct boundaryWord with
      | true =>
        have hnone : multipartType b (some ct) = none := if_pos hword
        rw [hnone]
        exact .length h hbody (.inr ⟨ct, hct, hword⟩)
      | false =>
        have hsome : multipartType b (some ct) = some (withBoundary b ct) := if_neg (fun htrue => by
          rw [show ascii "boundary=" = boundaryWord from rfl, hword] at htrue
          cases htrue)
        rw [hsome]
        exact .boundary h hbody hb (by rw [hct]; rfl) hword

theorem updateHeaders_empty (h : ¬ out.Ranged) (hbody : out.message.body = []) :
    Updated out (updateHeaders out) := by
  have hranged : ¬ (out.message.hdrs.find (ascii "Content-Range")).isSome = true := h
  unfold updateHeaders
  dsimp only
  rw [if_neg hranged, hbody, if_neg (by simp)]
  cases hcl : out.message.headerString (ascii "Content-Length") with
  | some cl =>
    dsimp only
    split_ifs with hzero
    · exact .removed h hbody hcl hzero
    · exact .kept h hbody (.inl (by rw [hcl, not_not.mp hzero]))
  | none =>
    have hnot : (∀ version method url, out.message.info = some (.request version method url) →
        ¬ ((out.message.hdrs.find (ascii "Transfer-Encoding")).isNone && meansBody method) = true) →
          ¬ out.AsksForLength := by
      rintro hno ⟨version, method, url, hinfo, hmeans, hte⟩
      exact hno version method url hinfo (by rw [hte, hmeans]; rfl)
    split
    · cases ‹_›
    · rename_i version method url _ hinfo
      split_ifs with hask
      · rw [Bool.and_eq_true, Option.isNone_iff_eq_none] at hask
        exact .zero h hbody hcl ⟨version, method, url, hinfo, hask.2, hask.1⟩
      · refine .kept h hbody (.inr ⟨hcl, hnot fun v m u hinfo' => ?_⟩)
        rw [hinfo] at hinfo'
        cases hinfo'
        exact hask
    · rename_i hrequest
      exact .kept h hbody (.inr ⟨hcl, hnot fun v m u hinfo => absurd hinfo (hrequest v m u)⟩)

theorem updateHeaders_spec (out : OutgoingMessage) : Updated out (updateHeaders out) := by
  by_cases h : out.Ranged
  · have hsame : updateHeaders out = out.message.hdrs := if_pos h
    rw [hsame]
    exact .ranged h
  · by_cases hbody : out.message.body = []
    · exact updateHeaders_empty h hbody
    · exact updateHeaders_body h hbody

theorem headerString_update_self (m : Message HttpUrl) (key : Bytes) (v : HeaderValue) :
    { m with hdrs := m.hdrs.update key v }.headerString key = some v.join := by
  rw [Message.headerString, Headers.find_update_self]
  rfl

theorem headerString_update_ne (m : Message HttpUrl) {key key' : Bytes} (h : key ≠ key')
    (v : HeaderValue) :
    { m with hdrs := m.hdrs.update key v }.headerString key' = m.headerString key' := by
  rw [Message.headerString, Headers.find_update_ne _ h]
  rfl

theorem headerString_find {m : Message HttpUrl} {key : Bytes} {v : HeaderValue}
    (h : m.hdrs.find key = some v) :
    m.headerString key = some v.join := by
  rw [Message.headerString, h]
  rfl

theorem truthful_body_iff (h : ¬ out.Ranged) (hbody : out.message.body ≠ []) : out.Truthful ↔
    out.message.hdrs.find (ascii "Content-Length") =
      some (.scalar (.long out.message.body.length)) ∧
      (out.boundary.isSome = true → ∃ ct,
        out.message.headerString (ascii "Content-Type") = some ct ∧
        matchWord ct boundaryWord = true) := by
  constructor
  · rintro (h' | ⟨-, hlength, hboundary⟩ | ⟨hempty, -⟩ | ⟨hempty, -, -⟩)
    · exact absurd h' h
    · exact ⟨hlength, hboundary⟩
    · exact absurd hempty hbody
    · exact absurd hempty hbody
  · exact fun ht => .body hbody ht.1 ht.2

theorem truthful_empty_iff (h : ¬ out.Ranged) (hbody : out.message.body = []) : out.Truthful ↔
    out.message.headerString (ascii "Content-Length") = some (ascii "0") ∨
      out.message.headerString (ascii "Content-Length") = none ∧ ¬ out.AsksForLength := by
  constructor
  · rintro (h' | ⟨hne, -, -⟩ | ⟨-, hlength⟩ | ⟨-, hlength, hask⟩)
    · exact absurd h' h
    · exact absurd hbody hne
    · exact .inl hlength
    · exact .inr ⟨hlength, hask⟩
  · rintro (hlength | ⟨hlength, hask⟩)
    · exact .empty hbody hlength
    · exact .none hbody hlength hask

/-- Headers are left as they are if and only if they tell what is in the body. -/
theorem settled_iff : out.Settled ↔ out.Truthful := by
  unfold Settled
  have hspec := updateHeaders_spec out
  generalize updateHeaders out = hdrs at hspec ⊢
  cases hspec with
  | ranged h => exact iff_of_true rfl (.ranged h)
  | length h hbody hboundary =>
    rw [Headers.update_eq_self_iff, truthful_body_iff h hbody]
    refine ⟨fun hlength => ⟨hlength, fun hsome => hboundary.resolve_left fun hnone => ?_⟩, And.left⟩
    rw [hnone] at hsome
    cases hsome
  | @boundary h hbody b hb ct hct hword =>
    rw [truthful_body_iff h hbody]
    refine iff_of_false (fun heq => ?_) fun htrue => ?_
    · have hfind := congrArg (Headers.find · (ascii "Content-Type")) heq
      simp only [Headers.find_update_self] at hfind
      rw [headerString_find hfind.symm] at hct
      exact withBoundary_ne b ct hct
    · obtain ⟨ct', hct', hword'⟩ := htrue.2 (by rw [hb]; rfl)
      rw [hct', Option.getD_some] at hct
      rw [hct, hword] at hword'
      cases hword'
  | removed h hbody hcl hzero =>
    rw [Headers.delete_eq_self_iff, ← headerString_eq_none, truthful_empty_iff h hbody, hcl]
    simp [hzero]
  | zero h hbody hcl hask =>
    have hnone := headerString_eq_none.mp hcl
    rw [Headers.update_eq_self_iff, hnone, truthful_empty_iff h hbody, hcl]
    simp [hask]
  | kept h hbody hcl => exact iff_of_true rfl ((truthful_empty_iff h hbody).mpr hcl)

/-! ### Writing twice -/

theorem contentLength_ne : ascii "Content-Length" ≠ ascii "Content-Range" ∧
    ascii "Content-Length" ≠ ascii "Content-Type" ∧
    ascii "Content-Length" ≠ ascii "Transfer-Encoding" ∧
      ascii "Content-Type" ≠ ascii "Content-Range" ∧
    ascii "Content-Type" ≠ ascii "Content-Length" := by decide

/-- Only the length is updated, and the type if there is a boundary to tell. -/
theorem find_updateHeaders (out : OutgoingMessage) {key : Bytes}
    (hlength : ascii "Content-Length" ≠ key)
    (htype : out.boundary = none ∨ ascii "Content-Type" ≠ key) :
    (updateHeaders out).find key = out.message.hdrs.find key := by
  have hspec := updateHeaders_spec out
  generalize updateHeaders out = hdrs at hspec ⊢
  cases hspec with
  | ranged _ => rfl
  | length _ _ _ => rw [Headers.find_update_ne _ hlength]
  | boundary _ _ hb _ _ =>
    rcases htype with hnone | htype
    · rw [hnone] at hb
      cases hb
    · rw [Headers.find_update_ne _ htype, Headers.find_update_ne _ hlength]
  | removed _ _ _ _ => rw [Headers.find_delete, if_neg hlength]
  | zero _ _ _ _ => rw [Headers.find_update_ne _ hlength]
  | kept _ _ _ => rfl

theorem written_ranged_iff : out.written.Ranged ↔ out.Ranged := by
  unfold Ranged
  rw [← find_updateHeaders out contentLength_ne.1 (.inr contentLength_ne.2.2.2.1)]
  rfl

theorem written_asksForLength_iff : out.written.AsksForLength ↔ out.AsksForLength := by
  unfold AsksForLength
  rw [← find_updateHeaders out contentLength_ne.2.2.1 (.inr (by decide))]
  rfl

/-- The length that is there after writing a message without a body. -/
theorem written_contentLength (h : ¬ out.Ranged) (hbody : out.message.body = []) :
    (out.written.message.headerString (ascii "Content-Length") = some (ascii "0") ∨
      out.written.message.headerString (ascii "Content-Length") = none) ∧
    (out.written.message.headerString (ascii "Content-Length") = none ∧ out.AsksForLength ↔
      out.Stale) := by
  have hspec := updateHeaders_spec out
  unfold written
  generalize updateHeaders out = hdrs at hspec ⊢
  cases hspec with
  | ranged h' => exact absurd h' h
  | length _ hne _ => exact absurd hbody hne
  | boundary _ hne _ _ _ => exact absurd hbody hne
  | @removed _ _ cl hcl hzero =>
    have hnone :
        { out.message with hdrs := out.message.hdrs.delete (ascii "Content-Length") }.headerString
        (ascii "Content-Length") = none := by
      rw [Message.headerString, Headers.find_delete, if_pos rfl]
      rfl
    refine ⟨.inr hnone, fun hask => ⟨h, hbody, hask.2, cl, hcl, hzero⟩,
      fun hstale => ⟨hnone, hstale.2.2.1⟩⟩
  | zero _ _ hcl _ =>
    have hzero := headerString_update_self out.message (ascii "Content-Length") (.scalar (.long 0))
    refine ⟨.inl hzero, fun hask => ?_, fun hstale => ?_⟩
    · rw [hzero] at hask
      cases hask.1
    · obtain ⟨-, -, -, cl, hcl', -⟩ := hstale
      rw [hcl] at hcl'
      cases hcl'
  | kept _ _ hcl =>
    refine ⟨hcl.imp id And.left, fun hask => ?_, fun hstale => ?_⟩
    · rcases hcl with hcl | hcl
      · exact absurd (hask.1.symm.trans hcl) (by simp)
      · exact absurd hask.2 hcl.2
    · obtain ⟨-, -, hask, cl, hcl', hne⟩ := hstale
      rcases hcl with hcl | hcl
      · exact absurd (Option.some.inj (hcl'.symm.trans hcl)) hne
      · exact absurd hask hcl.2

theorem infix_withBoundary (b : CString) {ct : Bytes}
    (h : boundaryWord <:+: (cString ct).map toLower) :
    boundaryWord <:+: (cString (withBoundary b ct)).map toLower := by
  rw [cString_of_noNul (withBoundary_noNul b ct), withBoundary, List.append_assoc,
    List.append_assoc, List.map_append]
  exact h.trans (List.prefix_append _ _).isInfix

/-- The type and the length that are there after writing a message with a body. -/
theorem written_body (h : ¬ out.Ranged) (hbody : out.message.body ≠ []) :
    out.written.message.hdrs.find (ascii "Content-Length") =
      some (.scalar (.long out.message.body.length)) ∧
    (out.boundary.isSome = true → ∃ ct,
      out.written.message.headerString (ascii "Content-Type") = some ct ∧
      (matchWord ct boundaryWord = false ↔ out.HidesBoundary) ∧
      (out.HidesBoundary → boundaryWord <:+: (cString ct).map toLower)) := by
  obtain ⟨-, hlengthtype, -, -, htypelength⟩ := contentLength_ne
  have hspec := updateHeaders_spec out
  unfold written
  generalize updateHeaders out = hdrs at hspec ⊢
  cases hspec with
  | ranged h' => exact absurd h' h
  | length _ _ hboundary =>
    refine ⟨Headers.find_update_self _ _ _, fun hsome => ?_⟩
    obtain ⟨ct, hct, hword⟩ := hboundary.resolve_left fun hnone => by
      rw [hnone] at hsome
      cases hsome
    have hsame := headerString_update_ne out.message hlengthtype
      (.scalar (.long out.message.body.length))
    rw [hct] at hsame
    have hseen : ¬ out.HidesBoundary := fun hhides => by
      obtain ⟨-, -, -, ct', hct', hword', -⟩ := hhides
      rw [Option.some.inj (hct'.symm.trans hct), hword] at hword'
      cases hword'
    exact ⟨ct, hsame, by simp [hword, hseen], fun hhides => absurd hhides hseen⟩
  | @boundary _ _ b hb ct hct hword =>
    have hmatch := matchWord_withBoundary b hword
    have hhides : out.HidesBoundary ↔ boundaryWord <:+: (cString ct).map toLower := by
      constructor
      · rintro ⟨-, -, -, ct', hct', -, hinfix⟩
        rw [hct', Option.getD_some] at hct
        exact hct ▸ hinfix
      · intro hinfix
        cases htype : out.message.headerString (ascii "Content-Type") with
        | none =>
          rw [htype, Option.getD_none] at hct
          exact absurd (hct ▸ hinfix) multipart_noBoundary.2
        | some ct' =>
          obtain rfl : ct' = ct := by rw [htype] at hct; exact hct
          exact ⟨h, hbody, by rw [hb]; rfl, ct', htype, hword, hinfix⟩
    refine ⟨?_, fun _ => ⟨withBoundary b ct, headerString_update_self
      { out.message with hdrs := out.message.hdrs.update _ _ } _
        (.scalar (.str (withBoundary b ct))), ?_, ?_⟩⟩
    · rw [Headers.find_update_ne _ htypelength, Headers.find_update_self]
    · rw [hhides, ← Bool.not_eq_true, hmatch, not_not]
    · exact fun hh => infix_withBoundary b (hhides.mp hh)
  | removed _ hempty _ _ => exact absurd hempty hbody
  | zero _ hempty _ _ => exact absurd hempty hbody
  | kept _ hempty _ => exact absurd hempty hbody

/-- Once written, the headers of a message are settled but for the two cases. -/
theorem written_settled_iff : out.written.Settled ↔ ¬ out.Stale ∧ ¬ out.HidesBoundary := by
  rw [settled_iff]
  by_cases h : out.Ranged
  · exact iff_of_true (.ranged (written_ranged_iff.mpr h))
      ⟨fun hstale => hstale.1 h, fun hhides => hhides.1 h⟩
  have h' : ¬ out.written.Ranged := fun hranged => h (written_ranged_iff.mp hranged)
  by_cases hbody : out.message.body = []
  · obtain ⟨hcases, hstale⟩ := written_contentLength h hbody
    have hhides : ¬ out.HidesBoundary := fun hhides => hhides.2.1 hbody
    rw [truthful_empty_iff h' hbody, written_asksForLength_iff, ← hstale]
    rcases hcases with hcl | hcl <;> simp [hcl, hhides]
  · obtain ⟨hlength, hboundary⟩ := written_body h hbody
    have hstale : ¬ out.Stale := fun hstale => hbody hstale.2.1
    rw [truthful_body_iff h' hbody]
    refine ⟨fun ht => ⟨hstale, fun hhides => ?_⟩, fun hnot => ⟨hlength, fun hsome => ?_⟩⟩
    · obtain ⟨ct, hct, hword⟩ := ht.2 hhides.2.2.1
      obtain ⟨ct', hct', hiff, -⟩ := hboundary hhides.2.2.1
      have hfalse := hiff.mpr hhides
      rw [Option.some.inj (hct'.symm.trans hct), hword] at hfalse
      cases hfalse
    · obtain ⟨ct, hct, hiff, -⟩ := hboundary hsome
      exact ⟨ct, hct, by rw [← Bool.not_eq_false, hiff]; exact hnot.2⟩

/-- A stale length is gone after it has been written once. -/
theorem written_not_stale : ¬ out.written.Stale := by
  rintro ⟨hranged, hbody, hask, cl, hcl, hne⟩
  have h : ¬ out.Ranged := fun h => hranged (written_ranged_iff.mpr h)
  rcases (written_contentLength h hbody).1 with hzero | hnone
  · exact hne (Option.some.inj (hcl.symm.trans hzero))
  · rw [hnone] at hcl
    cases hcl

/-- A hidden boundary stays hidden. -/
theorem written_hidesBoundary_iff : out.written.HidesBoundary ↔ out.HidesBoundary := by
  constructor
  · rintro ⟨hranged, hbody, hsome, ct, hct, hword, -⟩
    have h : ¬ out.Ranged := fun h => hranged (written_ranged_iff.mpr h)
    obtain ⟨ct', hct', hiff, -⟩ := (written_body h hbody).2 hsome
    rw [Option.some.inj (hct'.symm.trans hct)] at hiff
    exact hiff.mp hword
  · intro hhides
    obtain ⟨ct, hct, hiff, hinfix⟩ := (written_body hhides.1 hhides.2.1).2 hhides.2.2.1
    exact ⟨fun h => hhides.1 (written_ranged_iff.mp h), hhides.2.1, hhides.2.2.1, ct, hct,
      hiff.mpr hhides, hinfix hhides⟩

theorem iterate_hidesBoundary_iff (n : ℕ) : (written^[n] out).HidesBoundary ↔
    out.HidesBoundary := by
  induction n with
  | zero => exact Iff.rfl
  | succ n ih => rw [Function.iterate_succ_apply', written_hidesBoundary_iff, ih]

/-- From the second time on, writing a message leaves its headers as they are if and only if its
type shows the boundary of the body; after the first time, if also no stale length was there. What
is left as it is tells what is in the body. -/
theorem written_settles (out : OutgoingMessage) :
    (out.Settled ↔ out.Truthful) ∧ (out.written.Settled ↔ ¬ out.Stale ∧ ¬ out.HidesBoundary) ∧
      ∀ n, (written^[n + 2] out).Settled ↔ ¬ out.HidesBoundary := by
  refine ⟨settled_iff, written_settled_iff, fun n => ?_⟩
  have hstale : ¬ (written^[n + 1] out).Stale := by
    rw [Function.iterate_succ_apply']
    exact written_not_stale
  rw [Function.iterate_succ_apply', written_settled_iff, iterate_hidesBoundary_iff]
  exact and_iff_right hstale

end OutgoingMessage

-- the word ends behind the equal sign
example : matchWord (ascii "multipart/mixed; boundary=b1") boundaryWord = false := by decide +kernel

end ExtHttp
