import ExtHttp.Assoc
import ExtHttp.HeaderRoundtrip
import ExtHttp.HeaderUpdate

/-!
# The headers of a written message

The fields that the headers of a message are written as, whatever types their values have. Headers
that a parser would read back are still such headers when they have been updated.
-/
namespace ExtHttp

/-! ### Values as strings -/

/-- The value with a string for each of its elements. -/
def HeaderValue.stringed : HeaderValue → HeaderValue
  | .scalar v => .scalar (.str v.valueString)
  | .array vs => .array (vs.map fun v => .str v.valueString)

def Headers.stringed (hs : Headers) : Headers := hs.map fun h => (h.1, h.2.stringed)

theorem toArray_stringed (v : HeaderValue) :
    v.stringed.toArray = v.toArray.map fun x => .str x.valueString := by
  cases v <;> rfl

/-- Numbers and booleans are written as the strings they are turned into. -/
theorem headerToString_stringed (hs : Headers) : headerToString hs.stringed.table =
    headerToString hs.table := by
  have hvalue : ∀ key v, headerToCallbackEx true key v.stringed =
      headerToCallbackEx true key v := by
    intro key v
    rw [headerToCallbackEx, headerToCallbackEx, toArray_stringed, List.map_map]
    refine List.map_congr_left fun x _ => ?_
    cases x with
    | str v => rfl
    | long n => rfl
    | bool b => cases b <;> rfl
  have htable : hs.stringed.table = hs.table.map fun h => (h.1, h.2.stringed) := by
    simp [Headers.table, Headers.stringed]
  rw [headerToString, headerToString, headerToCallback, headerToCallback, htable, List.flatMap_map]
  simp only [hvalue]

theorem find_stringed (hs : Headers) (key : Bytes) :
    hs.stringed.find key = (hs.find key).map HeaderValue.stringed := by
  induction hs with
  | nil => rfl
  | cons h hs ih =>
    unfold Headers.find Headers.stringed at ih ⊢
    rw [List.map_cons, Assoc.find_cons, Assoc.find_cons, ih]
    split_ifs <;> rfl

/-! ### Plain headers -/

/-- A name that PHP takes for no integer. -/
structure KeyName (name : Bytes) : Prop extends PlainName name where
  noInteger : numericKey name = none

/-- Headers that are read as they are written. -/
structure Headers.Plain (hs : Headers) : Prop where
  distinct : Assoc.Distinct hs
  name : ∀ h ∈ hs, KeyName h.1
  value : ∀ h ∈ hs, PlainHeaderValue h.2.stringed

section
variable {hs : Headers}

theorem Headers.Plain.update (h : hs.Plain) {key : Bytes} (hkey : KeyName key) {v : HeaderValue}
    (hv : PlainHeaderValue v.stringed) : (hs.update key v).Plain := by
  refine ⟨?_, fun x hx => ?_, fun x hx => ?_⟩
  · exact h.distinct.set key v
  · rcases Headers.mem_update hx with hx | rfl
    · exact h.name x hx
    · exact hkey
  · rcases Headers.mem_update hx with hx | rfl
    · exact h.value x hx
    · exact hv

theorem Headers.Plain.delete (h : hs.Plain) (key : Bytes) : (hs.delete key).Plain := by
  have hsub : List.Sublist (hs.delete key) hs := List.filter_sublist
  exact ⟨h.distinct.erase key, fun x hx => h.name x (hsub.subset hx),
    fun x hx => h.value x (hsub.subset hx)⟩

theorem plain_keys_nodup {hs : Headers} (h : hs.Plain) :
    (hs.stringed.table.map Prod.fst).Nodup := by
  have hkeys : hs.stringed.table.map Prod.fst = (hs.map Prod.fst).map symKey := by
    simp [Headers.table, Headers.stringed, Function.comp_def]
  have hinj : Function.Injective symKey := fun a b hab => by
    rw [← stringify_symKey a, ← stringify_symKey b, hab]
  rw [hkeys]
  exact List.Nodup.map hinj h.distinct

theorem Headers.Plain.table (h : hs.Plain) : PlainHeaders hs.stringed.table := by
  refine ⟨plain_keys_nodup h, fun x hx => ?_, fun x hx => ?_⟩
  · obtain ⟨y, hy, rfl⟩ := List.mem_map.mp hx
    obtain ⟨z, hz, rfl⟩ := List.mem_map.mp hy
    rw [stringify_symKey]
    exact (h.name z hz).toPlainName
  · obtain ⟨y, hy, rfl⟩ := List.mem_map.mp hx
    obtain ⟨z, hz, rfl⟩ := List.mem_map.mp hy
    exact h.value z hz

theorem Headers.Plain.written (h : hs.Plain) : writtenHeaders hs.stringed.table = hs.stringed := by
  have hname := h.name
  clear h
  induction hs with
  | nil => rfl
  | cons x hs ih =>
    have hx : symKey x.1 = .str x.1 := symKey_eq_str.mpr (hname x (by simp)).noInteger
    have hrest := ih fun y hy => hname y (by simp [hy])
    change writtenHeaders ((symKey x.1, x.2.stringed) :: Headers.table (Headers.stringed hs)) = _
    rw [hx]
    exact congrArg ((x.1, x.2.stringed) :: ·) hrest

/-- The fields of plain headers. -/
theorem Headers.Plain.fields (h : hs.Plain) :
    headerToString hs.table = hs.stringed.fields.flatMap fieldLine ∧
      (∀ f ∈ hs.stringed.fields, PlainField f) ∧
      hs.stringed.fields.foldl (fun hs f => Headers.add hs f.1 f.2) [] = hs.stringed := by
  have htable := h.table
  have hnodup := htable.nodup_written
  have hfields := htable.fields
  rw [h.written] at hnodup hfields
  refine ⟨?_, hfields, ?_⟩
  · rw [← headerToString_stringed, headerToString_plain htable, h.written]
  · refine Headers.add_fields (fun x hx => ?_) [] (by simpa using hnodup)
    obtain ⟨y, hy, rfl⟩ := List.mem_map.mp hx
    exact h.value y hy

end

/-! ### Values that are put together -/

theorem plainValue_formatLong (n : ℕ) : PlainValue (formatLong n) := by
  have hplain : ∀ c : Byte, isDigit c = true → isSpace c = false := by decide +kernel
  obtain ⟨heol, hnul⟩ := formatLong_inLine n
  refine ⟨⟨⟨formatLong_ne_nil n, heol, ⟨fun c hc => ?_, fun c hc => ?_⟩⟩, hnul⟩, fun hin => ?_⟩
  · exact hplain c (formatLong_isDigit n c (List.mem_of_head? hc))
  · exact hplain c (formatLong_isDigit n c (List.mem_of_getLast? hc))
  · exact absurd (formatLong_isDigit n 72 (hin.subset (by decide))) (by decide)

/-- What stands behind a plain value after a byte that is not in `HTTP/`. -/
theorem PlainValue.append {a b : Bytes} {x : Byte} (ha : PlainValue a) (hx : x ∉ httpSlash)
    (hline : InLine (x :: b)) (hhttp : ¬ httpSlash <:+: b)
    (hlast : ∀ c ∈ (x :: b).getLast?, isSpace c = false) : PlainValue (a ++ x :: b) := by
  obtain ⟨heol, hnul⟩ := inLine_append.mpr ⟨⟨ha.noEol, ha.noNul⟩, hline⟩
  refine ⟨⟨⟨by simp, heol, ⟨fun c hc => ?_, fun c hc => ?_⟩⟩, hnul⟩, fun hin => ?_⟩
  · rw [List.head?_append_of_ne_nil _ ha.ne] at hc
    exact ha.trimmed.head c hc
  · rw [List.getLast?_append_of_ne_nil _ (by simp)] at hc
    exact hlast c hc
  · rcases infix_append_cons hin hx with hin | hin
    · exact ha.noHttp hin
    · exact hhttp hin

theorem stringed_array {vs : List HeaderScalar}
    (h : PlainHeaderValue (HeaderValue.array vs).stringed) :
    2 ≤ (vs.map HeaderScalar.valueString).length ∧ ∀ w ∈ vs.map HeaderScalar.valueString,
      PlainValue w := by
  generalize hv : (HeaderValue.array vs).stringed = v at h
  cases h with
  | single _ => cases hv
  | @list ws hlength hws =>
    have hmap : vs.map HeaderScalar.valueString = ws := by
      have hstrings := congrArg HeaderValue.strings hv
      rw [strings_list] at hstrings
      rw [← hstrings, ← strings_list (vs.map HeaderScalar.valueString), List.map_map]
      rfl
    rw [hmap]
    exact ⟨hlength, hws⟩

/-- How the elements of an array are put together. -/
def joinStep (str w : Bytes) : Bytes :=
  if str = [] then cString w else str ++ ascii ", " ++ cString w

theorem join_array (vs : List HeaderScalar) :
    (HeaderValue.array vs).join = (vs.map HeaderScalar.valueString).foldl joinStep [] := by
  rw [List.foldl_map]
  rfl

theorem joinStep_plain {str w : Bytes} (hstr : PlainValue str) (hw : PlainValue w) :
    joinStep str w = str ++ 44 :: (space :: w) ∧ PlainValue (joinStep str w) := by
  have hstep : joinStep str w = str ++ 44 :: (space :: w) := by
    rw [joinStep, if_neg hstr.ne, cString_of_noNul hw.noNul]
    simp [ascii, space]
  rw [hstep]
  refine ⟨rfl, hstr.append (by decide) ?_ (fun hin => ?_) fun c hc => ?_⟩
  · exact inLine_cons.mpr ⟨by decide, inLine_cons.mpr ⟨by decide, hw.noEol, hw.noNul⟩⟩
  · rcases infix_append_cons (a := []) hin (by decide) with hin | hin
    · cases List.infix_nil.mp hin
    · exact hw.noHttp hin
  · have hlast : (44 :: space :: w).getLast? = w.getLast? :=
      List.getLast?_append_of_ne_nil [44, space] hw.ne
    rw [hlast] at hc
    exact hw.trimmed.last c hc

theorem foldl_joinStep {ws : List Bytes} (hws : ∀ w ∈ ws, PlainValue w) {str : Bytes}
    (hstr : PlainValue str) :
    str <+: ws.foldl joinStep str ∧ PlainValue (ws.foldl joinStep str) := by
  induction ws generalizing str with
  | nil => exact ⟨List.prefix_rfl, hstr⟩
  | cons w ws ih =>
    obtain ⟨hstep, hplain⟩ := joinStep_plain hstr (hws w (by simp))
    obtain ⟨hpre, hrest⟩ := ih (fun v hv => hws v (by simp [hv])) hplain
    refine ⟨List.IsPrefix.trans ?_ hpre, hrest⟩
    rw [hstep]
    exact List.prefix_append _ _

/-- Of several elements there is a comma in what they are put together to. -/
theorem plain_join_array {vs : List HeaderScalar}
    (h : PlainHeaderValue (HeaderValue.array vs).stringed) :
    PlainValue (HeaderValue.array vs).join ∧ 44 ∈ (HeaderValue.array vs).join := by
  obtain ⟨hlength, hws⟩ := stringed_array h
  rw [join_array]
  generalize vs.map HeaderScalar.valueString = ws at hlength hws ⊢
  cases ws with
  | nil => simp at hlength
  | cons w ws =>
    cases ws with
    | nil => simp at hlength
    | cons w' ws =>
      have hw := hws w (by simp)
      have hfirst : joinStep [] w = w := by rw [joinStep, if_pos rfl, cString_of_noNul hw.noNul]
      obtain ⟨hstep, hplain⟩ := joinStep_plain hw (hws w' (by simp))
      have hrest : ∀ v ∈ ws, PlainValue v := fun v hv => hws v (by simp [hv])
      obtain ⟨hpre, hall⟩ := foldl_joinStep hrest hplain
      rw [List.foldl_cons, List.foldl_cons, hfirst]
      refine ⟨hall, hpre.subset ?_⟩
      rw [hstep]
      simp

theorem plainValue_join {v : HeaderValue} (h : PlainHeaderValue v.stringed) :
    PlainValue v.join := by
  cases v with
  | scalar v =>
    change PlainHeaderValue (.scalar (.str v.valueString)) at h
    cases h with
    | single h => exact h
  | array vs => exact (plain_join_array h).1

instance (s : Bytes) : Decidable (InLine s) := inferInstanceAs (Decidable (NoEol s ∧ nul ∉ s))

/-- A boundary that can stand in a type. -/
structure PlainBoundary (b : CString) : Prop where
  noEol : NoEol b.bytes
  noHttp : ¬ httpSlash <:+: b.bytes

theorem plainValue_withBoundary {b : CString} (hb : PlainBoundary b) {ct : Bytes}
    (hct : PlainValue ct) :
    PlainValue (withBoundary b ct) := by
  have hname : InLine (ascii "; boundary=") ∧ ¬ httpSlash <:+: ascii " boundary=" := by
    decide +kernel
  have hquote : InLine (ascii "\"") := by decide +kernel
  have htext : withBoundary b ct = ct ++ 59 :: (ascii " boundary=" ++
      34 :: (b.bytes ++ 34 :: [])) := by
    rw [withBoundary, cString_of_noNul hct.noNul]
    simp [ascii]
  rw [htext]
  refine hct.append (by decide) ?_ (fun hin => ?_) ?_
  · have hline : InLine (ascii "; boundary=" ++ (ascii "\"" ++ (b.bytes ++ ascii "\""))) :=
      inLine_append.mpr ⟨hname.1, inLine_append.mpr
        ⟨hquote, inLine_append.mpr ⟨⟨hb.noEol, b.noNul⟩, hquote⟩⟩⟩
    exact hline
  · rcases infix_append_cons hin (by decide) with hin | hin
    · exact hname.2 hin
    · rcases infix_append_cons hin (by decide) with hin | hin
      · exact hb.noHttp hin
      · cases List.infix_nil.mp hin
  · intro c hc
    rw [← List.cons_append, ← List.cons_append, ← List.append_assoc, List.getLast?_concat] at hc
    obtain rfl : (34 : Byte) = c := Option.some.inj hc
    rfl

/-! ### Updated headers -/

namespace OutgoingMessage

/-- A message whose headers are read as they are written, and that says nothing about how its body
is sent. -/
structure PlainHeaders (out : OutgoingMessage) : Prop where
  plain : out.message.hdrs.Plain
  boundary : ∀ b ∈ out.boundary, PlainBoundary b
  coding : out.message.hdrs.find (ascii "Transfer-Encoding") = none
  encoding : out.message.hdrs.find (ascii "Content-Encoding") = none
  range : out.message.hdrs.find (ascii "Content-Range") = none

variable {out : OutgoingMessage}

theorem keyName_update : KeyName (ascii "Content-Length") ∧ KeyName (ascii "Content-Type") :=
  ⟨⟨by decide +kernel, by decide +kernel⟩, by decide +kernel, by decide +kernel⟩

theorem PlainHeaders.contentType (h : out.PlainHeaders) :
    PlainValue ((out.message.headerString (ascii "Content-Type")).getD
      (ascii "multipart/form-data")) := by
  unfold Message.headerString
  cases htype : out.message.hdrs.find (ascii "Content-Type") with
  | none =>
    change PlainValue (ascii "multipart/form-data")
    decide +kernel
  | some v => exact plainValue_join (h.plain.value _ (Headers.find_mem htype))

theorem PlainHeaders.updated (h : out.PlainHeaders) : (updateHeaders out).Plain := by
  obtain ⟨hlength, htype⟩ := keyName_update
  have hplain := h.plain
  have hnumber : ∀ n : ℕ, PlainHeaderValue (HeaderValue.scalar (.long n)).stringed := fun n =>
    .single (plainValue_formatLong n)
  have hspec := updateHeaders_spec out
  generalize updateHeaders out = hdrs at hspec ⊢
  cases hspec with
  | ranged _ => exact hplain
  | length _ _ _ => exact hplain.update hlength (hnumber _)
  | @boundary _ _ b hb ct hct _ =>
    have hvalue := plainValue_withBoundary (h.boundary b (by rw [hb]; rfl)) (hct ▸ h.contentType)
    exact (hplain.update hlength (hnumber _)).update htype (.single hvalue)
  | removed _ _ _ _ => exact hplain.delete _
  | zero _ _ _ _ => exact hplain.update hlength (hnumber 0)
  | kept _ _ _ => exact hplain

end OutgoingMessage

end ExtHttp
