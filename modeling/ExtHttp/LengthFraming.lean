import ExtHttp.HeaderBlock
import ExtHttp.MessageHead

/-!
# Framing by Content-Length

The length that is taken from the Content-Length fields of a block, against what they say.
-/
namespace ExtHttp
open BufferLoop

variable {Url : Type} {E : Engine Url} {call : MessageCall}

/-- `v` is a decimal numeral for `n`, and `n` is a `zend_long`. -/
structure LengthNumeral (v : Bytes) (n : ℕ) : Prop where
  ne : v ≠ []
  digits : ∀ d ∈ v, isDigit d = true
  value : numeral 10 v = n
  fits : (n : ℤ) ≤ zendLongMax

/-- The turn goes on to a body of `n` bytes. -/
def EntersLength (t : MessageTurn Url) (n : ℕ) : Prop :=
  t.state.parser.bodyLength = n ∧
    (t.state.parser.state = .bodyLength ∨ t.state.parser.state = .bodyDone ∧ n = 0)

/-- The one value is a numeral for some `zend_long`, or converts to a negative number, which is no
length, or each of several values is a numeral for 1. An empty value is not stored, so that it does
not make several out of one. -/
def CleanLengths (E : Engine Url) (vs : List Bytes) : Prop :=
  match vs.filter (· ≠ []) with
  | [] => True
  | [v] => E.strToLong v < 0 ∨ vs = [v] ∧ ∃ n, LengthNumeral v n
  | _ => ∀ v ∈ vs, LengthNumeral v 1

theorem lengthState_enters (n : ℕ) :
    lengthState n = .bodyLength ∨ lengthState n = .bodyDone ∧ n = 0 := by
  unfold lengthState
  split_ifs with h
  · exact .inl rfl
  · exact .inr ⟨rfl, by omega⟩

theorem lengthNumeral_toLong {v : Bytes} {n : ℕ}
    (hlong : E.strToLong v = min (numeral 10 v : ℤ) zendLongMax) (h : LengthNumeral v n) :
    E.strToLong v = n := by
  rw [hlong, h.value, min_eq_left h.fits]

/-- Where no coding and no range decides, the parser goes by the number that the stored value is
converted to. -/
theorem entersLength_iff {c : MessageConfig Url} {m : Message Url} {parents : Chain Url}
    (hstate : c.parser.state = .headerDone) (hm : c.parser.message = m :: parents)
    (hcoding : m.hdrs.find (ascii "Transfer-Encoding") = none)
    (hrange : m.hdrs.find (ascii "Content-Range") = none) (hcall : call.Framed m)
    (b : Bytes) (n : ℕ) :
    EntersLength (messageTurn E call c b) n ↔
      ∃ h, m.hdrs.find (ascii "Content-Length") = some h ∧ headerToLong E h = n := by
  obtain ⟨hto, hlength, -⟩ := headerDone_state hstate hm b
  obtain ⟨hto', hlength'⟩ := Prod.ext_iff.mp (messageHeaderDone_framed hcall)
  dsimp only at hto' hlength'
  unfold EntersLength
  rw [hto, hlength, hto', hlength']
  unfold bodyFraming framing Message.contentRange
  rw [hcoding, hrange]
  cases m.hdrs.find (ascii "Content-Length") with
  | none => cases m.isRequest <;> simp
  | some h =>
    simp only [Option.map_none, Option.bind_none, Bool.false_eq_true, if_false, Option.some.injEq,
      exists_eq_left']
    by_cases hneg : 0 ≤ headerToLong E h
    · rw [if_pos hneg]
      dsimp only
      constructor
      · rintro ⟨rfl, -⟩
        exact (Int.toNat_of_nonneg hneg).symm
      · intro hn
        rw [hn, Int.toNat_natCast]
        exact ⟨rfl, lengthState_enters n⟩
    · rw [if_neg hneg]
      constructor
      · rintro ⟨-, hbody⟩
        split_ifs at hbody <;> simp at hbody
      · intro hn
        exact absurd (hn ▸ Int.natCast_nonneg n) hneg

theorem lengths_iff (hlong : ∀ ds, ds ≠ [] → (∀ d ∈ ds, isDigit d = true) →
      E.strToLong ds = min (numeral 10 ds : ℤ) zendLongMax) (vs : List Bytes) :
    (∀ h, mergedValue (vs.filter (· ≠ [])) = some h → ∀ n : ℕ, headerToLong E h = n →
      ∀ v ∈ vs, LengthNumeral v n) ↔ CleanLengths E vs := by
  unfold CleanLengths
  match hstored : vs.filter (· ≠ []) with
  | [] => simp [mergedValue]
  | [v] =>
    have hv : v ∈ vs := (List.mem_filter.mp (hstored ▸ List.mem_singleton_self v)).1
    simp only [mergedValue, Option.some.injEq, forall_eq', headerToLong]
    constructor
    · intro h
      by_cases hneg : E.strToLong v < 0
      · exact .inl hneg
      · obtain ⟨n, hn⟩ := Int.eq_ofNat_of_zero_le (not_lt.mp hneg)
        have hall := h n hn
        refine .inr ⟨?_, n, hall v hv⟩
        -- there is no empty value that the filter could have left out
        rw [← hstored, List.filter_eq_self.mpr fun w hw => by simpa using (hall w hw).ne]
    · rintro (hneg | ⟨rfl, k, hk⟩) n hn w hw
      · omega
      · obtain rfl : w = v := by simpa using hw
        have hlen := lengthNumeral_toLong (hlong w hk.ne hk.digits) hk
        obtain rfl : k = n := by omega
        exact hk
  | v :: w :: rest =>
    simp only [mergedValue, Option.some.injEq, forall_eq', headerToLong]
    rw [if_neg (by simp)]
    exact ⟨fun h => h 1 rfl, fun h n hn => by
      obtain rfl : 1 = n := by exact_mod_cast hn
      exact h⟩

/-- At the end of a block of fields without Transfer-Encoding and Content-Range the parser takes the
length that each Content-Length gives, if and only if, where it looks at them at all, there is one,
and that one is a numeral or negative, or all of them give 1. -/
theorem contentLength_honest_iff (hlong : ∀ ds, ds ≠ [] → (∀ d ∈ ds, isDigit d = true) →
      E.strToLong ds = min (numeral 10 ds : ℤ) zendLongMax)
    (fields : List (Bytes × Bytes))
    (hcoding : fieldValues fields (ascii "Transfer-Encoding") = [])
    (hrange : fieldValues fields (ascii "Content-Range") = [])
    (call : MessageCall) (c : MessageConfig Url) (m : Message Url) (parents : Chain Url)
    (hstate : c.parser.state = .headerDone) (hm : c.parser.message = m :: parents)
    (hblock : m.hdrs = headerBlock fields) (b : Bytes) :
    (∀ n, EntersLength (messageTurn E call c b) n →
      ∀ v ∈ fieldValues fields (ascii "Content-Length"), LengthNumeral v n) ↔
      (call.Framed m → CleanLengths E (fieldValues fields (ascii "Content-Length"))) := by
  have hnone : ∀ key, fieldValues fields key = [] → m.hdrs.find key = none := by
    intro key hkey
    rw [hblock, find_headerBlock, hkey]
    rfl
  by_cases hcall : call.Framed m
  · have henters := entersLength_iff (E := E) hstate hm (hnone _ hcoding) (hnone _ hrange) hcall b
    have hlengths := lengths_iff hlong (fieldValues fields (ascii "Content-Length"))
    rw [← find_headerBlock, ← hblock] at hlengths
    simp only [henters, hcall, true_imp_iff, ← hlengths]
    constructor
    · exact fun h v hfind n hn => h n ⟨v, hfind, hn⟩
    · rintro h n ⟨v, hfind, hn⟩
      exact h v hfind n hn
  · obtain ⟨hto, -, -⟩ := headerDone_state hstate hm b
    refine iff_of_true (fun n hn => ?_) fun h => absurd h hcall
    have hbody := hn.2
    rw [hto] at hbody
    have hunframed : (messageHeaderDone E call c.parser.pop m).2.2 = .done ∨
        (messageHeaderDone E call c.parser.pop m).2.2 = .bodyDumb :=
          messageHeaderDone_unframed hcall
    rcases hunframed with h | h <;> simp [h] at hbody

theorem plainEngine_toLong {ds : Bytes} (hne : ds ≠ []) (hd : ∀ d ∈ ds, isDigit d = true) :
    plainEngine.strToLong ds = min (numeral 10 ds : ℤ) zendLongMax := by
  have hread : strtoul 10 (ds ++ []) = _ := strtoul_decimal hne hd (by simp)
  rw [List.append_nil] at hread
  change min ((strtoul 10 ds).1 : ℤ) zendLongMax = _
  rw [hread, ulongMax, zendLongMax]
  push_cast
  omega

/-- A parser that has read a block of fields and no start line. -/
def behindFields (fields : List (Bytes × Bytes)) : MessageConfig Bytes :=
  ⟨⟨[.headerDone], 0, headerParserInit, none, none, [⟨none, headerBlock fields, []⟩]⟩, [], 0⟩

theorem contentLength_honest_example :
    (∀ n, EntersLength (messageTurn plainEngine plainCall
        (behindFields [(ascii "content-length", ascii " 5 ")]) []) n →
      ∀ v ∈ fieldValues [(ascii "content-length", ascii " 5 ")] (ascii "Content-Length"),
        LengthNumeral v n) ↔
      (plainCall.Framed (⟨none, headerBlock [(ascii "content-length", ascii " 5 ")], []⟩ :
        Message Bytes) → CleanLengths plainEngine
          (fieldValues [(ascii "content-length", ascii " 5 ")] (ascii "Content-Length"))) :=
  contentLength_honest_iff (fun _ => plainEngine_toLong) _ (by decide)
    (by decide) plainCall _ _ [] rfl
    rfl rfl []

/-- A trailing text, a repetition, and a number that is no `zend_long`. -/
theorem contentLength_not_honest :
    [[ascii "5abc"], [ascii "5", ascii "5"], [ascii "9223372036854775808"]].Forall fun vs =>
      ∃ n, EntersLength (messageTurn plainEngine plainCall
          (behindFields (vs.map fun v => (ascii "Content-Length", v))) []) n ∧
        ∃ v ∈ fieldValues (vs.map fun v => (ascii "Content-Length", v)) (ascii "Content-Length"),
          ¬ LengthNumeral v n := by
  refine ⟨⟨5, by unfold EntersLength; decide +kernel, ascii "5abc", by decide, fun h => ?_⟩,
    ⟨1, by unfold EntersLength; decide +kernel, ascii "5", by decide, fun h => ?_⟩,
    ⟨2 ^ 63 - 1, by unfold EntersLength; decide +kernel, ascii "9223372036854775808", by decide,
      fun h => ?_⟩⟩
  · exact absurd (h.digits 97 (by decide)) (by decide)
  · exact absurd h.value (by decide)
  · exact absurd h.value (by decide)

end ExtHttp
