import ExtHttp.TransferFraming

/-!
# Framing by Content-Range

The three numbers of a Content-Range are read by `strtoul` one behind the other, and the byte behind
each is skipped, whatever it is.
-/
namespace ExtHttp
open BufferLoop

variable {Url : Type} {E : Engine Url} {call : MessageCall}

/-- `v` is a range of `n` bytes: the unit, a separator, and then `first-last/total`. -/
def RangeText (v : Bytes) (n : ℕ) : Prop :=
  ∃ unit sep first last total, v = unit ++ sep :: (first ++ hyphen :: (last ++ slash :: total)) ∧
    unit.map toLower = ascii "bytes" ∧ sep ∈ ascii ": =" ∧
    first ≠ [] ∧ (∀ c ∈ first, isDigit c = true) ∧ last ≠ [] ∧ (∀ c ∈ last, isDigit c = true) ∧
    (total = [asterisk] ∨ total ≠ [] ∧ (∀ c ∈ total, isDigit c = true) ∧
      numeral 10 last < numeral 10 total) ∧
    numeral 10 first ≤ numeral 10 last ∧ n + numeral 10 first = numeral 10 last + 1

/-- The bytes of the range are numbered by `unsigned long`, and so is their number. -/
def RangeFits (first last : ℕ) : Prop :=
  first = last ∨ first ≤ ulongMax ∧ last ≤ ulongMax ∧ (first ≠ 0 ∨ last ≠ ulongMax)

/-- Behind the separator there are digits wherever a number is read, and the right bytes behind
them; the numbers fit, and the last is less than a total. -/
def StrictRange (w : Bytes) : Prop :=
  let first := w.takeWhile isDigit
  let rest := w.dropWhile isDigit
  let last := rest.tail.takeWhile isDigit
  let end_ := rest.tail.dropWhile isDigit
  first ≠ [] ∧ rest.head? = some hyphen ∧ last ≠ [] ∧ end_.head? = some slash ∧
    (end_.tail = [asterisk] ∨ end_.tail ≠ [] ∧ (∀ c ∈ end_.tail, isDigit c = true) ∧
      numeral 10 last < numeral 10 end_.tail) ∧
    RangeFits (numeral 10 first) (numeral 10 last)

instance (first last : ℕ) : Decidable (RangeFits first last) := inferInstanceAs (Decidable (_ ∨ _))

instance (w : Bytes) : Decidable (StrictRange w) := inferInstanceAs (Decidable (_ ∧ _))

/-- Where Content-Length and the type of the message decide. -/
def lengthFraming (E : Engine Url) (mp : MessageParser Url) (m : Message Url) : MessageState × ℕ :=
  let contentLength := (framing E m.hdrs).2.2
  if 0 ≤ contentLength then (lengthState contentLength.toNat, contentLength.toNat)
  else (if m.isRequest then .done else .bodyDumb, mp.bodyLength)

/-- What is read behind the separator: `start`, `end` and `total`. -/
def rangeScan (w : Bytes) : ℕ × ℕ × ℕ :=
  let first := strtoul 10 w
  let last := strtoul 10 (w.drop (first.2 + 1))
  let total := w.drop (first.2 + 1 + last.2 + 1)
  (first.1, last.1, if total.headD nul = asterisk then 0 else (strtoul 10 total).1)

theorem contentRangeLength_eq_some {v : Bytes} {n : ℕ} :
    contentRangeLength call v = some n ↔
      ((v.take 5).map toLower = ascii "bytes" ∧ byteAt (v ++ nul :: call.beyond v) 5 ∈
        ascii ": =") ∧
        let (first, last, total) := rangeScan ((v ++ nul :: call.beyond v).drop 6)
        first ≤ last ∧ (total = 0 ∨ last ≤ total) ∧ (last + 1 - first) % 2 ^ 64 = n := by
  unfold contentRangeLength rangeScan
  simp only [List.drop_drop, byteAt_eq_headD, asterisk, ← Nat.add_assoc,
    Option.ite_none_right_eq_some, Option.some.injEq, and_assoc]

theorem separator_in {v beyond : Bytes} (hunit : (v.take 5).map toLower = ascii "bytes")
    (hsep : byteAt (v ++ nul :: beyond) 5 ∈ ascii ": =") :
    ∃ sep ∈ ascii ": =", v = v.take 5 ++ sep :: v.drop 6 := by
  have hlen : 5 < v.length := by
    by_contra hle
    have htake := congrArg List.length hunit
    rw [List.length_map, List.length_take] at htake
    have hfive : v.length = 5 := by
      have : (ascii "bytes").length = 5 := rfl
      omega
    have hnul : byteAt (v ++ nul :: beyond) 5 = nul := by
      rw [byteAt_eq_headD, ← hfive, List.drop_left]
      rfl
    rw [hnul] at hsep
    exact absurd hsep (by decide)
  rw [byteAt_append hlen] at hsep
  refine ⟨_, hsep, ?_⟩
  conv_lhs => rw [← List.take_append_drop 5 v, List.drop_eq_getElem_cons hlen]
  rw [byteAt, List.getD_eq_getElem _ _ hlen]

/-- A number read by `strtoul`. -/
def saturated (n : ℕ) : ℕ := min n ulongMax

theorem digits_stop {c : Byte} (rest : Bytes) (hc : isDigit c = false) :
    ∀ d, (c :: rest).head? = some d → isDigit d = false := by
  rintro d ⟨⟩
  exact hc

/-- Where the bytes are the right ones, the numbers are read as they stand. -/
theorem rangeScan_strict {first last total : Bytes} (rest : Bytes) (hfirst : first ≠ [])
    (hfirst' : ∀ c ∈ first, isDigit c = true) (hlast : last ≠ [])
    (hlast' : ∀ c ∈ last, isDigit c = true)
    (htotal : total = [asterisk] ∨ total ≠ [] ∧ ∀ c ∈ total, isDigit c = true) :
    rangeScan (first ++ hyphen :: (last ++ slash :: (total ++ nul :: rest))) =
      (saturated (numeral 10 first), saturated (numeral 10 last),
        if total = [asterisk] then 0 else saturated (numeral 10 total)) := by
  have hone := strtoul_decimal hfirst hfirst'
    (digits_stop (last ++ slash :: (total ++ nul :: rest)) (c := hyphen) (by decide))
  have htwo := strtoul_decimal hlast hlast'
    (digits_stop (total ++ nul :: rest) (c := slash) (by decide))
  have hdrop : (first ++ hyphen :: (last ++ slash :: (total ++ nul :: rest))).drop
      (first.length + 1) = last ++ slash :: (total ++ nul :: rest) := by
    rw [List.drop_length_add_append]
    rfl
  have hdrop' : (first ++ hyphen :: (last ++ slash :: (total ++ nul :: rest))).drop
      (first.length + 1 + last.length + 1) = total ++ nul :: rest := by
    rw [Nat.add_assoc (first.length + 1), ← List.drop_drop, hdrop, List.drop_length_add_append]
    rfl
  unfold rangeScan
  rw [hone]
  dsimp only
  rw [hdrop, htwo]
  dsimp only
  rw [hdrop']
  rcases htotal with rfl | ⟨htotal, htotal'⟩
  · rfl
  · obtain ⟨d, total, rfl⟩ := List.exists_cons_of_ne_nil htotal
    have hd : d ≠ asterisk := by
      rintro rfl
      exact absurd (htotal' asterisk (by simp)) (by decide)
    have hthree := strtoul_decimal htotal htotal' (digits_stop rest (c := nul) (by decide))
    rw [hthree, List.cons_append, List.headD_cons, if_neg hd, if_neg (by simp [hd])]
    rfl

/-- The bytes of a range: `first-last/total`. -/
structure RangeBytes (w first last total : Bytes) : Prop where
  text : w = first ++ hyphen :: (last ++ slash :: total)
  first_ne : first ≠ []
  first_digits : ∀ c ∈ first, isDigit c = true
  last_ne : last ≠ []
  last_digits : ∀ c ∈ last, isDigit c = true
  total : total = [asterisk] ∨ total ≠ [] ∧ (∀ c ∈ total, isDigit c = true) ∧
    numeral 10 last < numeral 10 total

theorem digits_split {ds : Bytes} (rest : Bytes) {c : Byte} (hds : ∀ d ∈ ds, isDigit d = true)
    (hc : isDigit c = false) :
    (ds ++ c :: rest).takeWhile isDigit = ds ∧ (ds ++ c :: rest).dropWhile isDigit = c :: rest := by
  have htake := takeWhile_append_of_stop (p := isDigit) hds (digits_stop rest hc)
  have hsplit := List.takeWhile_append_dropWhile (p := isDigit) (l := ds ++ c :: rest)
  rw [htake] at hsplit
  exact ⟨htake, List.append_cancel_left hsplit⟩

theorem digits_behind {w : Bytes} {c : Byte} (h : (w.dropWhile isDigit).head? = some c) :
    w = w.takeWhile isDigit ++ c :: (w.dropWhile isDigit).tail := by
  obtain ⟨rest, hrest⟩ := List.head?_eq_some_iff.mp h
  conv_lhs => rw [← List.takeWhile_append_dropWhile (p := isDigit) (l := w)]
  rw [hrest, List.tail_cons]

theorem strictRange_iff {w : Bytes} : StrictRange w ↔
    ∃ first last total, RangeBytes w first last total ∧
      RangeFits (numeral 10 first) (numeral 10 last) := by
  constructor
  · rintro ⟨hfirst, hhyphen, hlast, hslash, htotal, hfits⟩
    refine ⟨_, _, _, ⟨?_, hfirst, fun c hc => List.mem_takeWhile_imp hc, hlast,
      fun c hc => List.mem_takeWhile_imp hc, htotal⟩, hfits⟩
    rw [← digits_behind hslash, ← digits_behind hhyphen]
  · rintro ⟨first, last, total, ⟨rfl, hfirst, hfirst', hlast, hlast', htotal⟩, hfits⟩
    obtain ⟨hone, hone'⟩ := digits_split (last ++ slash :: total) hfirst'
      (show isDigit hyphen = false by decide)
    obtain ⟨htwo, htwo'⟩ := digits_split total hlast' (show isDigit slash = false by decide)
    unfold StrictRange
    simp only [hone, hone', htwo, htwo', List.tail_cons, List.head?_cons]
    exact ⟨hfirst, trivial, hlast, trivial, htotal, hfits⟩

/-- What comes of the saturated numbers. -/
theorem saturated_length {first last n : ℕ} (hle : saturated first ≤ saturated last)
    (hn : (saturated last + 1 - saturated first) % 2 ^ 64 = n) :
    first ≤ last ∧ n + first = last + 1 ↔ RangeFits first last := by
  unfold saturated at hle hn
  unfold RangeFits
  have hmax : ulongMax = 2 ^ 64 - 1 := rfl
  rcases Nat.le_total first ulongMax with hfirst | hfirst <;>
    rcases Nat.le_total last ulongMax with hlast | hlast <;>
      simp only [min_eq_left, min_eq_right, hfirst, hlast] at hle hn <;> omega

/-- A length that is taken is right if and only if the bytes are and the numbers fit. -/
theorem rangeText_iff {v : Bytes} {n : ℕ} (h : contentRangeLength call v = some n) :
    RangeText v n ↔ StrictRange (v.drop 6) := by
  obtain ⟨⟨hunit, hsep⟩, hscan⟩ := contentRangeLength_eq_some.mp h
  obtain ⟨sep, hsep, hv⟩ := separator_in hunit hsep
  have hfive : (v.take 5).length = 5 := by
    have := congrArg List.length hunit
    rwa [List.length_map] at this
  have hdrop : (v ++ nul :: call.beyond v).drop 6 = v.drop 6 ++ nul :: call.beyond v := by
    refine List.drop_append_of_le_length ?_
    have hlen := congrArg List.length hv
    rw [List.length_append, hfive, List.length_cons, List.length_drop] at hlen
    omega
  rw [hdrop] at hscan
  -- the numbers of a text with the right bytes
  have hlength : ∀ first last total, RangeBytes (v.drop 6) first last total →
      (numeral 10 first ≤ numeral 10 last ∧ n + numeral 10 first = numeral 10 last + 1 ↔
        RangeFits (numeral 10 first) (numeral 10 last)) := by
    rintro first last total ⟨htext, hfirst, hfirst', hlast, hlast', htotal⟩
    have hread := rangeScan_strict (call.beyond v) hfirst hfirst' hlast hlast'
      (htotal.imp id fun ht => ⟨ht.1, ht.2.1⟩)
    rw [htext, List.append_assoc, List.cons_append, List.append_assoc, List.cons_append,
      hread] at hscan
    exact saturated_length hscan.1 hscan.2.2
  rw [strictRange_iff]
  constructor
  · rintro ⟨unit, sep', first, last, total, htext, hunit', hsep', hfirst, hfirst', hlast,
      hlast', htotal, hnumbers⟩
    have hlen : unit.length = 5 := by
      have := congrArg List.length hunit'
      rwa [List.length_map] at this
    have hw : v.drop 6 = first ++ hyphen :: (last ++ slash :: total) := by
      have hsix : 6 = unit.length + 1 := by omega
      rw [htext, hsix, List.drop_length_add_append]
      rfl
    have hbytes : RangeBytes (v.drop 6) first last total :=
      ⟨hw, hfirst, hfirst', hlast, hlast', htotal⟩
    exact ⟨first, last, total, hbytes, (hlength _ _ _ hbytes).mp hnumbers⟩
  · rintro ⟨first, last, total, hbytes, hfits⟩
    obtain ⟨hle, hn⟩ := (hlength _ _ _ hbytes).mpr hfits
    refine ⟨v.take 5, sep, first, last, total, ?_, hunit, hsep, hbytes.first_ne,
      hbytes.first_digits, hbytes.last_ne, hbytes.last_digits, hbytes.total, hle, hn⟩
    rw [← hbytes.text]
    exact hv

/-- The length that is taken from the range `v`; the flags may leave none of the headers to
decide. -/
def rangeTaken (call : MessageCall) (m : Message Url) (v : Bytes) : Option ℕ :=
  if call.Framed m then contentRangeLength call v else none

/-- What the turn behind the headers of `m` comes to: the flags come first, then `v`. -/
def rangeFraming (E : Engine Url) (call : MessageCall) (mp : MessageParser Url) (m : Message Url)
    (v : Bytes) : MessageState × ℕ :=
  if call.Framed m then
    (contentRangeLength call v).elim (lengthFraming E mp m) fun n => (lengthState n, n)
  else (flagState call m, mp.bodyLength)

/-- A length is taken only as `v` says, and where none is taken, Content-Length decides. -/
structure HonestRange (E : Engine Url) (call : MessageCall) (mp : MessageParser Url)
    (m : Message Url)
    (v : Bytes) (t : MessageTurn Url) : Prop where
  taken : ∀ n ∈ rangeTaken call m v, RangeText v n
  otherwise : rangeTaken call m v = none →
    (t.state.parser.state, t.state.parser.bodyLength) = lengthFraming E mp m

/-- What the code takes for a range is strict. Where a flag decides, the message is a response
without a length, whose body is all that follows. -/
def RangeFollowed (E : Engine Url) (call : MessageCall) (m : Message Url) (v : Bytes) : Prop :=
  if call.Framed m then contentRangeLength call v ≠ none → StrictRange (v.drop 6)
  else flagState call m = .bodyDumb ∧ m.isRequest = false ∧ (framing E m.hdrs).2.2 < 0

theorem closedRedirect_response {m : Message Url} {hdrs : Headers}
    (h : closedRedirect m hdrs = true) : m.isRequest = false := by
  have hredirect : m.isRedirect = true := by
    unfold closedRedirect at h
    simp only [Bool.and_eq_true] at h
    exact h.1.1
  unfold Message.isRedirect at hredirect
  unfold Message.isRequest
  grind

/-- What a flag decides is what Content-Length would. -/
theorem flagState_eq_iff {mp : MessageParser Url} {m : Message Url} :
    (flagState call m, mp.bodyLength) = lengthFraming E mp m ↔
      flagState call m = .bodyDumb ∧ m.isRequest = false ∧ (framing E m.hdrs).2.2 < 0 := by
  have hflag : flagState call m = .done ∧ m.isRequest = false ∨ flagState call m = .bodyDumb := by
    unfold flagState
    split_ifs with hclosed
    · exact .inl ⟨rfl, closedRedirect_response (Bool.and_eq_true _ _ ▸ hclosed).2⟩
    · exact .inr rfl
  unfold lengthFraming
  by_cases hlength : 0 ≤ (framing E m.hdrs).2.2
  · have hstate : flagState call m ≠ lengthState (framing E m.hdrs).2.2.toNat := by
      unfold lengthState
      rcases hflag with ⟨h, -⟩ | h <;> rw [h] <;> split_ifs <;> simp
    dsimp only
    rw [if_pos hlength]
    exact iff_of_false (fun h => hstate (congrArg Prod.fst h)) fun h => by omega
  · dsimp only
    rw [if_neg hlength]
    rcases hflag with ⟨h, hresponse⟩ | h
    · simp [h, hresponse]
    · cases hrequest : m.isRequest
      · simp only [h, if_false, Bool.false_eq_true, true_and]
        exact iff_of_true trivial (not_le.mp hlength)
      · simp [h]

/-- A length is taken from a Content-Range as it says, and where none is taken, Content-Length
decides, if and only if the range that is taken is strict, and no flag decides otherwise. -/
theorem contentRange_honest_iff (call : MessageCall) (c : MessageConfig Url) (m : Message Url)
    (parents : Chain Url) (hstate : c.parser.state = .headerDone)
    (hm : c.parser.message = m :: parents)
    (hcoding : ∀ h, m.hdrs.find (ascii "Transfer-Encoding") = some h →
      h ≠ .scalar (.str (ascii "chunked")))
    (v : Bytes) (hrange : m.contentRange = some v) (b : Bytes) :
    ((messageTurn E call c b).state.parser.state,
      (messageTurn E call c b).state.parser.bodyLength) = rangeFraming E call c.parser.pop m v ∧
      (HonestRange E call c.parser.pop m v (messageTurn E call c b) ↔
        RangeFollowed E call m v) := by
  obtain ⟨hto, hlength, -⟩ := headerDone_state hstate hm b
  have hchunked : (framing E m.hdrs).2.1 = false := by
    unfold framing
    split
    · next h hfind => exact decide_eq_false fun hstr => hcoding h hfind (toStr_eq_chunked.mp hstr)
    · split <;> rfl
  have hturn : ((messageTurn E call c b).state.parser.state,
      (messageTurn E call c b).state.parser.bodyLength) = rangeFraming E call c.parser.pop m v := by
    rw [hto, hlength, rangeFraming]
    by_cases hcall : call.Framed m
    · rw [if_pos hcall, messageHeaderDone_framed hcall, bodyFraming]
      dsimp only
      rw [hchunked, if_neg Bool.false_ne_true, hrange, Option.bind_some]
      cases contentRangeLength call v with
      | some n => rfl
      | none => rfl
    · rw [if_neg hcall, messageHeaderDone_flags hcall]
  refine ⟨hturn, ?_⟩
  by_cases hcall : call.Framed m
  · have htaken : rangeTaken call m v = contentRangeLength call v := if_pos hcall
    rw [RangeFollowed, if_pos hcall]
    constructor
    · rintro ⟨htext, -⟩ hsome
      obtain ⟨n, hn⟩ := Option.ne_none_iff_exists'.mp hsome
      exact (rangeText_iff hn).mp (htext n (htaken.trans hn))
    · intro hstrict
      refine ⟨fun n hn => ?_, fun hnone => ?_⟩
      · rw [htaken] at hn
        exact (rangeText_iff hn).mpr (hstrict (Option.ne_none_iff_exists'.mpr ⟨n, hn⟩))
      · rw [hturn, rangeFraming, if_pos hcall, ← htaken, hnone, Option.elim_none]
  · have htaken : rangeTaken call m v = none := if_neg hcall
    rw [RangeFollowed, if_neg hcall, ← @flagState_eq_iff _ E call c.parser.pop]
    rw [rangeFraming, if_neg hcall] at hturn
    constructor
    · rintro ⟨-, hotherwise⟩
      exact hturn.symm.trans (hotherwise htaken)
    · intro hflag
      exact ⟨by simp [htaken], fun _ => hturn.trans hflag⟩

/-- A range that is strict but for the case of its unit, and a range where the flags decide. -/
theorem contentRange_honest_example :
    (HonestRange plainEngine plainCall
        (behindFields [(ascii "Content-Range", ascii "Bytes=0-4/10")]).parser.pop
        ⟨none, headerBlock [(ascii "Content-Range", ascii "Bytes=0-4/10")],
          []⟩ (ascii "Bytes=0-4/10")
        (messageTurn plainEngine plainCall
          (behindFields [(ascii "Content-Range", ascii "Bytes=0-4/10")]) []) ↔
      RangeFollowed plainEngine plainCall
        ⟨none, headerBlock [(ascii "Content-Range", ascii "Bytes=0-4/10")], []⟩
        (ascii "Bytes=0-4/10")) ∧
      ((messageTurn plainEngine { plainCall with dumbBodies := true }
          (behindFields [(ascii "Content-Range", ascii "bytes=")]) []).state.parser.state,
        (messageTurn plainEngine { plainCall with dumbBodies := true }
          (behindFields [(ascii "Content-Range", ascii "bytes=")]) []).state.parser.bodyLength) =
        rangeFraming plainEngine { plainCall with dumbBodies := true }
          (behindFields [(ascii "Content-Range", ascii "bytes=")]).parser.pop
          ⟨none, headerBlock [(ascii "Content-Range", ascii "bytes=")], []⟩ (ascii "bytes=") :=
  ⟨(contentRange_honest_iff plainCall (behindFields [(ascii "Content-Range", ascii "Bytes=0-4/10")])
      _ [] rfl rfl (by decide) _ (by decide) []).2,
    (contentRange_honest_iff { plainCall with dumbBodies := true }
      (behindFields [(ascii "Content-Range", ascii "bytes=")]) _ [] rfl rfl (by decide) _
      (by decide) []).1⟩

/-- No numbers, a blank in front of one, other bytes between them, a total that is not above the
last, and a number of bytes that wraps to 0. -/
theorem contentRange_not_honest :
    [ascii "bytes=", ascii "bytes  1-2/*", ascii "bytes=1,2;9 bytes", ascii "bytes 0-10/10",
        ascii "bytes 0-18446744073709551615/*"].Forall fun v =>
      let t := messageTurn plainEngine plainCall (behindFields [(ascii "Content-Range", v)]) []
      ∃ n, contentRangeLength plainCall v = some n ∧ ¬ RangeText v n ∧
        t.state.parser.state = lengthState n ∧ t.state.parser.bodyLength = n := by
  have hall : ∀ v ∈ [ascii "bytes=", ascii "bytes  1-2/*", ascii "bytes=1,2;9 bytes",
      ascii "bytes 0-10/10", ascii "bytes 0-18446744073709551615/*"],
      let t := messageTurn plainEngine plainCall (behindFields [(ascii "Content-Range", v)]) []
      ¬ StrictRange (v.drop 6) ∧
        ∃ n ∈ contentRangeLength plainCall v,
          t.state.parser.state = lengthState n ∧ t.state.parser.bodyLength = n := by decide +kernel
  refine List.forall_iff_forall_mem.mpr fun v hv => ?_
  obtain ⟨hstrict, n, hn, hturn⟩ := hall v hv
  exact ⟨n, hn, fun h => hstrict ((rangeText_iff hn).mp h), hturn⟩

end ExtHttp
