import ExtHttp.HeaderBlock
import ExtHttp.Negotiate

/-!
# Header names

Every name has one spelling: what the header parser stores under a name, `php_http_message_header`
finds under the same name in any case.
-/
namespace ExtHttp
open BufferLoop

variable {Url : Type}

/-- `php_http_message_header` -/
def Message.header (m : Message Url) (key : Bytes) : Option HeaderValue :=
  m.hdrs.find (prettyKey true true key)

theorem EqNoCase.prettyKey_eq {key key' : Bytes} (h : EqNoCase key key') (uctitle xhyphen : Bool) :
    prettyKey uctitle xhyphen key = prettyKey uctitle xhyphen key' := by
  rw [← prettyKey_lower uctitle xhyphen key, h, prettyKey_lower]

/-- A value that is stored comes behind the ones that are there. -/
theorem Headers.toArray_add (hs : Headers) (key val : Bytes) :
    ((hs.add key val).find key).map HeaderValue.toArray =
      some ((hs.find key).elim [] HeaderValue.toArray ++ [.str val]) := by
  rw [Headers.add, Headers.find_update, if_pos rfl]
  cases hs.find key <;> rfl

/-- The field that the parser is done with goes to the current message. -/
theorem headerDoneTurn_stores (m : Message Url) (parents : Chain Url) {key val : Bytes}
    (hval : nul ∉ val) (b : Bytes) :
    headerDoneTurn messageSink ⟨.headerDone, some key, some val⟩ (m :: parents) b =
      .next (⟨.key, none, none⟩, { m with hdrs := m.hdrs.add (prettyKey true true key) val } ::
        parents) b := by
  have hchain : ¬ (m :: parents : Chain Url) = [] := List.cons_ne_nil m parents
  simp only [headerDoneTurn, if_neg hval, messageSink, if_neg hchain]

/-- Names that are the same but for the case of their letters have one spelling, under which the
values of the fields meet. -/
theorem headerNames_canonical (uctitle xhyphen : Bool) (key : Bytes) :
    prettyKey uctitle xhyphen (prettyKey uctitle xhyphen key) = prettyKey uctitle xhyphen key ∧
    (prettyKey uctitle xhyphen key).length = key.length ∧
    ∀ key', EqNoCase key key' →
      prettyKey uctitle xhyphen key = prettyKey uctitle xhyphen key' ∧
      symKey (prettyKey true true key) = symKey (prettyKey true true key') ∧
      ∀ (m : Message Url) (parents : Chain Url) (val b : Bytes), nul ∉ val → ∃ m' : Message Url,
        headerDoneTurn messageSink ⟨.headerDone, some key, some val⟩ (m :: parents) b =
          .next (⟨.key, none, none⟩, m' :: parents) b ∧
        (m'.header key').map HeaderValue.toArray =
          some ((m.header key').elim [] HeaderValue.toArray ++ [.str val]) := by
  refine ⟨prettyKey_idempotent uctitle xhyphen key, prettyKey_length uctitle xhyphen key, ?_⟩
  intro key' heq
  refine ⟨heq.prettyKey_eq uctitle xhyphen, by rw [heq.prettyKey_eq], ?_⟩
  intro m parents val b hval
  refine ⟨_, headerDoneTurn_stores m parents hval b, ?_⟩
  rw [Message.header, Message.header, heq.prettyKey_eq]
  exact m.hdrs.toArray_add _ val

/-- A field is stored under another spelling of a name that is there. -/
theorem headerNames_canonical_etag :
    let m : Message Bytes := ⟨none, [(ascii "Etag", .scalar (.str (ascii "x")))], []⟩
    EqNoCase (ascii "eTAG") (ascii "ETag") ∧ ∃ m' : Message Bytes,
      headerDoneTurn messageSink ⟨.headerDone, some (ascii "eTAG"), some (ascii "y")⟩ [m] [] =
        .next (⟨.key, none, none⟩, [m']) [] ∧
      (m'.header (ascii "eTAG")).map HeaderValue.toArray =
        some [.str (ascii "x"), .str (ascii "y")] := by
  intro m
  have hcase : EqNoCase (ascii "eTAG") (ascii "ETag") := by
    unfold EqNoCase
    decide
  obtain ⟨-, -, hstores⟩ := (headerNames_canonical true true (ascii "eTAG")).2.2
    (ascii "ETag") hcase
  exact ⟨hcase, hstores m [] (ascii "y") [] (by decide)⟩

end ExtHttp
