import ExtHttp.HeaderText
import ExtHttp.Message

/-!
# Header blocks

A block is a list of fields as they stand in a text, with blanks around the values and in any
spelling of the names. What the header parser stores of it.
-/
namespace ExtHttp
open BufferLoop

/-- The parser stores a value without the blanks around it, behind the other ones under its name,
and no empty value. -/
def storeField (hs : Headers) (f : Bytes × Bytes) : Headers :=
  if trim f.2 = [] then hs else hs.add (prettyKey true true f.1) (trim f.2)

def headerBlock (fields : List (Bytes × Bytes)) : Headers := fields.foldl storeField []

/-- Fields that are stored as they stand. -/
theorem headerBlock_plain {fields : List (Bytes × Bytes)} (h : ∀ f ∈ fields, PlainField f) :
    headerBlock fields = fields.foldl (fun hs f => Headers.add hs f.1 f.2) [] := by
  unfold headerBlock
  generalize ([] : Headers) = hs
  induction fields generalizing hs with
  | nil => rfl
  | cons f fields ih =>
    have hf := h f (by simp)
    rw [List.foldl_cons, List.foldl_cons, storeField, hf.value.trimmed.trim_eq, if_neg hf.value.ne,
      hf.name.pretty, ih fun g hg => h g (by simp [hg])]

/-- The values of the fields of one name, without the blanks around them. -/
def fieldValues (fields : List (Bytes × Bytes)) (key : Bytes) : List Bytes :=
  (fields.filter fun f => prettyKey true true f.1 = key).map fun f => trim f.2

/-- What is stored for values under one name. -/
def mergedValue : List Bytes → Option HeaderValue
  | [] => none
  | [v] => some (.scalar (.str v))
  | vs => some (.array (vs.map .str))

theorem mergedValue_append {vs : List Bytes} {old : HeaderValue} (h : mergedValue vs = some old)
    (v : Bytes) : mergedValue (vs ++ [v]) = some (.array (old.toArray ++ [.str v])) := by
  match vs with
  | [] => cases h
  | [w] =>
    cases h
    rfl
  | w :: x :: vs =>
    obtain rfl := Option.some.inj h
    simp [mergedValue, HeaderValue.toArray]

theorem mergedValue_eq_none {vs : List Bytes} : mergedValue vs = none ↔ vs = [] := by
  match vs with
  | [] | [_] | _ :: _ :: _ => simp [mergedValue]

/-- The header array of a block. -/
theorem find_headerBlock (fields : List (Bytes × Bytes)) (key : Bytes) :
    (headerBlock fields).find key = mergedValue ((fieldValues fields key).filter (· ≠ [])) := by
  induction fields using List.reverseRecOn with
  | nil => rfl
  | append_singleton fields f ih =>
    have hblock : headerBlock (fields ++ [f]) = storeField (headerBlock fields) f := by
      simp [headerBlock]
    have hvalues : fieldValues (fields ++ [f]) key =
        fieldValues fields key ++ if prettyKey true true f.1 = key then [trim f.2] else [] := by
      unfold fieldValues
      by_cases hkey : prettyKey true true f.1 = key <;> simp [hkey]
    rw [hblock, hvalues, List.filter_append, storeField]
    by_cases hempty : trim f.2 = []
    · have hnone : ((if prettyKey true true f.1 = key then [trim f.2] else []).filter
          (· ≠ [])) = [] := by
        split_ifs <;> simp [hempty]
      rw [if_pos hempty, hnone, List.append_nil, ih]
    · rw [if_neg hempty, Headers.add, Headers.find_update]
      by_cases hkey : prettyKey true true f.1 = key
      · have hone : ([trim f.2].filter (· ≠ [])) = [trim f.2] := by simp [hempty]
        rw [if_pos hkey, if_pos hkey, hone, hkey]
        cases hold : (headerBlock fields).find key with
        | none =>
          rw [ih, mergedValue_eq_none] at hold
          rw [hold]
          rfl
        | some old =>
          rw [ih] at hold
          exact (mergedValue_append hold _).symm
      · rw [if_neg hkey, if_neg hkey, List.filter_nil, List.append_nil, ih]

variable {Url : Type}

theorem messageSink_store (fields : List (Bytes × Bytes)) (m : Message Url) (parents : Chain Url) :
    fields.foldl messageSink.store (m :: parents) =
      { m with hdrs := fields.foldl storeField m.hdrs } :: parents := by
  induction fields generalizing m with
  | nil => rfl
  | cons f fields ih =>
    have hstep : messageSink.store (m :: parents) f =
        { m with hdrs := storeField m.hdrs f } :: parents := by
      unfold HeaderSink.store storeField
      split_ifs <;> simp [messageSink]
    rw [List.foldl_cons, hstep, ih]
    rfl

end ExtHttp
