import ExtHttp.Assoc
import ExtHttp.Bytes

/-! Header arrays: ordered hash tables under names, with values as the parsers put them there. An
integer key of a symtable stands under its decimal numeral. -/
namespace ExtHttp

inductive HeaderScalar
  | str (v : Bytes)
  | long (n : ℤ)
  | bool (b : Bool)
  deriving DecidableEq, Repr

inductive HeaderValue
  | scalar (v : HeaderScalar)
  | array (vs : List HeaderScalar)
  deriving DecidableEq, Repr

abbrev Headers := List (Bytes × HeaderValue)

/-- `convert_to_array` -/
def HeaderValue.toArray : HeaderValue → List HeaderScalar
  | .scalar v => [v]
  | .array vs => vs

namespace Headers

/-- `zend_hash_str_find` -/
def find (hs : Headers) (key : Bytes) : Option HeaderValue := Assoc.find hs key

/-- `zend_hash_str_update`: a new key goes to the end. -/
def update (hs : Headers) (key : Bytes) (v : HeaderValue) : Headers := Assoc.set hs key v

/-- `zend_hash_str_del` -/
def delete (hs : Headers) (key : Bytes) : Headers := Assoc.erase hs key

/-- How the header parser stores a value: behind the ones that are there. -/
def add (hs : Headers) (key val : Bytes) : Headers :=
  hs.update key <| match hs.find key with
    | some old => .array (old.toArray ++ [.str val])
    | none => .scalar (.str val)

theorem mem_update {hs : Headers} {key : Bytes} {v : HeaderValue} {h : Bytes × HeaderValue}
    (hmem : h ∈ hs.update key v) : h ∈ hs ∨ h = (key, v) := Assoc.mem_of_mem_set hmem

@[simp] theorem find_update (hs : Headers) (key : Bytes) (v : HeaderValue) (key' : Bytes) :
    (hs.update key v).find key' = if key = key' then some v else hs.find key' :=
  Assoc.find_set hs key key' v

@[simp] theorem find_delete (hs : Headers) (key key' : Bytes) :
    (hs.delete key).find key' = if key = key' then none else hs.find key' :=
  Assoc.find_erase hs key key'

theorem find_mem {hs : Headers} {key : Bytes} {v : HeaderValue} (h : hs.find key = some v) :
    (key, v) ∈ hs := Assoc.mem_of_find h

end Headers

end ExtHttp
