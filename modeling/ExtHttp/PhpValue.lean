import ExtHttp.ArrayKey
import ExtHttp.Assoc

/-!
# Values and their arrays

PHP values as far as parameters have them, and ordered hash tables that can be nested. What the
source points to inside of an array is given by the keys that lead there.
-/
namespace ExtHttp

/-- A `zval`; neither floating point numbers nor objects. -/
inductive Value
  | null
  | bool (b : Bool)
  | long (n : ℤ)
  | str (s : Bytes)
  | array (entries : List (ArrayKey × Value))
  deriving Repr

/-- The entries of a hash table in their order. -/
abbrev Entries := List (ArrayKey × Value)

/-- `zval_get_string` -/
def Value.toStr : Value → Bytes
  | .null => []
  | .bool b => if b then ascii "1" else []
  | .long n => formatLong n
  | .str s => s
  | .array _ => ascii "Array"

def Value.isArray : Value → Bool
  | .array _ => true
  | _ => false

/-- The index, where the key is one. -/
def ArrayKey.index : ArrayKey → Option ℤ
  | .long i => some i
  | .str _ => none

namespace Entries

/-- `zend_hash_find` and its like -/
def find (ht : Entries) (key : ArrayKey) : Option Value := Assoc.find ht key

/-- `zend_hash_update` and its like: a new key goes to the end. -/
def update (ht : Entries) (key : ArrayKey) (v : Value) : Entries := Assoc.set ht key v

/-- The greatest of the indices. -/
def greatestIndex (ht : Entries) : Option ℤ := (ht.filterMap fun e => e.1.index).max?

/-- The index behind the greatest one; `below` says whether indices below 0 count, as they do from
PHP 8.3 on. -/
def nextIndex (below : Bool) (ht : Entries) : ℤ :=
  match greatestIndex ht with
  | none => 0
  | some n => if below then n + 1 else max 0 (n + 1)

/-- `zend_hash_next_index_insert`: the table and the index, if there is a next one. -/
def nextInsert (below : Bool) (ht : Entries) (v : Value) : Option (Entries × ArrayKey) :=
  if nextIndex below ht < 2 ^ 63 then
    some (ht ++ [(.long (nextIndex below ht), v)], .long (nextIndex below ht))
  else none

@[simp] theorem find_nil (key : ArrayKey) : find [] key = none := rfl

theorem find_cons (e : ArrayKey × Value) (ht : Entries) (key : ArrayKey) :
    find (e :: ht) key = if e.1 = key then some e.2 else find ht key := Assoc.find_cons e ht key

@[simp] theorem update_nil (key : ArrayKey) (v : Value) : update [] key v = [(key, v)] := rfl

theorem update_cons (e : ArrayKey × Value) (ht : Entries) (key : ArrayKey) (v : Value) :
    update (e :: ht) key v = if e.1 = key then (key, v) :: ht else e :: update ht key v := rfl

theorem update_of_find_none {ht : Entries} {key : ArrayKey} (h : find ht key = none) (v : Value) :
    update ht key v = ht ++ [(key, v)] := Assoc.set_of_none h v

theorem find_eq_none {ht : Entries} {key : ArrayKey} : find ht key = none ↔ key ∉ ht.map Prod.fst :=
  Assoc.find_eq_none

theorem update_append {ht : Entries} {key : ArrayKey} (h : find ht key = none) (v w : Value) :
    update (ht ++ [(key, v)]) key w = ht ++ [(key, w)] := Assoc.set_last h v w

end Entries

/-- What a pointer into an array is followed along. -/
abbrev Path := List ArrayKey

/-- What a pointer points to. -/
def Value.get : Value → Path → Option Value
  | v, [] => some v
  | .array ht, key :: path => (Entries.find ht key).bind fun v => v.get path
  | _, _ :: _ => none

/-- Write where a pointer points to. -/
def Value.set : Value → Path → Value → Value
  | _, [], w => w
  | .array ht, key :: path, w =>
      match Entries.find ht key with
      | some v => .array (Entries.update ht key (v.set path w))
      | none => .array ht
  | v, _ :: _, _ => v

/-- The keys of the first elements, one inside of the other. -/
def Value.firstPath : Value → Path
  | .array ((key, v) :: _) => key :: v.firstPath
  | _ => []

/-- Arrays of one element each, around NULL. -/
def nested : Path → Value
  | [] => .null
  | key :: path => .array [(key, nested path)]

end ExtHttp
