import ExtHttp.ArrayKey
import ExtHttp.Assoc

/-!
# Updating the array of a query string

`php_http_querystring_update` with arrays of parameters. What is identical is what is equal, so the
scalars may be all but floating point numbers.
-/
namespace ExtHttp

/-- A `zval` in a bucket of a hash table. -/
inductive Slot (σ : Type)
  /-- `IS_UNDEF`: the bucket is passed over, but it is counted and found -/
  | undef
  | null
  | scalar (s : σ)
  | array (entries : List (ArrayKey × Slot σ))

/-- The buckets of a hash table. -/
abbrev Slots (σ : Type) := List (ArrayKey × Slot σ)

/-- Only public properties: a key is no string, or it begins with a character. -/
def ArrayKey.isPublic : ArrayKey → Bool
  | .long _ => true
  | .str s => s.head? ≠ none && s.head? ≠ some nul

/-- The key that `add_assoc_zval_ex` and `add_index_zval` store under. -/
def ArrayKey.added : ArrayKey → ArrayKey
  | .long n => .long n
  | .str s => symKey s

section Update
variable {σ : Type}

def Slot.isUndef : Slot σ → Bool
  | .undef => true
  | _ => false

/-- `ZVAL_DUP` and `convert_to_array` -/
def Slot.toArray : Slot σ → Slots σ
  | .array ht => ht.filter fun e => !e.2.isUndef
  | .null => []
  | v => [(.long 0, v)]

mutual

/-- `apply_querystring_filter`: what stays of a value -/
def Slot.filtered : Slot σ → Option (Slot σ)
  | .undef => some .undef
  | .null => none
  | .scalar s => some (.scalar s)
  | .array ht =>
      let ht := filterSlots ht
      if ht.length = 0 then none else some (.array ht)

/-- `zend_hash_apply` with `apply_querystring_filter` -/
def filterSlots : List (ArrayKey × Slot σ) → List (ArrayKey × Slot σ)
  | [] => []
  | (key, v) :: ht =>
      match v.filtered with
      | none => filterSlots ht
      | some v => (key, v) :: filterSlots ht

end

variable [DecidableEq σ]

/-- `is_identical_function` with a scalar -/
def Slot.isIdentical (s : σ) : Slot σ → Bool
  | .scalar t => t = s
  | _ => false

mutual

/-- A turn of the loop of `php_http_querystring_update` -/
def updateEntry (qarray : Slots σ) (key : ArrayKey) : Slot σ → Slots σ
  | .undef => qarray
  | .null => if key.isPublic then Assoc.erase qarray key else qarray
  | .scalar s =>
      if key.isPublic then
        match Assoc.find qarray key with
        | some entry => Assoc.set qarray key (if entry.isIdentical s then .undef else .scalar s)
        | none => Assoc.set qarray key.added (.scalar s)
      else qarray
  | .array ht =>
      if key.isPublic then
        match Assoc.find qarray key with
        | some entry => Assoc.set qarray key (.array (filterSlots (updateEntries entry.toArray ht)))
        | none => Assoc.set qarray key.added (.array ht)
      else qarray

/-- The loop of `php_http_querystring_update` -/
def updateEntries (qarray : Slots σ) : List (ArrayKey × Slot σ) → Slots σ
  | [] => qarray
  | (key, v) :: params => updateEntries (updateEntry qarray key v) params

end

/-- `php_http_querystring_update` -/
def querystringUpdate (qarray params : Slots σ) : Slots σ :=
  filterSlots (updateEntries qarray params)

end Update

/-- A value of a program: in its arrays no key comes twice, and no string is the numeral of an
index. -/
inductive Slot.Plain {σ : Type} : Slot σ → Prop
  | null : Plain .null
  | scalar (s : σ) : Plain (.scalar s)
  | array {ht : Slots σ} (distinct : Assoc.Distinct ht) (keys : ∀ e ∈ ht, e.1.added = e.1)
      (values : ∀ e ∈ ht, Plain e.2) : Plain (.array ht)

/-- An array of a program. -/
structure QueryArray (σ : Type) where
  entries : Slots σ
  plain : (Slot.array entries).Plain

end ExtHttp
