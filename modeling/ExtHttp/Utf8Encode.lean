import ExtHttp.Bytes

/-!
# Extended values in Latin-1

`utf8encode` of `php_http_params.c`, with the memory that it writes to. A value in ISO-8859-1 is the
string of the code points that its bytes are.
-/
namespace ExtHttp

/-- Write a byte, which must be inside. -/
def storeAt (mem : Bytes) (i : ℕ) (c : Byte) : Option Bytes :=
  if i < mem.length then some (mem.set i c) else none

/-- The first loop of `utf8encode`, up to the first NUL, which is behind the string at the
latest. -/
def utf8Size : Bytes → ℕ
  | [] => 0
  | c :: v =>
      if c = nul then 0
      else if 0x80 ≤ c then utf8Size v + 2 else utf8Size v + 1

def utf8Lead (c : Byte) : Byte := (0xc0 : Byte) ||| ((c >>> 6) &&& 0x1f)
def utf8Tail (c : Byte) : Byte := (0x80 : Byte) ||| (c &&& 0x3f)

/-- The second loop of `utf8encode`: what is in memory, and `pos`. -/
def utf8Fill (mem : Bytes) (pos : ℕ) : Bytes → Option (Bytes × ℕ)
  | [] => some (mem, pos)
  | c :: v => do
      let mem ← storeAt mem pos c
      if 0x80 ≤ c then
        let mem ← storeAt mem (pos + 1) (utf8Tail c)
        let mem ← storeAt mem pos (utf8Lead c)
        utf8Fill mem (pos + 2) v
      else utf8Fill mem (pos + 1) v

/-- `utf8encode`; there is no string when it writes behind what it has allocated. `heap` is what has
been there before. -/
def utf8encode (heap : ℕ → Byte) (v : Bytes) : Option Bytes := do
  -- the NUL behind the string is filled in as well
  let (mem, pos) ← utf8Fill ((List.range (utf8Size v + 1)).map heap) 0 (v ++ [nul])
  return mem.take (pos - 1)

/-- The UTF-8 encoding of the code point that the byte is. -/
def latin1Char (c : Byte) : Bytes := String.utf8EncodeChar (Char.ofNat c.toNat)

theorem latin1Char_eq (c : Byte) : latin1Char c =
    if 0x80 ≤ c then [utf8Lead c, utf8Tail c] else [c] := by
  have hall : ∀ n : Fin 256, latin1Char (UInt8.ofFin n) = if 0x80 ≤ UInt8.ofFin n then
      [utf8Lead (UInt8.ofFin n), utf8Tail (UInt8.ofFin n)] else [UInt8.ofFin n] := by decide +kernel
  exact hall c.toFin

theorem latin1Char_length (c : Byte) : (latin1Char c).length = if 0x80 ≤ c then 2 else 1 := by
  rw [latin1Char_eq]
  split_ifs <;> rfl

theorem length_flatMap_latin1Char (v : Bytes) :
    (v.flatMap latin1Char).length = v.length + v.countP (0x80 ≤ ·) := by
  induction v with
  | nil => rfl
  | cons c v ih =>
    rw [List.flatMap_cons, List.length_append, ih, latin1Char_length, List.length_cons,
      List.countP_cons]
    by_cases hc : 0x80 ≤ c
    · simp only [hc, if_true, decide_true]
      omega
    · simp only [hc, if_false, decide_false, Bool.false_eq_true]
      omega

theorem storeAt_append (done free : Bytes) (n : ℕ) (c : Byte) :
    storeAt (done ++ free) (done.length + n) c =
    if n < free.length then some (done ++ free.set n c) else none := by
  unfold storeAt
  simp only [List.length_append, Nat.add_lt_add_iff_left]
  split_ifs with h
  · rw [List.set_append_right _ _ (Nat.le_add_right _ _), Nat.add_sub_cancel_left]
  · rfl

/-- A turn of the second loop writes what encodes the byte, and must have room for it. -/
theorem utf8Fill_cons (c : Byte) (v done free : Bytes) :
    utf8Fill (done ++ free) done.length (c :: v) = if (latin1Char c).length ≤ free.length then
      utf8Fill (done ++ latin1Char c ++ free.drop (latin1Char c).length)
        (done ++ latin1Char c).length v
    else none := by
  have hfirst := storeAt_append done free 0 c
  rw [Nat.add_zero] at hfirst
  rw [utf8Fill, hfirst, latin1Char_eq]
  by_cases hc : 0x80 ≤ c
  · simp only [hc, if_true, List.length_cons, List.length_nil, Nat.zero_add, Nat.reduceAdd]
    match free with
    | [] => rfl
    | [f] =>
      have hsecond := storeAt_append done [c] 1 (utf8Tail c)
      simp [hsecond]
    | f :: g :: free =>
      have hsecond := storeAt_append done (c :: g :: free) 1 (utf8Tail c)
      have hthird := storeAt_append done (c :: utf8Tail c :: free) 0 (utf8Lead c)
      rw [Nat.add_zero] at hthird
      simp [hsecond, hthird]
  · simp only [hc, if_false, List.length_cons, List.length_nil, Nat.zero_add]
    match free with
    | [] => rfl
    | f :: free => simp

/-- The second loop writes the encoding behind what is done, and must have room for it. -/
theorem utf8Fill_append (v done free : Bytes) : utf8Fill (done ++ free) done.length v =
    if (v.flatMap latin1Char).length ≤ free.length then
      some (done ++ v.flatMap latin1Char ++ free.drop (v.flatMap latin1Char).length,
        (done ++ v.flatMap latin1Char).length)
    else none := by
  induction v generalizing done free with
  | nil => simp [utf8Fill]
  | cons c v ih =>
    have hlength : (latin1Char c ++ v.flatMap latin1Char).length = _ := List.length_append
    rw [utf8Fill_cons, ih, List.flatMap_cons, List.length_drop, List.drop_drop,
      List.append_assoc done, hlength]
    by_cases hroom : (latin1Char c).length ≤ free.length
    · rw [if_pos hroom]
      exact if_congr (by omega) rfl rfl
    · rw [if_neg hroom, if_neg (by omega)]

theorem utf8Size_cons {c : Byte} (hc : c ≠ nul) (v : Bytes) :
    utf8Size (c :: v) = (latin1Char c).length + utf8Size v := by
  rw [utf8Size, if_neg hc, latin1Char_length]
  split_ifs <;> exact Nat.add_comm _ _

theorem utf8Size_eq {v : Bytes} (h : nul ∉ v) : utf8Size v = (v.flatMap latin1Char).length := by
  induction v with
  | nil => rfl
  | cons c v ih =>
    have hc : c ≠ nul := fun hc => h (hc ▸ List.mem_cons_self)
    rw [utf8Size_cons hc, ih (fun hv => h (List.mem_cons_of_mem _ hv)), List.flatMap_cons,
      List.length_append]

theorem utf8Size_lt {v : Bytes} (h : nul ∈ v) : utf8Size v < (v.flatMap latin1Char).length := by
  induction v with
  | nil => cases h
  | cons c v ih =>
    rw [List.flatMap_cons, List.length_append]
    by_cases hc : c = nul
    · have hone := latin1Char_length c
      rw [utf8Size, if_pos hc]
      split_ifs at hone <;> omega
    · have hlt := ih ((List.mem_cons.mp h).resolve_left (Ne.symm hc))
      rw [utf8Size_cons hc]
      omega

/-- `utf8encode` has room for what it writes exactly if the string has no NUL. -/
theorem utf8encode_eq (heap : ℕ → Byte) (v : Bytes) :
    utf8encode heap v = if nul ∈ v then none else some (v.flatMap latin1Char) := by
  have hfill := utf8Fill_append (v ++ [nul]) [] ((List.range (utf8Size v + 1)).map heap)
  have hnul : latin1Char nul = [nul] := by decide
  have hlength : ((v ++ [nul]).flatMap latin1Char).length = (v.flatMap latin1Char).length + 1 := by
    simp [hnul]
  rw [List.nil_append, List.length_nil, List.nil_append, hlength, List.length_map,
    List.length_range] at hfill
  rw [utf8encode, hfill]
  by_cases hv : nul ∈ v
  · have hshort := utf8Size_lt hv
    rw [if_neg (by omega), if_pos hv]
    rfl
  · rw [utf8Size_eq hv, if_pos (Nat.le_refl _), if_neg hv]
    simp [hnul]

/-- `utf8encode` writes within what it has allocated, and the encoding of the code points that the
bytes are, if and only if the string has no NUL. -/
theorem utf8encode_iff (heap : ℕ → Byte) (v : Bytes) :
    (∃ w, utf8encode heap v = some w ∧ w = v.flatMap latin1Char ∧
      w.length = v.length + v.countP (0x80 ≤ ·)) ↔ nul ∉ v := by
  rw [utf8encode_eq, ← length_flatMap_latin1Char]
  by_cases hv : nul ∈ v <;> simp [hv]

/-- A NUL is counted as the end of the string, but it is written with all that is behind it. -/
theorem utf8encode_nul : ¬ ∃ w, utf8encode (fun _ => 0) (ascii "a\x00b") = some w ∧
    w = (ascii "a\x00b").flatMap latin1Char ∧
    w.length = (ascii "a\x00b").length + (ascii "a\x00b").countP (0x80 ≤ ·) := by
  have hnone : utf8encode (fun _ => 0) (ascii "a\x00b") = none := by decide +kernel
  simp [hnone]

end ExtHttp
