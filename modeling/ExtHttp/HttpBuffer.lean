import ExtHttp.Block
import ExtHttp.BufferOutput

/-!
# The buffer and its block

`php_http_buffer_t` as the code keeps it: a block of memory with what is `used` of it and what is
`free`, each counted on its own. The other modules take a buffer for the list of its bytes. Here
that list is what the block holds, whatever operations come one after another.
-/
namespace ExtHttp

/-- How a call ends that does not come back, or should not. -/
inductive BufferFault
  /-- a size that is not a `size_t` -/
  | overflow
  /-- the allocator ends the request: NULL is nothing it returns -/
  | noMemory
  /-- a copy leaves the block -/
  | outside
  /-- `resize_ex` looks for a size and there is none -/
  | endless
  /-- what the caller must see to, as `account` asserts -/
  | unmet
  deriving DecidableEq, Repr

/-- `php_http_buffer_t` without `pmem`, with the block for `data` -/
structure HttpBuffer where
  data : Option Bytes
  used : ℕ
  free : ℕ
  size : ℕ
  deriving DecidableEq, Repr

/-- An addition of two `size_t`. -/
def sizeAdd (m n : ℕ) :
    Except BufferFault ℕ := if m + n < 2 ^ 64 then .ok (m + n) else .error .overflow

/-- `perealloc`, and with no block `pemalloc`. No block has more than `PTRDIFF_MAX` bytes, and
`heap n` is what the heap has where a block of `n` bytes comes to lie. -/
def perealloc (heap : ℕ → ℕ → Byte) (data : Option Bytes) (n : ℕ) : Except BufferFault Bytes :=
  if n < 2 ^ 63 then .ok (Block.realloc (heap n) (data.getD []) n) else .error .noMemory

/-- `while (size + buf->free < len) size <<= 1;` -/
def growSize (free len : ℕ) : ℕ → ℕ → Except BufferFault ℕ
  | 0, _ => .error .endless
  | turns + 1, size => do
    let room ← sizeAdd size free
    if room < len then growSize free len turns (← sizeAdd size size) else .ok size

namespace HttpBuffer

def block (b : HttpBuffer) : Bytes := b.data.getD []

/-- The buffer after a copy in its block. -/
def copied (b : HttpBuffer) : Option Bytes → Except BufferFault HttpBuffer
  | some block => .ok { b with data := b.data.map fun _ => block }
  | none => .error .outside

/-- What a copy out of the block brings. -/
def taken : Option Bytes → Except BufferFault Bytes
  | some w => .ok w
  | none => .error .outside

/-- `php_http_buffer_init_ex` -/
def initEx (heap : ℕ → ℕ → Byte) (chunkSize : ℕ) (prealloc : Bool) :
    Except BufferFault HttpBuffer :=
  let size := if chunkSize = 0 then 256 else chunkSize
  if prealloc then do .ok ⟨some (← perealloc heap none size), 0, size, size⟩
    else .ok ⟨none, 0, 0, size⟩

/-- `php_http_buffer_resize_ex`: by how much the block has grown. A turn doubles the size, so 64
turns leave the range of a `size_t`. -/
def resizeEx (heap : ℕ → ℕ → Byte) (b : HttpBuffer) (len overrideSize : ℕ) :
    Except BufferFault (ℕ × HttpBuffer) :=
  if b.free < len then do
    let size ← growSize b.free len 64 (if overrideSize = 0 then b.size else overrideSize)
    let data ← perealloc heap b.data (← sizeAdd (← sizeAdd b.used b.free) size)
    .ok (size, { b with data := some data, free := b.free + size })
  else .ok (0, b)

/-- `if (buf->free < len && php_http_buffer_resize_ex(buf, len, override_size, 0) == NOMEM)` -/
def roomFor (heap : ℕ → ℕ → Byte) (b : HttpBuffer) (len overrideSize : ℕ) :
    Except BufferFault HttpBuffer :=
  if b.free < len then Prod.snd <$> b.resizeEx heap len overrideSize else .ok b

/-- `php_http_buffer_account`: where the bytes in use end. -/
def account (b : HttpBuffer) (toAccount : ℕ) : Except BufferFault (ℕ × HttpBuffer) :=
  if toAccount ≤ b.free then
    .ok (b.used + toAccount, { b with free := b.free - toAccount, used := b.used + toAccount })
  else .error .unmet

/-- `php_http_buffer_shrink` -/
def shrink (heap : ℕ → ℕ → Byte) (b : HttpBuffer) : Except BufferFault (ℕ × HttpBuffer) :=
  if 1 < b.free then do
    let data ← perealloc heap b.data (← sizeAdd b.used 1)
    .ok (b.used, { b with data := some data, free := 1 })
  else .ok (b.used, b)

/-- `php_http_buffer_append` -/
def append (heap : ℕ → ℕ → Byte) (b : HttpBuffer) (append : Bytes) :
    Except BufferFault (ℕ × HttpBuffer) := do
  let b ← b.roomFor heap append.length 0
  if append = [] then .ok (0, b)
  else
    let b ← b.copied (Block.write b.block b.used append)
    .ok (append.length, { b with used := b.used + append.length, free := b.free - append.length })

/-- `php_http_buffer_appendf` of what `vspprintf` has made of the format -/
def appendf (heap : ℕ → ℕ → Byte) (b : HttpBuffer) (formatted : Bytes) :
    Except BufferFault (ℕ × HttpBuffer) := do
  let alloc ← b.append heap formatted
  .ok (formatted.length, alloc.2)

/-- `php_http_buffer_data`, a copy without its NUL -/
def dataCopy (b : HttpBuffer) : Except BufferFault Bytes :=
  match b.data with
  | some block => taken (Block.read block 0 b.used)
  | none => .ok []

/-- `php_http_buffer_cut` -/
def cut (b : HttpBuffer) (offset length : ℕ) : Except BufferFault (ℕ × HttpBuffer) :=
  if b.used < offset then .ok (0, b)
  else do
    let stop ← sizeAdd offset length
    let length := if b.used < stop then b.used - offset else length
    let b ← b.copied (Block.move b.block offset (offset + length) (b.used - length - offset))
    .ok (length, { b with used := b.used - length, free := b.free + length })

/-- `php_http_buffer_fix` -/
def fix (heap : ℕ → ℕ → Byte) (b : HttpBuffer) : Except BufferFault HttpBuffer := do
  let b ← b.roomFor heap 1 1
  b.copied (Block.write b.block b.used [nul])

/-- `php_http_buffer_reset` -/
def reset (b : HttpBuffer) : HttpBuffer := { b with free := b.free + b.used, used := 0 }

/-- `if (!*s) *s = php_http_buffer_init_ex(NULL, chunk_size << 1, ..)` -/
def storageOf (heap : ℕ → ℕ → Byte) (s : Option HttpBuffer) (chunkSize : ℕ) :
    Except BufferFault HttpBuffer :=
  match s with
  | some storage => .ok storage
  | none => do initEx heap (← sizeAdd chunkSize chunkSize) (decide (chunkSize ≠ 0))

/-- `if (data_len) php_http_buffer_append(storage, data, data_len)` -/
def store (heap : ℕ → ℕ → Byte) (storage : HttpBuffer) (data : Bytes) :
    Except BufferFault HttpBuffer :=
  if data = [] then .ok storage else Prod.snd <$> storage.append heap data

/-- `php_http_buffer_chunk_buffer`: the chunk, whose length is what the function returns, and the
buffer behind `s`. -/
def chunkBuffer (heap : ℕ → ℕ → Byte) (s : Option HttpBuffer) (data : Bytes) (chunkSize : ℕ) :
    Except BufferFault (Bytes × Option HttpBuffer) := do
  let storage ← (← storageOf heap s chunkSize).store heap data
  if chunkSize = 0 then do .ok (← storage.dataCopy, none)
  else if chunkSize ≤ storage.used then do
    let chunk ← taken (Block.read storage.block 0 chunkSize)
    let rest ← storage.cut 0 chunkSize
    .ok (chunk, some rest.2)
  else .ok ([], some storage)

/-- What is `used` and what is `free` are the block, and what is used of it is `l`. -/
structure Accounts (b : HttpBuffer) (l : Bytes) : Prop where
  room : b.used + b.free = b.block.length
  held : b.block.take b.used = l
  size_pos : 0 < b.size
  bound : b.block.length < 2 ^ 63

end HttpBuffer

/-- A call stays in its block, and if it comes back, then with what it is for. -/
def Sound {α : Type} (P : α → Prop) : Except BufferFault α → Prop
  | .ok a => P a
  | .error fault => fault ≠ .outside ∧ fault ≠ .endless

section Sound
variable {α β : Type} {P : α → Prop} {Q : β → Prop}

theorem Sound.bind {r : Except BufferFault α} (h : Sound P r) {f : α → Except BufferFault β}
    (hf : ∀ a, P a → Sound Q (f a)) : Sound Q (r >>= f) := by
  cases r with
  | ok a => exact hf a h
  | error fault => exact h

theorem Sound.map {r : Except BufferFault α} {f : α → β} (h : Sound (fun a => Q (f a)) r) :
    Sound Q (f <$> r) := by
  cases r with
  | ok a => exact h
  | error fault => exact h

theorem Sound.imp {r : Except BufferFault α} (h : Sound P r) {P' : α → Prop}
    (hP : ∀ a, P a → P' a) :
    Sound P' r := by
  cases r with
  | ok a => exact hP a h
  | error fault => exact h

theorem sizeAdd_sound (m n : ℕ) : Sound (fun k => k = m + n ∧ k < 2 ^ 64) (sizeAdd m n) := by
  unfold sizeAdd
  split_ifs with h
  · exact ⟨rfl, h⟩
  · exact ⟨by decide, by decide⟩

theorem perealloc_sound (heap : ℕ → ℕ → Byte) (data : Option Bytes) (n : ℕ) :
    Sound (fun block => n < 2 ^ 63 ∧ block = Block.realloc (heap n) (data.getD []) n)
      (perealloc heap data n) := by
  unfold perealloc
  split_ifs with h
  · exact ⟨h, rfl⟩
  · exact ⟨by decide, by decide⟩

/-- The size doubles with a turn, and before the turns are up it is no `size_t`. -/
theorem growSize_sound (free len : ℕ) {turns size : ℕ} (hturns : turns ≠ 0)
    (hsize : 2 ^ 64 ≤ size * 2 ^ turns) :
    Sound (fun grown => len ≤ grown + free) (growSize free len turns size) := by
  induction turns generalizing size with
  | zero => exact absurd rfl hturns
  | succ turns ih =>
    apply (sizeAdd_sound size free).bind
    rintro room ⟨rfl, -⟩
    split_ifs with hroom
    · apply (sizeAdd_sound size size).bind
      rintro doubled ⟨rfl, hlt⟩
      have hdouble : 2 ^ 64 ≤ (size + size) * 2 ^ turns := by
        rw [← Nat.two_mul, Nat.mul_comm 2, Nat.mul_assoc, ← Nat.pow_succ']
        exact hsize
      apply ih _ hdouble
      rintro rfl
      omega
    · exact Nat.le_of_not_lt hroom

end Sound

namespace HttpBuffer
section Operations
variable (heap : ℕ → ℕ → Byte) {b : HttpBuffer} {l w : Bytes}

theorem Accounts.used_eq (h : b.Accounts l) : b.used = l.length := by
  rw [← h.held, List.length_take, ← h.room]
  omega

theorem block_copied {block : Bytes} (hlen : block.length = b.block.length) :
    (b.data.map fun _ => block).getD [] = block := by
  cases hdata : b.data with
  | some data => rfl
  | none =>
    rw [HttpBuffer.block, hdata] at hlen
    exact (List.eq_nil_of_length_eq_zero hlen).symm

/-- A block that is as long as the old one and has `l'` in its first `used'` bytes does for the
buffer. -/
theorem Accounts.copied (h : b.Accounts l) {block : Bytes} (hlen : block.length = b.block.length)
    {l' : Bytes} {used' free' : ℕ} (hroom : used' + free' = b.used + b.free)
    (hheld : block.take used' = l') :
    (⟨b.data.map fun _ => block, used', free', b.size⟩ : HttpBuffer).Accounts l' := by
  have hblock := block_copied hlen
  refine ⟨?_, ?_, h.size_pos, ?_⟩
  · change used' + free' = ((b.data.map fun _ => block).getD []).length
    rw [hblock, hlen, hroom, h.room]
  · change ((b.data.map fun _ => block).getD []).take used' = l'
    rw [hblock, hheld]
  · change ((b.data.map fun _ => block).getD []).length < 2 ^ 63
    rw [hblock, hlen]
    exact h.bound

/-- So does a new block that has room for what is in use. -/
theorem Accounts.realloc (h : b.Accounts l) {n free' : ℕ} (hn : n = b.used + free')
    (hbound : n < 2 ^ 63) :
    ({ b with data := some (Block.realloc (heap n) b.block n), free := free' }).Accounts l := by
  have hused : b.used ≤ b.block.length := h.room ▸ Nat.le_add_right b.used b.free
  refine ⟨?_, ?_, h.size_pos, ?_⟩
  · exact hn.symm.trans (Block.length_realloc (heap n) b.block n).symm
  · exact (Block.take_realloc (heap n) hused (by omega)).trans h.held
  · exact (Block.length_realloc (heap n) b.block n).trans_lt hbound

theorem initEx_sound (chunkSize : ℕ) (prealloc : Bool) :
    Sound (fun b => b.Accounts []) (initEx heap chunkSize prealloc) := by
  have hsize : 0 < if chunkSize = 0 then 256 else chunkSize := by
    split_ifs with h
    · exact Nat.zero_lt_succ 255
    · exact Nat.pos_of_ne_zero h
  unfold initEx
  dsimp only
  generalize (if chunkSize = 0 then 256 else chunkSize) = size at hsize
  cases prealloc with
  | true =>
    apply (perealloc_sound heap none size).bind
    rintro block ⟨hbound, rfl⟩
    refine ⟨?_, rfl, hsize, ?_⟩
    · simp [HttpBuffer.block]
    · simpa [HttpBuffer.block] using hbound
  | false => exact ⟨rfl, rfl, hsize, Nat.two_pow_pos 63⟩

/-- There is room for `len` bytes then. -/
theorem resizeEx_sound (h : b.Accounts l) (len overrideSize : ℕ) :
    Sound (fun r => r.2.Accounts l ∧ len ≤ r.2.free) (b.resizeEx heap len overrideSize) := by
  have hsize : 0 < if overrideSize = 0 then b.size else overrideSize := by
    split_ifs with h0
    · exact h.size_pos
    · exact Nat.pos_of_ne_zero h0
  unfold resizeEx
  generalize (if overrideSize = 0 then b.size else overrideSize) = start at hsize
  split_ifs with hfree
  · apply (growSize_sound b.free len (by decide) (Nat.le_mul_of_pos_left (2 ^ 64) hsize)).bind
    intro size hgrown
    apply (sizeAdd_sound b.used b.free).bind
    rintro total ⟨rfl, -⟩
    apply (sizeAdd_sound (b.used + b.free) size).bind
    rintro n ⟨hn, -⟩
    apply (perealloc_sound heap b.data n).bind
    rintro block ⟨hbound, rfl⟩
    exact ⟨h.realloc heap (by omega) hbound, by simpa [Nat.add_comm] using hgrown⟩
  · exact ⟨h, Nat.le_of_not_lt hfree⟩

theorem roomFor_sound (h : b.Accounts l) (len overrideSize : ℕ) :
    Sound (fun b' => b'.Accounts l ∧ len ≤ b'.free) (b.roomFor heap len overrideSize) := by
  unfold roomFor
  split_ifs with hfree
  · exact (resizeEx_sound heap h len overrideSize).map
  · exact ⟨h, Nat.le_of_not_lt hfree⟩

theorem account_sound (h : b.Accounts l) {n : ℕ} (hw : b.block.take (b.used + n) = l ++ w) :
    Sound (fun r => r.2.Accounts (l ++ w)) (b.account n) := by
  unfold account
  split_ifs with hfree
  · refine ⟨?_, hw, h.size_pos, h.bound⟩
    change b.used + n + (b.free - n) = b.block.length
    have hroom := h.room
    omega
  · exact ⟨by decide, by decide⟩

theorem shrink_sound (h : b.Accounts l) : Sound (fun r => r.2.Accounts l) (b.shrink heap) := by
  unfold shrink
  split_ifs
  · apply (sizeAdd_sound b.used 1).bind
    rintro n ⟨hn, -⟩
    apply (perealloc_sound heap b.data n).bind
    rintro block ⟨hbound, rfl⟩
    exact h.realloc heap hn hbound
  · exact h

/-- A copy of `w` behind what is in use stays in the block if there is room for it. -/
theorem write_sound (h : b.Accounts l) (hfree : w.length ≤ b.free) :
    ∃ block, Block.write b.block b.used w = some block ∧ block.length = b.block.length ∧
      block.take (b.used + w.length) = l ++ w := by
  have hroom := h.room
  obtain ⟨block, hwrite, hlen, htake⟩ :=
    Block.write_spec (b := b.block) (w := w) (i := b.used) (by omega)
  exact ⟨block, hwrite, hlen, by rw [htake, h.held]⟩

theorem append_sound (h : b.Accounts l) (w : Bytes) :
    Sound (fun r => r.2.Accounts (l ++ w)) (b.append heap w) := by
  apply (roomFor_sound heap h w.length 0).bind
  rintro b' ⟨h', hfree⟩
  split_ifs with hw
  · rw [hw, List.append_nil]
    exact h'
  · obtain ⟨block, hwrite, hlen, htake⟩ := write_sound h' hfree
    have hsum : b'.used + w.length + (b'.free - w.length) = b'.used + b'.free := by omega
    rw [hwrite]
    exact h'.copied hlen hsum htake

theorem appendf_sound (h : b.Accounts l) (w : Bytes) :
    Sound (fun r => r.2.Accounts (l ++ w)) (b.appendf heap w) := by
  apply (append_sound heap h w).bind
  intro alloc halloc
  exact halloc

theorem cut_sound (h : b.Accounts l) (offset length : ℕ) :
    Sound (fun r => r.2.Accounts
        (if l.length < offset then l else l.take offset ++ l.drop (offset + length)))
      (b.cut offset length) := by
  have hused := h.used_eq
  unfold cut
  rw [← hused]
  split_ifs with hoffset
  · exact h
  · apply (sizeAdd_sound offset length).bind
    rintro stop ⟨rfl, -⟩
    -- what is behind the end of the bytes in use is not there to be cut
    have hdrop : l.drop (offset + length) =
        l.drop (offset + if b.used < offset + length then b.used - offset else length) := by
      split_ifs with hclamp
      · rw [List.drop_eq_nil_of_le (by omega), List.drop_eq_nil_of_le (by omega)]
      · rfl
    have hle : offset + (if b.used < offset + length then b.used - offset else length) ≤
        b.used := by
      split_ifs <;> omega
    rw [hdrop]
    generalize (if b.used < offset + length then b.used - offset else length) = n at hle
    have hroom := h.room
    obtain ⟨block, hmove, hlen, htake⟩ := Block.move_spec (b := b.block) (n := b.used - n - offset)
      (Nat.le_add_right offset n) (by omega)
    have hheld : block.take (b.used - n) = l.take offset ++ l.drop (offset + n) := by
      rw [show b.used - n = offset + (b.used - n - offset) by
        omega, htake, ← h.held, List.take_take, List.drop_take, Nat.min_eq_left (by omega),
          show b.used - (offset + n) = b.used - n - offset by omega]
    have hsum : b.used - n + (b.free + n) = b.used + b.free := by omega
    dsimp only
    rw [hmove]
    exact h.copied hlen hsum hheld

/-- The NUL comes behind what is in use. -/
theorem fix_sound (h : b.Accounts l) : Sound (fun b => b.Accounts l) (b.fix heap) := by
  apply (roomFor_sound heap h 1 1).bind
  rintro b' ⟨h', hfree⟩
  obtain ⟨block, hwrite, hlen, htake⟩ := write_sound (w := [nul]) h' hfree
  have hheld : block.take b'.used = l := by
    have hcut := congrArg (List.take b'.used) htake
    rwa [List.take_take, Nat.min_eq_left (Nat.le_add_right _ _), h'.used_eq, List.take_left,
      ← h'.used_eq] at hcut
  rw [hwrite]
  exact h'.copied hlen rfl hheld

theorem reset_accounts (h : b.Accounts l) : b.reset.Accounts [] := by
  refine ⟨?_, List.take_zero, h.size_pos, h.bound⟩
  change 0 + (b.free + b.used) = b.block.length
  rw [← h.room, Nat.zero_add, Nat.add_comm]

theorem dataCopy_sound (h : b.Accounts l) : Sound (fun w => w = l) b.dataCopy := by
  have hroom := h.room
  have hheld := h.held
  unfold dataCopy
  unfold HttpBuffer.block at hroom hheld
  cases hdata : b.data with
  | some block =>
    rw [hdata] at hroom hheld
    change b.used + b.free = block.length at hroom
    dsimp only
    rw [Block.read_eq (by omega)]
    exact hheld
  | none =>
    rw [hdata] at hheld
    exact List.take_nil.symm.trans hheld

theorem storageOf_sound {s : Option HttpBuffer} {o : Option Bytes} (h : Option.Rel Accounts s o)
    (chunkSize : ℕ) :
    Sound (fun b => b.Accounts (o.getD [])) (storageOf heap s chunkSize) := by
  cases h with
  | some h => exact h
  | none =>
    apply (sizeAdd_sound chunkSize chunkSize).bind
    rintro double -
    exact initEx_sound heap double _

theorem store_sound (h : b.Accounts l) (w : Bytes) :
    Sound (fun b => b.Accounts (l ++ w)) (b.store heap w) := by
  unfold store
  split_ifs with hw
  · rw [hw, List.append_nil]
    exact h
  · exact (append_sound heap h w).map

/-- The `chunkBuffer` of blocks refines that of lists of bytes, which the output half of the buffer
is made with: the chunk is the same, and so is what stays. -/
theorem chunkBuffer_refines {s : Option HttpBuffer} {o : Option Bytes} (h : Option.Rel Accounts s o)
    (data : Bytes) (chunkSize : ℕ) :
    Sound (fun r => r.1 = (ExtHttp.chunkBuffer o data chunkSize).1 ∧
        Option.Rel Accounts r.2 (ExtHttp.chunkBuffer o data chunkSize).2)
      (chunkBuffer heap s data chunkSize) := by
  apply (storageOf_sound heap h chunkSize).bind
  intro storage hstorage
  apply (store_sound heap hstorage data).bind
  intro b hb
  unfold ExtHttp.chunkBuffer
  generalize o.getD [] ++ data = stored at hb
  dsimp only
  rw [← hb.used_eq]
  split_ifs with hsize hchunk
  · apply (dataCopy_sound hb).bind
    rintro w rfl
    exact ⟨rfl, .none⟩
  · have hroom := hb.room
    have htaken : (b.block.drop 0).take chunkSize = stored.take chunkSize := by
      rw [List.drop_zero, ← hb.held, List.take_take, Nat.min_eq_left hchunk]
    rw [Block.read_eq (by omega), htaken]
    apply (cut_sound hb 0 chunkSize).bind
    intro rest hrest
    rw [if_neg (Nat.not_lt_zero _), List.take_zero, List.nil_append, Nat.zero_add] at hrest
    exact ⟨rfl, .some hrest⟩
  · exact ⟨rfl, .some hb⟩

end Operations
end HttpBuffer

end ExtHttp
