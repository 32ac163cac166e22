import ExtHttp.HttpBuffer

/-!
# What a buffer holds over its calls

The calls with a buffer one after another, and the list of bytes that they make of it.
-/
namespace ExtHttp

/-- The operations on a buffer that is there. A caller of `account` has put what it accounts for
behind the bytes in use, as far as there is room. -/
inductive BufferOp
  | append (append : Bytes)
  | appendf (formatted : Bytes)
  | cut (offset length : ℕ)
  | reset
  | account (written : Bytes) (toAccount : ℕ)
  | resize (len overrideSize : ℕ)
  | shrink
  | fix
  deriving DecidableEq, Repr

/-- A call with the pointer to a buffer. -/
inductive BufferCall
  | init (chunkSize : ℕ) (prealloc : Bool)
  | op (op : BufferOp)
  | chunkBuffer (data : Bytes) (chunkSize : ℕ)
  deriving DecidableEq, Repr

/-- What an operation is for: the bytes that the buffer has then. -/
def BufferOp.bytes (l : Bytes) : BufferOp → Bytes
  | .append w => l ++ w
  | .appendf w => l ++ w
  | .cut offset length => if l.length < offset then l else l.take offset ++ l.drop (offset + length)
  | .reset => []
  | .account w n => l ++ w.take n
  | .resize _ _ => l
  | .shrink => l
  | .fix => l

/-- The chunk, if there is one, and the bytes. -/
def BufferCall.bytes (o : Option Bytes) : BufferCall → Bytes × Option Bytes
  | .init _ _ => ([], some [])
  | .op bufferOp => ([], o.map fun l => bufferOp.bytes l)
  | .chunkBuffer data chunkSize => ExtHttp.chunkBuffer o data chunkSize

def BufferCall.bytesRun (o : Option Bytes) : List BufferCall → List Bytes × Option Bytes
  | [] => ([], o)
  | call :: calls =>
      let r := call.bytes o
      let rest := bytesRun r.2 calls
      (r.1 :: rest.1, rest.2)

namespace HttpBuffer

/-- The caller of `account` writes behind the bytes in use. -/
def fill (b : HttpBuffer) (w : Bytes) (n : ℕ) : Except BufferFault HttpBuffer :=
  if w.length ≤ b.free ∧ n ≤ w.length then b.copied (Block.write b.block b.used w)
    else .error .unmet

def apply (heap : ℕ → ℕ → Byte) (b : HttpBuffer) : BufferOp → Except BufferFault HttpBuffer
  | .append w => Prod.snd <$> b.append heap w
  | .appendf w => Prod.snd <$> b.appendf heap w
  | .cut offset length => Prod.snd <$> b.cut offset length
  | .reset => .ok b.reset
  | .account w n => do Prod.snd <$> (← b.fill w n).account n
  | .resize len overrideSize => Prod.snd <$> b.resizeEx heap len overrideSize
  | .shrink => Prod.snd <$> b.shrink heap
  | .fix => b.fix heap

/-- Only `init` and `chunkBuffer` take NULL. -/
def call (heap : ℕ → ℕ → Byte) (s : Option HttpBuffer) :
    BufferCall → Except BufferFault (Bytes × Option HttpBuffer)
  | .init chunkSize prealloc => do .ok ([], some (← initEx heap chunkSize prealloc))
  | .op bufferOp =>
    match s with
    | some b => do .ok ([], some (← b.apply heap bufferOp))
    | none => .error .unmet
  | .chunkBuffer data chunkSize => chunkBuffer heap s data chunkSize

/-- One call after another, each with the heap it finds. -/
def run (s : Option HttpBuffer) :
    List ((ℕ → ℕ → Byte) × BufferCall) → Except BufferFault (List Bytes × Option HttpBuffer)
  | [] => .ok ([], s)
  | (heap, bufferCall) :: calls => do
    let r ← call heap s bufferCall
    let rest ← run r.2 calls
    .ok (r.1 :: rest.1, rest.2)

section Run
variable (heap : ℕ → ℕ → Byte) {b : HttpBuffer} {l : Bytes} {s : Option HttpBuffer}
    {o : Option Bytes}

theorem fill_sound (h : b.Accounts l) (w : Bytes) (n : ℕ) :
    Sound (fun b' => b'.Accounts l ∧ b'.block.take (b'.used + n) = l ++ w.take n) (b.fill w n) := by
  unfold fill
  split_ifs with hw
  · obtain ⟨hfree, hn⟩ := hw
    obtain ⟨block, hwrite, hlen, htake⟩ := write_sound h hfree
    have hall : (b.data.map fun _ => block).getD [] = block := block_copied hlen
    have hused : block.take b.used = l := by
      have hcut := congrArg (List.take b.used) htake
      rwa [List.take_take, Nat.min_eq_left (Nat.le_add_right _ _), h.used_eq, List.take_left,
        ← h.used_eq] at hcut
    rw [hwrite]
    refine ⟨h.copied hlen rfl hused, ?_⟩
    change ((b.data.map fun _ => block).getD []).take (b.used + n) = l ++ w.take n
    have hcut := congrArg (List.take (b.used + n)) htake
    rw [hall]
    rwa [List.take_take, Nat.min_eq_left (by omega), h.used_eq, List.take_length_add_append,
      ← h.used_eq] at hcut
  · exact ⟨by decide, by decide⟩

theorem apply_sound (h : b.Accounts l) (op : BufferOp) :
    Sound (fun b' => b'.Accounts (op.bytes l)) (b.apply heap op) := by
  cases op with
  | append w => exact (append_sound heap h w).map
  | appendf w => exact (appendf_sound heap h w).map
  | cut offset length => exact (cut_sound h offset length).map
  | reset => exact reset_accounts h
  | account w n =>
    apply (fill_sound h w n).bind
    rintro b' ⟨h', hheld⟩
    exact (account_sound h' hheld).map
  | resize len overrideSize =>
    exact ((resizeEx_sound heap h len overrideSize).imp fun r hr => hr.1).map
  | shrink => exact (shrink_sound heap h).map
  | fix => exact fix_sound heap h

theorem call_sound (h : Option.Rel Accounts s o) (bufferCall : BufferCall) :
    Sound (fun r => r.1 = (bufferCall.bytes o).1 ∧ Option.Rel Accounts r.2 (bufferCall.bytes o).2)
      (call heap s bufferCall) := by
  cases bufferCall with
  | init chunkSize prealloc =>
    apply (initEx_sound heap chunkSize prealloc).bind
    intro b hb
    exact ⟨rfl, .some hb⟩
  | op op =>
    cases h with
    | some h =>
      apply (apply_sound heap h op).bind
      intro b hb
      exact ⟨rfl, .some hb⟩
    | none => exact ⟨by decide, by decide⟩
  | chunkBuffer data chunkSize => exact chunkBuffer_refines heap h data chunkSize

theorem run_sound (calls : List ((ℕ → ℕ → Byte) × BufferCall)) (h : Option.Rel Accounts s o) :
    Sound (fun r => r.1 = (BufferCall.bytesRun o (calls.map Prod.snd)).1 ∧
        Option.Rel Accounts r.2 (BufferCall.bytesRun o (calls.map Prod.snd)).2)
      (run s calls) := by
  induction calls generalizing s o with
  | nil => exact ⟨rfl, h⟩
  | cons first calls ih =>
    apply (call_sound first.1 h first.2).bind
    rintro r ⟨hchunk, hr⟩
    apply (ih hr).bind
    rintro rest ⟨hchunks, hrest⟩
    exact ⟨congrArg₂ List.cons hchunk hchunks, hrest⟩

end Run
end HttpBuffer

/-- Whatever the calls are: a copy never leaves the block, the search for a size ends, and as long
as no size is too large, the block is what is used and what is free, and its first bytes are those
that the calls are for. -/
theorem buffer_accounts (calls : List ((ℕ → ℕ → Byte) × BufferCall)) :
    HttpBuffer.run none calls ≠ .error .outside ∧ HttpBuffer.run none calls ≠ .error .endless ∧
    ∀ chunks s, HttpBuffer.run none calls = .ok (chunks, s) →
      chunks = (BufferCall.bytesRun none (calls.map Prod.snd)).1 ∧
      (s = none ↔ (BufferCall.bytesRun none (calls.map Prod.snd)).2 = none) ∧
      ∀ b ∈ s, b.used + b.free = b.block.length ∧
        (BufferCall.bytesRun none (calls.map Prod.snd)).2 = some (b.block.take b.used) := by
  have hrun := HttpBuffer.run_sound calls .none
  generalize HttpBuffer.run none calls = r at hrun
  generalize BufferCall.bytesRun none (calls.map Prod.snd) = bytes at hrun
  cases r with
  | error fault =>
    obtain ⟨houtside, hendless⟩ := hrun
    refine ⟨fun h => houtside (Except.error.inj h), fun h => hendless (Except.error.inj h), ?_⟩
    intro chunks s h
    cases h
  | ok r =>
    refine ⟨nofun, nofun, ?_⟩
    intro chunks s h
    obtain rfl := Except.ok.inj h
    obtain ⟨hchunks, hs⟩ := hrun
    refine ⟨hchunks, ?_⟩
    generalize bytes.2 = o at hs
    cases hs with
    | none => exact ⟨iff_of_true rfl rfl, nofun⟩
    | some hb =>
      refine ⟨⟨nofun, nofun⟩, ?_⟩
      intro b hmem
      obtain rfl := Option.some.inj hmem
      exact ⟨hb.room, congrArg some hb.held.symm⟩

/-- A block of four bytes grows, gives and shrinks. -/
example :
    let calls : List BufferCall := [.init 4 true, .op (.append [97, 98, 99]),
      .op (.append [100, 101]), .op .fix, .op (.cut 1 2), .op .shrink, .op (.account [102] 1),
      .op (.resize 9 3), .op (.appendf [103]),
      .chunkBuffer [104] 2, .chunkBuffer [] 0, .chunkBuffer [105] 1]
    HttpBuffer.run none (calls.map fun call => (fun n i => (n + i).toUInt8, call)) =
      .ok ([[], [], [], [], [], [], [], [], [], [97, 100], [101, 102, 103, 104], [105]],
        some ⟨some [105, 3], 0, 2, 2⟩) := by
  decide

end ExtHttp
