import Mathlib.Data.List.Basic
import Mathlib.Tactic.Common

/-!
# Blocks of memory

A block of the heap is the list of its bytes, and `none` is what a copy that leaves the block comes
to.
-/
namespace ExtHttp.Block

variable {α : Type}

/-- `memcpy` of `w` to `i` -/
def write (b : List α) (i : ℕ) (w : List α) : Option (List α) :=
  if i + w.length ≤ b.length then some (b.take i ++ w ++ b.drop (i + w.length)) else none

/-- The `n` bytes from `i`. -/
def read (b : List α) (i n : ℕ) : Option (List α) :=
  if i + n ≤ b.length then some ((b.drop i).take n) else none

/-- `memmove` of the `n` bytes from `src` to `dst` -/
def move (b : List α) (dst src n : ℕ) : Option (List α) := (read b src n).bind (write b dst)

/-- `realloc` to `n` bytes: behind what the block had is what the heap has there. -/
def realloc (heap : ℕ → α) (b : List α) (n : ℕ) : List α :=
  (List.range n).map fun i => b[i]?.getD (heap i)

variable {b w : List α} {i n : ℕ}

theorem write_eq (h : i + w.length ≤ b.length) : write b i w =
    some (b.take i ++ w ++ b.drop (i + w.length)) :=
  if_pos h

theorem read_eq (h : i + n ≤ b.length) : read b i n = some ((b.drop i).take n) := if_pos h

/-- A copy behind the first `i` bytes makes the block longer by nothing and the bytes in use longer
by `w`. -/
theorem write_spec (h : i + w.length ≤ b.length) :
    ∃ b', write b i w = some b' ∧ b'.length = b.length ∧
      b'.take (i + w.length) = b.take i ++ w := by
  have hi : i ≤ b.length := Nat.le_trans (Nat.le_add_right i w.length) h
  have htake : (b.take i ++ w).length = i + w.length := by simp [Nat.min_eq_left hi]
  refine ⟨_, write_eq h, ?_, ?_⟩
  · rw [List.length_append, htake, List.length_drop]
    omega
  · exact List.take_left' htake

/-- Bytes that move to the front of the block leave its length as it is. -/
theorem move_spec {dst src : ℕ} (hdst : dst ≤ src) (h : src + n ≤ b.length) :
    ∃ b', move b dst src n = some b' ∧ b'.length = b.length ∧
      b'.take (dst + n) = b.take dst ++ (b.drop src).take n := by
  have hlen : ((b.drop src).take n).length = n := by
    rw [List.length_take, List.length_drop]
    omega
  obtain ⟨b', hb', hb'len, htake⟩ :=
    write_spec (b := b) (w := (b.drop src).take n) (i := dst) (by omega)
  refine ⟨b', ?_, hb'len, ?_⟩
  · rw [move, read_eq h]
    exact hb'
  · rwa [hlen] at htake

@[simp] theorem length_realloc (heap : ℕ → α) (b : List α) (n : ℕ) :
    (realloc heap b n).length = n := by
  simp [realloc]

/-- What both blocks have stays. -/
theorem take_realloc (heap : ℕ → α) {k : ℕ} (hk : k ≤ b.length) (hn : k ≤ n) :
    (realloc heap b n).take k = b.take k := by
  apply List.ext_getElem
  · simp [hk, hn]
  · intro j hj hj'
    rw [List.length_take, length_realloc] at hj
    have hjb : j < b.length := by omega
    simp [realloc, List.getElem_take, hjb]

end ExtHttp.Block
