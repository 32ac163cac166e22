import Mathlib

/-!
# Streams with a position

A file or a memory stream: its data and where it is read and written next. Writing replaces what is
there, and what lies between the end and a position behind it is filled.
-/

structure SeekStream (α : Type*) where
  data : List α
  pos : ℕ
  deriving DecidableEq, Repr

namespace SeekStream
variable {α : Type*}

def seek (s : SeekStream α) (n : ℕ) : SeekStream α := { s with pos := n }

def seekEnd (s : SeekStream α) : SeekStream α := s.seek s.data.length

/-- What reading on will find. -/
def rest (s : SeekStream α) : List α := s.data.drop s.pos

def write (fill : α) (s : SeekStream α) (w : List α) : SeekStream α where
  data := s.data.takeD s.pos fill ++ w ++ s.data.drop (s.pos + w.length)
  pos := s.pos + w.length

def truncate (fill : α) (s : SeekStream α) (n : ℕ) : SeekStream α where
  data := s.data.takeD n fill
  pos := min s.pos n

/-- Nothing of the stream lies at its position or behind it, and nothing is missing before it. -/
def AtEnd (s : SeekStream α) : Prop := s.pos = s.data.length

@[simp] theorem seekEnd_data (s : SeekStream α) : s.seekEnd.data = s.data := rfl

@[simp] theorem seekEnd_atEnd (s : SeekStream α) : s.seekEnd.AtEnd := rfl

theorem write_data_of_atEnd {s : SeekStream α} (h : s.AtEnd) (fill : α) (w : List α) :
    (s.write fill w).data = s.data ++ w := by
  rw [AtEnd] at h
  have hbefore : s.data.takeD s.pos fill = s.data := by
    rw [List.takeD_eq_take fill h.le, h, List.take_length]
  have hbehind : s.data.drop (s.pos + w.length) = [] := List.drop_eq_nil_of_le (by omega)
  simp [write, hbefore, hbehind]

theorem write_atEnd {s : SeekStream α} (h : s.AtEnd) (fill : α) (w : List α) :
    (s.write fill w).AtEnd := by
  rw [AtEnd] at h
  rw [AtEnd, write_data_of_atEnd h]
  simp [write, h]

/-- Cutting off the last part. -/
theorem truncate_append {s : SeekStream α} {kept cut : List α} (h : s.data = kept ++ cut)
    (fill : α) :
    (s.truncate fill kept.length).data = kept := by
  change List.takeD kept.length s.data fill = kept
  rw [h, List.takeD_eq_take fill (by simp), List.take_left']
  rfl

end SeekStream
