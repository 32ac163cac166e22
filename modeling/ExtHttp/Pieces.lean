import Mathlib.Data.List.Basic

/-!
# Texts with separators

Texts that are appended to a buffer one after the other. Each has its own separator, and it is
written where the buffer is not empty.
-/
namespace ExtHttp

variable {α : Type*}

/-- A separator and a text. -/
abbrev Piece (α : Type*) := List α × List α

def writePieces (buf : List α) : List (Piece α) → List α
  | [] => buf
  | p :: ps => writePieces ((if buf = [] then buf else buf ++ p.1) ++ p.2) ps

/-- The separators up to the first text that is not empty. -/
def leadingSep : List (Piece α) → List α
  | [] => []
  | p :: ps => p.1 ++ if p.2 = [] then leadingSep ps else []

variable (buf : List α) (p : Piece α) (ps qs : List (Piece α))

@[simp] theorem writePieces_nil : writePieces buf [] = buf := rfl

theorem writePieces_cons :
    writePieces buf (p :: ps) = writePieces ((if buf = [] then buf else buf ++ p.1) ++ p.2) ps :=
  rfl

theorem writePieces_append : writePieces buf (ps ++ qs) = writePieces (writePieces buf ps) qs := by
  induction ps generalizing buf with
  | nil => rfl
  | cons p ps ih => exact ih _

variable {buf p}

/-- Behind something all separators are there. -/
theorem writePieces_of_ne_nil (h : buf ≠ []) :
    writePieces buf ps = buf ++ ps.flatMap fun p => p.1 ++ p.2 := by
  induction ps generalizing buf with
  | nil => rw [List.flatMap_nil, List.append_nil, writePieces_nil]
  | cons p ps ih =>
    rw [writePieces_cons, if_neg h, ih (by simp [h]), List.flatMap_cons]
    simp only [List.append_assoc]

theorem flatMap_pieces : (ps.flatMap fun p => p.1 ++ p.2) = leadingSep ps ++ writePieces [] ps := by
  induction ps with
  | nil => rfl
  | cons p ps ih =>
    rw [List.flatMap_cons, writePieces_cons, if_pos rfl, List.nil_append, leadingSep]
    split_ifs with hp
    · rw [hp, List.append_nil, ih, List.append_assoc]
    · rw [writePieces_of_ne_nil ps hp, List.append_nil, List.append_assoc]

/-- Texts are the same behind something as alone, but for the separators in front of the first of
them. -/
theorem writePieces_eq (h : buf ≠ []) :
    writePieces buf ps = buf ++ (leadingSep ps ++ writePieces [] ps) := by
  rw [writePieces_of_ne_nil ps h, flatMap_pieces]

theorem leadingSep_of_ne_nil (h : p.2 ≠ []) : leadingSep (p :: ps) = p.1 := by
  rw [leadingSep, if_neg h, List.append_nil]

/-- Several lists of texts, each of which has something to write. -/
theorem writePieces_flatMap {β : Type*} (f : β → List (Piece α)) {b : β} {bs : List β}
    (h : writePieces [] (f b) ≠ []) :
    writePieces [] ((b :: bs).flatMap f) =
      writePieces [] (f b) ++ bs.flatMap fun b => leadingSep (f b) ++ writePieces [] (f b) := by
  rw [List.flatMap_cons, writePieces_append]
  generalize writePieces [] (f b) = buf at h
  induction bs generalizing buf with
  | nil => simp
  | cons b bs ih =>
    rw [List.flatMap_cons, writePieces_append, writePieces_eq _ h, ih _ (by simp [h]),
      List.flatMap_cons]
    simp only [List.append_assoc]

end ExtHttp
