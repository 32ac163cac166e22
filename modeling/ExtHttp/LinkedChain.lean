import Mathlib

/-!
# Linked cells

Cells that are linked by one pointer each, where a chain is what is passed from a first cell to the
null pointer.
-/
namespace ExtHttp.LinkedChain

variable {α : Type}

/-- The cells from a pointer on. -/
def Linked (next : α → Option α) : Option α → List α → Prop
  | first, [] => first = none
  | first, m :: l => first = some m ∧ Linked next (next m) l

variable {next : α → Option α} {first : Option α} {l : List α}

@[simp] theorem linked_nil : Linked next first [] ↔ first = none := Iff.rfl

@[simp] theorem linked_cons {m : α} : Linked next first (m :: l) ↔
    first = some m ∧ Linked next (next m) l :=
  Iff.rfl

/-- There is one chain from a pointer. -/
theorem Linked.unique {k : List α} (h : Linked next first l) (hk : Linked next first k) :
    l = k := by
  induction l generalizing first k with
  | nil =>
    cases k with
    | nil => rfl
    | cons m k => exact absurd (h.symm.trans hk.1) (Option.some_ne_none m).symm
  | cons m l ih =>
    cases k with
    | nil => exact absurd (hk.symm.trans h.1) (Option.some_ne_none m).symm
    | cons n k =>
      obtain rfl : m = n := Option.some.inj (h.1.symm.trans hk.1)
      rw [ih h.2 hk.2]

theorem Linked.append {k : List α} {m : α} (h : Linked next first (l ++ m :: k)) :
    Linked next (some m) (m :: k) := by
  induction l generalizing first with
  | nil => exact ⟨rfl, h.2⟩
  | cons n l ih => exact ih h.2

theorem Linked.from_mem {m : α} (h : Linked next first l) (hm : m ∈ l) :
    ∃ k, Linked next (some m) k := by
  obtain ⟨front, back, rfl⟩ := List.append_of_mem hm
  exact ⟨m :: back, h.append⟩

/-- Where the chains from all cells end that are linked to another cell, all other chains end as
well. -/
theorem Linked.rewired {next' : α → Option α} (h : Linked next first l)
    (hwritten : ∀ m, next' m ≠ next m → ∃ k, Linked next' (some m) k) :
    ∃ k, Linked next' first k := by
  induction l generalizing first with
  | nil => exact ⟨[], h⟩
  | cons m l ih =>
    rw [h.1]
    by_cases hsame : next' m = next m
    · obtain ⟨k, hk⟩ := ih h.2
      refine ⟨m :: k, rfl, ?_⟩
      rw [hsame]
      exact hk
    · exact hwritten m hsame

/-- No cell comes twice. -/
theorem Linked.nodup (h : Linked next first l) : l.Nodup := by
  induction l generalizing first with
  | nil => exact List.nodup_nil
  | cons m l ih =>
    refine List.nodup_cons.mpr ⟨fun hmem => ?_, ih h.2⟩
    obtain ⟨front, back, rfl⟩ := List.append_of_mem hmem
    -- the chain from the second occurrence is shorter than the one from the first
    have hagain : Linked next (some m) (m :: back) := h.2.append
    have hwhole : Linked next (some m) (m :: (front ++ m :: back)) := ⟨rfl, h.2⟩
    have hlength := congrArg List.length (hagain.unique hwhole)
    simp only [List.length_cons, List.length_append] at hlength
    omega

/-- Cells outside of a chain do not count. -/
theorem Linked.congr {next' : α → Option α} (h : Linked next first l)
    (hsame : ∀ m ∈ l, next' m = next m) :
    Linked next' first l := by
  induction l generalizing first with
  | nil => exact h
  | cons m l ih =>
    refine ⟨h.1, ?_⟩
    rw [hsame m List.mem_cons_self]
    exact ih h.2 fun n hn => hsame n (List.mem_cons_of_mem _ hn)

/-- Links with the same chain are the same in its cells. -/
theorem Linked.links {next' : α → Option α} (h : Linked next first l) (h' : Linked next' first l) :
    ∀ m ∈ l, next m = next' m := by
  induction l generalizing first with
  | nil => exact fun m hm => absurd hm List.not_mem_nil
  | cons n l ih =>
    have hhead : next n = next' n := by
      cases l with
      | nil => exact h.2.trans h'.2.symm
      | cons k l => exact h.2.1.trans h'.2.1.symm
    intro m hm
    rcases List.mem_cons.mp hm with rfl | hm
    · exact hhead
    · exact ih h.2 (hhead ▸ h'.2) m hm

section
variable [DecidableEq α]

theorem Linked.update (h : Linked next first l) {m : α} (hm : m ∉ l) (target : Option α) :
    Linked (Function.update next m target) first l :=
  h.congr fun _ hn => Function.update_of_ne (ne_of_mem_of_not_mem hn hm) target next

/-- Each cell is linked to the one before it. -/
def relink : (α → Option α) → α → List α → α → Option α
  | next, _, [] => next
  | next, prev, m :: l => relink (Function.update next m (some prev)) m l

/-- A cell outside may as well be written last. -/
theorem relink_update {prev m : α} (hm : m ∉ l) (target : Option α) :
    relink (Function.update next m target) prev l =
      Function.update (relink next prev l) m target := by
  induction l generalizing next prev with
  | nil => rfl
  | cons n l ih =>
    obtain ⟨hne, hl⟩ := not_or.mp (mt List.mem_cons.mpr hm)
    rw [relink, Function.update_comm hne, ih hl]
    rfl

/-- What is linked backwards comes in front of what there is, and no other cell is written. -/
theorem relink_spec {prev : α} {done : List α} (h : Linked next (some prev) done)
    (hdisjoint : done.Disjoint l) (hnodup : l.Nodup) :
    Linked (relink next prev l) (some (l.getLastD prev)) (l.reverse ++ done) ∧
      ∀ n ∉ l, relink next prev l n = next n := by
  induction l generalizing next prev done with
  | nil => exact ⟨h, fun n _ => rfl⟩
  | cons m l ih =>
    obtain ⟨hm, hnodup⟩ := List.nodup_cons.mp hnodup
    obtain ⟨hdone, hdisjoint⟩ := List.disjoint_cons_right.mp hdisjoint
    have hlinked : Linked (Function.update next m (some prev)) (some m) (m :: done) :=
      ⟨rfl, by rw [Function.update_self]; exact h.update hdone _⟩
    obtain ⟨hchain, hframe⟩ := ih hlinked (List.disjoint_cons_left.mpr ⟨hm, hdisjoint⟩) hnodup
    constructor
    · rw [List.reverse_cons, List.append_assoc, List.singleton_append, List.getLastD_cons]
      exact hchain
    · intro n hn
      rw [List.mem_cons, not_or] at hn
      rw [relink, hframe n hn.2, Function.update_of_ne hn.1]

end

/-- One of each by turns, and then the rest of the longer list. -/
def interleave : List α → List α → List α
  | [], k => k
  | m :: l, [] => m :: l
  | m :: l, n :: k => m :: n :: interleave l k

theorem interleave_perm (l k : List α) : (interleave l k).Perm (l ++ k) := by
  induction l generalizing k with
  | nil => exact List.Perm.refl _
  | cons m l ih =>
    cases k with
    | nil => rw [interleave, List.append_nil]
    | cons n k =>
      have hrest := ((ih k).cons n).trans (List.perm_middle (a := n)).symm
      exact hrest.cons m

end ExtHttp.LinkedChain
