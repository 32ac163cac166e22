import ExtHttp.Bytes
import ExtHttp.Steps

/-!
# Sanitizing a path

The loop of `php_http_url_mod` that rewrites a path in its place. The memory it works on is that of
the path with its NUL, as long as it was in the beginning; every access is one of this memory or a
fault.
-/
namespace ExtHttp

inductive PathFault
  | read
  | move
  deriving DecidableEq, Repr

/-- The memory between `path` and `end`, and where `strchr` looks on. -/
structure PathMemory where
  mem : Bytes
  ptr : ℕ
  deriving DecidableEq, Repr

/-- A read inside the string or of its NUL. -/
def readChar (mem : Bytes) (i : ℕ) : Except PathFault Byte :=
  if i ≤ (cString mem).length ∧ i < mem.length then .ok (byteAt mem i) else .error .read

/-- `memmove` of all from `src` up to the end. -/
def movePath (mem : Bytes) (dst src : ℕ) : Except PathFault Bytes :=
  if src ≤ mem.length ∧ dst + (mem.length - src) ≤ mem.length then
    .ok (mem.take dst ++ mem.drop src ++ mem.drop (dst + (mem.length - src)))
  else .error .move

/-- A NUL in the place of a character. -/
def cutPath (mem : Bytes) (i : ℕ) : Except PathFault Bytes :=
  if i < mem.length then .ok (mem.set i nul) else .error .move

/-- The search back for the slash before, which ends at the beginning of the path. -/
def slashBefore (mem : Bytes) : ℕ → ℕ
  | 0 => 0
  | i + 1 => if byteAt mem i = slash then i else slashBefore mem i

/-- `strchr(ptr, '/')` -/
def slashFrom (s : PathMemory) : Option ℕ :=
  let w := (cString s.mem).drop s.ptr
  if slash ∈ w then some (s.ptr + (w.takeWhile (· ≠ slash)).length) else none

/-- The body of the loop, with `ptr` at a slash. -/
def sanitizeTurn (mem : Bytes) (ptr : ℕ) : Except PathFault PathMemory := do
  let c1 ← readChar mem (ptr + 1)
  if c1 = slash then
    let mem ← movePath mem (ptr + 1) (ptr + 2)
    return ⟨mem, ptr⟩
  else if c1 = dot then
    let c2 ← readChar mem (ptr + 2)
    if c2 = nul then
      let mem ← cutPath mem (ptr + 1)
      return ⟨mem, ptr⟩
    else if c2 = slash then
      let mem ← movePath mem (ptr + 1) (ptr + 3)
      return ⟨mem, ptr⟩
    else if c2 = dot then
      let c3 ← readChar mem (ptr + 3)
      if c3 = slash then
        let back := slashBefore mem ptr
        let mem ← movePath mem (back + 1) (ptr + 4)
        return ⟨mem, back⟩
      -- `..` at the end
      else if c3 = nul then
        let mem ← cutPath mem (ptr + 1)
        return ⟨mem, ptr + 1⟩
      else return ⟨mem, ptr + 1⟩
    else return ⟨mem, ptr + 1⟩
  else return ⟨mem, ptr + 1⟩

/-- A round of the loop; a state where there is no slash any more stays as it is. -/
def sanitizeStep (s : PathMemory) : Except PathFault PathMemory :=
  if (cString s.mem).length < s.ptr then .error .read
  else match slashFrom s with
    | none => .ok s
    | some ptr => sanitizeTurn s.mem ptr

/-- The loop has ended. -/
def PathMemory.Ended (s : PathMemory) : Prop := slashFrom s = none

def PathMemory.init (path : Bytes) : PathMemory := ⟨path ++ [nul], 0⟩

/-- The path as `PHP_HTTP_URL_SANITIZE_PATH` leaves it; one of a single character is left alone. Two
rounds for every character are enough. -/
def sanitizePath (path : Bytes) : Bytes :=
  if path.length < 2 then path
  else match Steps.run sanitizeStep (2 * path.length) (.init path) with
    | .ok s => cString s.mem
    | .error _ => []

example : sanitizePath (ascii "/./up/../down/../././//index.php/.") = ascii "/index.php/" := by
    decide +kernel

/-! ### Texts in the memory -/

/-- The memory holds this text. -/
structure PathMemory.Holds (s : PathMemory) (size : ℕ) (text : Bytes) : Prop where
  noNul : nul ∉ text
  within : s.ptr ≤ text.length
  memory : ∃ tail, s.mem = text ++ nul :: tail
  size : s.mem.length = size

/-- Text behind a slash that no case of the loop takes. -/
structure PlainRest (rest : Bytes) : Prop where
  notAgain : ∀ r, rest ≠ slash :: r
  notHereEnd : rest ≠ [dot]
  notHere : ∀ r, rest ≠ dot :: slash :: r
  notUpEnd : rest ≠ [dot, dot]
  notUp : ∀ r, rest ≠ dot :: dot :: slash :: r

/-- What stands behind a slash, as the loop tells it apart. -/
inductive Behind : Bytes → Prop
  | again (r : Bytes) : Behind (slash :: r)
  | hereEnd : Behind [dot]
  | here (r : Bytes) : Behind (dot :: slash :: r)
  | upEnd : Behind [dot, dot]
  | up (r : Bytes) : Behind (dot :: dot :: slash :: r)
  | plain {rest : Bytes} (h : PlainRest rest) : Behind rest

theorem behind (rest : Bytes) : Behind rest := by
  by_cases h : PlainRest rest
  · exact .plain h
  · by_contra hnone
    refine h ⟨?_, ?_, ?_, ?_, ?_⟩
    · rintro r rfl
      exact hnone (.again r)
    · rintro rfl
      exact hnone .hereEnd
    · rintro r rfl
      exact hnone (.here r)
    · rintro rfl
      exact hnone .upEnd
    · rintro r rfl
      exact hnone (.up r)

section
variable {kept rest tail : Bytes} {mem : Bytes}

theorem cString_append_nul {text : Bytes} (h : nul ∉ text) (tail : Bytes) :
    cString (text ++ nul :: tail) = text := by
  rw [cString, List.takeWhile_append_of_pos]
  · simp
  · intro c hc
    simp only [ne_eq, decide_eq_true_eq]
    rintro rfl
    exact h hc

/-- A slash with text around it. -/
structure AtSlash (mem kept rest tail : Bytes) : Prop where
  memory : mem = kept ++ slash :: (rest ++ nul :: tail)
  kept : nul ∉ kept
  rest : nul ∉ rest

theorem AtSlash.text (h : AtSlash mem kept rest tail) : cString mem = kept ++ slash :: rest := by
  have hnul : nul ∉ kept ++ slash :: rest := by
    simp only [List.mem_append, List.mem_cons, not_or]
    exact ⟨h.kept, by decide, h.rest⟩
  have hmem : mem = (kept ++ slash :: rest) ++ nul :: tail := by rw [h.memory]; simp
  rw [hmem, cString_append_nul hnul]

/-- The reads behind the slash. -/
theorem AtSlash.read (h : AtSlash mem kept rest tail) {i : ℕ} (hi : i ≤ rest.length) :
    readChar mem (kept.length + 1 + i) = .ok (byteAt (rest ++ [nul]) i) := by
  have hbyte : byteAt mem (kept.length + 1 + i) = byteAt (rest ++ [nul]) i := by
    have hmem : mem = (kept ++ [slash]) ++ ((rest ++ [nul]) ++ tail) := by rw [h.memory]; simp
    have hlen : kept.length + 1 = (kept ++ [slash]).length := by simp
    rw [byteAt, byteAt, hmem, hlen, List.getD_append_right _ _ _ _ (by omega),
      Nat.add_sub_cancel_left, List.getD_append _ _ _ _ (by simp; omega)]
  rw [readChar, if_pos, hbyte]
  rw [h.text]
  constructor
  · simp
    omega
  · rw [h.memory]
    simp
    omega

/-- A move to the left of what stands `gone` behind the slash. -/
theorem AtSlash.move (h : AtSlash mem kept rest tail) (dst src : ℕ) {front gone r : Bytes}
    (hfront : front <+: kept ++ [slash]) (hrest : rest = gone ++ r) (hdst : dst = front.length)
    (hsrc : src = kept.length + 1 + gone.length) :
    ∃ tail', movePath mem dst src = .ok (front ++ (r ++ nul :: tail')) ∧
      (front ++ (r ++ nul :: tail')).length = mem.length := by
  obtain ⟨more, hmore⟩ := hfront
  have hmem : mem = (front ++ (more ++ gone)) ++ (r ++ nul :: tail) := by
    have hsplit : kept ++ slash :: (rest ++ nul :: tail) =
        (kept ++ [slash]) ++ (rest ++ nul :: tail) := by simp
    rw [h.memory, hsplit, ← hmore, hrest]
    simp
  have hkept : kept.length + 1 = front.length + more.length := by
    have hlen := congrArg List.length hmore
    simpa using hlen.symm
  have hbefore : src = (front ++ (more ++ gone)).length := by
    simp only [List.length_append]
    omega
  have hdrop : mem.drop src = r ++ nul :: tail := by
    rw [hbefore, hmem, List.drop_left]
  have htake : mem.take dst = front := by
    rw [hdst, hmem, List.append_assoc, List.take_left]
  have hlen : mem.length = src + (r ++ nul :: tail).length := by
    rw [hmem, hbefore, List.length_append]
  have hin : src ≤ mem.length ∧ dst + (mem.length - src) ≤ mem.length := by omega
  refine ⟨tail ++ mem.drop (dst + (mem.length - src)), ?_, ?_⟩
  · rw [movePath, if_pos hin, htake, hdrop]
    simp
  · simp only [List.length_append, List.length_cons, List.length_drop] at hlen ⊢
    omega

/-- A cut behind the slash. -/
theorem AtSlash.cut (h : AtSlash mem kept rest tail) (hne : rest ≠ []) :
    ∃ tail', cutPath mem (kept.length + 1) = .ok (kept ++ slash :: nul :: tail') ∧
      (kept ++ slash :: nul :: tail').length = mem.length := by
  obtain ⟨c, r, rfl⟩ := List.exists_cons_of_ne_nil hne
  refine ⟨r ++ nul :: tail, ?_, ?_⟩
  · rw [cutPath, if_pos (by rw [h.memory]; simp), h.memory]
    simp
  · rw [h.memory]
    simp

theorem slashBefore_le (mem : Bytes) (i : ℕ) : slashBefore mem i ≤ i := by
  induction i with
  | zero => exact le_refl _
  | succ i ih =>
    rw [slashBefore]
    split_ifs <;> omega

theorem slashBefore_append (kept more : Bytes) {i : ℕ} (hi : i ≤ kept.length) :
    slashBefore (kept ++ more) i = slashBefore kept i := by
  induction i with
  | zero => rfl
  | succ i ih =>
    have hbyte : byteAt (kept ++ more) i = byteAt kept i := by
      rw [byteAt, byteAt, List.getD_append _ _ _ _ (by omega)]
    rw [slashBefore, slashBefore, hbyte, ih (by omega)]

/-- What a turn makes of the text, and where it leaves the pointer. -/
inductive PathTurn (kept : Bytes) : Bytes → Bytes → ℕ → Prop
  | again (r : Bytes) : PathTurn kept (slash :: r) (kept ++ slash :: r) kept.length
  | hereEnd : PathTurn kept [dot] (kept ++ [slash]) kept.length
  | here (r : Bytes) : PathTurn kept (dot :: slash :: r) (kept ++ slash :: r) kept.length
  | upEnd : PathTurn kept [dot, dot] (kept ++ [slash]) (kept.length + 1)
  | up (r : Bytes) : PathTurn kept (dot :: dot :: slash :: r)
      ((kept ++ [slash]).take (slashBefore kept kept.length + 1) ++ r)
        (slashBefore kept kept.length)
  | plain {rest : Bytes} (h : PlainRest rest) :
    PathTurn kept rest (kept ++ slash :: rest) (kept.length + 1)

theorem sanitizeTurn_plain (h : AtSlash mem kept rest tail) (hplain : PlainRest rest) :
    sanitizeTurn mem kept.length = .ok ⟨mem, kept.length + 1⟩ := by
  have hnul := h.rest
  match rest with
  | [] =>
    have hfirst : readChar mem (kept.length + 1) = .ok nul := h.read (Nat.zero_le _)
    simp only [sanitizeTurn, hfirst, bind, Except.bind, pure, Except.pure]
    rfl
  | c :: r =>
    have hfirst : readChar mem (kept.length + 1) = .ok c := h.read (Nat.zero_le _)
    have hslash : c ≠ slash := fun hc => hplain.notAgain r (by rw [hc])
    simp only [sanitizeTurn, hfirst, bind, Except.bind, pure, Except.pure]
    rw [if_neg hslash]
    by_cases hdot : c = dot
    · subst hdot
      rw [if_pos rfl]
      match r with
      | [] => exact absurd rfl hplain.notHereEnd
      | d :: r =>
        have hsecond : readChar mem (kept.length + 2) = .ok d := h.read (i := 1) (by simp)
        have hend : d ≠ nul := fun hd => hnul (by simp [hd])
        have hnext : d ≠ slash := fun hd => hplain.notHere r (by rw [hd])
        simp only [hsecond]
        rw [if_neg hend, if_neg hnext]
        by_cases hdots : d = dot
        · subst hdots
          rw [if_pos rfl]
          match r with
          | [] => exact absurd rfl hplain.notUpEnd
          | e :: r =>
            have hthird : readChar mem (kept.length + 3) = .ok e := h.read (i := 2) (by simp)
            have hend : e ≠ nul := fun he => hnul (by simp [he])
            have hnext : e ≠ slash := fun he => hplain.notUp r (by rw [he])
            simp only [hthird]
            rw [if_neg hnext, if_neg hend]
        · rw [if_neg hdots]
    · rw [if_neg hdot]

/-- A turn stays within the memory, and this is what it does. -/
theorem sanitizeTurn_spec (h : AtSlash mem kept rest tail) :
    ∃ text ptr tail', sanitizeTurn mem kept.length = .ok ⟨text ++ nul :: tail', ptr⟩ ∧
      (text ++ nul :: tail').length = mem.length ∧ PathTurn kept rest text ptr := by
  have hdot : dot ≠ slash := by decide
  have hdotNul : dot ≠ nul := by decide
  have hslashNul : slash ≠ nul := by decide
  cases behind rest with
  | again r =>
    have hfirst : readChar mem (kept.length + 1) = .ok slash := h.read (Nat.zero_le _)
    obtain ⟨tail', hmove, hlen⟩ := h.move (kept.length + 1) (kept.length + 2) (List.prefix_refl _)
      (rfl : _ = [slash] ++ r) (by simp) rfl
    have hmem : (kept ++ slash :: r) ++ nul :: tail' =
        kept ++ [slash] ++ (r ++ nul :: tail') := by simp
    refine ⟨kept ++ slash :: r, _, tail', ?_, hmem ▸ hlen, .again r⟩
    simp only [sanitizeTurn, hfirst, bind, Except.bind, pure, Except.pure, if_true]
    rw [hmem, hmove]
  | hereEnd =>
    have hfirst : readChar mem (kept.length + 1) = .ok dot := h.read (Nat.zero_le _)
    have hsecond : readChar mem (kept.length + 2) = .ok nul := h.read (i := 1) (by simp)
    obtain ⟨tail', hcut, hlen⟩ := h.cut (by simp)
    have hmem : (kept ++ [slash]) ++ nul :: tail' = kept ++ slash :: nul :: tail' := by simp
    refine ⟨kept ++ [slash], _, tail', ?_, hmem ▸ hlen, .hereEnd⟩
    simp only [sanitizeTurn, hfirst, hsecond, bind, Except.bind, pure, Except.pure, hdot,
      if_true, if_false]
    rw [hmem, hcut]
  | here r =>
    have hfirst : readChar mem (kept.length + 1) = .ok dot := h.read (Nat.zero_le _)
    have hsecond : readChar mem (kept.length + 2) = .ok slash := h.read (i := 1) (by simp)
    obtain ⟨tail', hmove, hlen⟩ := h.move (kept.length + 1) (kept.length + 3) (List.prefix_refl _)
      (rfl : _ = [dot, slash] ++ r) (by simp) rfl
    have hmem : (kept ++ slash :: r) ++ nul :: tail' =
        kept ++ [slash] ++ (r ++ nul :: tail') := by simp
    refine ⟨kept ++ slash :: r, _, tail', ?_, hmem ▸ hlen, .here r⟩
    simp only [sanitizeTurn, hfirst, hsecond, bind, Except.bind, pure, Except.pure, hdot,
      hslashNul, if_true, if_false]
    rw [hmem, hmove]
  | upEnd =>
    have hfirst : readChar mem (kept.length + 1) = .ok dot := h.read (Nat.zero_le _)
    have hsecond : readChar mem (kept.length + 2) = .ok dot := h.read (i := 1) (by simp)
    have hthird : readChar mem (kept.length + 3) = .ok nul := h.read (i := 2) (by simp)
    obtain ⟨tail', hcut, hlen⟩ := h.cut (by simp)
    have hmem : (kept ++ [slash]) ++ nul :: tail' = kept ++ slash :: nul :: tail' := by simp
    refine ⟨kept ++ [slash], _, tail', ?_, hmem ▸ hlen, .upEnd⟩
    simp only [sanitizeTurn, hfirst, hsecond, hthird, bind, Except.bind, pure, Except.pure,
      hdot, hdotNul, hslashNul.symm, if_true, if_false]
    rw [hmem, hcut]
  | up r =>
    have hfirst : readChar mem (kept.length + 1) = .ok dot := h.read (Nat.zero_le _)
    have hsecond : readChar mem (kept.length + 2) = .ok dot := h.read (i := 1) (by simp)
    have hthird : readChar mem (kept.length + 3) = .ok slash := h.read (i := 2) (by simp)
    have hback : slashBefore mem kept.length = slashBefore kept kept.length := by
      rw [h.memory, slashBefore_append _ _ (le_refl _)]
    have hle := slashBefore_le kept kept.length
    obtain ⟨tail', hmove, hlen⟩ := h.move (slashBefore kept kept.length + 1) (kept.length + 4)
      (List.take_prefix (slashBefore kept kept.length + 1) _) (rfl : _ = [dot, dot, slash] ++ r)
      (by simp; omega) rfl
    refine ⟨_, _, tail', ?_, ?_, .up r⟩
    · simp only [sanitizeTurn, hfirst, hsecond, hthird, bind, Except.bind, pure, Except.pure,
        hdot, hdotNul, if_true, if_false, hback]
      rw [List.append_assoc]
      exact hmove ▸ rfl
    · rw [List.append_assoc]
      exact hlen
  | plain hplain =>
    have hmem : mem = (kept ++ slash :: rest) ++ nul :: tail := by rw [h.memory]; simp
    refine ⟨kept ++ slash :: rest, _, tail, ?_, ?_, .plain hplain⟩
    · rw [sanitizeTurn_plain h hplain, ← hmem]
    · rw [← hmem]

end

/-! ### The loop -/

theorem PathTurn.size {kept rest text : Bytes} {ptr : ℕ} (h : PathTurn kept rest text ptr) :
    ptr ≤ text.length ∧ 2 * text.length - ptr < 2 * (kept.length + 1 +
      rest.length) - kept.length := by
  have hle := slashBefore_le kept kept.length
  cases h with
  | up r =>
    have hlen : ((kept ++ [slash]).take (slashBefore kept kept.length + 1)).length =
        slashBefore kept kept.length + 1 := List.length_take_of_le (by simp; omega)
    simp only [List.length_append, hlen, List.length_cons]
    omega
  | _ =>
    simp only [List.length_append, List.length_cons, List.length_nil]
    omega

theorem PathTurn.noNul {kept rest text : Bytes} {ptr : ℕ} (h : PathTurn kept rest text ptr)
    (hnul : nul ∉ kept ++ slash :: rest) : nul ∉ text := by
  simp only [List.mem_append, List.mem_cons, not_or] at hnul
  obtain ⟨hkept, hslash, hrest⟩ := hnul
  cases h with
  | up r =>
    simp only [List.mem_cons, not_or] at hrest
    intro hmem
    rcases List.mem_append.mp hmem with hmem | hmem
    · rcases List.mem_append.mp (List.mem_of_mem_take hmem) with hmem | hmem
      · exact hkept hmem
      · exact absurd hmem (by decide)
    · exact hrest.2.2.2 hmem
  | plain =>
    simp only [List.mem_append, List.mem_cons, not_or]
    exact ⟨hkept, hslash, hrest⟩
  | _ =>
    simp only [List.mem_cons, not_or] at hrest
    simp only [List.mem_append, List.mem_cons, List.not_mem_nil, not_or]
    tauto

theorem PathMemory.Holds.text {s : PathMemory} {size : ℕ} {text : Bytes} (h : s.Holds size text) :
    cString s.mem = text := by
  obtain ⟨tail, hmem⟩ := h.memory
  rw [hmem, cString_append_nul h.noNul]

theorem cut_slash {w : Bytes} (h : slash ∈ w) : ∃ rest,
    w = w.takeWhile (· ≠ slash) ++ slash :: rest := by
  induction w with
  | nil => exact absurd h (by simp)
  | cons c w ih =>
    by_cases hc : c = slash
    · exact ⟨w, by simp [hc]⟩
    · obtain ⟨rest, hrest⟩ := ih ((List.mem_cons.mp h).resolve_left (Ne.symm hc))
      refine ⟨rest, ?_⟩
      rw [List.takeWhile_cons_of_pos (by simpa using hc), List.cons_append, ← hrest]

/-- The search for a slash finds one with no other between it and the pointer, or the loop has
ended. -/
theorem PathMemory.Holds.search {s : PathMemory} {size : ℕ} {text : Bytes} (h : s.Holds size text) :
    (s.Ended ∧ slash ∉ text.drop s.ptr) ∨ ∃ kept rest tail,
      text = kept ++ slash :: rest ∧ s.ptr ≤ kept.length ∧
      slash ∉ kept.drop s.ptr ∧ AtSlash s.mem kept rest tail ∧ slashFrom s = some kept.length := by
  by_cases hmem : slash ∈ text.drop s.ptr
  · right
    obtain ⟨rest, hrest⟩ := cut_slash hmem
    generalize hseg : (text.drop s.ptr).takeWhile (· ≠ slash) = seg at hrest
    have hnone : slash ∉ seg := by
      intro hin
      rw [← hseg] at hin
      simpa using List.mem_takeWhile_imp hin
    have htext : text = (text.take s.ptr ++ seg) ++ slash :: rest := by
      rw [List.append_assoc, ← hrest, List.take_append_drop]
    have hptr : (text.take s.ptr).length = s.ptr := List.length_take_of_le h.within
    obtain ⟨tail, hmemory⟩ := h.memory
    have hnul := h.noNul
    rw [htext, List.mem_append, List.mem_cons, not_or, not_or] at hnul
    refine ⟨text.take s.ptr ++ seg, rest, tail, htext, ?_, ?_, ⟨?_, hnul.1, hnul.2.2⟩, ?_⟩
    · rw [List.length_append, hptr]
      omega
    · rw [List.drop_left' hptr]
      exact hnone
    · rw [hmemory]
      conv_lhs => rw [htext]
      simp
    · simp only [slashFrom, h.text, if_pos hmem, hseg]
      rw [List.length_append, hptr]
  · left
    refine ⟨?_, hmem⟩
    simp only [Ended, slashFrom, h.text, if_neg hmem]

/-- A round of the loop. -/
theorem sanitizeStep_holds {s : PathMemory} {size : ℕ} {text : Bytes} (h : s.Holds size text)
    (hmore : ¬ s.Ended) : ∃ kept rest text' t, text = kept ++ slash :: rest ∧ s.ptr ≤ kept.length ∧
      slash ∉ kept.drop s.ptr ∧ PathTurn kept rest text' t.ptr ∧ sanitizeStep s = .ok t ∧
        t.Holds size text' := by
  rcases h.search with ⟨hended, -⟩ | ⟨kept, rest, tail, htext, hptr, hnone, hat, hfound⟩
  · exact absurd hended hmore
  · obtain ⟨text', ptr, tail', hturn, hlen, hwhat⟩ := sanitizeTurn_spec hat
    have hnul : nul ∉ kept ++ slash :: rest := htext ▸ h.noNul
    refine ⟨kept, rest, text', ⟨text' ++ nul :: tail', ptr⟩, htext, hptr, hnone, hwhat, ?_, ?_⟩
    · rw [sanitizeStep, h.text, if_neg (Nat.not_lt.mpr h.within), hfound]
      exact hturn
    · exact ⟨hwhat.noNul hnul, hwhat.size.1, ⟨tail', rfl⟩, hlen.trans h.size⟩

theorem sanitizeStep_ended {s : PathMemory} {size : ℕ} {text : Bytes} (h : s.Holds size text)
    (hended : s.Ended) :
    sanitizeStep s = .ok s := by
  rw [sanitizeStep, h.text, if_neg (Nat.not_lt.mpr h.within), show slashFrom s = none from hended]

theorem init_holds {path : Bytes} (hnul : nul ∉ path) :
    (PathMemory.init path).Holds (path.length + 1) path :=
  ⟨hnul, Nat.zero_le _, ⟨[], rfl⟩, by simp [PathMemory.init]⟩

/-- Two rounds for every character are enough. -/
theorem sanitize_ends {s : PathMemory} {size : ℕ} {text : Bytes} (h : s.Holds size text) {n : ℕ}
    (hn : 2 * text.length - s.ptr ≤ n) :
    ∃ t, Steps.run sanitizeStep n s = .ok t ∧ (∃ text', t.Holds size text') ∧ t.Ended := by
  refine Steps.run_ends (fun s : PathMemory => ∃ text, s.Holds size text) PathMemory.Ended
    (fun s => 2 * (cString s.mem).length - s.ptr) ?_ ?_ ⟨text, h⟩ (by rwa [h.text])
  · rintro s ⟨text, h⟩ hmore
    obtain ⟨kept, rest, text', t, rfl, hptr, -, hturn, hstep, ht⟩ := sanitizeStep_holds h hmore
    refine ⟨t, hstep, ⟨text', ht⟩, ?_⟩
    have hsize := hturn.size
    simp only [h.text, ht.text, List.length_append, List.length_cons] at hsize ⊢
    omega
  · rintro s ⟨text, h⟩ hended
    exact sanitizeStep_ended h hended

/-- The loop ends, every access on the way is one of the string or of the path's memory, and that
memory stays as long as it is. -/
theorem sanitize_in_bounds (path : CString) :
    (∀ s, Steps.Reaches sanitizeStep (.init path.bytes) s →
      s.mem.length = path.bytes.length + 1 ∧ ∃ t, sanitizeStep s = .ok t) ∧
    ∃ t, Steps.run sanitizeStep (2 * path.bytes.length) (.init path.bytes) = .ok t ∧ t.Ended := by
  have hinit := init_holds path.noNul
  constructor
  · intro s hs
    have hholds : ∃ text, s.Holds (path.bytes.length + 1) text := by
      refine hs.invariant (I := fun s => ∃ text, s.Holds (path.bytes.length + 1) text) ?_ ⟨_, hinit⟩
      rintro s t ⟨text, h⟩ hstep
      by_cases hended : s.Ended
      · rw [sanitizeStep_ended h hended] at hstep
        cases hstep
        exact ⟨text, h⟩
      · obtain ⟨kept, rest, text', t', -, -, -, -, hstep', ht⟩ := sanitizeStep_holds h hended
        rw [hstep'] at hstep
        cases hstep
        exact ⟨text', ht⟩
    obtain ⟨text, h⟩ := hholds
    refine ⟨h.size, ?_⟩
    by_cases hended : s.Ended
    · exact ⟨s, sanitizeStep_ended h hended⟩
    · obtain ⟨kept, rest, text', t, -, -, -, -, hstep, -⟩ := sanitizeStep_holds h hended
      exact ⟨t, hstep⟩
  · obtain ⟨t, hrun, -, hended⟩ := sanitize_ends hinit (le_refl (2 * path.bytes.length))
    exact ⟨t, hrun, hended⟩

end ExtHttp
