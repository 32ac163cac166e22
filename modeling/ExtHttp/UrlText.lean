import ExtHttp.UrlRead

/-!
# The text of URL components

What the parser has written of a component it copies when it reads it again.
-/
namespace ExtHttp
open Scan

/-- What may stand behind a `%`. Behind another one the source takes any character. -/
def TripleEnd (x y : Byte) : Prop :=
  x = percent ∨ isBaseDigit 16 x = true ∧ isBaseDigit 16 y = true

/-- Characters that are allowed, and triples. -/
inductive UrlText (ok : Byte → Bool) : Bytes → Prop
  | nil : UrlText ok []
  | char {c : Byte} {t : Bytes} : ok c = true → UrlText ok t → UrlText ok (c :: t)
  | triple {x y : Byte} {t : Bytes} : TripleEnd x y → UrlText ok t →
    UrlText ok (percent :: x :: y :: t)

theorem UrlText.append {ok : Byte → Bool} {v w : Bytes} (hv : UrlText ok v) (hw : UrlText ok w) :
    UrlText ok (v ++ w) := by
  induction hv with
  | nil => exact hw
  | char hc _ ih => exact .char hc ih
  | triple hxy _ ih => exact .triple hxy ih

theorem percentWord_eq {rest after w : Bytes} {n : ℕ} (h : percentWord rest after = some (w, n)) :
    ∃ x y, TripleEnd x y ∧ w = [percent, x, y] ∧ n = 3 ∧ x = byteAt (rest ++ after) 1 ∧
      y = byteAt (rest ++ after) 2 ∧ (rest.length ≤ 2 → x = percent) := by
  unfold percentWord at h
  dsimp only at h
  split_ifs at h with hbad
  cases h
  by_cases hx : byteAt (rest ++ after) 1 = percent
  · exact ⟨_, _, .inl hx, rfl, rfl, rfl, rfl, fun _ => hx⟩
  · simp only [hx, not_false_eq_true, ne_eq, true_and, not_or, Bool.not_eq_false] at hbad
    exact ⟨_, _, .inr hbad.2, rfl, rfl, rfl, rfl, fun hlen => absurd hlen hbad.1⟩

theorem percentWord_triple {x y : Byte} (h : TripleEnd x y) (b after : Bytes) :
    percentWord (percent :: x :: y :: b) after = some ([percent, x, y], 3) := by
  have hx : byteAt (percent :: x :: y :: b ++ after) 1 = x := rfl
  have hy : byteAt (percent :: x :: y :: b ++ after) 2 = y := rfl
  unfold percentWord
  dsimp only
  rw [hx, hy, if_neg]
  rintro ⟨hne, hlen | hx | hy⟩
  · simp at hlen
  · exact hne (h.resolve_right fun hh => by simp [hx] at hh)
  · exact hne (h.resolve_right fun hh => by simp [hy] at hh)

theorem xdigit_isBaseDigit (c : Byte) :
    isBaseDigit 16 (xdigit (c >>> 4)) = true ∧ isBaseDigit 16 (xdigit (c &&& 15)) = true := by
  revert c
  decide +kernel

theorem urlText_pctEncode (ok : Byte → Bool) (b : Bytes) : UrlText ok (pctEncode b) := by
  induction b with
  | nil => exact .nil
  | cons c b ih => exact .triple (.inr (xdigit_isBaseDigit c)) ih

/-- A loop that copies allowed characters and triples, and writes nothing else. -/
structure Copies (stop : Byte → Bool) (word : Word Byte Byte Unit) (ok : Byte → Bool) : Prop where
  going : stop percent = false
  char : ∀ c, ok c = true → stop c = false ∧ ∀ b after, word () (c :: b) after = some ([c], 1, ())
  triple : ∀ x y, TripleEnd x y → ∀ b after,
    word () (percent :: x :: y :: b) after = some ([percent, x, y], 3, ())
  text : ∀ rest after w n, word () rest after = some (w, n, ()) → UrlText ok w

section Copies
variable {stop : Byte → Bool} {word : Word Byte Byte Unit} {ok : Byte → Bool}

theorem Copies.copied (h : Copies stop word ok) {w : Bytes} (hw : UrlText ok w) :
    Copied stop word () w () := by
  induction hw with
  | nil => exact .nil ()
  | char hc _ ih =>
    obtain ⟨hstop, hword⟩ := h.char _ hc
    exact (Copied.one (w := []) hstop fun b after => hword b after).append ih
  | triple hxy _ ih =>
    exact (Copied.one (w := [_, _]) h.going fun b after => h.triple _ _ hxy b after).append ih

theorem Copies.written (h : Copies stop word ok) {after b : Bytes} {o : Outcome Byte Byte Unit}
    (ho : scan stop word after () 0 b = some o) : UrlText ok o.written := by
  refine scan_induction (motive := fun _ _ o => UrlText ok o.written) (fun _ _ _ => .nil)
    (fun _ c rest w n _ _ hw _ => ?_) (fun _ c rest w n _ _ _ hw _ ih => ?_) ho
  · exact h.text _ _ w n hw
  · exact (h.text _ _ w n hw).append ih

end Copies

theorem plainWord_some {σ : Type} {w : Option (Bytes × ℕ)} {s : σ} {t : Bytes × ℕ × σ}
    (h : plainWord w s = some t) : w = some (t.1, t.2.1) ∧ t.2.2 = s := by
  obtain ⟨o, rfl, rfl⟩ := Option.map_eq_some_iff.mp h
  exact ⟨rfl, rfl⟩

theorem mbToPct_text (ok : Byte → Bool) {rest w : Bytes} {n : ℕ} (h : mbToPct rest = some (w, n)) :
    UrlText ok w := by
  obtain ⟨o, -, heq⟩ := Option.map_eq_some_iff.mp h
  cases heq
  exact urlText_pctEncode ok _

theorem percentWord_text (ok : Byte → Bool) {rest after w : Bytes} {n : ℕ}
    (h : percentWord rest after = some (w, n)) : UrlText ok w := by
  obtain ⟨x, y, hxy, rfl, -⟩ := percentWord_eq h
  exact .triple hxy .nil

@[simp] theorem current_cons (c : Byte) (b after : Bytes) : current (c :: b) after = c := rfl

/-! ### The components -/

theorem copies_userinfo (stop : Byte → Bool) (hstop : ∀ c, stop c = true → c = colon) :
    Copies stop userinfoWord isUrlChar := by
  have hgo : ∀ c, c ≠ colon → stop c = false := fun c hc =>
    Bool.eq_false_iff.mpr fun hs => hc (hstop c hs)
  have hchar : ∀ c, isUrlChar c = true → c ≠ colon ∧ c ≠ percent := by
    intro c hc
    constructor <;>
    · rintro rfl
      revert hc
      decide
  have hcolon : percent ≠ colon := by decide
  refine ⟨hgo _ hcolon, fun c hc => ⟨hgo c (hchar c hc).1, fun b after => ?_⟩,
    fun x y hxy b after => ?_, fun rest after w n h => ?_⟩
  · simp [userinfoWord, hchar c hc, hc, plainWord]
  · simp [userinfoWord, hcolon, percentWord_triple hxy, plainWord]
  · unfold userinfoWord at h
    dsimp only at h
    split_ifs at h with hcolon hp hc
    · exact percentWord_text _ (plainWord_some h).1
    · obtain ⟨heq, -⟩ := plainWord_some h
      cases heq
      exact .char hc .nil
    · exact mbToPct_text _ (plainWord_some h).1

def isPathChar (c : Byte) : Bool := isUrlChar c || (ascii "/:@").contains c

def isQueryChar (c : Byte) : Bool := isUrlChar c || (ascii "/:@?").contains c

theorem copies_path : Copies isPathEnd pathWord isPathChar := by
  have hchar : ∀ c, isPathChar c = true → isPathEnd c = false ∧ c ≠ percent := by decide +kernel
  refine ⟨by decide, fun c hc => ⟨(hchar c hc).1, fun b after => ?_⟩, fun x y hxy b after => ?_,
    fun rest after w n h => ?_⟩
  · unfold pathWord
    dsimp only
    rw [current_cons, if_neg (hchar c hc).2, if_pos (by exact hc)]
    rfl
  · simp [pathWord, percentWord_triple hxy, plainWord]
  · unfold pathWord at h
    obtain ⟨heq, -⟩ := plainWord_some h
    split_ifs at heq with hp hc
    · exact percentWord_text _ heq
    · cases heq
      exact .char hc .nil
    · exact mbToPct_text _ heq

theorem copies_query (stop : Byte → Bool) (hstop : ∀ c, stop c = true → c = hash) :
    Copies stop queryWord isQueryChar := by
  have hgo : ∀ c, c ≠ hash → stop c = false := fun c hc =>
    Bool.eq_false_iff.mpr fun hs => hc (hstop c hs)
  have hchar : ∀ c, isQueryChar c = true → c ≠ hash ∧ c ≠ percent ∧ isUnsafeChar c = false := by
    clear hstop hgo
    decide +kernel
  refine ⟨hgo _ (by decide), fun c hc => ⟨hgo c (hchar c hc).1, fun b after => ?_⟩,
    fun x y hxy b after => ?_, fun rest after w n h => ?_⟩
  · obtain ⟨-, hp, hu⟩ := hchar c hc
    unfold queryWord
    dsimp only
    rw [current_cons, if_neg hp, if_neg (by simp [hu]), if_pos (by exact hc)]
    rfl
  · simp [queryWord, percentWord_triple hxy, plainWord]
  · unfold queryWord at h
    obtain ⟨heq, -⟩ := plainWord_some h
    split_ifs at heq with hp hu hc
    · exact percentWord_text _ heq
    · obtain ⟨rfl, -⟩ := Prod.mk.inj (Option.some.inj heq)
      exact urlText_pctEncode _ _
    · cases heq
      exact .char hc .nil
    · exact mbToPct_text _ heq

theorem copies_fragment : Copies never fragmentWord isQueryChar := by
  have hquery := copies_query never (by simp [never])
  refine ⟨rfl, fun c hc => ⟨rfl, fun b after => ?_⟩, fun x y hxy b after => ?_,
    fun rest after w n h => ?_⟩
  · have hne : c ≠ hash := by
      rintro rfl
      revert hc
      decide
    unfold fragmentWord
    rw [current_cons, if_neg hne]
    exact (hquery.char c hc).2 b after
  · have hne : percent ≠ hash := by decide
    unfold fragmentWord
    rw [current_cons, if_neg hne]
    exact hquery.triple x y hxy b after
  · unfold fragmentWord at h
    split_ifs at h
    exact hquery.text _ _ w n h

/-! ### Loops that copy triples -/

theorem utf8ToWc_some {c : Byte} {b : Bytes} {o : ℕ × ℕ} (h : utf8ToWc (c :: b) = some o) :
    ∃ m, o.2 = m + 1 ∧ m ≤ b.length ∧ ∀ d ∈ b.take m, 128 ≤ d := by
  have hpos : 0 < utf8MbLen c := by
    unfold utf8MbLen
    split_ifs <;> omega
  have hcont : ∀ d : Byte, d &&& 192 = 128 → 128 ≤ d := by decide +kernel
  rw [utf8ToWc] at h
  dsimp only at h
  by_cases hbad : 4 < utf8MbLen c ∨ (b.take (utf8MbLen c - 1)).length < utf8MbLen c - 1 ∨
      ∃ d ∈ b.take (utf8MbLen c - 1), d &&& 192 ≠ 128
  · rw [if_pos hbad] at h
    cases h
  · rw [if_neg hbad] at h
    obtain rfl := Option.some.inj h
    simp only [not_or, not_exists, not_and, not_not, List.length_take] at hbad
    refine ⟨utf8MbLen c - 1, by dsimp only; omega, by omega, fun d hd => ?_⟩
    exact hcont d (hbad.2.2 d hd)

/-- A word of the text `c :: b` that is not longer than it, has no ASCII character but the first,
and is written with its own bytes and triples. -/
def OwnBytes (c : Byte) (b w : Bytes) (n : ℕ) : Prop :=
  ∃ m, n = m + 1 ∧ m ≤ b.length ∧ (∀ d ∈ b.take m, 128 ≤ d) ∧
    ∀ d ∈ w, d ∈ c :: b.take m ∨ d = percent ∨ isBaseDigit 16 d = true

/-- A loop that copies triples. -/
structure TripleLoop {σ : Type} (stop : Byte → Bool) (word : Word Byte Byte σ) : Prop where
  going : stop percent = false
  triple : ∀ s b after, word s (percent :: b) after = plainWord (percentWord (percent :: b) after) s
  other : ∀ s c b after w n s', c ≠ percent → word s (c :: b) after = some (w, n, s') →
    OwnBytes c b w n

theorem pctEncode_mem {b : Bytes} {d : Byte} (h : d ∈ pctEncode b) :
    d = percent ∨ isBaseDigit 16 d = true := by
  obtain ⟨c, -, hd⟩ := List.mem_flatMap.mp h
  have hx := xdigit_isBaseDigit c
  simp only [List.mem_cons, List.not_mem_nil, or_false] at hd
  rcases hd with rfl | rfl | rfl
  · exact .inl rfl
  · exact .inr hx.1
  · exact .inr hx.2

theorem ownBytes_mb {c : Byte} {b w : Bytes} {n : ℕ} (h : mbToPct (c :: b) = some (w, n)) :
    OwnBytes c b w n := by
  obtain ⟨o, ho, heq⟩ := Option.map_eq_some_iff.mp h
  obtain ⟨m, hm, hle, hcont⟩ := utf8ToWc_some ho
  obtain ⟨rfl, rfl⟩ := Prod.mk.inj heq
  exact ⟨m, hm, hle, hcont, fun d hd => .inr (pctEncode_mem hd)⟩

theorem ownBytes_one {c : Byte} {b w : Bytes}
    (hw : ∀ d ∈ w, d = c ∨ d = percent ∨ isBaseDigit 16 d = true) : OwnBytes c b w 1 :=
  ⟨0, rfl, Nat.zero_le _, by simp, fun d hd => (hw d hd).imp_left fun h => by simp [h]⟩

theorem tripleLoop_userinfo (stop : Byte → Bool) (hstop : ∀ c, stop c = true → c = colon) :
    TripleLoop stop userinfoWord := by
  refine ⟨(copies_userinfo stop hstop).going, fun _ _ _ => rfl, fun s c b after w n s' hp h => ?_⟩
  unfold userinfoWord at h
  dsimp only at h
  rw [current_cons] at h
  split_ifs at h with hcolon hc
  · obtain ⟨heq, -⟩ := plainWord_some h
    cases heq
    exact ownBytes_one (by simp)
  · exact ownBytes_mb (plainWord_some h).1

theorem tripleLoop_host : TripleLoop isColon hostWord := by
  refine ⟨rfl, fun _ _ _ => rfl, fun s c b after w n s' hp h => ?_⟩
  unfold hostWord at h
  dsimp only at h
  rw [current_cons, if_neg hp] at h
  split_ifs at h <;> try cases h; exact ownBytes_one (by simp)
  obtain ⟨o, ho, heq⟩ := Option.map_eq_some_iff.mp h
  obtain ⟨m, hm, hle, hcont⟩ := utf8ToWc_some ho
  cases heq
  refine ⟨m, hm, hle, hcont, fun d hd => .inl ?_⟩
  rwa [hm, List.take_succ_cons] at hd

theorem tripleLoop_port : TripleLoop never portWord := by
  refine ⟨rfl, fun _ _ _ => rfl, fun s c b after w n s' hp h => ?_⟩
  unfold portWord at h
  dsimp only at h
  rw [current_cons, if_neg hp] at h
  split_ifs at h
  cases h
  exact ownBytes_one (by simp)

theorem tripleLoop_path : TripleLoop isPathEnd pathWord := by
  refine ⟨rfl, fun _ _ _ => rfl, fun s c b after w n s' hp h => ?_⟩
  unfold pathWord at h
  obtain ⟨heq, -⟩ := plainWord_some h
  rw [current_cons, if_neg hp] at heq
  split_ifs at heq
  · cases heq
    exact ownBytes_one (by simp)
  · exact ownBytes_mb heq

theorem tripleLoop_query : TripleLoop isHash queryWord := by
  refine ⟨rfl, fun _ _ _ => rfl, fun s c b after w n s' hp h => ?_⟩
  unfold queryWord at h
  obtain ⟨heq, -⟩ := plainWord_some h
  rw [current_cons, if_neg hp] at heq
  split_ifs at heq
  · obtain ⟨rfl, rfl⟩ := Prod.mk.inj (Option.some.inj heq)
    exact ownBytes_one fun d hd => .inr (pctEncode_mem hd)
  · cases heq
    exact ownBytes_one (by simp)
  · exact ownBytes_mb heq

/-! ### Triples that are not complete -/

/-- The text ends in a triple that is not complete; the first `skip` characters belong to one. -/
def danglingFrom : ℕ → Bytes → Bool
  | skip, [] => skip ≠ 0
  | skip + 1, _ :: b => danglingFrom skip b
  | 0, c :: b => danglingFrom (if c = percent then 2 else 0) b

def dangling (b : Bytes) : Bool := danglingFrom 0 b

theorem danglingFrom_drop {n : ℕ} {b : Bytes} (h : n ≤ b.length) :
    danglingFrom n b = dangling (b.drop n) := by
  induction b generalizing n with
  | nil => rw [Nat.le_zero.mp h]; rfl
  | cons c b ih =>
    cases n with
    | zero => rfl
    | succ n => exact ih (Nat.le_of_succ_le_succ h)

theorem danglingFrom_over {n : ℕ} {b : Bytes} (h : b.length < n) : danglingFrom n b = true := by
  induction b generalizing n with
  | nil => simpa [danglingFrom, Nat.pos_iff_ne_zero] using h
  | cons c b ih =>
    obtain ⟨n, rfl⟩ := Nat.exists_eq_succ_of_ne_zero (Nat.ne_zero_of_lt h)
    exact ih (Nat.lt_of_succ_lt_succ h)

theorem dangling_percent (b : Bytes) : dangling (percent :: b) = danglingFrom 2 b := rfl

theorem dangling_append {v : Bytes} (h : percent ∉ v) (b : Bytes) :
    dangling (v ++ b) = dangling b := by
  induction v with
  | nil => rfl
  | cons c v ih =>
    rw [List.mem_cons, not_or] at h
    rw [List.cons_append, dangling, danglingFrom, if_neg fun hc => h.1 hc.symm]
    exact ih h.2

namespace TripleLoop
variable {σ : Type} {stop : Byte → Bool} {word : Word Byte Byte σ} {after : Bytes}

theorem triple_some (h : TripleLoop stop word) {s s' : σ} {b w : Bytes} {n : ℕ}
    (hw : word s (percent :: b) after = some (w, n, s')) :
    ∃ x y, TripleEnd x y ∧ w = [percent, x, y] ∧ n = 3 ∧ s' = s ∧ x = byteAt (b ++ after) 0 ∧
      y = byteAt (b ++ after) 1 ∧ (b.length ≤ 1 → x = percent) := by
  rw [h.triple] at hw
  obtain ⟨hp, rfl⟩ := plainWord_some hw
  obtain ⟨x, y, hxy, hw, hn, hx, hy, hlen⟩ := percentWord_eq hp
  exact ⟨x, y, hxy, hw, hn, rfl, hx, hy, fun h => hlen (Nat.succ_le_succ h)⟩

theorem dangling (h : TripleLoop stop word) {s : σ} {b : Bytes} {o : Outcome Byte Byte σ}
    (ho : scan stop word after s 0 b = some o) :
    ExtHttp.dangling b = (decide (0 < o.excess) || ExtHttp.dangling o.rest) := by
  refine scan_induction (motive := fun _ b o =>
    ExtHttp.dangling b = (decide (0 < o.excess) || ExtHttp.dangling o.rest)) (fun s b _ => by simp)
    (fun s c rest w n s' hc hw hn => ?_) (fun s c rest w n s' o hc hw hn ih => ?_) ho
  · by_cases hp : c = percent
    · subst hp
      obtain ⟨x, y, -, -, rfl, -⟩ := h.triple_some hw
      rw [dangling_percent, danglingFrom_over hn]
      simp [Nat.sub_pos_of_lt hn]
    · obtain ⟨m, rfl, hm, -⟩ := h.other s c rest after w n s' hp hw
      omega
  · rw [Outcome.behind]
    dsimp only
    rw [← ih]
    by_cases hp : c = percent
    · subst hp
      obtain ⟨x, y, -, -, rfl, -⟩ := h.triple_some hw
      exact danglingFrom_drop hn
    · obtain ⟨m, rfl, hm, hcont, -⟩ := h.other s c rest after w n s' hp hw
      have hv : percent ∉ c :: rest.take m := by
        intro hmem
        rcases List.mem_cons.mp hmem with rfl | hmem
        · exact hp rfl
        · exact absurd (hcont _ hmem) (by decide)
      have := dangling_append hv (rest.drop m)
      rwa [List.cons_append, List.take_append_drop] at this

theorem word_mem (h : TripleLoop stop word) {s s' : σ} {c : Byte} {rest w : Bytes} {n : ℕ}
    (hw : word s (c :: rest) after = some (w, n, s')) (hn : n - 1 ≤ rest.length) :
    ∀ d ∈ w, d ∈ c :: rest ∨ d = percent ∨ isBaseDigit 16 d = true := by
  intro d hd
  by_cases hp : c = percent
  · subst hp
    obtain ⟨x, y, -, rfl, rfl, -, hx, hy, -⟩ := h.triple_some hw
    match rest, hn with
    | x' :: y' :: rest, _ =>
      obtain rfl : x = x' := hx
      obtain rfl : y = y' := hy
      left
      simp only [List.mem_cons, List.not_mem_nil, or_false] at hd ⊢
      tauto
  · obtain ⟨m, rfl, hm, -, hown⟩ := h.other s c rest after w n s' hp hw
    refine (hown d hd).imp_left fun hd => ?_
    rcases List.mem_cons.mp hd with rfl | hd
    · exact List.mem_cons_self
    · exact List.mem_cons_of_mem _ (List.mem_of_mem_take hd)

theorem mem_behind (h : TripleLoop stop word) {s s' : σ} {c : Byte} {rest v w : Bytes} {n : ℕ}
    (hw : word s (c :: rest) after = some (w, n, s')) (hn : n - 1 ≤ rest.length)
    (hv : ∀ d ∈ v, d ∈ rest.drop (n - 1) ∨ d = percent ∨ isBaseDigit 16 d = true) :
    ∀ d ∈ w ++ v, d ∈ c :: rest ∨ d = percent ∨ isBaseDigit 16 d = true := by
  intro d hd
  rcases List.mem_append.mp hd with hd | hd
  · exact h.word_mem hw hn d hd
  · exact (hv d hd).imp_left fun hd => List.mem_cons_of_mem _ (List.mem_of_mem_drop hd)

/-- Within its text a loop writes bytes of this text and triples. -/
theorem mem_written (h : TripleLoop stop word) {s : σ} {b : Bytes} {o : Outcome Byte Byte σ}
    (ho : scan stop word after s 0 b = some o) (hexcess : o.excess = 0) :
    ∀ d ∈ o.written, d ∈ b ∨ d = percent ∨ isBaseDigit 16 d = true := by
  revert hexcess
  refine scan_induction (motive := fun _ b o => o.excess = 0 → ∀ d ∈ o.written,
    d ∈ b ∨ d = percent ∨ isBaseDigit 16 d = true) (fun s b _ _ d hd => by cases hd)
    (fun s c rest w n s' hc hw hn hexcess => ?_)
      (fun s c rest w n s' o hc hw hn ih hexcess => ?_) ho
  · dsimp only at hexcess
    omega
  · exact h.mem_behind hw hn (ih hexcess)

/-- A triple that is not complete takes the first character behind the text. -/
theorem excess (h : TripleLoop stop word) {T : σ → Bytes → σ → Prop} (hnil : ∀ s, T s [] s)
    (happend : ∀ s s' s'' v w, T s v s' → T s' w s'' → T s (v ++ w) s'')
    (hword : ∀ s c b w n s', stop c = false → word s (c :: b) after = some (w, n, s') → T s w s')
    {d : Byte} (hd : d ≠ percent) (hafter : after.head? = some d) {s : σ} {b : Bytes}
    {o : Outcome Byte Byte σ} (ho : scan stop word after s 0 b = some o) (hexcess : 0 < o.excess) :
    ∃ v, o.written = v ++ [percent, percent, d] ∧ o.rest = [] ∧ o.excess = 1 ∧ T s v o.state ∧
      ∀ c ∈ v, c ∈ b ∨ c = percent ∨ isBaseDigit 16 c = true := by
  revert hexcess
  refine scan_induction (motive := fun s b o => 0 < o.excess → ∃ v, o.written = v ++
    [percent, percent, d] ∧ o.rest = [] ∧ o.excess = 1 ∧ T s v o.state ∧
      ∀ c ∈ v, c ∈ b ∨ c = percent ∨ isBaseDigit 16 c = true) (fun s b _ hexcess => ?_)
    (fun s c rest w n s' hc hw hn hexcess => ?_)
      (fun s c rest w n s' o hc hw hn ih hexcess => ?_) ho
  · exact absurd hexcess (Nat.lt_irrefl 0)
  · by_cases hp : c = percent
    · subst hp
      obtain ⟨x, y, -, rfl, rfl, rfl, hx, hy, hlen⟩ := h.triple_some hw
      obtain rfl := hlen (by omega)
      obtain ⟨after, rfl⟩ := List.head?_eq_some_iff.mp hafter
      match rest, hn with
      | [], _ => exact absurd hx.symm hd
      | [x'], _ =>
        obtain rfl : y = d := hy
        exact ⟨[], rfl, rfl, rfl, hnil _, by simp⟩
    · obtain ⟨m, rfl, hm, -⟩ := h.other s c rest after w n s' hp hw
      omega
  · obtain ⟨v, hwritten, hrest, hone, hT, hmem⟩ := ih hexcess
    refine ⟨w ++ v, ?_, hrest, hone, happend _ _ _ _ _ (hword s c rest w n s' hc hw) hT,
      h.mem_behind hw hn hmem⟩
    rw [Outcome.behind, hwritten, List.append_assoc]

end TripleLoop

/-! ### Scheme and host -/

theorem utf8ToWc_take {c : Byte} {b : Bytes} {wc m : ℕ} (h : utf8ToWc (c :: b) = some (wc, m + 1))
    (hm : m ≤ b.length) (rest : Bytes) : utf8ToWc (c :: b.take m ++ rest) = some (wc, m + 1) := by
  have hlen : utf8MbLen c = m + 1 := by
    rw [utf8ToWc] at h
    dsimp only at h
    by_cases hbad : 4 < utf8MbLen c ∨ (b.take (utf8MbLen c - 1)).length < utf8MbLen c - 1 ∨
        ∃ d ∈ b.take (utf8MbLen c - 1), d &&& 192 ≠ 128
    · rw [if_pos hbad] at h
      cases h
    · rw [if_neg hbad] at h
      exact (Prod.mk.inj (Option.some.inj h)).2
  have htake : (b.take m ++ rest).take m = b.take m := by
    rw [List.take_left' (List.length_take_of_le hm)]
  rw [← h, List.cons_append, utf8ToWc, utf8ToWc, hlen, Nat.add_sub_cancel]
  dsimp only
  rw [htake]

theorem copied_mb {σ : Type} {stop : Byte → Bool} {word : Word Byte Byte σ} {s s' : σ} {c : Byte}
    {b : Bytes} {o : ℕ × ℕ} (ho : utf8ToWc (c :: b) = some o) (hc : stop c = false)
    (hword : ∀ b after, utf8ToWc (c :: b) = some o →
      word s (c :: b) after = some ((c :: b).take o.2, o.2, s')) :
    Copied stop word s ((c :: b).take o.2) s' := by
  obtain ⟨m, hm, hle, -⟩ := utf8ToWc_some ho
  obtain ⟨wc, n⟩ := o
  obtain rfl : n = m + 1 := hm
  rw [List.take_succ_cons]
  refine Copied.one hc fun rest after => (hword _ after (utf8ToWc_take ho hle rest)).trans ?_
  rw [List.take_succ_cons, List.length_take_of_le hle]
  exact congrArg (fun v => some (c :: v, m + 1, s')) (List.take_left' (List.length_take_of_le hle))

theorem hostWord_copied {label label' : Bool} {c : Byte} {b after w : Bytes} {n : ℕ}
    (hstop : isColon c = false) (h : hostWord label (c :: b) after = some (w, n, label')) :
    Copied isColon hostWord label w label' := by
  have hone : ∀ l, (∀ b after, hostWord label (c :: b) after = some ([c], 1, l)) →
      Copied isColon hostWord label [c] l :=
    fun l hw => Copied.one (w := []) hstop hw
  unfold hostWord at h
  dsimp only at h
  rw [current_cons] at h
  split_ifs at h with hp hdot hl hhyphen hl hc
  · obtain ⟨heq, rfl⟩ := plainWord_some h
    obtain ⟨x, y, hxy, hw, -⟩ := percentWord_eq heq
    obtain rfl : w = [percent, x, y] := hw
    refine Copied.one (w := [x, y]) rfl fun b after => ?_
    exact (congrArg (plainWord · _) (percentWord_triple hxy b after)).trans rfl
  · cases h
    exact hone _ fun b after => by
      unfold hostWord
      dsimp only
      rw [current_cons, if_neg hp, if_pos hdot, if_pos hl]
  · cases h
    exact hone _ fun b after => by
      unfold hostWord
      dsimp only
      rw [current_cons, if_neg hp, if_neg hdot, if_pos hhyphen, if_pos hl]
  · cases h
    exact hone _ fun b after => by
      unfold hostWord
      dsimp only
      rw [current_cons, if_neg hp, if_neg hdot, if_neg hhyphen, if_pos hc]
  · obtain ⟨o, ho, heq⟩ := Option.map_eq_some_iff.mp h
    cases heq
    refine copied_mb ho hstop fun b after hb => ?_
    simp [hostWord, hp, hdot, hhyphen, hc, hb]

theorem schemeWord_copied {L : UrlLibs} {first first' : Bool} {c : Byte} {b after w : Bytes} {n : ℕ}
    (hstop : isColon c = false) (h : schemeWord L first (c :: b) after = some (w, n, first')) :
    Copied isColon (schemeWord L) first w first' := by
  unfold schemeWord at h
  dsimp only at h
  rw [current_cons] at h
  split_ifs at h with ha hd
  · cases h
    refine Copied.one (w := []) hstop fun b after => ?_
    change schemeWord L first (c :: b) after = some ([c], 1, false)
    unfold schemeWord
    dsimp only
    rw [current_cons, if_pos ha]
  · obtain ⟨o, ho, h⟩ := Option.bind_eq_some_iff.mp h
    split_ifs at h with hwide
    cases h
    refine copied_mb ho hstop fun b after hb => ?_
    unfold schemeWord
    dsimp only
    rw [current_cons, if_neg ha, if_neg hd, hb, Option.bind_some, if_pos hwide]

end ExtHttp
