import ExtHttp.UrlGrammar
import ExtHttp.UrlWords

/-!
# Where the scanners of an authority cut

User info and host info are cut at the first `:` that is no part of a word. What is written of the
text in front of it and of the port behind it is told from the text alone, for any flags that do not
ignore errors.
-/
namespace ExtHttp
open Scan

/-- The text in front of a `:`, as it stands and as it is written in user info, by how many bytes
its last word is longer than it, and what is behind the `:`. -/
structure UrlCut where
  raw : Bytes
  text : Bytes
  excess : ℕ
  behind : Option Bytes
  deriving DecidableEq, Repr

/-- The cut with `b` in front. -/
def UrlCut.push (encoded : Bool) (b : Bytes) (cut : UrlCut) : UrlCut :=
  { cut with raw := b ++ cut.raw, text := spelled encoded b ++ cut.text }

section
variable (S : UrlSystem) (flags : UrlFlags)

/-- The cut behind as many bytes of a word as are skipped. -/
def cutFrom : ℕ → Bool → Bytes → UrlCut
  | skip, _, [] => ⟨[], [], skip, none⟩
  | skip + 1, encoded, c :: b => (cutFrom skip encoded b).push encoded [c]
  | 0, _, c :: b =>
      if c = colon then ⟨[], [], 0, some b⟩
      else (cutFrom (wordTail S flags (c :: b)) (encodes flags c) b).push (encodes flags c) [c]

def urlCut (b : Bytes) : UrlCut := cutFrom S flags 0 false b

end

/-- The triples of a port -/
def portTriples : ℕ → Bytes → Bytes
  | _, [] => []
  | skip + 1, c :: b => c :: portTriples skip b
  | 0, c :: b => if c = percent then c :: portTriples 2 b else portTriples 0 b

/-- What is not in the triples of a port -/
def portDigits : ℕ → Bytes → Bytes
  | _, [] => []
  | skip + 1, _ :: b => portDigits skip b
  | 0, c :: b => if c = percent then portDigits 2 b else c :: portDigits 0 b

variable {S : UrlSystem} {flags : UrlFlags}

theorem spelled_append (encoded : Bool) (v w : Bytes) :
    spelled encoded (v ++ w) = spelled encoded v ++ spelled encoded w := by
  cases encoded
  · rfl
  · exact List.flatMap_append

theorem UrlCut.push_push (encoded : Bool) (v w : Bytes) (cut : UrlCut) :
    (cut.push encoded w).push encoded v = cut.push encoded (v ++ w) := by
  simp [push, spelled_append, List.append_assoc]

theorem cutFrom_drop (encoded : Bool) {n : ℕ} {b : Bytes} (h : n ≤ b.length) :
    cutFrom S flags n encoded b = (urlCut S flags (b.drop n)).push encoded (b.take n) := by
  induction n generalizing b with
  | zero =>
    have hzero : cutFrom S flags 0 encoded b = urlCut S flags b := by
      cases b <;> rfl
    rw [hzero, List.drop_zero, List.take_zero]
    cases encoded <;> rfl
  | succ n ih =>
    obtain ⟨c, b, rfl⟩ : ∃ c d, b = c :: d := List.exists_cons_of_length_pos (by omega)
    rw [cutFrom, ih (Nat.le_of_succ_le_succ h), UrlCut.push_push]
    rfl

theorem cutFrom_over (encoded : Bool) {n : ℕ} {b : Bytes} (h : b.length ≤ n) :
    cutFrom S flags n encoded b = ⟨b, spelled encoded b, n - b.length, none⟩ := by
  induction b generalizing n with
  | nil => cases n <;> cases encoded <;> rfl
  | cons c b ih =>
    cases n with
    | zero => cases h
    | succ n =>
      rw [cutFrom, ih (Nat.le_of_succ_le_succ h), UrlCut.push, ← spelled_append]
      simp

theorem urlCut_colon (b : Bytes) : urlCut S flags (colon :: b) = ⟨[], [], 0, some b⟩ := by
  rw [urlCut, cutFrom, if_pos rfl]

theorem urlCut_word {c : Byte} (h : c ≠ colon) (b : Bytes) : urlCut S flags (c :: b) =
    (cutFrom S flags (wordTail S flags (c :: b)) (encodes flags c) b).push
      (encodes flags c) [c] := by
  rw [urlCut, cutFrom, if_neg h]

/-- The text is what is in front of the cut, and what is behind it. -/
theorem urlCut_text (S : UrlSystem) (flags : UrlFlags) (b : Bytes) :
    b = (urlCut S flags b).raw ++ delimited colon (urlCut S flags b).behind := by
  have hfrom : ∀ skip encoded, b = (cutFrom S flags skip encoded b).raw ++
      delimited colon (cutFrom S flags skip encoded b).behind := by
    induction b with
    | nil => intro skip encoded; cases skip <;> rfl
    | cons c b ih =>
      intro skip encoded
      cases skip with
      | succ skip => exact congrArg (c :: ·) (ih skip encoded)
      | zero =>
        rw [cutFrom]
        split_ifs with hc
        · rw [hc]
          rfl
        · exact congrArg (c :: ·) (ih _ _)
  exact hfrom 0 false

/-! ### Loops -/

theorem whileLoop_on {σ : Type} {stop : Byte → Bool} {word : UrlWord σ} {s : σ} {b after : Bytes}
    {o : LoopEnd σ} (h : whileLoop stop word s (.on b after) = .ok o) :
    ∃ p, scan stop (fun s rest after => (word s (.on rest after)).toOption) after s 0 b = some p ∧
      o = ⟨p.written, p.state, b.length - p.rest.length + p.excess, p.rest ≠ []⟩ := by
  unfold whileLoop at h
  simp only [UrlCursor.on_left, UrlCursor.on_after, UrlCursor.on_rest] at h
  split_ifs at h with hpos
  · obtain ⟨p, hp, rfl⟩ := ok_eq_map h
    exact ⟨p, scanE_ok hp, rfl⟩
  · obtain rfl : b = [] := List.length_eq_zero_iff.mp (by omega)
    cases h
    exact ⟨⟨[], s, [], 0⟩, scan_nil .., by simp⟩

theorem doLoop_on {σ : Type} {stop : Byte → Bool} {word : UrlWord σ} (s : σ) {b : Bytes}
    (h : b ≠ []) (after : Bytes) : doLoop stop word s (.on b after) =
      whileLoop stop word s (.on b after) := by
  have hpos : 0 < (UrlCursor.on b after).left := by
    rw [UrlCursor.on_left]
    exact Int.natCast_pos.mpr (List.length_pos_iff.mpr h)
  exact if_pos hpos

theorem toOption_some {ε α : Type} {x : Except ε α} {a : α} (h : x.toOption = some a) :
    x = .ok a := by
  cases x with
  | error e => cases h
  | ok b => exact congrArg Except.ok (Option.some.inj h)

/-- What a loop does that stops at a `:` and takes the words of an authority. -/
theorem cut_of_scan {σ : Type} {stop : Byte → Bool} {word : UrlWord σ} (user : Bool)
    (hstop : ∀ c, stop c = true → c = colon)
    (hword : ∀ s s' c b after w n, stop c = false → word s (.on (c :: b) after) = .ok (w, n, s') →
      c ≠ colon ∧ n = wordTail S flags (c :: b) + 1 ∧ Overhangs c b after n ∧
        w = spelled (user && encodes flags c) ((c :: b ++ after).take n))
    {s : σ} {b after : Bytes} {p : Outcome Byte Byte σ}
    (h : scan stop (fun s rest after => (word s (.on rest after)).toOption) after s 0 b = some p) :
    p.rest = delimited colon (urlCut S flags b).behind ∧ p.excess = (urlCut S flags b).excess ∧
      (after.head? ≠ some percent → p.excess ≤ 1) ∧
      p.written = (if user then (urlCut S flags b).text else (urlCut S flags b).raw) ++
        after.take (urlCut S flags b).excess := by
  refine scan_induction (motive := fun _ b p => p.rest = delimited colon (urlCut S flags b).behind ∧
    p.excess = (urlCut S flags b).excess ∧ (after.head? ≠ some percent → p.excess ≤ 1) ∧
      p.written = (if user then (urlCut S flags b).text else (urlCut S flags b).raw) ++
        after.take (urlCut S flags b).excess) (fun s b hend => ?_)
          (fun s c rest w n s' hc hw hn => ?_)
    (fun s c rest w n s' p hc hw hn ih => ?_) h
  · rcases hend with rfl | ⟨c, hc, hs⟩
    · cases user <;> exact ⟨rfl, rfl, fun _ => Nat.zero_le 1, rfl⟩
    · obtain ⟨rest, rfl⟩ : ∃ rest, b = c :: rest := by
        cases b with
        | nil => cases hc
        | cons d rest => exact ⟨rest, by rw [Option.some.inj hc]⟩
      obtain rfl := hstop c hs
      rw [urlCut_colon]
      cases user <;> exact ⟨rfl, rfl, fun _ => Nat.zero_le 1, rfl⟩
  · obtain ⟨hcolon, rfl, hin, hw⟩ := hword s s' c rest after w n hc (toOption_some hw)
    obtain ⟨hp, hone⟩ := hin (by omega)
    have hencodes : encodes flags c = false := by simp [encodes, hp]
    have htake : (c :: rest ++ after).take (wordTail S flags (c :: rest) + 1) =
        c :: rest ++ after.take (wordTail S flags (c :: rest) - rest.length) := by
      rw [List.take_append, List.take_of_length_le (by rw [List.length_cons]; omega),
        List.length_cons]
      congr 2
      omega
    rw [urlCut_word hcolon, cutFrom_over _ (by omega), hw, htake, hencodes]
    refine ⟨rfl, by simp [UrlCut.push], fun hafter => ?_, ?_⟩
    · rw [hp, hone hafter]
      simp
    cases user <;> simp [UrlCut.push, spelled]
  · obtain ⟨hcolon, rfl, -, hw⟩ := hword s s' c rest after w n hc (toOption_some hw)
    obtain ⟨hrest, hexcess, hone, hwritten⟩ := ih
    have htake : (c :: rest ++ after).take (wordTail S flags (c :: rest) + 1) =
        c :: rest.take (wordTail S flags (c :: rest)) :=
      List.take_append_of_le_length (Nat.succ_le_succ (by omega))
    rw [urlCut_word hcolon, cutFrom_drop _ (by omega), UrlCut.push_push, hw, htake]
    refine ⟨hrest, hexcess, hone, ?_⟩
    simp only [Outcome.behind, UrlCut.push] at hwritten ⊢
    rw [Nat.add_sub_cancel] at hwritten
    rw [hwritten]
    cases user <;> simp [spelled, List.append_assoc]

theorem host_of_scan (hignore : flags.ignoreErrors = false) {b after : Bytes} {label : Bool}
    {p : Outcome Byte Byte Bool}
    (h : scan isColon (fun s rest after =>
      (UrlScanner.hostWord S flags s (.on rest after)).toOption) after label 0 b = some p) :
    p.rest = delimited colon (urlCut S flags b).behind ∧ p.excess = (urlCut S flags b).excess ∧
      (after.head? ≠ some percent → p.excess ≤ 1) ∧
      p.written = (urlCut S flags b).raw ++ after.take (urlCut S flags b).excess :=
  cut_of_scan false (fun _ => isColon_eq) (fun s s' c b after w n hc hw => by
    obtain ⟨hn, hle, hw⟩ := UrlScanner.hostWord_ok hignore hw
    refine ⟨fun he => ?_, hn, hle, hw⟩
    rw [he] at hc
    cases hc) h

theorem userinfo_of_scan (hignore : flags.ignoreErrors = false) {stop : Byte → Bool}
    (hstop : ∀ c, stop c = true → c = colon) {b after : Bytes} {p : Outcome Byte Byte Unit}
    (h : scan stop (fun s rest after =>
      (UrlScanner.userinfoWord S flags s (.on rest after)).toOption) after () 0 b = some p) :
    p.rest = delimited colon (urlCut S flags b).behind ∧ p.excess = (urlCut S flags b).excess ∧
      (after.head? ≠ some percent → p.excess ≤ 1) ∧
      p.written = (urlCut S flags b).text ++ after.take (urlCut S flags b).excess :=
  cut_of_scan true hstop (fun _ _ _ _ _ _ _ _ hw => UrlScanner.userinfoWord_ok hignore hw) h

/-! ### The port -/

theorem portTriples_drop {n : ℕ} {b : Bytes} (h : n ≤ b.length) :
    portTriples n b = b.take n ++ portTriples 0 (b.drop n) ∧
      portDigits n b = portDigits 0 (b.drop n) := by
  induction n generalizing b with
  | zero => exact ⟨rfl, rfl⟩
  | succ n ih =>
    obtain ⟨c, b, rfl⟩ : ∃ c d, b = c :: d := List.exists_cons_of_length_pos (by omega)
    obtain ⟨htriples, hdigits⟩ := ih (Nat.le_of_succ_le_succ h)
    exact ⟨congrArg (c :: ·) htriples, hdigits⟩

theorem portTriples_over {n : ℕ} {b : Bytes} (h : b.length ≤ n) :
    portTriples n b = b ∧ portDigits n b = [] := by
  induction b generalizing n with
  | nil => cases n <;> exact ⟨rfl, rfl⟩
  | cons c b ih =>
    cases n with
    | zero => cases h
    | succ n =>
      obtain ⟨htriples, hdigits⟩ := ih (Nat.le_of_succ_le_succ h)
      exact ⟨congrArg (c :: ·) htriples, hdigits⟩

theorem portTriples_percent (b : Bytes) : portTriples 0 (percent :: b) =
    percent :: portTriples 2 b ∧
    portDigits 0 (percent :: b) = portDigits 2 b := by
  rw [portTriples, portDigits, if_pos rfl, if_pos rfl]
  exact ⟨rfl, rfl⟩

theorem portTriples_char {c : Byte} (h : c ≠ percent) (b : Bytes) :
    portTriples 0 (c :: b) = portTriples 0 b ∧ portDigits 0 (c :: b) = c :: portDigits 0 b := by
  rw [portTriples, portDigits, if_neg h, if_neg h]
  exact ⟨rfl, rfl⟩

theorem portDigits_plain {b : Bytes} (h : percent ∉ b) :
    portTriples 0 b = [] ∧ portDigits 0 b = b := by
  induction b with
  | nil => exact ⟨rfl, rfl⟩
  | cons c b ih =>
    obtain ⟨htriples, hdigits⟩ := ih fun hmem => h (List.mem_cons_of_mem _ hmem)
    obtain ⟨hc, hd⟩ := portTriples_char (c := c)
      (fun he => h (by rw [he]; exact List.mem_cons_self)) b
    exact ⟨hc.trans htriples, hd.trans (congrArg (c :: ·) hdigits)⟩

/-- One more digit of a port -/
def portStep (port : ℕ) (c : Byte) : ℕ := (port * 10 + (c.toNat - 48)) % 2 ^ 16

theorem port_of_scan (hignore : flags.ignoreErrors = false) {port : ℕ} {b after : Bytes}
    {p : Outcome Byte Byte ℕ}
    (h : scan never (fun s rest after => (UrlScanner.portWord flags s (.on rest after)).toOption)
      after port 0 b = some p) :
    (∃ k, p.written = portTriples 0 b ++ after.take k) ∧
      p.state = (portDigits 0 b).foldl portStep port ∧
      ∀ c ∈ portDigits 0 b, isDigit c = true := by
  refine scan_induction (motive := fun port b p => (∃ k,
    p.written = portTriples 0 b ++ after.take k) ∧
    p.state = (portDigits 0 b).foldl portStep port ∧ ∀ c ∈ portDigits 0 b, isDigit c = true)
    (fun s b hend => ?_) (fun s c rest w n s' hc hw hn => ?_)
    (fun s c rest w n s' p hc hw hn ih => ?_) h
  · rcases hend with rfl | ⟨c, hc, hs⟩
    · exact ⟨⟨0, rfl⟩, rfl, by simp [portDigits]⟩
    · cases hs
  · rcases UrlScanner.portWord_ok hignore (toOption_some hw) with ⟨rfl, rfl, hv, -,
      rfl⟩ | ⟨-, rfl, -⟩
    · obtain ⟨htriples, hdigits⟩ := portTriples_percent rest
      obtain ⟨hall, hnone⟩ := portTriples_over (show rest.length ≤ 2 by omega)
      rw [htriples, hdigits, hall, hnone, hv]
      refine ⟨⟨3 - (rest.length + 1), ?_⟩, rfl, by simp⟩
      rw [List.take_append, List.take_of_length_le (by rw [List.length_cons]; omega),
        List.length_cons]
    · omega
  · obtain ⟨⟨k, hwritten⟩, hstate, hdig⟩ := ih
    rcases UrlScanner.portWord_ok hignore (toOption_some hw) with ⟨rfl, rfl, hv, -, rfl⟩ | ⟨hd,
      rfl, rfl, rfl⟩
    · obtain ⟨htriples, hdigits⟩ := portTriples_percent rest
      obtain ⟨hdrop, hrest⟩ := portTriples_drop hn
      rw [htriples, hdigits, hdrop, hrest]
      refine ⟨⟨k, ?_⟩, hstate, hdig⟩
      have htake : (percent :: rest ++ after).take 3 = percent :: rest.take 2 :=
        List.take_append_of_le_length (Nat.succ_le_succ hn)
      rw [Outcome.behind, hwritten, hv, htake]
      simp
    · have hne : c ≠ percent := by
        rintro rfl
        revert hd
        decide
      obtain ⟨htriples, hdigits⟩ := portTriples_char hne rest
      rw [htriples, hdigits]
      exact ⟨⟨k, hwritten⟩, hstate, List.forall_mem_cons.mpr ⟨hd, hdig⟩⟩

end ExtHttp
