import ExtHttp.UrlTurns

/-!
# What fits into the buffer of the URL parser

Three bytes for each byte of the text, and room for the terminators: as long as a stage has text in
front of it, it writes behind the buffer only if a character is cut off. At the end of the text, or
behind it, it may come to take a character more, for which there may be no room left.
-/
namespace ExtHttp
open Scan

namespace UrlScanner

section Fits
variable {σ : Type} (S : UrlSystem) (flags : UrlFlags) (maxlen : ℕ)

/-- What `parse_mb` finds is not cut off, and there is room for what it writes and for a
terminator. -/
def CharFits (what : UrlPart) (offset : ℕ) (cur : UrlCursor) : Prop :=
  (∀ wc, mbAt S flags cur = .ok (.incomplete wc) → mbCopied S flags what wc = some false) ∧
    ∀ wc tail, mbAt S flags cur = .ok (.char wc tail) → mbCopied S flags what wc ≠ some false →
      offset + (if mbCopied S flags what wc = some true then tail + 1 else 3 * (tail + 1)) ≤ maxlen

/-- At the end of its text, or behind it, the one character that a loop takes fits if the component
does not know it. -/
def EndFits (what : UrlPart) (offset : ℕ) (stop : Byte → Bool) (cur : UrlCursor) : Prop :=
  ∀ c, cur.read 0 = .ok c → stop c = false → isPlain what c = false →
    CharFits S flags maxlen what offset cur

/-- In its text no character that a loop takes is cut off. -/
def LoopFits (what : UrlPart) (offset : ℕ) (stop : Byte → Bool) (word : UrlWord σ) (s : σ)
    (cur : UrlCursor) : Prop :=
  if 0 < cur.left then ¬ Tears S flags what stop word cur.after s cur.rest
  else EndFits S flags maxlen what offset stop cur

/-- The text of a stage fits into the buffer. -/
def StageFits (x : UrlConfig) : Prop :=
  match x.stage with
  | .scheme => LoopFits S flags maxlen .scheme x.state.offset isColon
    (schemeWord S flags) true x.cur
  | .hier => True
  | .authority =>
      let n := (x.cur.rest.takeWhile inAuthority).length
      (x.cur.advance n).read 0 = .ok atSign → n ≠ 0 →
        ¬ UserinfoTears S flags (x.cur.text.take n) (x.cur.text.drop n)
  | .host info => ∀ c ∈ info, ¬ Tears S flags .hostinfo isColon
    (hostWord S flags) c.after false c.rest
  | .path => x.cur.read 0 ≠ .ok nul →
      LoopFits S flags maxlen .path x.state.offset isPathEnd (pathWord S flags) () x.cur
  | .query => x.cur.read 0 = .ok question → 0 < x.cur.left →
      ¬ Tears S flags .query isHash (queryWord S flags) (x.cur.advance 1).after ()
        (x.cur.advance 1).rest
  | .fragment => x.cur.read 0 = .ok hash →
      LoopFits S flags maxlen .fragment x.state.offset never (fragmentWord S flags) ()
        (x.cur.advance 1)
  | .done => True

/-- How many bytes a turn writes, with `behind` bytes more if it takes a character. A copy of
`(size_t) -2` bytes has no number. -/
def turnBytes (behind : ℕ) (cur : UrlCursor) : Except UrlExit (Bytes × ℕ × σ) → Option ℕ
  | .ok o => some (o.1.length + behind)
  | .error .refused => some 0
  | .error .overread => some (beforeRead cur).length
  | .error .runaway => none

/-- There is room for `atStop` bytes, if a loop stops at once, or for the character that it takes
and `behind` bytes. -/
def TurnFits (offset atStop behind : ℕ) (stop : Byte → Bool) (word : UrlWord σ) (s : σ)
    (cur : UrlCursor) : Prop :=
  ∀ c, cur.read 0 = .ok c → if stop c then Fits maxlen offset atStop
    else ∃ n ∈ turnBytes behind cur (word s cur), Fits maxlen offset n

end Fits

end UrlScanner

/-! ### Runs that check and runs that do not -/

/-- With room for it, a run that checks its writes comes to what the run comes to that does not, and
otherwise it ends with a write behind the buffer. -/
structure Settles {α : Type} (y : Except UrlFault α) (x : Except UrlExit α) (fits : Prop) :
    Prop where
  same : fits → y = checked x
  safe : fits → x ≠ .error .runaway
  full : ¬ fits → y = .error .overrun

section Settles
variable {α β : Type} {y : Except UrlFault α} {x : Except UrlExit α} {fits : Prop}

theorem checked_overrun_iff : checked x = .error .overrun ↔ x = .error .runaway := by
  cases x with
  | ok a => simp [checked, Except.mapError]
  | error e => cases e <;> simp [checked, Except.mapError, UrlExit.fault]

theorem checked_ok {a : α} (h : checked x = .ok a) : x = .ok a := by
  cases x with
  | ok b => exact congrArg Except.ok (Except.ok.inj h)
  | error e => cases h

theorem Settles.iff (h : Settles y x fits) : y ≠ .error .overrun ↔ fits := by
  constructor
  · intro hy
    by_contra hfull
    exact hy (h.full hfull)
  · intro hfits hy
    rw [h.same hfits] at hy
    exact h.safe hfits (checked_overrun_iff.mp hy)

/-- What a run comes to that checks its writes, it comes to without. -/
theorem Settles.ok_of {a : α} (h : Settles y x fits) (hy : y = .ok a) : x = .ok a := by
  by_cases hfits : fits
  · rw [h.same hfits] at hy
    exact checked_ok hy
  · rw [h.full hfits] at hy
    cases hy

theorem Settles.of_eq (h : y = checked x) (hrun : x = .error .runaway ↔ ¬ fits) :
    Settles y x fits where
  same _ := h
  safe hfits hx := hrun.mp hx hfits
  full hfull := by rw [h, hrun.mpr hfull]; rfl

theorem Settles.ok (a : α) : Settles (.ok a) (.ok a) True where
  same _ := rfl
  safe _ h := by cases h
  full hfull := absurd trivial hfull

/-- A run that fails has written nothing, and there is room for that. -/
theorem Settles.failed {e : UrlExit} (he : e ≠ .runaway) (hfits : fits) :
    Settles (.error e.fault : Except UrlFault α) (.error e) fits where
  same _ := rfl
  safe _ h := he (Except.error.inj h)
  full hfull := absurd hfits hfull

theorem Settles.congr {fits' : Prop} (h : Settles y x fits) (hiff : fits' ↔ fits) :
    Settles y x fits' where
  same hfits := h.same (hiff.mp hfits)
  safe hfits := h.safe (hiff.mp hfits)
  full hfull := h.full fun hfits => hfull (hiff.mpr hfits)

theorem Settles.map (h : Settles y x fits) (f : α → β) : Settles (y.map f) (x.map f) fits where
  same hfits := by
    rw [h.same hfits]
    cases x <;> rfl
  safe hfits hx := h.safe hfits (error_eq_map.mp hx)
  full hfull := by rw [h.full hfull]; rfl

/-- What is done with the result needs no room, or has it. -/
theorem Settles.bind (h : Settles y x fits) {g : α → Except UrlFault β} {f : α → Except UrlExit β}
    (hgf : ∀ a, x = .ok a → Settles (g a) (f a) True) : Settles (y >>= g) (x >>= f) fits where
  same hfits := by
    rw [h.same hfits]
    cases x with
    | error e => rfl
    | ok a => exact (hgf a rfl).same trivial
  safe hfits hx := by
    rcases error_eq_bind.mp hx with hx | ⟨a, ha, hx⟩
    · exact h.safe hfits hx
    · exact (hgf a ha).safe trivial hx
  full hfull := by rw [h.full hfull]; rfl

/-- A read that comes first needs no room. -/
theorem Settles.read {cur : UrlCursor} {i : ℕ} {g : Byte → Except UrlFault β}
    {f : Byte → Except UrlExit β} (hgf : ∀ c, cur.read i = .ok c → Settles (g c) (f c) (fits))
    (hend : cur.read i = .error .overread → fits) :
    Settles (checked (cur.read i) >>= g) (cur.read i >>= f) fits := by
  cases hread : cur.read i with
  | ok c => exact hgf c hread
  | error e =>
    obtain rfl := read_overread hread
    exact .failed (e := .overread) (by decide) (hend hread)

end Settles

namespace UrlScanner
variable {σ β : Type} {S : UrlSystem} {flags : UrlFlags} {maxlen : ℕ} {st : UrlState}

theorem store_settles (st : UrlState) (w : Bytes) :
    Settles (store maxlen (stored st w) [nul]) (.ok (st.put (w ++ [nul])))
      (Fits maxlen st.offset (w.length + 1)) := by
  have hfits : Fits maxlen (stored st w).offset [nul].length ↔
      Fits maxlen st.offset (w.length + 1) := by
    rw [stored_offset, List.length_singleton, Fits, Fits]
    omega
  rw [store_eq, if_congr hfits rfl rfl]
  refine ⟨?_, ?_, fun hfull => if_neg hfull⟩
  · intro hroom
    rw [if_pos hroom]
    exact congrArg Except.ok (stored_put st w [nul])
  · intro _ h
    cases h

section Loops
variable {what : UrlPart} {stop : Byte → Bool} {word : UrlWord σ} {s : σ}
    {kIn : LoopIn σ → Except UrlFault β}
  {k : LoopEnd σ → Except UrlExit β}

/-- A loop with text in front of it. -/
theorem whileIn_settles (hword : Threefold word) (htear : Tearing S flags what word)
    {b after : Bytes} (hroom : st.offset + 3 * b.length ≤ maxlen + 1)
    (hk : ∀ o, whileLoop stop word s (.on b after) = .ok o →
      Settles (kIn ⟨o.state, stored st o.written, o.taken, o.stopped⟩) (k o) True) :
    Settles (whileIn maxlen stop word s st (.on b after) >>= kIn)
      (whileLoop stop word s (.on b after) >>= k) (¬ Tears S flags what stop word after s b) := by
  rw [whileIn_eq hword hroom]
  have hrun : whileLoop stop word s (.on b after) = .error .runaway ↔
      Tears S flags what stop word after s b :=
    whileLoop_runaway_iff htear
  cases hloop : whileLoop stop word s (.on b after) with
  | error e =>
    rw [hloop] at hrun
    refine Settles.of_eq rfl ?_
    rw [not_not, ← hrun]
    constructor
    · intro h
      cases h
      rfl
    · intro h
      cases h
      rfl
  | ok o =>
    rw [hloop] at hrun
    have hwhole : ¬ Tears S flags what stop word after s b := fun h => nomatch hrun.mpr h
    exact (hk o hloop).congr (iff_of_true hwhole trivial)

theorem turnIn_settles {cur : UrlCursor} {behind : ℕ}
    (hgo : ∀ w n s', word s cur = .ok (w, n, s') → Fits maxlen st.offset w.length →
      Settles (kIn ⟨s', stored st w, n, false⟩) (k ⟨w, s', n, false⟩)
      (Fits maxlen st.offset (w.length + behind))) :
    Settles ((turnIn maxlen word (s, st) cur).map
      (fun o => (⟨o.2.1, o.2.2, o.1, false⟩ : LoopIn σ)) >>= kIn)
      ((word s cur).map (fun o => (⟨o.1, o.2.2, o.2.1, false⟩ : LoopEnd σ)) >>= k)
      (∃ n ∈ turnBytes behind cur (word s cur), Fits maxlen st.offset n) := by
  unfold turnIn
  cases hword : word s cur with
  | ok o =>
    obtain ⟨w, n, s'⟩ := o
    have hfits : (∃ m ∈ turnBytes behind cur (Except.ok (w, n, s')), Fits maxlen st.offset m) ↔
        Fits maxlen st.offset (w.length + behind) := by simp [turnBytes]
    refine Settles.congr ?_ hfits
    by_cases hroom : Fits maxlen st.offset w.length
    · dsimp only
      rw [store_ok hroom]
      exact hgo w n s' hword hroom
    · have hfull : ¬ Fits maxlen st.offset (w.length + behind) := by
        unfold Fits at hroom ⊢
        omega
      dsimp only
      rw [store_eq, if_neg hroom]
      exact ⟨fun h => absurd h hfull, fun h => absurd h hfull, fun _ => rfl⟩
  | error e =>
    cases e with
    | refused => exact .failed (e := .refused) (by decide) ⟨0, rfl, .inl rfl⟩
    | runaway =>
      refine ⟨?_, ?_, fun _ => rfl⟩
      · rintro ⟨n, ⟨⟩, -⟩
      · rintro ⟨n, ⟨⟩, -⟩
    | overread =>
      have hfits :
          (∃ m ∈ turnBytes behind cur (Except.error .overread : Except UrlExit (Bytes × ℕ × σ)),
          Fits maxlen st.offset m) ↔ Fits maxlen st.offset (beforeRead cur).length := by
            simp [turnBytes]
      refine Settles.congr ?_ hfits
      dsimp only
      rw [store_eq]
      refine ⟨?_, ?_, ?_⟩
      · intro hroom
        rw [if_pos hroom]
        rfl
      · intro _ h
        cases h
      · intro hroom
        rw [if_neg hroom]
        rfl

/-- A loop with no text in front of it, which takes a character all the same. -/
theorem doIn_settles {cur : UrlCursor} (hend : ¬ 0 < cur.left) {atStop behind : ℕ}
    (hstop : Settles (kIn ⟨s, st, 0, true⟩) (k ⟨[], s, 0, true⟩) (Fits maxlen st.offset atStop))
    (hgo : ∀ w n s', word s cur = .ok (w, n, s') → Fits maxlen st.offset w.length →
      Settles (kIn ⟨s', stored st w, n, false⟩) (k ⟨w, s', n, false⟩)
      (Fits maxlen st.offset (w.length + behind))) :
    Settles (doIn maxlen stop word s st cur >>= kIn) (doLoop stop word s cur >>= k)
      (TurnFits maxlen st.offset atStop behind stop word s cur) := by
  unfold doIn doLoop TurnFits
  rw [if_neg hend, if_neg hend]
  cases hread : cur.read 0 with
  | error e =>
    obtain rfl := read_overread hread
    exact .failed (e := .overread) (by decide) (by simp)
  | ok c =>
    have hfits : ∀ P : Byte → Prop, (∀ d, (Except.ok c : Except UrlExit Byte) = .ok d → P d) ↔
        P c := by
      intro P
      exact ⟨fun h => h c rfl, fun h d hd => Except.ok.inj hd ▸ h⟩
    by_cases hc : stop c = true
    · refine Settles.congr ?_ ((hfits _).trans (by rw [if_pos hc]))
      simpa [checked, Except.mapError, bind, Except.bind, hc] using hstop
    · refine Settles.congr ?_ ((hfits _).trans (by rw [if_neg hc]))
      simpa [checked, Except.mapError, bind, Except.bind, hc] using turnIn_settles hgo

end Loops

/-! ### At the end of the text -/

section Ends
variable {what : UrlPart} {s : σ} {offset behind : ℕ} {cur : UrlCursor} {c : Byte}

theorem orElse_fits (hroom : offset + 3 ≤ maxlen) (hbehind : behind ≤ 1) :
    ∃ n ∈ turnBytes behind cur (ExtHttp.orElse flags ([c], 1, s)), Fits maxlen offset n := by
  unfold ExtHttp.orElse
  split_ifs
  · refine ⟨1 + behind, rfl, .inr ?_⟩
    omega
  · exact ⟨0, rfl, .inl rfl⟩

theorem mbWord_fits (hc : cur.read 0 = .ok c) (hroom : offset + 3 ≤ maxlen) (hbehind : behind ≤ 1)
    (hwhole : ∀ wc tail, mbAt S flags cur = .ok (.char wc tail) → behind = 1) :
    (∃ n ∈ turnBytes behind cur (mbWord S flags what s cur), Fits maxlen offset n) ↔
      CharFits S flags maxlen what offset cur := by
  have hother : ∃ n ∈ turnBytes behind cur (ExtHttp.orElse flags ([c], 1, s)),
      Fits maxlen offset n :=
    orElse_fits hroom hbehind
  unfold CharFits
  rw [mbWord_eq hc]
  cases hmb : mbAt S flags cur with
  | error e =>
    obtain rfl := mbAt_overread hmb
    have hbefore := beforeRead_length cur
    refine iff_of_true ⟨_, rfl, .inr ?_⟩ ⟨nofun, nofun⟩
    omega
  | ok mb =>
    cases mb with
    | invalid => exact iff_of_true hother ⟨nofun, nofun⟩
    | incomplete wc =>
      dsimp only [bind, Except.bind]
      by_cases hrefused : mbCopied S flags what wc = some false
      · rw [if_pos hrefused]
        refine iff_of_true hother ⟨?_, nofun⟩
        intro _ hwc
        cases hwc
        exact hrefused
      · rw [if_neg hrefused]
        refine iff_of_false ?_ fun h => hrefused (h.1 wc rfl)
        rintro ⟨n, ⟨⟩, -⟩
    | char wc tail =>
      dsimp only [bind, Except.bind]
      by_cases hrefused : mbCopied S flags what wc = some false
      · rw [if_pos hrefused]
        refine iff_of_true hother ⟨nofun, ?_⟩
        intro _ _ hwc
        cases hwc
        exact fun h => absurd hrefused h
      · rw [if_neg hrefused, hwhole wc tail hmb]
        have hlen := List.length_take_of_le (mbAt_le hmb)
        constructor
        · rintro ⟨n, hn, hfits⟩
          obtain rfl := Option.mem_some_iff.mp hn
          refine ⟨nofun, ?_⟩
          intro _ _ hwc _
          cases hwc
          have hle := hfits.resolve_left (Nat.succ_ne_zero _)
          dsimp only at hle
          split_ifs at hle ⊢
          · omega
          · rw [length_pctEncode] at hle
            omega
        · intro h
          have hle := h.2 wc tail rfl hrefused
          refine ⟨_, rfl, .inr ?_⟩
          dsimp only
          split_ifs at hle ⊢
          · omega
          · rw [length_pctEncode]
            omega

/-- With room for a character that is known, it is the others that matter. -/
theorem turnFits_iff {stop : Byte → Bool} {word : UrlWord σ} (hword : TurnKinds S flags what word s)
    (hroom : offset + 3 ≤ maxlen) {atStop : ℕ} (hstop : atStop ≤ 1) (hbehind : behind ≤ 1)
    (hwhole : ∀ wc tail, mbAt S flags cur = .ok (.char wc tail) → behind = 1) :
    TurnFits maxlen offset atStop behind stop word s cur ↔
      EndFits S flags maxlen what offset stop cur := by
  unfold TurnFits EndFits
  refine forall_congr' fun c => forall_congr' fun hc => ?_
  by_cases hends : stop c = true
  · rw [if_pos hends]
    refine iff_of_true (.inr (by omega)) ?_
    intro hgoes
    rw [hends] at hgoes
    cases hgoes
  · rw [if_neg hends, forall_prop_of_true (Bool.eq_false_of_not_eq_true hends)]
    cases hplain : isPlain what c with
    | false =>
      obtain ⟨s', hmb⟩ := hword.other cur c hc hplain
      rw [hmb, forall_prop_of_true rfl]
      exact mbWord_fits hc hroom hbehind hwhole
    | true =>
      obtain ⟨hrun, hshort⟩ := hword.plain cur c hc hplain
      refine iff_of_true ?_ nofun
      cases hturn : word s cur with
      | ok o =>
        have hlen := hshort o hturn
        refine ⟨_, rfl, .inr ?_⟩
        omega
      | error e =>
        cases e with
        | refused => exact ⟨0, rfl, .inl rfl⟩
        | runaway => exact absurd hturn hrun
        | overread =>
          have hbefore := beforeRead_length cur
          refine ⟨_, rfl, .inr ?_⟩
          omega

end Ends

/-! ### Stages -/

section Stages
variable {cur : UrlCursor}

/-- The room that a stage needs for the text in front of it and for `spare` bytes more. -/
def RoomFor (maxlen spare offset : ℕ) (after : Bytes) (cur : UrlCursor) : Prop :=
  0 < cur.left → ∃ t, cur = .on t after ∧ offset + 3 * t.length + spare ≤ maxlen + 1

/-- Text that is left begins with a character. -/
theorem RoomFor.cons {spare offset : ℕ} {after : Bytes} (h : RoomFor maxlen spare offset after cur)
    (hpos : 0 < cur.left) :
    ∃ c t, cur = .on (c :: t) after ∧ offset + 3 * (t.length + 1) + spare ≤ maxlen + 1 := by
  obtain ⟨t, rfl, hlen⟩ := h hpos
  have ht : t ≠ [] := by
    rintro rfl
    exact absurd hpos (lt_irrefl 0)
  obtain ⟨c, t, rfl⟩ := List.exists_cons_of_ne_nil ht
  exact ⟨c, t, rfl, hlen⟩

theorem RoomFor.left_le {spare offset : ℕ} {after : Bytes}
    (h : RoomFor maxlen spare offset after cur) (hread : cur.read 0 = .error .overread) :
    ¬ 0 < cur.left := by
  intro hpos
  obtain ⟨c, t, rfl, -⟩ := h.cons hpos
  cases hread

/-- Where there is no character, none is taken. -/
theorem endFits_of_overread {what : UrlPart} {offset : ℕ} {stop : Byte → Bool}
    (hread : cur.read 0 = .error .overread) : EndFits S flags maxlen what offset stop cur := by
  intro c hc
  rw [hread] at hc
  cases hc

theorem pathWord_takes {s s' : Unit} {w : Bytes} {n : ℕ}
    (h : pathWord S flags s cur = .ok (w, n, s')) : n ≠ 0 := by
  obtain ⟨c, hc, h⟩ := ok_eq_bind h
  split_ifs at h
  · obtain ⟨o, -, h⟩ := ok_eq_bind h
    cases o with
    | some v =>
      cases h
      decide
    | none =>
      rw [orElse_ok h]
      exact Nat.one_ne_zero
  · cases h
    decide
  · exact mbWord_takes hc h

theorem text_settles (st : UrlState) {w : Bytes} (hroom : st.offset + w.length ≤ maxlen) :
    Settles (store maxlen (stored st w) [nul]) (.ok (st.put (w ++ [nul]))) True :=
  (store_settles st w).congr (iff_of_true trivial (.inr (Nat.succ_le_succ hroom)))

theorem parsePath_settles {after : Bytes} (hroom : RoomFor maxlen 1 st.offset after cur)
    (hspare : st.offset + 3 ≤ maxlen) :
    Settles (parsePathIn S flags maxlen st cur) (parsePath S flags st cur) (cur.read 0 ≠ .ok nul →
      LoopFits S flags maxlen .path st.offset isPathEnd (pathWord S flags) () cur) := by
  unfold parsePathIn parsePath LoopFits
  apply Settles.read
  · intro c hc
    by_cases hnul : c = nul
    · rw [if_pos hnul, if_pos hnul]
      exact (Settles.ok _).congr (iff_of_true (fun h => absurd (hnul ▸ hc) h) trivial)
    · have hne : cur.read 0 ≠ .ok nul := fun h => hnul (Except.ok.inj (hc.symm.trans h))
      rw [if_neg hnul, if_neg hnul]
      refine Settles.congr ?_ (forall_prop_of_true hne)
      by_cases hpos : 0 < cur.left
      · obtain ⟨t, rfl, hlen⟩ := hroom hpos
        rw [if_pos hpos, doIn, if_pos hpos, doLoop, if_pos hpos, UrlCursor.on_after,
          UrlCursor.on_rest]
        apply whileIn_settles pathWord_threefold pathWord_tearing
        · exact (Nat.le_add_right _ 1).trans hlen
        · intro o ho
          have hwritten := (whileLoop_threefold pathWord_threefold ho).1
          dsimp only
          by_cases htaken : o.taken = 0
          · rw [if_pos htaken, if_pos htaken]
            exact .ok _
          · rw [if_neg htaken, if_neg htaken]
            exact (text_settles { st with path := some st.offset }
              (by dsimp only; omega)).bind fun _ _ => .ok _
      · rw [if_neg hpos]
        refine Settles.congr ?_ (turnFits_iff pathWord_kinds hspare
          (Nat.zero_le 1) le_rfl fun _ _ _ => rfl).symm
        apply doIn_settles hpos
        · exact (Settles.ok _).congr (iff_of_true (.inl rfl) trivial)
        · intro w n s' hw _
          have hn : ¬ n = 0 := pathWord_takes hw
          dsimp only
          rw [if_neg hn, if_neg hn]
          exact (store_settles { st with path := some st.offset } w).bind fun _ _ => .ok _
  · intro hread _
    rw [if_neg (hroom.left_le hread)]
    exact endFits_of_overread hread

theorem parseQuery_settles {after : Bytes} (hroom : RoomFor maxlen 0 st.offset after cur)
    (hspare : st.offset ≤ maxlen) :
    Settles (parseQueryIn S flags maxlen st cur) (parseQuery S flags st cur)
      (cur.read 0 = .ok question → 0 < cur.left →
      ¬ Tears S flags .query isHash (queryWord S flags) (cur.advance 1).after ()
        (cur.advance 1).rest) := by
  unfold parseQueryIn parseQuery
  apply Settles.read
  · intro c hc
    by_cases hquestion : c = question
    · subst hquestion
      rw [if_neg (not_not.mpr rfl), if_neg (not_not.mpr rfl)]
      refine Settles.congr ?_ (forall_prop_of_true hc)
      by_cases hpos : 0 < cur.left
      · obtain ⟨d, t, rfl, hlen⟩ := hroom.cons hpos
        have hnext : (UrlCursor.on (d :: t) after).advance 1 = .on t after :=
          advance_next (UrlCursor.advance_zero _)
        rw [forall_prop_of_true hpos, hnext, UrlCursor.on_after, UrlCursor.on_rest]
        apply whileIn_settles (textWord_threefold .query) queryWord_tearing
        · dsimp only
          omega
        · intro o ho
          have hwritten := (whileLoop_threefold (textWord_threefold .query) ho).1
          exact (text_settles { st with query := some st.offset }
            (by dsimp only; omega)).bind fun _ _ => .ok _
      · have hend : ¬ 0 < (cur.advance 1).left := by
          change ¬ 0 < cur.left - (1 : ℕ)
          omega
        rw [whileIn_end hend, whileLoop_end hend]
        refine Settles.congr ?_ (iff_of_true (fun h => absurd h hpos) trivial)
        have hnul : st.offset + ([] : Bytes).length ≤ maxlen := hspare
        exact (text_settles { st with query := some st.offset } hnul).bind fun _ _ => .ok _
    · rw [if_pos hquestion, if_pos hquestion]
      exact (Settles.ok _).congr (iff_of_true
        (fun h => absurd (Except.ok.inj (hc.symm.trans h)) hquestion) trivial)
  · intro hread h
    rw [hread] at h
    cases h

theorem parseFragment_settles {after : Bytes} (hroom : RoomFor maxlen 0 st.offset after cur)
    (hspare : st.offset + 3 ≤ maxlen) :
    Settles (parseFragmentIn S flags maxlen st cur) (parseFragment S flags st cur)
      (cur.read 0 = .ok hash →
      LoopFits S flags maxlen .fragment st.offset never (fragmentWord S flags) ()
        (cur.advance 1)) := by
  unfold parseFragmentIn parseFragment LoopFits
  apply Settles.read
  · intro c hc
    by_cases hhash : c = hash
    · subst hhash
      rw [if_neg (not_not.mpr rfl), if_neg (not_not.mpr rfl)]
      refine Settles.congr ?_ (forall_prop_of_true hc)
      by_cases hpos : 0 < (cur.advance 1).left
      · have hleft : 0 < cur.left := by
          change 0 < cur.left - (1 : ℕ) at hpos
          omega
        obtain ⟨d, t, rfl, hlen⟩ := hroom.cons hleft
        have hnext : (UrlCursor.on (d :: t) after).advance 1 = .on t after :=
          advance_next (UrlCursor.advance_zero _)
        rw [if_pos hpos, doIn, if_pos hpos, doLoop, if_pos hpos, hnext, UrlCursor.on_after,
          UrlCursor.on_rest]
        apply whileIn_settles fragmentWord_threefold fragmentWord_tearing
        · dsimp only
          omega
        · intro o ho
          have hwritten := (whileLoop_threefold fragmentWord_threefold ho).1
          exact (text_settles { st with fragment := some st.offset }
            (by dsimp only; omega)).bind fun _ _ => .ok _
      · rw [if_neg hpos]
        refine Settles.congr ?_ (turnFits_iff fragmentWord_kinds hspare le_rfl le_rfl fun _ _ _ =>
          rfl).symm
        apply doIn_settles hpos
        · exact (store_settles { st with fragment := some st.offset } []).bind fun _ _ => .ok _
        · intro w n s' _ _
          exact (store_settles { st with fragment := some st.offset } w).bind fun _ _ => .ok _
    · rw [if_pos hhash, if_pos hhash]
      exact (Settles.ok _).congr (iff_of_true
        (fun h => absurd (Except.ok.inj (hc.symm.trans h)) hhash) trivial)
  · intro hread h
    rw [hread] at h
    cases h

/-- A scheme that is refused is none. -/
theorem parseScheme_eq (st : UrlState) (cur : UrlCursor) : checked (parseScheme S flags st cur) =
    softfail (st, cur) (checked (doLoop isColon (schemeWord S flags) true cur >>= fun scheme =>
      if scheme.stopped then
        .ok ({ st.put (scheme.written ++ [nul]) with scheme := some 0 },
          cur.advance (scheme.taken + 1))
      else .ok (st, cur))) := by
  unfold parseScheme
  cases doLoop isColon (schemeWord S flags) true cur with
  | ok o =>
    obtain ⟨w, first, n, stopped⟩ := o
    cases stopped <;> rfl
  | error e => cases e <;> rfl

theorem Settles.softfail {α : Type} {y : Except UrlFault α} {x x' : Except UrlExit α} {fits : Prop}
    (h : Settles y x fits) {a : α} (hx' : checked x' = UrlScanner.softfail a (checked x)) :
    Settles (UrlScanner.softfail a y) x' fits where
  same hfits := by rw [h.same hfits, hx']
  safe hfits hrun := by
    have hnot := h.safe hfits
    rw [hrun] at hx'
    cases x with
    | ok b => cases hx'
    | error e =>
      cases e with
      | runaway => exact hnot rfl
      | refused => cases hx'
      | overread => cases hx'
  full hfull := by rw [h.full hfull]; rfl

theorem parseScheme_settles {t after : Bytes} (hroom : st.offset + 3 * t.length ≤ maxlen)
    (hspare : st.offset + 3 ≤ maxlen) :
    Settles (parseSchemeIn S flags maxlen st (.on t after)) (parseScheme S flags st (.on t after))
      (LoopFits S flags maxlen .scheme st.offset isColon (schemeWord S flags) true
        (.on t after)) := by
  refine Settles.softfail ?_ (parseScheme_eq st _)
  have hstop : ∀ (w : Bytes) (n : ℕ), st.offset + w.length ≤ maxlen →
      Settles (store maxlen (stored st w) [nul] >>= fun st =>
          .ok ({ st with scheme := some 0 }, (UrlCursor.on t after).advance (n + 1)))
        (.ok ({ st.put (w ++ [nul]) with scheme := some 0 },
          (UrlCursor.on t after).advance (n + 1))) True :=
    fun w n hw => (text_settles st hw).bind fun _ _ => .ok _
  unfold LoopFits
  by_cases hpos : 0 < (UrlCursor.on t after).left
  · rw [if_pos hpos, doIn, if_pos hpos, doLoop, if_pos hpos, UrlCursor.on_after, UrlCursor.on_rest]
    apply whileIn_settles schemeWord_threefold schemeWord_tearing
    · omega
    · intro o ho
      have hwritten := (whileLoop_threefold schemeWord_threefold ho).1
      dsimp only
      by_cases hstopped : o.stopped = true
      · rw [if_pos hstopped, if_pos hstopped]
        exact hstop o.written o.taken (by omega)
      · rw [if_neg hstopped, if_neg hstopped]
        exact .ok _
  · have hend : (UrlCursor.on t after).left = 0 := by
      rw [UrlCursor.on_left] at hpos ⊢
      omega
    rw [if_neg hpos]
    refine Settles.congr ?_ (turnFits_iff schemeWord_kinds hspare le_rfl (Nat.zero_le 1)
      fun wc tail h => absurd h (mbAt_end hend wc tail)).symm
    apply doIn_settles hpos
    · exact (hstop [] 0 ((Nat.le_add_right _ _).trans hroom)).congr
        (iff_of_true (.inr (by omega)) trivial)
    · intro w n first _ hfits
      exact (Settles.ok _).congr (iff_of_true hfits trivial)

/-- A component that is a text, with its terminator. -/
theorem component_eq {σ : Type} {stop : Byte → Bool} {word : UrlWord σ} {s : σ}
    (hword : Threefold word) {b after : Bytes} (hroom : st.offset + 3 * b.length ≤ maxlen) :
    (whileIn maxlen stop word s st (.on b after) >>= fun o => store maxlen o.buffer [nul]) =
      checked (whileLoop stop word s (.on b after) >>= fun o =>
        .ok (st.put (o.written ++ [nul]))) := by
  rw [whileIn_eq hword (by omega)]
  cases hloop : whileLoop stop word s (.on b after) with
  | error e => rfl
  | ok o =>
    have hwritten := (whileLoop_threefold hword hloop).1
    exact store_nul (by omega)

/-- The user info of an authority: what is cut off there is all that does not fit. -/
theorem parseUserinfo_settles {b behind : Bytes} (hb : b ≠ [])
    (hroom : st.offset + 3 * b.length ≤ maxlen) :
    Settles (parseUserinfoIn S flags maxlen st (.on b behind))
      (parseUserinfo S flags st (.on b behind)) (¬ UserinfoTears S flags b behind) := by
  apply Settles.of_eq
  · unfold parseUserinfoIn parseUserinfo
    rw [doIn_eq userinfoWord_threefold hb (by dsimp only; omega), doLoop_on _ hb]
    cases hloop : whileLoop isColon (userinfoWord S flags) () (.on b behind) with
    | error e => rfl
    | ok user =>
      obtain ⟨hwritten, -, hstop⟩ := whileLoop_threefold userinfoWord_threefold hloop
      have hnul : store maxlen (stored { st with user := some st.offset } user.written) [nul] =
          .ok _ :=
        store_nul (by dsimp only; omega)
      change store maxlen (stored _ user.written) [nul] >>= _ = _
      rw [hnul]
      by_cases hstopped : user.stopped = true
      · obtain ⟨c, p, hcur, -, hlen⟩ := hstop hstopped
        have hnext := advance_next hcur
        have hoffset : ({ st with user := some st.offset }.put (user.written ++ [nul])).offset =
            st.offset + (user.written.length + 1) := by
          simp [UrlState.put]
        dsimp only [bind, Except.bind]
        rw [if_pos hstopped, if_pos hstopped, hnext]
        exact component_eq userinfoWord_threefold (by rw [hoffset]; omega)
      · dsimp only [bind, Except.bind]
        rw [if_neg hstopped, if_neg hstopped]
        rfl
  · rw [not_not]
    exact parseUserinfo_runaway_iff hb

/-- Without an IDN library the name of a host is what has been written, with its terminator. -/
theorem parseHostRest_name (hidn : flags.toidn = false) (hhost : st.host = none) (len : ℕ) :
    parseHostRest S flags len st cur = (hostLoop S flags st.port cur).map fun o =>
      { st.put (o.1 ++ [nul]) with host := some len, port := o.2 } := by
  unfold parseHostRest
  cases hostLoop S flags st.port cur with
  | error e => rfl
  | ok o =>
    obtain ⟨w, port⟩ := o
    have hput : (st.put w).host = none := hhost
    simp only [bind, Except.bind, hput, hidn, Bool.false_eq_true, if_false, Except.map, ← put_put]
    rfl

theorem hostEndIn_eq (hidn : flags.toidn = false) (hhost : st.host = none) (len : ℕ) {w : Bytes}
    (port : ℕ) (hroom : st.offset + w.length ≤ maxlen) :
    hostEndIn S flags maxlen len { stored st w with port := port } =
      .ok { st.put (w ++ [nul]) with host := some len, port := port } := by
  have hnone : (stored st w).host = none := (stored_host st w).trans hhost
  have hfits : Fits maxlen (stored st w).offset [nul].length := by
    rw [stored_offset, List.length_singleton, Fits]
    omega
  unfold hostEndIn
  simp only [hnone, hidn, Bool.false_eq_true, if_false]
  rw [store_eq, if_pos hfits, ← stored_put st w [nul]]
  rfl

/-- The loop of `parse_hostinfo` in front of a text. -/
theorem hostLoopIn_eq {b behind : Bytes} (hb : b ≠ []) (hroom : st.offset + 3 * b.length ≤ maxlen) :
    hostLoopIn S flags maxlen st (.on b behind) =
      (checked (hostLoop S flags st.port (.on b behind))).map fun o =>
        { stored st o.1 with port := o.2 } := by
  have hleft : ¬ (UrlCursor.on b behind).left = 0 := by simpa using hb
  unfold hostLoopIn hostLoop
  rw [if_neg hleft, if_neg hleft, doIn_eq hostWord_threefold hb (by omega), doLoop_on _ hb]
  cases hloop : whileLoop isColon (hostWord S flags) false (.on b behind) with
  | error e => rfl
  | ok host =>
    obtain ⟨-, -, hstop⟩ := whileLoop_threefold hostWord_threefold hloop
    by_cases hstopped : host.stopped = true
    · obtain ⟨c, p, hcur, -, hlen⟩ := hstop hstopped
      have hnext := advance_next hcur
      dsimp only [bind, Except.bind, checked, Except.mapError, Except.map]
      rw [if_pos hstopped, if_pos hstopped, hnext,
        whileIn_eq portWord_threefold (by rw [stored_offset]; omega)]
      cases whileLoop never (portWord flags) st.port (.on p behind) with
      | error e => rfl
      | ok port =>
        dsimp only [bind, Except.bind, checked, Except.mapError, Except.map]
        rw [stored_append]
    · dsimp only [bind, Except.bind, checked, Except.mapError, Except.map]
      rw [if_neg hstopped, if_neg hstopped]
      dsimp only
      rw [← stored_port st host.written]

theorem hostLoop_length {port : ℕ} {b behind : Bytes} (hb : b ≠ []) {o : Bytes × ℕ}
    (h : hostLoop S flags port (.on b behind) = .ok o) : o.1.length ≤ 3 * b.length := by
  have hleft : ¬ (UrlCursor.on b behind).left = 0 := by simpa using hb
  unfold hostLoop at h
  rw [if_neg hleft, doLoop_on _ hb] at h
  obtain ⟨host, hloop, h⟩ := ok_eq_bind h
  obtain ⟨hwritten, -, hstop⟩ := whileLoop_threefold hostWord_threefold hloop
  by_cases hstopped : host.stopped = true
  · obtain ⟨c, p, hcur, -, hlen⟩ := hstop hstopped
    have hnext := advance_next hcur
    rw [if_pos hstopped, hnext] at h
    obtain ⟨port', hport, h⟩ := ok_eq_bind h
    cases h
    have hportlen := (whileLoop_threefold portWord_threefold hport).1
    rw [List.length_append]
    omega
  · rw [if_neg hstopped] at h
    cases h
    exact hwritten

theorem parseHostinfo_name (hidn : flags.toidn = false) (hhost : st.host = none)
    (hname : cur.text.head? ≠ some 91) :
    parseHostinfo S flags st cur = cur.read 0 >>= fun _ =>
      (hostLoop S flags st.port cur).map fun o =>
      { st.put (o.1 ++ [nul]) with host := some st.offset, port := o.2 } := by
  unfold parseHostinfo
  cases hread : cur.read 0 with
  | error e => rfl
  | ok c =>
    have hc : ¬ c = 91 := fun h => hname (h ▸ read_ok_iff.mp hread)
    dsimp only [bind, Except.bind]
    rw [if_neg hc, parseHostRest_name hidn hhost]

theorem parseHostinfo_settles (hidn : flags.toidn = false) (hhost : st.host = none)
    {b behind : Bytes} (hb : b ≠ []) (hname : b.head? ≠ some 91)
    (hroom : st.offset + 3 * b.length ≤ maxlen) :
    Settles (parseHostinfoIn S flags maxlen st (.on b behind))
      (parseHostinfo S flags st (.on b behind))
      (¬ Tears S flags .hostinfo isColon (hostWord S flags) behind false b) := by
  obtain ⟨c, d, rfl⟩ := List.exists_cons_of_ne_nil hb
  have hc : ¬ c = 91 := fun h => hname (congrArg some h)
  apply Settles.of_eq
  · unfold parseHostinfoIn parseHostinfo
    rw [UrlCursor.on_read, hostLoopIn_eq hb hroom, parseHostRest_name hidn hhost]
    simp only [checked, Except.mapError, bind, Except.bind, if_neg hc]
    cases hloop : hostLoop S flags st.port (.on (c :: d) behind) with
    | error e => rfl
    | ok o =>
      have hwritten := hostLoop_length hb hloop
      exact hostEndIn_eq hidn hhost st.offset o.2 (by omega)
  · unfold parseHostinfo
    rw [UrlCursor.on_read, not_not]
    simp only [bind, Except.bind, if_neg hc]
    exact parseHostRest_runaway_iff

end Stages

end UrlScanner

end ExtHttp
