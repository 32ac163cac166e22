import ExtHttp.UrlAuthority
import ExtHttp.UrlLooks

/-!
# URLs in front of other text

What stands in the memory behind a URL does not matter to the parser as long as it does not look
there.
-/
namespace ExtHttp
open Scan

namespace UrlScanner
variable {S : UrlSystem} {flags : UrlFlags} {σ : Type} {st : UrlState}

/-! ### Loops -/

theorem whileLoop_eq (stop : Byte → Bool) (word : UrlWord σ) (s : σ) (b after : Bytes) :
    whileLoop stop word s (.on b after) = (scanE stop (onText word) after s 0 b).map fun o =>
      ⟨o.written, o.state, b.length - o.rest.length + o.excess, o.rest ≠ []⟩ := by
  unfold whileLoop
  rw [UrlCursor.on_rest, UrlCursor.on_after]
  by_cases hb : b = []
  · subst hb
    rfl
  · have hpos : 0 < (UrlCursor.on b after).left := by
      have hlen := List.length_pos_iff.mpr hb
      rw [UrlCursor.on_left]
      omega
    rw [if_pos hpos]

/-- The cursor where a loop ends inside its text. -/
theorem advance_rest {stop : Byte → Bool} {word : UrlWord σ} {s : σ} {b after : Bytes}
    {o : Outcome Byte Byte σ} (h : scanE stop (onText word) after s 0 b = .ok o)
    (hexcess : o.excess = 0) (more : Bytes) :
    (UrlCursor.on b more).advance (b.length - o.rest.length + o.excess) = .on o.rest more := by
  obtain ⟨front, hfront⟩ := rest_suffix (scanE_ok h)
  have htaken : b.length - o.rest.length + o.excess = front.length := by
    have hlen := congrArg List.length hfront
    rw [List.length_append] at hlen
    omega
  rw [htaken, ← hfront, advance_part]

/-- The cursor behind the character at which a loop has stopped. -/
theorem advance_stop {stop : Byte → Bool} {word : UrlWord σ} {s : σ} {b after : Bytes}
    {o : Outcome Byte Byte σ} (h : scanE stop (onText word) after s 0 b = .ok o)
    (hstop : o.rest ≠ []) (more : Bytes) :
    (UrlCursor.on b more).advance (b.length - o.rest.length + o.excess + 1) =
      .on o.rest.tail more := by
  have hexcess : o.excess = 0 := by
    by_contra hne
    exact hstop (rest_nil (scanE_ok h) (Nat.pos_of_ne_zero hne))
  rw [← UrlCursor.advance_advance, advance_rest h hexcess more]
  obtain ⟨c, r, hr⟩ := List.exists_cons_of_ne_nil hstop
  rw [hr]
  exact UrlCursor.advance_on _ _ (by simp)

/-! ### Components in front of other characters -/

/-- There is a character behind a part, and it is no `%`. -/
structure Closed (after : Bytes) : Prop where
  ne : after ≠ []
  percent : after.head? ≠ some percent

theorem whileLoop_more {stop : Byte → Bool} {word : UrlWord σ} {ignored : σ → Bytes × ℕ × σ}
    (hword : Looks flags word ignored) {after : Bytes} (hafter : Closed after) (more : Bytes)
    (s : σ) (b : Bytes) :
    whileLoop stop word s (.on b (after ++ more)) = whileLoop stop word s (.on b after) := by
  rw [whileLoop_eq, whileLoop_eq,
    scan_more more (fun s c d => hword.more hafter.ne hafter.percent more) s 0 b]

theorem parseUserinfo_more {after : Bytes} (hafter : Closed after) (more : Bytes) {b : Bytes}
    (hb : b ≠ []) :
    parseUserinfo S flags st (.on b (after ++ more)) = parseUserinfo S flags st (.on b after) := by
  unfold parseUserinfo
  rw [doLoop_on _ hb, doLoop_on _ hb, whileLoop_more userinfoWord_looks hafter, whileLoop_eq]
  cases hscan : scanE isColon (onText (userinfoWord S flags)) after () 0 b with
  | error e => rfl
  | ok o =>
    simp only [Except.map, bind, Except.bind]
    by_cases hstop : o.rest = []
    · simp [hstop]
    · rw [advance_stop hscan hstop (after ++ more), advance_stop hscan hstop after,
        whileLoop_more userinfoWord_looks hafter]

theorem hostLoop_more {after : Bytes} (hafter : Closed after) (more : Bytes) (port : ℕ)
    (b : Bytes) :
    hostLoop S flags port (.on b (after ++ more)) = hostLoop S flags port (.on b after) := by
  unfold hostLoop
  by_cases hb : b = []
  · subst hb
    rfl
  · rw [doLoop_on _ hb, doLoop_on _ hb, whileLoop_more hostWord_looks hafter, whileLoop_eq]
    have hleft : ∀ t : Bytes, ¬ (UrlCursor.on b t).left = 0 := fun t => by simpa using hb
    rw [if_neg (hleft _), if_neg (hleft _)]
    cases hscan : scanE isColon (onText (hostWord S flags)) after false 0 b with
    | error e => rfl
    | ok o =>
      simp only [Except.map, bind, Except.bind]
      by_cases hstop : o.rest = []
      · simp [hstop]
      · rw [advance_stop hscan hstop (after ++ more), advance_stop hscan hstop after,
          whileLoop_more portWord_looks hafter]

theorem parseHostinfo_more {after : Bytes} (hafter : Closed after) (more : Bytes) {b : Bytes}
    (hb : b ≠ []) :
    parseHostinfo S flags st (.on b (after ++ more)) = parseHostinfo S flags st (.on b after) := by
  obtain ⟨c, b, rfl⟩ := List.exists_cons_of_ne_nil hb
  have hrest : ∀ (len : ℕ) (st : UrlState) (d : Bytes),
      parseHostRest S flags len st (.on d (after ++ more)) =
      parseHostRest S flags len st (.on d after) := by
    intro len st d
    unfold parseHostRest
    rw [hostLoop_more hafter]
  unfold parseHostinfo
  simp only [UrlCursor.on_read, parseIp6_on, hrest, bind, Except.bind]
  by_cases hc : c = 91
  · simp only [if_pos hc]
    cases hip : ip6Text S.libs (c :: b) with
    | none => rfl
    | some o =>
      obtain ⟨front, hfront⟩ := ip6Text_suffix hip
      simp only [Option.map_some]
      rw [hfront, advance_suffix, advance_suffix, hrest]
  · simp only [if_neg hc]

/-! ### Stages -/

/-- What a stage makes of a slice with nothing behind it, it makes of one with `more` behind it: or
it looks there. -/
def Kept (more : Bytes) (x y : Except UrlExit (UrlState × UrlCursor)) : Prop :=
  x = .error .overread ∨ (∃ e, x = .error e ∧ y = .error e) ∨ ∃ st b,
    x = .ok (st, .on b []) ∧ y = .ok (st, .on b more)

variable {more : Bytes}

theorem Kept.error (e : UrlExit) : Kept more (.error e) (.error e) := .inr (.inl ⟨e, rfl, rfl⟩)

theorem Kept.ok (st : UrlState) (b : Bytes) :
    Kept more (.ok (st, .on b [])) (.ok (st, .on b more)) :=
  .inr (.inr ⟨st, b, rfl, rfl⟩)

theorem Kept.overread (y : Except UrlExit (UrlState × UrlCursor)) :
    Kept more (.error .overread) y := .inl rfl

theorem Kept.bind {x y : Except UrlExit (UrlState × UrlCursor)} (h : Kept more x y)
    {f : UrlState × UrlCursor → Except UrlExit (UrlState × UrlCursor)}
    (hf : ∀ st b, Kept more (f (st, .on b [])) (f (st, .on b more))) :
    Kept more (x >>= f) (y >>= f) := by
  rcases h with rfl | ⟨e, rfl, rfl⟩ | ⟨st, b, rfl, rfl⟩
  · exact .overread _
  · exact .error e
  · exact hf st b

/-- The character at the cursor is one of the text, or the one behind it is looked at. -/
theorem Kept.read {b : Bytes} {f g : Byte → Except UrlExit (UrlState × UrlCursor)}
    (h : ∀ c d, b = c :: d → Kept more (f c) (g c)) :
    Kept more ((UrlCursor.on b []).read 0 >>= f) ((UrlCursor.on b more).read 0 >>= g) := by
  cases b with
  | nil => exact .overread _
  | cons c d => exact h c d rfl

theorem whileLoop_kept {stop : Byte → Bool} {word : UrlWord σ}
    (hword : ∀ s c d, InText word s c d ∨ word s (.on (c :: d) []) = .error .overread) (s : σ)
    (b : Bytes) {f g : LoopEnd σ → Except UrlExit (UrlState × UrlCursor)}
    (h : ∀ o, (∃ d, ∀ t, (UrlCursor.on b t).advance o.taken = .on d t) → Kept more (f o) (g o)) :
    Kept more (whileLoop stop word s (.on b []) >>= f)
      (whileLoop stop word s (.on b more) >>= g) := by
  rw [whileLoop_eq, whileLoop_eq]
  rcases scan_slice stop hword s 0 b (Nat.zero_le _) with hread | ⟨r, hr, hexcess⟩
  · rw [hread]
    exact .overread _
  · rw [hr, hr]
    cases r with
    | error e => exact .error e
    | ok o => exact h _ ⟨o.rest, fun t => advance_rest (hr t) (hexcess o rfl) t⟩

theorem parseScheme_kept (st : UrlState) (b : Bytes) :
    Kept more (parseScheme S flags st (.on b [])) (parseScheme S flags st (.on b more)) := by
  unfold parseScheme
  by_cases hb : b = []
  · subst hb
    exact .overread _
  · rw [doLoop_on _ hb, doLoop_on _ hb, whileLoop_eq, whileLoop_eq]
    rcases scan_slice isColon (fun s c d => .inl (schemeWord_inside s c d)) true 0 b
      (Nat.zero_le _) with
      hread | ⟨r, hr, -⟩
    · rw [hread]
      exact .overread _
    · rw [hr, hr]
      cases r with
      | error e => cases e <;> first | exact .ok st b | exact .error _
      | ok o =>
        by_cases hstop : o.rest = []
        · simp only [Except.map, hstop]
          exact .ok st b
        · have hrest : ∀ t, (UrlCursor.on b t).advance (b.length - o.rest.length + o.excess + 1) =
              .on o.rest.tail t := fun t => advance_stop (hr t) hstop t
          simp only [Except.map, ne_eq, hstop, not_false_eq_true, decide_true, hrest]
          exact .ok _ _

theorem parsePath_kept (st : UrlState) (b : Bytes) :
    Kept more (parsePath S flags st (.on b [])) (parsePath S flags st (.on b more)) := by
  refine .read fun c d hb => ?_
  have hne : b ≠ [] := hb ▸ List.cons_ne_nil c d
  split_ifs
  · exact .ok st b
  · rw [doLoop_on _ hne, doLoop_on _ hne]
    refine whileLoop_kept (pathWord_looks.slice fun _ => rfl) () b fun o ho => ?_
    obtain ⟨d, hd⟩ := ho
    split_ifs
    · exact .ok st b
    · rw [hd, hd]
      exact .ok _ _

theorem parseQuery_kept (st : UrlState) (b : Bytes) :
    Kept more (parseQuery S flags st (.on b [])) (parseQuery S flags st (.on b more)) := by
  refine .read fun c d hb => ?_
  subst hb
  split_ifs
  · exact .ok st _
  · have hnext : ∀ t, (UrlCursor.on (c :: d) t).advance 1 = .on d t :=
      fun t => UrlCursor.advance_on _ _ (by simp)
    rw [hnext, hnext]
    refine whileLoop_kept ((textWord_looks .query).slice fun _ => rfl) () d fun o ho => ?_
    obtain ⟨rest, hrest⟩ := ho
    rw [Nat.add_comm, ← UrlCursor.advance_advance, ← UrlCursor.advance_advance, hnext, hnext,
      hrest, hrest]
    exact .ok _ _

theorem parseFragment_kept (st : UrlState) (b : Bytes) :
    Kept more (parseFragment S flags st (.on b [])) (parseFragment S flags st (.on b more)) := by
  refine .read fun c d hb => ?_
  subst hb
  split_ifs
  · exact .ok st _
  · have hnext : ∀ t, (UrlCursor.on (c :: d) t).advance 1 = .on d t :=
      fun t => UrlCursor.advance_on _ _ (by simp)
    rw [hnext, hnext]
    by_cases hd : d = []
    · subst hd
      exact .overread _
    · rw [doLoop_on _ hd, doLoop_on _ hd]
      refine whileLoop_kept (fragmentWord_looks.slice fun _ => rfl) () d fun o ho => ?_
      obtain ⟨rest, hrest⟩ := ho
      rw [Nat.add_comm, ← UrlCursor.advance_advance, ← UrlCursor.advance_advance, hnext, hnext,
        hrest, hrest]
      exact .ok _ _

theorem closed_of_head {P : Byte → Bool} (hP : P percent = true) {left : Bytes} (hne : left ≠ [])
    (hleft : ∀ c ∈ left.head?, P c = false) : Closed left := by
  refine ⟨hne, ?_⟩
  intro h
  have hfalse := hleft percent h
  rw [hP] at hfalse
  cases hfalse

theorem hostinfoOf_kept {left : Bytes} (hleft : Closed left) (st : UrlState) (part : Bytes) :
    Kept more (hostinfoOf S flags st (.on (part ++ left) []) part.length >>= fun st =>
        .ok (st, (UrlCursor.on (part ++ left) []).advance part.length))
      (hostinfoOf S flags st (.on (part ++ left) more) part.length >>= fun st =>
        .ok (st, (UrlCursor.on (part ++ left) more).advance part.length)) := by
  rw [hostinfoOf_eq, hostinfoOf_eq, advance_part, advance_part]
  by_cases hpart : part = []
  · rw [if_pos hpart, if_pos hpart]
    exact .ok st left
  · rw [if_neg hpart, if_neg hpart, parseHostinfo_more hleft [] hpart,
      parseHostinfo_more hleft more hpart]
    cases parseHostinfo S flags st (.on part left) with
    | error e => exact .error e
    | ok st => exact .ok st left

theorem parseHost_kept (st : UrlState) (t : Bytes) :
    Kept more (parseHost S flags st (.on t [])) (parseHost S flags st (.on t more)) := by
  obtain ⟨part, left, rfl, hpart, hleft⟩ : ∃ part left, t = part ++ left ∧
      (∀ c ∈ part, inHost flags c = true) ∧ ∀ c ∈ left.head?, inHost flags c = false :=
    ⟨_, _, List.takeWhile_append_dropWhile.symm, fun c hc => List.mem_takeWhile_imp hc,
      dropWhile_head t⟩
  unfold parseHost
  rw [UrlCursor.on_rest, UrlCursor.on_rest, takeWhile_end hpart hleft]
  dsimp only
  rw [advance_part, advance_part]
  refine .read fun c l hl => ?_
  have hclosed : Closed left := closed_of_head rfl (hl ▸ List.cons_ne_nil c l) hleft
  split_ifs
  · exact .error _
  · have hkept := @hostinfoOf_kept S flags more left hclosed st part
    rwa [advance_part, advance_part] at hkept

theorem parseAuthority_kept (st : UrlState) (t : Bytes) :
    Kept more (parseAuthority S flags st (.on t [])) (parseAuthority S flags st (.on t more)) := by
  obtain ⟨part, left, rfl, hpart, hleft⟩ : ∃ part left, t = part ++ left ∧
      (∀ c ∈ part, inAuthority c = true) ∧ ∀ c ∈ left.head?, inAuthority c = false :=
    ⟨_, _, List.takeWhile_append_dropWhile.symm, fun c hc => List.mem_takeWhile_imp hc,
      dropWhile_head t⟩
  unfold parseAuthority
  rw [UrlCursor.on_rest, UrlCursor.on_rest, takeWhile_end hpart hleft]
  dsimp only
  rw [advance_part, advance_part]
  refine .read fun c l hl => ?_
  have hclosed : Closed left := closed_of_head rfl (hl ▸ List.cons_ne_nil c l) hleft
  by_cases hat : c = atSign
  · have huser : ∀ t, userinfoOf S flags st (.on (part ++ left) t) part.length =
        if part = [] then .ok st else parseUserinfo S flags st (.on part left) := by
      intro t
      rw [userinfoOf_eq]
      by_cases hnil : part = []
      · rw [if_pos hnil, if_pos hnil]
      · rw [if_neg hnil, if_neg hnil, parseUserinfo_more hclosed t hnil]
    have hpos : ∀ t, 0 < (UrlCursor.on left t).left := by
      intro t
      rw [UrlCursor.on_left, hl, List.length_cons]
      omega
    have hnext : ∀ t, (UrlCursor.on (part ++ left) t).advance (part.length + 1) = .on l t := by
      intro t
      rw [← UrlCursor.advance_advance, advance_part, hl]
      exact UrlCursor.advance_on _ _ (by simp)
    rw [if_pos hat, if_pos hat, huser, huser]
    cases (if part = [] then .ok st else parseUserinfo S flags st
      (.on part left) : Except UrlExit UrlState) with
    | error e => exact .error e
    | ok st₁ =>
      simp only [bind, Except.bind, if_pos (hpos _), hnext]
      exact parseHost_kept st₁ l
  · rw [if_neg hat, if_neg hat]
    have hkept := @hostinfoOf_kept S flags more left hclosed st part
    rwa [advance_part, advance_part] at hkept

theorem parseHier_kept (st : UrlState) (b : Bytes) :
    Kept more (parseHier S flags st (.on b [])) (parseHier S flags st (.on b more)) := by
  refine .read fun c d hb => ?_
  subst hb
  cases d with
  | nil =>
    have hone : ∀ t, ¬ (c = slash ∧ 1 < (UrlCursor.on [c] t).left) :=
      fun t h => absurd h.2 (by simp)
    rw [if_neg (hone _), if_neg (hone _)]
    exact parsePath_kept st [c]
  | cons e d =>
    have hread : ∀ t, (UrlCursor.on (c :: e :: d) t).read 1 = .ok e := fun t => rfl
    have hnext : ∀ t, (UrlCursor.on (c :: e :: d) t).advance 2 = .on d t :=
      fun t => UrlCursor.advance_on _ _ (by simp)
    simp only [UrlCursor.on_left, hread, hnext, bind, Except.bind]
    split_ifs
    · exact (parseAuthority_kept st d).bind parsePath_kept
    · exact parsePath_kept st _
    · exact parsePath_kept st _

theorem urlState_kept (s : Bytes) :
    Kept more (urlState S flags (.on s [])) (urlState S flags (.on s more)) :=
  (parseScheme_kept urlStart s).bind fun st b => (parseHier_kept st b).bind fun st b =>
    (parseQuery_kept st b).bind parseFragment_kept

/-- Where nothing behind the slice is looked at, what is there does not matter. -/
theorem urlParse_kept {s : Bytes} (h : urlParse S flags s [] ≠ .error .overread) (more : Bytes) :
    urlParse S flags s more = urlParse S flags s [] := by
  unfold urlParse at h ⊢
  rcases @urlState_kept S flags more s with hread | ⟨e, hx, hy⟩ | ⟨st, b, hx, hy⟩
  · rw [hread] at h
    exact absurd rfl h
  · rw [hx, hy]
  · rw [hx, hy]
    rfl

theorem urlParseAuthority_kept {s : Bytes} (h : urlParseAuthority S flags s [] ≠ .error .overread)
    (more : Bytes) :
    urlParseAuthority S flags s more = urlParseAuthority S flags s [] := by
  unfold urlParseAuthority at h ⊢
  rcases @parseAuthority_kept S flags more urlStart s with hread | ⟨e, hx, hy⟩ | ⟨st, b, hx, hy⟩
  · rw [hread] at h
    exact absurd rfl h
  · rw [hx, hy]
  · rw [hx, hy]
    rfl

end UrlScanner

end ExtHttp
