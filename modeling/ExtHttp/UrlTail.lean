import ExtHttp.UrlParts

/-!
# Path, query and fragment

What `php_http_url_parse` makes of the text behind the authority.
-/
namespace ExtHttp
open Scan

variable {u : HttpUrl}

/-! ### Reading -/

theorem takesNul_append {v : Bytes} (h : ∀ c ∈ v, 128 ≤ c) (b : Bytes) :
    takesNul isHash 0 (v ++ b) = takesNul isHash 0 b := by
  have hwide : ∀ c : Byte, 128 ≤ c → isHash c = false ∧ c ≠ percent := by decide +kernel
  induction v with
  | nil => rfl
  | cons c v ih =>
    obtain ⟨hc, hp⟩ := hwide c (h c List.mem_cons_self)
    rw [List.cons_append, takesNul, hc, if_neg hp, Bool.not_false, Bool.true_and]
    exact ih fun d hd => h d (List.mem_cons_of_mem _ hd)

theorem TripleLoop.takesNul {σ : Type} {stop : Byte → Bool} {word : Word Byte Byte σ}
    (h : TripleLoop stop word) (hstop : ∀ c, isHash c = true → stop c = true) {after : Bytes}
    (hnul : ∀ s c b w n s', c ≠ percent → word s (c :: b) after = some (w, n, s') → nul ∉ w)
    {s : σ} {b : Bytes} {o : Outcome Byte Byte σ} (ho : scan stop word after s 0 b = some o)
    (hexcess : o.excess = 0) :
    ExtHttp.takesNul isHash 0 b = (decide (nul ∈ o.written) ||
      ExtHttp.takesNul isHash 0 o.rest) := by
  have hgo : ∀ c, stop c = false → isHash c = false := fun c hc =>
    Bool.eq_false_iff.mpr fun hs => by simp [hstop c hs] at hc
  revert hexcess
  refine scan_induction (motive := fun _ b o => o.excess = 0 → ExtHttp.takesNul isHash 0 b =
    (decide (nul ∈ o.written) || ExtHttp.takesNul isHash 0 o.rest)) (fun s b _ _ => by simp)
    (fun s c rest w n s' hc hw hn hexcess => ?_)
      (fun s c rest w n s' o hc hw hn ih hexcess => ?_) ho
  · dsimp only at hexcess
    omega
  · have ih := ih hexcess
    rw [ExtHttp.takesNul, hgo c hc, Bool.not_false, Bool.true_and]
    by_cases hp : c = percent
    · subst hp
      obtain ⟨x, y, -, rfl, rfl, -, hx, hy, -⟩ := h.triple_some hw
      match rest, hn with
      | x' :: y' :: rest, _ =>
        obtain rfl : x = x' := hx
        obtain rfl : y = y' := hy
        have hne : nul ≠ percent := by decide
        have ih : ExtHttp.takesNul isHash 0 rest =
          (decide (nul ∈ o.written) || ExtHttp.takesNul isHash 0 o.rest) := ih
        rw [if_pos rfl, ExtHttp.takesNul, ExtHttp.takesNul, ih]
        simp [Outcome.behind, hne, eq_comm, Bool.or_assoc]
    · obtain ⟨m, rfl, hm, hcont, -⟩ := h.other s c rest after w n s' hp hw
      have hrest := takesNul_append hcont (rest.drop m)
      rw [List.take_append_drop] at hrest
      rw [if_neg hp, hrest]
      simpa [Outcome.behind, hnul s c rest w _ s' hp hw] using ih

theorem nul_notMem_pctEncode (b : Bytes) : nul ∉ pctEncode b := fun hmem => by
  have h := pctEncode_mem hmem
  revert h
  decide

theorem nul_notMem_mbToPct {rest w : Bytes} {n : ℕ} (h : mbToPct rest = some (w, n)) : nul ∉ w := by
  obtain ⟨o, -, heq⟩ := Option.map_eq_some_iff.mp h
  cases heq
  exact nul_notMem_pctEncode _

theorem pathWord_noNul {s s' : Unit} {c : Byte} {b after w : Bytes} {n : ℕ} (hp : c ≠ percent)
    (h : pathWord s (c :: b) after = some (w, n, s')) : nul ∉ w := by
  unfold pathWord at h
  obtain ⟨heq, -⟩ := plainWord_some h
  rw [current_cons, if_neg hp] at heq
  split_ifs at heq with hc
  · cases heq
    rintro hmem
    rw [← List.mem_singleton.mp hmem] at hc
    revert hc
    decide
  · exact nul_notMem_mbToPct heq

theorem queryWord_noNul {s s' : Unit} {c : Byte} {b after w : Bytes} {n : ℕ} (hp : c ≠ percent)
    (h : queryWord s (c :: b) after = some (w, n, s')) : nul ∉ w := by
  unfold queryWord at h
  obtain ⟨heq, -⟩ := plainWord_some h
  rw [current_cons, if_neg hp] at heq
  split_ifs at heq with hu hc
  · obtain ⟨rfl, -⟩ := Prod.mk.inj (Option.some.inj heq)
    exact nul_notMem_pctEncode _
  · cases heq
    rintro hmem
    rw [← List.mem_singleton.mp hmem] at hc
    revert hc
    decide
  · exact nul_notMem_mbToPct heq

def readTail (u : HttpUrl) (tail : Bytes) : Option HttpUrl :=
  (readPath u tail [nul]).bind fun (u, rest, excess) =>
    (readQuery u rest excess [nul]).bind fun (u, rest, excess) => readFragment u rest excess [nul]

/-- Where a component is looked for, the end has not been passed. -/
theorem excess_eq_zero {rest : Bytes} {excess : ℕ} {c : Byte} (hrest : 0 < excess → rest = [])
    (h : (rest ++ [nul])[excess]? = some c) : excess = 0 ∧ current rest [nul] = c := by
  have hexcess : excess = 0 := by
    by_contra hne
    obtain ⟨n, rfl⟩ := Nat.exists_eq_succ_of_ne_zero hne
    rw [hrest (Nat.succ_pos n)] at h
    simp at h
  subst hexcess
  refine ⟨rfl, ?_⟩
  cases rest <;> simpa [current, byteAt] using h

theorem readPath_some {tail rest : Bytes} {excess : ℕ} {u' : HttpUrl}
    (h : readPath u tail [nul] = some (u', rest, excess)) :
    (current tail [nul] = nul ∧ u' = u ∧ rest = tail ∧ excess = 0) ∨
      current tail [nul] ≠ nul ∧
      ∃ o, scan isPathEnd pathWord [nul] () 0 tail = some o ∧ rest = o.rest ∧ excess = o.excess ∧
        (u' = u ∧ o.written = [] ∨ u' = { u with path := some (cString o.written) }) := by
  unfold readPath at h
  split_ifs at h with hnul
  · obtain ⟨rfl, rfl, rfl⟩ : u = u' ∧ tail = rest ∧ 0 = excess := by simpa using h
    exact .inl ⟨hnul, rfl, rfl, rfl⟩
  · obtain ⟨c, b, rfl⟩ : ∃ c b, tail = c :: b := by
      cases tail with
      | nil => exact absurd rfl hnul
      | cons c b => exact ⟨c, b, rfl⟩
    obtain ⟨o, ho, h⟩ := Option.map_eq_some_iff.mp h
    have hscan : scan isPathEnd pathWord [nul] () 0 (c :: b) = some o := ho
    refine .inr ⟨hnul, o, hscan, ?_⟩
    split_ifs at h with hlen
    · obtain ⟨rfl, rfl, rfl⟩ : u = u' ∧ c :: b = rest ∧ 0 = excess := by simpa using h
      have hrest := (rest_suffix hscan).eq_of_length hlen.1
      have hstop := rest_head hscan c (by rw [hrest]; rfl)
      rw [scan_stop hstop] at hscan
      obtain rfl := Option.some.inj hscan
      exact ⟨rfl, rfl, .inl ⟨rfl, rfl⟩⟩
    · obtain ⟨rfl, rfl, rfl⟩ :
        ({ u with path := some (cString o.written) } : HttpUrl) = u' ∧ o.rest = rest ∧
          o.excess = excess := by simpa using h
      exact ⟨rfl, rfl, .inr rfl⟩

theorem readQuery_some {rest rest' : Bytes} {excess excess' : ℕ} {u' : HttpUrl}
    (hrest : 0 < excess → rest = [])
    (h : readQuery u rest excess [nul] = some (u', rest', excess')) :
    excess = 0 ∧
      ((current rest [nul] ≠ question ∧ u' = u ∧ rest' = rest ∧ excess' = 0) ∨
      ∃ b o, rest = question :: b ∧ scan isHash queryWord [nul] () 0 b = some o ∧ rest' = o.rest ∧
        excess' = o.excess ∧ u' = { u with query := some (cString o.written) }) := by
  obtain ⟨c, hc, h⟩ := Option.bind_eq_some_iff.mp h
  obtain ⟨rfl, hcur⟩ := excess_eq_zero hrest hc
  refine ⟨rfl, ?_⟩
  split_ifs at h with hq
  · obtain ⟨rfl, rfl, rfl⟩ : u = u' ∧ rest = rest' ∧ 0 = excess' := by simpa using h
    exact .inl ⟨by rw [hcur]; exact hq, rfl, rfl, rfl⟩
  · rw [not_not] at hq
    subst hq
    cases rest with
    | nil => exact absurd hcur (by decide)
    | cons d b =>
      obtain rfl : d = question := hcur
      obtain ⟨o, ho, heq⟩ := Option.map_eq_some_iff.mp h
      cases heq
      exact .inr ⟨b, o, rfl, ho, rfl, rfl, rfl⟩

theorem readFragment_some {rest : Bytes} {excess : ℕ} {u' : HttpUrl}
    (hrest : 0 < excess → rest = []) (h : readFragment u rest excess [nul] = some u') :
    excess = 0 ∧ ((current rest [nul] ≠ hash ∧ u' = u) ∨
      ∃ b o, rest = hash :: b ∧ scan never fragmentWord [nul] () 0 b = some o ∧
        u' = { u with fragment := some (cString o.written) }) := by
  obtain ⟨c, hc, h⟩ := Option.bind_eq_some_iff.mp h
  obtain ⟨rfl, hcur⟩ := excess_eq_zero hrest hc
  refine ⟨rfl, ?_⟩
  split_ifs at h with hh
  · exact .inl ⟨by rw [hcur]; exact hh, (Option.some.inj h).symm⟩
  · rw [not_not] at hh
    subst hh
    cases rest with
    | nil => exact absurd hcur (by decide)
    | cons d b =>
      obtain rfl : d = hash := hcur
      obtain ⟨o, ho, heq⟩ := Option.map_eq_some_iff.mp h
      cases heq
      cases b with
      | nil => cases ho
      | cons c b => exact .inr ⟨c :: b, o, rfl, ho, rfl⟩

/-- What has been written of path, query and fragment, of which a NUL cuts off the rest. -/
structure TailWritten (tail path query fragment : Bytes) : Prop where
  pathText : UrlText isPathChar path
  queryText : UrlText isQueryChar query
  fragmentText : UrlText isQueryChar fragment
  noNul : tail.head? = some nul ∨ takesNul isHash 0 tail = false → nul ∉ path ∧ nul ∉ query
  slashes : path.take 2 = [slash, slash] → tail.take 2 = [slash, slash]

theorem pathWord_pos {s s' : Unit} {c : Byte} {b after w : Bytes} {n : ℕ}
    (h : pathWord s (c :: b) after = some (w, n, s')) : w ≠ [] := by
  unfold pathWord at h
  obtain ⟨heq, -⟩ := plainWord_some h
  dsimp only at heq
  split_ifs at heq
  · obtain ⟨x, y, -, rfl, -⟩ := percentWord_eq heq
    exact List.cons_ne_nil _ _
  · cases heq
    exact List.cons_ne_nil _ _
  · exact mbToPct_pos heq

theorem pathWord_slash {s s' : Unit} {c : Byte} {b after w : Bytes} {n : ℕ}
    (h : pathWord s (c :: b) after = some (w, n, s')) (hw : w.head? = some slash) :
    c = slash ∧ w = [slash] ∧ n = 1 := by
  unfold pathWord at h
  obtain ⟨heq, -⟩ := plainWord_some h
  rw [current_cons] at heq
  split_ifs at heq with hp hc
  · obtain ⟨x, y, -, rfl, -⟩ := percentWord_eq heq
    cases hw
  · cases heq
    obtain rfl : c = slash := by simpa using hw
    exact ⟨rfl, rfl, rfl⟩
  · obtain ⟨o, ho, heq⟩ := Option.map_eq_some_iff.mp heq
    obtain ⟨m, hm, -⟩ := utf8ToWc_some ho
    cases heq
    rw [hm] at hw
    cases hw

theorem path_slashes {tail : Bytes} {o : Outcome Byte Byte Unit}
    (ho : scan isPathEnd pathWord [nul] () 0 tail = some o)
    (h : o.written.take 2 = [slash, slash]) :
    tail.take 2 = [slash, slash] := by
  have hhead : ∀ {tail : Bytes} {o : Outcome Byte Byte Unit}, o.written.head? = some slash →
      scan isPathEnd pathWord [nul] () 0 tail = some o → ∃ b o', tail = slash :: b ∧
        o.written = slash :: o'.written ∧ scan isPathEnd pathWord [nul] () 0 b = some o' := by
    intro tail o hslash ho
    rcases scan_cases ho with ⟨-, rfl⟩ | ⟨c, rest, w, n, s', o', rfl, -, hw, ho', rfl⟩
    · cases hslash
    · have hpos : w.head? = some slash := by
        cases w with
        | nil => exact absurd rfl (pathWord_pos hw)
        | cons d w => exact hslash
      obtain ⟨rfl, rfl, rfl⟩ := pathWord_slash hw hpos
      exact ⟨rest, o', rfl, rfl, ho'⟩
  have hfirst : o.written.head? = some slash := by
    cases hw : o.written with
    | nil => simp [hw] at h
    | cons c w =>
      rw [hw] at h
      simp only [List.take_succ_cons, List.cons.injEq] at h
      rw [h.1]
      rfl
  obtain ⟨b, o₁, rfl, hwritten, ho₁⟩ := hhead hfirst ho
  have hsecond : o₁.written.head? = some slash := by
    rw [hwritten] at h
    cases hw : o₁.written with
    | nil => simp [hw] at h
    | cons c w =>
      rw [hw] at h
      simp only [List.take_succ_cons, List.cons.injEq] at h
      rw [h.2.1]
      rfl
  obtain ⟨b, o₂, rfl, -, -⟩ := hhead hsecond ho₁
  rfl

theorem takesNul_end {b : Bytes} (h : ∀ c ∈ b.head?, isHash c = true) :
    takesNul isHash 0 b = false := by
  cases b with
  | nil => rfl
  | cons c b => rw [takesNul, h c rfl, Bool.not_true, Bool.false_and]

theorem readFragment_text (hnone : u.fragment = none) {rest : Bytes} {excess : ℕ} {u' : HttpUrl}
    (hrest : 0 < excess → rest = []) (h : readFragment u rest excess [nul] = some u') :
    excess = 0 ∧ ∃ fragment, UrlText isQueryChar fragment ∧
      u'.fragment.getD [] = cString fragment ∧ u' = { u with fragment := u'.fragment } := by
  obtain ⟨hexcess, ⟨-, rfl⟩ | ⟨b, o, -, ho, rfl⟩⟩ := readFragment_some hrest h
  · exact ⟨hexcess, [], .nil, by rw [hnone]; rfl, rfl⟩
  · exact ⟨hexcess, o.written, copies_fragment.written ho, rfl, rfl⟩

theorem readQuery_text (hnone : u.query = none) {rest rest' : Bytes} {excess excess' : ℕ}
    {u' : HttpUrl} (hrest : 0 < excess → rest = [])
    (h : readQuery u rest excess [nul] = some (u', rest', excess')) :
    excess = 0 ∧ (0 < excess' → rest' = []) ∧ ∃ query, UrlText isQueryChar query ∧
      u'.query.getD [] = cString query ∧ u' = { u with query := u'.query } ∧
      (current rest [nul] ≠ question → query = []) ∧
      (current rest [nul] = question → excess' = 0 →
        takesNul isHash 0 rest = decide (nul ∈ query)) := by
  obtain ⟨hexcess, ⟨hcur, rfl, rfl, rfl⟩ | ⟨b, o, rfl, ho, rfl, rfl, rfl⟩⟩ := readQuery_some hrest h
  · exact ⟨hexcess, fun h => absurd h (Nat.lt_irrefl 0), [], .nil, by rw [hnone]; rfl, rfl,
      fun _ => rfl, fun h => absurd h hcur⟩
  · refine ⟨hexcess, rest_nil ho, o.written,
      (copies_query isHash fun c hc => of_decide_eq_true hc).written ho, rfl, rfl, fun h =>
        absurd rfl h, fun _ hzero => ?_⟩
    have htakes := tripleLoop_query.takesNul (fun _ h => h)
      (fun _ _ _ _ _ _ hp hw => queryWord_noNul hp hw) ho hzero
    rw [takesNul_end (rest_head ho), Bool.or_false] at htakes
    exact htakes

theorem readTail_some (hpath : u.path = none) (hquery : u.query = none)
    (hfragment : u.fragment = none) {tail : Bytes} {u' : HttpUrl} (h : readTail u tail = some u') :
    ∃ path query fragment, TailWritten tail path query fragment ∧ u'.path.getD [] = cString path ∧
      u'.query.getD [] = cString query ∧ u'.fragment.getD [] = cString fragment ∧
      u' = { u with path := u'.path, query := u'.query, fragment := u'.fragment } := by
  obtain ⟨⟨u₁, rest₁, excess₁⟩, h₁, h⟩ := Option.bind_eq_some_iff.mp h
  obtain ⟨⟨u₂, rest₂, excess₂⟩, h₂, h₃⟩ := Option.bind_eq_some_iff.mp h
  dsimp only at h₂ h₃
  rcases readPath_some h₁ with ⟨hcur, rfl, rfl, rfl⟩ | ⟨hcur, o, ho, rfl, rfl, hu⟩
  · obtain ⟨-, hrest, query, hqtext, hq, hu₂, hnoquery, -⟩ :=
      readQuery_text hquery (fun h => absurd h (Nat.lt_irrefl 0)) h₂
    obtain rfl := hnoquery (by rw [hcur]; decide)
    obtain ⟨-, fragment, hftext, hf, hu₃⟩ :=
      readFragment_text (by rw [hu₂]; exact hfragment) hrest h₃
    refine ⟨[], [], fragment, ⟨.nil, .nil, hftext, fun _ => ⟨by simp, by simp⟩, by simp⟩, ?_,
      ?_, hf, ?_⟩
    · rw [hu₃, hu₂, hpath]
      rfl
    · rw [hu₃, hq]
    · rw [hu₃, hu₂]
  · obtain ⟨hzero, hrest, query, hqtext, hq, hu₂, hnoquery, htakes⟩ :=
      readQuery_text (by rcases hu with ⟨rfl, -⟩ | rfl <;> exact hquery) (rest_nil ho) h₂
    obtain ⟨hzero', fragment, hftext, hf, hu₃⟩ :=
      readFragment_text (by rcases hu with ⟨rfl, -⟩ | rfl <;> (rw [hu₂]; exact hfragment)) hrest h₃
    refine ⟨o.written, query, fragment, ⟨copies_path.written ho, hqtext, hftext, fun hclean => ?_,
      path_slashes ho⟩, ?_, ?_, hf, ?_⟩
    · have htail := tripleLoop_path.takesNul (fun c hc => by
        rw [isPathEnd, Bool.or_eq_true]
        exact .inr hc)
        (fun _ _ _ _ _ _ hp hw => pathWord_noNul hp hw) ho hzero
      have hfalse : takesNul isHash 0 tail = false := by
        refine hclean.resolve_left fun hnul => hcur ?_
        cases tail with
        | nil => cases hnul
        | cons c tail => exact Option.some.inj hnul
      rw [hfalse, eq_comm, Bool.or_eq_false_iff, decide_eq_false_iff_not] at htail
      refine ⟨htail.1, ?_⟩
      by_cases hq : current o.rest [nul] = question
      · rw [htakes hq hzero', decide_eq_false_iff_not] at htail
        exact htail.2
      · rw [hnoquery hq]
        exact List.not_mem_nil
    · have hpath₁ : u₁.path.getD [] = cString o.written := by
        rcases hu with ⟨rfl, hw⟩ | rfl
        · rw [hpath, hw]
          rfl
        · rfl
      rw [hu₃, hu₂]
      exact hpath₁
    · rw [hu₃, hq]
    · rw [hu₃, hu₂]
      rcases hu with ⟨rfl, -⟩ | rfl <;> rfl

/-! ### Reading again -/

/-- A NUL cuts off a text within a triple. -/
theorem UrlText.cut {ok : Byte → Bool} (hok : ok nul = false) {w : Bytes} (h : UrlText ok w) :
    nul ∉ w ∨ ∃ v, UrlText ok v ∧ nul ∉ v ∧ cString w = v ++ [percent, percent] := by
  induction h with
  | nil => exact .inl List.not_mem_nil
  | @char c t hc _ ih =>
    have hne : c ≠ nul := by
      rintro rfl
      simp [hok] at hc
    refine ih.imp (fun h => by simp [h, hne.symm]) ?_
    rintro ⟨v, hv, hnul, hcut⟩
    refine ⟨c :: v, .char hc hv, by simp [hnul, hne.symm], ?_⟩
    rw [cString, List.takeWhile_cons_of_pos (by simpa using hne)]
    exact congrArg (c :: ·) hcut
  | @triple x y t hxy _ ih =>
    have hx : x ≠ nul := by
      rcases hxy with rfl | hxy
      · decide
      · rintro rfl
        exact absurd hxy.1 (by decide)
    have hp : percent ≠ nul := by decide
    by_cases hy : y = nul
    · subst hy
      have hxp : x = percent := hxy.resolve_right fun hh => absurd hh.2 (by decide)
      subst hxp
      exact .inr ⟨[], .nil, List.not_mem_nil, rfl⟩
    · refine ih.imp (fun h => by simp [h, hx.symm, Ne.symm hy, hp.symm]) ?_
      rintro ⟨v, hv, hnul, hcut⟩
      refine ⟨percent :: x :: y :: v,
        .triple hxy hv, by simp [hnul, hx.symm, Ne.symm hy, hp.symm], ?_⟩
      rw [cString, List.takeWhile_cons_of_pos (by simpa using hp),
        List.takeWhile_cons_of_pos (by simpa using hx),
        List.takeWhile_cons_of_pos (by simpa using hy)]
      exact congrArg (percent :: x :: y :: ·) hcut

def queryPart (query : Bytes) : Bytes := if query ≠ [] then question :: query else []

def fragmentPart (fragment : Bytes) : Bytes := if fragment ≠ [] then hash :: fragment else []

/-- Path, query and fragment as they are written. -/
structure TailText (path query fragment : Bytes) : Prop where
  path : UrlText isPathChar path ∧ nul ∉ path
  query : UrlText isQueryChar query ∧ nul ∉ query
  fragment : ∃ w, UrlText isQueryChar w ∧ fragment = cString w

theorem fragment_again {w : Bytes} (hw : UrlText isQueryChar w) (hpos : cString w ≠ []) :
    ∃ o, scanDo never fragmentWord [nul] () (cString w) = some o ∧
      cString o.written = cString w := by
  obtain ⟨c, b, hcb⟩ : ∃ c b, cString w = c :: b := List.exists_cons_of_ne_nil hpos
  have hdo : scanDo never fragmentWord [nul] () (cString w) =
      scan never fragmentWord [nul] () 0 (cString w) := by
    rw [hcb]
    rfl
  rw [hdo]
  rcases hw.cut (by decide) with hnul | ⟨v, hv, hnul, hcut⟩
  · rw [cString_of_noNul hnul]
    exact ⟨_, (copies_fragment.copied hw).scan [nul], cString_of_noNul hnul⟩
  · rw [hcut, copies_fragment.copied hv]
    have hlast : scan never fragmentWord [nul] () 0 [percent, percent] =
        some ⟨[percent, percent, nul], (), [], 1⟩ := by decide +kernel
    rw [hlast]
    refine ⟨_, rfl, ?_⟩
    change cString (v ++ [percent, percent, nul]) = v ++ [percent, percent]
    have hall : ∀ c ∈ v, (decide (c ≠ nul)) = true := fun c hc => decide_eq_true fun h =>
      hnul (h ▸ hc)
    rw [cString, List.takeWhile_append_of_pos hall]
    rfl

theorem readFragment_part {fragment : Bytes}
    (h : ∃ w, UrlText isQueryChar w ∧ fragment = cString w) :
    readFragment u (fragmentPart fragment) 0 [nul] =
      some { u with fragment := if fragment = [] then u.fragment else some fragment } := by
  obtain ⟨w, hw, rfl⟩ := h
  unfold fragmentPart
  by_cases hpos : cString w = []
  · rw [hpos]
    rfl
  · obtain ⟨o, ho, hcut⟩ := fragment_again hw hpos
    have hfrag : fragmentScan (hash :: cString w) 0 [nul] = some o := ho
    rw [if_pos hpos, if_neg hpos]
    simp [readFragment, hfrag, hcut]

theorem fragmentPart_head (fragment : Bytes) : ∀ c ∈ (fragmentPart fragment).head?, c = hash := by
  unfold fragmentPart
  split_ifs <;> simp

theorem readQuery_part {query rest : Bytes} (h : UrlText isQueryChar query ∧ nul ∉ query)
    (hrest : ∀ c ∈ rest.head?, c = hash) :
    readQuery u (queryPart query ++ rest) 0 [nul] =
      some ({ u with query := if query = [] then u.query else some query }, rest, 0) := by
  unfold queryPart
  by_cases hpos : query = []
  · subst hpos
    cases rest with
    | nil => rfl
    | cons c rest =>
      obtain rfl := hrest c rfl
      rfl
  · have hscan := ((copies_query isHash fun c hc => of_decide_eq_true hc).copied h.1).scan_end [nul]
      fun c hc => decide_eq_true (hrest c hc)
    rw [if_pos hpos, if_neg hpos]
    simp [readQuery, hscan, cString_of_noNul h.2]

theorem readPath_part {path rest : Bytes} (h : UrlText isPathChar path ∧ nul ∉ path)
    (hrest : ∀ c ∈ rest.head?, isPathEnd c = true) :
    readPath u (path ++ rest) [nul] =
      some ({ u with path := if path = [] then u.path else some path }, rest, 0) := by
  have hscan := (copies_path.copied h.1).scan_end [nul] hrest
  cases path with
  | nil =>
    cases rest with
    | nil => rfl
    | cons c rest =>
      have hne : c ≠ nul := by
        rintro rfl
        exact absurd (hrest nul rfl) (by decide)
      have hdo : scanDo isPathEnd pathWord [nul] () (c :: rest) =
          some ⟨[], (), c :: rest, 0⟩ := hscan
      simp [readPath, current, byteAt, hne, hdo]
  | cons c path =>
    have hne : c ≠ nul := fun hc => h.2 (hc ▸ List.mem_cons_self)
    have hdo : scanDo isPathEnd pathWord [nul] () (c :: (path ++ rest)) =
        some ⟨c :: path, (), rest, 0⟩ := hscan
    have hlen : rest.length ≠ path.length + rest.length + 1 := by omega
    simp [readPath, current, byteAt, hne, hdo, cString_of_noNul h.2, hlen]

/-- Path, query and fragment come back as they are written. -/
theorem TailText.read {path query fragment : Bytes} (h : TailText path query fragment)
    (u : HttpUrl) :
    readTail u (path ++ (queryPart query ++ fragmentPart fragment)) =
      some { u with
        path := if path = [] then u.path else some path
        query := if query = [] then u.query else some query
        fragment := if fragment = [] then u.fragment else some fragment } := by
  have hend : ∀ c ∈ (queryPart query ++ fragmentPart fragment).head?, isPathEnd c = true := by
    intro c hc
    unfold queryPart at hc
    split_ifs at hc
    · obtain rfl : question = c := by simpa using hc
      rfl
    · rw [fragmentPart_head fragment c hc]
      rfl
  unfold readTail
  rw [readPath_part h.path hend, Option.bind_some]
  dsimp only
  rw [readQuery_part h.query (fragmentPart_head fragment), Option.bind_some]
  exact readFragment_part h.fragment

end ExtHttp
