import ExtHttp.LinkedChain
import ExtHttp.MessageWrite

/-!
# Chains of messages

Messages that are linked by their `parent`, and what `php_http_message_reverse`,
`php_http_message_zip` and `php_http_message_serialize` do to the links.
-/
namespace ExtHttp
open LinkedChain

/-- Messages in memory: the link of each of them, and what is written of it. -/
structure MessageHeap (α : Type) where
  parent : α → Option α
  message : α → OutgoingMessage

section
variable {α : Type} [DecidableEq α]

/-- The loop of `php_http_message_count`. -/
def countLoop (parent : α → Option α) : ℕ → α → ℕ → Option ℕ
  | 0, _, _ => none
  | fuel + 1, m, c =>
      match parent m with
      | none => some c
      | some m => countLoop parent fuel m (c + 1)

/-- `php_http_message_count` -/
def messageCount (fuel : ℕ) (parent : α → Option α) (m : α) : Option ℕ := countLoop parent fuel m 1

/-- The first loop of `php_http_message_reverse`; there is nothing behind a null pointer. -/
def collect (parent : α → Option α) : ℕ → Option α → Option (List α)
  | 0, _ => some []
  | _ + 1, none => none
  | n + 1, some tmp => (collect parent n (parent tmp)).map (tmp :: ·)

/-- `php_http_message_reverse`: the message that is first then, and the links. -/
def messageReverse (fuel : ℕ) (parent : α → Option α) (msg : α) : Option (α × (α → Option α)) :=
  (messageCount fuel parent msg).bind fun c =>
    if 1 < c then
      (collect parent c (some msg)).bind fun arr =>
        match arr with
        | [] => none
        | first :: rest => some (rest.getLastD first,
          relink (Function.update parent first none) first rest)
    else some (msg, parent)

/-- The loop of `php_http_message_zip`. -/
def zipLoop : ℕ → (α → Option α) → Option α → Option α → Option (α → Option α)
  | 0, _, _, _ => none
  | fuel + 1, parent, some dst, some src =>
      let linked := Function.update parent dst (some src)
      zipLoop fuel (if (parent dst).isSome then Function.update linked src (parent dst) else linked)
        (parent dst) (parent src)
  | _ + 1, parent, _, _ => some parent

/-- `php_http_message_zip`, which returns `dst`. -/
def messageZip (fuel : ℕ) (parent : α → Option α) (dst src : Option α) :
    Option (Option α × (α → Option α)) :=
  (zipLoop fuel parent dst src).map fun parent => (dst, parent)

/-- What is left of a message that has been written: its headers are the updated ones. -/
def OutgoingMessage.written (out : OutgoingMessage) : OutgoingMessage :=
  { out with message := { out.message with hdrs := updateHeaders out } }

/-- The loop of `php_http_message_serialize`. -/
def serializeLoop : ℕ → MessageHeap α → α → Bytes → Option (Bytes × MessageHeap α)
  | 0, _, _, _ => none
  | fuel + 1, heap, message, str =>
      let out := heap.message message
      let str := messageToCallback out (fun str buf => (true, str ++ buf)) str ++ crlf
      let heap := { heap with message := Function.update heap.message message out.written }
      match heap.parent message with
      | none => some (str, heap)
      | some parent => serializeLoop fuel heap parent str

/-- `php_http_message_serialize` -/
def messageSerialize (fuel : ℕ) (heap : MessageHeap α) (message : α) :
    Option (Bytes × MessageHeap α) :=
  (messageReverse fuel heap.parent message).bind fun first =>
    (serializeLoop fuel { heap with parent := first.2 } first.1 []).bind fun written =>
      (messageReverse fuel written.2.parent first.1).map fun last =>
        (written.1, { written.2 with parent := last.2 })

end

section
variable {α : Type} {parent : α → Option α} {first : Option α} {m : α} {l : List α} {fuel : ℕ}

theorem countLoop_spec (h : Linked parent (some m) (m :: l)) (hfuel : l.length < fuel) (c : ℕ) :
    countLoop parent fuel m c = some (c + l.length) := by
  induction l generalizing m c fuel with
  | nil =>
    obtain ⟨fuel, rfl⟩ := Nat.exists_eq_succ_of_ne_zero (Nat.ne_of_gt hfuel)
    have hend : parent m = none := h.2
    rw [countLoop, hend]
    rfl
  | cons n l ih =>
    obtain ⟨fuel, rfl⟩ := Nat.exists_eq_succ_of_ne_zero (Nat.ne_of_gt (Nat.zero_lt_of_lt hfuel))
    have hnext : parent m = some n := h.2.1
    rw [countLoop, hnext]
    dsimp only
    rw [ih ⟨rfl, h.2.2⟩ (by simpa using hfuel), List.length_cons]
    congr 1
    omega

theorem collect_spec (h : Linked parent first l) : collect parent l.length first = some l := by
  induction l generalizing first with
  | nil => rfl
  | cons m l ih =>
    rw [h.1, List.length_cons, collect, ih h.2]
    rfl

end

section
variable {α : Type} [DecidableEq α] {parent : α → Option α} {dst src : Option α} {m : α}
    {l k : List α}
  {fuel : ℕ}

/-- The links of a chain are turned round, and no other link is changed. -/
theorem messageReverse_spec (h : Linked parent (some m) l) (hfuel : l.length ≤ fuel) :
    ∃ last parent', messageReverse fuel parent m = some (last, parent') ∧
      Linked parent' (some last) l.reverse ∧
      ∀ n ∉ l, parent' n = parent n := by
  cases l with
  | nil => cases h
  | cons n l =>
    obtain rfl : m = n := Option.some.inj h.1
    have hcount : messageCount fuel parent m = some (1 + l.length) :=
      countLoop_spec h (by simpa using hfuel) 1
    obtain ⟨hm, hnodup⟩ := List.nodup_cons.mp h.nodup
    rw [messageReverse, hcount, Option.bind_some]
    cases l with
    | nil => exact ⟨m, parent, rfl, h, fun _ _ => rfl⟩
    | cons n l =>
      have hall := collect_spec h
      rw [List.length_cons, Nat.add_comm] at hall
      rw [if_pos (by simp), hall]
      have hfirst : Linked (Function.update parent m none) (some m) [m] := by
        rw [linked_cons, Function.update_self]
        exact ⟨rfl, rfl⟩
      obtain ⟨hchain, hframe⟩ := relink_spec hfirst (List.singleton_disjoint.mpr hm) hnodup
      refine ⟨_, _, rfl, ?_, fun k hk => ?_⟩
      · rw [List.reverse_cons]
        exact hchain
      · rw [List.mem_cons, not_or] at hk
        rw [hframe k hk.2, Function.update_of_ne hk.1]

/-- Two chains become one, by turns, and no other link is changed. Where `dst` is empty, `src` is
the chain. -/
theorem zipLoop_spec (hdst : Linked parent dst l) (hsrc : Linked parent src k)
    (hdisjoint : l.Disjoint k) (hfuel : l.length < fuel) :
    ∃ parent', zipLoop fuel parent dst src = some parent' ∧
      Linked parent' (dst.or src) (interleave l k) ∧
      ∀ n, n ∉ l → n ∉ k → parent' n = parent n := by
  induction l generalizing parent dst src k fuel with
  | nil =>
    obtain ⟨fuel, rfl⟩ := Nat.exists_eq_succ_of_ne_zero (Nat.ne_of_gt hfuel)
    have hnone : dst = none := hdst
    subst hnone
    exact ⟨parent, rfl, hsrc, fun _ _ _ => rfl⟩
  | cons d l ih =>
    obtain ⟨fuel, rfl⟩ := Nat.exists_eq_succ_of_ne_zero (Nat.ne_of_gt (Nat.zero_lt_of_lt hfuel))
    obtain ⟨rfl, hrest⟩ := hdst
    cases k with
    | nil =>
      have hnone : src = none := hsrc
      subst hnone
      exact ⟨parent, rfl, ⟨rfl, hrest⟩, fun _ _ _ => rfl⟩
    | cons s k =>
      have hwhole : Linked parent (some d) (d :: l) := ⟨rfl, hrest⟩
      have hdnodup := hwhole.nodup
      have hsnodup := hsrc.nodup
      obtain ⟨rfl, hsrest⟩ := hsrc
      rw [List.nodup_cons] at hdnodup hsnodup
      simp only [List.disjoint_cons_left, List.disjoint_cons_right, List.mem_cons,
        not_or] at hdisjoint
      obtain ⟨⟨hds, hsl⟩, hdk, hdisjoint⟩ := hdisjoint
      -- the links after both writes, where the second is made only if there is more of `dst`
      let linked := Function.update parent d (some s)
      let both := if (parent d).isSome then Function.update linked s (parent d) else linked
      have hother : ∀ n, n ≠ d → n ≠ s → both n = parent n := by
        intro n hnd hns
        simp only [both, linked]
        split_ifs
        · rw [Function.update_of_ne hns, Function.update_of_ne hnd]
        · rw [Function.update_of_ne hnd]
      have hd : both d = some s := by
        simp only [both, linked]
        split_ifs
        · rw [Function.update_of_ne (Ne.symm hds), Function.update_self]
        · rw [Function.update_self]
      have hs : both s = (parent d).or (parent s) := by
        simp only [both, linked]
        cases hmore : parent d with
        | none => simp [Function.update_of_ne hds]
        | some next => simp
      have hl : Linked both (parent d) l :=
        hrest.congr fun n hn => hother n (ne_of_mem_of_not_mem hn hdnodup.1)
          (ne_of_mem_of_not_mem hn hsl)
      have hk : Linked both (parent s) k :=
        hsrest.congr fun n hn => hother n (ne_of_mem_of_not_mem hn hdk)
          (ne_of_mem_of_not_mem hn hsnodup.1)
      obtain ⟨parent', hloop, hchain, hframe⟩ := ih hl hk hdisjoint (by simpa using hfuel)
      refine ⟨parent', hloop, ⟨rfl, ?_, ?_⟩, fun n hnl hnk => ?_⟩
      · rw [hframe d hdnodup.1 hdk, hd]
      · rw [hframe s hsl hsnodup.1, hs]
        exact hchain
      · rw [List.mem_cons, not_or] at hnl hnk
        rw [hframe n hnl.2 hnk.2, hother n hnl.1 hnk.1]

/-- Twice is nothing. -/
theorem messageReverse_reverse (h : Linked parent (some m) l) (hfuel : l.length ≤ fuel) {last : α}
    {parent' : α → Option α} (hreverse : messageReverse fuel parent m = some (last, parent')) :
    messageReverse fuel parent' last = some (m, parent) := by
  obtain ⟨last', parent₁, hfirst, hchain, hframe⟩ := messageReverse_spec h hfuel
  rw [hfirst] at hreverse
  cases hreverse
  obtain ⟨back, parent₂, hsecond, hagain, hframe'⟩ :=
    messageReverse_spec hchain (by simpa using hfuel)
  rw [List.reverse_reverse] at hagain
  cases l with
  | nil => cases h
  | cons n l =>
    obtain rfl : back = m := Option.some.inj (hagain.1.trans h.1.symm)
    have hsame : parent₂ = parent := by
      funext k
      by_cases hk : k ∈ n :: l
      · exact hagain.links h k hk
      · rw [hframe' k (fun hmem => hk (List.mem_reverse.mp hmem)), hframe k hk]
    rw [hsecond, hsame]

theorem messageToCallback_append (out : OutgoingMessage) (str : Bytes) :
    messageToCallback out (fun str buf => (true, str ++ buf)) str = str ++ messageText out := by
  have h := @messageToCallback_invariant Bytes (fun str buf => (true, str ++ buf))
    (fun s done => s = str ++ done)
    (fun s done buf hs => ⟨rfl, by rw [hs, List.append_assoc]⟩) str []
      (List.append_nil str).symm out
  simpa using h

/-- The loop writes the messages of a chain one after the other and leaves the links. -/
theorem serializeLoop_spec {heap : MessageHeap α} (h : Linked heap.parent (some m) l)
    (hfuel : l.length ≤ fuel) (str : Bytes) :
    ∃ message, serializeLoop fuel heap m str = some
      (str ++ l.flatMap fun n => messageText (heap.message n) ++ crlf,
        { heap with message := message }) := by
  induction l generalizing heap m fuel str with
  | nil => cases h
  | cons n l ih =>
    obtain rfl : m = n := Option.some.inj h.1
    rw [List.length_cons] at hfuel
    obtain ⟨fuel, rfl⟩ := Nat.exists_eq_succ_of_ne_zero (n := fuel) (by omega)
    have hm := (List.nodup_cons.mp h.nodup).1
    rw [serializeLoop]
    dsimp only
    rw [messageToCallback_append]
    cases l with
    | nil =>
      have hend : heap.parent m = none := h.2
      rw [hend]
      refine ⟨Function.update heap.message m (heap.message m).written, ?_⟩
      simp
    | cons next l =>
      have hnext : heap.parent m = some next := h.2.1
      rw [hnext]
      let written : MessageHeap α :=
        { heap with message := Function.update heap.message m (heap.message m).written }
      have hrest : Linked written.parent (some next) (next :: l) := ⟨rfl, h.2.2⟩
      have hle : (next :: l).length ≤ fuel := by omega
      obtain ⟨message, hloop⟩ := ih hrest hle (str ++ messageText (heap.message m) ++ crlf)
      refine ⟨message, hloop.trans ?_⟩
      -- the messages that follow are still as they were
      have hsame : ∀ k ∈ next :: l,
          messageText (Function.update heap.message m (heap.message m).written k) ++ crlf =
            messageText (heap.message k) ++ crlf := by
        intro k hk
        rw [Function.update_of_ne (ne_of_mem_of_not_mem hk hm)]
      rw [List.flatMap_congr hsame, List.flatMap_cons (x := m)]
      simp only [List.append_assoc]
      rfl

/-- What is written is the chain from its end on, and the links are as they were. -/
theorem messageSerialize_spec {heap : MessageHeap α} (h : Linked heap.parent (some m) l)
    (hfuel : l.length ≤ fuel) :
    ∃ message, messageSerialize fuel heap m = some
      (l.reverse.flatMap fun n => messageText (heap.message n) ++ crlf,
        { heap with message := message }) := by
  obtain ⟨last, parent', hreverse, hchain, -⟩ := messageReverse_spec h hfuel
  let reversed : MessageHeap α := { heap with parent := parent' }
  have hreversed : Linked reversed.parent (some last) l.reverse := hchain
  obtain ⟨message, hloop⟩ := serializeLoop_spec hreversed (by simpa using hfuel) []
  have hback := messageReverse_reverse h hfuel hreverse
  refine ⟨message, ?_⟩
  rw [messageSerialize, hreverse, Option.bind_some, hloop, Option.bind_some, hback]
  rfl

/-- A chain is turned round by one call of `php_http_message_reverse` and is as it was after two.
Two chains without a message in common become one in which they take turns, with each message once.
`php_http_message_serialize` leaves the links of a chain. -/
theorem messageChain_kept {heap : MessageHeap α} {m : α} {src : Option α} {l k : List α} {fuel : ℕ}
    (hchain : Linked heap.parent (some m) l) (hsrc : Linked heap.parent src k)
    (hdisjoint : l.Disjoint k) (hfuel : l.length < fuel) :
    (∃ last parent', messageReverse fuel heap.parent m = some (last, parent') ∧
        Linked parent' (some last) l.reverse ∧
          messageReverse fuel parent' last = some (m, heap.parent)) ∧
      (∃ parent', messageZip fuel heap.parent (some m) src = some (some m, parent') ∧
        Linked parent' (some m) (interleave l k) ∧ (interleave l k).Nodup ∧
          (interleave l k).Perm (l ++ k)) ∧
      ∃ str message, messageSerialize fuel heap m = some (str, ⟨heap.parent, message⟩) := by
  refine ⟨?_, ?_, ?_⟩
  · obtain ⟨last, parent', hreverse, hreversed, -⟩ := messageReverse_spec hchain hfuel.le
    exact ⟨last, parent', hreverse, hreversed, messageReverse_reverse hchain hfuel.le hreverse⟩
  · obtain ⟨parent', hloop, hzipped, -⟩ := zipLoop_spec hchain hsrc hdisjoint hfuel
    exact ⟨parent', by rw [messageZip, hloop]; rfl, hzipped, hzipped.nodup, interleave_perm l k⟩
  · obtain ⟨message, hserialize⟩ := messageSerialize_spec hchain hfuel.le
    exact ⟨_, message, hserialize⟩

/-- A chain of two messages and a single one. -/
theorem messageChain_kept_two :
    let out : OutgoingMessage := ⟨⟨none, [], []⟩, none, by decide⟩
    let heap : MessageHeap ℕ := ⟨fun n => if n = 0 then some 1 else none, fun _ => out⟩
    (∃ parent', messageZip 3 heap.parent (some 0) (some 2) = some (some 0, parent') ∧
        Linked parent' (some 0) [0, 2, 1]) ∧
      ∃ str message, messageSerialize 3 heap 0 = some (str, ⟨heap.parent, message⟩) := by
  intro out heap
  obtain ⟨-, ⟨parent', hzip, hlinked, -⟩, hserialize⟩ :=
    @messageChain_kept ℕ _ heap 0 (some 2) [0, 1] [2] 3 ⟨rfl, rfl, rfl⟩ ⟨rfl, rfl⟩
      (List.disjoint_singleton.mpr (by decide)) (by decide)
  exact ⟨⟨parent', hzip, hlinked⟩, hserialize⟩

end
end ExtHttp
