import ExtHttp.MessageChain

/-!
# Message objects

Objects of `http\Message` are linked by their parents, and so are the messages in them. `prepend`
and `reverse` change both kinds of links; whatever is called, they stay in step, and the chains of
parents come to an end.
-/
namespace ExtHttp
open LinkedChain

/-- `php_http_message_object_t`s in memory: the message of each of them, its parent and the parents
of messages. -/
structure MessageObjects (Obj Msg : Type) where
  message : Obj → Msg
  parent : Obj → Option Obj
  messageParent : Msg → Option Msg

/-- A method of `http\Message` that changes links. -/
inductive ObjectCall (Obj : Type)
  | prepend (obj prepended : Obj) (top : Bool)
  | reverse (obj : Obj)

namespace MessageObjects
variable {Obj Msg : Type}

/-- The loop to the most parent object. -/
def topLoop (parent : Obj → Option Obj) : ℕ → Obj → Option Obj
  | 0, _ => none
  | fuel + 1, obj =>
      match parent obj with
      | none => some obj
      | some obj => topLoop parent fuel obj

/-- Fetching the parents into memory for `count` objects; there is nothing if they do not fit. -/
def fetchParents (parent : Obj → Option Obj) : ℕ → Obj → Option (List Obj)
  | 0, _ => none
  | count + 1, obj =>
      match parent obj with
      | none => some [obj]
      | some next => (fetchParents parent count next).map (obj :: ·)

section
variable {α : Type} [DecidableEq α]

/-- The inner loop of the safety check: whether `m` is found. -/
def safetyLoop (next : α → Option α) (m : α) : ℕ → Option α → Option Bool
  | 0, _ => none
  | _ + 1, none => some false
  | fuel + 1, some n => if m = n then some true else safetyLoop next m fuel (next n)

/-- The safety check: whether the chains have a message in common. -/
def safetyCheck (next : α → Option α) (limit : ℕ) (second : Option α) : ℕ → Option α → Option Bool
  | 0, _ => none
  | _ + 1, none => some false
  | fuel + 1, some m =>
      (safetyLoop next m limit second).bind fun found =>
        if found then some true else safetyCheck next limit second fuel (next m)

/-- Reordering the parents, from the last one to the one behind `prev`. -/
def reorder (next : α → Option α) (prev : α) : List α → α → Option α
  | [] => next
  | m :: l => Function.update (reorder next m l) m (some prev)

end

section
variable [DecidableEq Obj] [DecidableEq Msg]

/-- The parents of an object and of its message are set. -/
def setParent (s : MessageObjects Obj Msg) (obj : Obj) (parent : Option Obj)
    (messageParent : Option Msg) :
    MessageObjects Obj Msg :=
  { s with
    parent := Function.update s.parent obj parent
    messageParent := Function.update s.messageParent (s.message obj) messageParent }

/-- `php_http_message_object_prepend` -/
def objectPrepend (fuel : ℕ) (s : MessageObjects Obj Msg) (this prepended : Obj) (top : Bool) :
    Option (MessageObjects Obj Msg) :=
  if top then
    (topLoop s.parent fuel this).map fun obj =>
      s.setParent obj (some prepended) (some (s.message prepended))
  else
    some ((s.setParent this (some prepended) (some (s.message prepended))).setParent prepended
      (s.parent this) (s.messageParent (s.message this)))

/-- `HttpMessage::prepend`: whether there is no exception. -/
def prepend (fuel : ℕ) (s : MessageObjects Obj Msg) (this prepended : Obj) (top : Bool) :
    Option (Bool × MessageObjects Obj Msg) :=
  (safetyCheck s.messageParent fuel (some (s.message prepended)) fuel
    (some (s.message this))).bind fun shared =>
    if shared then some (false, s)
    else (s.objectPrepend fuel this prepended top).map fun s => (true, s)

/-- `php_http_message_object_reverse`: the object that is returned. -/
def objectReverse (fuel : ℕ) (s : MessageObjects Obj Msg) (this : Obj) :
    Option (Obj × MessageObjects Obj Msg) :=
  (messageCount fuel s.messageParent (s.message this)).bind fun count =>
    if 1 < count then
      (fetchParents s.parent count this).bind fun objects =>
        match objects with
        | [] => none
        | first :: rest => some (rest.getLastD first, { s with
            parent := Function.update (reorder s.parent first rest) first none
            messageParent := Function.update (reorder s.messageParent (s.message first)
              (rest.map s.message))
              (s.message first) none })
    else some (this, s)

/-- A call, if its loops end and nothing is written behind memory. -/
def call (fuel : ℕ) (s : MessageObjects Obj Msg) : ObjectCall Obj → Option (MessageObjects Obj Msg)
  | .prepend this prepended top => (s.prepend fuel this prepended top).map Prod.snd
  | .reverse this => (s.objectReverse fuel this).map Prod.snd

def calls (fuel : ℕ) (s : MessageObjects Obj Msg) (cs : List (ObjectCall Obj)) :
    Option (MessageObjects Obj Msg) :=
  cs.foldlM (call fuel) s

end

/-- Every object has a message of its own, the parent of which is that of the parent object, and its
chain of parents ends. -/
structure InStep (s : MessageObjects Obj Msg) : Prop where
  own : Function.Injective s.message
  same : ∀ obj, s.messageParent (s.message obj) = (s.parent obj).map s.message
  ends : ∀ obj, ∃ l, Linked s.parent (some obj) l

/-- What a call does to the chains of parents. -/
def Effect (s : MessageObjects Obj Msg) (c : ObjectCall Obj) (s' : MessageObjects Obj Msg) : Prop :=
  match c with
  | .prepend this prepended top => ∀ l k, Linked s.parent (some this) l →
    Linked s.parent (some prepended) k →
      (l.Disjoint k → Linked s'.parent (some this) (if top then l ++ k
        else this :: prepended :: l.tail)) ∧
      (¬ l.Disjoint k → s' = s)
  | .reverse this => ∀ l, Linked s.parent (some this) l → Linked s'.parent l.getLast? l.reverse

/-! ### The loops -/

section
variable {α : Type} {next : α → Option α} {first second : Option α} {m : α} {l k : List α}
    {fuel limit : ℕ}

theorem topLoop_spec (h : Linked next (some m) (m :: l)) (hfuel : l.length < fuel) :
    topLoop next fuel m = some (l.getLastD m) := by
  induction l generalizing m fuel with
  | nil =>
    obtain ⟨fuel, rfl⟩ := Nat.exists_eq_succ_of_ne_zero (Nat.ne_of_gt hfuel)
    have hend : next m = none := h.2
    rw [topLoop, hend]
    rfl
  | cons n l ih =>
    obtain ⟨fuel, rfl⟩ := Nat.exists_eq_succ_of_ne_zero (Nat.ne_of_gt (Nat.zero_lt_of_lt hfuel))
    have hnext : next m = some n := h.2.1
    rw [topLoop, hnext, List.getLastD_cons]
    exact ih ⟨rfl, h.2.2⟩ (Nat.lt_of_succ_lt_succ hfuel)

theorem fetchParents_spec (h : Linked next (some m) (m :: l)) :
    fetchParents next (l.length + 1) m = some (m :: l) := by
  induction l generalizing m with
  | nil =>
    have hend : next m = none := h.2
    rw [fetchParents, hend]
  | cons n l ih =>
    have hnext : next m = some n := h.2.1
    rw [fetchParents, hnext]
    dsimp only
    rw [List.length_cons, ih ⟨rfl, h.2.2⟩]
    rfl

variable [DecidableEq α]

theorem safetyLoop_spec (h : Linked next first l) (hfuel : l.length < fuel) (m : α) :
    safetyLoop next m fuel first = some (decide (m ∈ l)) := by
  induction l generalizing first fuel with
  | nil =>
    obtain ⟨fuel, rfl⟩ := Nat.exists_eq_succ_of_ne_zero (Nat.ne_of_gt hfuel)
    rw [show first = none from h]
    rfl
  | cons n l ih =>
    obtain ⟨fuel, rfl⟩ := Nat.exists_eq_succ_of_ne_zero (Nat.ne_of_gt (Nat.zero_lt_of_lt hfuel))
    rw [h.1, safetyLoop, ih h.2 (Nat.lt_of_succ_lt_succ hfuel)]
    by_cases hm : m = n
    · simp [hm]
    · simp [hm]

theorem safetyCheck_spec (h : Linked next first l) (hk : Linked next second k)
    (hlimit : k.length < limit) (hfuel : l.length < fuel) :
    safetyCheck next limit second fuel first = some (l.any fun m => decide (m ∈ k)) := by
  induction l generalizing first fuel with
  | nil =>
    obtain ⟨fuel, rfl⟩ := Nat.exists_eq_succ_of_ne_zero (Nat.ne_of_gt hfuel)
    rw [show first = none from h]
    rfl
  | cons m l ih =>
    obtain ⟨fuel, rfl⟩ := Nat.exists_eq_succ_of_ne_zero (Nat.ne_of_gt (Nat.zero_lt_of_lt hfuel))
    rw [h.1, safetyCheck, safetyLoop_spec hk hlimit, ih h.2 (Nat.lt_of_succ_lt_succ hfuel),
      Option.bind_some, List.any_cons]
    by_cases hm : m ∈ k
    · simp [hm]
    · simp [hm]

theorem reorder_eq (h : l.Nodup) (next : α → Option α) (prev : α) :
    reorder next prev l = relink next prev l := by
  induction l generalizing prev with
  | nil => rfl
  | cons m l ih =>
    obtain ⟨hm, hl⟩ := List.nodup_cons.mp h
    rw [reorder, ih hl m, relink, relink_update hm]

/-- The chain is turned round, and no other link is changed. -/
theorem reorder_spec (h : Linked next (some m) (m :: l)) :
    Linked (Function.update (reorder next m l) m none) (some (l.getLastD m)) (m :: l).reverse ∧
      ∀ n ∉ m :: l, Function.update (reorder next m l) m none n = next n := by
  obtain ⟨hm, hnodup⟩ := List.nodup_cons.mp h.nodup
  rw [reorder_eq hnodup, ← relink_update hm]
  have hend : Linked (Function.update next m none) (some m) [m] := by
    rw [linked_cons, Function.update_self]
    exact ⟨rfl, rfl⟩
  obtain ⟨hchain, hframe⟩ := relink_spec hend (List.singleton_disjoint.mpr hm) hnodup
  rw [List.reverse_cons]
  refine ⟨hchain, fun n hn => ?_⟩
  rw [List.mem_cons, not_or] at hn
  rw [hframe n hn.2, Function.update_of_ne hn.1]

/-- A chain is attached to the end of another one. -/
theorem attach (h : Linked next (some m) (m :: l)) (hk : Linked next second k)
    (hdisjoint : (m :: l).Disjoint k) :
    Linked (Function.update next (l.getLastD m) second) (some m) (m :: l ++ k) := by
  induction l generalizing m with
  | nil =>
    have hm : m ∉ k := List.disjoint_cons_left.mp hdisjoint |>.1
    refine ⟨rfl, ?_⟩
    change Linked (Function.update next m second) (Function.update next m second m) k
    rw [Function.update_self]
    exact hk.update hm second
  | cons n l ih =>
    have hnext : next m = some n := h.2.1
    have hne : m ≠ l.getLastD n := fun heq =>
      (List.nodup_cons.mp h.nodup).1 (heq ▸ List.getLastD_mem_cons)
    have hrest := ih ⟨rfl, h.2.2⟩ (List.disjoint_cons_left.mp hdisjoint).2
    rw [List.getLastD_cons]
    refine ⟨rfl, ?_⟩
    rw [Function.update_of_ne hne, hnext]
    exact hrest

end

/-! ### Both kinds of links -/

variable {s : MessageObjects Obj Msg}

theorem InStep.messages (hs : s.InStep) {first : Option Obj} {l : List Obj}
    (h : Linked s.parent first l) :
    Linked s.messageParent (first.map s.message) (l.map s.message) := by
  induction l generalizing first with
  | nil => exact congrArg (Option.map s.message) h
  | cons m l ih =>
    refine ⟨congrArg (Option.map s.message) h.1, ?_⟩
    rw [hs.same m]
    exact ih h.2

/-- Links are written in step, and where they are written, chains end. -/
theorem InStep.rewired (hs : s.InStep) {s' : MessageObjects Obj Msg}
    (hmessage : s'.message = s.message)
    (hsame : ∀ o, s'.messageParent (s.message o) = (s'.parent o).map s.message)
    (hwritten : ∀ o, s'.parent o ≠ s.parent o → ∃ l, Linked s'.parent (some o) l) : s'.InStep := by
  refine ⟨hmessage ▸ hs.own, hmessage ▸ hsame, fun o => ?_⟩
  obtain ⟨l, hl⟩ := hs.ends o
  exact hl.rewired hwritten

theorem linked_some {next : Obj → Option Obj} {o : Obj} {l : List Obj}
    (h : Linked next (some o) l) :
    ∃ rest, l = o :: rest := by
  cases l with
  | nil => cases h
  | cons m l => exact ⟨l, by rw [Option.some.inj h.1]⟩

theorem any_message [DecidableEq Msg] (own : Function.Injective s.message) (l k : List Obj) :
    ((l.map s.message).any fun m => decide (m ∈ k.map s.message)) = false ↔ l.Disjoint k := by
  rw [List.any_map, List.any_eq_false]
  simp only [Function.comp, decide_eq_true_eq, List.mem_map_of_injective own]
  exact Iff.rfl

variable [DecidableEq Obj] [DecidableEq Msg]

section
variable {message : Obj → Msg} {next : Obj → Option Obj} {messageNext : Msg → Option Msg}

theorem update_same (own : Function.Injective message)
    (h : ∀ o, messageNext (message o) = (next o).map message) (obj : Obj) (target : Option Obj)
    (o : Obj) :
    Function.update messageNext (message obj) (target.map message) (message o) =
      (Function.update next obj target o).map message := by
  by_cases ho : o = obj
  · subst ho
    rw [Function.update_self, Function.update_self]
  · rw [Function.update_of_ne (own.ne ho), Function.update_of_ne ho, h o]

theorem reorder_same (own : Function.Injective message)
    (h : ∀ o, messageNext (message o) = (next o).map message) (prev : Obj) (l : List Obj)
    (o : Obj) :
    reorder messageNext (message prev) (l.map message) (message o) =
      (reorder next prev l o).map message := by
  induction l generalizing prev o with
  | nil => exact h o
  | cons m l ih => exact update_same own (ih m) m (some prev) o

end

/-! ### Calls -/

theorem InStep.objectPrepend (hs : s.InStep) {this prepended : Obj} {rest k : List Obj} (top : Bool)
    (hl : Linked s.parent (some this) (this :: rest)) (hk : Linked s.parent (some prepended) k)
    (hdisjoint : (this :: rest).Disjoint k) :
    ∃ s', (∀ fuel > rest.length, s.objectPrepend fuel this prepended top = some s') ∧ s'.InStep ∧
      Linked s'.parent (some this) (if top then this :: rest ++ k
        else this :: prepended :: rest) := by
  cases top with
  | true =>
    have hchain := attach hl hk hdisjoint
    refine ⟨s.setParent (rest.getLastD this) (some prepended) (some (s.message prepended)),
      fun fuel hfuel => ?_, ?_, hchain⟩
    · rw [MessageObjects.objectPrepend, if_pos rfl, topLoop_spec hl hfuel]
      rfl
    · refine hs.rewired rfl (update_same hs.own hs.same _ (some prepended)) fun o ho => ?_
      obtain rfl : o = rest.getLastD this := by
        by_contra hne
        exact ho (Function.update_of_ne hne _ _)
      exact hchain.from_mem (List.mem_append_left _ (List.getLastD_mem_cons))
  | false =>
    obtain ⟨k, rfl⟩ := linked_some hk
    have hmem : prepended ∉ this :: rest := fun h => hdisjoint h List.mem_cons_self
    obtain ⟨hne, hprepended⟩ := not_or.mp (mt List.mem_cons.mpr hmem)
    have hthis : this ∉ rest := (List.nodup_cons.mp hl.nodup).1
    have hchain : Linked (Function.update (Function.update s.parent this (some prepended)) prepended
        (s.parent this)) (some this) (this :: prepended :: rest) := by
      refine ⟨rfl, ?_⟩
      rw [Function.update_of_ne (Ne.symm hne), Function.update_self]
      refine ⟨rfl, ?_⟩
      rw [Function.update_self]
      exact (hl.2.update hthis _).update hprepended _
    refine ⟨(s.setParent this (some prepended) (some (s.message prepended))).setParent prepended
      (s.parent this) (s.messageParent (s.message this)), fun fuel _ => rfl, ?_, hchain⟩
    have hfirst := update_same hs.own hs.same this (some prepended)
    refine hs.rewired rfl (fun o => ?_) fun o ho => ?_
    · rw [hs.same this]
      exact update_same hs.own hfirst prepended (s.parent this) o
    · have hwritten : o = prepended ∨ o = this := by
        by_contra hnot
        obtain ⟨h₁, h₂⟩ := not_or.mp hnot
        exact ho ((Function.update_of_ne h₁ _ _).trans (Function.update_of_ne h₂ _ _))
      rcases hwritten with rfl | rfl
      · exact hchain.from_mem (by simp)
      · exact hchain.from_mem (by simp)

theorem InStep.prepend (hs : s.InStep) (this prepended : Obj) (top : Bool) :
    ∃ s' enough, (∀ fuel ≥ enough, s.call fuel (.prepend this prepended top) = some s') ∧
      s'.InStep ∧
      s.Effect (.prepend this prepended top) s' := by
  obtain ⟨l, hl⟩ := hs.ends this
  obtain ⟨k, hk⟩ := hs.ends prepended
  obtain ⟨rest, rfl⟩ := linked_some hl
  have hcheck : ∀ fuel ≥ rest.length + k.length + 2,
      safetyCheck s.messageParent fuel (some (s.message prepended)) fuel (some (s.message this)) =
        some (((this :: rest).map s.message).any fun m => decide (m ∈
          k.map s.message)) := fun fuel hfuel =>
    safetyCheck_spec (hs.messages hl) (hs.messages hk) (by simp; omega) (by simp; omega)
  by_cases hdisjoint : (this :: rest).Disjoint k
  · obtain ⟨s', hprepend, hinStep, hchain⟩ := hs.objectPrepend top hl hk hdisjoint
    refine ⟨s', rest.length + k.length + 2, fun fuel hfuel => ?_, hinStep, fun l' k' hl' hk' => ?_⟩
    · rw [MessageObjects.call, MessageObjects.prepend, hcheck fuel hfuel,
        (any_message hs.own _ _).mpr hdisjoint, Option.bind_some, if_neg (by decide),
        hprepend fuel (by omega)]
      rfl
    · rw [hl'.unique hl, hk'.unique hk]
      exact ⟨fun _ => hchain, fun hnot => absurd hdisjoint hnot⟩
  · have hshared : ((this :: rest).map s.message).any (fun m =>
        decide (m ∈ k.map s.message)) = true :=
      Bool.eq_true_of_not_eq_false fun hfalse => hdisjoint ((any_message hs.own _ _).mp hfalse)
    refine ⟨s, rest.length + k.length + 2, fun fuel hfuel => ?_, hs, fun l' k' hl' hk' => ?_⟩
    · rw [MessageObjects.call, MessageObjects.prepend, hcheck fuel hfuel, hshared, Option.bind_some,
        if_pos rfl]
      rfl
    · rw [hl'.unique hl, hk'.unique hk]
      exact ⟨fun hyes => absurd hyes hdisjoint, fun _ => rfl⟩

theorem InStep.reverse (hs : s.InStep) (this : Obj) :
    ∃ s' enough, (∀ fuel ≥ enough, s.call fuel (.reverse this) = some s') ∧ s'.InStep ∧
      s.Effect (.reverse this) s' := by
  obtain ⟨l, hl⟩ := hs.ends this
  obtain ⟨rest, rfl⟩ := linked_some hl
  have hcount : ∀ fuel ≥ rest.length + 1,
      messageCount fuel s.messageParent (s.message this) =
        some (1 + (rest.map s.message).length) := fun fuel hfuel =>
    countLoop_spec (hs.messages hl) (by rw [List.length_map]; omega) 1
  by_cases hrest : rest = []
  · subst hrest
    refine ⟨s, 1, fun fuel hfuel => ?_, hs, fun l' hl' => ?_⟩
    · rw [MessageObjects.call, MessageObjects.objectReverse, hcount fuel hfuel]
      rfl
    · rw [hl'.unique hl]
      exact hl
  · obtain ⟨hchain, hframe⟩ := reorder_spec hl
    refine ⟨{ s with
      parent := Function.update (reorder s.parent this rest) this none
      messageParent := Function.update (reorder s.messageParent (s.message this)
        (rest.map s.message)) (s.message this) none },
      rest.length + 1, fun fuel hfuel => ?_, ?_, fun l' hl' => ?_⟩
    · have hmore : 1 < rest.length + 1 := Nat.succ_lt_succ (List.length_pos_of_ne_nil hrest)
      rw [MessageObjects.call, MessageObjects.objectReverse, hcount fuel hfuel, Option.bind_some,
        List.length_map, Nat.add_comm 1, if_pos hmore, fetchParents_spec hl]
      rfl
    · refine hs.rewired rfl (update_same hs.own (reorder_same hs.own hs.same this rest) this none)
        fun o ho => ?_
      have hmem : o ∈ this :: rest := by
        by_contra hnot
        exact ho (hframe o hnot)
      exact hchain.from_mem (List.mem_reverse.mpr hmem)
    · rw [hl'.unique hl]
      have hlast : (this :: rest).getLast? = some (rest.getLastD this) := by
        rw [List.getLast?_cons, List.getLastD_eq_getLast?]
      rw [hlast]
      exact hchain

theorem InStep.call (hs : s.InStep) (c : ObjectCall Obj) :
    ∃ s' enough, (∀ fuel ≥ enough, s.call fuel c = some s') ∧ s'.InStep ∧ s.Effect c s' := by
  cases c with
  | prepend this prepended top => exact hs.prepend this prepended top
  | reverse this => exact hs.reverse this

theorem InStep.calls (hs : s.InStep) (cs : List (ObjectCall Obj)) :
    ∃ s' enough, (∀ fuel ≥ enough, s.calls fuel cs = some s') ∧ s'.InStep := by
  induction cs generalizing s with
  | nil => exact ⟨s, 0, fun _ _ => rfl, hs⟩
  | cons c cs ih =>
    obtain ⟨s₁, enough₁, hcall, hs₁, -⟩ := hs.call c
    obtain ⟨s₂, enough₂, hcalls, hs₂⟩ := ih hs₁
    refine ⟨s₂, max enough₁ enough₂, fun fuel hfuel => ?_, hs₂⟩
    have hfirst := hcall fuel (le_trans (le_max_left _ _) hfuel)
    have hrest := hcalls fuel (le_trans (le_max_right _ _) hfuel)
    rw [MessageObjects.calls, List.foldlM_cons, hfirst]
    exact hrest

/-- Whatever has been called, a further call comes to its end, writes nothing behind memory, keeps
objects and messages in step, and does to the chains what it is for. -/
theorem calls_inStep (hs : s.InStep) (cs : List (ObjectCall Obj)) (c : ObjectCall Obj) :
    ∃ s' s'' enough, (∀ fuel ≥ enough, s.calls fuel cs = some s' ∧ s'.call fuel c = some s'') ∧
      s'.InStep ∧ s''.InStep ∧ s'.Effect c s'' := by
  obtain ⟨s', enough, hcalls, hs'⟩ := hs.calls cs
  obtain ⟨s'', enough', hcall, hs'', heffect⟩ := hs'.call c
  refine ⟨s', s'', max enough enough', fun fuel hfuel => ⟨?_, ?_⟩, hs', hs'', heffect⟩
  · exact hcalls fuel (le_trans (le_max_left _ _) hfuel)
  · exact hcall fuel (le_trans (le_max_right _ _) hfuel)

/-- New objects without parents, where the message of an object has another address. -/
def newObjects : MessageObjects ℕ ℕ := ⟨fun obj => obj + 10, fun _ => none, fun _ => none⟩

theorem calls_inStep_new :
    ∃ s' s'' enough, (∀ fuel ≥ enough,
      newObjects.calls fuel [.prepend 0 1 true, .prepend 0 2 false] = some s' ∧
        s'.call fuel (.reverse 0) = some s'') ∧
      s'.InStep ∧ s''.InStep ∧ s'.Effect (.reverse 0) s'' :=
  calls_inStep (s := newObjects) ⟨fun _ _ h => Nat.add_right_cancel h, fun _ => rfl,
    fun obj => ⟨[obj], rfl, rfl⟩⟩ _ _

end MessageObjects
end ExtHttp
