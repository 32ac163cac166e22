import ExtHttp.ClientRun

/-!
# Responses for requests

Every transfer is answered at most once, by a response with the request it was started for. When
`php_http_client_curl_exec` has come to its end, the last transfers of all requests in the queue
have been answered.
-/
namespace ExtHttp
namespace ClientRun

/-- What the ledger says of the handlers of `entries`: a transfer has been answered if and only if
it is neither under way nor reported. -/
structure Ledger (r : ClientRun) (entries : List QueueEntry) : Prop where
  running : ∀ h ∈ r.running, ∃ e ∈ entries, e.handler = h
  messages : ∀ h ∈ r.messages, (∃ e ∈ entries, e.handler = h) ∧ h ∉ r.running
  nodup : r.messages.Nodup
  started : ∀ e ∈ entries, r.started[r.transfer e.handler]? = some e.request
  own : ∀ e ∈ entries, ∀ e' ∈ entries, r.transfer e.handler = r.transfer e'.handler →
    e.handler = e'.handler
  answered : ∀ e ∈ entries, r.transfer e.handler ∈ r.answered ↔
    e.handler ∉ r.running ∧ e.handler ∉ r.messages
  once : r.answered.Nodup
  past : ∀ t ∈ r.answered, t < r.started.length
  responses : (r.responses.map Answer.transfer ++ r.gone).Perm r.answered
  requests : ∀ a ∈ r.responses, r.started[a.transfer]? = some a.request
  unfinished : r.running.card ≤ r.unfinished

/-- Queue and engine are in step, and the ledger is right about the queue. -/
structure Sound (r : ClientRun) : Prop where
  client : r.client.Consistent
  ledger : r.Ledger r.client.requests

variable {r : ClientRun} {entries entries' : List QueueEntry}

theorem Ledger.past_started (h : r.Ledger entries) {e : QueueEntry} (he : e ∈ entries) :
    r.transfer e.handler < r.started.length := by
  obtain ⟨hlt, -⟩ := List.getElem?_eq_some_iff.mp (h.started e he)
  exact hlt

theorem Ledger.client (h : r.Ledger entries) (c : Client) : { r with client := c }.Ledger entries :=
  ⟨h.running, h.messages, h.nodup, h.started, h.own, h.answered, h.once, h.past, h.responses,
    h.requests, h.unfinished⟩

/-- A handler and its entries are gone. -/
theorem Ledger.forget (h : r.Ledger entries) (handler : ℕ) :
    (r.forget handler).Ledger (entries.filter fun e => e.handler ≠ handler) := by
  have hkept : ∀ e ∈ entries.filter (fun e => e.handler ≠ handler),
      e ∈ entries ∧ e.handler ≠ handler := by
    simp [List.mem_filter]
  have hheld : ∀ x ≠ handler, (∃ e ∈ entries, e.handler = x) →
      ∃ e ∈ entries.filter (fun e => e.handler ≠ handler), e.handler = x := by
    rintro _ hx ⟨e, he, rfl⟩
    exact ⟨e, List.mem_filter.mpr ⟨he, by simpa using hx⟩, rfl⟩
  have hmessages : ∀ x ∈ (r.forget handler).messages, x ∈ r.messages ∧ x ≠ handler := by
    simp [ClientRun.forget, List.mem_filter]
  refine ⟨fun x hx => ?_, fun x hx => ?_, h.nodup.filter _, fun e he => h.started e (hkept e he).1,
    fun e he e' he' => h.own e (hkept e he).1 e' (hkept e' he').1, fun e he =>
      ?_, h.once, h.past, h.responses, h.requests, ?_⟩
  · obtain ⟨hne, hx⟩ := Finset.mem_erase.mp hx
    exact hheld x hne (h.running x hx)
  · obtain ⟨hx, hne⟩ := hmessages x hx
    exact ⟨hheld x hne (h.messages x hx).1, fun hrun =>
      (h.messages x hx).2 (Finset.mem_of_mem_erase hrun)⟩
  · obtain ⟨he, hne⟩ := hkept e he
    refine (h.answered e he).trans (and_congr ?_ ?_)
    · simp [ClientRun.forget, hne]
    · simp [ClientRun.forget, hne]
  · exact (Finset.card_le_card (Finset.erase_subset _ _)).trans h.unfinished

/-- A transfer is started for a handler that has none. -/
theorem Ledger.start (h : r.Ledger entries) {request handler : ℕ}
    (hnew : ∀ e ∈ entries, e.handler ≠ handler)
    (hentries : ∀ e, e ∈ entries' ↔ e ∈ entries ∨ e = ⟨request, handler⟩) :
    (r.start request handler).Ledger entries' := by
  have hold : ∀ e ∈ entries, (r.start request handler).transfer e.handler =
      r.transfer e.handler := fun e he =>
    Function.update_of_ne (hnew e he) _ _
  have hself : (r.start request handler).transfer handler = r.started.length :=
    Function.update_self _ _ _
  have hstarted : ∀ t : ℕ, ∀ req, r.started[t]? = some req →
      (r.started ++ [request])[t]? = some req := by
    intro t req ht
    obtain ⟨hlt, -⟩ := List.getElem?_eq_some_iff.mp ht
    rw [List.getElem?_append_left hlt, ht]
  have hheld : ∀ x, (∃ e ∈ entries, e.handler = x) → ∃ e ∈ entries', e.handler = x := by
    rintro _ ⟨e, he, rfl⟩
    exact ⟨e, (hentries e).mpr (.inl he), rfl⟩
  have hapart : ∀ x, (∃ e ∈ entries, e.handler = x) → x ≠ handler := by
    rintro _ ⟨e, he, rfl⟩
    exact hnew e he
  refine ⟨fun x hx => ?_, fun x hx => ?_, h.nodup, fun e he => ?_, fun e he e' he' heq => ?_,
    fun e he => ?_, h.once, fun t ht => ?_, h.responses, fun a ha =>
      hstarted _ _ (h.requests a ha), ?_⟩
  · rcases Finset.mem_insert.mp hx with rfl | hx
    · exact ⟨⟨request, x⟩, (hentries _).mpr (.inr rfl), rfl⟩
    · exact hheld x (h.running x hx)
  · obtain ⟨hmem, hrun⟩ := h.messages x hx
    refine ⟨hheld x hmem, fun hx' => ?_⟩
    rcases Finset.mem_insert.mp hx' with rfl | hx'
    · exact hapart x hmem rfl
    · exact hrun hx'
  · rcases (hentries e).mp he with he | rfl
    · rw [hold e he]
      exact hstarted _ _ (h.started e he)
    · rw [hself]
      exact List.getElem?_concat_length
  · rcases (hentries e).mp he with he | rfl
    · rcases (hentries e').mp he' with he' | rfl
      · rw [hold e he, hold e' he'] at heq
        exact h.own e he e' he' heq
      · rw [hold e he, hself] at heq
        exact absurd heq (h.past_started he).ne
    · rcases (hentries e').mp he' with he' | rfl
      · rw [hold e' he', hself] at heq
        exact absurd heq.symm (h.past_started he').ne
      · rfl
  · rcases (hentries e).mp he with he | rfl
    · rw [hold e he]
      refine (h.answered e he).trans (and_congr ?_ Iff.rfl)
      simp [ClientRun.start, hnew e he]
    · rw [hself]
      refine iff_of_false (fun ht => (h.past _ ht).false) fun hnot =>
        hnot.1 (Finset.mem_insert_self _ _)
  · exact (h.past t ht).trans (by simp [ClientRun.start])
  · refine (Finset.card_insert_le _ _).trans ?_
    exact Nat.succ_le_succ h.unfinished

/-! ### Calls -/

section Client
variable {c : Client}

/-- An operation changes the queue in one way if it succeeds and not at all if it fails. -/
structure Changes (o : Bool × Client) (before after : List QueueEntry) : Prop where
  failed : o.1 = false → o.2.requests = before
  done : o.1 = true → o.2.requests = after

theorem enqueue_changes (hc : c.Consistent) (prep : Preparation) (request : ℕ) :
    Changes (c.enqueue prep request) c.requests (c.requests ++ [⟨request, c.allocated⟩]) := by
  by_cases hqueued : (c.enqueued request).isSome = true
  · rw [Client.enqueue, if_pos hqueued]
    exact ⟨fun _ => rfl, by simp⟩
  · rw [Client.enqueue, if_neg hqueued]
    cases prep with
    | noHandler => exact ⟨fun _ => rfl, by simp [Client.curlEnqueue]⟩
    | unprepared => exact ⟨fun _ => rfl, by simp [Client.curlEnqueue]⟩
    | ready =>
      have hready : c.curlEnqueue .ready request = (true, { c with
          multi := insert c.allocated c.multi
          requests := c.requests ++ [⟨request, c.allocated⟩]
          allocated := c.allocated + 1 }) := if_neg hc.fresh
      rw [hready]
      exact ⟨by simp, fun _ => rfl⟩

theorem curlDequeue_changes (hc : c.Consistent) (e : QueueEntry) :
    Changes (c.curlDequeue e) c.requests (c.requests.filter fun x => x.handler ≠ e.handler) := by
  unfold Client.curlDequeue
  by_cases hdepth : (c.depth ≠ 0 && !c.uncleanShutdown) = true
  · rw [if_pos hdepth]
    exact ⟨fun _ => rfl, by simp⟩
  · rw [if_neg hdepth]
    by_cases hmem : e.handler ∈ c.multi
    · rw [if_pos hmem]
      exact ⟨by simp, fun _ => Client.eraseP_handler hc.nodup e.handler⟩
    · rw [if_neg hmem]
      exact ⟨fun _ => rfl, by simp⟩

theorem curlRequeue_same (prepared : Bool) (e : QueueEntry) :
    (c.curlRequeue prepared e).2 = c := by
  unfold Client.curlRequeue
  by_cases hprepared : prepared = false
  · rw [if_pos hprepared]
  · rw [if_neg hprepared]
    by_cases hmem : e.handler ∉ c.multi
    · rw [if_pos hmem]
    · rw [if_neg hmem]
      dsimp only
      rw [if_neg (Finset.notMem_erase _ _), Finset.insert_erase (not_not.mp hmem)]

theorem enqueued_mem {request : ℕ} {e : QueueEntry} (h : c.enqueued request = some e) :
    e ∈ c.requests ∧ e.request = request :=
  ⟨List.mem_of_find?_eq_some h, by simpa using List.find?_some h⟩

end Client

/-- The queue is as it was. -/
theorem Sound.same (h : r.Sound) {c : Client} (hc : c.Consistent)
    (hsame : c.requests = r.client.requests) :
    ({ r with client := c } : ClientRun).Sound := by
  refine ⟨hc, ?_⟩
  change ({ r with client := c } : ClientRun).Ledger c.requests
  rw [hsame]
  exact h.ledger.client c

theorem Sound.enqueue (h : r.Sound) (prep : Preparation) (request : ℕ) :
    (r.enqueue prep request).2.Sound := by
  have hclient := h.client.enqueue prep request
  have hchanges := enqueue_changes h.client prep request
  unfold ClientRun.enqueue
  generalize r.client.enqueue prep request = o at hclient hchanges ⊢
  obtain ⟨ok, c⟩ := o
  cases ok with
  | false => exact h.same hclient (hchanges.failed rfl)
  | true =>
    refine ⟨hclient, ?_⟩
    have hmore : c.requests = r.client.requests ++ [⟨request, r.client.allocated⟩] :=
      hchanges.done rfl
    refine (h.ledger.client c).start (fun e he heq => ?_) fun e => ?_
    · exact h.client.fresh ((h.client.same _).mpr ⟨e, he, heq⟩)
    · change e ∈ c.requests ↔ _
      rw [hmore, List.mem_append, List.mem_singleton]

theorem Sound.curlDequeue (h : r.Sound) (e : QueueEntry) : (r.curlDequeue e).2.Sound := by
  have hclient := h.client.curlDequeue e
  have hchanges := curlDequeue_changes h.client e
  unfold ClientRun.curlDequeue
  generalize r.client.curlDequeue e = o at hclient hchanges ⊢
  obtain ⟨ok, c⟩ := o
  cases ok with
  | false => exact h.same hclient (hchanges.failed rfl)
  | true =>
    refine ⟨hclient, ?_⟩
    have hless : c.requests = r.client.requests.filter (fun x => x.handler ≠ e.handler) :=
      hchanges.done rfl
    change (({ r with client := c } : ClientRun).forget e.handler).Ledger c.requests
    rw [hless]
    exact (h.ledger.client c).forget e.handler

theorem Sound.dequeue (h : r.Sound) (request : ℕ) : (r.dequeue request).2.Sound := by
  unfold ClientRun.dequeue
  cases r.client.enqueued request with
  | none => exact h
  | some e => exact h.curlDequeue e

theorem Sound.requeue (h : r.Sound) (prepared : Bool) (request : ℕ) :
    (r.requeue prepared request).2.Sound := by
  unfold ClientRun.requeue
  cases hqueued : r.client.enqueued request with
  | none => exact h
  | some e =>
    obtain ⟨he, -⟩ := enqueued_mem hqueued
    have hsame := @curlRequeue_same r.client prepared e
    dsimp only
    generalize r.client.curlRequeue prepared e = o at hsame ⊢
    obtain ⟨ok, c⟩ := o
    obtain rfl : c = r.client := hsame
    cases ok with
    | false => exact h
    | true =>
      refine ⟨h.client, (h.ledger.forget e.handler).start (fun x hx => ?_) fun x => ?_⟩
      · simpa using (List.mem_filter.mp hx).2
      · change x ∈ r.client.requests ↔
          x ∈ r.client.requests.filter (fun x => x.handler ≠ e.handler) ∨ x = e
        rw [List.mem_filter]
        constructor
        · intro hx
          by_cases hhandler : x.handler = e.handler
          · exact .inr (List.inj_on_of_nodup_map h.client.nodup hx he hhandler)
          · exact .inl ⟨hx, by simpa using hhandler⟩
        · rintro (⟨hx, -⟩ | rfl)
          · exact hx
          · exact he

/-! The queue changes as the functions of the client change it. -/

theorem enqueue_client (r : ClientRun) (prep : Preparation) (request : ℕ) :
    (r.enqueue prep request).2.client = (r.client.enqueue prep request).2 := by
  unfold ClientRun.enqueue
  dsimp only
  generalize r.client.enqueue prep request = o
  obtain ⟨ok, c⟩ := o
  cases ok <;> rfl

theorem curlDequeue_client (r : ClientRun) (e : QueueEntry) :
    (r.curlDequeue e).2.client = (r.client.curlDequeue e).2 := by
  unfold ClientRun.curlDequeue
  dsimp only
  generalize r.client.curlDequeue e = o
  obtain ⟨ok, c⟩ := o
  cases ok <;> rfl

theorem dequeue_client (r : ClientRun) (request : ℕ) :
    (r.dequeue request).2.client = (r.client.dequeue request).2 := by
  unfold ClientRun.dequeue Client.dequeue
  cases r.client.enqueued request with
  | none => rfl
  | some e => exact r.curlDequeue_client e

theorem requeue_client (r : ClientRun) (prepared : Bool) (request : ℕ) :
    (r.requeue prepared request).2.client = (r.client.requeue prepared request).2 := by
  unfold ClientRun.requeue Client.requeue
  cases r.client.enqueued request with
  | none => rfl
  | some e =>
    dsimp only
    generalize r.client.curlRequeue prepared e = o
    obtain ⟨ok, c⟩ := o
    cases ok <;> rfl

theorem foldl_curlDequeue_client (r : ClientRun) (es : List QueueEntry) :
    (es.foldl (fun r e => (r.curlDequeue e).2) r).client =
      es.foldl (fun c e => (c.curlDequeue e).2) r.client := by
  induction es generalizing r with
  | nil => rfl
  | cons e es ih => rw [List.foldl_cons, ih, curlDequeue_client, List.foldl_cons]

theorem reset_client (r : ClientRun) : r.reset.client = r.client.reset :=
  congrArg Client.cleanRequests (r.foldl_curlDequeue_client r.client.requests)

theorem Sound.foldl_curlDequeue (h : r.Sound) (es : List QueueEntry) :
    (es.foldl (fun r e => (r.curlDequeue e).2) r).Sound := by
  induction es generalizing r with
  | nil => exact h
  | cons e es ih => exact ih (h.curlDequeue e)

theorem Ledger.empty (h : r.Ledger []) : { r with
    responses := []
    gone := r.gone ++ r.responses.map Answer.transfer }.Ledger [] := by
  have hperm : (r.gone ++ r.responses.map Answer.transfer).Perm r.answered :=
    List.perm_append_comm.trans h.responses
  exact ⟨h.running, h.messages, h.nodup, h.started, h.own, h.answered, h.once, h.past,
    hperm, by simp, h.unfinished⟩

theorem Sound.reset (h : r.Sound) (hdepth : r.client.depth = 0) : r.reset.Sound := by
  have hnone : (r.client.requests.foldl (fun r e => (r.curlDequeue e).2)
      r).client.requests = [] := by
    rw [foldl_curlDequeue_client]
    exact (Client.foldl_curlDequeue h.client (.inl hdepth) rfl).2
  refine ⟨?_, ?_⟩
  · rw [reset_client]
    exact h.client.reset (.inl hdepth)
  · have hledger := (h.foldl_curlDequeue r.client.requests).ledger
    rw [hnone] at hledger
    exact (hledger.empty).client _

theorem Sound.getResponse (h : r.Sound) (request : Option ℕ) : (r.getResponse request).2.Sound := by
  cases request with
  | some request => exact h
  | none =>
    refine ⟨h.client, ?_⟩
    have hl := h.ledger
    have hperm : (r.responses.dropLast.map Answer.transfer ++
        (r.gone ++ (r.responses.getLast?.map Answer.transfer).toList)).Perm r.answered := by
      refine List.Perm.trans ?_ hl.responses
      cases hlast : r.responses.getLast? with
      | none =>
        rw [List.getLast?_eq_none_iff.mp hlast]
        simp
      | some a =>
        obtain ⟨front, hfront⟩ := List.getLast?_eq_some_iff.mp hlast
        rw [hfront, List.dropLast_concat, List.map_append, List.append_assoc]
        exact List.Perm.append_left _ List.perm_append_comm
    exact ⟨hl.running, hl.messages, hl.nodup, hl.started, hl.own, hl.answered, hl.once,
      hl.past, hperm, fun a ha => hl.requests a (List.mem_of_mem_dropLast ha), hl.unfinished⟩

/-- A method that is called from a callback, if it is not `reset`, or with no callback under way. -/
theorem Sound.call (h : r.Sound) {c : UserCall} (hc : c = .reset → r.client.depth = 0) :
    (r.call c).Sound := by
  cases c with
  | enqueue prep request => exact h.enqueue prep request
  | dequeue request => exact h.dequeue request
  | requeue prepared prep request =>
    unfold ClientRun.call
    dsimp only
    split_ifs
    · exact h.requeue prepared request
    · exact h.enqueue prep request
  | reset => exact h.reset (hc rfl)
  | getResponse request => exact h.getResponse request

/-! ### Callbacks -/

theorem curlDequeue_depth (c : Client) (e : QueueEntry) : (c.curlDequeue e).2.depth = c.depth := by
  unfold Client.curlDequeue
  split_ifs <;> rfl

theorem dequeue_depth (c : Client) (request : ℕ) : (c.dequeue request).2.depth = c.depth := by
  unfold Client.dequeue
  cases c.enqueued request with
  | none => rfl
  | some e => exact curlDequeue_depth c e

theorem enqueue_depth (c : Client) (prep : Preparation) (request : ℕ) :
    (c.enqueue prep request).2.depth = c.depth := by
  unfold Client.enqueue Client.curlEnqueue
  split_ifs with hqueued
  · rfl
  · cases prep with
    | noHandler => rfl
    | unprepared => rfl
    | ready =>
      dsimp only
      split_ifs <;> rfl

theorem requeue_depth (c : Client) (prepared : Bool) (request : ℕ) :
    (c.requeue prepared request).2.depth = c.depth := by
  unfold Client.requeue
  cases c.enqueued request with
  | none => rfl
  | some e => exact congrArg Client.depth (curlRequeue_same prepared e)

theorem reset_depth (c : Client) : c.reset.depth = c.depth := by
  have hall : ∀ (es : List QueueEntry) (c : Client),
      (es.foldl (fun c e => (c.curlDequeue e).2) c).depth = c.depth := by
    intro es
    induction es with
    | nil => exact fun _ => rfl
    | cons e es ih => exact fun c => (ih _).trans (curlDequeue_depth c e)
  exact hall c.requests c

theorem call_depth (r : ClientRun) (c : UserCall) : (r.call c).client.depth = r.client.depth := by
  cases c with
  | enqueue prep request =>
    have hclient := r.enqueue_client prep request
    exact (congrArg Client.depth hclient).trans (enqueue_depth _ prep request)
  | dequeue request =>
    have hclient := r.dequeue_client request
    exact (congrArg Client.depth hclient).trans (dequeue_depth _ request)
  | requeue prepared prep request =>
    unfold ClientRun.call
    dsimp only
    split_ifs
    · rw [requeue_client, requeue_depth]
    · rw [enqueue_client, enqueue_depth]
  | reset => exact (congrArg Client.depth r.reset_client).trans (reset_depth _)
  | getResponse request => cases request <;> rfl

theorem Sound.depth (h : r.Sound) (depth : ℕ) :
    ({ r with client := { r.client with depth := depth } } : ClientRun).Sound :=
  ⟨⟨h.client.same, h.client.nodup, h.client.alive, h.client.multi_lt, h.client.freed_lt⟩,
    h.ledger.client _⟩

theorem foldl_call (h : r.Sound) {calls : List UserCall} (hcalm : .reset ∉ calls) :
    (calls.foldl call r).Sound ∧ (calls.foldl call r).client.depth = r.client.depth := by
  induction calls generalizing r with
  | nil => exact ⟨h, rfl⟩
  | cons c calls ih =>
    obtain ⟨hc, hcalls⟩ := not_or.mp (mt List.mem_cons.mpr hcalm)
    have hnext : (r.call c).Sound := h.call fun heq => absurd heq.symm hc
    obtain ⟨hsound, hdepth⟩ := ih hnext hcalls
    exact ⟨hsound, hdepth.trans (r.call_depth c)⟩

/-- A callback leaves the depth as it is. -/
theorem Sound.callback (h : r.Sound) {calls : List UserCall} (hcalm : .reset ∉ calls) :
    (r.callback calls).Sound ∧ (r.callback calls).client.depth = r.client.depth := by
  obtain ⟨hsound, hdepth⟩ := foldl_call (h.depth (r.client.depth + 1)) hcalm
  exact ⟨hsound.depth _, congrArg (· - 1) hdepth⟩

/-! ### The engine -/

theorem Ledger.perform (h : r.Ledger entries) (finished : List ℕ) :
    (r.perform finished).Ledger entries := by
  unfold ClientRun.perform
  have hdone : ∀ x ∈ (finished.filter fun x => x ∈ r.running).dedup, x ∈ r.running := by
    simp
  have hfresh := (finished.filter fun x => x ∈ r.running).nodup_dedup
  generalize (finished.filter fun x => x ∈ r.running).dedup = done at hdone hfresh
  refine ⟨fun x hx => ?_, fun x hx => ?_, ?_, h.started, h.own, fun e he => ?_, h.once, h.past,
    h.responses, h.requests, le_rfl⟩
  · exact h.running x (Finset.mem_sdiff.mp hx).1
  · rcases List.mem_append.mp hx with hx | hx
    · obtain ⟨hmem, hrun⟩ := h.messages x hx
      exact ⟨hmem, fun hx' => hrun (Finset.mem_sdiff.mp hx').1⟩
    · refine ⟨h.running x (hdone x hx), fun hx' => (Finset.mem_sdiff.mp hx').2 ?_⟩
      exact List.mem_toFinset.mpr hx
  · refine h.nodup.append hfresh fun x hx hx' => ?_
    exact (h.messages x hx).2 (hdone x hx')
  · refine (h.answered e he).trans ?_
    have hin : e.handler ∈ done → e.handler ∈ r.running := hdone e.handler
    simp only [Finset.mem_sdiff, List.mem_toFinset, List.mem_append]
    tauto

/-- The first report is taken away and the response for it is put into the list. -/
theorem Ledger.answer (h : r.Ledger entries) {handler : ℕ} {messages : List ℕ}
    (hmessages : r.messages = handler :: messages) {e : QueueEntry} (he : e ∈ entries)
    (hhandler : e.handler = handler) :
    ({ r with
      messages := messages
      responses := r.responses ++ [Answer.mk e.request (r.transfer e.handler)]
      answered := r.answered ++ [r.transfer e.handler] } : ClientRun).Ledger entries := by
  subst hhandler
  have hnodup := h.nodup
  rw [hmessages, List.nodup_cons] at hnodup
  have hlater : ∀ x ∈ messages, x ∈ r.messages := fun x hx => hmessages ▸ List.mem_cons_of_mem _ hx
  have hfirst : e.handler ∈ r.messages := hmessages ▸ List.mem_cons_self
  have hnot : r.transfer e.handler ∉ r.answered := fun ht => ((h.answered e he).mp ht).2 hfirst
  refine ⟨h.running, fun x hx => h.messages x (hlater x hx), hnodup.2, h.started, h.own,
    fun e' he' => ?_, h.once.append (List.nodup_singleton _) (by simpa using hnot), fun t ht =>
      ?_, ?_, fun a ha => ?_, h.unfinished⟩
  · rw [List.mem_append, List.mem_singleton]
    by_cases heq : e'.handler = e.handler
    · rw [heq]
      exact iff_of_true (.inr rfl) ⟨(h.messages _ hfirst).2, hnodup.1⟩
    · have hother : r.transfer e'.handler ≠ r.transfer e.handler :=
        fun ht => heq (h.own e' he' e he ht)
      rw [or_iff_left hother, h.answered e' he', hmessages, List.mem_cons, not_or]
      simp [heq]
  · rcases List.mem_append.mp ht with ht | ht
    · exact h.past t ht
    · rw [List.mem_singleton.mp ht]
      exact h.past_started he
  · rw [List.map_append, List.append_assoc]
    have hlast : (r.responses.map Answer.transfer ++ (r.gone ++ [r.transfer e.handler])).Perm
        (r.answered ++ [r.transfer e.handler]) := by
      rw [← List.append_assoc]
      exact h.responses.append_right _
    exact (List.Perm.append_left _ List.perm_append_comm).trans hlast
  · rcases List.mem_append.mp ha with ha | ha
    · exact h.requests a ha
    · rw [List.mem_singleton.mp ha]
      exact h.started e he

theorem Sound.handleResponse (h : r.Sound) (hdepth : r.client.depth = 0) {handler : ℕ}
    {messages : List ℕ} (hmessages : r.messages = handler :: messages) {e : QueueEntry}
    (he : e ∈ r.client.requests) (hhandler : e.handler = handler) {reaction : Reaction}
    (hcalm : .reset ∉ reaction.calls) :
    ({ r with messages := messages }.handleResponse e reaction).Sound ∧
      ({ r with messages := messages }.handleResponse e reaction).client.depth = 0 := by
  have hanswer : ({ r with
      messages := messages
      responses := r.responses ++ [Answer.mk e.request (r.transfer e.handler)]
      answered := r.answered ++ [r.transfer e.handler] } : ClientRun).Sound :=
    ⟨h.client, h.ledger.answer hmessages he hhandler⟩
  obtain ⟨hsound, hsame⟩ := hanswer.callback hcalm
  unfold ClientRun.handleResponse
  dsimp only
  split_ifs
  · refine ⟨hsound.dequeue e.request, ?_⟩
    rw [dequeue_client, dequeue_depth]
    exact hsame.trans hdepth
  · exact ⟨hsound, hsame.trans hdepth⟩

/-- All reports have been dealt with. -/
theorem Sound.responsehandler (h : r.Sound) (hdepth : r.client.depth = 0)
    {reactions : List Reaction} (hcalm : ∀ reaction ∈ reactions, .reset ∉ reaction.calls)
    {after : ClientRun} (hafter : ClientRun.responsehandler reactions r = some after) :
    after.Sound ∧ after.client.depth = 0 ∧ after.messages = [] := by
  induction reactions generalizing r with
  | nil =>
    unfold ClientRun.responsehandler at hafter
    split_ifs at hafter with hnone
    obtain rfl := Option.some.inj hafter
    exact ⟨h, hdepth, hnone⟩
  | cons reaction reactions ih =>
    rw [List.forall_mem_cons] at hcalm
    unfold ClientRun.responsehandler at hafter
    cases hmessages : r.messages with
    | nil =>
      rw [hmessages] at hafter
      obtain rfl := Option.some.inj hafter
      exact ⟨h, hdepth, hmessages⟩
    | cons handler messages =>
      rw [hmessages] at hafter
      dsimp only at hafter
      have hreport : handler ∈ r.messages := hmessages ▸ List.mem_cons_self
      obtain ⟨⟨e, he, heq⟩, -⟩ := h.ledger.messages handler hreport
      cases hfind : r.client.requests.find? (fun e => e.handler = handler) with
      | none => exact absurd heq (by simpa using List.find?_eq_none.mp hfind e he)
      | some e =>
        rw [hfind] at hafter
        have hhandler : e.handler = handler := by simpa using List.find?_some hfind
        have hmem := List.mem_of_find?_eq_some hfind
        obtain ⟨hsound, hdepth'⟩ := h.handleResponse hdepth hmessages hmem hhandler hcalm.1
        exact ih hsound hdepth' hcalm.2 hafter

/-- No callback of the round calls `reset`. -/
def Round.Calm (round : Round) : Prop :=
  .reset ∉ round.calls ∧ ∀ reaction ∈ round.reactions, .reset ∉ reaction.calls

theorem Sound.once (h : r.Sound) (hdepth : r.client.depth = 0) {round : Round}
    (hcalm : Round.Calm round) {after : ClientRun} (hafter : r.once round = some after) :
    after.Sound ∧ after.client.depth = 0 ∧ after.messages = [] := by
  unfold ClientRun.once at hafter
  rw [if_neg (not_not.mpr hdepth)] at hafter
  obtain ⟨hsound, hsame⟩ := h.callback hcalm.1
  have hperform : ((r.callback round.calls).perform round.finished).Sound :=
    ⟨hsound.client, hsound.ledger.perform round.finished⟩
  exact hperform.responsehandler (hsame.trans hdepth) hcalm.2 hafter

/-! ### Runs -/

/-- The states of a client between calls, of which no callback calls `reset`. -/
inductive Reached : ClientRun → Prop
  | init : Reached init
  | call {r : ClientRun} (c : UserCall) : Reached r → Reached (r.call c)
  | callback {r : ClientRun} {calls : List UserCall} :
    Reached r → .reset ∉ calls → Reached (r.callback calls)
  | once {r after : ClientRun} {round : Round} : Reached r → Round.Calm round →
    r.once round = some after → Reached after

theorem Reached.sound (h : r.Reached) : r.Sound ∧ r.client.depth = 0 := by
  induction h with
  | init =>
    refine ⟨⟨?_, ?_⟩, rfl⟩
    · constructor <;> simp [ClientRun.init, Client.init]
    · constructor <;> simp [ClientRun.init, Client.init]
  | call c _ ih => exact ⟨ih.1.call fun _ => ih.2, (call_depth _ c).trans ih.2⟩
  | callback _ hcalm ih =>
    obtain ⟨hsound, hsame⟩ := ih.1.callback hcalm
    exact ⟨hsound, hsame.trans ih.2⟩
  | once _ hcalm hafter ih =>
    obtain ⟨hsound, hdepth, -⟩ := ih.1.once ih.2 hcalm hafter
    exact ⟨hsound, hdepth⟩

/-- The responses are those for the transfers that have been answered, each once, with the requests
the transfers were started for; and what a transfer of the queue has not been answered for is under
way or reported. -/
structure Accounted (r : ClientRun) : Prop where
  once : r.answered.Nodup
  responses : (r.responses.map Answer.transfer ++ r.gone).Perm r.answered
  requests : ∀ a ∈ r.responses, r.started[a.transfer]? = some a.request
  started : ∀ e ∈ r.client.requests, r.started[r.transfer e.handler]? = some e.request
  answered : ∀ e ∈ r.client.requests,
    r.transfer e.handler ∈ r.answered ↔ e.handler ∉ r.running ∧ e.handler ∉ r.messages

theorem Sound.accounted (h : r.Sound) : r.Accounted :=
  ⟨h.ledger.once, h.ledger.responses, h.ledger.requests, h.ledger.started, h.ledger.answered⟩

/-- Nothing is left to do: the last transfer of every request in the queue has been answered. -/
structure Finished (r : ClientRun) : Prop where
  running : r.running = ∅
  messages : r.messages = []
  answered : ∀ e ∈ r.client.requests, r.transfer e.handler ∈ r.answered

theorem Sound.finished (h : r.Sound) (hmessages : r.messages = [])
    (hunfinished : r.unfinished = 0) : r.Finished := by
  have hcard : r.running.card = 0 := Nat.le_zero.mp (hunfinished ▸ h.ledger.unfinished)
  have hrunning : r.running = ∅ := Finset.card_eq_zero.mp hcard
  refine ⟨hrunning, hmessages, fun e he => (h.ledger.answered e he).mpr ?_⟩
  rw [hrunning, hmessages]
  simp

/-- The rounds of `exec`. -/
theorem Reached.exec (h : r.Reached) {rounds : List Round}
    (hcalm : ∀ round ∈ rounds, Round.Calm round ∧ round.exception = false) {ok : Bool}
    {after : ClientRun} (hafter : r.exec rounds = some (ok, after)) :
    after.Reached ∧ (ok = true → after.Finished) := by
  induction rounds generalizing r with
  | nil => cases hafter
  | cons round rounds ih =>
    rw [List.forall_mem_cons] at hcalm
    obtain ⟨⟨hround, hexception⟩, hrounds⟩ := hcalm
    obtain ⟨hsound, hdepth⟩ := h.sound
    unfold ClientRun.exec at hafter
    rw [if_neg (not_not.mpr hdepth)] at hafter
    obtain ⟨next, honce, hnext⟩ := Option.bind_eq_some_iff.mp hafter
    obtain ⟨hsound', -, hmessages⟩ := hsound.once hdepth hround honce
    have hreached : next.Reached := h.once hround honce
    rw [hexception] at hnext
    by_cases hunfinished : next.unfinished = 0
    · rw [if_pos (.inl hunfinished)] at hnext
      obtain ⟨rfl, rfl⟩ := Prod.mk.inj (Option.some.inj hnext)
      exact ⟨hreached, fun _ => hsound'.finished hmessages hunfinished⟩
    · rw [if_neg (by simpa using hunfinished)] at hnext
      by_cases hwaited : round.waited = true
      · rw [if_pos hwaited] at hnext
        exact ih hreached hrounds hnext
      · rw [if_neg hwaited] at hnext
        obtain ⟨rfl, rfl⟩ := Prod.mk.inj (Option.some.inj hnext)
        exact ⟨hreached, by simp⟩

/-- Every transfer is answered at most once, by a response with the request it was started for, and
responses are not lost; and when `exec` has succeeded without an exception, no request in the queue
is without an answer. -/
theorem exec_answers (h : r.Reached) {rounds : List Round}
    (hcalm : ∀ round ∈ rounds, Round.Calm round ∧ round.exception = false) :
    r.Accounted ∧ ∀ ok after, r.exec rounds = some (ok, after) →
      after.Accounted ∧ (ok = true → after.Finished) := by
  refine ⟨h.sound.1.accounted, fun ok after hafter => ?_⟩
  obtain ⟨hreached, hfinished⟩ := h.exec hcalm hafter
  exact ⟨hreached.sound.1.accounted, hfinished⟩

/-- A request is sent again from the callback for its response, and another one is dequeued by its
closure. -/
theorem exec_answers_requeued :
    ∃ after, ((init.call (.enqueue .ready 7)).call (.enqueue .ready 8)).exec
        [⟨[], [0, 1], [⟨[.requeue true .ready 7], false⟩, ⟨[], true⟩], false, true⟩,
          ⟨[], [0], [⟨[], false⟩], false, true⟩] = some (true, after) ∧
      after.responses = [⟨7, 0⟩, ⟨8, 1⟩, ⟨7, 2⟩] ∧ after.client.requests = [⟨7, 0⟩] ∧
        after.Accounted ∧ after.Finished := by
  have hcalm : ∀ round ∈
      [(⟨[], [0, 1], [⟨[.requeue true .ready 7], false⟩, ⟨[], true⟩], false, true⟩ : Round),
        ⟨[], [0], [⟨[], false⟩], false, true⟩], Round.Calm round ∧ round.exception = false := by
    unfold Round.Calm
    simp
  have h := exec_answers (.call (.enqueue .ready 8) (.call (.enqueue .ready 7) .init)) hcalm
  obtain ⟨haccounted, hfinished⟩ := h.2 true _ rfl
  exact ⟨_, rfl, by decide, by decide, haccounted, hfinished rfl⟩

end ClientRun
end ExtHttp
