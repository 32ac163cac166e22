import Mathlib

/-!
# The queue of a client and the engine

The requests of `php_http_client_t` and the easy handles on curl's multi handle, and the operations
that change both. The multi handle is a set; every handler has an easy handle of its own.
-/
namespace ExtHttp

/-- `php_http_client_enqueue_t`: a request, which is known by its address, and the handler it
got. -/
structure QueueEntry where
  request : ℕ
  handler : ℕ
  deriving DecidableEq, Repr

/-- `php_http_client_t` with its engine. Handlers are numbered as they are allocated. -/
structure Client where
  multi : Finset ℕ
  requests : List QueueEntry
  depth : ℕ
  uncleanShutdown : Bool
  allocated : ℕ
  freed : Finset ℕ
  deriving DecidableEq

/-- How far `php_http_client_curl_enqueue` comes with a new handler. -/
inductive Preparation
  | noHandler
  | unprepared
  | ready
  deriving DecidableEq, Repr

namespace Client

def init : Client := ⟨∅, [], 0, false, 0, ∅⟩

/-- `php_http_client_enqueued` -/
def enqueued (h : Client) (request : ℕ) : Option QueueEntry :=
  h.requests.find? fun e => e.request = request

/-- `php_http_client_curl_handler_dtor` -/
def handlerDtor (h : Client) (handler : ℕ) : Client := { h with freed := insert handler h.freed }

/-- `zend_llist_del_element` with `compare_queue`, and the destructor of the element. -/
def delElement (h : Client) (handler : ℕ) : Client :=
  { h with requests := h.requests.eraseP fun e => e.handler = handler }.handlerDtor handler

/-- `php_http_client_curl_enqueue` -/
def curlEnqueue (prep : Preparation) (h : Client) (request : ℕ) : Bool × Client :=
  let handler := h.allocated
  let allocated := { h with allocated := h.allocated + 1 }
  match prep with
  | .noHandler => (false, h)
  | .unprepared => (false, allocated.handlerDtor handler)
  | .ready =>
      if handler ∈ h.multi then (false, allocated.handlerDtor handler)
      else (true, { allocated with
        multi := insert handler h.multi
        requests := h.requests ++ [⟨request, handler⟩] })

/-- `php_http_client_enqueue` -/
def enqueue (prep : Preparation) (h : Client) (request : ℕ) : Bool × Client :=
  if (h.enqueued request).isSome then (false, h) else h.curlEnqueue prep request

/-- `php_http_client_curl_dequeue` -/
def curlDequeue (h : Client) (enqueue : QueueEntry) : Bool × Client :=
  if h.depth ≠ 0 && !h.uncleanShutdown then (false, h)
  else if enqueue.handler ∈ h.multi then
    (true, { h with multi := h.multi.erase enqueue.handler }.delElement enqueue.handler)
  else (false, h)

/-- `php_http_client_dequeue` -/
def dequeue (h : Client) (request : ℕ) : Bool × Client :=
  match h.enqueued request with
  | none => (false, h)
  | some enqueue => h.curlDequeue enqueue

/-- `php_http_client_curl_requeue`; `prepared` tells whether the handler could be reset and
prepared. -/
def curlRequeue (prepared : Bool) (h : Client) (enqueue : QueueEntry) : Bool × Client :=
  if prepared = false then (false, h)
  else if enqueue.handler ∉ h.multi then (false, h)
  else
    let removed := { h with multi := h.multi.erase enqueue.handler }
    if enqueue.handler ∈ removed.multi then (false, removed.delElement enqueue.handler)
    else (true, { removed with multi := insert enqueue.handler removed.multi })

/-- `php_http_client_requeue` -/
def requeue (prepared : Bool) (h : Client) (request : ℕ) : Bool × Client :=
  match h.enqueued request with
  | none => (false, h)
  | some enqueue => h.curlRequeue prepared enqueue

/-- `php_http_client_curl_reset` -/
def curlReset (h : Client) : Client := h.requests.foldl (fun h e => (h.curlDequeue e).2) h

/-- `zend_llist_clean` on the requests, with their destructors. -/
def cleanRequests (h : Client) : Client :=
  { h with
    requests := []
    freed := h.freed ∪ (h.requests.map QueueEntry.handler).toFinset }

/-- `php_http_client_reset` -/
def reset (h : Client) : Client := h.curlReset.cleanRequests

end Client

/-- What happens to a client, step by step. The engine itself neither adds nor removes anything: it
calls back, and dequeues the request of a response if the callback has said so. Callbacks are
entered from `once`, `exec`, `enqueue` and `requeue`, and whatever they call is a step at their
depth. -/
inductive ClientStep
  | enqueue (prep : Preparation) (request : ℕ)
  | dequeue (request : ℕ)
  | requeue (prepared : Bool) (request : ℕ)
  | reset
  | enterCallback
  | leaveCallback
  | fatalError
  deriving DecidableEq, Repr

namespace Client

def step (h : Client) : ClientStep → Client
  | .enqueue prep request => (h.enqueue prep request).2
  | .dequeue request => (h.dequeue request).2
  | .requeue prepared request => (h.requeue prepared request).2
  | .reset => h.reset
  | .enterCallback => { h with depth := h.depth + 1 }
  | .leaveCallback => { h with depth := h.depth - 1 }
  | .fatalError => { h with uncleanShutdown := true }

/-- Queue and engine hold the same handlers, none of which has been freed, and dequeueing takes an
entry out of the queue or fails. -/
structure InStep (h : Client) : Prop where
  same : ∀ handler, handler ∈ h.multi ↔ ∃ e ∈ h.requests, e.handler = handler
  alive : ∀ handler ∈ h.freed, handler ∉ h.multi ∧ ∀ e ∈ h.requests, e.handler ≠ handler
  refused : ∀ request, (h.dequeue request).1 = false → (h.dequeue request).2.requests = h.requests

/-- A reset with requests in the queue does not come from a callback. -/
def ResetsOutside (h : Client) (s : ClientStep) : Prop :=
  s = .reset → h.depth = 0 ∨ h.uncleanShutdown = true ∨ h.requests = []

/-- The states that steps lead to, of which no reset comes from a callback. -/
inductive Reached : Client → Prop
  | init : Reached init
  | step {h : Client} (s : ClientStep) : Reached h → h.ResetsOutside s → Reached (h.step s)

/-! ### The invariant -/

/-- Every entry has a handler of its own, which is on the multi handle and not freed; nothing else
is on the multi handle. -/
structure Consistent (h : Client) : Prop where
  same : ∀ handler, handler ∈ h.multi ↔ ∃ e ∈ h.requests, e.handler = handler
  nodup : (h.requests.map QueueEntry.handler).Nodup
  alive : Disjoint h.freed h.multi
  multi_lt : ∀ handler ∈ h.multi, handler < h.allocated
  freed_lt : ∀ handler ∈ h.freed, handler < h.allocated

variable {h : Client}

theorem filter_handler_self {es : List QueueEntry} {handler : ℕ}
    (h : handler ∉ es.map QueueEntry.handler) : es.filter (fun e => e.handler ≠ handler) = es := by
  refine List.filter_eq_self.mpr fun e he => ?_
  have hne : e.handler ≠ handler := fun heq => h (heq ▸ List.mem_map_of_mem he)
  simpa using hne

/-- As no handler is there twice, the element that is deleted is the only one. -/
theorem eraseP_handler {es : List QueueEntry} (h : (es.map QueueEntry.handler).Nodup)
    (handler : ℕ) :
    es.eraseP (fun e => e.handler = handler) = es.filter fun e => e.handler ≠ handler := by
  induction es with
  | nil => rfl
  | cons e es ih =>
    rw [List.map_cons, List.nodup_cons] at h
    by_cases he : e.handler = handler
    · rw [List.eraseP_cons_of_pos (by simpa using he), List.filter_cons_of_neg (by simpa using he),
        filter_handler_self (he ▸ h.1)]
    · rw [List.eraseP_cons_of_neg (by simpa using he), List.filter_cons_of_pos (by simpa using he),
        ih h.2]

/-- An entry is dequeued. -/
theorem Consistent.delElement (hc : h.Consistent) {handler : ℕ} (hmem : handler ∈ h.multi) :
    ({ h with multi := h.multi.erase handler }.delElement handler).Consistent := by
  have herase := eraseP_handler hc.nodup handler
  refine ⟨fun x => ?_, ?_, ?_, fun x hx => ?_, fun x hx => ?_⟩
  · simp only [Client.delElement, handlerDtor, herase, Finset.mem_erase, hc.same, List.mem_filter]
    constructor
    · rintro ⟨hne, e, he, rfl⟩
      exact ⟨e, ⟨he, by simpa using hne⟩, rfl⟩
    · rintro ⟨e, ⟨he, hne⟩, rfl⟩
      exact ⟨by simpa using hne, e, he, rfl⟩
  · simp only [Client.delElement, handlerDtor, herase]
    exact hc.nodup.sublist (List.filter_sublist.map _)
  · simp only [Client.delElement, handlerDtor, Finset.disjoint_insert_left, Finset.mem_erase]
    exact ⟨by simp, hc.alive.mono_right (Finset.erase_subset _ _)⟩
  · exact hc.multi_lt x (Finset.mem_of_mem_erase hx)
  · rcases Finset.mem_insert.mp hx with rfl | hx
    · exact hc.multi_lt x hmem
    · exact hc.freed_lt x hx

/-- A handler that is not used, and not going to be, does not matter. -/
theorem Consistent.unused (hc : h.Consistent) :
    ({ h with allocated := h.allocated + 1 }.handlerDtor h.allocated).Consistent := by
  refine ⟨hc.same, hc.nodup, ?_, fun x hx => (hc.multi_lt x hx).trans (Nat.lt_succ_self _),
    fun x hx => ?_⟩
  · exact Finset.disjoint_insert_left.mpr ⟨fun hx => (hc.multi_lt _ hx).false, hc.alive⟩
  · rcases Finset.mem_insert.mp hx with rfl | hx
    · exact Nat.lt_succ_self _
    · exact (hc.freed_lt x hx).trans (Nat.lt_succ_self _)

theorem Consistent.fresh (hc : h.Consistent) : h.allocated ∉ h.multi := fun hx =>
  (hc.multi_lt _ hx).false

/-- A new handler is put on the multi handle and into the queue. -/
theorem Consistent.curlEnqueue (hc : h.Consistent) (prep : Preparation) (request : ℕ) :
    (h.curlEnqueue prep request).2.Consistent := by
  cases prep with
  | noHandler => exact hc
  | unprepared => exact hc.unused
  | ready =>
    rw [Client.curlEnqueue]
    dsimp only
    rw [if_neg hc.fresh]
    refine ⟨fun x => ?_, ?_, ?_, fun x hx => ?_, fun x hx =>
      (hc.freed_lt x hx).trans (Nat.lt_succ_self _)⟩
    · simp only [Finset.mem_insert, hc.same, List.mem_append, List.mem_singleton, or_and_right,
        exists_or, exists_eq_left]
      exact or_comm.trans (or_congr Iff.rfl eq_comm)
    · have hnew : h.allocated ∉ h.requests.map QueueEntry.handler := fun hx => by
        obtain ⟨e, he, heq⟩ := List.mem_map.mp hx
        exact hc.fresh ((hc.same _).mpr ⟨e, he, heq⟩)
      rw [List.map_append]
      exact hc.nodup.append (List.nodup_singleton _) (List.disjoint_singleton.mpr hnew)
    · exact Finset.disjoint_insert_right.mpr ⟨fun hx => (hc.freed_lt _ hx).false, hc.alive⟩
    · rcases Finset.mem_insert.mp hx with rfl | hx
      · exact Nat.lt_succ_self _
      · exact (hc.multi_lt x hx).trans (Nat.lt_succ_self _)

theorem Consistent.enqueue (hc : h.Consistent) (prep : Preparation) (request : ℕ) :
    (h.enqueue prep request).2.Consistent := by
  unfold Client.enqueue
  split_ifs
  · exact hc
  · exact hc.curlEnqueue prep request

theorem Consistent.curlDequeue (hc : h.Consistent) (e : QueueEntry) :
    (h.curlDequeue e).2.Consistent := by
  unfold Client.curlDequeue
  split_ifs with hdepth hmem
  · exact hc
  · exact hc.delElement hmem
  · exact hc

theorem Consistent.dequeue (hc : h.Consistent) (request : ℕ) :
    (h.dequeue request).2.Consistent := by
  unfold Client.dequeue
  cases h.enqueued request with
  | none => exact hc
  | some e => exact hc.curlDequeue e

theorem Consistent.requeue (hc : h.Consistent) (prepared : Bool) (request : ℕ) :
    (h.requeue prepared request).2.Consistent := by
  unfold Client.requeue
  cases h.enqueued request with
  | none => exact hc
  | some e =>
    dsimp only
    unfold Client.curlRequeue
    split_ifs with hprepared hmem
    · exact hc
    · dsimp only
      rw [if_neg (Finset.notMem_erase _ _), Finset.insert_erase hmem]
      exact hc
    · exact hc

/-! ### Reset -/

/-- Dequeueing all entries, where nothing refuses it, leaves none of them. -/
theorem foldl_curlDequeue {h : Client} (hc : h.Consistent)
    (hopen : h.depth = 0 ∨ h.uncleanShutdown = true) {es : List QueueEntry}
    (hes : h.requests = es) :
    (es.foldl (fun h e => (h.curlDequeue e).2) h).Consistent ∧
      (es.foldl (fun h e => (h.curlDequeue e).2) h).requests = [] := by
  induction es generalizing h with
  | nil => exact ⟨hc, hes⟩
  | cons e es ih =>
    have hmem : e.handler ∈ h.multi := (hc.same _).mpr ⟨e, by simp [hes], rfl⟩
    have hrefused : ¬ (h.depth ≠ 0 && !h.uncleanShutdown) = true := by
      rcases hopen with hopen | hopen <;> simp [hopen]
    have hstep : (h.curlDequeue e).2 =
        { h with multi := h.multi.erase e.handler }.delElement e.handler := by
      rw [Client.curlDequeue, if_neg hrefused, if_pos hmem]
    rw [List.foldl_cons, hstep]
    refine ih (hc.delElement hmem) hopen ?_
    simp [Client.delElement, handlerDtor, hes]

theorem Consistent.reset (hc : h.Consistent)
    (hopen : h.depth = 0 ∨ h.uncleanShutdown = true ∨ h.requests = []) : h.reset.Consistent := by
  have hempty : h.curlReset.Consistent ∧ h.curlReset.requests = [] := by
    unfold curlReset
    rcases hopen with hopen | hopen | hopen
    · exact foldl_curlDequeue hc (.inl hopen) rfl
    · exact foldl_curlDequeue hc (.inr hopen) rfl
    · rw [hopen]
      exact ⟨hc, hopen⟩
  have hclean : h.reset = { h.curlReset with requests := [] } := by
    simp [Client.reset, cleanRequests, hempty.2]
  rw [hclean, ← hempty.2]
  exact hempty.1

theorem Consistent.step (hc : h.Consistent) (s : ClientStep) (hs : h.ResetsOutside s) :
    (h.step s).Consistent := by
  cases s with
  | enqueue prep request => exact hc.enqueue prep request
  | dequeue request => exact hc.dequeue request
  | requeue prepared request => exact hc.requeue prepared request
  | reset => exact hc.reset (hs rfl)
  | _ => exact ⟨hc.same, hc.nodup, hc.alive, hc.multi_lt, hc.freed_lt⟩

theorem dequeue_refused (request : ℕ) (hfail : (h.dequeue request).1 = false) :
    (h.dequeue request).2.requests = h.requests := by
  unfold Client.dequeue at hfail ⊢
  cases henqueued : h.enqueued request with
  | none => rfl
  | some e =>
    rw [henqueued] at hfail
    dsimp only at hfail ⊢
    unfold Client.curlDequeue at hfail ⊢
    split_ifs at hfail ⊢ <;> rfl

theorem Consistent.inStep (hc : h.Consistent) : h.InStep where
  same := hc.same
  alive handler hfreed :=
    ⟨Finset.disjoint_left.mp hc.alive hfreed, fun e he heq =>
      Finset.disjoint_left.mp hc.alive hfreed ((hc.same handler).mpr ⟨e, he, heq⟩)⟩
  refused := dequeue_refused

/-- As long as no reset comes from a callback while there are requests, queue and engine stay in
step. -/
theorem reached_inStep {h : Client} (hr : Reached h) : h.InStep := by
  suffices hc : h.Consistent from hc.inStep
  induction hr with
  | init => exact ⟨by simp [init], by simp [init], by simp [init], by simp [init], by simp [init]⟩
  | step s _ hs ih => exact ih.step s hs

/-- From a callback a request cannot be dequeued, and another one is enqueued. The reset comes
behind the callback. -/
theorem reached_inStep_callback :
    let called := (init.step (.enqueue .ready 0)).step .enterCallback
    let left := ((called.step (.dequeue 0)).step (.enqueue .ready 1)).step .leaveCallback
    (called.dequeue 0).1 = false ∧ left.requests = [⟨0, 0⟩, ⟨1, 1⟩] ∧ left.InStep ∧
      (left.step .reset).requests = [] ∧ (left.step .reset).InStep := by
  intro called left
  have hcalled : Reached called :=
    .step .enterCallback (.step (.enqueue .ready 0) .init fun h => by cases h) fun h => by cases h
  have hleft : Reached left := .step .leaveCallback (.step (.enqueue .ready 1)
    (.step (.dequeue 0) hcalled fun h => by cases h) fun h => by cases h) fun h => by cases h
  exact ⟨by decide, by decide, reached_inStep hleft, by decide,
    reached_inStep (.step .reset hleft fun _ => .inl (by decide))⟩

/-- A reset from a callback frees the handler of a request and leaves it on the multi handle. -/
theorem reset_out_of_step :
    let h := ((init.step (.enqueue .ready 0)).step .enterCallback).step .reset
    h.requests = [] ∧ 0 ∈ h.freed ∧ 0 ∈ h.multi ∧ ¬ h.InStep := by
  have h : (((init.step (.enqueue .ready 0)).step .enterCallback).step .reset).requests = [] ∧
      0 ∈ (((init.step (.enqueue .ready 0)).step .enterCallback).step .reset).freed ∧
      0 ∈ (((init.step (.enqueue .ready 0)).step .enterCallback).step .reset).multi := by decide
  exact ⟨h.1, h.2.1, h.2.2, fun hin => (hin.alive 0 h.2.1).1 h.2.2⟩

end Client
end ExtHttp
