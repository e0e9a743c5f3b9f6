import Mathlib.Data.List.TakeWhile
import Raftpp.Core.ReadOnly

/-!
# The queue of pending reads

`ReadOnly` keeps a read request twice: its context in a queue, its status in a map
under that context.  What it means is one list of requests in arrival order, and
`Holds` says that queue and map are together this list.  Every call keeps that, so
a queued context always has a status: the search of `Advance` does not abort, nor
does the loop that takes the statuses out.
-/

namespace Raftpp

open ListMap (emplace keys)

variable {ctx : Bytes}

open List

/-! ## Requests in arrival order -/

/-- The requests not yet answered, oldest first, each under its context. -/
abbrev ReadQueue := ListMap Bytes ReadIndexStatus

namespace ReadQueue

/-- A request whose context is already queued is dropped, as is one without a context. -/
def addRequest (q : ReadQueue) (index : ℕ) (req : Message) (selfId : ℕ) : ReadQueue :=
  match ReadOnly.requestCtx req with
  | none => q
  | some ctx => emplace q ctx ⟨req, index, (∅ : IdSet).insert selfId⟩

def recvAck (q : ReadQueue) (id : ℕ) (ctx : Bytes) : ReadQueue :=
  ListMap.modify q ctx fun status => { status with acks := status.acks.insert id }

/-- The requests after `ctx`, and those up to and including it; none of them if `ctx` is not
queued. -/
def advance (q : ReadQueue) (ctx : Bytes) : ReadQueue × List ReadIndexStatus :=
  match q.dropWhile fun r => r.1 ≠ ctx with
  | [] => (q, [])
  | r :: rest => (rest, ((q.takeWhile fun r => r.1 ≠ ctx) ++ [r]).map Prod.snd)

theorem advance_of_not_mem {q : ReadQueue} (h : ctx ∉ keys q) :
    q.advance ctx = (q, []) := by
  have hnone : q.dropWhile (fun r => r.1 ≠ ctx) = [] := by
    rw [dropWhile_eq_nil_iff]
    intro r hr
    have hne : r.1 ≠ ctx := fun heq => h (heq ▸ mem_map_of_mem hr)
    simpa using hne
  unfold advance
  rw [hnone]

theorem advance_append {before after : ReadQueue} {status : ReadIndexStatus}
    (h : ctx ∉ keys before) :
    advance (before ++ (ctx, status) :: after) ctx =
      (after, (before ++ [(ctx, status)]).map Prod.snd) := by
  have hbefore : ∀ r ∈ before, decide (r.1 ≠ ctx) = true := by
    intro r hr
    have hne : r.1 ≠ ctx := fun heq => h (heq ▸ mem_map_of_mem hr)
    simpa using hne
  have hrest : (before ++ (ctx, status) :: after).dropWhile (fun r => r.1 ≠ ctx) =
      (ctx, status) :: after := by
    rw [dropWhile_append_of_pos hbefore, dropWhile_cons_of_neg (by simp)]
  have hdone : (before ++ (ctx, status) :: after).takeWhile (fun r => r.1 ≠ ctx) = before := by
    rw [takeWhile_append_of_pos hbefore, takeWhile_cons_of_neg (by simp), append_nil]
  unfold advance
  rw [hrest, hdone]

/-- A queued context splits the queue at its request. -/
theorem exists_split {q : ReadQueue} (h : ctx ∈ keys q) :
    ∃ before status after, q = before ++ (ctx, status) :: after ∧ ctx ∉ ListMap.keys before := by
  induction q with
  | nil => cases h
  | cons r q ih =>
      obtain ⟨key, status⟩ := r
      by_cases hkey : ctx = key
      · subst hkey
        exact ⟨[], status, q, rfl, not_mem_nil⟩
      · obtain ⟨before, status', after, rfl, hbefore⟩ :=
          ih ((mem_cons.mp h).resolve_left hkey)
        refine ⟨(key, status) :: before, status', after, rfl, fun hmem => ?_⟩
        exact (mem_cons.mp hmem).elim hkey hbefore

/-! ### The order of the indexes -/

/-- The requests were accepted at indexes that do not decrease and are at most `bound`. -/
structure Ordered (q : ReadQueue) (bound : ℕ) : Prop where
  sorted : q.Pairwise fun r r' => r.2.index ≤ r'.2.index
  le_bound : ∀ r ∈ q, r.2.index ≤ bound

namespace Ordered

variable {q : ReadQueue} {bound : ℕ}

theorem addRequest (h : Ordered q bound) {index : ℕ} (hindex : bound ≤ index) (req : Message)
    (selfId : ℕ) : Ordered (q.addRequest index req selfId) index := by
  have hold : Ordered q index := ⟨h.sorted, fun r hr => (h.le_bound r hr).trans hindex⟩
  unfold ReadQueue.addRequest
  split
  · exact hold
  · unfold emplace
    split
    · exact hold
    · refine ⟨?_, ?_⟩
      · rw [pairwise_append]
        refine ⟨h.sorted, pairwise_singleton _ _, fun r hr r' hr' => ?_⟩
        obtain rfl := mem_singleton.mp hr'
        exact hold.le_bound r hr
      · intro r hr
        rcases mem_append.mp hr with hr | hr
        · exact hold.le_bound r hr
        · obtain rfl := mem_singleton.mp hr
          exact le_rfl

theorem recvAck (h : Ordered q bound) (id : ℕ) (ctx : Bytes) :
    Ordered (q.recvAck id ctx) bound := by
  have hindex : ∀ r : Bytes × ReadIndexStatus,
      (if r.1 = ctx then (r.1, { r.2 with acks := r.2.acks.insert id }) else r).2.index =
        r.2.index := by
    intro r
    split <;> rfl
  refine ⟨?_, fun r hr => ?_⟩
  · refine pairwise_map.mpr (h.sorted.imp fun {r r'} hle => ?_)
    rw [hindex, hindex]
    exact hle
  · obtain ⟨r', hr', rfl⟩ := mem_map.mp hr
    rw [hindex]
    exact h.le_bound r' hr'

/-- What is released is in order, and so is what stays. -/
theorem advance (h : Ordered q bound) (ctx : Bytes) :
    Ordered (q.advance ctx).1 bound ∧
      (q.advance ctx).2.Pairwise fun s s' => s.index ≤ s'.index := by
  by_cases hctx : ctx ∈ keys q
  · obtain ⟨before, status, after, rfl, hbefore⟩ := exists_split hctx
    obtain ⟨hsorted, hle⟩ := h
    rw [advance_append hbefore]
    rw [append_cons, pairwise_append] at hsorted
    refine ⟨⟨hsorted.2.1, fun r hr => hle r ?_⟩, pairwise_map.mpr hsorted.1⟩
    exact mem_append_right _ (mem_cons_of_mem _ hr)
  · rw [advance_of_not_mem hctx]
    exact ⟨h, .nil⟩

end Ordered

end ReadQueue

/-! ## The queue and the map of `ReadOnly` -/

namespace ReadOnly

variable {ro ro' : ReadOnly} {q : ReadQueue}

/-- The queue and the map are together the list `q` of requests. -/
structure Holds (ro : ReadOnly) (q : ReadQueue) : Prop where
  queue : ro.readIndexQueue = keys q
  nodup : (keys q).Nodup
  pending : ∀ ctx, ListMap.get ro.pendingReadIndex ctx = ListMap.get q ctx

namespace Holds

/-- The map has a status for exactly the queued contexts. -/
theorem mem_queue_iff (h : Holds ro q) (ctx : Bytes) :
    ctx ∈ ro.readIndexQueue ↔ ListMap.contains ro.pendingReadIndex ctx = true := by
  rw [h.queue, ← ListMap.contains_iff, ListMap.contains, ListMap.contains, h.pending]

theorem addRequest (h : Holds ro q) (index : ℕ) (req : Message) (selfId : ℕ) :
    Holds (ro.addRequest index req selfId) (q.addRequest index req selfId) := by
  unfold ReadOnly.addRequest ReadQueue.addRequest
  cases requestCtx req with
  | none => exact h
  | some ctx =>
      have hcontains : ListMap.contains ro.pendingReadIndex ctx = ListMap.contains q ctx := by
        rw [ListMap.contains, ListMap.contains, h.pending]
      simp only [hcontains]
      split
      next hold =>
        rw [emplace, if_pos hold]
        exact h
      next hnew =>
        have hkeys : ∀ status, keys (emplace q ctx status) =
            keys q ++ [ctx] := by
          intro status
          rw [emplace, if_neg hnew, ListMap.keys, map_append]
          rfl
        refine ⟨?_, ?_, fun ctx' => ?_⟩
        · rw [hkeys, h.queue]
        · rw [hkeys, nodup_append]
          refine ⟨h.nodup, nodup_singleton ctx, fun a ha b hb hab => hnew ?_⟩
          obtain rfl := mem_singleton.mp hb
          exact ListMap.contains_iff.mpr (hab ▸ ha)
        · rw [ListMap.get_emplace, ListMap.get_emplace, h.pending]

theorem recvAck (h : Holds ro q) (id : ℕ) (ctx : Bytes) :
    Holds (ro.recvAck id ctx).1 (q.recvAck id ctx) := by
  unfold ReadOnly.recvAck ReadQueue.recvAck
  refine ⟨?_, ?_, fun ctx' => ?_⟩
  · rw [ListMap.keys_modify, h.queue]
  · rw [ListMap.keys_modify]
    exact h.nodup
  · rw [ListMap.get_modify, ListMap.get_modify, h.pending]

end Holds

/-! ### Advance -/

theorem advanceLoop_of_not_mem {queue : List Bytes}
    (hpending : ∀ x ∈ queue, ListMap.contains ro.pendingReadIndex x = true) (h : ctx ∉ queue) :
    ro.advanceLoop ctx queue = some none := by
  induction queue with
  | nil => rfl
  | cons x queue ih =>
      have hx : x ≠ ctx := fun heq => h (heq ▸ mem_cons_self)
      have hrest := ih (fun y hy => hpending y (mem_cons_of_mem x hy))
        (fun hmem => h (mem_cons_of_mem x hmem))
      unfold advanceLoop
      rw [if_pos (hpending x mem_cons_self), if_neg hx, hrest]
      rfl

theorem advanceLoop_append {before after : List Bytes}
    (hpending : ∀ x ∈ before ++ [ctx], ListMap.contains ro.pendingReadIndex x = true)
    (h : ctx ∉ before) :
    ro.advanceLoop ctx (before ++ ctx :: after) = some (some (before ++ [ctx], after)) := by
  induction before with
  | nil =>
      rw [nil_append, advanceLoop, if_pos (hpending ctx mem_cons_self), if_pos rfl]
      rfl
  | cons x before ih =>
      have hx : x ≠ ctx := fun heq => h (heq ▸ mem_cons_self)
      have hrest := ih (fun y hy => hpending y (mem_cons_of_mem x hy))
        (fun hmem => h (mem_cons_of_mem x hmem))
      rw [cons_append, advanceLoop, if_pos (hpending x mem_cons_self), if_neg hx, hrest]
      rfl

/-- The statuses of some pending requests are taken out, and no others. -/
theorem takeStatuses_eq {requests : ReadQueue} :
    ∀ {pending : ListMap Bytes ReadIndexStatus}, (keys requests).Nodup →
      (∀ r ∈ requests, ListMap.get pending r.1 = some r.2) →
      ∃ pending', takeStatuses pending (keys requests) =
          some (pending', requests.map Prod.snd) ∧
        ∀ ctx, ListMap.get pending' ctx =
          if ctx ∈ keys requests then none else ListMap.get pending ctx := by
  induction requests with
  | nil =>
      intro pending _ _
      exact ⟨pending, rfl, fun ctx => by simp [ListMap.keys]⟩
  | cons r requests ih =>
      intro pending hnodup hpending
      obtain ⟨hr, hnodup⟩ := nodup_cons.mp hnodup
      have hrest : ∀ r' ∈ requests,
          ListMap.get (ListMap.erase pending r.1) r'.1 = some r'.2 := by
        intro r' hr'
        have hne : r'.1 ≠ r.1 := fun heq => hr (heq ▸ mem_map_of_mem hr')
        rw [ListMap.get_erase, if_neg hne]
        exact hpending r' (mem_cons_of_mem r hr')
      obtain ⟨pending', htaken, hget⟩ := ih hnodup hrest
      refine ⟨pending', ?_, fun ctx => ?_⟩
      · have hkeys : keys (r :: requests) = r.1 :: keys requests := rfl
        rw [hkeys, takeStatuses, hpending r mem_cons_self]
        simp [htaken]
      · have hmem : ctx ∈ keys (r :: requests) ↔ ctx = r.1 ∨ ctx ∈ keys requests :=
          mem_cons
        rw [hget, ListMap.get_erase]
        simp only [hmem]
        by_cases hctx : ctx = r.1 <;> simp [hctx]

namespace Holds

/-- `Advance` does what it does to the list of requests, and does not abort. -/
theorem advance (h : Holds ro q) (ctx : Bytes) :
    ∃ ro', ro.advance ctx = some (ro', (q.advance ctx).2) ∧ Holds ro' (q.advance ctx).1 ∧
      (ctx ∉ ro.readIndexQueue → ro' = ro) := by
  have hpending : ∀ x ∈ keys q, ListMap.contains ro.pendingReadIndex x = true := by
    intro x hx
    rw [← h.mem_queue_iff, h.queue]
    exact hx
  by_cases hctx : ctx ∈ keys q
  · obtain ⟨before, status, after, rfl, hbefore⟩ := ReadQueue.exists_split hctx
    have hkeys : keys (before ++ (ctx, status) :: after) =
        keys before ++ ctx :: keys after := by
      simp [ListMap.keys]
    have hdone : keys (before ++ [(ctx, status)]) = keys before ++ [ctx] := by
      simp [ListMap.keys]
    have hnodup := h.nodup
    rw [hkeys, append_cons, ← hdone, nodup_append] at hnodup
    obtain ⟨hnodupDone, hnodupAfter, hapart⟩ := hnodup
    -- the map has the statuses of the requests that are done
    have hstatuses : ∀ r ∈ before ++ [(ctx, status)],
        ListMap.get ro.pendingReadIndex r.1 = some r.2 := by
      intro r hr
      rw [h.pending, append_cons, ListMap.get_append, ListMap.get_of_mem hnodupDone hr]
      rfl
    obtain ⟨pending', htaken, hget⟩ := takeStatuses_eq hnodupDone hstatuses
    have hloop := @advanceLoop_append _ ro _ (keys after)
      (fun x hx => hpending x (by rw [hkeys, append_cons]; exact mem_append_left _ hx))
      hbefore
    rw [ReadQueue.advance_append hbefore]
    refine ⟨{ ro with pendingReadIndex := pending', readIndexQueue := keys after },
      ?_, ⟨rfl, hnodupAfter, fun c => ?_⟩, fun hnot => absurd (h.queue ▸ hctx) hnot⟩
    · unfold ReadOnly.advance
      rw [h.queue, hkeys, hloop, ← hdone]
      simp [htaken]
    · have hsplit : ListMap.get (before ++ (ctx, status) :: after) c =
          (ListMap.get (before ++ [(ctx, status)]) c).or (ListMap.get after c) := by
        rw [append_cons, ListMap.get_append]
      rw [hget, h.pending, hsplit]
      split
      next hmem =>
        refine (ListMap.get_eq_none fun hafter => ?_).symm
        exact hapart c hmem c hafter rfl
      next hmem => rw [ListMap.get_eq_none hmem, Option.none_or]
  · have hqueue : ctx ∉ ro.readIndexQueue := h.queue ▸ hctx
    refine ⟨ro, ?_, ?_, fun _ => rfl⟩
    · unfold ReadOnly.advance
      rw [h.queue, advanceLoop_of_not_mem hpending hctx, ReadQueue.advance_of_not_mem hctx]
      rfl
    · rw [ReadQueue.advance_of_not_mem hctx]
      exact h

end Holds

/-! ## Sequences of calls -/

inductive Call
  | addRequest (index : ℕ) (req : Message) (selfId : ℕ)
  | recvAck (id : ℕ) (ctx : Bytes)
  | advance (ctx : Bytes)
  deriving DecidableEq

namespace Call

/-- The state after a call; `none` is an abort. -/
def run : Call → ReadOnly → Option ReadOnly
  | .addRequest index req selfId, ro => some (ro.addRequest index req selfId)
  | .recvAck id ctx, ro => some (ro.recvAck id ctx).1
  | .advance ctx, ro => (ro.advance ctx).map Prod.fst

/-- The same call on the list of requests. -/
def onQueue : Call → ReadQueue → ReadQueue
  | .addRequest index req selfId, q => q.addRequest index req selfId
  | .recvAck id ctx, q => q.recvAck id ctx
  | .advance ctx, q => (q.advance ctx).1

/-- The index of an added request. -/
def index? : Call → Option ℕ
  | .addRequest index _ _ => some index
  | .recvAck _ _ | .advance _ => none

theorem run_holds (call : Call) (h : Holds ro q) :
    ∃ ro', call.run ro = some ro' ∧ Holds ro' (call.onQueue q) := by
  cases call with
  | addRequest index req selfId => exact ⟨_, rfl, h.addRequest index req selfId⟩
  | recvAck id ctx => exact ⟨_, rfl, h.recvAck id ctx⟩
  | advance ctx =>
      obtain ⟨ro', hadvance, hholds, -⟩ := h.advance ctx
      exact ⟨ro', by simp [run, hadvance], hholds⟩

/-- A call keeps the order of the indexes if it adds none below the last one. -/
theorem onQueue_ordered {call : Call} {bound : ℕ} (h : q.Ordered bound)
    (hindex : ∀ index ∈ call.index?, bound ≤ index) :
    (call.onQueue q).Ordered (call.index?.getD bound) := by
  cases call with
  | addRequest index req selfId => exact h.addRequest (hindex index rfl) req selfId
  | recvAck id ctx => exact h.recvAck id ctx
  | advance ctx => exact (h.advance ctx).1

end Call

def runCalls (ro : ReadOnly) (calls : List Call) : Option ReadOnly :=
  calls.foldlM (fun ro call => call.run ro) ro

/-- The requests left after some calls on an empty queue. -/
def requests (calls : List Call) : ReadQueue := calls.foldl (fun q call => call.onQueue q) []

theorem runCalls_holds :
    ∀ (calls : List Call) {ro : ReadOnly} {q : ReadQueue}, Holds ro q →
      ∃ ro', runCalls ro calls = some ro' ∧
        Holds ro' (calls.foldl (fun q call => call.onQueue q) q) := by
  intro calls
  induction calls with
  | nil =>
      intro ro q h
      exact ⟨ro, rfl, h⟩
  | cons call calls ih =>
      intro ro q h
      obtain ⟨ro₁, hrun, h₁⟩ := call.run_holds h
      obtain ⟨ro₂, hrest, h₂⟩ := ih h₁
      refine ⟨ro₂, ?_, h₂⟩
      simp only [runCalls, foldlM_cons, hrun, Option.bind_eq_bind, Option.bind_some]
      exact hrest

theorem onQueue_ordered_all :
    ∀ (calls : List Call) {q : ReadQueue} {bound : ℕ}, q.Ordered bound →
      (calls.filterMap Call.index?).Pairwise (· ≤ ·) →
      (∀ index ∈ calls.filterMap Call.index?, bound ≤ index) →
      ∃ bound', (calls.foldl (fun q call => call.onQueue q) q).Ordered bound' := by
  intro calls
  induction calls with
  | nil =>
      intro q bound h _ _
      exact ⟨bound, h⟩
  | cons call calls ih =>
      intro q bound h hsorted hbound
      cases hindex : call.index? with
      | none =>
          rw [filterMap_cons_none hindex] at hsorted hbound
          have hstep := @Call.onQueue_ordered q call bound h (by simp [hindex])
          rw [hindex] at hstep
          exact ih hstep hsorted hbound
      | some index =>
          rw [filterMap_cons_some hindex] at hsorted hbound
          have hfirst : ∀ i ∈ call.index?, bound ≤ i := by
            intro i hi
            obtain rfl := Option.some.inj (hindex.symm.trans hi)
            exact hbound index mem_cons_self
          have hstep := Call.onQueue_ordered h hfirst
          rw [hindex] at hstep
          obtain ⟨hfirst, hsorted⟩ := pairwise_cons.mp hsorted
          exact ih hstep hsorted hfirst

/-- Queue and map agree after any calls that add requests at indexes that do not decrease, and
no call aborts.  `Advance` then releases the requests up to and including a queued context in
arrival order, at indexes that do not decrease, and keeps the others; it does nothing for a
context that is not queued. -/
theorem runCalls_consistent (option : ReadOnlyOption) (calls : List Call)
    (hindexes : (calls.filterMap Call.index?).Pairwise (· ≤ ·)) :
    ∃ ro, runCalls { option } calls = some ro ∧
      ro.readIndexQueue = keys (requests calls) ∧ ro.readIndexQueue.Nodup ∧
      (∀ ctx, ctx ∈ ro.readIndexQueue ↔ ListMap.contains ro.pendingReadIndex ctx = true) ∧
      ∀ ctx, ∃ ro' statuses, ro.advance ctx = some (ro', statuses) ∧
        statuses.Pairwise (fun s s' => s.index ≤ s'.index) ∧
        (ctx ∉ ro.readIndexQueue → ro' = ro ∧ statuses = []) ∧
        ∀ before status after, requests calls = before ++ (ctx, status) :: after →
          statuses = (before ++ [(ctx, status)]).map Prod.snd ∧
          ro'.readIndexQueue = keys after ∧
          ∀ c, ListMap.get ro'.pendingReadIndex c = ListMap.get after c := by
  obtain ⟨ro, hrun, hholds⟩ : ∃ ro, runCalls { option } calls = some ro ∧
      Holds ro (requests calls) :=
    runCalls_holds calls ⟨rfl, nodup_nil, fun _ => rfl⟩
  have hempty : ReadQueue.Ordered [] 0 := ⟨.nil, by simp⟩
  obtain ⟨bound, hordered⟩ : ∃ bound, (requests calls).Ordered bound :=
    onQueue_ordered_all calls hempty hindexes fun _ _ => Nat.zero_le _
  refine ⟨ro, hrun, hholds.queue, hholds.queue ▸ hholds.nodup, hholds.mem_queue_iff, fun ctx => ?_⟩
  obtain ⟨ro', hadvance, hholds', hsame⟩ := hholds.advance ctx
  refine ⟨ro', _, hadvance, (hordered.advance ctx).2, fun hctx => ⟨hsame hctx, ?_⟩, ?_⟩
  · rw [ReadQueue.advance_of_not_mem (hholds.queue ▸ hctx)]
  · intro before status after hsplit
    have hbefore : ctx ∉ keys before := by
      have hnodup := hholds.nodup
      rw [hsplit] at hnodup
      simp only [ListMap.keys, map_append, map_cons] at hnodup
      intro hmem
      exact (nodup_append.mp hnodup).2.2 ctx hmem ctx mem_cons_self rfl
    rw [hsplit, ReadQueue.advance_append hbefore] at hholds' ⊢
    exact ⟨rfl, hholds'.queue, hholds'.pending⟩

/-- Three reads, one of them asked for again at a later index: the second context releases the
first two, at the index of their first arrival. -/
theorem runCalls_consistent_repeated :
    let read (ctx : Bytes) : Message := { msgType := .msgReadIndex, entries := [{ data := ctx }] }
    ∃ ro ro' statuses, runCalls { option := .safe } [.addRequest 3 (read [1]) 1,
        .addRequest 3 (read [2]) 1, .addRequest 4 (read [1]) 1, .recvAck 2 [1], .advance [9],
        .addRequest 5 (read [3]) 1] = some ro ∧
      ro.readIndexQueue = [[1], [2], [3]] ∧ ro.advance [2] = some (ro', statuses) ∧
      statuses.map ReadIndexStatus.index = [3, 3] ∧ ro'.readIndexQueue = [[3]] := by
  intro read
  obtain ⟨ro, hrun, hqueue, -, -, hadvance⟩ := runCalls_consistent .safe
    [.addRequest 3 (read [1]) 1, .addRequest 3 (read [2]) 1, .addRequest 4 (read [1]) 1,
      .recvAck 2 [1], .advance [9], .addRequest 5 (read [3]) 1] (by decide)
  obtain ⟨ro', statuses, hadvance, -, -, hreleased⟩ := hadvance [2]
  obtain ⟨rfl, hrest, -⟩ := hreleased _ _ _ (rfl : requests _ =
    [([1], ⟨read [1], 3, ⟨[2, 1], by decide⟩⟩)] ++ ([2], ⟨read [2], 3, ⟨[1], by decide⟩⟩) ::
      [([3], ⟨read [3], 5, ⟨[1], by decide⟩⟩)])
  exact ⟨ro, ro', _, hrun, hqueue, hadvance, rfl, hrest⟩

end ReadOnly

end Raftpp
