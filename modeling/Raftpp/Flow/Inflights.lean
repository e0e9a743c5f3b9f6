import Raftpp.Core.Progress

/-!
# The messages in flight form a bounded queue

What `Inflights` keeps in a ring buffer is a queue of indexes and a limit on its
length: `Add` appends, `FreeTo` drops the indexes up to some index from the front,
`SetCapacity` sets the limit.  The ring hides two things from its caller.  It
allocates its buffer on the first `Add`, and a smaller capacity takes effect only
when the queue runs empty; until then `Full` holds already at the smaller one.

`Inflights.toQueue` reads the queue off the ring.  Every call on the ring is the
call of the same name on the queue, and none of its assertions fails.
-/

namespace Raftpp

open Option

/-! ## The queue -/

/-- A queue of indexes that should not grow beyond `limit`. -/
structure BoundedQueue where
  items : List ℕ := []
  limit : ℕ
  deriving DecidableEq

namespace BoundedQueue

variable (q : BoundedQueue)

def full : Bool := decide (q.limit ≤ q.items.length)

def add (x : ℕ) : BoundedQueue := { q with items := q.items ++ [x] }

/-- Drop the longest prefix of items that are at most `x`. -/
def freeTo (x : ℕ) : BoundedQueue :=
  { q with items := q.items.dropWhile (· ≤ x) }

/-- Free up to the first item. -/
def freeFirstOne : BoundedQueue :=
  match q.items with
  | [] => q
  | x :: _ => q.freeTo x

def setCapacity (limit : ℕ) : BoundedQueue := { q with limit }

def reset : BoundedQueue := { q with items := [] }

end BoundedQueue

/-! ## The queue of a ring -/

namespace Inflights

variable {f f' : Inflights}

/-- The indexes in the ring, oldest first. -/
def items (f : Inflights) : List ℕ := Ring.contents 0 f.buffer f.capacity f.start f.count

/-- The queue that the ring represents: the capacity asked for last is its limit. -/
def toQueue (f : Inflights) : BoundedQueue :=
  { items := f.items, limit := f.incomingCapacity.getD f.capacity }

@[simp] theorem length_items (f : Inflights) : f.items.length = f.count :=
  Ring.length_contents _ _

@[simp] theorem toQueue_new (capacity : ℕ) : (new capacity).toQueue = { limit := capacity } := rfl

@[simp] theorem toQueue_newReserved (capacity : ℕ) :
    (newReserved capacity).toQueue = { limit := capacity } := rfl

/-- An index is in the ring only if the ring has a place for it. -/
theorem start_lt_capacity (h : 0 < f.count) : f.start < f.capacity := by
  have hcount := f.window.count_le
  have hstart := f.window.start_lt
  omega

theorem items_of_count (h : f.count = 0) : f.items = [] := by
  unfold items
  rw [h, Ring.contents_zero]

theorem items_cons {count : ℕ} (h : f.count = count + 1) :
    f.items = f.buffer.getD f.start 0 ::
      Ring.contents 0 f.buffer f.capacity (Ring.wrap f.capacity f.start 1) count := by
  have hle := f.window.count_le
  unfold items
  rw [h, Ring.contents_cons 0 f.buffer (start_lt_capacity (by omega)) (by omega)]

/-- The ring is full exactly when its queue has reached the limit. -/
theorem full_iff (f : Inflights) :
    f.full = true ↔ f.count = f.capacity ∨
      ∃ incoming < f.capacity, f.incomingCapacity = some incoming ∧ incoming ≤ f.count := by
  unfold full
  split
  next hcount => simp [hcount]
  next hcount =>
    cases hincoming : f.incomingCapacity with
    | none => simp [hcount]
    | some incoming =>
        have hlt := (f.pending incoming hincoming).2
        simp [hcount, hlt]

theorem full_toQueue (f : Inflights) : f.toQueue.full = f.full := by
  have hle := f.window.count_le
  rw [Bool.eq_iff_iff, full_iff]
  unfold BoundedQueue.full toQueue
  cases hincoming : f.incomingCapacity with
  | none =>
      simp only [getD_none, length_items, decide_eq_true_eq, reduceCtorEq, false_and,
        and_false, exists_false, or_false]
      omega
  | some incoming =>
      have hlt := (f.pending incoming hincoming).2
      simp only [getD_some, length_items, decide_eq_true_eq, some.injEq]
      constructor
      · intro h
        exact Or.inr ⟨incoming, hlt, rfl, h⟩
      · rintro (h | ⟨_, -, rfl, h⟩)
        · omega
        · exact h

/-! ## The calls -/

theorem toQueue_reset (f : Inflights) : f.reset.toQueue = f.toQueue.reset := rfl

/-- The loop of `FreeTo` stops at the first index above the given one. -/
theorem freeToLoop_contents (index : ℕ) :
    ∀ {remaining idx : ℕ}, remaining ≤ f.capacity → idx = 0 ∨ idx < f.capacity →
      Ring.contents 0 f.buffer f.capacity (f.freeToLoop index remaining idx).2
          (remaining - (f.freeToLoop index remaining idx).1) =
        (Ring.contents 0 f.buffer f.capacity idx remaining).dropWhile (· ≤ index) := by
  intro remaining
  induction remaining with
  | zero =>
      intro idx _ _
      rfl
  | succ remaining ih =>
      intro idx hremaining hidx
      have hlt : idx < f.capacity := by omega
      have hnext : Ring.wrap f.capacity idx 1 < f.capacity := Ring.wrap_lt hlt (by omega)
      rw [Ring.contents_cons 0 f.buffer hlt (by omega)]
      unfold freeToLoop
      split
      next hlarge =>
        rw [List.dropWhile_cons_of_neg (by simpa using hlarge)]
        exact Ring.contents_cons 0 f.buffer hlt (by omega)
      next hsmall =>
        rw [List.dropWhile_cons_of_pos (by simpa using hsmall),
          ← ih (by omega) (Or.inr hnext), Nat.add_sub_add_right]

theorem toQueue_freeTo (f : Inflights) (index : ℕ) :
    (f.freeTo index).toQueue = f.toQueue.freeTo index := by
  have hloop := freeToLoop_contents (f := f) index f.window.count_le f.window.start_lt
  unfold freeTo
  split
  next hleft =>
    -- nothing to free
    have hitems : f.items.dropWhile (· ≤ index) = f.items := by
      cases hcount : f.count with
      | zero => rw [items_of_count hcount, List.dropWhile_nil]
      | succ count =>
          have hfirst := hleft.resolve_left (by omega)
          rw [items_cons hcount, List.dropWhile_cons_of_neg (by simpa using hfirst)]
    unfold BoundedQueue.freeTo toQueue
    simp only [hitems]
  next hleft =>
    simp only
    split
    next hempty =>
      -- the queue runs empty and the incoming capacity takes effect
      rw [hempty.1, Ring.contents_zero] at hloop
      unfold BoundedQueue.freeTo toQueue
      obtain ⟨incoming, hincoming⟩ := isSome_iff_exists.mp hempty.2
      simp only [hincoming, get_some, getD_some, BoundedQueue.mk.injEq]
      exact ⟨hloop, rfl⟩
    · unfold BoundedQueue.freeTo toQueue items
      rw [← hloop]

theorem toQueue_freeFirstOne (f : Inflights) : f.freeFirstOne.toQueue = f.toQueue.freeFirstOne := by
  unfold freeFirstOne BoundedQueue.freeFirstOne
  cases hcount : f.count with
  | zero =>
      have hitems : f.toQueue.items = [] := items_of_count hcount
      simp [hitems]
  | succ count =>
      have hitems : f.toQueue.items = _ := items_cons hcount
      rw [if_pos (by omega), hitems]
      exact toQueue_freeTo f _

/-- `Add` on a ring that is not full appends. -/
theorem add_toQueue (hroom : f.full = false) (inflight : ℕ) :
    ∃ f', f.add inflight = some f' ∧ f'.toQueue = f.toQueue.add inflight := by
  have hnot : ¬f.full = true := by simp [hroom]
  have hlt := count_lt_of_not_full hnot
  have hle := f.window.wrap_le hlt
  unfold add
  rw [dif_neg hnot, if_neg fun hunused => hunused.2 (unused hunused.1)]
  simp only
  rw [if_neg (by omega)]
  split
  next hend =>
    refine ⟨_, rfl, ?_⟩
    simp only [toQueue, items, BoundedQueue.add, Ring.contents_push f.window hend]
  next hin =>
    refine ⟨_, rfl, ?_⟩
    simp only [toQueue, items, BoundedQueue.add, Ring.contents_set hlt (lt_of_le_of_ne hle hin)]

/-- `SetCapacity` keeps the items in their order and does not fail its assertion. -/
theorem setCapacity_toQueue (f : Inflights) (incoming : ℕ) :
    ∃ f', f.setCapacity incoming = some f' ∧ f'.toQueue = f.toQueue.setCapacity incoming := by
  unfold setCapacity
  split
  next hsame =>
    refine ⟨_, rfl, ?_⟩
    simp [toQueue, items, BoundedQueue.setCapacity, hsame]
  next hsame =>
    split
    next hgrow =>
      split
      next hstraight =>
        refine ⟨_, rfl, ?_⟩
        simp only [toQueue, items, BoundedQueue.setCapacity, getD_none,
          Ring.contents_grow hgrow.le hstraight]
      next hwraps =>
        have hwraps := not_le.mp hwraps
        have hwhole : f.buffer.length = f.capacity :=
          f.window.used.resolve_left (by have := f.window.length_le; omega)
        rw [dif_neg (not_not.mpr hwhole.symm)]
        refine ⟨_, rfl, ?_⟩
        have hcount : (f.buffer.drop f.start ++
            f.buffer.take (f.count - (f.capacity - f.start))).length = f.count := by
          rw [List.length_append, List.length_drop, List.length_take, hwhole,
            f.window.unrolled hwraps]
        simp only [toQueue, items, BoundedQueue.setCapacity, getD_none,
          BoundedQueue.mk.injEq, and_true]
        rw [Ring.contents_unrolled f.window hwraps hwhole]
        exact Ring.contents_straight hcount (f.window.count_le.trans hgrow.le)
    next hgrow =>
      split
      next hcount =>
        have hqueue : f.toQueue.setCapacity incoming = { limit := incoming } := by
          simp [BoundedQueue.setCapacity, toQueue, items_of_count hcount]
        refine ⟨_, rfl, ?_⟩
        rw [hqueue]
        split
        · exact toQueue_newReserved incoming
        · exact toQueue_new incoming
      · exact ⟨_, rfl, rfl⟩

/-! ## Sequences of calls -/

/-- The calls that change the ring. -/
inductive Call
  | add (inflight : ℕ)
  | freeTo (index : ℕ)
  | freeFirstOne
  | setCapacity (capacity : ℕ)
  | reset
  deriving DecidableEq

namespace Call

/-- A call on the ring; `none` is an abort. -/
def run : Call → Inflights → Option Inflights
  | .add inflight, f => f.add inflight
  | .freeTo index, f => some (f.freeTo index)
  | .freeFirstOne, f => some f.freeFirstOne
  | .setCapacity capacity, f => f.setCapacity capacity
  | .reset, f => some f.reset

/-- The same call on the queue. -/
def onQueue : Call → BoundedQueue → BoundedQueue
  | .add inflight, q => q.add inflight
  | .freeTo index, q => q.freeTo index
  | .freeFirstOne, q => q.freeFirstOne
  | .setCapacity capacity, q => q.setCapacity capacity
  | .reset, q => q.reset

/-- `Add` is called only when `Full` is false. -/
def Allowed : Call → Inflights → Prop
  | .add _, f => f.full = false
  | .freeTo _, _ | .freeFirstOne, _ | .setCapacity _, _ | .reset, _ => True

instance : ∀ (call : Call) (f : Inflights), Decidable (call.Allowed f)
  | .add _, f => inferInstanceAs (Decidable (f.full = false))
  | .freeTo _, _ | .freeFirstOne, _ | .setCapacity _, _ | .reset, _ => isTrue trivial

theorem run_toQueue {call : Call} (h : call.Allowed f) :
    ∃ f', call.run f = some f' ∧ f'.toQueue = call.onQueue f.toQueue := by
  cases call with
  | add inflight => exact add_toQueue h inflight
  | freeTo index => exact ⟨_, rfl, toQueue_freeTo f index⟩
  | freeFirstOne => exact ⟨_, rfl, toQueue_freeFirstOne f⟩
  | setCapacity capacity => exact setCapacity_toQueue f capacity
  | reset => exact ⟨_, rfl, toQueue_reset f⟩

end Call

/-- Calls one after the other. -/
def runCalls (f : Inflights) (calls : List Call) : Option Inflights :=
  calls.foldlM (fun f call => call.run f) f

/-- Each of the calls is allowed when its turn comes. -/
def AllAllowed : Inflights → List Call → Prop
  | _, [] => True
  | f, call :: calls => call.Allowed f ∧ ∀ f' ∈ call.run f, AllAllowed f' calls

instance decidableAllAllowed : ∀ (f : Inflights) (calls : List Call),
    Decidable (AllAllowed f calls)
  | _, [] => isTrue trivial
  | f, call :: calls =>
      have := fun f' => decidableAllAllowed f' calls
      inferInstanceAs (Decidable (call.Allowed f ∧ ∀ f' ∈ call.run f, AllAllowed f' calls))

theorem runCalls_toQueue {calls : List Call} :
    ∀ {f : Inflights}, AllAllowed f calls →
      ∃ f', runCalls f calls = some f' ∧
        f'.toQueue = calls.foldl (fun q call => call.onQueue q) f.toQueue := by
  induction calls with
  | nil =>
      intro f _
      exact ⟨f, rfl, rfl⟩
  | cons call calls ih =>
      intro f h
      obtain ⟨f₁, hrun, hqueue⟩ := Call.run_toQueue h.1
      obtain ⟨f₂, hrest, hqueue'⟩ := ih (h.2 f₁ hrun)
      refine ⟨f₂, ?_, ?_⟩
      · simp only [runCalls, List.foldlM_cons, hrun]
        exact hrest
      · rw [hqueue', hqueue, List.foldl_cons]

/-- The ring is a bounded queue: after any calls, with `Add` only on a ring that is not full,
it holds what the queue holds after the same calls, it counts the items, and it is full exactly
when they have reached the capacity or a smaller one that is still to take effect.  No assertion
fails on the way. -/
theorem runCalls_refines (capacity : ℕ) (calls : List Call)
    (hallowed : AllAllowed (new capacity) calls) :
    ∃ f, runCalls (new capacity) calls = some f ∧
      f.toQueue = calls.foldl (fun q call => call.onQueue q) { limit := capacity } ∧
      f.count = f.toQueue.items.length ∧
      f.full = f.toQueue.full ∧
      (f.full = true ↔ f.toQueue.items.length = f.capacity ∨
        ∃ incoming < f.capacity, f.incomingCapacity = some incoming ∧
          incoming ≤ f.toQueue.items.length) := by
  obtain ⟨f, hrun, hqueue⟩ := runCalls_toQueue hallowed
  have hlength : f.toQueue.items.length = f.count := length_items f
  refine ⟨f, hrun, hqueue, hlength.symm, (full_toQueue f).symm, ?_⟩
  rw [hlength]
  exact full_iff f

/-- A ring of three places that wraps, grows while it does and has to shrink again: the three
indexes in flight are over the new limit, so it is full and keeps them. -/
theorem runCalls_refines_wrapped :
    ∃ f, runCalls (new 3) [.add 1, .add 2, .add 3, .freeTo 1, .add 4, .setCapacity 5, .add 5,
        .freeFirstOne, .setCapacity 2] = some f ∧
      f.toQueue = { items := [3, 4, 5], limit := 2 } ∧ f.full = true := by
  obtain ⟨f, hrun, hqueue, -, hfull, -⟩ := runCalls_refines 3 [.add 1, .add 2, .add 3, .freeTo 1,
    .add 4, .setCapacity 5, .add 5, .freeFirstOne, .setCapacity 2] (by decide +kernel)
  have hqueue' : f.toQueue = { items := [3, 4, 5], limit := 2 } := hqueue.trans (by decide)
  exact ⟨f, hrun, hqueue', by rw [hfull, hqueue']; rfl⟩

end Inflights

end Raftpp
