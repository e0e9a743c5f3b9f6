import Raftpp.Core.Types
import Raftpp.Lib.Ring

/-!
# Progress of a peer

`Inflights` and `Progress` of `inflights.cc` and `progress.cc`: the ring buffer
of the last indexes of append messages in flight, and what a leader knows about
the log of one peer.
-/

namespace Raftpp

/-! ## Inflights -/

/-- `Inflights`: a ring buffer of `count` indexes starting at position `start`, with
`bufferCapacity` places allocated for it.  Once places are allocated they are enough for the
capacity, and a capacity is incoming only while the buffer is too full for it. -/
structure Inflights where
  start : ℕ := 0
  count : ℕ := 0
  buffer : List ℕ := []
  capacity : ℕ
  incomingCapacity : Option ℕ := none
  bufferCapacity : ℕ := 0
  window : Ring.Window capacity start count buffer.length
  reserved : capacity ≤ bufferCapacity ∨
    bufferCapacity = 0 ∧ start = 0 ∧ count = 0 ∧ buffer = []
  pending : ∀ incoming, incomingCapacity = some incoming → 0 < count ∧ incoming < capacity
  deriving DecidableEq

namespace Inflights

variable {f : Inflights}

def new (capacity : ℕ) : Inflights :=
  { capacity
    window := .empty capacity
    reserved := Or.inr ⟨rfl, rfl, rfl, rfl⟩
    pending := by simp }

/-- An empty buffer with all its places allocated. -/
def newReserved (capacity : ℕ) : Inflights :=
  { capacity
    bufferCapacity := capacity
    window := .empty capacity
    reserved := Or.inl le_rfl
    pending := by simp }

/-- `BufferSize`. -/
def bufferSize (f : Inflights) : ℕ := f.bufferCapacity

/-- `buffer_is_allocated`. -/
def bufferIsAllocated (f : Inflights) : Bool := decide (f.bufferCapacity > 0)

def reset (f : Inflights) : Inflights := new (f.incomingCapacity.getD f.capacity)

/-- Nothing is in a buffer that is not allocated. -/
theorem unused_of_unallocated (h : f.bufferCapacity = 0) :
    f.start = 0 ∧ f.count = 0 ∧ f.buffer = [] := by
  obtain hle | ⟨-, hunused⟩ := f.reserved
  · obtain ⟨hstart, hcount, hlength, -⟩ := f.window
    exact ⟨by omega, by omega, List.length_eq_zero_iff.mp (by omega)⟩
  · exact hunused

/-- The places of a buffer that is `reserve`d for a larger capacity, if it has any. -/
def reserve (f : Inflights) (incoming : ℕ) : ℕ :=
  if f.bufferCapacity > 0 then max f.bufferCapacity incoming else 0

theorem reserve_ge (f : Inflights) (incoming : ℕ) :
    incoming ≤ f.reserve incoming ∨
      f.reserve incoming = 0 ∧ f.start = 0 ∧ f.count = 0 ∧ f.buffer = [] := by
  unfold reserve
  split
  · exact Or.inl (le_max_right _ _)
  · exact Or.inr ⟨rfl, unused_of_unallocated (by omega)⟩

/-- `SetCapacity`.  A smaller capacity waits until the buffer is empty.  A larger one takes
effect at once; a window that wraps is written out from the front, and asserted to have the
whole buffer to wrap in. -/
def setCapacity (f : Inflights) (incoming : ℕ) : Option Inflights :=
  if hsame : f.capacity = incoming then
    some { f with
      incomingCapacity := none
      pending := by simp }
  else if hgrow : f.capacity < incoming then
    if hstraight : f.start + f.count ≤ f.capacity then
      some { f with
        capacity := incoming
        incomingCapacity := none
        bufferCapacity := f.reserve incoming
        window := f.window.grow hgrow.le hstraight
        reserved := f.reserve_ge incoming
        pending := by simp }
    else if hwhole : f.capacity ≠ f.buffer.length then none
    else
      some {
        count := f.count
        buffer := f.buffer.drop f.start ++ f.buffer.take (f.count - (f.capacity - f.start))
        capacity := incoming
        bufferCapacity := incoming
        window := by
          have hunrolled := f.window.unrolled (not_le.mp hstraight)
          rw [List.length_append, List.length_drop, List.length_take, ← not_not.mp hwhole,
            hunrolled]
          exact .straight (f.window.count_le.trans hgrow.le)
        reserved := Or.inl le_rfl
        pending := by simp }
  else if hcount : f.count = 0 then
    some (if f.bufferCapacity > 0 then newReserved incoming else new incoming)
  else
    some { f with
      incomingCapacity := some incoming
      pending := by
        intro incoming' h
        cases h
        omega }

def full (f : Inflights) : Bool :=
  if f.count = f.capacity then true
  else
    match f.incomingCapacity with
    | some incoming => decide (f.count ≥ incoming)
    | none => false

/-- The loop of `FreeTo`: how many of the `remaining` indexes are freed, and the position
after them. -/
def freeToLoop (f : Inflights) (index : ℕ) : ℕ → ℕ → ℕ × ℕ
  | 0, idx => (0, idx)
  | remaining + 1, idx =>
      if index < f.buffer.getD idx 0 then (0, idx)
      else
        let (freed, idx) := f.freeToLoop index remaining (Ring.wrap f.capacity idx 1)
        (freed + 1, idx)

/-- The loop frees some of the indexes and stops after the last one it frees. -/
theorem freeToLoop_eq (f : Inflights) (index : ℕ) :
    ∀ {remaining idx : ℕ}, remaining ≤ f.capacity → idx = 0 ∨ idx < f.capacity →
      (f.freeToLoop index remaining idx).1 ≤ remaining ∧
        (f.freeToLoop index remaining idx).2 =
          Ring.wrap f.capacity idx (f.freeToLoop index remaining idx).1 := by
  intro remaining
  induction remaining with
  | zero =>
      intro idx _ hidx
      exact ⟨le_rfl, (Ring.wrap_zero hidx).symm⟩
  | succ remaining ih =>
      intro idx hremaining hidx
      unfold freeToLoop
      split
      · exact ⟨Nat.zero_le _, (Ring.wrap_zero hidx).symm⟩
      · have hlt : idx < f.capacity := by omega
        have hnext : Ring.wrap f.capacity idx 1 < f.capacity := Ring.wrap_lt hlt (by omega)
        obtain ⟨hfreed, hstop⟩ := ih (Nat.le_of_succ_le hremaining) (Or.inr hnext)
        exact ⟨Nat.succ_le_succ hfreed,
          hstop.trans (Ring.wrap_wrap_one hlt (lt_of_le_of_lt hfreed hremaining))⟩

theorem capacity_le_of_count (h : f.count ≠ 0) : f.capacity ≤ f.bufferCapacity :=
  f.reserved.resolve_right fun hunused => h hunused.2.2.1

/-- `FreeTo`.  A capacity that waits for the buffer to be empty takes effect. -/
def freeTo (f : Inflights) (index : ℕ) : Inflights :=
  if hleft : f.count = 0 ∨ index < f.buffer.getD f.start 0 then f
  else
    let stop := f.freeToLoop index f.count f.start
    if hempty : f.count - stop.1 = 0 ∧ f.incomingCapacity.isSome then
      newReserved (f.incomingCapacity.get hempty.2)
    else
      { f with
        count := f.count - stop.1
        start := stop.2
        window :=
          have hstop := f.freeToLoop_eq index f.window.count_le f.window.start_lt
          hstop.2 ▸ f.window.free hstop.1
        reserved := Or.inl (capacity_le_of_count fun hcount => hleft (Or.inl hcount))
        pending := fun incoming hincoming =>
          ⟨Nat.pos_of_ne_zero fun hcount => hempty ⟨hcount, by rw [hincoming]; rfl⟩,
            (f.pending incoming hincoming).2⟩ }

def freeFirstOne (f : Inflights) : Inflights :=
  if f.count > 0 then f.freeTo (f.buffer.getD f.start 0) else f

theorem count_lt_of_not_full (h : ¬f.full) : f.count < f.capacity := by
  have hle := f.window.count_le
  unfold full at h
  split at h
  · exact absurd rfl h
  next hne => omega

/-- What `Add` asserts before it allocates the buffer. -/
def Unused (f : Inflights) : Prop := f.count = 0 ∧ f.start = 0 ∧ f.incomingCapacity = none

instance (f : Inflights) : Decidable f.Unused :=
  inferInstanceAs (Decidable (f.count = 0 ∧ f.start = 0 ∧ f.incomingCapacity = none))

theorem unused (h : f.bufferCapacity = 0) : f.Unused := by
  obtain ⟨hstart, hcount, -⟩ := unused_of_unallocated h
  refine ⟨hcount, hstart, Option.eq_none_iff_forall_ne_some.mpr fun incoming hincoming => ?_⟩
  have hpos := (f.pending incoming hincoming).1
  omega

/-- The places of the buffer once it is allocated. -/
def allocate (f : Inflights) : ℕ :=
  if f.bufferCapacity = 0 then f.capacity else f.bufferCapacity

theorem le_allocate (f : Inflights) : f.capacity ≤ f.allocate := by
  unfold allocate
  split
  · exact le_rfl
  next hne => exact f.reserved.resolve_right fun hunused => hne hunused.1

/-- `Add`: aborts on a full buffer.  Allocating an empty buffer changes only its places. -/
def add (f : Inflights) (inflight : ℕ) : Option Inflights :=
  if hfull : f.full then none
  else if f.bufferCapacity = 0 ∧ ¬f.Unused then none
  else
    have hroom := count_lt_of_not_full hfull
    let next := Ring.wrap f.capacity f.start f.count
    if next > f.buffer.length then none
    else if hend : next = f.buffer.length then
      some { f with
        buffer := f.buffer ++ [inflight]
        bufferCapacity := f.allocate
        count := f.count + 1
        window := by
          rw [List.length_append]
          exact f.window.push hroom hend
        reserved := Or.inl f.le_allocate
        pending := fun incoming h => ⟨Nat.succ_pos _, (f.pending incoming h).2⟩ }
    else
      some { f with
        buffer := f.buffer.set next inflight
        bufferCapacity := f.allocate
        count := f.count + 1
        window := by
          have hin := lt_of_le_of_ne (f.window.wrap_le hroom) hend
          rw [List.length_set]
          exact f.window.set hroom hin
        reserved := Or.inl f.le_allocate
        pending := fun incoming h => ⟨Nat.succ_pos _, (f.pending incoming h).2⟩ }

/-- The assertions of `Add` never fail. -/
theorem add_isSome (h : ¬f.full) (inflight : ℕ) : (f.add inflight).isSome = true := by
  have hle := f.window.wrap_le (count_lt_of_not_full h)
  unfold add
  rw [dif_neg h, if_neg fun hunused => hunused.2 (unused hunused.1)]
  simp only
  rw [if_neg (by omega)]
  split <;> rfl

end Inflights

/-! ## Progress -/

inductive ProgressState
  | probe
  | replicate
  | snapshot
  deriving DecidableEq

/-- `Progress`. -/
structure Progress where
  matched : ℕ := 0
  nextIdx : ℕ
  state : ProgressState := .probe
  paused : Bool := false
  pendingSnapshot : ℕ := 0
  pendingRequestSnapshot : ℕ := 0
  recentActive : Bool := false
  inflights : Inflights
  commitGroupId : ℕ := 0
  committedIndex : ℕ := 0
  deriving DecidableEq

namespace Progress

variable (p : Progress)

def new (nextIdx maxInflight : ℕ) : Progress :=
  { nextIdx, inflights := .new maxInflight }

def reset (nextIdx : ℕ) : Progress :=
  { p with
    matched := 0, nextIdx, state := .probe, paused := false, pendingSnapshot := 0,
    pendingRequestSnapshot := 0, recentActive := false, inflights := p.inflights.reset }

def resetState (state : ProgressState) : Progress :=
  { p with paused := false, pendingSnapshot := 0, state, inflights := p.inflights.reset }

def becomeProbe : Progress :=
  match p.state with
  | .snapshot =>
      { p.resetState .probe with nextIdx := max (p.matched + 1) (p.pendingSnapshot + 1) }
  | _ => { p.resetState .probe with nextIdx := p.matched + 1 }

def becomeReplicate : Progress :=
  { p.resetState .replicate with nextIdx := p.matched + 1 }

def becomeSnapshot (snapshotIdx : ℕ) : Progress :=
  { p.resetState .snapshot with pendingSnapshot := snapshotIdx }

def isSnapshotCaughtUp : Bool :=
  decide (p.state = .snapshot ∧ p.matched ≥ p.pendingSnapshot)

def resume : Progress := { p with paused := false }

def pause : Progress := { p with paused := true }

def updateCommitted (committedIndex : ℕ) : Progress :=
  if committedIndex > p.committedIndex then { p with committedIndex } else p

def maybeUpdate (n : ℕ) : Progress × Bool :=
  let needUpdate := decide (p.matched < n)
  let p := if p.matched < n then { p with matched := n, paused := false } else p
  let p := if p.nextIdx < n + 1 then { p with nextIdx := n + 1 } else p
  (p, needUpdate)

def optimisticUpdate (n : ℕ) : Progress := { p with nextIdx := n + 1 }

def updateState (last : ℕ) : Option Progress :=
  match p.state with
  | .probe => some p.pause
  | .replicate => do
      let p := p.optimisticUpdate last
      some { p with inflights := ← p.inflights.add last }
  | .snapshot => none

def snapshotFailure : Progress := { p with pendingSnapshot := 0 }

def isPaused : Bool :=
  match p.state with
  | .probe => p.paused
  | .replicate => p.inflights.full
  | .snapshot => true

def maybeDecTo (rejected matchHint requestSnapshot : ℕ) : Progress × Bool :=
  if p.state = .replicate then
    if rejected < p.matched ∨ (rejected = p.matched ∧ requestSnapshot = kInvalidIndex) then
      (p, false)
    else if requestSnapshot = kInvalidIndex then
      ({ p with nextIdx := p.matched + 1 }, true)
    else ({ p with pendingRequestSnapshot := requestSnapshot }, true)
  else if (p.nextIdx = 0 ∨ p.nextIdx - 1 ≠ rejected) ∧ requestSnapshot = kInvalidIndex then
    (p, false)
  else if requestSnapshot = kInvalidIndex then
    ({ p with nextIdx := max (min rejected (matchHint + 1)) (p.matched + 1), paused := false },
      true)
  else if p.pendingRequestSnapshot = kInvalidIndex then
    ({ p with pendingRequestSnapshot := requestSnapshot, paused := false }, true)
  else (p.resume, true)

end Progress

end Raftpp
