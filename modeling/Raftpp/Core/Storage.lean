import Raftpp.Core.Types

/-!
# The storage interface

`Storage` and `WritableStorage` of `storage.h` as type classes.  A read that the
interface declares as `Result<T>` returns an `Except`; the two reads whose
implementations may abort the process (`PANIC`) return it inside an `Option`,
where `none` is the abort.  Throughout the development `none` has this meaning:
the process has called `std::abort` and there is no state after the call.

`limitSize` is `LimitSize` of `util.cc`, which both the storages and the log use.
-/

namespace Raftpp

open List

/-- What a storage returns from `InitialState`. -/
structure RaftState where
  hardState : HardState := {}
  confState : ConfState := {}
  deriving DecidableEq

/-- `GetEntriesContext`: the purpose of a read, with the payload of its union. -/
inductive GetEntriesContext
  | sendAppend (peer term : ℕ) (aggressively : Bool)
  | genReady
  | transferLeader
  | commitByVote
  | empty (canAsync : Bool)
  deriving DecidableEq

namespace GetEntriesContext

def canAsync : GetEntriesContext → Bool
  | .empty canAsync => canAsync
  | .sendAppend _ _ _ => true
  | _ => false

end GetEntriesContext

class Storage (σ : Type) where
  initialState : σ → Result RaftState
  entries : σ → ℕ → ℕ → Option ℕ → GetEntriesContext → Option (Result (List Entry))
  term : σ → ℕ → Result ℕ
  firstIndex : σ → Result ℕ
  lastIndex : σ → Result ℕ
  getSnapshot : σ → ℕ → ℕ → Option (Result Snapshot)

/-- A write returns the storage after the call together with the call's result,
since a call that fails may have changed the storage. -/
class WritableStorage (σ : Type) extends Storage σ where
  append : σ → List Entry → σ × Result Unit
  setHardState : σ → HardState → σ × Result Unit
  setConfState : σ → ConfState → σ × Result Unit
  applySnapshot : σ → Snapshot → σ × Result Unit
  applyLocalSnapshot : σ → Snapshot → σ × Result Unit
  sync : σ → σ × Result Unit

/-- `Unwrap`: abort on an error. -/
def unwrap {α : Type*} : Result α → Option α
  | .ok a => some a
  | .error _ => none

theorem unwrap_eq_some {α : Type*} {x : Result α} {a : α} : unwrap x = some a ↔ x = .ok a := by
  cases x <;> simp [unwrap]

@[simp] theorem unwrap_ok {α : Type*} (a : α) : unwrap (.ok a : Result α) = some a := rfl

section LimitSize

variable [Codec] {xs : List Entry}

/-- The entries kept after the first one, while the running total stays within `max`. -/
def limitSizeLoop (max : ℕ) : ℕ → List Entry → List Entry
  | _, [] => []
  | total, e :: es =>
      if total + Codec.entrySize e > max then []
      else e :: limitSizeLoop max (total + Codec.entrySize e) es

/-- `LimitSize`: the first entry is always kept. -/
def limitSize (entries : List Entry) (max : Option ℕ) : List Entry :=
  match entries, max with
  | [], _ => []
  | entries, none => entries
  | e :: es, some max =>
      if es = [] ∨ max = kNoLimit then e :: es
      else e :: limitSizeLoop max (Codec.entrySize e) es

theorem limitSizeLoop_eq_take (max : ℕ) :
    ∀ (entries : List Entry) (total : ℕ),
      ∃ k, limitSizeLoop max total entries = entries.take k := by
  intro entries
  induction entries with
  | nil => exact fun total => ⟨0, rfl⟩
  | cons e es ih =>
      intro total
      unfold limitSizeLoop
      split
      · exact ⟨0, rfl⟩
      · obtain ⟨k, hk⟩ := ih (total + Codec.entrySize e)
        exact ⟨k + 1, by rw [hk, take_succ_cons]⟩

/-- `LimitSize` keeps a nonempty prefix of a nonempty list. -/
theorem limitSize_eq_take (entries : List Entry) (max : Option ℕ) :
    ∃ k, limitSize entries max = entries.take (k + 1) := by
  cases entries with
  | nil => exact ⟨0, by simp [limitSize]⟩
  | cons e es =>
      cases max with
      | none => exact ⟨es.length, by simp [limitSize]⟩
      | some max =>
          unfold limitSize
          simp only
          split
          · exact ⟨es.length, by simp⟩
          · obtain ⟨k, hk⟩ := limitSizeLoop_eq_take max es (Codec.entrySize e)
            exact ⟨k, by rw [hk, take_succ_cons]⟩

theorem limitSizeLoop_append_of_lt (max : ℕ) (ys : List Entry) {total : ℕ}
    (h : (limitSizeLoop max total xs).length < xs.length) :
    limitSizeLoop max total (xs ++ ys) = limitSizeLoop max total xs := by
  induction xs generalizing total with
  | nil => cases h
  | cons x xs ih =>
      rw [cons_append]
      simp only [limitSizeLoop] at h ⊢
      split
      · rfl
      next hfits =>
        rw [if_neg hfits, length_cons, length_cons] at h
        rw [ih (by omega)]

/-- A list that `LimitSize` cuts is cut at the same place when it is longer. -/
theorem limitSize_append_of_lt (ys : List Entry) {max : Option ℕ}
    (h : (limitSize xs max).length < xs.length) : limitSize (xs ++ ys) max = limitSize xs max := by
  cases xs with
  | nil => exact absurd h (by simp [limitSize])
  | cons x xs =>
      cases max with
      | none => exact absurd h (by simp [limitSize])
      | some max =>
          simp only [limitSize] at h
          split at h
          · exact absurd h (by simp)
          next hcut =>
            have hne : xs ≠ [] := fun hnil => hcut (Or.inl hnil)
            have hmax : max ≠ kNoLimit := fun hmax => hcut (Or.inr hmax)
            simp only [length_cons, Nat.add_lt_add_iff_right] at h
            rw [cons_append]
            simp only [limitSize, append_eq_nil_iff, hne, hmax, false_and, or_self, if_false]
            rw [limitSizeLoop_append_of_lt max ys h]

/-- `LimitSize` returns everything, or less than everything. -/
theorem limitSize_eq_self {max : Option ℕ} (h : xs.length ≤ (limitSize xs max).length) :
    limitSize xs max = xs := by
  obtain ⟨k, hk⟩ := limitSize_eq_take xs max
  rw [hk, length_take] at h
  rw [hk, take_of_length_le (by omega)]

@[simp] theorem limitSize_none (entries : List Entry) : limitSize entries none = entries := by
  cases entries <;> rfl

end LimitSize

end Raftpp
