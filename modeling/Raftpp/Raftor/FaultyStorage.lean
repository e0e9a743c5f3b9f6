import Raftpp.Core.MemoryStorage
import Raftpp.Raftor.ReadyProcessor

/-!
# Storages whose writes may fail

`RetryableStorage` says what the processor may rely on when a storage call returns an
error: an append that fails leaves the log below its first entry, and the other calls
leave the log alone, apart from a snapshot that may have been installed in part.

A memory storage keeps the promise, and so does `FaultyStorage`, a memory storage some of
whose writes fail.
-/

namespace Raftpp

open WritableStorage LawfulStorage

/-- The same log, whatever the hard state and the configuration are. -/
structure Stable.SameLog (s t : Stable) : Prop where
  index : t.index = s.index
  term : t.term = s.term
  entries : t.entries = s.entries

theorem Stable.SameLog.refl (s : Stable) : s.SameLog s := ⟨rfl, rfl, rfl⟩

class RetryableStorage (σ : Type) [WritableStorage σ] [PeerStorage σ] [Codec] [LawfulStorage σ] :
    Prop where
  append_fails : ∀ (s : σ) (es : List Entry) (first : Entry), (view s).Contiguous →
    es.head? = some first → ¬Accepts (append s es) →
    (view (append s es).1).Contiguous ∧
      (view (append s es).1).index = (view s).index ∧
      (view (append s es).1).term = (view s).term ∧
      (view (append s es).1).entries.take
          (first.index - ((view s).index + 1)) =
        (view s).entries.take (first.index - ((view s).index + 1))
  setHardState_log : ∀ (s : σ) (hs : HardState), (view s).SameLog
    (view (setHardState s hs).1)
  setConfState_log : ∀ (s : σ) (cs : ConfState), (view s).SameLog
    (view (setConfState s cs).1)
  sync_log : ∀ s : σ, (view s).SameLog
    (view (sync s).1)
  upsertPeerAddress_log : ∀ (s : σ) (id : ℕ) (addr : Bytes), (view s).SameLog
    (view (PeerStorage.upsertPeerAddress s id addr).1)
  removePeerAddress_log : ∀ (s : σ) (id : ℕ), (view s).SameLog
    (view (PeerStorage.removePeerAddress s id).1)
  applySnapshot_fails : ∀ (s : σ) (snap : Snapshot), (view s).Contiguous →
    ¬Accepts (applySnapshot s snap) →
    (view (applySnapshot s snap).1).Contiguous

/-- An append that fails leaves a memory storage as it is. -/
theorem MemoryStorage.append_fails {s : MemoryStorage} {es : List Entry}
    (h : ¬Accepts (s.append es)) : (s.append es).1 = s := by
  revert h
  unfold append
  cases es with
  | nil => exact fun _ => rfl
  | cons first rest =>
      simp only
      split
      · exact fun _ => rfl
      split
      · exact fun _ => rfl
      · exact fun h => absurd rfl h

theorem MemoryStorage.applySnapshot_fails {s : MemoryStorage} {snap : Snapshot}
    (h : ¬Accepts (s.applySnapshot snap)) : (s.applySnapshot snap).1 = s := by
  revert h
  unfold applySnapshot
  split
  · exact fun _ => rfl
  · exact fun h => absurd rfl h

instance [Codec] : RetryableStorage MemoryStorage where
  append_fails s es first hs _ h := by
    rw [show (append s es).1 = s from MemoryStorage.append_fails h]
    exact ⟨hs, rfl, rfl, rfl⟩
  setHardState_log _ _ := ⟨rfl, rfl, rfl⟩
  setConfState_log _ _ := ⟨rfl, rfl, rfl⟩
  sync_log _ := .refl _
  upsertPeerAddress_log _ _ _ := .refl _
  removePeerAddress_log _ _ := .refl _
  applySnapshot_fails s snap hs h := by
    rw [show (applySnapshot s snap).1 = s from
      MemoryStorage.applySnapshot_fails h]
    exact hs

/-- A memory storage whose next writes fail where `faults` says so. -/
structure FaultyStorage where
  memory : MemoryStorage := {}
  faults : List Bool := []
  deriving DecidableEq

namespace FaultyStorage

variable {call : MemoryStorage → MemoryStorage × Result Unit} {s : FaultyStorage}

def write (s : FaultyStorage) (call : MemoryStorage → MemoryStorage × Result Unit) :
    FaultyStorage × Result Unit :=
  if s.faults.head? = some true then
    ({ s with faults := s.faults.tail }, .error (.storage .unavailable))
  else ({ memory := (call s.memory).1, faults := s.faults.tail }, (call s.memory).2)

instance [Codec] : WritableStorage FaultyStorage where
  initialState s := Storage.initialState s.memory
  entries s := Storage.entries s.memory
  term s := Storage.term s.memory
  firstIndex s := Storage.firstIndex s.memory
  lastIndex s := Storage.lastIndex s.memory
  getSnapshot s := Storage.getSnapshot s.memory
  append s es := s.write fun m => m.append es
  setHardState s hs := s.write fun m => m.setHardState hs
  setConfState s cs := s.write fun m => m.setConfState cs
  applySnapshot s snap := s.write fun m => m.applySnapshot snap
  applyLocalSnapshot s snap := s.write fun m => m.applyLocalSnapshot snap
  sync s := s.write fun m => (m, .ok ())

instance : PeerStorage FaultyStorage where
  upsertPeerAddress s _ _ := (s, .ok ())
  removePeerAddress s _ := (s, .ok ())

/-- A write that succeeds is the memory storage's. -/
theorem write_ok (h : Accepts (s.write call)) : Accepts (call s.memory) ∧
      (s.write call).1.memory = (call s.memory).1 := by
  revert h
  unfold write
  split
  · intro h
    cases h
  · exact fun h => ⟨h, rfl⟩

/-- A write changes the memory as the memory storage's does, or not at all. -/
theorem write_memory (s : FaultyStorage) (call : MemoryStorage → MemoryStorage × Result Unit) :
    (s.write call).1.memory = s.memory ∨
      (s.write call).1.memory = (call s.memory).1 ∧ (s.write call).2 = (call s.memory).2 := by
  unfold write
  split
  · exact Or.inl rfl
  · exact Or.inr ⟨rfl, rfl⟩

instance [Codec] : LawfulStorage FaultyStorage where
  view s := s.memory.view
  initialState_eq s := initialState_eq s.memory
  firstIndex_eq s := firstIndex_eq s.memory
  lastIndex_eq s := lastIndex_eq s.memory
  term_eq_ok s := term_eq_ok s.memory
  append_state s es h := by
    obtain ⟨hok, hmemory⟩ := write_ok h
    simp only [append, hmemory]
    exact append_state s.memory es hok
  append_log s es hs h := by
    obtain ⟨hok, hmemory⟩ := write_ok h
    simp only [append, hmemory]
    exact append_log s.memory es hs hok
  setHardState_eq s hs h := by
    obtain ⟨hok, hmemory⟩ := write_ok h
    simp only [setHardState, hmemory]
    exact setHardState_eq s.memory hs hok
  applySnapshot_eq s snap h := by
    obtain ⟨hok, hmemory⟩ := write_ok h
    simp only [applySnapshot, hmemory]
    exact applySnapshot_eq s.memory snap hok
  applyLocalSnapshot_state s snap h := by
    obtain ⟨hok, hmemory⟩ := write_ok h
    simp only [applyLocalSnapshot, hmemory]
    exact applyLocalSnapshot_state s.memory snap hok
  applyLocalSnapshot_log s snap hs hlast h := by
    obtain ⟨hok, hmemory⟩ := write_ok h
    simp only [applyLocalSnapshot, hmemory]
    exact applyLocalSnapshot_log s.memory snap hs hlast hok

instance [Codec] : AnsweringStorage FaultyStorage where
  entries_eq s := PagingStorage.entries_eq s.memory
  entries_ok s := ReliableStorage.entries_ok s.memory
  entries_answer s := AnsweringStorage.entries_answer s.memory

/-- A write that fails, or is of no consequence for the log. -/
theorem sameLog_write (h : s.memory.view.SameLog (call s.memory).1.view) :
    s.memory.view.SameLog (s.write call).1.memory.view := by
  rcases write_memory s call with hsame | ⟨hmemory, -⟩
  · rw [hsame]
    exact .refl _
  · rw [hmemory]
    exact h

theorem write_fails (hcall : ¬Accepts (call s.memory) → (call s.memory).1 = s.memory)
    (h : ¬Accepts (s.write call)) : (s.write call).1.memory = s.memory := by
  rcases write_memory s call with hsame | ⟨hmemory, hresult⟩
  · exact hsame
  · exact hmemory.trans (hcall fun hok => h (hresult.trans hok))

instance [Codec] : RetryableStorage FaultyStorage where
  append_fails s es first hs _ h := by
    have hview : view (append s es).1 = view s :=
      congrArg MemoryStorage.view (write_fails MemoryStorage.append_fails h)
    rw [hview]
    exact ⟨hs, rfl, rfl, rfl⟩
  setHardState_log _ _ := sameLog_write ⟨rfl, rfl, rfl⟩
  setConfState_log _ _ := sameLog_write ⟨rfl, rfl, rfl⟩
  sync_log _ := sameLog_write (.refl _)
  upsertPeerAddress_log _ _ _ := .refl _
  removePeerAddress_log _ _ := .refl _
  applySnapshot_fails s snap hs h := by
    have hview : view (applySnapshot s snap).1 = view s :=
      congrArg MemoryStorage.view (write_fails MemoryStorage.applySnapshot_fails h)
    rw [hview]
    exact hs

end FaultyStorage

end Raftpp
