import Raftpp.Core.LawfulStorage
import Raftpp.Core.RawNode

/-!
# A cluster of raw nodes

The servers of a cluster, each with its storage, and the messages they have
sent.  A message stays in `net` once it is sent, so that it may be delivered any
number of times, in any order, or never.

The application of a server takes a `Ready` out of its node, writes it to the
storage, sends its messages and only then tells the node to advance.  A server
may crash at any point; it loses its node and keeps its storage.
-/

namespace Raftpp

open Option

/-- A server: stopped, between two `Ready`s, or with a `Ready` that is persisted and sent but
not yet reported to the node. -/
inductive Server (σ : Type)
  | down (store : σ)
  | idle (node : RawNode σ)
  | ready (node : RawNode σ) (rd : Ready)

namespace Server

variable {σ : Type}

def node? : Server σ → Option (RawNode σ)
  | down _ => none
  | idle node => some node
  | ready node _ => some node

def store : Server σ → σ
  | down store => store
  | idle node => node.raft.raftLog.store
  | ready node _ => node.raft.raftLog.store

end Server

structure Cluster (σ : Type) where
  servers : ℕ → Server σ
  net : List Message

/-- What happens to a cluster, at the server `id`. -/
inductive Action
  | input (id : ℕ) (call : RawNode.Input)
  | ready (id : ℕ)
  | advance (id : ℕ)
  | snapshot (id : ℕ) (data : Bytes) (index : ℕ)
  | crash (id : ℕ)
  | restart (id : ℕ) (config : Config) (rng : ℕ → ℕ)

/-- The storage after a write that succeeds. -/
def accepted {σ : Type} (write : σ × Result Unit) : Option σ :=
  match write.2 with
  | .ok () => some write.1
  | .error _ => none

theorem accepted_eq {σ : Type} {write : σ × Result Unit} {store : σ}
    (h : accepted write = some store) : Accepts write ∧ store = write.1 := by
  unfold accepted at h
  split at h
  next hok => exact ⟨hok, (some.inj h).symm⟩
  · cases h

namespace RawNode

variable {σ : Type} [WritableStorage σ] [Codec] (n : RawNode σ) (store : σ)

/-- The storage is shared between a node's log and the application. -/
def setStore : RawNode σ :=
  { n with raft := { n.raft with raftLog := { n.raft.raftLog with store } } }

def writeSnapshot (rd : Ready) : Option σ :=
  match rd.snapshot with
  | some snapshot => accepted (WritableStorage.applySnapshot store snapshot)
  | none => some store

def writeEntries (rd : Ready) : Option σ :=
  if rd.entries = [] then some store else accepted (WritableStorage.append store rd.entries)

def writeHardState (rd : Ready) : Option σ :=
  match rd.hs with
  | some hs => accepted (WritableStorage.setHardState store hs)
  | none => some store

/-- Write a `Ready`: the snapshot, the entries after it and the hard state. -/
def persist (rd : Ready) : Option σ := do
  let store ← writeSnapshot store rd
  let store ← writeEntries store rd
  writeHardState store rd

/-- Take out a `Ready` and persist it. -/
def processReady : Option (RawNode σ × Ready) := do
  let (n, rd) ← n.getReady
  some (n.setStore (← persist n.raft.raftLog.store rd), rd)

/-- Advance over a persisted `Ready`, and over the entries the node hands out then. -/
def finishReady (rd : Ready) : Option (RawNode σ × LightReady) := do
  let (n, light) ← n.advance rd
  if light.committedEntries = [] then some (n, light) else some (← n.advanceApply, light)

/-- Take a snapshot at an applied index, which is a committed and persisted one, and drop the
log up to it. -/
def takeSnapshot (data : Bytes) (index : ℕ) : Option (RawNode σ) :=
  let log := n.raft.raftLog
  let store := log.store
  if index ≤ log.applied ∧ index ≤ log.committed ∧ index ≤ log.persisted then do
    let state ← unwrap (Storage.initialState store)
    let term ← unwrap (Storage.term store index)
    let snapshot := { data, metadata := { index, term, confState := state.confState } }
    some (n.setStore (← accepted (WritableStorage.applyLocalSnapshot store snapshot)))
  else none

end RawNode

namespace Cluster

variable {σ : Type} [WritableStorage σ] [Codec] (c : Cluster σ)

def set (id : ℕ) (server : Server σ) : Cluster σ :=
  { c with servers := Function.update c.servers id server }

def send (messages : List Message) : Cluster σ :=
  { c with net := c.net ++ messages }

/-- Only a message that was sent to a node is delivered to it. -/
def deliverable (id : ℕ) : RawNode.Input → Bool
  | .step m => decide (m ∈ c.net ∧ m.receiver = id)
  | _ => true

/-- One action; `none` when it is not possible or aborts the process. -/
def exec : Action → Option (Cluster σ)
  | .input id call =>
      match c.servers id with
      | .idle n =>
          if c.deliverable id call then do some (c.set id (.idle (← n.input call))) else none
      | _ => none
  | .ready id =>
      match c.servers id with
      | .idle n => do
          let (n, rd) ← n.processReady
          some ((c.set id (.ready n rd)).send rd.light.messages)
      | _ => none
  | .advance id =>
      match c.servers id with
      | .ready n rd => do
          let (n, light) ← n.finishReady rd
          some ((c.set id (.idle n)).send light.messages)
      | _ => none
  | .snapshot id data index =>
      match c.servers id with
      | .idle n => do some (c.set id (.idle (← n.takeSnapshot data index)))
      | _ => none
  | .crash id => some (c.set id (.down (c.servers id).store))
  | .restart id config rng =>
      match c.servers id with
      | .down store =>
          if config.id = id ∧ config.loadStateOnStartup then do
            some (c.set id (.idle (← RawNode.new config store rng)))
          else none
      | _ => none

/-- What an action does when it is possible. -/
inductive Executes (c : Cluster σ) : Action → Cluster σ → Prop
  | input {id : ℕ} {call : RawNode.Input} {n n' : RawNode σ} (hn : c.servers id = .idle n)
      (hcall : c.deliverable id call = true) (hinput : n.input call = some n') :
      Executes c (.input id call) (c.set id (.idle n'))
  | ready {id : ℕ} {n n' : RawNode σ} {rd : Ready} (hn : c.servers id = .idle n)
      (hready : n.processReady = some (n', rd)) :
      Executes c (.ready id) ((c.set id (.ready n' rd)).send rd.light.messages)
  | advance {id : ℕ} {n n' : RawNode σ} {rd : Ready} {light : LightReady}
      (hn : c.servers id = .ready n rd) (hfinish : n.finishReady rd = some (n', light)) :
      Executes c (.advance id) ((c.set id (.idle n')).send light.messages)
  | snapshot {id : ℕ} {data : Bytes} {index : ℕ} {n n' : RawNode σ}
      (hn : c.servers id = .idle n) (hsnapshot : n.takeSnapshot data index = some n') :
      Executes c (.snapshot id data index) (c.set id (.idle n'))
  | crash {id : ℕ} : Executes c (.crash id) (c.set id (.down (c.servers id).store))
  | restart {id : ℕ} {config : Config} {rng : ℕ → ℕ} {store : σ} {n : RawNode σ}
      (hs : c.servers id = .down store) (hid : config.id = id)
      (hload : config.loadStateOnStartup = true) (hnew : RawNode.new config store rng = some n) :
      Executes c (.restart id config rng) (c.set id (.idle n))

theorem Executes.of_exec {c c' : Cluster σ} {a : Action} (h : c.exec a = some c') :
    Executes c a c' := by
  cases a with
  | input id call =>
      simp only [exec] at h
      split at h
      next n hn =>
        split at h
        next hcall =>
          obtain ⟨n', hinput, h⟩ := of_bind h
          cases h
          exact .input hn hcall hinput
        · cases h
      · cases h
  | ready id =>
      simp only [exec] at h
      split at h
      next n hn =>
        obtain ⟨⟨n', rd⟩, hready, h⟩ := of_bind h
        cases h
        exact .ready hn hready
      · cases h
  | advance id =>
      simp only [exec] at h
      split at h
      next n rd hn =>
        obtain ⟨⟨n', light⟩, hfinish, h⟩ := of_bind h
        cases h
        exact .advance hn hfinish
      · cases h
  | snapshot id data index =>
      simp only [exec] at h
      split at h
      next n hn =>
        obtain ⟨n', hsnapshot, h⟩ := of_bind h
        cases h
        exact .snapshot hn hsnapshot
      · cases h
  | crash id =>
      cases h
      exact .crash
  | restart id config rng =>
      simp only [exec] at h
      split at h
      next store hs =>
        split at h
        next hconfig =>
          obtain ⟨n, hnew, h⟩ := of_bind h
          cases h
          exact .restart hs hconfig.1 hconfig.2 hnew
        · cases h
      · cases h

/-- A run. -/
def run (actions : List Action) : Option (Cluster σ) := actions.foldlM exec c

/-- A run whose steps all meet `P`. -/
inductive Run (P : Cluster σ → Action → Prop) : Cluster σ → List Action → Cluster σ → Prop
  | nil (c : Cluster σ) : Run P c [] c
  | cons {c c₁ c₂ : Cluster σ} {a : Action} {actions : List Action} (hop : P c a)
      (hexec : c.exec a = some c₁) (hrun : Run P c₁ actions c₂) : Run P c (a :: actions) c₂

/-- Run as long as the steps meet `P`. -/
def runWhile (P : Cluster σ → Action → Prop) [∀ c a, Decidable (P c a)] (c : Cluster σ)
    (actions : List Action) : Option (Cluster σ) :=
  actions.foldlM (fun c a => if P c a then c.exec a else none) c

theorem Run.of_runWhile {P : Cluster σ → Action → Prop} [∀ c a, Decidable (P c a)]
    {c c' : Cluster σ} {actions : List Action} (h : c.runWhile P actions = some c') :
    Run P c actions c' := by
  induction actions generalizing c with
  | nil =>
      obtain rfl := some.inj h
      exact .nil c
  | cons a actions ih =>
      rw [runWhile, List.foldlM_cons] at h
      obtain ⟨c₁, hexec, hrest⟩ := of_bind h
      split at hexec
      next hop => exact .cons hop hexec (ih hrest)
      · cases hexec

/-- No server has started; the storages hold the shared configuration and nothing else. -/
def Initial [LawfulStorage σ] (cs : ConfState) (c : Cluster σ) : Prop :=
  c.net = [] ∧ ∀ id, ∃ store, c.servers id = .down store ∧
    LawfulStorage.view store = { confState := cs }

/-- The server `id` is a leader of the term `term`. -/
def LeaderAt (id term : ℕ) : Prop :=
  ∃ n, (c.servers id).node? = some n ∧ n.raft.state = .leader ∧ n.raft.term = term

instance (c : Cluster σ) (id term : ℕ) : Decidable (c.LeaderAt id term) :=
  match h : (c.servers id).node? with
  | none => isFalse fun ⟨n, hn, _⟩ => by simp [h] at hn
  | some n =>
      decidable_of_iff (n.raft.state = .leader ∧ n.raft.term = term)
        ⟨fun hn => ⟨n, h, hn⟩, fun ⟨n', hn', hleader⟩ => by
          rw [h] at hn'
          exact some.inj hn' ▸ hleader⟩

end Cluster

end Raftpp
