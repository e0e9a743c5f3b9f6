import Raftpp.Membership.Restore
import Raftpp.Raftor.Process

/-!
# Creating a node

`Raftor::Create` of `raftor.cc` on a storage that it is given: it checks its configuration,
writes the initial peers into an empty storage and makes the node, whose constructors check
again and abort.  They ask for more than `RaftorConfig::Validate` does.
-/

namespace Raftpp

open List Option TrackerConfiguration

structure PeerConfig where
  id : ℕ := 0
  addr : Bytes := []

inductive TransportKind
  | capnp
  | noop
  deriving DecidableEq

/-- `RaftorConfig`, with the fields that `Create` reads. -/
structure RaftorConfig where
  nodeId : ℕ := 0
  listenAddr : Bytes := []
  transportKind : TransportKind := .capnp
  initialPeers : List PeerConfig := []
  dataDir : Bytes := []
  electionTick : ℕ := 10
  heartbeatTick : ℕ := 2
  maxSizePerMessage : ℕ := 1024 * 1024
  maxInflightMessages : ℕ := 256
  preVote : Bool := true
  checkQuorum : Bool := true
  readOnlyOption : ReadOnlyOption := .safe
  enableEntryChecksum : Bool := false

/-- `LocalSnapshot`; a storage that keeps no snapshot has none. -/
class SnapshotStorage (σ : Type) where
  localSnapshot : σ → Result (Option Snapshot) := fun _ => .ok none

variable {σ μ : Type} [WritableStorage σ] [SnapshotStorage σ] [StateMachine μ]

/-- `RestoreLocalSnapshot`: the state machine, and the index that it is restored to. -/
def restoreLocalSnapshot (store : σ) (machine : μ) : Result (μ × ℕ) := do
  match ← SnapshotStorage.localSnapshot store with
  | none => .ok (machine, 0)
  | some snapshot =>
      if snapshot.metadata.index = 0 then .ok (machine, 0)
      else
        let (machine, result) :=
          StateMachine.restoreSnapshot machine snapshot.metadata snapshot.data
        result
        .ok (machine, snapshot.metadata.index)

namespace RaftorConfig

variable (config : RaftorConfig)

def validate : Result Unit :=
  if config.nodeId = 0 then .error (.config .invalidNodeId)
  else if config.transportKind = .capnp ∧ config.listenAddr = [] then
    .error (.config .listenAddressEmpty)
  else if config.dataDir = [] then .error (.config .dataDirectoryEmpty)
  else if config.electionTick ≤ config.heartbeatTick then .error (.config .electionTickTooSmall)
  else .ok ()

def toRaftConfig : Config where
  id := config.nodeId
  electionTick := config.electionTick
  heartbeatTick := config.heartbeatTick
  maxSizePerMessage := config.maxSizePerMessage
  maxInflightMessages := config.maxInflightMessages
  preVote := config.preVote
  checkQuorum := config.checkQuorum
  readOnlyOption := config.readOnlyOption
  loadStateOnStartup := true

/-- The ids of the initial peers, in their order. -/
def peerIds : List ℕ := config.initialPeers.map PeerConfig.id

def buildBootstrapConfState : Result ConfState :=
  if config.peerIds = [] then .ok { voters := [config.nodeId] }
  else if config.nodeId ∈ config.peerIds then .ok { voters := config.peerIds }
  else .error (.config .nodeIdNotInInitialPeers)

/-- `BootstrapStorageIfNeeded`. -/
def bootstrapStorageIfNeeded (store : σ) : Result σ := do
  let state ← Storage.initialState store
  if state.confState.voters ≠ [] then .ok store
  else
    let confState ← config.buildBootstrapConfState
    let (store, result) := WritableStorage.setConfState store confState
    result
    .ok store

/-- What comes before the node: the storage, the state machine and the applied index. -/
def prepare (machine : μ) (store : σ) : Result (σ × μ × ℕ) := do
  config.validate
  let store ← config.bootstrapStorageIfNeeded store
  .ok (store, ← restoreLocalSnapshot store machine)

/-- `Create`, with the constructor of `RaftorImpl`. -/
def create [Codec] (machine : μ) (store : σ) (rng : ℕ → ℕ) :
    Option (Result (ReadyProcessor σ μ)) :=
  match config.prepare machine store with
  | .error e => some (.error e)
  | .ok (store, stateMachine, appliedIndex) => do
      let node ← RawNode.new { config.toRaftConfig with applied := appliedIndex } store rng
      let peers := config.initialPeers.filter fun peer => peer.id ≠ config.nodeId ∧ peer.addr ≠ []
      some (.ok
        { node, stateMachine, appliedIndex
          transport := peers.map fun peer => .addPeer peer.id peer.addr
          nodeId := config.nodeId, checksumEnabled := config.enableEntryChecksum })

/-- What the constructors ask of a configuration beyond `validate`. -/
@[mk_iff]
structure Accepted : Prop where
  heartbeatTick : 0 < config.heartbeatTick
  electionTick : 2 * config.electionTick < 2 ^ 64
  maxInflightMessages : 0 < config.maxInflightMessages
  checkQuorum : config.readOnlyOption = .leaseBased → config.checkQuorum = true
  distinct : config.peerIds.Nodup
  nonzero : 0 ∉ config.peerIds

end RaftorConfig

/-! ## The configuration that is written -/

/-- Distinct voters are restored. -/
theorem restoreTracker_voters {ids : List ℕ} (hne : ids ≠ []) (hnodup : ids.Nodup)
    (hzero : 0 ∉ ids) (size next : ℕ) :
    ∃ t, restoreTracker (.new size) next { voters := ids } = .ok t ∧
      Raft.confStatesEqualIgnoringOrder { voters := ids } t.conf.toConfState = true := by
  obtain ⟨t, -, ht, hjoint, hstanding⟩ := foldlM_simple_ok next
    (ProgressTracker.new_consistent size) rfl fun id (hid : id ∈ ids) h => hzero (h ▸ hid)
  have hnil : ∀ s : IdSet, (∀ id, id ∉ s) → [].Perm s.elems := fun s hs => by
    rw [eq_nil_iff_forall_not_mem.mpr hs]
  have hmem : ∀ id, id ∈ t.conf.voters.incoming ↔ id ∈ ids := fun id => by
    rw [← standing_eq_voter, hstanding]
    split <;> simp_all [ProgressTracker.new, standing, ListSet.not_mem_empty]
  have hlearner : ∀ id, t.conf.standing id ≠ .learner := fun id => by
    rw [hstanding]
    split <;> simp [ProgressTracker.new, standing, ListSet.not_mem_empty]
  have hcs : ConfState.Describes { voters := ids } t.conf := by
    refine ⟨(perm_ext_iff_of_nodup hnodup t.conf.voters.incoming.nodup).mpr fun id =>
      (hmem id).symm, ?_, ?_, ?_, (ht.autoLeave hjoint).symm⟩
    · rw [ConfChanger.outgoing_eq_nil hjoint]
    · exact hnil _ fun id hid => hlearner id ((ht.draft.mem_learners id).mp hid).1
    · exact hnil _ fun id hid => hlearner id ((ht.draft.mem_learnersNext id).mp hid).1
  obtain ⟨v, hv⟩ := exists_mem_of_ne_nil ids hne
  obtain ⟨t', hrestore, -, hsame⟩ := restoreTracker_ok ht hcs
    (isEmpty_eq_false_iff_exists_mem.mpr ⟨v, (hmem v).mpr hv⟩) size next
  exact ⟨t', hrestore, confStatesEqual_of_same hcs hsame⟩

/-- A list of voters is restored if they are distinct and none is zero. -/
theorem restoreTracker_voters_iff {ids : List ℕ} {size next : ℕ} (hne : ids ≠ []) :
    (∃ t, restoreTracker (.new size) next { voters := ids } = .ok t ∧
      Raft.confStatesEqualIgnoringOrder { voters := ids } t.conf.toConfState = true) ↔
    ids.Nodup ∧ 0 ∉ ids := by
  refine ⟨?_, fun h => restoreTracker_voters hne h.1 h.2 size next⟩
  rintro ⟨t, h, hequal⟩
  have ht := restoreTracker_consistent (ProgressTracker.new_consistent size) h
  simp only [Raft.confStatesEqualIgnoringOrder, Bool.and_eq_true, isPerm_iff] at hequal
  have hperm : ids.Perm t.conf.voters.incoming.elems := hequal.1.1
  exact ⟨hperm.nodup_iff.mpr t.conf.voters.incoming.nodup, fun hzero =>
    ht.draft.ne_zero (Or.inl (hperm.mem_iff.mp hzero)) rfl⟩

/-! ## The constructors -/

variable {store : σ} {rng : ℕ → ℕ}

/-- An empty storage with the configuration `cs`. -/
structure EmptyStorage (store : σ) (cs : ConfState) : Prop where
  initialState : Storage.initialState store = .ok { confState := cs }
  firstIndex : Storage.firstIndex store = .ok 1
  lastIndex : Storage.lastIndex store = .ok 0
  localSnapshot : SnapshotStorage.localSnapshot store = .ok none

/-- The constructors return if the configuration is valid and can be restored. -/
theorem EmptyStorage.new_iff [Codec] {config : Config} {cs : ConfState}
    (h : EmptyStorage store cs) (hid : config.id ≠ 0) (happlied : config.applied = 0) :
    (∃ n, RawNode.new config store rng = some n) ↔ config.validate = .ok () ∧
      ∃ t, restoreTracker (.new config.maxInflightMessages) 0 cs = .ok t ∧
        Raft.confStatesEqualIgnoringOrder cs t.conf.toConfState = true := by
  cases hvalidate : config.validate with
  | error e => simp [RawNode.new, Raft.new, Raft.init, hvalidate, unwrap]
  | ok u =>
      cases ht : restoreTracker (.new config.maxInflightMessages) 0 cs <;>
        simp [RawNode.new, Raft.new, Raft.init, RaftLog.new, RaftLog.lastIndex,
          Unstable.maybeLastIndex, Raft.postConfChange, Raft.loadInitialState, Raft.loadApplied,
          Raft.becomeFollower, Raft.reset, h.firstIndex, h.lastIndex, h.initialState, hvalidate,
          ht, hid, happlied, unwrap]
      split <;> simp_all

namespace RaftorConfig

variable {config : RaftorConfig}

theorem validate_ok (h : config.validate = .ok ()) :
    config.nodeId ≠ 0 ∧ config.heartbeatTick < config.electionTick := by
  unfold validate at h
  grind

/-- The part of the configuration that the core validates. -/
theorem toRaftConfig_valid_iff (hvalid : config.validate = .ok ())
    (hsize : config.maxSizePerMessage ≤ kNoLimit) :
    config.toRaftConfig.validate = .ok () ↔ 0 < config.heartbeatTick ∧
      2 * config.electionTick < 2 ^ 64 ∧ 0 < config.maxInflightMessages ∧
      (config.readOnlyOption = .leaseBased → config.checkQuorum = true) := by
  obtain ⟨hid, hticks⟩ := validate_ok hvalid
  simp only [Config.validate, toRaftConfig, Config.minTick, Config.maxTick, if_true, kInvalidId]
  grind

/-- The voters that are written into an empty storage. -/
theorem bootstrap_voters {store' : σ} (hempty : EmptyStorage store {})
    (hset : ∀ cs store', WritableStorage.setConfState store cs = (store', .ok ()) →
      EmptyStorage store' cs) (h : config.bootstrapStorageIfNeeded store = .ok store') :
    ∃ ids, EmptyStorage store' { voters := ids } ∧ ids ≠ [] ∧
      (ids = config.peerIds ∨ config.peerIds = [] ∧ ids = [config.nodeId]) := by
  obtain ⟨state, hstate, h⟩ := Result.bind_eq_ok.mp h
  obtain rfl : { confState := {} } = state := Except.ok.inj (hempty.initialState.symm.trans hstate)
  obtain ⟨cs, hbuild, h⟩ := Result.bind_eq_ok.mp h
  obtain ⟨⟨⟩, hresult, h⟩ := Result.bind_eq_ok.mp h
  cases h
  have hstore := hset cs _ (Prod.ext rfl hresult)
  unfold buildBootstrapConfState at hbuild
  split at hbuild
  next hnil =>
    cases hbuild
    exact ⟨_, hstore, by simp, Or.inr ⟨hnil, rfl⟩⟩
  next hne =>
    split at hbuild
    · cases hbuild
      exact ⟨_, hstore, hne, Or.inl rfl⟩
    · cases hbuild

/-- Without a local snapshot, `Create` returns if the constructors do. -/
theorem create_iff_new [Codec] {store' : σ} {machine : μ} (hvalid : config.validate = .ok ())
    (hboot : config.bootstrapStorageIfNeeded store = .ok store')
    (hlocal : SnapshotStorage.localSnapshot store' = .ok none) :
    (∃ result, config.create machine store rng = some result) ↔
      ∃ n, RawNode.new config.toRaftConfig store' rng = some n := by
  have hrestore : restoreLocalSnapshot store' machine = .ok (machine, 0) := by
    rw [restoreLocalSnapshot, hlocal]
    rfl
  have hprepare : config.prepare machine store = .ok (store', machine, 0) :=
    Result.bind_eq_ok.mpr ⟨(), hvalid, Result.bind_eq_ok.mpr ⟨store', hboot,
      Result.bind_eq_ok.mpr ⟨(machine, 0), hrestore, rfl⟩⟩⟩
  simp only [create, hprepare, bind_eq_bind, bind_eq_some_iff, some.injEq]
  constructor
  · rintro ⟨-, n, hn, -⟩
    exact ⟨n, hn⟩
  · rintro ⟨n, hn⟩
    exact ⟨_, n, hn, rfl⟩

/-- With an empty storage and a configuration that `validate` accepts, `Create` returns exactly if
writing the initial peers fails or the constructors accept the configuration. -/
theorem create_returns_iff [Codec] (hvalid : config.validate = .ok ())
    (hsize : config.maxSizePerMessage ≤ kNoLimit) (hempty : EmptyStorage store {})
    (hset : ∀ cs store', WritableStorage.setConfState store cs = (store', .ok ()) →
      EmptyStorage store' cs) (machine : μ) :
    (∃ result, config.create machine store rng = some result) ↔
      (∃ e, config.bootstrapStorageIfNeeded store = .error e) ∨ config.Accepted := by
  cases hboot : config.bootstrapStorageIfNeeded store with
  | error e =>
      have hprepare : config.prepare machine store = .error e := by
        simp only [prepare, hvalid, hboot]
        rfl
      simp [create, hprepare]
  | ok store' =>
      obtain ⟨ids, hstore', hne, hids⟩ := bootstrap_voters hempty hset hboot
      rw [create_iff_new hvalid hboot hstore'.localSnapshot,
        hstore'.new_iff (validate_ok hvalid).1 rfl, toRaftConfig_valid_iff hvalid hsize,
        restoreTracker_voters_iff hne]
      have hdistinct : ids.Nodup ∧ 0 ∉ ids ↔ config.peerIds.Nodup ∧ 0 ∉ config.peerIds := by
        rcases hids with rfl | ⟨hnil, rfl⟩
        · rfl
        · simp [hnil, (validate_ok hvalid).1.symm]
      simp only [hdistinct, config.accepted_iff, reduceCtorEq, exists_false, false_or, and_assoc]

end RaftorConfig

/-! ## A memory storage -/

instance : SnapshotStorage MemoryStorage where

theorem MemoryStorage.emptyStorage [Codec] (cs : ConfState) :
    EmptyStorage ({ confState := cs } : MemoryStorage) cs := ⟨rfl, rfl, rfl, rfl⟩

/-- The defaults, for a node that is alone. -/
def aloneConfig : RaftorConfig where
  nodeId := 1
  listenAddr := [1]
  dataDir := [1]

/-- Three nodes that start together. -/
def trioConfig : RaftorConfig :=
  { aloneConfig with initialPeers := [⟨1, [1]⟩, ⟨2, [2]⟩, ⟨3, [3]⟩] }

theorem RaftorConfig.create_returns_iff_trio :
    letI := Codec.plain
    trioConfig.peerIds = [1, 2, 3] ∧
      ∃ result, trioConfig.create () ({} : MemoryStorage) (fun _ => 0) = some result := by
  let _ := Codec.plain
  refine ⟨rfl, (trioConfig.create_returns_iff rfl (by decide) (MemoryStorage.emptyStorage {}) ?_
    ()).mpr (Or.inr ⟨by decide, by decide, by decide, by decide, by decide, by decide⟩)⟩
  intro cs store' h
  cases h
  exact MemoryStorage.emptyStorage cs

/-- Configurations that `validate` accepts and the constructors abort on. -/
theorem RaftorConfig.create_aborts :
    letI := Codec.plain
    ([{ aloneConfig with heartbeatTick := 0 }, { aloneConfig with electionTick := 2 ^ 63 },
      { aloneConfig with maxInflightMessages := 0 },
      { aloneConfig with readOnlyOption := .leaseBased, checkQuorum := false },
      { aloneConfig with initialPeers := [⟨1, []⟩, ⟨1, []⟩] },
      { aloneConfig with initialPeers := [⟨1, []⟩, ⟨0, []⟩] }].all fun config =>
        decide (config.validate = .ok ()) &&
          (config.create () ({} : MemoryStorage) fun _ => 0).isNone) = true := by
  decide +kernel

end Raftpp
