import Raftpp.Core.Progress
import Raftpp.Core.Quorum

/-!
# The progress tracker and its configuration

`ProgressTracker`, `TrackerConfiguration`, `ConfChanger` and the restoring of a
tracker from a `ConfState` (`progress_tracker.cc`, `tracker_conf.cc`,
`conf_changer.cc`, `conf_restore.cc`).
-/

namespace Raftpp

/-- `TrackerConfiguration`. -/
structure TrackerConfiguration where
  voters : JointConfiguration := {}
  learners : IdSet := ∅
  learnersNext : IdSet := ∅
  autoLeave : Bool := false
  deriving DecidableEq

namespace TrackerConfiguration

def toConfState (c : TrackerConfiguration) : ConfState where
  voters := c.voters.incoming.elems
  votersOutgoing := c.voters.outgoing.elems
  learners := c.learners.elems
  learnersNext := c.learnersNext.elems
  autoLeave := c.autoLeave

/-- `Joint`. -/
def joint (c : TrackerConfiguration) : Bool := !c.voters.outgoing.isEmpty

end TrackerConfiguration

abbrev ProgressMap := ListMap ℕ Progress

inductive MapChangeType
  | add
  | remove
  deriving DecidableEq

abbrev MapChange := List (ℕ × MapChangeType)

/-- `ProgressTracker`. -/
structure ProgressTracker where
  progress : ProgressMap := []
  conf : TrackerConfiguration := {}
  votes : ListMap ℕ Bool := []
  maxInflight : ℕ
  groupCommit : Bool := false
  deriving DecidableEq

namespace ProgressTracker

variable (t : ProgressTracker)

def new (maxInflight : ℕ) : ProgressTracker := { maxInflight }

def get (t : ProgressTracker) (id : ℕ) : Option Progress := ListMap.get t.progress id

/-- Change the progress of one peer in place. -/
def modify (t : ProgressTracker) (id : ℕ) (f : Progress → Progress) : ProgressTracker :=
  { t with progress := ListMap.modify t.progress id f }

/-- Change the progress of every peer in place. -/
def mapProgress (f : ℕ → Progress → Progress) : ProgressTracker :=
  { t with progress := ListMap.mapValues t.progress f }

def getVoteResult (t : ProgressTracker) (votes : ListMap ℕ Bool) : VoteResult :=
  t.conf.voters.getVoteResult (ListMap.get votes)

/-- `CountVotes`: the votes for and against, and the result. -/
def countVotes : ℕ × ℕ × VoteResult :=
  (t.votes.countP fun v => t.conf.voters.contains v.1 && v.2,
    t.votes.countP fun v => t.conf.voters.contains v.1 && !v.2,
    t.getVoteResult t.votes)

def applyChange (nextIdx : ℕ) (t : ProgressTracker) (change : ℕ × MapChangeType) :
    ProgressTracker :=
  match change.2 with
  | .add =>
      { t with
        progress := ListMap.emplace t.progress change.1
          { Progress.new nextIdx t.maxInflight with recentActive := true } }
  | .remove => { t with progress := ListMap.erase t.progress change.1 }

def applyConf (conf : TrackerConfiguration) (changes : MapChange)
    (nextIdx : ℕ) : ProgressTracker :=
  changes.foldl (applyChange nextIdx) { t with conf }

def resetVotes : ProgressTracker := { t with votes := [] }

/-- `ProgressMap::AckedIndex`. -/
def ackedIndex (voter : ℕ) : Option Index :=
  (t.get voter).map fun p => { index := p.matched, groupId := p.commitGroupId }

def maxCommittedIndex : ℕ × Bool :=
  t.conf.voters.committedIndex t.groupCommit t.ackedIndex

def recordVote (id : ℕ) (vote : Bool) : ProgressTracker :=
  { t with votes := ListMap.emplace t.votes id vote }

def hasQuorum (potentialQuorum : IdSet) : Bool :=
  decide (t.conf.voters.getVoteResult (fun id => some (decide (id ∈ potentialQuorum))) = .won)

/-- `QuorumRecentlyActive`: also clears the activity flags of the peers. -/
def quorumRecentlyActive (perspectiveOf : ℕ) : ProgressTracker × Bool :=
  let active := (t.progress.filter fun b => b.1 = perspectiveOf || b.2.recentActive).map Prod.fst
  (t.mapProgress fun id p => { p with recentActive := decide (id = perspectiveOf) },
    t.hasQuorum ((∅ : IdSet).insertAll active))

def isSingleton (t : ProgressTracker) : Bool := t.conf.voters.isSingleton

end ProgressTracker

/-! ## Configuration changes -/

/-- `IncrChangeMap`: pending changes over the progress map of a tracker. -/
structure IncrChangeMap where
  changes : MapChange := []
  base : ProgressMap

namespace IncrChangeMap

def contains (prs : IncrChangeMap) (id : ℕ) : Bool :=
  match prs.changes.reverse.find? fun change => change.1 = id with
  | some (_, .add) => true
  | some (_, .remove) => false
  | none => ListMap.contains prs.base id

def push (prs : IncrChangeMap) (id : ℕ) (change : MapChangeType) : IncrChangeMap :=
  { prs with changes := prs.changes ++ [(id, change)] }

end IncrChangeMap

def checkLearner (cfg : TrackerConfiguration) (prs : IncrChangeMap) (id : ℕ) : Result Unit :=
  if prs.contains id = false then
    .error (.confChangeError s!"no progress for learner {id}")
  else if id ∈ cfg.voters.outgoing then
    .error (.confChangeError s!"{id} is in learners and outgoing voters")
  else if id ∈ cfg.voters.incoming then
    .error (.confChangeError s!"{id} is in learners and incoming voters")
  else .ok ()

def checkLearnerNext (cfg : TrackerConfiguration) (prs : IncrChangeMap) (id : ℕ) : Result Unit :=
  if prs.contains id = false then
    .error (.confChangeError s!"no progress for learner(next) {id}")
  else if id ∈ cfg.voters.outgoing then .ok ()
  else .error (.confChangeError s!"{id} is in learners_next and outgoing voters")

/-- `CheckInvariants`. -/
def checkInvariants (cfg : TrackerConfiguration) (prs : IncrChangeMap) : Result Unit := do
  cfg.voters.ids.elems.forM fun id =>
    if prs.contains id then .ok ()
    else .error (.confChangeError s!"no progress for voter {id}")
  cfg.learners.elems.forM (checkLearner cfg prs)
  cfg.learnersNext.elems.forM (checkLearnerNext cfg prs)
  if cfg.joint then .ok ()
  else if cfg.learnersNext.isEmpty = false then
    .error (.confChange .learnersNextMustBeEmpty)
  else if cfg.autoLeave then .error (.confChange .autoLeaveMustBeFalse)
  else .ok ()

namespace ConfChanger

/-- The configuration under change together with the pending progress changes. -/
abbrev Draft := TrackerConfiguration × IncrChangeMap

def checkAndCopy (t : ProgressTracker) : Result Draft := do
  let prs : IncrChangeMap := { base := t.progress }
  checkInvariants t.conf prs
  .ok (t.conf, prs)

def initProgress (d : Draft) (id : ℕ) (isLearner : Bool) : Draft :=
  let (cfg, prs) := d
  if isLearner then
    ({ cfg with learners := cfg.learners.insert id }, prs.push id .add)
  else
    ({ cfg with voters := { cfg.voters with incoming := cfg.voters.incoming.insert id } },
      prs.push id .add)

def makeVoter (d : Draft) (id : ℕ) : Draft :=
  let (cfg, prs) := d
  if prs.contains id = false then initProgress d id false
  else
    ({ cfg with
        voters := { cfg.voters with incoming := cfg.voters.incoming.insert id }
        learners := cfg.learners.erase id
        learnersNext := cfg.learnersNext.erase id }, prs)

/-- The configuration without `id` among incoming voters, learners and next learners. -/
def dropId (cfg : TrackerConfiguration) (id : ℕ) : TrackerConfiguration :=
  { cfg with
    voters := { cfg.voters with incoming := cfg.voters.incoming.erase id }
    learners := cfg.learners.erase id
    learnersNext := cfg.learnersNext.erase id }

def makeLearner (d : Draft) (id : ℕ) : Draft :=
  let (cfg, prs) := d
  if prs.contains id = false then initProgress d id true
  else if id ∈ cfg.learners then d
  else
    let cfg := dropId cfg id
    if id ∈ cfg.voters.outgoing then
      ({ cfg with learnersNext := cfg.learnersNext.insert id }, prs)
    else ({ cfg with learners := cfg.learners.insert id }, prs)

def remove (d : Draft) (id : ℕ) : Draft :=
  let (cfg, prs) := d
  if prs.contains id = false then d
  else
    let cfg := dropId cfg id
    if id ∈ cfg.voters.outgoing then (cfg, prs) else (cfg, prs.push id .remove)

def applyOne (d : Draft) (cc : ConfChangeSingle) : Draft :=
  if cc.nodeId = 0 then d
  else
    match cc.changeType with
    | .addNode => makeVoter d cc.nodeId
    | .removeNode => remove d cc.nodeId
    | .addLearnerNode => makeLearner d cc.nodeId

def apply (d : Draft) (ccs : List ConfChangeSingle) : Result Draft :=
  let d := ccs.foldl applyOne d
  if d.1.voters.incoming.isEmpty then .error (.confChange .removedAllVoters) else .ok d

def enterJoint (t : ProgressTracker) (autoLeave : Bool) (ccs : List ConfChangeSingle) :
    Result (TrackerConfiguration × MapChange) := do
  if t.conf.joint then .error (.confChange .configAlreadyJoint)
  else
    let (cfg, prs) ← checkAndCopy t
    if cfg.voters.incoming.isEmpty then .error (.confChange .zeroVoterConfigJoint)
    else
      let outgoing := cfg.voters.outgoing.insertAll cfg.voters.incoming.elems
      let (cfg, prs) ← apply ({ cfg with voters := { cfg.voters with outgoing } }, prs) ccs
      let cfg := { cfg with autoLeave }
      checkInvariants cfg prs
      .ok (cfg, prs.changes)

def leaveJoint (t : ProgressTracker) : Result (TrackerConfiguration × MapChange) := do
  if t.conf.joint = false then .error (.confChange .leaveNonJointConfig)
  else
    let (cfg, prs) ← checkAndCopy t
    let cfg := { cfg with
      learners := cfg.learners.insertAll cfg.learnersNext.elems, learnersNext := ∅ }
    let gone := cfg.voters.outgoing.elems.filter fun id =>
      id ∉ cfg.voters.incoming ∧ id ∉ cfg.learners
    let prs := gone.foldl (fun prs id => prs.push id .remove) prs
    let cfg := { cfg with voters := { cfg.voters with outgoing := ∅ }, autoLeave := false }
    checkInvariants cfg prs
    .ok (cfg, prs.changes)

/-- The size of the symmetric difference of two sets. -/
def symmetricDifference (s t : IdSet) : ℕ :=
  (s.elems.countP fun id => id ∉ t) + (t.elems.countP fun id => id ∉ s)

def simple (t : ProgressTracker) (ccs : List ConfChangeSingle) :
    Result (TrackerConfiguration × MapChange) := do
  if t.conf.joint then .error (.confChange .cannotApplySimpleInJointConfig)
  else
    let d ← checkAndCopy t
    let (cfg, prs) ← apply d ccs
    if symmetricDifference cfg.voters.incoming t.conf.voters.incoming > 1 then
      .error (.confChange .multipleVotersChangedWithoutJoint)
    else
      checkInvariants cfg prs
      .ok (cfg, prs.changes)

end ConfChanger

/-! ## Restoring a tracker from a configuration state -/

/-- `ToConfChangeSingle`: the changes that build the outgoing and the incoming configuration. -/
def toConfChangeSingle (cs : ConfState) : List ConfChangeSingle × List ConfChangeSingle :=
  (cs.votersOutgoing.map fun id => ⟨.addNode, id⟩,
    (cs.votersOutgoing.map fun id => ⟨.removeNode, id⟩) ++
    (cs.voters.map fun id => ⟨.addNode, id⟩) ++
    (cs.learners.map fun id => ⟨.addLearnerNode, id⟩) ++
    (cs.learnersNext.map fun id => ⟨.addLearnerNode, id⟩))

/-- The fallback of `Restore` for a configuration without outgoing voters. -/
def restoreIncoming (t : ProgressTracker) (nextIdx : ℕ) (incoming : List ConfChangeSingle) :
    Result ProgressTracker := do
  let d ← ConfChanger.checkAndCopy t
  let (cfg, prs) ← incoming.foldlM (fun d cc => ConfChanger.apply d [cc]) d
  checkInvariants cfg prs
  .ok (t.applyConf cfg prs.changes nextIdx)

/-- `Restore` of `conf_restore.cc`. -/
def restoreTracker (t : ProgressTracker) (nextIdx : ℕ) (cs : ConfState) :
    Result ProgressTracker := do
  let (outgoing, incoming) := toConfChangeSingle cs
  if outgoing = [] then
    match ConfChanger.enterJoint t false incoming with
    | .ok (cfg, changes) => .ok (t.applyConf cfg changes nextIdx)
    | .error _ => restoreIncoming t nextIdx incoming
  else
    let t ← outgoing.foldlM (fun t cc => do
      let (cfg, changes) ← ConfChanger.simple t [cc]
      .ok (t.applyConf cfg changes nextIdx)) t
    let (cfg, changes) ← ConfChanger.enterJoint t cs.autoLeave incoming
    .ok (t.applyConf cfg changes nextIdx)

end Raftpp
