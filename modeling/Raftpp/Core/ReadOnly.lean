import Raftpp.Core.Quorum

/-!
# Pending read requests

`ReadOnly` of `read_only.cc`: the read requests a leader has accepted and not
yet confirmed by a quorum, in arrival order.
-/

namespace Raftpp

inductive ReadOnlyOption
  | safe
  | leaseBased
  deriving DecidableEq

structure ReadState where
  index : ℕ
  requestCtx : Bytes := []
  deriving DecidableEq

structure ReadIndexStatus where
  req : Message
  index : ℕ
  acks : IdSet
  deriving DecidableEq

/-- `ReadOnly`. -/
structure ReadOnly where
  option : ReadOnlyOption
  pendingReadIndex : ListMap Bytes ReadIndexStatus := []
  readIndexQueue : List Bytes := []
  deriving DecidableEq

namespace ReadOnly

variable (ro : ReadOnly)

/-- The context of a read request: the data of its first entry. -/
def requestCtx (req : Message) : Option Bytes := req.entries.head?.map Entry.data

def addRequest (index : ℕ) (req : Message) (selfId : ℕ) : ReadOnly :=
  match requestCtx req with
  | none => ro
  | some ctx =>
      if ListMap.contains ro.pendingReadIndex ctx then ro
      else
        { ro with
          pendingReadIndex := ListMap.emplace ro.pendingReadIndex ctx
            ⟨req, index, (∅ : IdSet).insert selfId⟩
          readIndexQueue := ro.readIndexQueue ++ [ctx] }

def lastPendingRequestCtx : Option Bytes := ro.readIndexQueue.getLast?

/-- `RecvACK`: the acknowledgements of a request after one more. -/
def recvAck (id : ℕ) (ctx : Bytes) : ReadOnly × Option IdSet :=
  let pendingReadIndex := ListMap.modify ro.pendingReadIndex ctx fun status =>
    { status with acks := status.acks.insert id }
  ({ ro with pendingReadIndex }, (ListMap.get pendingReadIndex ctx).map ReadIndexStatus.acks)

/-- The requests from the front of the queue up to and including `ctx`; `none` inside when
`ctx` is not queued.  Aborts on a queued request without a pending status. -/
def advanceLoop (ro : ReadOnly) (ctx : Bytes) :
    List Bytes → Option (Option (List Bytes × List Bytes))
  | [] => some none
  | x :: xs =>
      if ListMap.contains ro.pendingReadIndex x then
        if x = ctx then some (some ([x], xs))
        else do
          match ← ro.advanceLoop ctx xs with
          | none => some none
          | some (done, rest) => some (some (x :: done, rest))
      else none

/-- Take the statuses of some requests out of the pending map. -/
def takeStatuses (pending : ListMap Bytes ReadIndexStatus) :
    List Bytes → Option (ListMap Bytes ReadIndexStatus × List ReadIndexStatus)
  | [] => some (pending, [])
  | x :: xs => do
      let status ← ListMap.get pending x
      let (pending, statuses) ← takeStatuses (ListMap.erase pending x) xs
      some (pending, status :: statuses)

def advance (ctx : Bytes) : Option (ReadOnly × List ReadIndexStatus) := do
  match ← ro.advanceLoop ctx ro.readIndexQueue with
  | none => some (ro, [])
  | some (done, rest) =>
      let (pendingReadIndex, statuses) ← takeStatuses ro.pendingReadIndex done
      some ({ ro with pendingReadIndex, readIndexQueue := rest }, statuses)

end ReadOnly

end Raftpp
