import Raftpp.Protocol.Micro

/-!
# What a leader makes of the progress of its peers

Most changes of a `Progress` leave what the peer has acknowledged as it is; one that
moves the acknowledged index says where it got the index from.
-/

namespace Raftpp

open Option

namespace Progress

variable {pr pr' : Progress}

theorem matched_updateCommitted (pr : Progress) (i : ℕ) :
    (pr.updateCommitted i).matched = pr.matched := by
  unfold updateCommitted
  split <;> rfl

theorem matched_maybeUpdate (pr : Progress) (n : ℕ) :
    (pr.maybeUpdate n).1.matched = max pr.matched n := by
  simp only [maybeUpdate]
  by_cases hmatched : pr.matched < n <;> by_cases hnext : pr.nextIdx < n + 1 <;>
    simp only [hmatched, hnext, if_true, if_false] <;> omega

theorem matched_becomeProbe (pr : Progress) : pr.becomeProbe.matched = pr.matched := by
  unfold becomeProbe
  split <;> rfl

/-! ## Entries that are sent -/

/-- The progress after `entries` were put into a message. -/
def noteSent (pr : Progress) (entries : List Entry) : Option Progress :=
  match entries.getLast? with
  | none => some pr
  | some last => pr.updateState last.index

/-- Sending leaves what is acknowledged as it is. -/
theorem matched_noteSent {entries : List Entry} (h : pr.noteSent entries = some pr') :
    pr'.matched = pr.matched := by
  unfold noteSent updateState at h
  split at h
  · cases h
    rfl
  split at h
  · cases h
    rfl
  · obtain ⟨f, -, h⟩ := of_bind h
    cases h
    rfl
  · cases h

/-! ## Responses -/

/-- The progress after a rejection. -/
def afterReject (pr : Progress) (rejected hint request : ℕ) : Progress :=
  let dec := pr.maybeDecTo rejected hint request
  if dec.2 = true ∧ dec.1.state = .replicate then dec.1.becomeProbe else dec.1

theorem matched_afterReject (pr : Progress) (rejected hint request : ℕ) :
    (pr.afterReject rejected hint request).matched = pr.matched := by
  have hdec : (pr.maybeDecTo rejected hint request).1.matched = pr.matched := by
    unfold maybeDecTo
    repeat' split
    all_goals rfl
  unfold afterReject
  dsimp only
  split
  · exact (matched_becomeProbe _).trans hdec
  · exact hdec

/-- The progress after an acceptance. -/
theorem matched_acknowledgedProgress (pr : Progress) (index : ℕ) :
    (Raft.acknowledgedProgress pr index).matched = pr.matched := by
  unfold Raft.acknowledgedProgress
  split
  · rfl
  · dsimp only
    split
    · exact matched_becomeProbe _
    · rfl
  · split
    · exact matched_becomeProbe _
    · rfl

theorem matched_resumedProgress (pr : Progress) (commit : ℕ) :
    (Raft.resumedProgress pr commit).matched = pr.matched := by
  have hcommit := pr.matched_updateCommitted commit
  unfold Raft.resumedProgress
  dsimp only
  split <;> exact hcommit

end Progress

end Raftpp
