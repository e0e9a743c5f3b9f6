import Raftpp.Log.Operations
import Raftpp.Protocol.Micro

/-!
# What a step does to the log

`Change env` lists what an elementary step can do to a node's log; only the
installation of a snapshot changes what the log is built on.
-/

namespace Raftpp

namespace RaftLog

/-- What a step does to the log that takes nothing out of it. -/
inductive Growth {σ : Type} [Storage σ] (l : RaftLog σ) : RaftLog σ → Prop
  | same {l' : RaftLog σ} (h : Same l l') : Growth l l'
  | append {l' : RaftLog σ} (term last index : ℕ) (entries : List Entry)
      (hlast : l.lastIndex = some last)
      (h : l.append (Raft.numberEntries term (last + 1) entries) = some (l', index)) :
      Growth l l'
  | commit {l' : RaftLog σ} (i : ℕ) (hlt : l.committed < i)
      (hlast : ∃ last, l.lastIndex = some last ∧ i ≤ last)
      (h : l' = { l with committed := i }) : Growth l l'

/-- What an elementary step does to the log of a node in the given role. -/
inductive Change {σ : Type} [Storage σ] (env : Env) (role : StateRole) (l : RaftLog σ) :
    RaftLog σ → Prop
  | grow {l' : RaftLog σ} (h : Growth l l') : Change env role l l'
  | maybeAppend {l' : RaftLog σ} (m : Message) (result : Result MaybeAppendResult)
      (hm : env.sent m) (hkind : m.msgType = .msgAppend) (hrole : role = .follower)
      (h : l.maybeAppend m.index m.logTerm m.commit m.entries = some (l', result)) :
      Change env role l l'
  | restore {l' : RaftLog σ} (m : Message) (hm : env.sent m) (hkind : m.msgType = .msgSnapshot)
      (hrole : role = .follower) (hcommitted : l.committed ≤ m.snapshot.metadata.index)
      (h : l.restore m.snapshot = (l', .ok ())) : Change env role l l'
  | persist (index term : ℕ) (henv : env.persist l.unstable) :
      Change env role l (l.maybePersist index term).1
  | persistSnapshot {l' : RaftLog σ} (index : ℕ) (updated : Bool) (henv : env.persist l.unstable)
      (h : l.maybePersistSnapshot index = some (l', updated)) : Change env role l l'

section Changes

variable {σ : Type} [Storage σ] {env : Env} {role : StateRole} {l l' : RaftLog σ}

theorem Growth.refl (l : RaftLog σ) : Growth l l := .same (.refl l)

theorem Growth.of_commitTo {i : ℕ} {result : Result Unit}
    (h : l.commitTo i = some (l', result)) : Growth l l' := by
  rcases commitTo_eq h with rfl | ⟨hlt, hlast, rfl⟩
  · exact .refl l'
  · exact .commit i hlt hlast rfl

theorem Growth.of_maybeCommit {i term : ℕ} {committed : Bool}
    (h : l.maybeCommit i term = some (l', committed)) : Growth l l' := by
  rcases maybeCommit_eq h with rfl | ⟨hlt, -, hlast, rfl⟩
  · exact .refl l'
  · exact .commit i hlt hlast rfl

/-- Only what a leader sends, or a report of what is persisted, does more than add to the
log. -/
theorem Change.growth (h : Change env role l l') (hpersist : ∀ u, ¬env.persist u)
    (hno : role = .leader ∨
      ∀ m, env.sent m → m.msgType ≠ .msgAppend ∧ m.msgType ≠ .msgSnapshot) : Growth l l' := by
  cases h with
  | grow h => exact h
  | maybeAppend m result hm hkind hrole h =>
      rcases hno with hleader | hno
      · cases hleader.symm.trans hrole
      · exact absurd hkind (hno m hm).1
  | restore m hm hkind hrole hcommitted h =>
      rcases hno with hleader | hno
      · cases hleader.symm.trans hrole
      · exact absurd hkind (hno m hm).2
  | persist index term henv => exact absurd henv (hpersist _)
  | persistSnapshot index updated henv h => exact absurd henv (hpersist _)

end Changes

end RaftLog

section Steps

variable {σ : Type} [Storage σ] [Codec] {env : Env} {c c' : NodeCore σ}

/-- Every elementary step changes the log in one of these ways. -/
theorem Micro.change (h : Micro env c c') : RaftLog.Change env c.state c.log c'.log := by
  cases h with
  | follow term tracks log hterm hlog => exact .grow (.same hlog)
  | bookkeep log hlog => exact .grow (.same hlog)
  | win last index log tracks henv hstate hwon hlast happend htracks =>
      exact .grow (.append _ last index _ hlast happend)
  | propose last entries log index pendingConf hstate hlast happend hconf hentries hroom =>
      exact .grow (.append _ last index entries hlast happend)
  | accept m log conflict last hm hkind hstate happend =>
      exact .maybeAppend m _ hm.sent hkind hstate happend
  | install m log tracker maxInflight hm hkind hstate hcommitted htracker hlog =>
      exact .restore m hm.sent hkind hstate hcommitted hlog
  | commitTo i log result hstate hcommit => exact .grow (.of_commitTo hcommit)
  | commitTold i term log committed hstate hcommit hclear => exact .grow (.of_maybeCommit hcommit)
  | commitByQuorum i log committed hstate hcommit => exact .grow (.of_maybeCommit hcommit)
  | persist index term henv => exact .persist index term henv
  | persistSnapshot index log updated henv hpersist =>
      exact .persistSnapshot index updated henv hpersist
  | _ => exact .grow (.refl c.log)

/-- Only the installation of a snapshot changes the base of the log. -/
theorem Micro.sameBase_or_install (h : Micro env c c') :
    RaftLog.SameBase c.log c'.log ∨ ∃ m, env.sent m ∧ m.msgType = .msgSnapshot ∧
      c.log.restore m.snapshot = (c'.log, .ok ()) := by
  generalize hlog : c'.log = log
  cases hlog ▸ h.change with
  | grow h =>
      left
      cases h with
      | same h => exact ⟨h.store, by rw [h.unstable]⟩
      | append term last index entries hlast h => exact (RaftLog.append_keeps h).toSameBase
      | commit i hlt hlast h => exact h ▸ ⟨rfl, rfl⟩
  | maybeAppend m result hm hkind hrole h => exact Or.inl (RaftLog.maybeAppend_keeps h).toSameBase
  | restore m hm hkind hrole hcommitted h => exact Or.inr ⟨m, hm, hkind, h⟩
  | persist index term henv =>
      left
      rcases c.log.maybePersist_eq index term with hsame | ⟨-, -, -, hmoved⟩
      · exact hsame ▸ .refl c.log
      · exact hmoved ▸ ⟨rfl, rfl⟩
  | persistSnapshot index updated henv h =>
      left
      obtain rfl | ⟨-, -, rfl⟩ := RaftLog.maybePersistSnapshot_eq h
      · exact .refl c.log
      · exact ⟨rfl, rfl⟩

/-- A step of a node does not touch its storage. -/
theorem Micro.store_eq (h : Micro env c c') : c'.log.store = c.log.store := by
  rcases h.sameBase_or_install with hbase | ⟨m, -, -, hlog⟩
  · exact hbase.store
  · rw [(RaftLog.restore_eq hlog).2]

theorem Steps.store_eq (h : Steps env c c') : c'.log.store = c.log.store := by
  induction h with
  | refl => rfl
  | tail _ hstep ih => exact hstep.store_eq.trans ih

end Steps

end Raftpp
