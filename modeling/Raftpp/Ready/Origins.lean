import Raftpp.Ready.Moves

/-!
# Where the entries of a node come from

An entry is made once: by a proposal, or by a leader of its own accord.  The leader numbers
it when it appends it, and from then on it is only copied: into append messages, out of them
into the log of a follower, to the storage and back, and into what is handed to the
application.  On the way there are places that copy an entry field by field.

`Entry.From K` says that an entry is such a copy of an entry that meets `K`.  The module shows
that a node keeps to such entries: if all it holds and all that reaches it is from `K`, then so
is all that it stores, sends and hands out.  Nothing is assumed of the order or the numbers of
the entries, and of a storage only that it returns what it was given.
-/

namespace Raftpp

open WritableStorage

variable {K : Entry → Prop} {ctx : GetEntriesContext} {e : Entry} {es : List Entry}
  {low high term : ℕ} {snapshot : Snapshot}

open List Option

/-- The two entries agree, except for the number and the term that a leader gives. -/
structure Entry.Copies (e e₀ : Entry) : Prop where
  entryType : e.entryType = e₀.entryType
  data : e.data = e₀.data
  context : e.context = e₀.context
  checksum : e.checksum = e₀.checksum

theorem Entry.Copies.refl (e : Entry) : e.Copies e := ⟨rfl, rfl, rfl, rfl⟩

theorem Entry.Copies.trans {e₁ e₂ : Entry} (h : e.Copies e₁) (h' : e₁.Copies e₂) :
    e.Copies e₂ where
  entryType := h.entryType.trans h'.entryType
  data := h.data.trans h'.data
  context := h.context.trans h'.context
  checksum := h.checksum.trans h'.checksum

/-- The entry is a copy of one that meets `K` or of one that a leader made. -/
def Entry.From [Codec] (K : Entry → Prop) (e : Entry) : Prop :=
  ∃ e₀, (K e₀ ∨ e₀.OfLeader) ∧ e.Copies e₀

theorem Entry.From.of_known [Codec] (h : K e) : e.From K :=
  ⟨e, Or.inl h, .refl e⟩

theorem Entry.From.of_leader [Codec] (h : e.OfLeader) : e.From K := ⟨e, Or.inr h, .refl e⟩

theorem Entry.From.of_copies [Codec] {e₁ : Entry} (h : e₁.From K) (hcopies : e.Copies e₁) :
    e.From K := by
  obtain ⟨e₀, hknown, hcopies'⟩ := h
  exact ⟨e₀, hknown, hcopies.trans hcopies'⟩

/-- A leader numbers its entries and changes nothing else. -/
theorem Raft.numberEntries_copies :
    ∀ {i : ℕ} {entries : List Entry}, e ∈ numberEntries term i entries →
      ∃ e₀ ∈ entries, e.Copies e₀ := by
  intro i entries
  induction entries generalizing i with
  | nil => exact fun h => absurd h not_mem_nil
  | cons e₁ es ih =>
      intro h
      rcases mem_cons.mp h with rfl | h
      · exact ⟨e₁, mem_cons_self, rfl, rfl, rfl, rfl⟩
      · obtain ⟨e₀, he₀, hcopies⟩ := ih h
        exact ⟨e₀, mem_cons_of_mem _ he₀, hcopies⟩

/-! ## The log -/

/-- A storage that returns only entries it was given. -/
class HoldingStorage (σ : Type) [WritableStorage σ] where
  held : σ → List Entry
  entries_held : ∀ (s : σ) (low high : ℕ) (max : Option ℕ) (ctx : GetEntriesContext)
    (es : List Entry), Storage.entries s low high max ctx = some (.ok es) → ∀ e ∈ es, e ∈ held s
  append_held : ∀ (s : σ) (es : List Entry), ∀ e ∈ held (append s es).1,
    e ∈ held s ∨ e ∈ es
  setHardState_held : ∀ (s : σ) (hs : HardState),
    ∀ e ∈ held (setHardState s hs).1, e ∈ held s
  setConfState_held : ∀ (s : σ) (cs : ConfState),
    ∀ e ∈ held (setConfState s cs).1, e ∈ held s
  applySnapshot_held : ∀ (s : σ) (snapshot : Snapshot),
    ∀ e ∈ held (applySnapshot s snapshot).1, e ∈ held s
  applyLocalSnapshot_held : ∀ (s : σ) (snapshot : Snapshot),
    ∀ e ∈ held (applyLocalSnapshot s snapshot).1, e ∈ held s
  sync_held : ∀ (s : σ), ∀ e ∈ held (sync s).1, e ∈ held s

open HoldingStorage (held)

theorem mem_of_mem_limitSize [Codec] {max : Option ℕ} (h : e ∈ limitSize es max) : e ∈ es := by
  obtain ⟨k, hk⟩ := limitSize_eq_take es max
  exact mem_of_mem_take (hk ▸ h)

namespace MemoryStorage

variable [Codec] {s : MemoryStorage} {e : Entry}

theorem mem_of_getEntries {max : Option ℕ} (h : s.getEntries low high max ctx = some (.ok es))
    (he : e ∈ es) : e ∈ s.entries := by
  unfold getEntries at h
  split at h
  · cases h
  split at h
  · cases h
  split at h
  · cases h
  · obtain ⟨first, -, h⟩ := of_bind h
    cases h
    exact mem_of_mem_drop (mem_of_mem_take (mem_of_mem_limitSize he))

section

omit [Codec]

theorem mem_of_append (he : e ∈ (s.append es).1.entries) : e ∈ s.entries ∨ e ∈ es := by
  unfold append at he
  split at he
  · exact Or.inl he
  split at he
  · exact Or.inl he
  split at he
  · exact Or.inl he
  · exact (mem_append.mp he).imp_left mem_of_mem_take

theorem mem_of_applySnapshot (he : e ∈ (s.applySnapshot snapshot).1.entries) : e ∈ s.entries := by
  unfold applySnapshot at he
  split at he
  · exact he
  · exact absurd he not_mem_nil

theorem mem_of_compact {index : ℕ} (he : e ∈ (s.compact index).1.entries) : e ∈ s.entries := by
  unfold compact at he
  split at he
  · exact he
  split at he
  · exact he
  split at he
  · exact he
  · exact mem_of_mem_drop he

theorem mem_of_applyLocalSnapshot (he : e ∈ (s.applyLocalSnapshot snapshot).1.entries) :
    e ∈ s.entries := by
  unfold applyLocalSnapshot at he
  simp only at he
  split at he
  · exact he
  · exact (mem_of_compact he :)

end

instance : HoldingStorage MemoryStorage where
  held s := s.entries
  entries_held _ _ _ _ _ _ h _ he := mem_of_getEntries h he
  append_held _ _ _ he := mem_of_append he
  setHardState_held _ _ _ he := he
  setConfState_held _ _ _ he := he
  applySnapshot_held _ _ _ he := mem_of_applySnapshot he
  applyLocalSnapshot_held _ _ _ he := mem_of_applyLocalSnapshot he
  sync_held _ _ he := he

end MemoryStorage

namespace RaftLog

variable {σ : Type} [WritableStorage σ] [HoldingStorage σ] {P : Entry → Prop} {l l' : RaftLog σ}

variable {es entries : List Entry} {index : ℕ} {maxSize : Option ℕ}

/-- All entries of the log, in memory and in the storage, meet `P`. -/
structure Within (P : Entry → Prop) (l : RaftLog σ) : Prop where
  memory : ∀ e ∈ l.unstable.entries, P e
  stored : ∀ e ∈ held l.store, P e

theorem Within.of_same (h : l.Within P) (hstore : l'.store = l.store)
    (hunstable : l'.unstable = l.unstable) : l'.Within P :=
  ⟨hunstable ▸ h.memory, hstore ▸ h.stored⟩

theorem Within.append (h : l.Within P) (hes : ∀ e ∈ es, P e)
    (happend : l.append es = some (l', index)) : l'.Within P := by
  refine ⟨?_, (append_keeps happend).store ▸ h.stored⟩
  obtain ⟨-, rfl⟩ | ⟨first, rest, u, -, -, hu, rfl⟩ := append_eq happend
  · exact h.memory
  · obtain ⟨-, -, size, -, -, rfl⟩ := Unstable.truncateAndAppend_some hu
    exact forall_mem_append.mpr ⟨fun e he => h.memory e (mem_of_mem_take he), hes⟩

theorem Within.commitTo {i : ℕ} {result : Result Unit} (h : l.Within P)
    (hcommit : l.commitTo i = some (l', result)) : l'.Within P := by
  rcases commitTo_eq hcommit with rfl | ⟨-, -, rfl⟩
  · exact h
  · exact h.of_same rfl rfl

theorem Within.maybeCommit {i : ℕ} {committed : Bool} (h : l.Within P)
    (hcommit : l.maybeCommit i term = some (l', committed)) : l'.Within P := by
  rcases maybeCommit_eq hcommit with rfl | ⟨-, -, -, rfl⟩
  · exact h
  · exact h.of_same rfl rfl

/-- A follower takes entries of the message, from some place on. -/
theorem Within.maybeAppend {committed : ℕ} {result : Result MaybeAppendResult} (h : l.Within P)
    (hes : ∀ e ∈ es, P e) (happend : l.maybeAppend index term committed es = some (l', result)) :
    l'.Within P := by
  rcases maybeAppend_eq happend with rfl | ⟨i, r, hcommit⟩ |
    ⟨conflict, toAppend, l₁, last, i, r, -, hclone, hfirst, hcommit⟩
  · exact h
  · exact h.commitTo hcommit
  · have hnew : ∀ e ∈ toAppend, P e := by
      unfold cloneFrom at hclone
      split at hclone
      · cases hclone
        exact fun e he => hes e (mem_of_mem_drop he)
      · cases hclone
    have hwithin : ({ l₁ with persisted := min l₁.persisted (conflict - 1) } :
        RaftLog σ).Within P := (h.append hnew hfirst).of_same rfl rfl
    exact hwithin.commitTo hcommit

theorem Within.restore (h : l.Within P) (hrestore : l.restore snapshot = (l', .ok ())) :
    l'.Within P := by
  obtain ⟨-, rfl⟩ := restore_eq hrestore
  exact ⟨fun e he => absurd he not_mem_nil, h.stored⟩

theorem Within.maybePersist (h : l.Within P) (index term : ℕ) :
    (l.maybePersist index term).1.Within P := by
  rcases l.maybePersist_eq index term with hsame | ⟨-, -, -, hmoved⟩
  · rw [hsame]
    exact h
  · rw [hmoved]
    exact h.of_same rfl rfl

theorem Within.maybePersistSnapshot {updated : Bool} (h : l.Within P)
    (hpersist : l.maybePersistSnapshot index = some (l', updated)) : l'.Within P := by
  rcases maybePersistSnapshot_eq hpersist with rfl | ⟨-, -, rfl⟩
  · exact h
  · exact h.of_same rfl rfl

variable [Codec]

theorem Within.sliceUnstable (h : l.Within P) (hes : ∀ e ∈ es, P e)
    (hslice : l.sliceUnstable low high maxSize es = some (.ok entries)) : ∀ e ∈ entries, P e := by
  unfold RaftLog.sliceUnstable at hslice
  split at hslice
  · simp only [bind_eq_bind] at hslice
    obtain ⟨unstable, hunstable, hslice⟩ := of_bind hslice
    cases hslice
    unfold Unstable.slice at hunstable
    obtain ⟨-, -, hunstable⟩ := of_bind hunstable
    cases hunstable
    intro e he
    rcases mem_append.mp (mem_of_mem_limitSize he) with hbefore | hmemory
    · exact hes e hbefore
    · exact h.memory e (mem_of_mem_drop (mem_of_mem_take hmemory))
  · cases hslice
    exact fun e he => hes e (mem_of_mem_limitSize he)

/-- What is read from the log is in it. -/
theorem Within.slice (h : l.Within P) (hslice : l.slice low high maxSize ctx = some (.ok entries)) :
    ∀ e ∈ entries, P e := by
  unfold RaftLog.slice at hslice
  obtain ⟨bounds, -, hslice⟩ := of_bind hslice
  split at hslice
  · cases hslice
  split at hslice
  · cases hslice
    exact fun e he => absurd he not_mem_nil
  split at hslice
  · obtain ⟨read, hread, hslice⟩ := of_bind hslice
    split at hslice
    next stored =>
      have hstored : ∀ e ∈ stored, P e := fun e he =>
        h.stored e (HoldingStorage.entries_held _ _ _ _ _ _ hread e he)
      split at hslice
      · cases hslice
        exact hstored
      · exact h.sliceUnstable hstored hslice
    · cases hslice
    · cases hslice
    · cases hslice
  · exact h.sliceUnstable (fun e he => absurd he not_mem_nil) hslice

theorem Within.getEntries (h : l.Within P)
    (hget : l.getEntries index maxSize ctx = some (.ok entries)) : ∀ e ∈ entries, P e := by
  unfold RaftLog.getEntries at hget
  obtain ⟨last, -, hget⟩ := of_bind hget
  split at hget
  · cases hget
    exact fun e he => absurd he not_mem_nil
  · exact h.slice hget

theorem Within.nextEntriesSince {since : ℕ} {entries : Option (List Entry)} (h : l.Within P)
    (hnext : l.nextEntriesSince since maxSize = some entries) : ∀ e ∈ entries.getD [], P e := by
  simp only [RaftLog.nextEntriesSince] at hnext
  obtain ⟨first, -, hnext⟩ := of_bind hnext
  split at hnext
  · obtain ⟨read, hread, hnext⟩ := of_bind hnext
    split at hnext
    · cases hnext
      exact h.slice hread
    · cases hnext
  · cases hnext
    exact fun e he => absurd he not_mem_nil

omit [Codec] in
/-- What becomes stable is forgotten. -/
theorem Within.stableRecord {record : ReadyRecord} (h : l.Within P)
    (hstable : RawNode.stableRecord record l = some l') : l'.Within P := by
  have hentries : ∀ {l₁ : RaftLog σ} {index term : ℕ}, l₁.Within P →
      l₁.stableEntries index term = some l' → l'.Within P := by
    intro l₁ index term h₁ hstable
    have hsettled := RawNode.stableEntries_settled hstable
    have hstore : l'.store = l₁.store := by rw [hsettled.same]
    refine ⟨?_, hstore ▸ h₁.stored⟩
    rw [hsettled.entries]
    exact fun e he => absurd he not_mem_nil
  unfold RawNode.stableRecord at hstable
  split at hstable
  · cases hstable
    exact h
  · rw [(stableSnapshot_eq hstable).2]
    exact ⟨h.memory, h.stored⟩
  · exact hentries h hstable
  · simp only [bind_eq_bind] at hstable
    obtain ⟨l₁, hfirst, hstable⟩ := of_bind hstable
    have hwithin : l₁.Within P := by
      rw [(stableSnapshot_eq hfirst).2]
      exact ⟨h.memory, h.stored⟩
    exact hentries hwithin hstable

end RaftLog

/-! ## Steps -/

/-- The entries that a receiver takes out of the message are from `K`. -/
def Message.Carries [Codec] (K : Entry → Prop) (m : Message) : Prop :=
  m.msgType = .msgAppend ∨ m.msgType = .msgPropose → ∀ e ∈ m.entries, e.From K

/-- All entries of a node are from `K`, those in its log and those on their way to a peer. -/
structure NodeCore.Carries {σ : Type} [WritableStorage σ] [Codec] [HoldingStorage σ]
    (K : Entry → Prop) (c : NodeCore σ) : Prop where
  log : c.log.Within (Entry.From K)
  queue : ∀ m ∈ c.messages, m.Carries K

/-- All that may reach a node is from `K`. -/
structure Env.Carries [Codec] (K : Entry → Prop) (env : Env) : Prop where
  sent : ∀ m, env.sent m → m.Carries K
  propose : ∀ e, env.propose e → e.From K

section Steps

variable {σ : Type} [WritableStorage σ] [Codec] [HoldingStorage σ] {K : Entry → Prop}
  {env : Env} {c c' : NodeCore σ}

/-- A node queues only what is in its log or proposed to it. -/
theorem NodeCore.Carries.sendOk {m : Message} (h : c.Carries K) (henv : env.Carries K)
    (hok : SendOk env c m) : m.Carries K := by
  intro hentries
  cases hok with
  | append i maxSize ctx hkind hstate hterm hget => exact h.log.getEntries hget
  | forward hkind hpropose => exact fun e he => henv.propose e (hpropose e he)
  | other hkind hpropose =>
      rcases hentries with happend | hpropose'
      · simp [happend, MessageType.isProtocol] at hkind
      · exact absurd hpropose' hpropose
  | _ => simp_all

/-- What a step does to the log. -/
theorem NodeCore.Carries.micro_log (h : c.Carries K) (henv : env.Carries K)
    (hstep : Micro env c c') : c'.log.Within (Entry.From K) := by
  have hlog := h.log
  -- a leader numbers what it appends, and changes nothing else
  have hnumbered : ∀ {term i : ℕ} {entries : List Entry},
      (∀ e ∈ entries, e.From K) → ∀ e ∈ Raft.numberEntries term i entries, e.From K := by
    intro term i entries hentries e he
    obtain ⟨e₀, he₀, hcopies⟩ := Raft.numberEntries_copies he
    exact (hentries e₀ he₀).of_copies hcopies
  cases hstep with
  | follow term tracks log hterm hsame => exact hlog.of_same hsame.store hsame.unstable
  | bookkeep log hsame => exact hlog.of_same hsame.store hsame.unstable
  | win last index log tracks helect hstate hwon hlast happend htracks =>
      exact hlog.append (hnumbered (forall_mem_singleton.mpr (.of_leader (Or.inl rfl)))) happend
  | propose last entries log index pendingConf hstate hlast happend hconf hentries hroom =>
      exact hlog.append (hnumbered fun e he => henv.propose e (hentries e he)) happend
  | accept m log conflict last hm hkind hstate happend =>
      exact hlog.maybeAppend (henv.sent m hm.sent (Or.inl hkind)) happend
  | install m log tracker maxInflight hm hkind hstate hcommitted htracker hrestore =>
      exact hlog.restore hrestore
  | commitTo i log result hstate hcommit => exact hlog.commitTo hcommit
  | commitTold i term log committed hstate hcommit hclear => exact hlog.maybeCommit hcommit
  | commitByQuorum i log committed hstate hcommit => exact hlog.maybeCommit hcommit
  | persist index term hunstable => exact hlog.maybePersist index term
  | persistSnapshot index log updated hunstable hpersist =>
      exact hlog.maybePersistSnapshot hpersist
  | _ => exact hlog

/-- What a step does to the queue. -/
theorem NodeCore.Carries.micro_queue (h : c.Carries K) (henv : env.Carries K)
    (hstep : Micro env c c') : ∀ m ∈ c'.messages, m.Carries K := by
  intro m hm
  rcases hstep.mem_messages hm with
    hold | hok | ⟨m₀, hm₀, i, maxSize, ctx, entries, hget, hkind, rfl⟩
  · exact h.queue m hold
  · exact h.sendOk henv hok
  · -- the entries read from the log follow those that were queued
    intro hkind' e he
    rcases mem_append.mp he with hqueued | hread
    · exact h.queue m₀ hm₀ hkind' e hqueued
    · exact h.log.getEntries hget e hread

theorem NodeCore.Carries.steps (h : c.Carries K) (henv : env.Carries K)
    (hsteps : Steps env c c') : c'.Carries K := by
  induction hsteps with
  | refl => exact h
  | tail _ hstep ih => exact ⟨ih.micro_log henv hstep, ih.micro_queue henv hstep⟩

end Steps

/-! ## Calls -/

namespace RawNode

variable {σ : Type} [WritableStorage σ] [Codec] [HoldingStorage σ] {K : Entry → Prop}
  {n n' : RawNode σ}

variable {rd : Ready}

/-- All that the node holds is from `K`. -/
abbrev Carries (K : Entry → Prop) (n : RawNode σ) : Prop := n.raft.core.Carries K

/-- What may reach a node: any messages out of `net`, and proposals from `K`. -/
def carryEnv (K : Entry → Prop) (net : Message → Prop) : Env :=
  { Env.free net with proper := False, propose := Entry.From K }

omit [WritableStorage σ] [HoldingStorage σ] in
theorem carryEnv_carries {net : Message → Prop} (hnet : ∀ m, net m → m.Carries K) :
    (carryEnv K net).Carries K :=
  ⟨hnet, fun _ => id⟩

/-- A chain of steps that no message and no proposal takes part in. -/
theorem Carries.steps {r' : Raft σ} (h : n.Carries K)
    (hsteps : Steps (carryEnv K fun _ => False) n.raft.core r'.core) : r'.core.Carries K :=
  NodeCore.Carries.steps h (carryEnv_carries fun _ => False.elim) hsteps

/-- A node is given an input: a message that carries what is from `K`, or a proposal. -/
theorem Carries.input {call : Input} (h : n.Carries K) (hm : ∀ m, call = .step m → m.Carries K)
    (hpropose : ∀ ctx data, call = .propose ctx data →
      K (setEntryChecksum { data, context := ctx }))
    (hcall : n.input call = some n') : n'.Carries K := by
  have hproposed : ∀ e, call.Proposes e → e.From K := by
    intro e he
    cases call with
    | step m => exact hm m rfl (Or.inr he.1) e he.2
    | propose ctx data =>
        obtain rfl : e = _ := he
        exact .of_known (hpropose ctx data rfl)
    | _ => exact he.elim
  obtain ⟨raft, hsteps, rfl⟩ := @input_eq σ _ _ (carryEnv K fun m => call = .step m) n n' call hcall
    (fun m hstep _ => ⟨hstep, False.elim, False.elim⟩)
    (fun m _ => ⟨fun _ => trivial, fun _ _ _ _ _ => trivial⟩) (fun _ => trivial)
    (fun _ => trivial) hproposed
  exact NodeCore.Carries.steps h (carryEnv_carries hm) hsteps

theorem Carries.proposeConfChange {ctx : Bytes} {cc : ConfChangeV2} (h : n.Carries K)
    (hpropose : K (confChangeEntry ctx cc))
    (hcall : (n.proposeConfChange ctx cc).map Prod.fst = some n') : n'.Carries K := by
  obtain ⟨raft, hsteps, rfl⟩ :=
    @proposeConfChange_eq σ _ _ (carryEnv K fun _ => False) n n' ctx cc (.of_known hpropose) hcall
  exact h.steps hsteps

theorem Carries.applyConfChange {cc : ConfChangeV2} (h : n.Carries K)
    (hcall : (n.applyConfChange cc).map Prod.fst = some n') : n'.Carries K := by
  obtain ⟨tracker, promotable, raft, -, hreacts, rfl⟩ :=
    @applyConfChange_eq σ _ _ (carryEnv K fun _ => False) n n' cc hcall
  have hcarries : ({ n.raft with tracker, promotable } : Raft σ).core.Carries K :=
    ⟨h.log, h.queue⟩
  exact hcarries.steps (carryEnv_carries fun _ => False.elim) hreacts.steps

theorem Carries.advanceApplyTo {applied : ℕ} (h : n.Carries K)
    (hcall : n.advanceApplyTo applied = some n') : n'.Carries K := by
  obtain ⟨raft, hsteps, rfl⟩ :=
    @advanceApplyTo_eq σ _ _ (carryEnv K fun _ => False) n n' applied (fun _ => .of_leader) hcall
  exact h.steps hsteps

theorem Carries.setStore {store : σ} (h : n.Carries K) (hstore : ∀ e ∈ held store, e.From K) :
    (n.setStore store).Carries K :=
  ⟨⟨h.log.memory, hstore⟩, h.queue⟩

/-- The queue is emptied, and nothing else that carries entries changes. -/
theorem Carries.flushes {messages : List Message} (h : n.Carries K)
    (hflushes : Flushes n n' messages) : n'.Carries K ∧ ∀ m ∈ messages, m.Carries K := by
  refine ⟨?_, hflushes.messages ▸ h.queue⟩
  rw [Carries, hflushes.core]
  exact ⟨h.log, fun m hm => absurd hm not_mem_nil⟩

theorem Carries.getLightReady {light : LightReady} (h : n.Carries K)
    (hlight : n.getLightReady = some (n', light)) :
    n'.Carries K ∧ (∀ m ∈ light.messages, m.Carries K) ∧
      ∀ e ∈ light.committedEntries, e.From K := by
  obtain ⟨hcarries, hmessages⟩ := h.flushes (getLightReady_flushes hlight)
  obtain ⟨es, hnext, hentries⟩ := (getLightReady_hands hlight).next
  exact ⟨hcarries, hmessages, hentries ▸ h.log.nextEntriesSince hnext⟩

/-- What is in a `Ready` is from `K`: its messages, the entries to be persisted and those to be
applied. -/
structure Ready.Carries (K : Entry → Prop) (rd : Ready) : Prop where
  messages : ∀ m ∈ rd.light.messages, m.Carries K
  entries : ∀ e ∈ rd.entries, e.From K
  committed : ∀ e ∈ rd.light.committedEntries, e.From K

theorem Carries.getReady (h : n.Carries K) (hready : n.getReady = some (n', rd)) :
    n'.Carries K ∧ Ready.Carries K rd := by
  have htakes := getReady_takes hready
  obtain ⟨hcarries, hmessages⟩ := h.flushes htakes.toFlushes
  obtain ⟨since, es, -, hnext, hentries, -⟩ := (getReady_offers hready).entries
  exact ⟨hcarries, hmessages, htakes.entries ▸ h.log.memory,
    hentries ▸ h.log.nextEntriesSince hnext⟩

omit [Codec] in
theorem mem_of_persist {store store' : σ} (h : persist store rd = some store')
    (he : e ∈ held store') : e ∈ held store ∨ e ∈ rd.entries := by
  unfold persist at h
  obtain ⟨s₁, hsnapshot, h⟩ := of_bind h
  obtain ⟨s₂, hentries, hhard⟩ := of_bind h
  have he₂ : e ∈ held s₂ := by
    unfold writeHardState at hhard
    split at hhard
    · exact HoldingStorage.setHardState_held _ _ e ((accepted_eq hhard).2 ▸ he)
    · exact some.inj hhard ▸ he
  have he₁ : e ∈ held s₁ ∨ e ∈ rd.entries := by
    unfold writeEntries at hentries
    split at hentries
    · exact Or.inl (some.inj hentries ▸ he₂)
    · exact HoldingStorage.append_held _ _ e ((accepted_eq hentries).2 ▸ he₂)
  refine he₁.imp_left fun he₁ => ?_
  unfold writeSnapshot at hsnapshot
  split at hsnapshot
  · exact HoldingStorage.applySnapshot_held _ _ e ((accepted_eq hsnapshot).2 ▸ he₁)
  · exact some.inj hsnapshot ▸ he₁

theorem Carries.processReady (h : n.Carries K) (hready : n.processReady = some (n', rd)) :
    n'.Carries K ∧ Ready.Carries K rd := by
  obtain ⟨n₁, store, hget, hpersist, rfl⟩ := processReady_eq hready
  obtain ⟨hcarries, hrest⟩ := h.getReady hget
  refine ⟨hcarries.setStore fun e he => ?_, hrest⟩
  exact (mem_of_persist hpersist he).elim (h.log.stored e) (hrest.entries e)

theorem Carries.commitReady (h : n.Carries K) (hcommit : n.commitReady rd = some n') :
    n'.Carries K := by
  obtain ⟨record, log, -, hstable, rfl⟩ := commitReady_eq hcommit
  exact ⟨h.log.stableRecord hstable, h.queue⟩

theorem Carries.onPersistReady {number : ℕ} (h : n.Carries K)
    (hpersist : n.onPersistReady number = some n') : n'.Carries K := by
  unfold RawNode.onPersistReady at hpersist
  obtain ⟨raft, hreport, hpersist⟩ := of_bind hpersist
  cases hpersist
  exact h.steps (reportPersisted_steps trivial hreport)

theorem Carries.advanceAppend {light : LightReady} (h : n.Carries K)
    (hadvance : n.advanceAppend rd = some (n', light)) :
    n'.Carries K ∧ (∀ m ∈ light.messages, m.Carries K) ∧
      ∀ e ∈ light.committedEntries, e.From K := by
  obtain ⟨n₁, n₂, n₃, light₃, hcommit, hpersist, hlight, -, rfl, hsent, hcommitted⟩ :=
    advanceAppend_eq hadvance
  have hcarries := ((h.commitReady hcommit).onPersistReady hpersist).getLightReady hlight
  rw [hsent, hcommitted]
  exact hcarries

end RawNode

/-- A new node holds what its storage holds. -/
theorem RawNode.Carries.new {σ : Type} [WritableStorage σ] [Codec] [HoldingStorage σ]
    {config : Config} {store : σ} {rng : ℕ → ℕ} {n : RawNode σ}
    (hstore : ∀ e ∈ held store, e.From K) (h : RawNode.new config store rng = some n) :
    n.Carries K := by
  obtain ⟨-, -, -, -, state, -, hboot⟩ := RawNode.new_booted h
  obtain ⟨first, last, -, -, hstore', hunstable, -⟩ := hboot.log
  refine ⟨⟨?_, ?_⟩, ?_⟩
  · simp [hunstable]
  · simpa [hstore'] using hstore
  · simp [hboot.messages]

end Raftpp
