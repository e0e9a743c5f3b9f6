import Raftpp.Raftor.ReadyProcessor
import Raftpp.Ready.Origins

/-!
# Entry checksums survive

A fleet is a number of hosts, each with a storage, and the messages they have sent.  A host
may run a node, with any application that drives it; it may stop at any point and start
again on its storage, with any configuration.  Messages are lost, delayed, repeated and
reordered at will.  The group may change: a configuration change is an entry like any other,
and what an application applies is its own affair.

A proposal and a configuration change get a checksum when they are proposed, and so does the
entry by which a leader leaves a joint configuration.  `checksums_survive` follows such an
entry on all its ways through the fleet, and finds it unchanged wherever it arrives.
-/

namespace Raftpp

open List Option

variable {actions : List Action}

open HoldingStorage (held)

/-! ## The checksum of a copy -/

section Verify

variable [Codec] {e e₀ : Entry}

theorem Entry.Copies.verify_eq (h : e.Copies e₀) :
    verifyEntryChecksum e = verifyEntryChecksum e₀ := by
  have hexempt : isChecksumExemptEntry e = isChecksumExemptEntry e₀ := by
    simp only [isChecksumExemptEntry, h.entryType, h.data, h.context]
  have hchecksum : Codec.entryChecksum e = Codec.entryChecksum e₀ := by
    simp only [Codec.entryChecksum, h.entryType, h.data, h.context]
  simp only [verifyEntryChecksum, hexempt, h.context, hchecksum, h.checksum]

theorem verifyEntryChecksum_of_eq (h : Codec.entryChecksum e = e.checksum) :
    verifyEntryChecksum e = .ok () := by
  unfold verifyEntryChecksum
  rw [if_pos h]
  split
  · rfl
  split <;> rfl

/-- The checksum does not depend on the field it is written to. -/
theorem verifyEntryChecksum_setEntryChecksum (e : Entry) :
    verifyEntryChecksum (RawNode.setEntryChecksum e) = .ok () :=
  verifyEntryChecksum_of_eq rfl

theorem Entry.OfLeader.verify (h : e.OfLeader) : verifyEntryChecksum e = .ok () := by
  rcases h with rfl | rfl
  · rfl
  · exact verifyEntryChecksum_of_eq rfl

end Verify

/-! ## Fleets -/

/-- A host that is stopped, or runs a node. -/
inductive Host (σ : Type)
  | down (store : σ)
  | up (d : Driven σ)

namespace Host

variable {σ : Type}

def store : Host σ → σ
  | down store => store
  | up d => d.node.raft.raftLog.store

/-- The entries in the memory of the node's log. -/
def memory : Host σ → List Entry
  | down _ => []
  | up d => d.node.raft.raftLog.unstable.entries

end Host

/-- Hosts, the messages they have sent, and the entries that were handed to the application of a
host, to be persisted or to be applied. -/
structure Fleet (σ : Type) where
  hosts : ℕ → Host σ
  net : List Message := []
  handed : List (ℕ × Entry) := []

namespace Driven

variable {σ : Type} [WritableStorage σ] [Codec]

/-- The messages that a call hands out. -/
def sends (d : Driven σ) : Drive → List Message
  | .ready => ((d.node.processReady).map fun next => next.2.light.messages).getD []
  | .advance | .advanceAppend =>
      (d.pending.bind fun rd =>
        (d.node.advanceAppend rd).map fun next => next.2.messages).getD []
  | _ => []

/-- The entries that a call hands out to be persisted. -/
def persists (d : Driven σ) : Drive → List Entry
  | .ready => ((d.node.processReady).map fun next => next.2.entries).getD []
  | _ => []

end Driven

/-- The entries that a call of an application creates. -/
def Drive.Creates [Codec] : Drive → Entry → Prop
  | .input (.propose ctx data), e => e = RawNode.setEntryChecksum { data, context := ctx }
  | .proposeConfChange ctx cc, e => e = RawNode.confChangeEntry ctx cc
  | _, _ => False

namespace Fleet

variable {σ : Type} [WritableStorage σ] [Codec]

/-- What happens to the host `id`. -/
inductive Action
  | call (id : ℕ) (op : Drive)
  | compact (id : ℕ) (snapshot : Snapshot)
  | crash (id : ℕ)
  | start (id : ℕ) (config : Config) (rng : ℕ → ℕ)

def set (f : Fleet σ) (id : ℕ) (host : Host σ) : Fleet σ :=
  { f with hosts := Function.update f.hosts id host }

/-- Only a message that was sent to a node is delivered to it. -/
def deliverable (f : Fleet σ) (id : ℕ) : Drive → Bool
  | .input (.step m) => decide (m ∈ f.net ∧ m.receiver = id)
  | _ => true

/-- One action; `none` when it is not possible or aborts the process. -/
def exec (f : Fleet σ) : Action → Option (Fleet σ)
  | .call id op =>
      match f.hosts id with
      | .up d =>
          if f.deliverable id op then do
            let (d', pages) ← d.step op
            let entries := d.persists op ++ pages.flatMap Page.entries
            some
              { f.set id (.up d') with
                net := f.net ++ d.sends op
                handed := f.handed ++ entries.map fun e => (id, e) }
          else none
      | .down _ => none
  | .compact id snapshot =>
      match f.hosts id with
      | .up d =>
          let store := (WritableStorage.applyLocalSnapshot d.node.raft.raftLog.store snapshot).1
          some (f.set id (.up { d with node := d.node.setStore store }))
      | .down _ => none
  | .crash id => some (f.set id (.down (f.hosts id).store))
  | .start id config rng =>
      match f.hosts id with
      | .down store =>
          if config.id = id then do
            let node ← RawNode.new config store rng
            some (f.set id (.up { node }))
          else none
      | .up _ => none

/-- A run. -/
def run (f : Fleet σ) (actions : List Action) : Option (Fleet σ) := actions.foldlM exec f

/-- The entries that the calls of a run create. -/
def Creates (actions : List Action) (e : Entry) : Prop :=
  ∃ id op, .call id op ∈ actions ∧ op.Creates e

/-- No host has started. -/
def Stopped (f : Fleet σ) : Prop :=
  f.net = [] ∧ f.handed = [] ∧ ∀ id, ∃ store, f.hosts id = .down store

/-- The places where an entry can be: with an application that is to persist or apply it, in a
storage, in the memory of a log, and in a message. -/
inductive Holds [HoldingStorage σ] (f : Fleet σ) (e : Entry) : Prop
  | handed (id : ℕ) (h : (id, e) ∈ f.handed)
  | stored (id : ℕ) (h : e ∈ held (f.hosts id).store)
  | memory (id : ℕ) (h : e ∈ (f.hosts id).memory)
  | sent (m : Message) (hm : m ∈ f.net) (hkind : m.msgType = .msgAppend ∨ m.msgType = .msgPropose)
      (h : e ∈ m.entries)

end Fleet

/-! ## Every entry is a copy -/

section Carries

variable {σ : Type} [WritableStorage σ] [Codec] [HoldingStorage σ] {K : Entry → Prop}

variable {host : Host σ}

/-- A call keeps to entries from `K`, and so does what it hands out. -/
theorem Driven.step_carries {d d' : Driven σ} {op : Drive} {pages : List (Page σ)}
    (h : d.node.Carries K)
    (hm : ∀ m, op = .input (.step m) → m.Carries K) (hcreates : ∀ e, op.Creates e → K e)
    (hstep : d.step op = some (d', pages)) :
    d'.node.Carries K ∧ (∀ m ∈ d.sends op, m.Carries K) ∧
      ∀ e ∈ d.persists op ++ pages.flatMap Page.entries, e.From K := by
  have hnone : (∀ m ∈ ([] : List Message), m.Carries K) ∧
      ∀ e ∈ ([] : List Entry) ++ ([] : List (Page σ)).flatMap Page.entries, e.From K := by simp
  cases step_makes hstep with
  | input call node hidle hcall =>
      exact ⟨h.input (fun m hinput => hm m (congrArg _ hinput))
        (fun ctx data hinput => hcreates _ (by rw [hinput]; rfl)) hcall, hnone⟩
  | proposeConfChange ctx cc node hidle hcall =>
      exact ⟨h.proposeConfChange (hcreates _ rfl) hcall, hnone⟩
  | applyConfChange cc node hcall => exact ⟨h.applyConfChange hcall, hnone⟩
  | ready node rd hidle hready =>
      obtain ⟨hcarries, hmessages, hentries, hcommitted⟩ := h.processReady hready
      refine ⟨hcarries, ?_, ?_⟩
      · simpa [sends, hready] using hmessages
      · simp only [persists, hready, map_some, getD_some, flatMap_cons, flatMap_nil, append_nil]
        exact forall_mem_append.mpr ⟨hentries, hcommitted⟩
  | advance rd node₁ node light hpending hcall happly =>
      obtain ⟨hcarries, hmessages, hcommitted⟩ := h.advanceAppend hcall
      refine ⟨hcarries.advanceApplyTo happly, ?_, ?_⟩
      · simpa [sends, hpending, hcall] using hmessages
      · simpa [persists] using hcommitted
  | advanceAppend rd node light hpending happend =>
      obtain ⟨hcarries, hmessages, hcommitted⟩ := h.advanceAppend happend
      refine ⟨hcarries, ?_, ?_⟩
      · simpa [sends, hpending, happend] using hmessages
      · simpa [persists] using hcommitted
  | advanceAppendAsync rd node hpending hcommit => exact ⟨h.commitReady hcommit, hnone⟩
  | onPersistReady number node hpersist => exact ⟨h.onPersistReady hpersist, hnone⟩
  | advanceApplyTo applied node hcall => exact ⟨h.advanceApplyTo hcall, hnone⟩

/-- All entries of a host are from `K`. -/
def Host.Carries (K : Entry → Prop) : Host σ → Prop
  | .down store => ∀ e ∈ held store, e.From K
  | .up d => d.node.Carries K

theorem Host.Carries.stored (h : host.Carries K) : ∀ e ∈ held host.store, e.From K := by
  cases host with
  | down store => exact h
  | up d => exact h.log.stored

theorem Host.Carries.in_memory (h : host.Carries K) : ∀ e ∈ host.memory, e.From K := by
  cases host with
  | down store => exact fun e he => absurd he not_mem_nil
  | up d => exact h.log.memory

namespace Fleet

variable {f f' : Fleet σ}

/-- All entries of a fleet are from `K`. -/
structure Carries (K : Entry → Prop) (f : Fleet σ) : Prop where
  host : ∀ id, (f.hosts id).Carries K
  net : ∀ m ∈ f.net, m.Carries K
  handed : ∀ x ∈ f.handed, x.2.From K

theorem Carries.set (h : f.Carries K) {id : ℕ} (hhost : host.Carries K) :
    (f.set id host).Carries K := by
  refine ⟨fun x => ?_, h.net, h.handed⟩
  by_cases hx : x = id
  · subst hx
    simpa [Fleet.set] using hhost
  · simpa [Fleet.set, hx] using h.host x

theorem Carries.exec {a : Action} (h : f.Carries K)
    (hcreates : ∀ id op e, a = .call id op → op.Creates e → K e) (hexec : f.exec a = some f') :
    f'.Carries K := by
  cases a with
  | call id op =>
      simp only [Fleet.exec] at hexec
      split at hexec
      next d hd =>
        split at hexec
        next hdeliver =>
          obtain ⟨⟨d', pages⟩, hstep, hexec⟩ := of_bind hexec
          cases hexec
          have hhost := h.host id
          rw [hd] at hhost
          have hm : ∀ m, op = .input (.step m) → m.Carries K := by
            rintro m rfl
            exact h.net m (of_decide_eq_true hdeliver).1
          obtain ⟨hcarries, hsends, hentries⟩ :=
            Driven.step_carries hhost hm (fun e => hcreates id op e rfl) hstep
          have hset : (f.set id (.up d')).Carries K := h.set hcarries
          refine ⟨hset.host, fun m hm => ?_, fun x hx => ?_⟩
          · exact (mem_append.mp hm).elim (h.net m) (hsends m)
          · rcases mem_append.mp hx with hbefore | hnew
            · exact h.handed x hbefore
            · obtain ⟨e, he, rfl⟩ := mem_map.mp hnew
              exact hentries e he
        · cases hexec
      · cases hexec
  | compact id snapshot =>
      simp only [Fleet.exec] at hexec
      split at hexec
      next d hd =>
        cases hexec
        have hhost := h.host id
        rw [hd] at hhost
        refine h.set (RawNode.Carries.setStore hhost fun e he => ?_)
        exact hhost.log.stored e (HoldingStorage.applyLocalSnapshot_held _ _ e he)
      · cases hexec
  | crash id =>
      cases hexec
      exact h.set (show (Host.down (f.hosts id).store).Carries K from (h.host id).stored)
  | start id config rng =>
      simp only [Fleet.exec] at hexec
      split at hexec
      next store hstore =>
        split at hexec
        next hid =>
          obtain ⟨node, hnew, hexec⟩ := of_bind hexec
          cases hexec
          have hhost := h.host id
          rw [hstore] at hhost
          exact h.set (RawNode.Carries.new hhost hnew)
        · cases hexec
      · cases hexec

theorem Carries.run (h : f.Carries K) (hcreates : ∀ e, Creates actions e → K e)
    (hrun : f.run actions = some f') : f'.Carries K := by
  induction actions generalizing f with
  | nil =>
      cases hrun
      exact h
  | cons a actions ih =>
      rw [Fleet.run, foldlM_cons] at hrun
      obtain ⟨f₁, hexec, hrest⟩ := of_bind hrun
      refine ih (h.exec (fun id op e ha he => ?_) hexec) (fun e he => ?_) hrest
      · exact hcreates e ⟨id, op, ha ▸ mem_cons_self, he⟩
      · obtain ⟨id, op, hop, he⟩ := he
        exact hcreates e ⟨id, op, mem_cons_of_mem _ hop, he⟩

theorem Carries.holds (h : f.Carries K) {e : Entry} (he : f.Holds e) : e.From K := by
  cases he with
  | handed id he => exact h.handed _ he
  | stored id he => exact (h.host id).stored e he
  | memory id he => exact (h.host id).in_memory e he
  | sent m hm hkind he => exact h.net m hm hkind e he

/-- Wherever an entry is in a fleet, its type, data, context and checksum are those of an entry
that a call or a leader has created, and it passes `VerifyEntryChecksum`; or they are those of an
entry that was in a storage from the beginning. -/
theorem checksums_survive {actions : List Action} (hstopped : f.Stopped)
    (hrun : f.run actions = some f') {e : Entry} (he : f'.Holds e) :
    (∃ e₀, (Creates actions e₀ ∨ e₀.OfLeader) ∧ e.Copies e₀ ∧ verifyEntryChecksum e = .ok ()) ∨
      ∃ id, ∃ e₀ ∈ held (f.hosts id).store, e.Copies e₀ := by
  obtain ⟨hnet, hhanded, hdown⟩ := hstopped
  have hstart : f.Carries fun e => Creates actions e ∨ ∃ id, e ∈ held (f.hosts id).store := by
    refine ⟨fun id => ?_, by simp [hnet], by simp [hhanded]⟩
    obtain ⟨store, hstore⟩ := hdown id
    rw [hstore]
    exact fun e he => .of_known (Or.inr ⟨id, hstore ▸ he⟩)
  obtain ⟨e₀, hknown, hcopies⟩ := (hstart.run (fun _ => Or.inl) hrun).holds he
  rcases hknown with (hcreated | ⟨id, hstored⟩) | hleader
  · refine Or.inl ⟨e₀, Or.inl hcreated, hcopies, hcopies.verify_eq.trans ?_⟩
    obtain ⟨id, op, -, hop⟩ := hcreated
    unfold Drive.Creates at hop
    split at hop
    · exact hop ▸ verifyEntryChecksum_setEntryChecksum _
    · exact hop ▸ verifyEntryChecksum_setEntryChecksum _
    · exact hop.elim
  · exact Or.inr ⟨id, e₀, hstored, hcopies⟩
  · exact Or.inl ⟨e₀, Or.inr hleader, hcopies, hcopies.verify_eq.trans hleader.verify⟩

end Fleet

end Carries

/-! ## A proposal that is forwarded -/

namespace Fleet

section Follow

variable {σ : Type} [WritableStorage σ] [Codec]

/-- Follow orders, each of which picks an action by what the fleet looks like. -/
def follow : Fleet σ → List (Fleet σ → Action) → Option (List Action × Fleet σ)
  | f, [] => some ([], f)
  | f, order :: orders => do
      let f₁ ← f.exec (order f)
      let (actions, f₂) ← f₁.follow orders
      some (order f :: actions, f₂)

theorem run_of_follow {f f' : Fleet σ} {orders : List (Fleet σ → Action)}
    (h : f.follow orders = some (actions, f')) : f.run actions = some f' := by
  induction orders generalizing f actions with
  | nil =>
      cases h
      rfl
  | cons order orders ih =>
      unfold follow at h
      obtain ⟨f₁, hexec, h⟩ := of_bind h
      obtain ⟨⟨actions₁, f₂⟩, hrest, h⟩ := of_bind h
      cases h
      rw [run, foldlM_cons, hexec]
      exact ih hrest

/-- Deliver the message at the given place of the network. -/
def deliver (k : ℕ) (f : Fleet σ) : Action :=
  match f.net[k]? with
  | some m => .call m.receiver (.input (.step m))
  | none => .crash 0

/-- Take a `Ready` and advance. -/
def cycle (id : ℕ) : List (Fleet σ → Action) :=
  [fun _ => .call id .ready, fun _ => .call id .advance]

end Follow

/-- A codec whose checksum is the number of bytes. -/
@[reducible]
def lengthCodec : Codec := { Codec.plain with crc32c := List.length }

/-- Two hosts that are the voters of a group. -/
def duo : Fleet MemoryStorage where
  hosts _ := .down { confState := { voters := [1, 2] } }

/-- The first host is elected; the second forwards a proposal to it, takes the entry back with
an append message, persists it and applies it. -/
def forwarded : List (Fleet MemoryStorage → Action) :=
  [fun _ => .start 1 { id := 1 } fun _ => 0, fun _ => .start 2 { id := 2 } fun _ => 0,
    fun _ => .call 1 (.input .campaign)] ++ cycle 1 ++ [deliver 0] ++ cycle 2 ++
  [deliver 1] ++ cycle 1 ++ [deliver 2] ++ cycle 2 ++ [deliver 3] ++ cycle 1 ++
  [fun _ => .call 2 (.input (.propose [7] [8, 9]))] ++ cycle 2 ++
  [deliver 5] ++ cycle 1 ++ [deliver 6] ++ cycle 2 ++ [deliver 7] ++ cycle 1 ++
  [deliver 8] ++ cycle 2

theorem checksums_survive_forwarded :
    letI := lengthCodec
    ∃ actions f', duo.run actions = some f' ∧
      ∃ e, (2, e) ∈ f'.handed ∧ e.index = 2 ∧ e.data = [8, 9] ∧ e.checksum = 7 ∧
        ((∃ e₀, (Creates actions e₀ ∨ e₀.OfLeader) ∧ e.Copies e₀ ∧
          verifyEntryChecksum e = .ok ()) ∨
          ∃ id, ∃ e₀ ∈ held (duo.hosts id).store, e.Copies e₀) := by
  let _ := lengthCodec
  have heval : (duo.follow forwarded).any (fun result =>
      decide ((2, ({ term := 1, index := 2, data := [8, 9], context := [7], checksum := 7 } :
        Entry)) ∈ result.2.handed)) = true := by decide +kernel
  simp only [Option.any_eq_true, decide_eq_true_eq] at heval
  obtain ⟨⟨actions, f'⟩, hfollow, hhanded⟩ := heval
  have hrun := run_of_follow hfollow
  refine ⟨actions, f', hrun, _, hhanded, rfl, rfl, rfl, ?_⟩
  exact checksums_survive ⟨rfl, rfl, fun _ => ⟨_, rfl⟩⟩ hrun (.handed 2 hhanded)

end Fleet

end Raftpp
