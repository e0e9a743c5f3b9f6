import Raftpp.Raftor.ReadyProcessor

/-!
# Writes of the processor to its storage

Applying an entry that changes no configuration, and updating the address book, change nothing
of the node but its storage.  A relation between storages that the calls about peers keep holds
between the storage before and the storage after.
-/

namespace Raftpp

/-- A relation between storages that the calls about peers keep. -/
structure PeerCallsKeep {σ : Type} [PeerStorage σ] (R : σ → σ → Prop) : Prop where
  refl : ∀ s, R s s
  trans : ∀ {s s' s'' : σ}, R s s' → R s' s'' → R s s''
  upsertPeerAddress : ∀ s id addr, R s (PeerStorage.upsertPeerAddress s id addr).1
  removePeerAddress : ∀ s id, R s (PeerStorage.removePeerAddress s id).1

namespace ReadyProcessor

variable {σ μ : Type} {R : σ → σ → Prop} {p p' p'' : ReadyProcessor σ μ}

/-- Only the storage of the node changes, and as `R` allows. -/
structure Writes (R : σ → σ → Prop) (p p' : ReadyProcessor σ μ) : Prop where
  node : ∃ store, p'.node = p.node.setStore store ∧ R p.store store

theorem Writes.write {call : σ → σ × Result Unit} (h : R p.store (call p.store).1) :
    Writes R p (p.write call).1 :=
  ⟨(call p.store).1, rfl, h⟩

theorem Writes.store (h : Writes R p p') : R p.store p'.store := by
  obtain ⟨store, hnode, hstore⟩ := h.node
  have hend : p'.store = store := by
    rw [ReadyProcessor.store, hnode]
    rfl
  rwa [hend]

theorem Writes.tracker (h : Writes R p p') : p'.node.raft.tracker = p.node.raft.tracker := by
  obtain ⟨store, hnode, -⟩ := h.node
  rw [hnode]
  rfl

section Keep

variable [PeerStorage σ] (hR : PeerCallsKeep R)
include hR

theorem Writes.of_node (h : p'.node = p.node) : Writes R p p' := ⟨p.store, h, hR.refl _⟩

theorem Writes.trans (h : Writes R p p') (h' : Writes R p' p'') : Writes R p p'' := by
  obtain ⟨store, hnode, hstore⟩ := h.node
  obtain ⟨store', hnode', hstore'⟩ := h'.node
  have hmiddle : p'.store = store := by
    rw [ReadyProcessor.store, hnode]
    rfl
  rw [hmiddle] at hstore'
  exact ⟨store', by rw [hnode', hnode]; rfl, hR.trans hstore hstore'⟩

theorem Writes.andThen {x : ReadyProcessor σ μ × Result Unit}
    {next : ReadyProcessor σ μ → ReadyProcessor σ μ × Result Unit} (h : Writes R p x.1)
    (hnext : ∀ q, Writes R q (next q).1) : Writes R p (andThen x next).1 := by
  unfold ReadyProcessor.andThen
  split
  · exact h.trans hR (hnext x.1)
  · exact h

theorem updatePeers_writes (addr : Bytes) (changes : List ConfChangeSingle)
    (p : ReadyProcessor σ μ) : Writes R p (p.updatePeers addr changes).1 := by
  induction changes generalizing p with
  | nil => exact .of_node hR rfl
  | cons change changes ih =>
      have hadd : ∀ id, Writes R p (p.write fun s => PeerStorage.upsertPeerAddress s id addr).1 :=
        fun id => .write (hR.upsertPeerAddress p.store id addr)
      have hremove : ∀ id, Writes R p (p.write fun s => PeerStorage.removePeerAddress s id).1 :=
        fun id => .write (hR.removePeerAddress p.store id)
      unfold updatePeers
      split
      · split
        · exact ih p
        · exact (hadd _).andThen hR fun q => (Writes.of_node hR (by split <;> rfl)).trans hR (ih _)
      · split
        · exact ih p
        · exact (hadd _).andThen hR fun q => (Writes.of_node hR (by split <;> rfl)).trans hR (ih _)
      · exact (hremove _).andThen hR fun q => Writes.trans hR (Writes.of_node hR (by rfl)) (ih _)

theorem applyMetadataChange_writes [RaftorCodec] (data : Bytes) (p : ReadyProcessor σ μ) :
    Writes R p (p.applyMetadataChange data).1 := by
  unfold applyMetadataChange
  split
  · exact .of_node hR rfl
  next change _ =>
    have hupsert : Writes R p
        (p.write fun s => PeerStorage.upsertPeerAddress s change.nodeId change.addr).1 :=
      .write (hR.upsertPeerAddress p.store change.nodeId change.addr)
    exact hupsert.andThen hR fun q => .of_node hR rfl

theorem applyNormal_writes [RaftorCodec] [StateMachine μ] (entry : Entry)
    (p : ReadyProcessor σ μ) : Writes R p (p.applyNormal entry).1 := by
  unfold applyNormal
  split
  · exact applyMetadataChange_writes hR _ p
  split
  · exact .of_node hR rfl
  · exact .of_node hR rfl

end Keep

end ReadyProcessor

end Raftpp
