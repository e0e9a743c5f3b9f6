import Raftpp.Ready.Moves

/-!
# Committed entries are handed out exactly once

The pages of committed entries that a driven node hands out, one after the other,
continue each other: the first starts after what the configuration says is applied
and what the storage has compacted, each goes on where the last one ended, and a
`Ready` with a snapshot makes delivery go on after it.  Every page holds entries of
the log that are committed and persisted, and it is empty only when there are none
left.
-/

namespace Raftpp

namespace Page

variable {σ : Type}

/-- The index a page starts at when `next` is expected: a snapshot moves it. -/
def start (page : Page σ) (next : ℕ) : ℕ := page.snapshot.elim next fun index => index + 1

/-- The index expected after a page. -/
def after (next : ℕ) (page : Page σ) : ℕ := page.start next + page.entries.length

/-- The entries of a page are those of the log from `start` on, committed and persisted; there
are none only if none are left. -/
structure Exact [Storage σ] [Codec] (page : Page σ) (start : ℕ) : Prop where
  numbered : NumberedFrom start page.entries
  committed : ∀ e ∈ page.entries, e.index ≤ page.log.committed
  persisted : ∀ e ∈ page.entries, e.index ≤ page.log.persisted
  held : ∀ e ∈ page.entries,
    page.log.slice e.index (e.index + 1) none (.empty false) = some (.ok [e])
  stops : page.entries = [] → min page.log.committed page.log.persisted < start

end Page

/-- The pages continue each other, the first from `next` on. -/
def Stream {σ : Type} [Storage σ] [Codec] : ℕ → List (Page σ) → Prop
  | _, [] => True
  | next, page :: pages => page.Exact (page.start next) ∧ Stream (page.after next) pages

theorem stream_append {σ : Type} [Storage σ] [Codec] {next : ℕ} {pages rest : List (Page σ)} :
    Stream next (pages ++ rest) ↔
      Stream next pages ∧ Stream (pages.foldl Page.after next) rest := by
  induction pages generalizing next with
  | nil => simp [Stream]
  | cons page pages ih => simp only [List.cons_append, Stream, ih, List.foldl_cons, and_assoc]

namespace Driven

variable {σ : Type} [WritableStorage σ] [Codec] [LawfulStorage σ]

/-- The next entry to hand out has the index `next`.  While a snapshot waits for a `Ready`, it
is the snapshot that decides. -/
def Next (d : Driven σ) (a : AbstractLog) (next : ℕ) : Prop :=
  d.pending ≠ none ∨ d.node.raft.raftLog.unstable.snapshot = none →
    max d.node.commitSinceIndex a.index + 1 = next

variable {P : Driven σ → Drive → Prop} {d d' : Driven σ} {a a' : AbstractLog} {next : ℕ}

omit [WritableStorage σ] [Codec] [LawfulStorage σ] in
theorem commitSinceAfter_eq {n : RawNode σ} {start since : ℕ}
    {es : List Entry} (hes : NumberedFrom (max n.commitSinceIndex start + 1) es)
    (h : n.commitSinceAfter es = some since) :
    max since start + 1 = max n.commitSinceIndex start + 1 + es.length := by
  unfold RawNode.commitSinceAfter at h
  split at h
  next hnone =>
    cases h
    rw [List.getLast?_eq_none_iff.mp hnone, List.length_nil, Nat.add_zero]
  next last hlast =>
    split at h
    · cases h
      rw [List.getLast?_eq_getElem?] at hlast
      have hindex := hes _ last hlast
      have hlength := (List.getElem?_eq_some_iff.mp hlast).1
      omega
    · cases h

/-- What is handed out is a page of the stream. -/
theorem exact_of_delivers [ReliableStorage σ] {l : RaftLog σ} {snapshot : Option ℕ} {start : ℕ}
    {entries : List Entry} (hl : l.Sound a) (h : l.Delivers a start entries) :
    Page.Exact ⟨l, snapshot, entries⟩ start where
  numbered := h.numbered
  committed _ he := (h.read hl he).1
  persisted _ he := (h.read hl he).2.1
  held _ he := (h.read hl he).2.2
  stops := h.stops

/-- One move: what it hands out continues the stream. -/
theorem Move.stream [ReliableStorage σ] {pages : List (Page σ)} (hd : d.Sound a)
    (hnext : d.Next a next) (hmove : Move P d a d' a' pages) :
    Stream next pages ∧ d'.Next a' (pages.foldl Page.after next) := by
  cases hmove with
  | run env tracker promotable raft a' hsent henv htracker hsteps hlog hlater hindex =>
      refine ⟨trivial, fun hwhen => ?_⟩
      rcases hwhen with hpending | hsnapshot
      · rw [hindex hpending]
        exact hnext (Or.inl hpending)
      · obtain ⟨hplain, heq⟩ := hlater.plain hsnapshot
        rw [heq]
        exact hnext (Or.inr hplain)
  | ready node store rd hop hidle htakes hoffers hstored =>
      obtain ⟨since, es, hsince, hes, hentries, hafter⟩ := hoffers.entries
      have hdelivers := hd.log.nextEntriesSince hes
      rw [← hentries] at hdelivers
      -- the page starts after the snapshot, or where the stream goes on
      have hstart : max since a.index + 1 =
          (⟨d.node.raft.raftLog, rd.snapshot.map fun s => s.metadata.index,
            rd.light.committedEntries⟩ : Page σ).start next := by
        rcases hsince with ⟨hnone, rfl⟩ | ⟨snapshot, hsome, hle, rfl⟩
        · simp only [Page.start, htakes.snapshot, hnone, Option.map_none, Option.elim_none]
          exact hnext (Or.inr hnone)
        · obtain ⟨hindex, -⟩ := hd.log.represents.pending snapshot hsome
          simp only [Page.start, htakes.snapshot, hsome, Option.map_some, Option.elim_some]
          omega
      refine ⟨⟨?_, trivial⟩, fun _ => ?_⟩
      · rw [← hstart]
        exact exact_of_delivers hd.log hdelivers
      · simp only [List.foldl_cons, List.foldl_nil, Page.after]
        rw [← hstart]
        exact commitSinceAfter_eq hdelivers.numbered hafter
  | settle rd log hpending hsame hsnapshot hoffset =>
      exact ⟨trivial, fun _ => hnext (Or.inl (by rw [hpending]; simp))⟩
  | report number index term snapIndex records log hnumber hrecords hlog =>
      refine ⟨trivial, fun hwhen => hnext (hwhen.imp_right fun hsnapshot => ?_)⟩
      have hsame := RawNode.reported_eq hlog index term
      rw [hsame] at hsnapshot
      exact hsnapshot
  | hand node messages entries hsnapshot hflushes hhands =>
      obtain ⟨es, hes, hentries⟩ := hhands.next
      have hdelivers := hd.log.nextEntriesSince hes
      rw [← hentries] at hdelivers
      obtain rfl := hnext (Or.inr hsnapshot)
      refine ⟨⟨exact_of_delivers hd.log hdelivers, trivial⟩, fun _ => ?_⟩
      exact commitSinceAfter_eq hdelivers.numbered hhands.since
  | note prevHs hhard => exact ⟨trivial, hnext⟩

/-- A chain of moves. -/
theorem Moves.stream [ReliableStorage σ] {pages : List (Page σ)} (hnext : d.Next a next)
    (hmoves : Moves P d a d' a' pages) : Stream next pages := by
  induction hmoves generalizing next with
  | refl d a => trivial
  | head hd hmove _ ih =>
      obtain ⟨hpages, hnext'⟩ := hmove.stream hd hnext
      exact stream_append.mpr ⟨hpages, ih hnext'⟩

/-- However an application drives a node, the committed entries it gets are those of the log,
each once and in order: from the first that is neither applied nor compacted, and after a
snapshot from the snapshot on. -/
theorem committed_exactly_once [ReliableStorage σ] {config : Config} {store : σ} {rng : ℕ → ℕ}
    {n : RawNode σ} {first : ℕ} {ops : List Drive} {pages : List (Page σ)}
    (hstore : (LawfulStorage.view store).Contiguous)
    (hnew : RawNode.new config store rng = some n)
    (hfirst : Storage.firstIndex store = .ok first)
    (hrun : Run Legal { node := n } ops d' pages) :
    Stream (max config.applied (first - 1) + 1) pages := by
  obtain ⟨hsound, hsnapshot, -, hsince, -, -⟩ := Sound.new hstore hnew
  obtain ⟨a', -, hmoves⟩ := hsound.run (fun _ _ => id) hrun
  rw [LawfulStorage.firstIndex_eq store hstore, Except.ok.injEq] at hfirst
  refine hmoves.stream fun _ => ?_
  rw [hsince, ← hfirst]
  rfl

end Driven

namespace Driven

/-- The node elects itself and proposes twice; the second proposal is persisted late. -/
def soloProposals : List Drive :=
  [.input .campaign, .ready, .advance, .input (.propose [] [7]), .ready, .advanceAppend,
    .advanceApplyTo 1, .input (.propose [] [8]), .ready, .advanceAppendAsync, .ready,
    .advanceAppendAsync, .onPersistReady 3, .ready]

theorem committed_exactly_once_solo :
    letI := Codec.plain
    ∃ n d pages, RawNode.new { id := 1 } soloStore (fun _ => 0) = some n ∧
      Run Legal { node := n } soloProposals d pages ∧
      pages.map (fun page => page.entries.map Entry.index) = [[], [1], [], [2], [], [], [3]] ∧
      Stream 1 pages := by
  obtain ⟨n, hnew, d, pages, hrun, hpages⟩ : letI := Codec.plain
      ∃ n, RawNode.new { id := 1 } soloStore (fun _ => 0) = some n ∧
        ∃ d pages, Run Legal { node := n } soloProposals d pages ∧
          pages.map (fun page => page.entries.map Entry.index) =
            [[], [1], [], [2], [], [], [3]] := by
    decide +kernel
  let _ := Codec.plain
  exact ⟨n, d, pages, hnew, hrun, hpages,
    committed_exactly_once soloStore_contiguous hnew (show _ = Except.ok 1 by decide) hrun⟩

end Driven

end Raftpp
