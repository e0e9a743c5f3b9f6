import Mathlib.Data.Set.Basic
import Mathlib.Logic.Function.Basic

/-!
# Elections by quorums of votes

Nodes with a term, a vote and a role; a candidate wins a term with a quorum of
votes.  The state keeps the history of all votes and of all winners.  The
invariant `Ballots.Inv` says that the vote a node remembers is the one it gave,
and yields that a term has at most one winner.
-/

namespace Raftpp

/-- Sets of nodes any two of which intersect. -/
structure QuorumSystem (ι : Type*) where
  IsQuorum : Set ι → Prop
  inter : ∀ {A B : Set ι}, IsQuorum A → IsQuorum B → ∃ v, v ∈ A ∧ v ∈ B

/-- The role of a node in an election. -/
inductive ElectionRole
  | follower
  | candidate
  | leader
  deriving DecidableEq

/-- Terms, votes and roles of all nodes.  `voted v T x` and `winner T` are history: `v` has
voted for `x` in the term `T`, and the node that won `T`. -/
structure Ballots (ι : Type*) where
  term : ι → ℕ
  vote : ι → Option ι
  role : ι → ElectionRole
  voted : ι → ℕ → ι → Prop
  winner : ℕ → Option ι

namespace Ballots

variable {ι : Type*} [DecidableEq ι]

/-- A node sees a later term. -/
def observe (b : Ballots ι) (v : ι) (t : ℕ) : Ballots ι :=
  { b with
    term := Function.update b.term v t
    vote := Function.update b.vote v none
    role := Function.update b.role v .follower }

/-- A node gives up its role, or restarts. -/
def yield (b : Ballots ι) (v : ι) : Ballots ι :=
  { b with role := Function.update b.role v .follower }

/-- A node becomes a follower, in its own term or in a later one. -/
def follow (b : Ballots ι) (v : ι) (t : ℕ) : Ballots ι :=
  if t = b.term v then b.yield v else b.observe v t

/-- A node campaigns in the next term and votes for itself. -/
def campaign (b : Ballots ι) (v : ι) : Ballots ι :=
  { b with
    term := Function.update b.term v (b.term v + 1)
    vote := Function.update b.vote v (some v)
    role := Function.update b.role v .candidate
    voted := fun u T x => b.voted u T x ∨ (u = v ∧ T = b.term v + 1 ∧ x = v) }

/-- The node `v` votes for `x`. -/
def grant (b : Ballots ι) (v x : ι) : Ballots ι :=
  { b with
    vote := Function.update b.vote v (some x)
    voted := fun u T y => b.voted u T y ∨ (u = v ∧ T = b.term v ∧ y = x) }

/-- A candidate becomes leader. -/
def win (b : Ballots ι) (v : ι) : Ballots ι :=
  { b with
    role := Function.update b.role v .leader
    winner := Function.update b.winner (b.term v) (some v) }

/-- What holds in every reachable state of an election. -/
structure Inv (Q : QuorumSystem ι) (b : Ballots ι) : Prop where
  voted_term : ∀ {v T x}, b.voted v T x → T ≤ b.term v
  voted_current : ∀ {v x}, b.voted v (b.term v) x → b.vote v = some x
  vote_voted : ∀ {v x}, b.vote v = some x → b.voted v (b.term v) x
  voted_unique : ∀ {v T x y}, b.voted v T x → b.voted v T y → x = y
  voted_self : ∀ {v}, b.role v ≠ .follower → b.voted v (b.term v) v
  winner_quorum : ∀ {T x}, b.winner T = some x → ∃ A, Q.IsQuorum A ∧ ∀ u ∈ A, b.voted u T x
  winner_term : ∀ {T x}, b.winner T = some x → T ≤ b.term x
  winner_leader : ∀ {v}, b.role v = .leader → b.winner (b.term v) = some v
  winner_candidate : ∀ {v}, b.role v = .candidate → b.winner (b.term v) ≠ some v

variable {Q : QuorumSystem ι} {b b' : Ballots ι} {v x : ι} {A : Set ι}

namespace Inv

theorem observe (hinv : b.Inv Q) {t : ℕ} (hterm : b.term v < t) : (b.observe v t).Inv Q := by
  obtain ⟨hvotedTerm, hcurrent, hvote', hunique, hself, hquorum, hwinnerTerm, hleader,
    hcandidate⟩ := hinv
  refine ⟨?_, ?_, ?_, hunique, ?_, hquorum, ?_, ?_, ?_⟩ <;>
    simp only [Ballots.observe, Function.update_apply] <;> grind

theorem yield (hinv : b.Inv Q) (v : ι) : (b.yield v).Inv Q := by
  obtain ⟨hvotedTerm, hcurrent, hvote', hunique, hself, hquorum, hwinnerTerm, hleader,
    hcandidate⟩ := hinv
  refine ⟨hvotedTerm, hcurrent, hvote', hunique, ?_, hquorum, hwinnerTerm, ?_, ?_⟩ <;>
    simp only [Ballots.yield, Function.update_apply] <;> grind

theorem follow (hinv : b.Inv Q) {t : ℕ} (hterm : b.term v ≤ t) : (b.follow v t).Inv Q := by
  unfold Ballots.follow
  split
  · exact hinv.yield v
  next hne => exact hinv.observe (lt_of_le_of_ne hterm (Ne.symm hne))

theorem campaign (hinv : b.Inv Q) (v : ι) : (b.campaign v).Inv Q := by
  obtain ⟨hvotedTerm, hcurrent, hvote', hunique, hself, hquorum, hwinnerTerm, hleader,
    hcandidate⟩ := hinv
  refine ⟨?_, ?_, ?_, ?_, ?_, ?_, ?_, ?_, ?_⟩ <;>
    simp only [Ballots.campaign, Function.update_apply] <;> grind

theorem grant (hinv : b.Inv Q) (hvote : b.vote v = none ∨ b.vote v = some x) :
    (b.grant v x).Inv Q := by
  obtain ⟨hvotedTerm, hcurrent, hvote', hunique, hself, hquorum, hwinnerTerm, hleader,
    hcandidate⟩ := hinv
  refine ⟨?_, ?_, ?_, ?_, ?_, ?_, hwinnerTerm, hleader, hcandidate⟩ <;>
    simp only [Ballots.grant, Function.update_apply] <;> grind

omit [DecidableEq ι] in
/-- The term in which a candidate has a quorum of votes has no winner yet. -/
theorem winner_eq_none (hinv : b.Inv Q) (hquorum : Q.IsQuorum A) (hrole : b.role v = .candidate)
    (hvoted : ∀ u ∈ A, b.voted u (b.term v) v) : b.winner (b.term v) = none := by
  by_contra hne
  obtain ⟨y, hy⟩ := Option.ne_none_iff_exists'.mp hne
  obtain ⟨B, hB, hvoted'⟩ := hinv.winner_quorum hy
  obtain ⟨u, huA, huB⟩ := Q.inter hquorum hB
  have hyv : y = v := hinv.voted_unique (hvoted' u huB) (hvoted u huA)
  exact hinv.winner_candidate hrole (hyv ▸ hy)

theorem win (hinv : b.Inv Q) (hquorum : Q.IsQuorum A) (hrole : b.role v = .candidate)
    (hvoted : ∀ u ∈ A, b.voted u (b.term v) v) : (b.win v).Inv Q := by
  have hnone := hinv.winner_eq_none hquorum hrole hvoted
  obtain ⟨hvotedTerm, hcurrent, hvote', hunique, hself, hwinner, hwinnerTerm, hleader,
    hcandidate⟩ := hinv
  refine ⟨hvotedTerm, hcurrent, hvote', hunique, ?_, ?_, ?_, ?_, ?_⟩ <;>
    simp only [Ballots.win, Function.update_apply] <;> grind

omit [DecidableEq ι] in
/-- Two quorums of votes in one term elect one node. -/
theorem elected_unique (hinv : b.Inv Q) {B : Set ι} {T : ℕ} {y : ι} (hA : Q.IsQuorum A)
    (hB : Q.IsQuorum B) (hvotedA : ∀ u ∈ A, b.voted u T x) (hvotedB : ∀ u ∈ B, b.voted u T y) :
    x = y := by
  obtain ⟨u, huA, huB⟩ := Q.inter hA hB
  exact hinv.voted_unique (hvotedA u huA) (hvotedB u huB)

end Inv

end Ballots

end Raftpp
