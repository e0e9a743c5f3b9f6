import Mathlib.Logic.Relation
import Raftpp.Core.Types
import Raftpp.Lib.Assoc

/-!
# Answers to the clients of a node

`ProposalTracker` keeps the callbacks of proposals and reads that wait for an answer.
An operation takes the callbacks it answers out of the tracker while it holds the lock
and invokes them afterwards, so that other calls, those of the callbacks themselves
among them, come in between.  `Step` lets them come in between anywhere.

What becomes of a request is then seen from the calls alone, and from those that concern
it: it is pending from its registration until the first call that answers it.
-/

namespace Raftpp

open List

inductive RequestKind
  | proposal
  | read
  deriving DecidableEq

/-- `PendingProposal` and `PendingRead`; an empty callback is not invoked. -/
structure PendingRequest (κ : Type) where
  callback : Option κ
  deadline : ℤ
  deriving DecidableEq

/-- What a callback is told. -/
inductive Answer
  | response (data : Bytes)
  | readable
  | error (error : RaftError)
  | timeout
  deriving DecidableEq

/-- `DeadlineFromTimeout`, in nanoseconds, of a timeout in milliseconds; without a timeout it is
the last time that the clock can show.  The sum has 64 bits and wraps, so that the deadline of a
very long timeout has passed already. -/
def deadlineFromTimeout (now timeout : ℤ) : ℤ :=
  if timeout ≤ 0 then 2 ^ 63 - 1 else Int.bmod (now + timeout * 1000000) (2 ^ 64)

/-- The kind of a request and its context. -/
abbrev RequestKey := RequestKind × Bytes

/-- A callback and what it is told, with the request that it was registered for. -/
structure Invocation (κ : Type) where
  key : RequestKey
  callback : κ
  answer : Answer
  deriving DecidableEq

/-- The maps `proposals_` and `reads_` as one, with the kind as a part of the key. -/
structure ProposalTracker (κ : Type) where
  pending : ListMap RequestKey (PendingRequest κ) := []

namespace ProposalTracker

variable {κ : Type}

/-- Store a request under its context. -/
def register (t : ProposalTracker κ) (key : RequestKey) (request : PendingRequest κ) :
    ProposalTracker κ := ⟨ListMap.assign t.pending key request⟩

/-- The requests that are due leave the tracker; their callbacks are then invoked. -/
def settle (t : ProposalTracker κ) (due : RequestKey → PendingRequest κ → Bool) (answer : Answer) :
    ProposalTracker κ × List (Invocation κ) :=
  (⟨t.pending.filter fun b => !due b.1 b.2⟩,
    (t.pending.filter fun b => due b.1 b.2).filterMap fun b =>
      b.2.callback.map fun callback => ⟨b.1, callback, answer⟩)

/-- The operations; the clock is read when a request is registered. -/
inductive Call (κ : Type)
  | track (ctx : Bytes) (callback : Option κ) (now timeout : ℤ)
  | trackRead (ctx : Bytes) (callback : Option κ) (now timeout : ℤ)
  | complete (ctx response : Bytes)
  | fail (ctx : Bytes) (error : RaftError)
  | failAll (error : RaftError)
  | failAllReads (error : RaftError)
  | completeRead (ctx : Bytes)
  | failRead (ctx : Bytes) (error : RaftError)
  | expireTimeouts (now : ℤ)

namespace Call

/-- The request that `Track` or `TrackRead` registers. -/
def request? : Call κ → Option (RequestKey × PendingRequest κ)
  | track ctx callback now timeout =>
      some ((.proposal, ctx), ⟨callback, deadlineFromTimeout now timeout⟩)
  | trackRead ctx callback now timeout =>
      some ((.read, ctx), ⟨callback, deadlineFromTimeout now timeout⟩)
  | _ => none

/-- The requests that an operation takes out of the tracker: that of a context, all of a kind, or
those that have expired. -/
def answers : Call κ → RequestKey → PendingRequest κ → Bool
  | complete ctx _, key, _ | fail ctx _, key, _ => key = (.proposal, ctx)
  | completeRead ctx, key, _ | failRead ctx _, key, _ => key = (.read, ctx)
  | failAll _, key, _ => key.1 = .proposal
  | failAllReads _, key, _ => key.1 = .read
  | expireTimeouts now, _, request => request.deadline ≤ now
  | track .., _, _ | trackRead .., _, _ => false

/-- What it tells their callbacks. -/
def answer : Call κ → Answer
  | complete _ response => .response response
  | completeRead _ => .readable
  | fail _ error | failRead _ error | failAll error | failAllReads error => .error error
  | expireTimeouts _ | track .. | trackRead .. => .timeout

/-- What an operation does under the lock, and the callbacks it then invokes.  `TrackRead` asserts
that its context is not in use. -/
def run (t : ProposalTracker κ) (c : Call κ) :
    Option (ProposalTracker κ × List (Invocation κ)) :=
  match c, c.request? with
  | trackRead .., some new =>
      if ListMap.contains t.pending new.1 then none else some (t.register new.1 new.2, [])
  | _, some new => some (t.register new.1 new.2, [])
  | _, none => some (t.settle c.answers c.answer)

def key? (c : Call κ) : Option RequestKey := c.request?.map Prod.fst

end Call

/-! ## The tracker in use -/

/-- What may have become of a request. -/
inductive Fate (κ : Type)
  | absent
  | pending (request : PendingRequest κ)
  | answered (request : PendingRequest κ)

namespace Fate

/-- What a call makes of a request. -/
def next (key : RequestKey) : Fate κ → Call κ → Fate κ
  | absent, c =>
      match c.request? with
      | some new => if new.1 = key then pending new.2 else absent
      | none => absent
  | pending request, c => if c.answers key request then answered request else pending request
  | answered request, _ => answered request

/-- What has become of a request after some calls. -/
def after (key : RequestKey) (calls : List (Call κ)) : Fate κ := calls.foldl (next key) absent

/-- What the tracker has of the request. -/
def entry : Fate κ → Option (PendingRequest κ)
  | pending request => some request
  | absent | answered _ => none

/-- The callbacks that were or will be invoked for the request. -/
def callbacks : Fate κ → List κ
  | answered request => request.callback.toList
  | absent | pending _ => []

end Fate

/-- The tracker, the callbacks that calls in progress have yet to invoke, those that were
invoked, and the calls in the order in which they took the lock. -/
structure Use (κ : Type) where
  tracker : ProposalTracker κ := {}
  waiting : List (Invocation κ) := []
  invoked : List (Invocation κ) := []
  calls : List (Call κ) := []

/-- A call takes the lock, or a callback is invoked. -/
inductive Step : Use κ → Use κ → Prop
  | call (u : Use κ) (c : Call κ) (tracker : ProposalTracker κ) (out : List (Invocation κ))
      (hrun : c.run u.tracker = some (tracker, out)) :
      Step u { u with tracker, waiting := u.waiting ++ out, calls := u.calls ++ [c] }
  | invoke (u : Use κ) (before after : List (Invocation κ)) (x : Invocation κ)
      (hwaiting : u.waiting = before ++ x :: after) :
      Step u { u with waiting := before ++ after, invoked := x :: u.invoked }

/-- The callbacks among some invocations that are for one request. -/
def callbacksFor (key : RequestKey) (l : List (Invocation κ)) : List κ :=
  l.filterMap fun x => if x.key = key then some x.callback else none

/-! ## One call -/

section Steps

variable {t t' : ProposalTracker κ} {c : Call κ} {out : List (Invocation κ)} {key : RequestKey}
  {request : PendingRequest κ} {calls : List (Call κ)}

/-- A call registers a request or settles those that it answers. -/
theorem Call.run_eq (h : c.run t = some (t', out)) :
    (∃ new, c.request? = some new ∧ t' = t.register new.1 new.2 ∧ out = []) ∨
      (c.request? = none ∧ t' = (t.settle c.answers c.answer).1 ∧
        out = (t.settle c.answers c.answer).2) := by
  unfold run at h
  split at h
  next new hnew =>
    split at h
    · cases h
    · cases h
      exact Or.inl ⟨new, hnew, rfl, rfl⟩
  next new _ hnew =>
    cases h
    exact Or.inl ⟨new, hnew, rfl, rfl⟩
  next hnone =>
    cases h
    exact Or.inr ⟨hnone, rfl, rfl⟩

/-- A registration answers nothing. -/
theorem Call.answers_of_request {new : RequestKey × PendingRequest κ} (h : c.request? = some new) :
    c.answers key request = false := by
  cases c <;> first | rfl | cases h

theorem Call.run_nodup (hnodup : (ListMap.keys t.pending).Nodup) (h : c.run t = some (t', out)) :
    (ListMap.keys t'.pending).Nodup := by
  rcases Call.run_eq h with ⟨new, -, rfl, -⟩ | ⟨-, rfl, -⟩
  · exact ListMap.nodup_keys_assign hnodup new.1 new.2
  · exact hnodup.sublist (filter_sublist.map _)

/-- The callback of a request that is due is invoked, and no other. -/
theorem callbacksFor_settle (hnodup : (ListMap.keys t.pending).Nodup)
    (due : RequestKey → PendingRequest κ → Bool) (answer : Answer) :
    callbacksFor key (t.settle due answer).2 =
      (((ListMap.get t.pending key).filter (due key)).bind PendingRequest.callback).toList := by
  rw [← ListMap.get_filter hnodup, ← ListMap.filterMap_key (hnodup.sublist (filter_sublist.map _)),
    settle, callbacksFor, filterMap_filterMap]
  refine filterMap_congr fun b _ => ?_
  cases b.2.callback <;> simp

/-- A call does to the tracker and to the callbacks what it does to the fate of a request. -/
theorem Call.run_next {fate : Fate κ} (hnodup : (ListMap.keys t.pending).Nodup)
    (h : c.run t = some (t', out)) (hget : ListMap.get t.pending key = fate.entry)
    (hfresh : c.key? = some key → fate = .absent) :
    ListMap.get t'.pending key = (fate.next key c).entry ∧
      fate.callbacks ++ callbacksFor key out = (fate.next key c).callbacks := by
  rcases Call.run_eq h with ⟨new, hnew, rfl, rfl⟩ | ⟨hnone, rfl, rfl⟩
  · rw [register, ListMap.get_assign, hget]
    by_cases hkey : key = new.1
    · obtain rfl := hfresh (by rw [key?, hnew, hkey]; rfl)
      simp [Fate.next, hnew, hkey, Fate.entry, Fate.callbacks, callbacksFor]
    · rw [if_neg hkey]
      cases fate <;> simp [Fate.next, hnew, Ne.symm hkey, answers_of_request hnew, callbacksFor]
  · rw [callbacksFor_settle hnodup, settle, hget]
    have hfilter := ListMap.get_filter (k := key) hnodup fun key request => !c.answers key request
    rw [hfilter, hget]
    cases fate with
    | absent => simp [Fate.next, hnone, Fate.entry, Fate.callbacks]
    | answered request => simp [Fate.next, Fate.entry, Fate.callbacks]
    | pending request =>
        cases hanswers : c.answers key request <;>
          simp [Fate.next, Fate.entry, Fate.callbacks, Option.filter, hanswers]

theorem Fate.after_append (c : Call κ) :
    after key (calls ++ [c]) = (after key calls).next key c := by
  rw [after, foldl_append]
  rfl

theorem Fate.after_absent (h : key ∉ calls.filterMap Call.key?) : after key calls = .absent := by
  induction calls with
  | nil => rfl
  | cons c calls ih =>
      have hc : next key absent c = absent := by
        cases hnew : c.request? with
        | none => simp [next, hnew]
        | some new =>
            have hne : new.1 ≠ key := fun heq => h (by simp [Call.key?, hnew, heq])
            simp [next, hnew, hne]
      rw [after, foldl_cons, hc]
      refine ih fun hmem => h ?_
      obtain ⟨c', hc', hkey⟩ := mem_filterMap.mp hmem
      exact mem_filterMap.mpr ⟨c', mem_cons_of_mem c hc', hkey⟩

/-- From its registration on a request is pending until it is answered. -/
theorem Fate.after_registered {before rest : List (Call κ)} (hc : c.request? = some (key, request))
    (hkeys : ((before ++ c :: rest).filterMap Call.key?).Nodup) :
    after key (before ++ c :: rest) =
      if rest.any (·.answers key request) then .answered request else .pending request := by
  have hfresh : key ∉ before.filterMap Call.key? := by
    rw [filterMap_append, nodup_append] at hkeys
    exact fun hmem => hkeys.2.2 key hmem key (by simp [Call.key?, hc]) rfl
  have hanswered : ∀ l : List (Call κ), l.foldl (next key) (answered request) = answered request :=
    fun l => by induction l with | nil => rfl | cons c l ih => exact ih
  have hstart : after key before = absent := after_absent hfresh
  rw [after, foldl_append, foldl_cons, ← after, hstart, next, hc]
  simp only [if_true]
  clear hkeys
  induction rest with
  | nil => rfl
  | cons c' rest ih =>
      rw [foldl_cons, next, any_cons]
      cases c'.answers key request with
      | true => simpa using hanswered rest
      | false => simpa using ih

end Steps

/-! ## Runs -/

section Runs

variable {u u' : Use κ} {key : RequestKey}

/-- The tracker and the callbacks agree with the calls, request by request. -/
structure Use.Holds (u : Use κ) : Prop where
  nodup : (ListMap.keys u.tracker.pending).Nodup
  fate : (u.calls.filterMap Call.key?).Nodup → ∀ key,
    ListMap.get u.tracker.pending key = (Fate.after key u.calls).entry ∧
      (callbacksFor key (u.waiting ++ u.invoked)).Perm (Fate.after key u.calls).callbacks

theorem Step.holds (hstep : Step u u') (h : u.Holds) : u'.Holds := by
  cases hstep with
  | invoke before after x hwaiting =>
      refine ⟨h.nodup, fun hkeys key => (h.fate hkeys key).imp_right fun hperm => .trans ?_ hperm⟩
      refine .filterMap _ ?_
      rw [hwaiting, append_assoc, append_assoc]
      exact perm_middle.append_left before
  | call c tracker out hrun =>
      refine ⟨Call.run_nodup h.nodup hrun, fun hkeys key => ?_⟩
      rw [filterMap_append, nodup_append] at hkeys
      obtain ⟨hget, hperm⟩ := h.fate hkeys.1 key
      obtain ⟨hget', hcallbacks⟩ := Call.run_next h.nodup hrun hget fun hkey =>
        Fate.after_absent fun hmem => hkeys.2.2 key hmem key (by simp [hkey]) rfl
      rw [Fate.after_append]
      refine ⟨hget', hcallbacks ▸ .trans ?_ (hperm.append_right _)⟩
      unfold callbacksFor
      rw [← filterMap_append]
      refine .filterMap _ ?_
      rw [append_assoc, append_assoc]
      exact perm_append_comm.append_left _

theorem holds_of_run (h : Relation.ReflTransGen Step {} u) : u.Holds := by
  induction h with
  | refl => exact ⟨nodup_nil, fun _ _ => ⟨rfl, .refl _⟩⟩
  | tail _ hstep ih => exact hstep.holds ih

/-- Requests with contexts of their own are answered exactly once: the callback is invoked at most
once; when no call is in progress, it was invoked if the request has been answered since its
registration, and the request is pending otherwise; a call that does not answer the request
neither invokes its callback nor changes it; and the assertion of `TrackRead` does not fail. -/
theorem answered_once (hrun : Relation.ReflTransGen Step {} u)
    (hkeys : (u.calls.filterMap Call.key?).Nodup) :
    (∀ before c rest key request callback, u.calls = before ++ c :: rest →
      c.request? = some (key, request) → request.callback = some callback →
      (callbacksFor key u.invoked = [] ∨ callbacksFor key u.invoked = [callback]) ∧
      (u.waiting = [] → if rest.any (·.answers key request) then
          callbacksFor key u.invoked = [callback] ∧ ListMap.get u.tracker.pending key = none
        else callbacksFor key u.invoked = [] ∧
          ListMap.get u.tracker.pending key = some request) ∧
      ∀ (c' : Call κ) tracker out, c'.run u.tracker = some (tracker, out) → c'.key? ≠ some key →
        c'.answers key request = false → callbacksFor key out = [] ∧
          ListMap.get tracker.pending key = ListMap.get u.tracker.pending key) ∧
    ∀ c, ((u.calls ++ [c]).filterMap Call.key?).Nodup → (c.run u.tracker).isSome = true := by
  have hholds := holds_of_run hrun
  refine ⟨?_, fun c hfresh => ?_⟩
  · intro before c rest key request callback hcalls hnew hcallback
    obtain ⟨hget, hperm⟩ := hholds.fate hkeys key
    have hfate : Fate.after key u.calls =
        if rest.any (·.answers key request) then .answered request else .pending request :=
      hcalls ▸ Fate.after_registered hnew (hcalls ▸ hkeys)
    rw [callbacksFor, filterMap_append, ← callbacksFor, ← callbacksFor] at hperm
    rw [hfate] at hget hperm
    refine ⟨?_, fun hwaiting => ?_, fun c' tracker out hrun hother hanswers => ?_⟩
    · split at hperm
      · rw [Fate.callbacks, hcallback, Option.toList_some, perm_singleton, append_eq_singleton_iff]
          at hperm
        exact hperm.imp And.right And.right |>.symm
      · exact Or.inl (append_eq_nil_iff.mp hperm.eq_nil).2
    · rw [hwaiting, callbacksFor, filterMap_nil, nil_append] at hperm
      split
      next hanswered =>
        rw [if_pos hanswered] at hget hperm
        rw [Fate.callbacks, hcallback, Option.toList_some, perm_singleton] at hperm
        exact ⟨hperm, hget⟩
      next hpending =>
        rw [if_neg hpending] at hget hperm
        exact ⟨hperm.eq_nil, hget⟩
    · obtain ⟨hget', hcallbacks⟩ := Call.run_next hholds.nodup hrun hget (absurd · hother)
      have hnext : Fate.next key (if rest.any (·.answers key request) then .answered request
          else .pending request) c' = if rest.any (·.answers key request) then .answered request
            else .pending request := by
        split
        · rfl
        · exact if_neg (by simp [hanswers])
      rw [hnext] at hget' hcallbacks
      exact ⟨append_right_eq_self.mp hcallbacks, hget'.trans hget.symm⟩
  · rw [filterMap_append, nodup_append] at hfresh
    cases c with
    | trackRead ctx callback now timeout =>
        have hnone : ListMap.get u.tracker.pending (.read, ctx) = none := by
          rw [(hholds.fate hkeys _).1, Fate.after_absent]
          · rfl
          · intro hmem
            exact hfresh.2.2 _ hmem (.read, ctx) (by simp [Call.key?, Call.request?]) rfl
        simp [Call.run, Call.request?, ListMap.contains, hnone]
    | _ => rfl

/-- A proposal that is applied before it expires. -/
theorem answered_once_applied :
    ∃ u : Use ℕ, Relation.ReflTransGen Step {} u ∧
      u.calls = [.track [1] (some 7) 0 5, .complete [1] [2], .expireTimeouts 5000000] ∧
      callbacksFor (.proposal, [1]) u.invoked = [7] := by
  have hrun : Relation.ReflTransGen (@Step ℕ) {} _ :=
    .tail (.tail (.tail (.tail .refl (.call _ (.track [1] (some 7) 0 5) _ _ rfl))
      (.call _ (.complete [1] [2]) _ _ rfl)) (.invoke _ [] [] _ rfl))
      (.call _ (.expireTimeouts 5000000) _ _ rfl)
  have h := ((answered_once hrun (by decide)).1 [] _ _ _ _ 7 rfl rfl rfl).2.1 rfl
  exact ⟨_, hrun, rfl, h.1⟩

end Runs

end ProposalTracker

end Raftpp
