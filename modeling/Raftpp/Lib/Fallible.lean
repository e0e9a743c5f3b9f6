import Mathlib.Logic.Basic

/-!
# Computations that may fail

A computation of type `EStateM ε σ α` reads and changes a state and may fail; a
failure leaves the state as it was when it occurred.  `Ends m s Q E` says how a
computation ends from a state: in `Q` if it succeeds and in `E` if it fails.  The
rules below take it apart along the operations of the monad, so a proof about a
computation follows its text.
-/

namespace Raftpp

variable {σ τ ε α β : Type}

/-- From `s` the computation ends in `Q` if it succeeds, and in `E` if it fails. -/
def Ends (m : EStateM ε σ α) (s : σ) (Q : α → σ → Prop) (E : ε → σ → Prop) : Prop :=
  match m s with
  | .ok a s' => Q a s'
  | .error e s' => E e s'

/-- The state that a computation leaves, whether it succeeds or fails. -/
def leaves (m : EStateM ε σ α) (s : σ) : σ :=
  match m s with
  | .ok _ s' => s'
  | .error _ s' => s'

/-- A computation on a part of the state. -/
def zoom (get : σ → τ) (set : τ → σ → σ) (m : EStateM ε τ α) : EStateM ε σ α := fun s =>
  match m (get s) with
  | .ok a t => .ok a (set t s)
  | .error e t => .error e (set t s)

/-- A computation whose failure is noted and passed over. -/
def ignoring (m : EStateM ε σ α) : EStateM ε σ Unit := fun s =>
  match m s with
  | .ok _ s' => .ok () s'
  | .error _ s' => .ok () s'

variable {m : EStateM ε σ α} {f : α → EStateM ε σ β} {s s' : σ} {Q Q' : α → σ → Prop}
  {E E' : ε → σ → Prop}

/-- How a computation ends can be found out by running it. -/
instance [∀ a s, Decidable (Q a s)] [∀ e s, Decidable (E e s)] : Decidable (Ends m s Q E) :=
  match h : m s with
  | .ok a s' => decidable_of_iff (Q a s') (by rw [Ends, h])
  | .error e s' => decidable_of_iff (E e s') (by rw [Ends, h])

theorem Ends.ok {a : α} (h : Ends m s Q E) (hrun : m s = .ok a s') : Q a s' := by
  unfold Ends at h
  rw [hrun] at h
  exact h

theorem Ends.error {e : ε} (h : Ends m s Q E) (hrun : m s = .error e s') : E e s' := by
  unfold Ends at h
  rw [hrun] at h
  exact h

/-- What a computation does from a state is one of its two ends. -/
theorem ends_of_runs (hok : ∀ a s', m s = .ok a s' → Q a s')
    (herror : ∀ e s', m s = .error e s' → E e s') : Ends m s Q E := by
  unfold Ends
  split
  next a s' hrun => exact hok a s' hrun
  next e s' hrun => exact herror e s' hrun

theorem Ends.mono (h : Ends m s Q E) (hok : ∀ a s', Q a s' → Q' a s')
    (herror : ∀ e s', E e s' → E' e s') : Ends m s Q' E' :=
  ends_of_runs (fun a s' hrun => hok a s' (h.ok hrun)) fun e s' hrun => herror e s' (h.error hrun)

theorem Ends.leaves {P : σ → Prop} (h : Ends m s (fun _ => P) fun _ => P) : P (leaves m s) := by
  unfold Ends at h
  unfold Raftpp.leaves
  cases hrun : m s with
  | ok a s' => rwa [hrun] at h
  | error e s' => rwa [hrun] at h

/-- A computation that does not fail succeeds. -/
theorem Ends.exists_ok (h : Ends m s Q fun _ _ => False) : ∃ a s', m s = .ok a s' ∧ Q a s' := by
  cases hrun : m s with
  | ok a s' => exact ⟨a, s', rfl, h.ok hrun⟩
  | error e s' => exact (h.error hrun).elim

theorem ends_pure {a : α} : Ends (pure a : EStateM ε σ α) s Q E ↔ Q a s := Iff.rfl

theorem ends_get {Q : σ → σ → Prop} : Ends (get : EStateM ε σ σ) s Q E ↔ Q s s := Iff.rfl

theorem ends_modify {g : σ → σ} {Q : PUnit → σ → Prop} :
    Ends (modify g : EStateM ε σ PUnit) s Q E ↔ Q ⟨⟩ (g s) := Iff.rfl

theorem ends_bind {Q : β → σ → Prop} :
    Ends (m >>= f) s Q E ↔ Ends m s (fun a s' => Ends (f a) s' Q E) E := by
  change Ends (EStateM.bind m f) s Q E ↔ _
  unfold Ends EStateM.bind
  cases m s <;> rfl

/-- One computation after the other. -/
theorem Ends.bind {Q : β → σ → Prop} {R : α → σ → Prop} (h : Ends m s R E)
    (hf : ∀ a s', R a s' → Ends (f a) s' Q E) : Ends (m >>= f) s Q E :=
  ends_bind.mpr (h.mono hf fun _ _ => id)

theorem ends_zoom {get : σ → τ} {set : τ → σ → σ} {m : EStateM ε τ α} :
    Ends (zoom get set m) s Q E ↔
      Ends m (get s) (fun a t => Q a (set t s)) fun e t => E e (set t s) := by
  unfold Ends zoom
  cases m (get s) <;> rfl

theorem ends_ignoring {Q : Unit → σ → Prop} :
    Ends (ignoring m) s Q E ↔ Ends m s (fun _ s' => Q () s') fun _ s' => Q () s' := by
  unfold Ends ignoring
  cases m s <;> rfl

end Raftpp
