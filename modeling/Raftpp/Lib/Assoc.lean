import Mathlib.Data.List.Basic
import Mathlib.Data.List.Nodup

/-!
# Finite sets and maps as lists

Executable stand-ins for an unordered set and an unordered map.  A set carries
the proof that it lists each element once.  A map is an association list that
is read with `List.lookup`, so only the first binding of a key counts.
-/

namespace Raftpp

open List

/-- A finite set, listed in some order. -/
structure ListSet (α : Type*) where
  elems : List α
  nodup : elems.Nodup

namespace ListSet

variable {α : Type*} [DecidableEq α] {a : α} {s : ListSet α}

instance : DecidableEq (ListSet α) := fun s t =>
  decidable_of_iff (s.elems = t.elems) (by cases s; cases t; simp)

instance : EmptyCollection (ListSet α) := ⟨⟨[], nodup_nil⟩⟩

instance : Membership α (ListSet α) := ⟨fun s a => a ∈ s.elems⟩

instance (a : α) (s : ListSet α) : Decidable (a ∈ s) := inferInstanceAs (Decidable (a ∈ s.elems))

def insert (a : α) (s : ListSet α) : ListSet α := ⟨s.elems.insert a, s.nodup.insert⟩

def erase (s : ListSet α) (a : α) : ListSet α := ⟨s.elems.erase a, s.nodup.erase a⟩

/-- Insert every element of a list. -/
def insertAll (s : ListSet α) (l : List α) : ListSet α := l.foldl (fun s a => s.insert a) s

def size (s : ListSet α) : ℕ := s.elems.length

def isEmpty (s : ListSet α) : Bool := s.elems.isEmpty

omit [DecidableEq α] in
theorem mem_def : a ∈ s ↔ a ∈ s.elems := Iff.rfl

omit [DecidableEq α] in
@[simp] theorem not_mem_empty (a : α) : a ∉ (∅ : ListSet α) := not_mem_nil

instance (s t : ListSet α) : Decidable (∀ a, a ∈ s ↔ a ∈ t) :=
  decidable_of_iff (s.elems.Perm t.elems) (perm_ext_iff_of_nodup s.nodup t.nodup)

@[simp] theorem mem_insert {b : α} : a ∈ s.insert b ↔ a = b ∨ a ∈ s := by
  simp [insert, mem_def]

@[simp] theorem mem_erase {b : α} : a ∈ s.erase b ↔ a ≠ b ∧ a ∈ s := by
  simp [erase, mem_def, s.nodup.mem_erase_iff]

@[simp] theorem mem_insertAll :
    ∀ {l : List α} {s : ListSet α}, a ∈ s.insertAll l ↔ a ∈ l ∨ a ∈ s := by
  intro l
  induction l with
  | nil => intro s; simp [insertAll]
  | cons b l ih =>
      intro s
      have hstep : s.insertAll (b :: l) = (s.insert b).insertAll l := rfl
      rw [hstep, ih, mem_insert, mem_cons]
      tauto

end ListSet

/-! ## Association lists -/

/-- A finite map; the first binding of a key is the one that counts. -/
abbrev ListMap (κ ν : Type*) := List (κ × ν)

namespace ListMap

variable {κ ν : Type*} [DecidableEq κ] {k : κ} {m : ListMap κ ν}

/-- The value bound to a key. -/
def get (m : ListMap κ ν) (k : κ) : Option ν := List.lookup k m

def contains (m : ListMap κ ν) (k : κ) : Bool := (get m k).isSome

/-- Insert a binding unless the key is already bound. -/
def emplace (m : ListMap κ ν) (k : κ) (v : ν) : ListMap κ ν :=
  if contains m k then m else m ++ [(k, v)]

/-- Change the value bound to a key, if there is one. -/
def modify (m : ListMap κ ν) (k : κ) (f : ν → ν) : ListMap κ ν :=
  m.map fun b => if b.1 = k then (b.1, f b.2) else b

def erase (m : ListMap κ ν) (k : κ) : ListMap κ ν := m.filter fun b => b.1 ≠ k

/-- Bind a key, whatever it was bound to. -/
def assign (m : ListMap κ ν) (k : κ) (v : ν) : ListMap κ ν := erase m k ++ [(k, v)]

/-- Change every value. -/
def mapValues (m : ListMap κ ν) (f : κ → ν → ν) : ListMap κ ν := m.map fun b => (b.1, f b.1 b.2)

def keys (m : ListMap κ ν) : List κ := m.map Prod.fst

theorem get_cons (m : ListMap κ ν) (k k' : κ) (v : ν) :
    get ((k', v) :: m) k = if k = k' then some v else get m k := by
  unfold get
  rw [lookup_cons]
  by_cases hk : k = k'
  · simp [hk]
  · have hbeq : (k == k') = false := by simp [hk]
    rw [hbeq, if_neg hk]

@[simp] theorem get_nil (k : κ) : get ([] : ListMap κ ν) k = none := rfl

@[simp] theorem get_modify (m : ListMap κ ν) (k k' : κ) (f : ν → ν) :
    get (modify m k f) k' = if k' = k then (get m k').map f else get m k' := by
  induction m with
  | nil => simp [modify]
  | cons b m ih =>
      obtain ⟨key, v⟩ := b
      have hstep : modify ((key, v) :: m) k f =
          (if key = k then (key, f v) else (key, v)) :: modify m k f := by
        simp [modify]
      rw [hstep]
      by_cases hk : key = k
      · rw [if_pos hk, get_cons, get_cons, ih]
        grind
      · rw [if_neg hk, get_cons, get_cons, ih]
        grind

@[simp] theorem keys_modify (m : ListMap κ ν) (k : κ) (f : ν → ν) :
    keys (modify m k f) = keys m := by
  unfold keys modify
  rw [map_map]
  refine map_congr_left fun b _ => ?_
  rw [Function.comp_apply]
  split <;> rfl

@[simp] theorem get_mapValues (m : ListMap κ ν) (f : κ → ν → ν) (k : κ) :
    get (mapValues m f) k = (get m k).map (f k) := by
  induction m with
  | nil => simp [mapValues]
  | cons b m ih =>
      obtain ⟨key, v⟩ := b
      have hstep : mapValues ((key, v) :: m) f = (key, f key v) :: mapValues m f := by
        simp [mapValues]
      rw [hstep, get_cons, get_cons, ih]
      by_cases hk : k = key
      · simp [hk]
      · simp [hk]

@[simp] theorem get_erase (m : ListMap κ ν) (k k' : κ) :
    get (erase m k) k' = if k' = k then none else get m k' := by
  induction m with
  | nil => simp [erase]
  | cons b m ih =>
      obtain ⟨key, v⟩ := b
      by_cases hk : key = k
      · have hstep : erase ((key, v) :: m) k = erase m k := by simp [erase, hk]
        rw [hstep, ih, get_cons]
        grind
      · have hstep : erase ((key, v) :: m) k = (key, v) :: erase m k := by simp [erase, hk]
        rw [hstep, get_cons, get_cons, ih]
        grind

theorem get_append (m m' : ListMap κ ν) (k : κ) : get (m ++ m') k = (get m k).or (get m' k) := by
  induction m with
  | nil => simp
  | cons b m ih =>
      obtain ⟨key, w⟩ := b
      rw [cons_append, get_cons, get_cons, ih]
      by_cases hk : k = key
      · simp [hk]
      · simp [hk]

theorem get_append_singleton (m : ListMap κ ν) (k k' : κ) (v : ν) :
    get (m ++ [(k, v)]) k' = (get m k').or (if k' = k then some v else none) := by
  rw [get_append, get_cons, get_nil]

@[simp] theorem get_emplace (m : ListMap κ ν) (k k' : κ) (v : ν) :
    get (emplace m k v) k' = (get m k').or (if k' = k then some v else none) := by
  unfold emplace contains
  split
  next h =>
    by_cases hk : k' = k
    · subst hk
      obtain ⟨w, hw⟩ := Option.isSome_iff_exists.mp h
      simp [hw]
    · simp [hk]
  next h => rw [get_append_singleton]

theorem isSome_get_of_mem_keys (h : k ∈ keys m) : (get m k).isSome = true := by
  induction m with
  | nil => cases h
  | cons b m ih =>
      obtain ⟨k', v⟩ := b
      rw [get_cons]
      split
      · rfl
      next hne => exact ih ((mem_cons.mp h).resolve_left hne)

theorem get_eq_none (h : k ∉ keys m) : get m k = none := by
  induction m with
  | nil => rfl
  | cons b m ih =>
      obtain ⟨key, v⟩ := b
      simp only [keys, map_cons, mem_cons, not_or] at h
      rw [get_cons, if_neg h.1, ih h.2]

theorem contains_iff : contains m k = true ↔ k ∈ keys m := by
  refine ⟨fun h => ?_, isSome_get_of_mem_keys⟩
  by_contra hnot
  rw [contains, get_eq_none hnot] at h
  cases h

theorem get_of_mem (hnodup : (keys m).Nodup) {b : κ × ν} (h : b ∈ m) : get m b.1 = some b.2 := by
  induction m with
  | nil => cases h
  | cons b' m ih =>
      obtain ⟨hb', hnodup⟩ := nodup_cons.mp hnodup
      rw [get_cons]
      rcases mem_cons.mp h with rfl | h
      · rw [if_pos rfl]
      · have hne : b.1 ≠ b'.1 := fun heq => hb' (heq ▸ mem_map_of_mem h)
        rw [if_neg hne]
        exact ih hnodup h

theorem get_mem {v : ν} (h : get m k = some v) : (k, v) ∈ m := by
  induction m with
  | nil => simp at h
  | cons b m ih =>
      obtain ⟨key, w⟩ := b
      rw [get_cons] at h
      by_cases hk : k = key
      · subst hk
        simp_all
      · rw [if_neg hk] at h
        exact mem_cons_of_mem _ (ih h)

theorem get_assign (m : ListMap κ ν) (k k' : κ) (v : ν) :
    get (assign m k v) k' = if k' = k then some v else get m k' := by
  rw [assign, get_append_singleton, get_erase]
  split <;> simp

theorem nodup_keys_assign (h : (keys m).Nodup) (k : κ) (v : ν) : (keys (assign m k v)).Nodup := by
  have herase : (keys (erase m k)).Nodup := h.sublist (filter_sublist.map _)
  rw [assign, keys, map_append, nodup_append]
  refine ⟨herase, nodup_singleton k, ?_⟩
  simp [erase]

theorem get_filter (h : (keys m).Nodup) (p : κ → ν → Bool) :
    get (m.filter fun b => p b.1 b.2) k = (get m k).filter (p k) := by
  induction m with
  | nil => rfl
  | cons b m ih =>
      obtain ⟨hb, hm⟩ := nodup_cons.mp h
      rw [filter_cons, get_cons]
      split
      next hp =>
        rw [get_cons, ih hm]
        split
        next heq => simp [heq, Option.filter, hp]
        · rfl
      next hp =>
        rw [ih hm]
        split
        next heq =>
          rw [heq, get_eq_none hb]
          simp [Option.filter, hp]
        · rfl

/-- At most one binding is for a key. -/
theorem filterMap_key {β : Type*} (h : (keys m).Nodup) (f : ν → Option β) :
    (m.filterMap fun b => if b.1 = k then f b.2 else none) = ((get m k).bind f).toList := by
  induction m with
  | nil => rfl
  | cons b m ih =>
      obtain ⟨hb, hm⟩ := nodup_cons.mp h
      rw [filterMap_cons, ih hm, get_cons]
      by_cases hk : b.1 = k
      · rw [if_pos hk, if_pos hk.symm, get_eq_none (hk ▸ hb)]
        cases hf : f b.2 <;> simp [hf]
      · rw [if_neg hk, if_neg (Ne.symm hk)]

end ListMap

end Raftpp
