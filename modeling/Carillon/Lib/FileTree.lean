/-
# File trees

A tree of files and directories as the list of its nodes, each with its path from the root.
What lies in a directory has the directory's path as a prefix, so that removing a directory with
all it holds is a filter.

`Removes E t t'` says that `t'` is `t` with some nodes removed, and that whatever has gone has
gone for a reason `E`; it composes along a walk over the tree (`removes_foldl`).
-/
import Mathlib.Data.List.Infix
import Mathlib.Data.List.Basic

namespace FileTree

/-- A file or a directory. -/
structure Node (ν : Type*) where
  path : List ν
  isDir : Bool
  deriving DecidableEq

variable {ν : Type*} [DecidableEq ν]

/-- What a directory holds: the names, and whether they are directories. -/
def entries (t : List (Node ν)) (dir : List ν) : List (ν × Bool) :=
  t.filterMap fun n =>
    match n.path.getLast? with
    | some x => if n.path = dir ++ [x] then some (x, n.isDir) else none
    | none => none

/-- A path is removed with all that lies under it, except for what cannot be removed and the
directories around that. -/
def removeAll (stuck : List ν → Bool) (p : List ν) (t : List (Node ν)) : List (Node ν) :=
  t.filter fun n => !p.isPrefixOf n.path || t.any fun m => n.path.isPrefixOf m.path && stuck m.path

/-- A directory is removed if it holds nothing. -/
def removeEmpty (dir : List ν) (t : List (Node ν)) : List (Node ν) :=
  if entries t dir = [] then t.filter fun n => n ≠ ⟨dir, true⟩ else t

/-- A directory is made, with those around it that are missing. -/
def mkdirAll (dir : List ν) (t : List (Node ν)) : List (Node ν) :=
  t ++ (dir.inits.filter fun p => p ≠ [] ∧ ∀ n ∈ t, n.path ≠ p).map fun p => ⟨p, true⟩

/-- A file is opened, and made if it is missing. -/
def create (p : List ν) (t : List (Node ν)) : List (Node ν) :=
  if ∃ n ∈ t, n.path = p then t else t ++ [⟨p, false⟩]

theorem mem_entries {t : List (Node ν)} {dir : List ν} {x : ν} {b : Bool} :
    (x, b) ∈ entries t dir ↔ ⟨dir ++ [x], b⟩ ∈ t := by
  unfold entries
  rw [List.mem_filterMap]
  constructor
  · rintro ⟨⟨path, isDir⟩, hn, h⟩
    dsimp only at h
    split at h
    · rename_i y hy
      split_ifs at h with hpath
      cases h
      rw [← hpath]
      exact hn
    · cases h
  · intro hn
    refine ⟨_, hn, ?_⟩
    simp

theorem subset_create (p : List ν) (t : List (Node ν)) : t ⊆ create p t := by
  unfold create
  split_ifs
  · exact List.Subset.refl t
  · exact List.subset_append_left _ _

theorem mem_create {p : List ν} {t : List (Node ν)} {n : Node ν} (h : n ∈ create p t) :
    n ∈ t ∨ n.path = p := by
  unfold create at h
  split_ifs at h
  · exact .inl h
  · rcases List.mem_append.mp h with hmem | hnew
    · exact .inl hmem
    · rw [List.mem_singleton.mp hnew]
      exact .inr rfl

/-! ## Removals -/

/-- Some nodes of a tree are removed, each of them for a reason, which may speak of the tree
that is left. -/
structure Removes (E : Node ν → List (Node ν) → Prop) (t t' : List (Node ν)) : Prop where
  subset : t' ⊆ t
  gone : ∀ n ∈ t, n ∉ t' → E n t'

variable {E : Node ν → List (Node ν) → Prop} {t t' t'' : List (Node ν)}

omit [DecidableEq ν] in
theorem removes_refl (t : List (Node ν)) : Removes E t t :=
  ⟨List.Subset.refl t, fun _ hn hgone => absurd hn hgone⟩

omit [DecidableEq ν] in
theorem Removes.imp {E' : Node ν → List (Node ν) → Prop} (h : Removes E t t')
    (hE : ∀ n, E n t' → E' n t') : Removes E' t t' :=
  ⟨h.subset, fun n hn hgone => hE n (h.gone n hn hgone)⟩

/-- One removal after another, if a reason stays one when more goes. -/
theorem Removes.trans (hE : ∀ n t t', t' ⊆ t → E n t → E n t') (h : Removes E t t')
    (h' : Removes E t' t'') : Removes E t t'' := by
  refine ⟨List.Subset.trans h'.subset h.subset, fun n hn hgone => ?_⟩
  by_cases hmem : n ∈ t'
  · exact h'.gone n hmem hgone
  · exact hE n t' t'' h'.subset (h.gone n hn hmem)

/-- **A walk.**  What every visit removes for a reason, the walk removes for a reason. -/
theorem removes_foldl {α : Type*} {f : List (Node ν) → α → List (Node ν)}
    (hE : ∀ n t t', t' ⊆ t → E n t → E n t') (hf : ∀ t x, Removes E t (f t x)) (xs : List α)
    (t : List (Node ν)) : Removes E t (xs.foldl f t) := by
  induction xs generalizing t with
  | nil => exact removes_refl t
  | cons x xs ih => exact (hf t x).trans hE (ih (f t x))

/-- What is removed with a path lies under it. -/
theorem removes_removeAll {stuck : List ν → Bool} {p : List ν}
    (h : ∀ n ∈ t, p <+: n.path → E n (removeAll stuck p t)) :
    Removes E t (removeAll stuck p t) := by
  refine ⟨List.filter_subset_self t, fun n hn hgone => h n hn ?_⟩
  by_contra hunder
  refine hgone (List.mem_filter.mpr ⟨hn, ?_⟩)
  have hnot : p.isPrefixOf n.path = false := by
    rw [Bool.eq_false_iff, ne_eq, List.isPrefixOf_iff_prefix]
    exact hunder
  rw [hnot]
  rfl

/-- A directory that is removed holds nothing. -/
theorem removes_removeEmpty {dir : List ν}
    (h : (∀ m ∈ removeEmpty dir t, ∀ x, m.path ≠ dir ++ [x]) → E ⟨dir, true⟩ (removeEmpty dir t)) :
    Removes E t (removeEmpty dir t) := by
  by_cases hempty : entries t dir = []
  · have hnone : ∀ m ∈ t, ∀ x, m.path ≠ dir ++ [x] := by
      rintro ⟨path, isDir⟩ hm x rfl
      have hentry := mem_entries.mpr hm
      rw [hempty] at hentry
      exact absurd hentry List.not_mem_nil
    have hfilter : removeEmpty dir t = t.filter fun n => n ≠ ⟨dir, true⟩ := if_pos hempty
    have hsubset : removeEmpty dir t ⊆ t := by
      rw [hfilter]
      exact List.filter_subset_self t
    refine ⟨hsubset, fun n hn hgone => ?_⟩
    obtain rfl : n = ⟨dir, true⟩ := by
      by_contra hne
      rw [hfilter] at hgone
      exact hgone (List.mem_filter.mpr ⟨hn, decide_eq_true hne⟩)
    exact h fun m hm => hnone m (hsubset hm)
  · have hsame : removeEmpty dir t = t := if_neg hempty
    rw [hsame]
    exact removes_refl t

end FileTree
