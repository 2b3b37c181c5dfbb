/-
# A directory that can lose power

Files with contents in one directory, as processes see them and as a crash leaves them.

* A change of the directory (a new entry, a removal, a rename) is atomic, but it is on the disk
  only after the directory has been forced; until then a crash keeps or loses it, each change on
  its own.
* The content of a file is on the disk only after the file has been forced; until then a crash
  may leave anything in it.

`Holds fs t S` says what a name `t` stands for, seen now or after a crash: one of the contents
in `S`, whole and already on the disk.  There is one rule for each operation; a rename onto `t`
adds the content of the renamed file, and forcing the directory leaves the present one only.

`Replacing` puts the rules together for the usual way to replace a file: make a new one beside it,
write it, force it, rename it, force the directory.
-/
import Mathlib.Logic.Function.Basic
import Mathlib.Data.Set.Insert

namespace CrashFs

variable {ν δ : Type*} [DecidableEq ν]

/-! ## Directories and files -/

/-- A change of the directory; files are numbered. -/
inductive Change (ν : Type*) where
  | link (name : ν) (inode : ℕ)
  | unlink (name : ν)
  | rename (old new : ν) (inode : ℕ)
  deriving DecidableEq

/-- What a change makes of a name, if it concerns it. -/
def Change.sets (n : ν) : Change ν → Option (Option ℕ)
  | .link m i => if n = m then some (some i) else none
  | .unlink m => if n = m then some none else none
  | .rename old new i => if n = new then some (some i) else if n = old then some none else none

theorem Change.sets_rename_new (old new : ν) (i : ℕ) :
    (Change.rename old new i).sets new = some (some i) := if_pos rfl

/-- The directory after a change. -/
def Change.apply (d : ν → Option ℕ) (c : Change ν) : ν → Option ℕ :=
  fun n => (c.sets n).getD (d n)

/-- A directory with its files. -/
structure Fs (ν δ : Type*) where
  /-- The directory as it was last forced. -/
  disk : ν → Option ℕ
  /-- The changes since, in their order. -/
  pending : List (Change ν)
  /-- The contents of the files. -/
  data : ℕ → δ
  /-- The files whose content is on the disk. -/
  durable : ℕ → Bool
  /-- The number of the next file. -/
  next : ℕ

/-- The directory as processes see it. -/
def Fs.live (fs : Fs ν δ) : ν → Option ℕ := fs.pending.foldl Change.apply fs.disk

/-- The content that a name stands for. -/
def Fs.content (fs : Fs ν δ) (n : ν) : Option δ := (fs.live n).map fs.data

/-- A new, empty file. -/
def Fs.create (fs : Fs ν δ) (n : ν) (empty : δ) : Fs ν δ :=
  { fs with
    pending := fs.pending ++ [.link n fs.next]
    data := Function.update fs.data fs.next empty
    durable := Function.update fs.durable fs.next false
    next := fs.next + 1 }

/-- A write to a file. -/
def Fs.write (fs : Fs ν δ) (i : ℕ) (d : δ) : Fs ν δ :=
  { fs with data := Function.update fs.data i d, durable := Function.update fs.durable i false }

omit [DecidableEq ν] in
theorem Fs.write_data (fs : Fs ν δ) (i : ℕ) (d : δ) : (fs.write i d).data i = d := by
  simp [Fs.write]

/-- A file is forced to the disk. -/
def Fs.sync (fs : Fs ν δ) (i : ℕ) : Fs ν δ :=
  { fs with durable := Function.update fs.durable i true }

omit [DecidableEq ν] in
theorem Fs.sync_durable (fs : Fs ν δ) (i : ℕ) : (fs.sync i).durable i = true := by
  simp [Fs.sync]

/-- A rename, if there is such an entry. -/
def Fs.rename (fs : Fs ν δ) (old new : ν) : Option (Fs ν δ) :=
  (fs.live old).map fun i => { fs with pending := fs.pending ++ [.rename old new i] }

/-- A name is removed. -/
def Fs.unlink (fs : Fs ν δ) (n : ν) : Fs ν δ := { fs with pending := fs.pending ++ [.unlink n] }

/-- A removal that may fail, or find nothing. -/
def Fs.remove (fs : Fs ν δ) (n : ν) (ok : Bool) : Fs ν δ :=
  if ok && (fs.live n).isSome then fs.unlink n else fs

/-- The directory is forced to the disk. -/
def Fs.syncDir (fs : Fs ν δ) : Fs ν δ := { fs with disk := fs.live, pending := [] }

/-- The power fails: some of the pending changes are kept, and files that were not forced hold
something. -/
def Fs.crash (fs : Fs ν δ) (kept : List (Change ν)) (torn : ℕ → δ) : Fs ν δ where
  disk := kept.foldl Change.apply fs.disk
  pending := []
  data := fun i => if fs.durable i then fs.data i else torn i
  durable := fun _ => true
  next := fs.next

/-! ## What processes see -/

variable {fs fs' : Fs ν δ} {t n : ν} {i : ℕ}

theorem Fs.live_create (fs : Fs ν δ) (n : ν) (empty : δ) :
    (fs.create n empty).live n = some fs.next := by
  simp [Fs.live, Fs.create, Change.apply, Change.sets]

/-- A name taken away is gone. -/
theorem Fs.live_unlink (fs : Fs ν δ) (n m : ν) :
    (fs.unlink n).live m = if m = n then none else fs.live m := by
  simp only [Fs.live, Fs.unlink, List.foldl_append, List.foldl_cons, List.foldl_nil, Change.apply,
    Change.sets]
  split_ifs <;> rfl

theorem Fs.remove_cases (fs : Fs ν δ) (n : ν) (ok : Bool) :
    fs.remove n ok = fs ∨ fs.remove n ok = fs.unlink n := by
  unfold Fs.remove
  split_ifs
  · exact .inr rfl
  · exact .inl rfl

/-- A rename takes the file that the old name stands for. -/
theorem Fs.rename_eq_some (h : fs.rename n t = some fs') : ∃ i, fs.live n = some i ∧
    fs' = { fs with pending := fs.pending ++ [.rename n t i] } ∧ fs'.live t = some i := by
  obtain ⟨i, hi, rfl⟩ := Option.map_eq_some_iff.mp h
  refine ⟨i, hi, rfl, ?_⟩
  simp [Fs.live, Change.apply, Change.sets]

/-! ## What a name can stand for -/

/-- The files that a name may stand for, now or after a crash. -/
def Fs.possible (fs : Fs ν δ) (n : ν) : List (Option ℕ) :=
  fs.disk n :: fs.pending.filterMap (Change.sets n)

/-- After some changes a name stands for what it did, or for what one of them made of it. -/
theorem foldl_apply_mem (cs : List (Change ν)) (d : ν → Option ℕ) (n : ν) :
    cs.foldl Change.apply d n ∈ d n :: cs.filterMap (Change.sets n) := by
  induction cs generalizing d with
  | nil => exact List.mem_singleton.mpr rfl
  | cons c cs ih =>
    have hrest := ih (Change.apply d c)
    rw [List.foldl_cons]
    cases hc : c.sets n with
    | none =>
      rw [List.filterMap_cons_none hc]
      rwa [show Change.apply d c n = d n by rw [Change.apply, hc, Option.getD_none]] at hrest
    | some o =>
      rw [List.filterMap_cons_some hc]
      rw [show Change.apply d c n = o by rw [Change.apply, hc, Option.getD_some]] at hrest
      exact List.mem_cons_of_mem _ hrest

/-- What is live may survive a crash. -/
theorem Fs.live_mem_possible (fs : Fs ν δ) (n : ν) : fs.live n ∈ fs.possible n :=
  foldl_apply_mem fs.pending fs.disk n

/-- The crash leaves one of the possible files. -/
theorem Fs.crash_mem_possible (fs : Fs ν δ) {kept : List (Change ν)} (torn : ℕ → δ)
    (hkept : kept.Sublist fs.pending) (n : ν) : (fs.crash kept torn).disk n ∈ fs.possible n := by
  have hsub : (fs.disk n :: kept.filterMap (Change.sets n)).Sublist (fs.possible n) :=
    (hkept.filterMap _).cons_cons _
  exact hsub.subset (foldl_apply_mem kept fs.disk n)

/-- Now and after any crash, the name stands for a content in `S` that is on the disk. -/
def Holds (fs : Fs ν δ) (t : ν) (S : Set (Option δ)) : Prop :=
  ∀ o ∈ fs.possible t, o.map fs.data ∈ S ∧ ∀ i ∈ o, i < fs.next ∧ fs.durable i = true

variable {S T : Set (Option δ)}

theorem Holds.mono (h : Holds fs t S) (hST : S ⊆ T) : Holds fs t T :=
  fun o ho => ⟨hST (h o ho).1, (h o ho).2⟩

/-- Something is possible at every time. -/
theorem Holds.nonempty (h : Holds fs t S) : S.Nonempty := ⟨_, (h _ (fs.live_mem_possible t)).1⟩

/-- What a process sees under the name. -/
theorem Holds.content (h : Holds fs t S) : fs.content t ∈ S := (h _ (fs.live_mem_possible t)).1

/-- A crash leaves what the name may stand for. -/
theorem Holds.crash (h : Holds fs t S) {kept : List (Change ν)} (hkept : kept.Sublist fs.pending)
    (torn : ℕ → δ) : Holds (fs.crash kept torn) t S := by
  intro o ho
  obtain rfl : o = (fs.crash kept torn).disk t := List.mem_singleton.mp ho
  obtain ⟨hmem, hall⟩ := h _ (fs.crash_mem_possible torn hkept t)
  refine ⟨?_, fun i hi => ⟨(hall i hi).1, rfl⟩⟩
  -- the file was on the disk, so its content has come through
  have hdata : ((fs.crash kept torn).disk t).map (fs.crash kept torn).data =
      ((fs.crash kept torn).disk t).map fs.data := by
    refine Option.map_congr fun i hi => ?_
    exact if_pos (hall i hi).2
  rw [hdata]
  exact hmem

/-- An operation that leaves the name alone, and the files it may stand for. -/
theorem Holds.congr (h : Holds fs t S) (hposs : fs'.possible t = fs.possible t)
    (hnext : fs.next ≤ fs'.next)
    (hsame : ∀ i, some i ∈ fs.possible t →
      fs'.data i = fs.data i ∧ (fs.durable i = true → fs'.durable i = true)) :
    Holds fs' t S := by
  intro o ho
  rw [hposs] at ho
  obtain ⟨hmem, hall⟩ := h o ho
  refine ⟨?_, fun i hi => ?_⟩
  · have hdata : o.map fs'.data = o.map fs.data := by
      refine Option.map_congr fun i hi => ?_
      subst hi
      exact (hsame i ho).1
    rw [hdata]
    exact hmem
  · rw [Option.mem_def] at hi
    subst hi
    exact ⟨(hall i rfl).1.trans_le hnext, (hsame i ho).2 (hall i rfl).2⟩

/-- A change that does not concern the name. -/
theorem possible_append {c : Change ν} {cs : List (Change ν)} (hpending : fs'.pending = cs ++ [c])
    (hold : fs.pending = cs) (hdisk : fs'.disk = fs.disk) (hc : c.sets t = none) :
    fs'.possible t = fs.possible t := by
  rw [Fs.possible, Fs.possible, hpending, hold, hdisk, List.filterMap_append,
    List.filterMap_cons_none hc, List.filterMap_nil, List.append_nil]

/-- A new file under another name. -/
theorem Holds.create (h : Holds fs t S) (hn : t ≠ n) (empty : δ) :
    Holds (fs.create n empty) t S := by
  refine h.congr (possible_append rfl rfl rfl (if_neg hn)) (Nat.le_succ _) fun i hi => ?_
  have hne : i ≠ fs.next := ((h _ hi).2 i rfl).1.ne
  exact ⟨Function.update_of_ne hne _ _, fun hd => (Function.update_of_ne hne _ _).trans hd⟩

/-- A write to a file that the name does not stand for. -/
theorem Holds.write (h : Holds fs t S) (hi : some i ∉ fs.possible t) (d : δ) :
    Holds (fs.write i d) t S := by
  refine h.congr rfl le_rfl fun j hj => ?_
  have hne : j ≠ i := fun heq => hi (heq ▸ hj)
  exact ⟨Function.update_of_ne hne _ _, fun hd => (Function.update_of_ne hne _ _).trans hd⟩

/-- Forcing a file changes no outcome. -/
theorem Holds.sync (h : Holds fs t S) (i : ℕ) : Holds (fs.sync i) t S := by
  refine h.congr rfl le_rfl fun j _ => ⟨rfl, fun hd => ?_⟩
  by_cases hij : j = i
  · subst hij
    exact fs.sync_durable j
  · exact (Function.update_of_ne hij _ _).trans hd

/-- The removal of another name. -/
theorem Holds.unlink (h : Holds fs t S) (hn : t ≠ n) : Holds (fs.unlink n) t S :=
  h.congr (possible_append rfl rfl rfl (if_neg hn)) le_rfl fun _ _ => ⟨rfl, id⟩

theorem Holds.remove (h : Holds fs t S) (hn : t ≠ n) (ok : Bool) : Holds (fs.remove n ok) t S := by
  rcases fs.remove_cases n ok with heq | heq <;> rw [heq]
  · exact h
  · exact h.unlink hn

/-- A rename among other names. -/
theorem Holds.renameOther {m : ν} (h : Holds fs t S) (hold : t ≠ n) (hnew : t ≠ m)
    (hr : fs.rename n m = some fs') : Holds fs' t S := by
  obtain ⟨j, -, rfl, -⟩ := Fs.rename_eq_some hr
  have hnone : (Change.rename n m j).sets t = none := (if_neg hnew).trans (if_neg hold)
  exact h.congr (possible_append rfl rfl rfl hnone) le_rfl fun _ _ => ⟨rfl, id⟩

/-- **Replacement.**  Once a file is forced, renaming it onto the name adds its content to what
the name may stand for. -/
theorem Holds.rename (h : Holds fs t S) (hlive : fs.live n = some i) (hi : i < fs.next)
    (hd : fs.durable i = true) (hr : fs.rename n t = some fs') :
    Holds fs' t (insert (some (fs.data i)) S) := by
  obtain ⟨j, hj, rfl, -⟩ := Fs.rename_eq_some hr
  obtain rfl : i = j := Option.some.inj (hlive.symm.trans hj)
  intro o ho
  have hcase : o ∈ fs.possible t ∨ o = some i := by
    rw [Fs.possible, List.filterMap_append, ← List.cons_append, List.mem_append] at ho
    refine ho.imp_right fun hlast => ?_
    rw [List.filterMap_cons_some (Change.sets_rename_new n t i)] at hlast
    exact List.mem_singleton.mp hlast
  rcases hcase with hold | rfl
  · exact ⟨Set.mem_insert_of_mem _ (h o hold).1, (h o hold).2⟩
  · refine ⟨Set.mem_insert _ _, fun j hj => ?_⟩
    cases hj
    exact ⟨hi, hd⟩

/-- **Forcing the directory.**  The name then stands for what processes see. -/
theorem Holds.syncDir (h : Holds fs t S) : Holds fs.syncDir t {fs.content t} := by
  intro o ho
  obtain rfl : o = fs.live t := List.mem_singleton.mp ho
  exact ⟨rfl, (h _ (fs.live_mem_possible t)).2⟩

/-! ## A file prepared beside a name -/

/-- A file under a name of its own, which no crash can put in the place of `t`. -/
structure Beside (fs : Fs ν δ) (t tmp : ν) (i : ℕ) : Prop where
  hidden : some i ∉ fs.possible t
  known : i < fs.next
  named : ∀ j, fs.live tmp = some j → j = i

variable {tmp : ν}

theorem Holds.beside (h : Holds fs t S) (hne : t ≠ tmp) (empty : δ) :
    Beside (fs.create tmp empty) t tmp fs.next := by
  refine ⟨?_, Nat.lt_succ_self _, fun j hj => ?_⟩
  · have hsame : (fs.create tmp empty).possible t = fs.possible t :=
      possible_append rfl rfl rfl (if_neg hne)
    rw [hsame]
    intro hmem
    exact absurd ((h _ hmem).2 _ rfl).1 (lt_irrefl _)
  · rw [Fs.live_create] at hj
    exact (Option.some.inj hj).symm

theorem Beside.write (b : Beside fs t tmp i) (d : δ) : Beside (fs.write i d) t tmp i :=
  ⟨b.hidden, b.known, b.named⟩

theorem Beside.sync (b : Beside fs t tmp i) : Beside (fs.sync i) t tmp i :=
  ⟨b.hidden, b.known, b.named⟩

/-- Another name is removed, or the file's own: it then stands for nothing. -/
theorem Beside.unlink (b : Beside fs t tmp i) (hn : t ≠ n) : Beside (fs.unlink n) t tmp i := by
  refine ⟨?_, b.known, fun j hj => ?_⟩
  · have hsame : (fs.unlink n).possible t = fs.possible t := possible_append rfl rfl rfl (if_neg hn)
    rw [hsame]
    exact b.hidden
  · rw [Fs.live_unlink] at hj
    split_ifs at hj
    exact b.named j hj

/-! ## Replacing a file -/

/-- How far the replacement of a file has come. -/
inductive Progress where
  | made
  | written
  | forced
  | renamed
  | settled

/-- The replacement of what `t` holds, one of `S`, by a file with the content `d`: it is made beside
`t`, written, forced and renamed onto `t`, and the directory is forced. -/
inductive Replacing (fs : Fs ν δ) (t tmp : ν) (i : ℕ) (d : δ) (S : Set (Option δ)) :
    Progress → Prop where
  | made (holds : Holds fs t S) (beside : Beside fs t tmp i) : Replacing fs t tmp i d S .made
  | written (holds : Holds fs t S) (beside : Beside fs t tmp i) (data : fs.data i = d) :
      Replacing fs t tmp i d S .written
  | forced (holds : Holds fs t S) (beside : Beside fs t tmp i) (data : fs.data i = d)
      (durable : fs.durable i = true) : Replacing fs t tmp i d S .forced
  | renamed (holds : Holds fs t (insert (some d) S)) (content : fs.content t = some d) :
      Replacing fs t tmp i d S .renamed
  | settled (holds : Holds fs t {some d}) : Replacing fs t tmp i d S .settled

namespace Replacing

variable {d : δ} {p : Progress}

/-- At every point the name stands for what it did or for the new content. -/
theorem holds (h : Replacing fs t tmp i d S p) : Holds fs t (insert (some d) S) := by
  cases h with
  | made holds _ => exact holds.mono (Set.subset_insert _ _)
  | written holds _ _ => exact holds.mono (Set.subset_insert _ _)
  | forced holds _ _ _ => exact holds.mono (Set.subset_insert _ _)
  | renamed holds _ => exact holds
  | settled holds => exact holds.mono (Set.singleton_subset_iff.mpr (Set.mem_insert _ _))

theorem mono (h : Replacing fs t tmp i d S p) (hST : S ⊆ T) : Replacing fs t tmp i d T p := by
  cases h with
  | made holds beside => exact .made (holds.mono hST) beside
  | written holds beside data => exact .written (holds.mono hST) beside data
  | forced holds beside data durable => exact .forced (holds.mono hST) beside data durable
  | renamed holds content => exact .renamed (holds.mono (Set.insert_subset_insert hST)) content
  | settled holds => exact .settled holds

theorem create (h : Holds fs t S) (hne : t ≠ tmp) (empty : δ) :
    Replacing (fs.create tmp empty) t tmp fs.next d S .made :=
  .made (h.create hne empty) (h.beside hne empty)

theorem write (h : Replacing fs t tmp i d S .made) :
    Replacing (fs.write i d) t tmp i d S .written := by
  cases h with
  | made holds beside =>
    exact .written (holds.write beside.hidden d) (beside.write d) (fs.write_data i d)

/-- A write that fails. -/
theorem tear (h : Replacing fs t tmp i d S .made) (torn : δ) : Holds (fs.write i torn) t S := by
  cases h with
  | made holds beside => exact holds.write beside.hidden torn

theorem sync (h : Replacing fs t tmp i d S .written) :
    Replacing (fs.sync i) t tmp i d S .forced := by
  cases h with
  | written holds beside data => exact .forced (holds.sync i) beside.sync data (fs.sync_durable i)

theorem rename (h : Replacing fs t tmp i d S .forced) (hr : fs.rename tmp t = some fs') :
    Replacing fs' t tmp i d S .renamed := by
  cases h with
  | forced holds beside data durable =>
    obtain ⟨j, hlive, hfs, hnew⟩ := Fs.rename_eq_some hr
    obtain rfl : j = i := beside.named j hlive
    refine .renamed (data ▸ holds.rename hlive beside.known durable hr) ?_
    rw [Fs.content, hnew, hfs, Option.map_some, data]

/-- Forcing the directory leaves the new content only. -/
theorem syncDir (h : Replacing fs t tmp i d S .renamed) :
    Replacing fs.syncDir t tmp i d S .settled := by
  cases h with
  | renamed holds content => exact .settled (content ▸ holds.syncDir)

/-- The removal of any other name, the temporary's own included. -/
theorem unlink (h : Replacing fs t tmp i d S p) (hn : t ≠ n) :
    Replacing (fs.unlink n) t tmp i d S p := by
  cases h with
  | made holds beside => exact .made (holds.unlink hn) (beside.unlink hn)
  | written holds beside data => exact .written (holds.unlink hn) (beside.unlink hn) data
  | forced holds beside data durable =>
    exact .forced (holds.unlink hn) (beside.unlink hn) data durable
  | renamed holds content =>
    refine .renamed (holds.unlink hn) ?_
    rw [Fs.content, Fs.live_unlink, if_neg hn]
    exact content
  | settled holds => exact .settled (holds.unlink hn)

end Replacing

end CrashFs
