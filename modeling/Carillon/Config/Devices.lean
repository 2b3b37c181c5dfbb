/-
# Refclock blocks and the devices they claim

`checkDeviceOwnership` in `config.go` goes over the refclock blocks and their device
paths, and reports a path whose device an earlier block has claimed.  It tells the
blocks apart by their names.  `Validate` makes the names of the logical sources unique,
and those are derived: a gps block `a` has the sources `a/nmea` and `a/pps`, a pps block `a`
has the source `a`.  So two blocks may have one name, and the check takes them for one.

What the check reports is exactly a device that blocks of two names claim
(`checkDeviceOwnership_iff`).  The device behind a path is a parameter: `none` where
`deviceIdentity` fails.
-/
import Mathlib.Data.List.Flatten
import Mathlib.Data.List.Nodup
import Mathlib.Logic.Basic

namespace Carillon.Config

/-! ## The blocks -/

/-- The `type` of a refclock, as it was written. -/
inductive RefclockType where
  | pps
  | gps
  | other (text : String)
  deriving DecidableEq

/-- What the two checks read of a `Refclock`. -/
structure Refclock where
  name : String
  type : RefclockType
  device : String
  pps : String
  deriving DecidableEq

/-- `HasPPS`. -/
def Refclock.hasPPS (r : Refclock) : Bool :=
  r.type = .pps || (r.type = .gps && r.pps ≠ "none")

/-- `SourceNames`: the logical sources of a block. -/
def Refclock.sourceNames (r : Refclock) : List String :=
  if r.type ≠ .gps then [r.name]
  else (r.name ++ "/nmea") :: if r.hasPPS then [r.name ++ "/pps"] else []

/-! ## Unique names -/

/-- A name that `Validate` reports. -/
inductive NameError where
  /-- "%s: duplicate name" -/
  | server (name : String)
  /-- "%s: duplicate name %q for logical source" -/
  | source (refclock name : String)
  deriving DecidableEq

/-- The servers' names; an empty one is reported as such. -/
def serverErrors (names : List String) : List String → List NameError
  | [] => []
  | n :: rest =>
    (if n ≠ "" ∧ n ∈ names then [.server n] else []) ++ serverErrors (n :: names) rest

/-- The names of the logical sources, each with the name of its block. -/
def sourceErrors (names : List String) : List (String × String) → List NameError
  | [] => []
  | (r, n) :: rest => (if n ∈ names then [.source r n] else []) ++ sourceErrors (n :: names) rest

/-- The logical sources of all blocks, in order. -/
def logicalSources (refclocks : List Refclock) : List (String × String) :=
  refclocks.flatMap fun r => r.sourceNames.map (r.name, ·)

/-- What `Validate` reports about the uniqueness of names. -/
def nameErrors (servers : List String) (refclocks : List Refclock) : List NameError :=
  serverErrors [] servers ++ sourceErrors servers.reverse (logicalSources refclocks)

/-! ## Ownership of devices -/

/-- `deviceUse`: the block's name, the key and the path. -/
structure DeviceUse where
  refclock : String
  key : String
  path : String
  deriving DecidableEq

/-- "refclock %q: %s %s is the same device as refclock %q %s (%s); two refclocks cannot
share it" -/
structure SharedError where
  use : DeviceUse
  prev : DeviceUse
  deriving DecidableEq

/-- What a block claims, in order. -/
def Refclock.uses (r : Refclock) : List DeviceUse :=
  ⟨r.name, "device", r.device⟩ :: if r.type = .gps then [⟨r.name, "pps", r.pps⟩] else []

/-- `filepath.IsAbs`. -/
def isAbs (path : String) : Bool := path.toList.head? = some '/'

section Ownership

variable {ι : Type} [DecidableEq ι] (identity : String → Option ι)

/-- The device of a claim, if the path is one. -/
def DeviceUse.device? (u : DeviceUse) : Option ι :=
  if u.path = "" ∨ isAbs u.path = false then none else identity u.path

/-- The claims one after the other, with the owners found so far. -/
def claimErrors (owners : List (ι × DeviceUse)) : List DeviceUse → List SharedError
  | [] => []
  | u :: rest =>
    match u.device? identity with
    | none => claimErrors owners rest
    | some id =>
      match owners.lookup id with
      | none => claimErrors ((id, u) :: owners) rest
      | some prev =>
        if prev.refclock = u.refclock then claimErrors owners rest
        else ⟨u, prev⟩ :: claimErrors owners rest

/-- `checkDeviceOwnership`. -/
def checkDeviceOwnership (refclocks : List Refclock) : List SharedError :=
  claimErrors identity [] (refclocks.flatMap Refclock.uses)

/-- A block claims the device. -/
def Refclock.Claims (r : Refclock) (id : ι) : Prop := ∃ u ∈ r.uses, u.device? identity = some id

/-- Two blocks claim a device in common. -/
def Share (a b : Refclock) : Prop := ∃ id, a.Claims identity id ∧ b.Claims identity id

/-! ## What the check reports -/

/-- A use of the device, still to come or already recorded. -/
def Claimant (owners : List (ι × DeviceUse)) (uses : List DeviceUse) (id : ι) (u : DeviceUse) :
    Prop :=
  (u ∈ uses ∧ u.device? identity = some id) ∨ owners.lookup id = some u

/-- A device with claimants of two names. -/
def Clash (owners : List (ι × DeviceUse)) (uses : List DeviceUse) : Prop :=
  ∃ id u v, Claimant identity owners uses id u ∧ Claimant identity owners uses id v ∧
    u.refclock ≠ v.refclock

variable {identity}

/-- A claim that names no device is no claimant. -/
theorem claimant_skip {owners : List (ι × DeviceUse)} {u : DeviceUse} {rest : List DeviceUse}
    (hu : u.device? identity = none) (id : ι) (v : DeviceUse) :
    Claimant identity owners (u :: rest) id v ↔ Claimant identity owners rest id v := by
  refine or_congr_left (and_congr_left fun hv => ?_)
  rw [List.mem_cons, or_iff_right]
  rintro rfl
  cases hu.symm.trans hv

/-- A new owner is a claimant as before. -/
theorem claimant_record {owners : List (ι × DeviceUse)} {u : DeviceUse} {rest : List DeviceUse}
    {id : ι} (hu : u.device? identity = some id) (hfree : owners.lookup id = none)
    (id' : ι) (v : DeviceUse) :
    Claimant identity owners (u :: rest) id' v ↔
      Claimant identity ((id, u) :: owners) rest id' v := by
  unfold Claimant
  by_cases hid : id' = id
  · subst hid
    rw [List.lookup_cons_self, hfree, List.mem_cons]
    constructor
    · rintro (⟨rfl | hmem, hv⟩ | hnone)
      · exact .inr rfl
      · exact .inl ⟨hmem, hv⟩
      · cases hnone
    · rintro (⟨hmem, hv⟩ | hsame)
      · exact .inl ⟨.inr hmem, hv⟩
      · cases hsame
        exact .inl ⟨.inl rfl, hu⟩
  · have hlookup : List.lookup id' ((id, u) :: owners) = owners.lookup id' := by
      rw [List.lookup_cons, beq_false_of_ne hid]
    rw [hlookup, List.mem_cons]
    refine or_congr_left (and_congr_left fun hv => or_iff_right ?_)
    rintro rfl
    exact hid (Option.some.inj (hv.symm.trans hu))

/-- A claim of an owned device under the owner's name adds nothing. -/
theorem clash_same {owners : List (ι × DeviceUse)} {u prev : DeviceUse} {rest : List DeviceUse}
    {id : ι} (hu : u.device? identity = some id) (howner : owners.lookup id = some prev)
    (hname : prev.refclock = u.refclock) :
    Clash identity owners (u :: rest) ↔ Clash identity owners rest := by
  -- every claimant has one of the same name without the claim
  have hless : ∀ id' v, Claimant identity owners (u :: rest) id' v →
      ∃ w, Claimant identity owners rest id' w ∧ w.refclock = v.refclock := by
    rintro id' v (⟨hmem, hv⟩ | hlookup)
    · obtain rfl | hmem := List.mem_cons.mp hmem
      · cases hu.symm.trans hv
        exact ⟨prev, .inr howner, hname⟩
      · exact ⟨v, .inl ⟨hmem, hv⟩, rfl⟩
    · exact ⟨v, .inr hlookup, rfl⟩
  constructor
  · rintro ⟨id', v, w, hv, hw, hne⟩
    obtain ⟨v', hv', hvname⟩ := hless id' v hv
    obtain ⟨w', hw', hwname⟩ := hless id' w hw
    refine ⟨id', v', w', hv', hw', ?_⟩
    rwa [hvname, hwname]
  · rintro ⟨id', v, w, hv, hw, hne⟩
    refine ⟨id', v, w, hv.imp_left ?_, hw.imp_left ?_, hne⟩
    · exact And.imp_left (List.mem_cons_of_mem u)
    · exact And.imp_left (List.mem_cons_of_mem u)

/-- **The loop reports something exactly if a device has claimants of two names.** -/
theorem claimErrors_ne_nil (owners : List (ι × DeviceUse)) (uses : List DeviceUse) :
    claimErrors identity owners uses ≠ [] ↔ Clash identity owners uses := by
  induction uses generalizing owners with
  | nil =>
      refine iff_of_false (not_not.mpr rfl) ?_
      rintro ⟨id, u, v, hu, hv, hne⟩
      obtain ⟨hmem, -⟩ | hu := hu
      · cases hmem
      obtain ⟨hmem, -⟩ | hv := hv
      · cases hmem
      cases hu.symm.trans hv
      exact hne rfl
  | cons u rest ih =>
      unfold claimErrors
      cases hu : u.device? identity with
      | none =>
          dsimp only
          rw [ih, Clash, Clash]
          simp only [claimant_skip hu]
      | some id =>
          dsimp only
          cases howner : owners.lookup id with
          | none =>
              dsimp only
              rw [ih, Clash, Clash]
              simp only [claimant_record hu howner]
          | some prev =>
              dsimp only
              by_cases hname : prev.refclock = u.refclock
              · rw [if_pos hname, ih, clash_same hu howner hname]
              · rw [if_neg hname]
                refine iff_of_true (List.cons_ne_nil _ _) ?_
                exact ⟨id, prev, u, .inr howner, .inl ⟨List.mem_cons_self, hu⟩, hname⟩

/-! ## Blocks that share a device -/

theorem uses_refclock {r : Refclock} {u : DeviceUse} (hu : u ∈ r.uses) : u.refclock = r.name := by
  unfold Refclock.uses at hu
  obtain rfl | hpps := List.mem_cons.mp hu
  · rfl
  · split_ifs at hpps
    · rw [List.mem_singleton.mp hpps]
    · cases hpps

/-- **What the check reports**: blocks of two names that share a device. -/
theorem checkDeviceOwnership_iff (refclocks : List Refclock) :
    checkDeviceOwnership identity refclocks ≠ [] ↔
      ∃ a ∈ refclocks, ∃ b ∈ refclocks, a.name ≠ b.name ∧ Share identity a b := by
  rw [checkDeviceOwnership, claimErrors_ne_nil]
  constructor
  · rintro ⟨id, u, v, ⟨hu, hud⟩ | hu, ⟨hv, hvd⟩ | hv, hne⟩
    · obtain ⟨a, ha, hua⟩ := List.mem_flatMap.mp hu
      obtain ⟨b, hb, hvb⟩ := List.mem_flatMap.mp hv
      refine ⟨a, ha, b, hb, ?_, id, ⟨u, hua, hud⟩, ⟨v, hvb, hvd⟩⟩
      rwa [← uses_refclock hua, ← uses_refclock hvb]
    · cases hv
    · cases hu
    · cases hu
  · rintro ⟨a, ha, b, hb, hne, id, ⟨u, hua, hud⟩, ⟨v, hvb, hvd⟩⟩
    refine ⟨id, u, v, .inl ⟨List.mem_flatMap.mpr ⟨a, ha, hua⟩, hud⟩,
      .inl ⟨List.mem_flatMap.mpr ⟨b, hb, hvb⟩, hvd⟩, ?_⟩
    rwa [uses_refclock hua, uses_refclock hvb]

end Ownership

/-! ## Two notions of name -/

theorem sourceErrors_eq_nil (names : List String) (l : List (String × String)) :
    sourceErrors names l = [] ↔ (∀ e ∈ l, e.2 ∉ names) ∧ (l.map Prod.snd).Nodup := by
  induction l generalizing names with
  | nil => simp [sourceErrors]
  | cons e l ih =>
      obtain ⟨r, n⟩ := e
      have hhead : (if n ∈ names then [NameError.source r n] else []) = [] ↔ n ∉ names := by
        split_ifs with hn <;> simp [hn]
      have hrest : (∀ x ∈ l, x.2 ∉ n :: names) ↔
          (∀ x ∈ l, x.2 ∉ names) ∧ n ∉ l.map Prod.snd := by
        simp only [List.mem_cons, not_or, List.mem_map, not_exists, not_and]
        constructor
        · intro h
          exact ⟨fun x hx => (h x hx).2, fun x hx => (h x hx).1⟩
        · intro h x hx
          exact ⟨h.2 x hx, h.1 x hx⟩
      rw [sourceErrors, List.append_eq_nil_iff, hhead, ih, hrest, List.map_cons, List.nodup_cons,
        List.forall_mem_cons, and_assoc, and_assoc]

/-- The logical names of the blocks are pairwise distinct. -/
theorem sourceNames_disjoint {servers : List String} {refclocks : List Refclock}
    (h : nameErrors servers refclocks = []) :
    refclocks.Pairwise fun a b => a.sourceNames.Disjoint b.sourceNames := by
  have hsources := (List.append_eq_nil_iff.mp h).2
  have hnodup := ((sourceErrors_eq_nil _ _).mp hsources).2
  have hmap : (logicalSources refclocks).map Prod.snd = refclocks.flatMap Refclock.sourceNames := by
    unfold logicalSources
    rw [List.map_flatMap]
    simp [Function.comp_def]
  rw [hmap, List.nodup_flatMap] at hnodup
  exact hnodup.2

/-- So two blocks of one name are a gps block and another. -/
theorem type_ne_of_disjoint {a b : Refclock} (h : a.sourceNames.Disjoint b.sourceNames)
    (hname : a.name = b.name) : a.type = .gps ↔ b.type ≠ .gps := by
  have hgps : ∀ r : Refclock, r.type = .gps → r.name ++ "/nmea" ∈ r.sourceNames := by
    intro r hr
    rw [Refclock.sourceNames, if_neg (not_not.mpr hr)]
    exact List.mem_cons_self
  have hother : ∀ r : Refclock, r.type ≠ .gps → r.name ∈ r.sourceNames := by
    intro r hr
    rw [Refclock.sourceNames, if_pos hr]
    exact List.mem_cons_self
  constructor
  · intro ha hb
    have hb' := hgps b hb
    rw [← hname] at hb'
    exact h (hgps a ha) hb'
  · intro hb
    by_contra ha
    have hb' := hother b hb
    rw [← hname] at hb'
    exact h (hother a ha) hb'

section Sharing

variable {ι : Type} (identity : String → Option ι)

/-- Two blocks, by their places in the list, share a device. -/
def BlocksShare (refclocks : List Refclock) : Prop :=
  ∃ (i j : ℕ) (a b : Refclock), i ≠ j ∧ refclocks[i]? = some a ∧ refclocks[j]? = some b ∧
    Share identity a b

/-- A gps block and another of the same name share a device. -/
def NamesakesShare (refclocks : List Refclock) : Prop :=
  ∃ a ∈ refclocks, ∃ b ∈ refclocks,
    a.type = .gps ∧ b.type ≠ .gps ∧ a.name = b.name ∧ Share identity a b

/-- Blocks of two names share a device. -/
def OthersShare (refclocks : List Refclock) : Prop :=
  ∃ a ∈ refclocks, ∃ b ∈ refclocks, a.name ≠ b.name ∧ Share identity a b

variable {identity}

theorem Share.symm {a b : Refclock} (h : Share identity a b) : Share identity b a :=
  h.imp fun _ hid => hid.symm

/-- Different blocks of the list have different places. -/
theorem blocksShare_of_ne {refclocks : List Refclock} {a b : Refclock} (ha : a ∈ refclocks)
    (hb : b ∈ refclocks) (hne : a ≠ b) (hshare : Share identity a b) :
    BlocksShare identity refclocks := by
  obtain ⟨i, hi⟩ := List.mem_iff_getElem?.mp ha
  obtain ⟨j, hj⟩ := List.mem_iff_getElem?.mp hb
  refine ⟨i, j, a, b, ?_, hi, hj, hshare⟩
  rintro rfl
  exact hne (Option.some.inj (hi.symm.trans hj))

/-- Blocks that share a device have two names, or are a gps block and a namesake. -/
theorem blocksShare_iff {servers : List String} {refclocks : List Refclock}
    (h : nameErrors servers refclocks = []) :
    BlocksShare identity refclocks ↔
      OthersShare identity refclocks ∨ NamesakesShare identity refclocks := by
  constructor
  · rintro ⟨i, j, a, b, hij, hi, hj, hshare⟩
    obtain ⟨hilt, rfl⟩ := List.getElem?_eq_some_iff.mp hi
    obtain ⟨hjlt, rfl⟩ := List.getElem?_eq_some_iff.mp hj
    by_cases hname : refclocks[i].name = refclocks[j].name
    · have hdisjoint : refclocks[i].sourceNames.Disjoint refclocks[j].sourceNames := by
        have hpairs := List.pairwise_iff_getElem.mp (sourceNames_disjoint h)
        obtain hlt | hgt := Nat.lt_or_gt_of_ne hij
        · exact hpairs i j hilt hjlt hlt
        · exact fun x hx hy => hpairs j i hjlt hilt hgt hy hx
      have htypes := type_ne_of_disjoint hdisjoint hname
      right
      by_cases hgps : refclocks[i].type = .gps
      · exact ⟨_, List.getElem_mem hilt, _, List.getElem_mem hjlt, hgps, htypes.mp hgps, hname,
          hshare⟩
      · exact ⟨_, List.getElem_mem hjlt, _, List.getElem_mem hilt, not_not.mp (hgps ∘ htypes.mpr),
          hgps, hname.symm, hshare.symm⟩
    · exact .inl ⟨_, List.getElem_mem hilt, _, List.getElem_mem hjlt, hname, hshare⟩
  · rintro (⟨a, ha, b, hb, hname, hshare⟩ | ⟨a, ha, b, hb, hgps, hother, -, hshare⟩)
    · exact blocksShare_of_ne ha hb (fun hab => hname (congrArg Refclock.name hab)) hshare
    · exact blocksShare_of_ne ha hb (fun hab => hother (hab ▸ hgps)) hshare

/-- **Device ownership.**  For blocks with unique logical names, the check reports an error
exactly if two blocks share a device, if and only if a gps block and a namesake share
one only where blocks of two names do as well. -/
theorem checkDeviceOwnership_exact_iff [DecidableEq ι] (identity : String → Option ι)
    (servers : List String) (refclocks : List Refclock)
    (hnames : nameErrors servers refclocks = []) :
    (checkDeviceOwnership identity refclocks ≠ [] ↔ BlocksShare identity refclocks) ↔
      (NamesakesShare identity refclocks → OthersShare identity refclocks) := by
  have hcheck : checkDeviceOwnership identity refclocks ≠ [] ↔ OthersShare identity refclocks :=
    checkDeviceOwnership_iff refclocks
  rw [hcheck, blocksShare_iff hnames]
  constructor
  · intro h hsame
    exact h.mpr (.inr hsame)
  · intro h
    exact ⟨.inl, fun hshare => hshare.elim id h⟩

end Sharing

/-- A gps receiver and a pps block on its device, both named "a". -/
def namesakes : List Refclock :=
  [⟨"a", .gps, "/dev/ttyS0", "none"⟩, ⟨"a", .pps, "/dev/ttyS0", ""⟩]

/-- Their logical sources are `a/nmea` and `a`, and the check takes them for one block. -/
theorem checkDeviceOwnership_namesakes :
    nameErrors [] namesakes = [] ∧ BlocksShare some namesakes ∧
      checkDeviceOwnership some namesakes = [] := by
  refine ⟨by decide, ?_, by decide⟩
  refine ⟨0, 1, _, _, by decide, rfl, rfl, "/dev/ttyS0", ?_, ?_⟩
  · exact ⟨⟨"a", "device", "/dev/ttyS0"⟩, by decide, by decide⟩
  · exact ⟨⟨"a", "device", "/dev/ttyS0"⟩, by decide, by decide⟩

/-- The same blocks with two names. -/
def named : List Refclock :=
  [⟨"gps0", .gps, "/dev/ttyS0", "none"⟩, ⟨"pps0", .pps, "/dev/ttyS0", ""⟩]

theorem checkDeviceOwnership_exact_iff_named :
    (checkDeviceOwnership some named ≠ [] ↔ BlocksShare some named) ↔
      (NamesakesShare some named → OthersShare some named) :=
  checkDeviceOwnership_exact_iff some [] named (by decide)

end Carillon.Config
