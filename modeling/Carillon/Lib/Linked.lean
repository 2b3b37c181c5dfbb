/-
# A map and a list over the same nodes

A table whose nodes are found in two ways: by their key, through a map, and by their place,
through a list.  Both hold addresses of nodes, and a node knows its own element of the list, so
that it can be moved or taken out without a search.

`Coherent` says that the map and the list hold the same nodes, each of them once and under its
own key.  A coherent table stands for the list of its nodes (`nodes`), and every operation is an
operation on that list:

* `nodes_remove` : a node is taken out;
* `coherent_pushFront`, `nodes_pushFront` : a node comes in at the front;
* `nodes_assign` : a node is overwritten;
* `nodes_moveToFront` : a node moves to the front.
-/
import Mathlib.Data.List.AList
import Mathlib.Logic.Function.Basic

namespace Linked

/-- An element of the list, with the address of the node that it carries. -/
structure Element where
  id : ℕ
  node : ℕ
  deriving DecidableEq

/-- A table: the nodes, each with the element it has in the list, the map and the list. -/
structure Table (κ β : Type*) where
  store : ℕ → Option (β × ℕ)
  index : AList fun _ : κ => ℕ
  list : List Element
  next : ℕ

variable {κ β : Type*} [DecidableEq κ] (key : β → κ)

namespace Table

def empty : Table κ β := ⟨fun _ => none, ∅, [], 0⟩

/-- The node at an address. -/
def load (t : Table κ β) (p : ℕ) : Option β := (t.store p).map Prod.fst

/-- The node of the last element. -/
def back (t : Table κ β) : Option ℕ := t.list.getLast?.map Element.node

/-- The node at `p` is deleted from the map and its element removed from the list. -/
def remove (t : Table κ β) (p : ℕ) : Option (Table κ β) :=
  (t.store p).map fun n =>
    { t with index := t.index.erase (key n.1), list := t.list.filter fun e => e.id ≠ n.2 }

/-- A new node, with a new element at the front, filed under its key. -/
def pushFront (t : Table κ β) (b : β) : Table κ β where
  store := Function.update t.store t.next (some (b, t.next))
  index := t.index.insert (key b) t.next
  list := ⟨t.next, t.next⟩ :: t.list
  next := t.next + 1

/-- The node at `p` is overwritten. -/
def assign (t : Table κ β) (p : ℕ) (b : β) : Option (Table κ β) :=
  (t.store p).map fun n => { t with store := Function.update t.store p (some (b, n.2)) }

/-- The element of the node at `p` moves to the front, if the list has it. -/
def moveToFront (t : Table κ β) (p : ℕ) : Option (Table κ β) :=
  (t.store p).map fun n =>
    match t.list.find? fun e => e.id = n.2 with
    | none => t
    | some e => { t with list := e :: t.list.filter fun e => e.id ≠ n.2 }

/-- The nodes in the order of the list. -/
def nodes (t : Table κ β) : List β := t.list.filterMap fun e => t.load e.node

end Table

/-- The map and the list hold the same nodes, each once and under its own key. -/
structure Coherent (t : Table κ β) : Prop where
  ids : (t.list.map Element.id).Nodup
  own : ∀ e ∈ t.list, ∃ b, t.store e.node = some (b, e.id)
  index : ∀ k p, t.index.lookup k = some p ↔
    ∃ e ∈ t.list, e.node = p ∧ ∃ b, t.store p = some (b, e.id) ∧ key b = k
  fresh : ∀ e ∈ t.list, e.id < t.next ∧ e.node < t.next

variable {key} {t t' : Table κ β} {k : κ} {p : ℕ} {b b' : β}

/-! ## Lists with keys -/

variable {bs : List β}

/-- The last one is taken out by its key. -/
theorem filter_concat (h : ((bs ++ [b]).map key).Nodup) :
    ((bs ++ [b]).filter fun c => key c ≠ key b) = bs := by
  rw [List.map_append, List.nodup_append] at h
  have hkeep : (bs.filter fun c => key c ≠ key b) = bs := by
    refine List.filter_eq_self.mpr fun c hc => decide_eq_true ?_
    exact h.2.2 (key c) (List.mem_map_of_mem hc) (key b) (by simp)
  rw [List.filter_append, hkeep]
  simp

/-- There is one to take out at most. -/
theorem eraseP_eq_filter (h : (bs.map key).Nodup) (k : κ) :
    bs.eraseP (fun c => key c == k) = bs.filter fun c => key c ≠ k := by
  induction bs with
  | nil => rfl
  | cons c bs ih =>
    obtain ⟨hnot, hnodup⟩ := List.nodup_cons.mp h
    by_cases hc : key c = k
    · have hkeep : (bs.filter fun d => key d ≠ k) = bs := by
        refine List.filter_eq_self.mpr fun d hd => decide_eq_true ?_
        rintro rfl
        exact hnot (hc ▸ List.mem_map_of_mem hd)
      rw [List.eraseP_cons_of_pos (by simpa using hc), List.filter_cons_of_neg (by simpa using hc),
        hkeep]
    · rw [List.eraseP_cons_of_neg (by simpa using hc), List.filter_cons_of_pos (by simpa using hc),
        ih hnodup]

theorem map_overwrite_of_notMem (h : k ∉ bs.map key) :
    bs.map (fun c => if key c = k then b else c) = bs := by
  have hsame : ∀ c ∈ bs, (if key c = k then b else c) = c := by
    intro c hc
    rw [if_neg]
    rintro rfl
    exact h (List.mem_map_of_mem hc)
  rw [List.map_congr_left hsame, List.map_id']

/-- What is overwritten keeps its key. -/
theorem filter_overwrite (hb : key b = k) (bs : List β) :
    ((bs.map fun c => if key c = k then b else c).filter fun c => key c ≠ k) =
      bs.filter fun c => key c ≠ k := by
  induction bs with
  | nil => rfl
  | cons c bs ih =>
    by_cases hc : key c = k
    · rw [List.map_cons, if_pos hc, List.filter_cons_of_neg (by simpa using hb),
        List.filter_cons_of_neg (by simpa using hc), ih]
    · rw [List.map_cons, if_neg hc, List.filter_cons_of_pos (by simpa using hc),
        List.filter_cons_of_pos (by simpa using hc), ih]

/-! ## Coherent tables -/

omit [DecidableEq κ] in
theorem load_of_store {i : ℕ} (h : t.store p = some (b, i)) : t.load p = some b := by
  rw [Table.load, h, Option.map_some]

theorem coherent_empty : Coherent key (Table.empty : Table κ β) where
  ids := List.nodup_nil
  own e he := absurd he List.not_mem_nil
  index k p := by
    constructor
    · intro h
      rw [Table.empty, AList.lookup_empty] at h
      cases h
    · rintro ⟨e, he, -⟩
      exact absurd he List.not_mem_nil
  fresh e he := absurd he List.not_mem_nil

namespace Coherent

/-- An element is known by its number. -/
theorem eq_of_id (h : Coherent key t) {e f : Element} (he : e ∈ t.list) (hf : f ∈ t.list)
    (hid : e.id = f.id) : e = f :=
  List.inj_on_of_nodup_map h.ids he hf hid

/-- A node is known by its key. -/
theorem eq_of_key (h : Coherent key t) {e f : Element} (he : e ∈ t.list) (hf : f ∈ t.list)
    (hb : t.store e.node = some (b, e.id)) (hb' : t.store f.node = some (b', f.id))
    (hkey : key b = key b') : e = f := by
  have hlookup := (h.index (key b) e.node).mpr ⟨e, he, rfl, b, hb, rfl⟩
  have hlookup' := (h.index (key b) f.node).mpr ⟨f, hf, rfl, b', hb', hkey.symm⟩
  have hnode : e.node = f.node := Option.some.inj (hlookup.symm.trans hlookup')
  rw [hnode, hb', Option.some.injEq, Prod.mk.injEq] at hb
  exact h.eq_of_id he hf hb.2.symm

theorem mem_nodes (h : Coherent key t) :
    b ∈ t.nodes ↔ ∃ e ∈ t.list, t.store e.node = some (b, e.id) := by
  unfold Table.nodes Table.load
  rw [List.mem_filterMap]
  constructor
  · rintro ⟨e, he, hload⟩
    obtain ⟨c, hc⟩ := h.own e he
    rw [hc, Option.map_some, Option.some.injEq] at hload
    subst hload
    exact ⟨e, he, hc⟩
  · rintro ⟨e, he, hb⟩
    exact ⟨e, he, load_of_store hb⟩

/-- What the map finds. -/
theorem lookup_some (h : Coherent key t) (hk : t.index.lookup k = some p) :
    ∃ b i, t.store p = some (b, i) ∧ key b = k ∧ b ∈ t.nodes ∧ ⟨i, p⟩ ∈ t.list := by
  obtain ⟨e, he, rfl, b, hb, hkey⟩ := (h.index k p).mp hk
  exact ⟨b, e.id, hb, hkey, h.mem_nodes.mpr ⟨e, he, hb⟩, he⟩

theorem lookup_none (h : Coherent key t) :
    t.index.lookup k = none ↔ ∀ b ∈ t.nodes, key b ≠ k := by
  constructor
  · intro hnone b hb hkey
    obtain ⟨e, he, hstore⟩ := h.mem_nodes.mp hb
    rw [(h.index k e.node).mpr ⟨e, he, rfl, b, hstore, hkey⟩] at hnone
    cases hnone
  · intro hne
    cases hk : t.index.lookup k with
    | none => rfl
    | some p =>
      obtain ⟨b, -, -, hkey, hb, -⟩ := h.lookup_some hk
      exact absurd hkey (hne b hb)

/-- The list of nodes with one key fewer, seen through the elements. -/
theorem nodes_filter (h : Coherent key t) {e : Element} (he : e ∈ t.list)
    (hb : t.store e.node = some (b, e.id)) :
    (t.list.filter fun f => f.id ≠ e.id).filterMap (fun f => t.load f.node) =
      t.nodes.filter fun c => key c ≠ key b := by
  unfold Table.nodes
  rw [List.filterMap_filter, List.filter_filterMap]
  refine List.filterMap_congr fun f hf => ?_
  obtain ⟨c, hc⟩ := h.own f hf
  have hload : t.load f.node = some c := load_of_store hc
  have hiff : f.id = e.id ↔ key c = key b := by
    constructor
    · intro hid
      rw [h.eq_of_id hf he hid, hb] at hc
      cases hc
      rfl
    · intro hkey
      rw [h.eq_of_key hf he hc hb hkey]
  rw [hload, Option.filter_some]
  by_cases hid : f.id = e.id
  · simp [hid, hiff.mp hid]
  · simp [hid, mt hiff.mpr hid]

/-- No two nodes have the same key. -/
theorem nodup_keys (h : Coherent key t) : (t.nodes.map key).Nodup := by
  have hlist : t.list.Nodup := List.Nodup.of_map _ h.ids
  unfold Table.nodes
  rw [List.map_filterMap]
  refine List.pairwise_filterMap.mpr (hlist.imp_of_mem ?_)
  rintro e f he hf hne k hk k' hk' rfl
  obtain ⟨b, hb⟩ := h.own e he
  obtain ⟨c, hc⟩ := h.own f hf
  rw [load_of_store hb, Option.map_some, Option.some.injEq] at hk
  rw [load_of_store hc, Option.map_some, Option.some.injEq] at hk'
  exact hne (h.eq_of_key he hf hb hc (hk.trans hk'.symm))

theorem length_nodes (h : Coherent key t) : t.nodes.length = t.list.length := by
  unfold Table.nodes
  rw [List.filterMap_length_eq_length]
  intro e he
  obtain ⟨b, hb⟩ := h.own e he
  rw [load_of_store hb]
  rfl

/-- The list has every node once. -/
theorem nodup_addresses (h : Coherent key t) : (t.list.map Element.node).Nodup := by
  refine (List.Nodup.of_map _ h.ids).map_on ?_
  intro e he f hf hnode
  obtain ⟨b, hb⟩ := h.own e he
  obtain ⟨c, hc⟩ := h.own f hf
  rw [hnode, hc, Option.some.injEq, Prod.mk.injEq] at hb
  exact h.eq_of_id he hf hb.2.symm

/-- The map holds the nodes of the list. -/
theorem index_perm (h : Coherent key t) :
    (t.index.entries.map Sigma.snd).Perm (t.list.map Element.node) := by
  refine (List.perm_ext_iff_of_nodup ?_ ?_).mpr ?_
  · -- an address is filed under one key only
    refine (List.Nodup.of_map _ t.index.nodupKeys).map_on ?_
    rintro ⟨k, p⟩ hk ⟨k', p'⟩ hk' hp
    cases hp
    obtain ⟨b, i, hb, rfl, -⟩ := h.lookup_some (AList.mem_lookup_iff.mpr hk)
    obtain ⟨c, j, hc, rfl, -⟩ := h.lookup_some (AList.mem_lookup_iff.mpr hk')
    rw [hb] at hc
    cases hc
    rfl
  · exact h.nodup_addresses
  · intro p
    constructor
    · intro hp
      obtain ⟨⟨k, q⟩, hk, rfl⟩ := List.mem_map.mp hp
      obtain ⟨-, i, -, -, -, he⟩ := h.lookup_some (AList.mem_lookup_iff.mpr hk)
      exact List.mem_map.mpr ⟨_, he, rfl⟩
    · intro hp
      obtain ⟨e, he, rfl⟩ := List.mem_map.mp hp
      obtain ⟨b, hb⟩ := h.own e he
      have hlookup := (h.index (key b) e.node).mpr ⟨e, he, rfl, b, hb, rfl⟩
      exact List.mem_map.mpr ⟨⟨key b, e.node⟩, AList.mem_lookup_iff.mp hlookup, rfl⟩

/-! ## The operations -/

/-- A node is taken out. -/
theorem nodes_remove (h : Coherent key t) (hk : t.index.lookup k = some p) :
    ∃ t', t.remove key p = some t' ∧ Coherent key t' ∧
      t'.nodes = t.nodes.filter fun b => key b ≠ k := by
  obtain ⟨b, i, hb, rfl, -, he⟩ := h.lookup_some hk
  refine ⟨{ t with index := t.index.erase (key b), list := t.list.filter fun e => e.id ≠ i },
    by rw [Table.remove, hb, Option.map_some], ?_, h.nodes_filter he hb⟩
  constructor
  · exact h.ids.sublist (List.filter_sublist.map _)
  · intro e he
    exact h.own e (List.mem_of_mem_filter he)
  · intro k' p'
    dsimp only
    constructor
    · intro hlookup
      have hne : k' ≠ key b := by
        rintro rfl
        rw [AList.lookup_erase] at hlookup
        cases hlookup
      rw [AList.lookup_erase_ne hne] at hlookup
      obtain ⟨f, hf, rfl, c, hc, rfl⟩ := (h.index k' p').mp hlookup
      refine ⟨f, List.mem_filter.mpr ⟨hf, ?_⟩, rfl, c, hc, rfl⟩
      refine decide_eq_true fun hid => hne ?_
      rw [h.eq_of_id hf he hid, hb] at hc
      cases hc
      rfl
    · rintro ⟨f, hf, rfl, c, hc, rfl⟩
      obtain ⟨hf, hid⟩ := List.mem_filter.mp hf
      have hne : key c ≠ key b := by
        intro hkey
        have heq := h.eq_of_key hf he hc hb hkey
        simp [heq] at hid
      rw [AList.lookup_erase_ne hne]
      exact (h.index (key c) f.node).mpr ⟨f, hf, rfl, c, hc, rfl⟩
  · intro e he
    exact h.fresh e (List.mem_of_mem_filter he)

/-- The new node, at its own address. -/
theorem store_pushFront_next (t : Table κ β) (b : β) :
    (t.pushFront key b).store t.next = some (b, t.next) :=
  Function.update_self _ _ _

theorem store_pushFront (h : Coherent key t) (b : β) {e : Element} (he : e ∈ t.list) :
    (t.pushFront key b).store e.node = t.store e.node :=
  Function.update_of_ne (ne_of_lt (h.fresh e he).2) _ _

theorem lookup_pushFront (t : Table κ β) (b : β) :
    (t.pushFront key b).index.lookup (key b) = some t.next :=
  AList.lookup_insert _

/-- The map has the new node under its key, and the others as before. -/
theorem index_pushFront (h : Coherent key t) (hk : t.index.lookup (key b) = none) (k : κ) (p : ℕ) :
    (t.pushFront key b).index.lookup k = some p ↔ ∃ e ∈ (t.pushFront key b).list, e.node = p ∧
      ∃ c, (t.pushFront key b).store p = some (c, e.id) ∧ key c = k := by
  have hnew : (t.pushFront key b).store t.next = some (b, t.next) := store_pushFront_next t b
  by_cases hkey : k = key b
  · subst hkey
    rw [lookup_pushFront, Option.some.injEq]
    constructor
    · rintro rfl
      exact ⟨_, List.mem_cons_self, rfl, b, hnew, rfl⟩
    · rintro ⟨e, he, rfl, c, hc, hkey⟩
      rcases List.mem_cons.mp he with rfl | he
      · rfl
      · rw [h.store_pushFront b he] at hc
        rw [(h.index (key b) e.node).mpr ⟨e, he, rfl, c, hc, hkey⟩] at hk
        cases hk
  · have hsame : (t.pushFront key b).index.lookup k = t.index.lookup k :=
      AList.lookup_insert_ne hkey
    rw [hsame, h.index k p]
    constructor
    · rintro ⟨e, he, rfl, c, hc, hck⟩
      exact ⟨e, List.mem_cons_of_mem _ he, rfl, c, (h.store_pushFront b he).trans hc, hck⟩
    · rintro ⟨e, he, rfl, c, hc, hck⟩
      rcases List.mem_cons.mp he with rfl | he
      · rw [hnew] at hc
        cases hc
        exact absurd hck.symm hkey
      · exact ⟨e, he, rfl, c, (h.store_pushFront b he).symm.trans hc, hck⟩

theorem coherent_pushFront (h : Coherent key t) (hk : t.index.lookup (key b) = none) :
    Coherent key (t.pushFront key b) := by
  constructor
  · refine List.nodup_cons.mpr ⟨?_, h.ids⟩
    intro hmem
    obtain ⟨e, he, hid⟩ := List.mem_map.mp hmem
    exact absurd hid (ne_of_lt (h.fresh e he).1)
  · intro e he
    rcases List.mem_cons.mp he with rfl | he
    · exact ⟨b, store_pushFront_next t b⟩
    · rw [h.store_pushFront b he]
      exact h.own e he
  · exact h.index_pushFront hk
  · intro e he
    show e.id < t.next + 1 ∧ e.node < t.next + 1
    rcases List.mem_cons.mp he with rfl | he
    · exact ⟨Nat.lt_succ_self _, Nat.lt_succ_self _⟩
    · have hfresh := h.fresh e he
      omega

/-- A node comes in at the front. -/
theorem nodes_pushFront (h : Coherent key t) (b : β) :
    (t.pushFront key b).nodes = b :: t.nodes := by
  have hhead : (t.pushFront key b).load t.next = some b :=
    load_of_store (store_pushFront_next t b)
  have htail : t.list.filterMap (fun e => (t.pushFront key b).load e.node) = t.nodes := by
    refine List.filterMap_congr fun e he => ?_
    rw [Table.load, h.store_pushFront b he, Table.load]
  show List.filterMap _ (⟨t.next, t.next⟩ :: t.list) = _
  simp only [List.filterMap_cons, hhead, htail]

/-- A node is overwritten, by one with the same key. -/
theorem nodes_assign (h : Coherent key t) (hk : t.index.lookup k = some p) (hb : key b = k) :
    ∃ t', t.assign p b = some t' ∧ Coherent key t' ∧
      t'.nodes = t.nodes.map (fun c => if key c = k then b else c) ∧
      t'.index.lookup k = some p := by
  obtain ⟨c, i, hc, hkey, -, he⟩ := h.lookup_some hk
  refine ⟨{ t with store := Function.update t.store p (some (b, i)) },
    by rw [Table.assign, hc, Option.map_some], ?_, ?_, hk⟩
  · have hstore : ∀ q j k', (∃ d, Function.update t.store p (some (b, i)) q = some (d, j) ∧
        key d = k') ↔ ∃ d, t.store q = some (d, j) ∧ key d = k' := by
      intro q j k'
      by_cases hq : q = p
      · subst hq
        rw [Function.update_self, hc]
        simp [hb, hkey]
      · rw [Function.update_of_ne hq]
    constructor
    · exact h.ids
    · intro e he
      obtain ⟨d, hd⟩ := h.own e he
      obtain ⟨d', hd', -⟩ := (hstore e.node e.id (key d)).mpr ⟨d, hd, rfl⟩
      exact ⟨d', hd'⟩
    · intro k' p'
      dsimp only
      simp only [h.index k' p', hstore]
    · exact h.fresh
  · unfold Table.nodes
    rw [List.map_filterMap]
    refine List.filterMap_congr fun f hf => ?_
    obtain ⟨d, hd⟩ := h.own f hf
    unfold Table.load
    dsimp only at hf ⊢
    by_cases hq : f.node = p
    · rw [hq, Function.update_self, hc, Option.map_some, Option.map_some, Option.map_some,
        if_pos hkey]
    · have hne : key d ≠ k := by
        intro hdk
        have heq := h.eq_of_key hf he hd hc (hdk.trans hkey.symm)
        rw [heq] at hq
        exact hq rfl
      rw [Function.update_of_ne hq, hd, Option.map_some, Option.map_some, if_neg hne]

/-- A node moves to the front. -/
theorem nodes_moveToFront (h : Coherent key t) (hk : t.index.lookup k = some p)
    (hload : t.load p = some b) :
    ∃ t', t.moveToFront p = some t' ∧ Coherent key t' ∧
      t'.nodes = b :: (t.nodes.filter fun c => key c ≠ k) ∧ t'.index.lookup k = some p := by
  obtain ⟨c, i, hc, rfl, -, he⟩ := h.lookup_some hk
  rw [load_of_store hc, Option.some.injEq] at hload
  subst hload
  have hfind : t.list.find? (fun e => e.id = i) = some ⟨i, p⟩ := by
    cases hf : t.list.find? (fun e => e.id = i) with
    | none => exact absurd (List.find?_eq_none.mp hf _ he) (by simp)
    | some f =>
      have hid : f.id = i := by simpa using List.find?_some hf
      rw [h.eq_of_id (List.mem_of_find?_eq_some hf) he hid]
  have hmem : ∀ e, e ∈ (⟨i, p⟩ : Element) :: (t.list.filter fun e => e.id ≠ i) ↔ e ∈ t.list := by
    intro e
    rw [List.mem_cons, List.mem_filter]
    constructor
    · rintro (rfl | ⟨hmem, -⟩)
      · exact he
      · exact hmem
    · intro hmem
      by_cases hid : e.id = i
      · exact .inl (h.eq_of_id hmem he hid)
      · exact .inr ⟨hmem, decide_eq_true hid⟩
  refine ⟨{ t with list := ⟨i, p⟩ :: t.list.filter fun e => e.id ≠ i },
    by rw [Table.moveToFront, hc, Option.map_some]; simp only [hfind], ?_, ?_, hk⟩
  · constructor
    · refine List.nodup_cons.mpr ⟨?_, h.ids.sublist (List.filter_sublist.map _)⟩
      intro hin
      obtain ⟨e, hin, hid⟩ := List.mem_map.mp hin
      simp [hid] at hin
    · intro e hin
      exact h.own e ((hmem e).mp hin)
    · intro k' p'
      dsimp only
      simp only [h.index k' p', hmem]
    · intro e hin
      exact h.fresh e ((hmem e).mp hin)
  · have hhead : t.load p = some c := load_of_store hc
    have htail := h.nodes_filter he hc
    show List.filterMap (fun e => t.load e.node) (⟨i, p⟩ :: t.list.filter fun e => e.id ≠ i) = _
    simp only [List.filterMap_cons, hhead]
    exact congrArg _ htail

/-- The last node. -/
theorem back_concat (h : Coherent key t) (hnodes : t.nodes = bs ++ [b]) :
    ∃ p, t.back = some p ∧ t.load p = some b ∧ t.index.lookup (key b) = some p := by
  rcases List.eq_nil_or_concat t.list with hnil | ⟨es, e, hlist⟩
  · rw [Table.nodes, hnil] at hnodes
    exact absurd hnodes.symm (by simp)
  · obtain ⟨c, hc⟩ := h.own e (by rw [hlist]; simp)
    have hload : t.load e.node = some c := load_of_store hc
    rw [Table.nodes, hlist, List.concat_eq_append, List.filterMap_append] at hnodes
    simp only [List.filterMap_cons, hload, List.filterMap_nil] at hnodes
    obtain ⟨-, hlast⟩ := List.append_inj' hnodes rfl
    cases hlast
    refine ⟨e.node, ?_, hload, (h.index (key b) e.node).mpr ⟨e, ?_, rfl, b, hc, rfl⟩⟩
    · rw [Table.back, hlist, List.concat_eq_append, List.getLast?_concat, Option.map_some]
    · rw [hlist]
      simp

theorem back_nil (h : Coherent key t) (hnodes : t.nodes = []) : t.back = none := by
  have hlist : t.list = [] := by
    rw [← List.length_eq_zero_iff, ← h.length_nodes, hnodes, List.length_nil]
  rw [Table.back, hlist]
  rfl

/-- A node is found under its key. -/
theorem load_of_mem (h : Coherent key t) (hk : t.index.lookup (key b) = some p)
    (hb : b ∈ t.nodes) : t.load p = some b := by
  obtain ⟨c, i, hc, hkey, hmem, -⟩ := h.lookup_some hk
  rw [load_of_store hc, List.inj_on_of_nodup_map h.nodup_keys hmem hb hkey]

/-- The map finds what a search of the list finds. -/
theorem find_nodes (h : Coherent key t) (k : κ) :
    (t.nodes.find? fun b => key b == k) = (t.index.lookup k).bind t.load := by
  cases hk : t.index.lookup k with
  | none =>
    refine List.find?_eq_none.mpr fun b hb => ?_
    simpa using h.lookup_none.mp hk b hb
  | some p =>
    obtain ⟨b, -, -, hkey, hmem, -⟩ := h.lookup_some hk
    cases hfind : t.nodes.find? fun b => key b == k with
    | none => exact absurd (List.find?_eq_none.mp hfind b hmem) (by simpa using hkey)
    | some c =>
      have hc : key c = k := by simpa using List.find?_some hfind
      subst hc
      exact (h.load_of_mem hk (List.mem_of_find?_eq_some hfind)).symm

/-- The map is as large as the list. -/
theorem length_index (h : Coherent key t) : t.index.entries.length = t.nodes.length := by
  have hlength := h.index_perm.length_eq
  rwa [List.length_map, List.length_map, ← h.length_nodes] at hlength

/-- The first node is overwritten. -/
theorem nodes_assign_head (h : Coherent key t) (hnodes : t.nodes = b :: bs)
    (hk : t.index.lookup (key b) = some p) (hb : key b' = key b) :
    ∃ t', t.assign p b' = some t' ∧ Coherent key t' ∧ t'.nodes = b' :: bs := by
  obtain ⟨t', hassign, ht', hnodes', -⟩ := h.nodes_assign hk hb
  have hnodup := h.nodup_keys
  rw [hnodes, List.map_cons, List.nodup_cons] at hnodup
  refine ⟨t', hassign, ht', ?_⟩
  rw [hnodes', hnodes, List.map_cons, if_pos rfl, map_overwrite_of_notMem hnodup.1]

/-- A node is overwritten, by one with the same key, and moves to the front. -/
theorem nodes_touch (h : Coherent key t) (hk : t.index.lookup k = some p) (hb : key b = k) :
    ∃ t₁ t', t.assign p b = some t₁ ∧ t₁.moveToFront p = some t' ∧ Coherent key t' ∧
      t'.nodes = b :: (t.nodes.filter fun c => key c ≠ k) ∧ t'.index.lookup k = some p := by
  obtain ⟨c, i, hc, -, -, -⟩ := h.lookup_some hk
  obtain ⟨t₁, hassign, h₁, hnodes₁, hk₁⟩ := h.nodes_assign hk hb
  have hload : t₁.load p = some b := by
    rw [Table.assign, hc, Option.map_some, Option.some.injEq] at hassign
    subst hassign
    exact load_of_store (Function.update_self _ _ _)
  obtain ⟨t', hmove, ht', hnodes', hk'⟩ := h₁.nodes_moveToFront hk₁ hload
  refine ⟨t₁, t', hassign, hmove, ht', ?_, hk'⟩
  rw [hnodes', hnodes₁, filter_overwrite hb]

end Coherent

end Linked
