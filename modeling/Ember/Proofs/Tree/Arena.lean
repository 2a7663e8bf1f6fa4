import Ember.Proofs.Tree.Ownership
import Ember.Tree.Arena
import Mathlib.Data.List.Count
import Mathlib.Data.List.Perm.Basic
import Mathlib.Data.List.Nodup
import Mathlib.Data.List.Pairwise

/-!
# Arenas are trees

The nodes of a source make a tree: while it is parsed, every node but the root is a child of one node or waits to become one
(`Grown`), and in the end the root takes those that are left. A walk over a tree comes to every node once, whatever the order in which it
takes children (`IsTree.perm_range`), so the listing, the links to parents and the printed lines agree.
-/

namespace Ember

/-! ## Trees of numbers -/

/-- The numbers below `size` with their children make a tree: the root is the first of them and nobody's child, every other number is a
child once and of one number only, and a child comes before its parent, unless that is the root. -/
structure IsTree (children : Nat → List Nat) (root : Nat) (size : Nat) : Prop where
  root_eq : root = 0
  root_lt : root < size
  root_free : ∀ p, root ∉ children p
  parent : ∀ c, c < size → c ≠ root → ∃ p, p < size ∧ (children p).count c = 1 ∧ ∀ q, c ∈ children q → q = p
  child : ∀ p, ∀ c ∈ children p, c < size ∧ (p ≠ root → c < p)

/-- The numbers at and below a number, in pre-order. -/
def subtree (children : Nat → List Nat) : (fuel : Nat) → Nat → List Nat
  | 0, _ => []
  | fuel + 1, id => id :: (children id).flatMap (subtree children fuel)

/-- Takes numbers from a stack; children come before what is left on the stack. -/
def walkWith (children : Nat → List Nat) : (fuel : Nat) → (stack : List Nat) → List Nat
  | 0, _ => []
  | _, [] => []
  | fuel + 1, id :: stack => id :: walkWith children fuel (children id ++ stack)

namespace IsTree

variable {children : Nat → List Nat} {root : Nat} {size : Nat} (h : IsTree children root size)
include h

/-- A child taken from the other end is a child. -/
theorem reverse : IsTree (fun id => (children id).reverse) root size where
  root_eq := h.root_eq
  root_lt := h.root_lt
  root_free := fun p hp => h.root_free p (List.mem_reverse.mp hp)
  parent := by
    intro c hc hne
    obtain ⟨p, hp, hcount, huniq⟩ := h.parent c hc hne
    exact ⟨p, hp, by rw [List.count_reverse, hcount], fun q hq => huniq q (List.mem_reverse.mp hq)⟩
  child := fun p c hc => h.child p c (List.mem_reverse.mp hc)

omit h in
/-- How far up a number stands: the root is above all. -/
def rank (root : Nat) (size : Nat) (id : Nat) : Nat :=
  if id = root then size else id

variable {p c id : Nat} {l : List Nat}

theorem ne_root (hc : c ∈ children p) : c ≠ root :=
  fun he => h.root_free p (he ▸ hc)

theorem rank_lt (hc : c ∈ children p) : rank root size c < rank root size p := by
  obtain ⟨hlt, hbelow⟩ := h.child p c hc
  unfold rank
  rw [if_neg (h.ne_root hc)]
  split
  · exact hlt
  · rename_i hp
    exact hbelow hp

theorem rank_pos (id : Nat) : 0 < rank root size id := by
  have := h.root_lt
  have := h.root_eq
  unfold rank
  split <;> omega

/-- Fuel that is more than the rank makes no difference. -/
theorem subtree_stable {fuel fuel' : Nat} (hf : rank root size id ≤ fuel) (hf' : rank root size id ≤ fuel') :
    subtree children fuel id = subtree children fuel' id := by
  induction fuel generalizing fuel' id with
  | zero => exact absurd hf (Nat.not_le.mpr (h.rank_pos id))
  | succ fuel ih =>
    cases fuel' with
    | zero => exact absurd hf' (Nat.not_le.mpr (h.rank_pos id))
    | succ fuel' =>
      rw [subtree, subtree]
      congr 1
      refine List.flatMap_congr fun c hc => ?_
      have := h.rank_lt hc
      exact ih (by omega) (by omega)

omit h in
theorem rank_le (root : Nat) (hid : id < size) : rank root size id ≤ size := by
  unfold rank
  split <;> omega

/-- What is at and below a number: the number itself, then what is at and below its children. -/
theorem subtree_eq (hid : id < size) : subtree children size id = id :: (children id).flatMap (subtree children size) := by
  obtain ⟨n, rfl⟩ : ∃ n, size = n + 1 := ⟨size - 1, by omega⟩
  conv_lhs => rw [subtree]
  congr 1
  refine List.flatMap_congr fun c hc => ?_
  have := h.rank_lt hc
  have := rank_le root hid
  exact h.subtree_stable (by omega) (rank_le root (h.child id c hc).1)

/-- A walk takes what is at and below the numbers on its stack, as far as its fuel goes. -/
theorem walkWith_eq (fuel : Nat) (stack : List Nat) (hstack : ∀ id ∈ stack, id < size) :
    walkWith children fuel stack = (stack.flatMap (subtree children size)).take fuel := by
  induction fuel generalizing stack with
  | zero => rw [walkWith, List.take_zero]
  | succ fuel ih =>
    cases stack with
    | nil => rfl
    | cons id stack =>
      have hid := hstack id List.mem_cons_self
      rw [walkWith, ih _ fun c hc => ?_, List.flatMap_cons, h.subtree_eq hid, List.flatMap_append]
      · rfl
      · exact (List.mem_append.mp hc).elim (fun hc => (h.child id c hc).1) fun hc => hstack c (List.mem_cons_of_mem _ hc)

omit h in
/-- What holds of each number of a row holds of the row: its subtrees have the row and the children of what they have. -/
theorem flatMap_perm {f : Nat → List Nat} {row : List Nat} (hrow : ∀ c ∈ row, (f c).Perm (c :: (f c).flatMap children)) :
    (row.flatMap f).Perm (row ++ (row.flatMap f).flatMap children) := by
  induction row with
  | nil => exact List.Perm.refl _
  | cons c row ih =>
    have hrest := ih fun d hd => hrow d (List.mem_cons_of_mem _ hd)
    rw [List.flatMap_cons, List.flatMap_append, List.cons_append]
    exact ((hrow c List.mem_cons_self).append hrest).trans (List.Perm.cons c (List.perm_append_comm_assoc _ _ _))

/-- The numbers at and below a number are that number and the children of all of them. -/
theorem subtree_perm (id : Nat) (hid : id < size) :
    (subtree children size id).Perm (id :: (subtree children size id).flatMap children) := by
  induction hr : rank root size id using Nat.strongRecOn generalizing id with
  | _ n ih =>
    have hbelow : ∀ c ∈ children id, (subtree children size c).Perm (c :: (subtree children size c).flatMap children) :=
      fun c hc => ih _ (hr ▸ h.rank_lt hc) c (h.child id c hc).1 rfl
    rw [h.subtree_eq hid, List.flatMap_cons]
    exact List.Perm.cons id (flatMap_perm hbelow)

omit h in
/-- How often a number is a child of those in a list is how often its parent is in the list. -/
theorem count_flatMap (hp : (children p).count c = 1) (huniq : ∀ q, c ∈ children q → q = p) (l : List Nat) :
    (l.flatMap children).count c = l.count p := by
  induction l with
  | nil => rfl
  | cons q l ih =>
    rw [List.flatMap_cons, List.count_append, ih, List.count_cons]
    by_cases hq : q = p
    · subst hq
      rw [hp, beq_self_eq_true, if_pos rfl, Nat.add_comm]
    · rw [List.count_eq_zero.mpr fun hc => hq (huniq q hc), if_neg (by simpa using hq), Nat.zero_add, Nat.add_zero]

/-- A list that has the root and the children of its members has every number once. -/
theorem perm_range (hl : l.Perm (root :: l.flatMap children)) : l.Perm (List.range size) := by
  have hone : ∀ n c, c < size → size - rank root size c = n → l.count c = 1 := by
    intro n
    induction n using Nat.strongRecOn with
    | _ n ih =>
      intro c hc hn
      rw [hl.count_eq, List.count_cons]
      by_cases hroot : c = root
      · subst hroot
        rw [List.count_eq_zero.mpr, beq_self_eq_true, if_pos rfl]
        intro hmem
        obtain ⟨p, -, hp⟩ := List.mem_flatMap.mp hmem
        exact h.root_free p hp
      · obtain ⟨p, hp, hcount, huniq⟩ := h.parent c hc hroot
        have hmem : c ∈ children p := List.count_pos_iff.mp (by omega)
        have := h.rank_lt hmem
        have := rank_le root hp
        rw [if_neg (by simpa using Ne.symm hroot), count_flatMap hcount huniq, ih _ (by omega) p hp rfl]
  refine List.perm_iff_count.mpr fun c => ?_
  by_cases hc : c < size
  · rw [hone _ c hc rfl, List.count_eq_one_of_mem List.nodup_range (List.mem_range.mpr hc)]
  · have hnot : c ∉ l := by
      intro hmem
      rcases List.mem_cons.mp (hl.mem_iff.mp hmem) with rfl | hmem
      · exact hc h.root_lt
      · obtain ⟨p, -, hp⟩ := List.mem_flatMap.mp hmem
        exact hc (h.child p c hp).1
    rw [List.count_eq_zero.mpr hnot, List.count_eq_zero.mpr (by simpa using hc)]

/-- What is at and below the root is everything, once. -/
theorem subtree_root_perm : (subtree children size root).Perm (List.range size) :=
  h.perm_range (h.subtree_perm root h.root_lt)

/-- A walk from the root takes everything, in pre-order. -/
theorem walkWith_root : walkWith children size [root] = subtree children size root := by
  have hlen : (subtree children size root).length = size := by rw [h.subtree_root_perm.length_eq, List.length_range]
  rw [h.walkWith_eq size [root] (by simpa using h.root_lt), List.flatMap_singleton, List.take_of_length_le (Nat.le_of_eq hlen)]

/-! ### Links to parents -/

omit h in
/-- The last in a list of numbers that has a number as its child. -/
def lastParent (children : Nat → List Nat) : List Nat → Nat → Option Nat
  | [], _ => none
  | p :: l, c => (lastParent children l c).or (if c ∈ children p then some p else none)

omit h in
theorem lastParent_eq_some (hl : lastParent children l c = some p) : p ∈ l ∧ c ∈ children p := by
  induction l with
  | nil => cases hl
  | cons q l ih =>
    rw [lastParent, Option.or_eq_some_iff] at hl
    rcases hl with hl | ⟨-, hl⟩
    · exact ⟨List.mem_cons_of_mem _ (ih hl).1, (ih hl).2⟩
    · split at hl
      · cases hl
        exact ⟨List.mem_cons_self, ‹_›⟩
      · cases hl

omit h in
theorem lastParent_isSome (hp : p ∈ l) (hc : c ∈ children p) : (lastParent children l c).isSome := by
  induction l with
  | nil => cases hp
  | cons q l ih =>
    rw [lastParent, Option.isSome_or, Bool.or_eq_true]
    rcases List.mem_cons.mp hp with rfl | hp
    · exact .inr (by rw [if_pos hc]; rfl)
    · exact .inl (ih hp)

/-- A number is the child of one number only. -/
theorem parent_unique {q : Nat} (hp : c ∈ children p) (hq : c ∈ children q) : p = q := by
  obtain ⟨r, -, -, huniq⟩ := h.parent c (h.child p c hp).1 (h.ne_root hp)
  rw [huniq p hp, huniq q hq]

/-- Only a number of the tree has children. -/
theorem lt_of_child (hp : c ∈ children p) : p < size := by
  obtain ⟨r, hr, -, huniq⟩ := h.parent c (h.child p c hp).1 (h.ne_root hp)
  exact huniq p hp ▸ hr

/-- Among all numbers, the last one to have a number as its child is its parent. -/
theorem lastParent_iff (hl : l.Perm (List.range size)) : lastParent children l c = some p ↔ c ∈ children p := by
  constructor
  · exact fun hlast => (lastParent_eq_some hlast).2
  · intro hc
    have hmem : p ∈ l := hl.mem_iff.mpr (List.mem_range.mpr (h.lt_of_child hc))
    obtain ⟨q, hq⟩ := Option.isSome_iff_exists.mp (lastParent_isSome hmem hc)
    rw [hq, h.parent_unique hc (lastParent_eq_some hq).2]

end IsTree

namespace Arena

/-! ## Arenas in the making -/

@[simp] theorem size_modify (a : Arena) (id : NodeId) (change : Entry → Entry) : (a.modify id change).size = a.size :=
  Array.size_modify

variable {a : Arena} {id : NodeId}

theorem form_eq_empty (h : a.size ≤ id) : a.form id = .empty := by
  rw [form, Array.getElem?_eq_none h]
  rfl

theorem lt_of_mem_children {c : NodeId} (hc : c ∈ a.children id) : id < a.size := by
  by_contra hid
  rw [children, form_eq_empty (Nat.not_lt.mp hid)] at hc
  cases hc

theorem form_modify {other : NodeId} {change : Entry → Entry} (form : Form NodeId) (h : ∀ e, (change e).form = form) :
    (a.modify id change).form other = if id = other ∧ other < a.size then form else a.form other := by
  rw [Arena.form, modify, Array.getElem?_modify]
  by_cases hid : id = other
  · subst hid
    by_cases hlt : id < a.size
    · rw [if_pos rfl, if_pos ⟨rfl, hlt⟩, Array.getElem?_eq_getElem hlt]
      exact h _
    · rw [if_pos rfl, if_neg fun hc => hlt hc.2, form_eq_empty (Nat.not_lt.mp hlt), Array.getElem?_eq_none (Nat.not_lt.mp hlt)]
      rfl
  · rw [if_neg hid, if_neg fun hc => hid hc.1, Arena.form]

theorem form_add (a : Arena) (loc : Loc) (form : Form NodeId) (id : NodeId) :
    (NodeStore.add a loc form).2.form id = if id = a.size then form else a.form id := by
  show ((a.nodes.push _)[id]?.map (·.form)).getD .empty = _
  rw [Array.getElem?_push]
  split
  · rw [if_pos ‹_›]; rfl
  · rw [if_neg ‹_›, Arena.form]

theorem size_add (a : Arena) (loc : Loc) (form : Form NodeId) : (NodeStore.add a loc form).2.size = a.size + 1 :=
  Array.size_push _

/-- The children of all nodes. -/
def kids (a : Arena) : List NodeId :=
  (List.range a.size).flatMap a.children

/-- Between the start and the end, every node but the root is one node's child or one of those that wait, and comes behind its
children. -/
structure Grown (a : Arena) (waiting : List NodeId) : Prop where
  root : a.root = 0
  pos : 0 < a.size
  perm : (a.kids ++ waiting).Perm (List.range' 1 (a.size - 1))
  below : ∀ id, ∀ c ∈ a.children id, c < id

theorem grown_start : Grown start [] where
  root := rfl
  pos := Nat.zero_lt_one
  perm := List.Perm.refl _
  below := by
    intro id c hc
    obtain rfl : id = 0 := Nat.lt_one_iff.mp (lt_of_mem_children hc)
    cases hc

theorem Grown.lt {waiting : List NodeId} (h : a.Grown waiting) (hid : id ∈ a.kids ++ waiting) : id ≠ 0 ∧ id < a.size := by
  have hmem := List.mem_range'_1.mp (h.perm.mem_iff.mp hid)
  have hpos : 1 ≤ a.size := h.pos
  exact ⟨Nat.one_le_iff_ne_zero.mp hmem.1, lt_of_lt_of_eq hmem.2 (Nat.add_sub_cancel' hpos)⟩

theorem Grown.add {loc : Loc} {form : Form NodeId} {before after : List NodeId} (h : a.Grown (before ++ form.children ++ after)) :
    (NodeStore.add a loc form).2.Grown (before ++ (NodeStore.add a loc form).1 :: after) := by
  have hchildren : ∀ id, (NodeStore.add a loc form).2.children id = if id = a.size then form.children else a.children id := by
    intro id
    rw [children, form_add]
    split <;> rfl
  have hkids : (NodeStore.add a loc form).2.kids = a.kids ++ form.children := by
    rw [kids, size_add, List.range_succ, List.flatMap_append, List.flatMap_singleton, hchildren, if_pos rfl]
    congr 1
    refine List.flatMap_congr fun id hid => ?_
    rw [hchildren, if_neg (Nat.ne_of_lt (List.mem_range.mp hid))]
  refine ⟨h.root, by rw [size_add]; omega, ?_, ?_⟩
  · obtain ⟨n, hn⟩ := Nat.exists_eq_add_one.mpr h.pos
    have hperm := h.perm
    rw [hkids, size_add, hn, Nat.add_sub_cancel, List.range'_concat]
    rw [hn, Nat.add_sub_cancel] at hperm
    have hnew : (NodeStore.add a loc form).1 = 1 + 1 * n := by
      show a.size = _
      omega
    rw [hnew]
    refine List.Perm.trans ?_ (hperm.append_right [1 + 1 * n])
    simp only [List.append_assoc]
    refine List.Perm.append_left a.kids ?_
    calc (form.children ++ (before ++ (1 + 1 * n) :: after)).Perm (before ++ (form.children ++ (1 + 1 * n) :: after)) :=
          List.perm_append_comm_assoc _ _ _
      _ |>.Perm (before ++ (form.children ++ (after ++ [1 + 1 * n]))) :=
          ((List.perm_append_singleton _ _).symm.append_left _).append_left _
  · intro id c hc
    rw [hchildren] at hc
    split at hc
    · subst id
      exact (h.lt (by simp [hc])).2
    · exact h.below id c hc

theorem Grown.change {loc : Option Loc} {form : Form NodeId} {before after : List NodeId} (h : a.Grown (before ++ id :: after))
    (hold : (a.form id).children = []) (hnew : form.children = []) :
    (NodeStore.change a id loc form).2.Grown (before ++ (NodeStore.change a id loc form).1 :: after) := by
  have hchildren : ∀ other, (NodeStore.change a id loc form).2.children other = a.children other := by
    intro other
    show ((a.modify id _).form other).children = _
    rw [form_modify form fun _ => rfl]
    split
    · rename_i hid
      rw [hnew, children, ← hid.1, hold]
    · rfl
  have hsize : (NodeStore.change a id loc form).2.size = a.size := size_modify _ _ _
  have hkids : (NodeStore.change a id loc form).2.kids = a.kids := by
    rw [kids, hsize]
    exact List.flatMap_congr fun other _ => hchildren other
  refine ⟨h.root, hsize ▸ h.pos, ?_, ?_⟩
  · rw [hkids, hsize]
    exact h.perm
  · intro other c hc
    exact h.below other c (hchildren other ▸ hc)

/-- Parsers keep an arena that is in the making. -/
def growth : Ownership Arena (ν := NodeId) where
  Owns := Grown
  add := Grown.add
  change := Grown.change

/-! ## Finished arenas -/

/-- When the root takes the nodes that wait, the arena is a tree. -/
theorem Grown.isTree {b : Arena} {items : List NodeId} (h : a.Grown items)
    (hb : b = a.modify a.root fun e => { e with form := .block items }) : IsTree b.children b.root b.size := by
  have hsize : b.size = a.size := hb ▸ size_modify _ _ _
  have hroot : b.root = 0 := hb ▸ h.root
  have hchildren : ∀ id, b.children id = if id = 0 then items else a.children id := by
    intro id
    rw [children, hb, form_modify (.block items) fun _ => rfl, h.root]
    by_cases hid : id = 0
    · rw [if_pos ⟨hid.symm, hid ▸ h.pos⟩, if_pos hid]
      rfl
    · rw [if_neg fun hc => hid hc.1.symm, if_neg hid]
      rfl
  have hmem : ∀ {p c}, c ∈ b.children p → c ∈ a.kids ++ items := by
    intro p c hc
    rw [hchildren] at hc
    split at hc
    · exact List.mem_append_right _ hc
    · exact List.mem_append_left _ (List.mem_flatMap.mpr ⟨p, List.mem_range.mpr (lt_of_mem_children hc), hc⟩)
  have hkids : b.kids.Perm (List.range' 1 (a.size - 1)) := by
    refine List.Perm.trans ?_ h.perm
    obtain ⟨n, hn⟩ := Nat.exists_eq_add_one.mpr h.pos
    have hbare : a.children 0 = [] := List.eq_nil_iff_forall_not_mem.mpr fun c hc => Nat.not_lt_zero c (h.below 0 c hc)
    have hrest : (List.range' 1 n).flatMap b.children = (List.range' 1 n).flatMap a.children := by
      refine List.flatMap_congr fun id hid => ?_
      rw [hchildren, if_neg (Nat.one_le_iff_ne_zero.mp (List.mem_range'_1.mp hid).1)]
    rw [kids, kids, hsize, hn, List.range_eq_range', List.range'_succ, List.flatMap_cons, List.flatMap_cons, hbare, hchildren,
      if_pos rfl, List.nil_append, hrest]
    exact List.perm_append_comm
  have hnodup : b.kids.Nodup := hkids.nodup_iff.mpr (List.nodup_range' 1)
  obtain ⟨hown, hapart⟩ := List.nodup_flatMap.mp hnodup
  refine ⟨hroot, by rw [hroot, hsize]; exact h.pos, ?_, ?_, ?_⟩
  · intro p hp
    exact (h.lt (hmem hp)).1 hroot
  · intro c hc hne
    have hc' : c ∈ b.kids := by
      refine hkids.mem_iff.mpr (List.mem_range'_1.mpr ⟨Nat.one_le_iff_ne_zero.mpr (hroot ▸ hne), ?_⟩)
      omega
    obtain ⟨p, hp, hcp⟩ := List.mem_flatMap.mp hc'
    refine ⟨p, List.mem_range.mp hp, List.count_eq_one_of_mem (hown p hp) hcp, fun q hq => ?_⟩
    by_contra hqp
    have : Std.Symm (Function.onFun List.Disjoint b.children) := ⟨fun _ _ hd _ hq hp => hd hp hq⟩
    exact hapart.forall (List.mem_range.mpr (lt_of_mem_children hq)) hp hqp hq hcp
  · intro p c hc
    refine ⟨hsize ▸ (h.lt (hmem hc)).2, fun hp => ?_⟩
    rw [hchildren, if_neg (hroot ▸ hp)] at hc
    exact h.below p c hc

/-- The arena of a source is a tree. -/
theorem isTree_parse {source : String} (h : parse source = .ok a) : IsTree a.children a.root a.size := by
  unfold parse ofTokens at h
  cases hitems : NodeStore.itemsOf start (Token.scan source) with
  | error fault => simp [hitems, bind, Except.bind] at h
  | ok v =>
    obtain ⟨items, b⟩ := v
    simp only [hitems, bind, Except.bind, pure, Except.pure, Except.ok.injEq] at h
    exact Grown.isTree (growth.owns_itemsOf hitems grown_start) h.symm

/-! ## Walks over arenas -/

theorem walk_eq (a : Arena) (fuel : Nat) (stack : List NodeId) : a.walk fuel stack = walkWith a.children fuel stack := by
  induction fuel generalizing stack with
  | zero => rfl
  | succ fuel ih =>
    cases stack with
    | nil => rfl
    | cons id stack => rw [walk, walkWith, ih]

theorem reachable_eq (h : IsTree a.children a.root a.size) : a.reachable = subtree a.children a.size a.root := by
  rw [reachable, walk_eq, h.walkWith_root]

/-! ### Parents -/

/-- The arena with other links to parents. -/
def withParents (a : Arena) (parent : NodeId → Option NodeId) : Arena :=
  { a with nodes := a.nodes.mapIdx fun id e => { e with parent := parent id } }

section

variable (a : Arena) (parent parent' : NodeId → Option NodeId)

@[simp] theorem size_withParents : (a.withParents parent).size = a.size :=
  Array.size_mapIdx

@[simp] theorem root_withParents : (a.withParents parent).root = a.root :=
  rfl

@[simp] theorem form_withParents : (a.withParents parent).form = a.form := by
  funext id
  simp only [form, withParents, Array.getElem?_mapIdx, Option.map_map]
  rfl

@[simp] theorem children_withParents : (a.withParents parent).children = a.children := by
  funext id
  rw [children, children, form_withParents]

theorem parent?_withParents (id : NodeId) : (a.withParents parent).parent? id = if id < a.size then parent id else none := by
  simp only [parent?, withParents, Array.getElem?_mapIdx]
  split
  · rw [Array.getElem?_eq_getElem ‹_›]
    rfl
  · rw [Array.getElem?_eq_none (Nat.not_lt.mp ‹_›)]
    rfl

@[simp] theorem withParents_withParents : (a.withParents parent).withParents parent' = a.withParents parent' := by
  simp only [withParents, Array.mapIdx_mapIdx]
  rfl

variable {a parent parent'} in
theorem withParents_congr (h : ∀ id, id < a.size → parent id = parent' id) : a.withParents parent = a.withParents parent' := by
  unfold withParents
  congr 1
  refine Array.ext (by simp) fun id hid _ => ?_
  rw [Array.getElem_mapIdx, Array.getElem_mapIdx, h id (by simpa [size] using hid)]

theorem withParents_parent? : a.withParents a.parent? = a := by
  unfold withParents
  congr 1
  refine Array.ext (by simp) fun id hid hid' => ?_
  rw [Array.getElem_mapIdx, parent?, Array.getElem?_eq_getElem hid']
  rfl

/-- To link one node is to change the link of that node. -/
theorem modify_parent (c p : NodeId) :
    a.modify c (fun e => { e with parent := some p }) = a.withParents fun d => if d = c then some p else a.parent? d := by
  unfold withParents modify
  congr 1
  refine Array.ext (by simp) fun id hid hid' => ?_
  have hlt : id < a.nodes.size := by simpa using hid
  have hparent : a.parent? id = a.nodes[id].parent := by
    rw [parent?, Array.getElem?_eq_getElem hlt]
    rfl
  rw [Array.getElem_mapIdx, Array.getElem_modify]
  by_cases h : c = id
  · simp only [h, if_true]
  · simp only [h, Ne.symm h, if_false, hparent]

theorem foldl_modify_parent (p : NodeId) (l : List NodeId) : l.foldl (fun a c => a.modify c fun e => { e with parent := some p }) a =
      a.withParents fun c => if c ∈ l then some p else a.parent? c := by
  induction l generalizing a with
  | nil => simpa using (withParents_parent? a).symm
  | cons d l ih =>
    rw [List.foldl_cons, ih, modify_parent, withParents_withParents]
    refine withParents_congr fun c hc => ?_
    rw [parent?_withParents, if_pos hc]
    simp only [List.mem_cons]
    split <;> grind

theorem adopt_eq (id : NodeId) : a.adopt id = a.withParents fun c => if c ∈ a.children id then some id else a.parent? c :=
  foldl_modify_parent a id _

/-- After some nodes have taken their children, a node is linked to the last of them that has it as a child. -/
theorem foldl_adopt (l : List NodeId) : l.foldl adopt a = a.withParents fun c => (IsTree.lastParent a.children l c).or (a.parent? c) := by
  induction l generalizing a with
  | nil => exact (withParents_parent? a).symm
  | cons id l ih =>
    rw [List.foldl_cons, ih, adopt_eq, children_withParents, withParents_withParents]
    refine withParents_congr fun c hc => ?_
    rw [parent?_withParents, if_pos hc, IsTree.lastParent, Option.or_assoc]
    split <;> rfl

/-- Links are set in the order of a walk that takes the last child first. -/
theorem adoptAll_eq (fuel : Nat) (stack : List NodeId) :
    adoptAll fuel stack a = (walkWith (fun id => (a.children id).reverse) fuel stack).foldl adopt a := by
  induction fuel generalizing a stack with
  | zero => rfl
  | succ fuel ih =>
    cases stack with
    | nil => rfl
    | cons id stack => rw [adoptAll, walkWith, List.foldl_cons, ih, adopt_eq, children_withParents]

theorem solveParents_eq : a.solveParents =
      a.withParents (IsTree.lastParent a.children (walkWith (fun id => (a.children id).reverse) a.size [a.root])) := by
  have hclear : { a with nodes := a.nodes.map fun e => { e with parent := none } } = a.withParents fun _ => none := by
    unfold withParents
    congr 1
    exact Array.ext (by simp) fun id hid hid' => by rw [Array.getElem_map, Array.getElem_mapIdx]
  unfold solveParents
  rw [hclear, adoptAll_eq, foldl_adopt, children_withParents, withParents_withParents, size_withParents, root_withParents]
  refine withParents_congr fun c hc => ?_
  rw [parent?_withParents, if_pos hc, Option.or_none]

/-- Links to parents do not depend on the links that are there. -/
theorem solveParents_withParents : (a.withParents parent).solveParents = a.solveParents := by
  rw [solveParents_eq, solveParents_eq, withParents_withParents, children_withParents, size_withParents, root_withParents]

theorem solveParents_solveParents : a.solveParents.solveParents = a.solveParents := by
  rw [solveParents_eq a, solveParents_withParents, solveParents_eq]

end

section

variable (h : IsTree a.children a.root a.size)
include h

/-- In a tree every node is linked to the node that has it as a child. -/
theorem parent?_solveParents {c p : NodeId} : a.solveParents.parent? c = some p ↔ c ∈ a.children p := by
  have hperm : (walkWith (fun id => (a.children id).reverse) a.size [a.root]).Perm (List.range a.size) :=
    h.reverse.walkWith_root ▸ h.reverse.subtree_root_perm
  rw [solveParents_eq, parent?_withParents]
  constructor
  · intro hp
    split at hp
    · exact (h.lastParent_iff hperm).mp hp
    · cases hp
  · intro hc
    rw [if_pos (h.child p c hc).1, (h.lastParent_iff hperm).mpr hc]

/-! ### Lines -/

/-- The parent of a node, its parent, and so on up to the root. -/
def ancestors (a : Arena) : (fuel : Nat) → NodeId → List NodeId
  | 0, _ => []
  | fuel + 1, id =>
    match a.parent? id with
    | some p => p :: ancestors a fuel p
    | none => []

omit h in
/-- What a visitor comes to is the children of a node. -/
theorem visited_eq_children {α : Type} (form : Form α) : form.visited = form.children := by
  cases form <;> rfl

/-- The number of nodes above a node of a tree. -/
def depth (a : Arena) (id : NodeId) : Nat :=
  (a.ancestors a.size id).length

theorem ancestors_stable (hp : ∀ c p, a.parent? c = some p → c ∈ a.children p) {fuel fuel' : Nat}
    (hf : a.size - IsTree.rank a.root a.size id ≤ fuel) (hf' : a.size - IsTree.rank a.root a.size id ≤ fuel') :
    a.ancestors fuel id = a.ancestors fuel' id := by
  have habove : ∀ {c p}, a.parent? c = some p →
      a.size - IsTree.rank a.root a.size p < a.size - IsTree.rank a.root a.size c := by
    intro c p hc
    have hlt := h.rank_lt (hp c p hc)
    have hle := IsTree.rank_le a.root (h.lt_of_child (hp c p hc))
    omega
  induction fuel generalizing fuel' id with
  | zero =>
    have hnone : a.parent? id = none := by
      by_contra hne
      obtain ⟨p, hsome⟩ := Option.ne_none_iff_exists'.mp hne
      have := habove hsome
      omega
    cases fuel' with
    | zero => rfl
    | succ fuel' => rw [ancestors, ancestors, hnone]
  | succ fuel ih =>
    cases hid : a.parent? id with
    | none => cases fuel' <;> simp [ancestors, hid]
    | some p =>
      have := habove hid
      obtain ⟨n, rfl⟩ : ∃ n, fuel' = n + 1 := ⟨fuel' - 1, by omega⟩
      have hrest : a.ancestors fuel p = a.ancestors n p := ih (by omega) (by omega)
      simp only [ancestors, hid, hrest]

theorem depth_root (hp : ∀ c p, a.parent? c = some p → c ∈ a.children p) : a.depth a.root = 0 := by
  have hnone : a.parent? a.root = none := by
    by_contra hne
    obtain ⟨p, hsome⟩ := Option.ne_none_iff_exists'.mp hne
    exact h.root_free p (hp _ _ hsome)
  unfold depth
  cases a.size with
  | zero => rfl
  | succ n => rw [ancestors, hnone]; rfl

theorem depth_child (hp : ∀ c p, a.parent? c = some p ↔ c ∈ a.children p) {c p : NodeId} (hc : c ∈ a.children p) :
    a.depth c = a.depth p + 1 := by
  have hlt := h.rank_lt hc
  have hle := IsTree.rank_le a.root (h.lt_of_child hc)
  have hpos := h.rank_pos c
  have habove : ∀ n, a.size = n + 1 → a.ancestors a.size c = p :: a.ancestors n p := by
    intro n hn
    rw [hn, ancestors, (hp c p).mpr hc]
  obtain ⟨n, hn⟩ : ∃ n, a.size = n + 1 := ⟨a.size - 1, by omega⟩
  have hstable : a.ancestors n p = a.ancestors a.size p :=
    ancestors_stable h (fun c p => (hp c p).mp) (by omega) (by omega)
  rw [depth, depth, habove n hn, hstable, List.length_cons]

end

/-- What is printed from a node on: a line for everything at and below it, indented by what is above. -/
theorem visit_eq (depth : NodeId → Nat) (hd : ∀ {c p}, c ∈ a.children p → depth c = depth p + 1) (fuel : Nat) (id : NodeId) :
    a.visit fuel (depth id) id = (subtree a.children fuel id).map fun c => (a.form c).line (a.loc c) (depth c) := by
  induction fuel generalizing id with
  | zero => rfl
  | succ fuel ih =>
    rw [visit, subtree, List.map_cons, visited_eq_children, List.map_flatMap]
    congr 1
    refine List.flatMap_congr fun c hc => ?_
    rw [← hd hc, ih c]

end Arena

end Ember
