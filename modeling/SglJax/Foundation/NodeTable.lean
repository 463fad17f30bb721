import Mathlib.Data.List.Nodup
import Mathlib.Data.List.Sublists
import Mathlib.Tactic.Common

/-! A rooted tree kept as a table of nodes with identities. Each node records
its parent and the dictionary slot it occupies there, so a reference to a node
stays valid while the tree around it is edited. The root itself is not stored;
its identity is `rootId`. -/
namespace SglJax.Foundation

structure Node (κ α : Type) where
  id : Nat
  parent : Nat
  slot : κ
  data : α
deriving DecidableEq, Repr

abbrev NodeTable (κ α : Type) := List (Node κ α)

def rootId : Nat := 0

namespace NodeTable

variable {κ α β : Type}

def find? (t : NodeTable κ α) (id : Nat) : Option (Node κ α) :=
  List.find? (fun n => n.id == id) t

def child? [DecidableEq κ] (t : NodeTable κ α) (parent : Nat) (slot : κ) :
    Option (Node κ α) :=
  List.find? (fun n => n.parent == parent && n.slot == slot) t

def children (t : NodeTable κ α) (parent : Nat) : List (Node κ α) :=
  t.filter fun n => n.parent == parent

/-- Rewrite the payload of every node whose identity is listed. -/
def modify (t : NodeTable κ α) (ids : List Nat) (f : α → α) : NodeTable κ α :=
  t.map fun n => if n.id ∈ ids then { n with data := f n.data } else n

/-- Put a new node between a node and its parent. The new node takes over the
parent's dictionary entry and the old node becomes its only child. -/
def splice (t : NodeTable κ α) (id newId : Nat) (topSlot bottomSlot : κ)
    (top bottom : α → α) : NodeTable κ α :=
  t.flatMap fun n =>
    if n.id = id then
      [⟨newId, n.parent, topSlot, top n.data⟩, ⟨n.id, newId, bottomSlot, bottom n.data⟩]
    else [n]

def attach (t : NodeTable κ α) (n : Node κ α) : NodeTable κ α :=
  t ++ [n]

def detach (t : NodeTable κ α) (id : Nat) : NodeTable κ α :=
  t.filter fun n => n.id != id

/-- Walk from a node towards the root, the node itself first. -/
def walkUp (t : NodeTable κ α) : Nat → Nat → List (Node κ α)
  | 0, _ => []
  | fuel + 1, id =>
    match t.find? id with
    | none => []
    | some n => n :: t.walkUp fuel n.parent

def ancestors (t : NodeTable κ α) (id : Nat) : List (Node κ α) :=
  t.walkUp t.length id

/-- `rows` are the nodes met on the way from the root down to `id`. -/
inductive Path (t : NodeTable κ α) : Nat → List (Node κ α) → Prop where
  | root : Path t rootId []
  | step {parent : Nat} {rows : List (Node κ α)} {n : Node κ α}
      (above : Path t parent rows) (mem : n ∈ t) (hangs : n.parent = parent) :
      Path t n.id (rows ++ [n])

/-- Every node has its own identity and leads back to the root. -/
structure Grounded (t : NodeTable κ α) : Prop where
  nodup : (t.map Node.id).Nodup
  root_not_mem : ∀ n ∈ t, n.id ≠ rootId
  reach : ∀ n ∈ t, ∃ rows, Path t n.id rows

structure Rooted (t : NodeTable κ α) : Prop extends Grounded t where
  slot_inj : ∀ a ∈ t, ∀ b ∈ t, a.parent = b.parent → a.slot = b.slot → a = b

theorem Rooted.nil : Rooted ([] : NodeTable κ α) where
  nodup := by simp
  root_not_mem := by simp
  reach := by simp
  slot_inj := by simp

theorem eq_of_id_eq {t : NodeTable κ α} (nodup : (t.map Node.id).Nodup)
    {a b : Node κ α} (ha : a ∈ t) (hb : b ∈ t) (hid : a.id = b.id) : a = b :=
  List.inj_on_of_nodup_map nodup ha hb hid

theorem mem_of_find? {t : NodeTable κ α} {id : Nat} {n : Node κ α}
    (h : t.find? id = some n) : n ∈ t ∧ n.id = id := by
  have hid := List.find?_some h
  exact ⟨List.mem_of_find?_eq_some h, by simpa using hid⟩

theorem find?_of_mem {t : NodeTable κ α} (nodup : (t.map Node.id).Nodup)
    {n : Node κ α} (hn : n ∈ t) : t.find? n.id = some n := by
  cases h : t.find? n.id with
  | none =>
    have := List.find?_eq_none.mp h n hn
    simp at this
  | some m =>
    obtain ⟨hm, hid⟩ := mem_of_find? h
    rw [eq_of_id_eq nodup hm hn hid]

theorem find?_eq_none {t : NodeTable κ α} {id : Nat} :
    t.find? id = none ↔ ∀ n ∈ t, n.id ≠ id := by
  simp [find?]

theorem mem_of_child? [DecidableEq κ] {t : NodeTable κ α} {parent : Nat} {slot : κ}
    {n : Node κ α} (h : t.child? parent slot = some n) :
    n ∈ t ∧ n.parent = parent ∧ n.slot = slot := by
  have hp := List.find?_some h
  simp only [Bool.and_eq_true, beq_iff_eq] at hp
  exact ⟨List.mem_of_find?_eq_some h, hp⟩

theorem child?_eq_none [DecidableEq κ] {t : NodeTable κ α} {parent : Nat} {slot : κ} :
    t.child? parent slot = none ↔ ∀ n ∈ t, n.parent = parent → n.slot ≠ slot := by
  simp [child?]

theorem mem_children {t : NodeTable κ α} {parent : Nat} {n : Node κ α} :
    n ∈ t.children parent ↔ n ∈ t ∧ n.parent = parent := by
  simp [children]

theorem mem_detach {t : NodeTable κ α} {id : Nat} {n : Node κ α} :
    n ∈ t.detach id ↔ n ∈ t ∧ n.id ≠ id := by
  simp [detach]

theorem mem_attach {t : NodeTable κ α} {a n : Node κ α} :
    n ∈ t.attach a ↔ n ∈ t ∨ n = a := by
  simp [attach]

/-! ### Paths from the root -/

theorem Path.mem {t : NodeTable κ α} {id : Nat} {rows : List (Node κ α)}
    (h : Path t id rows) : ∀ n ∈ rows, n ∈ t := by
  induction h with
  | root => simp
  | step above mem hangs ih =>
    intro n hn
    rcases List.mem_append.mp hn with hn | hn
    · exact ih n hn
    · rw [List.mem_singleton.mp hn]
      exact mem

theorem Path.nil_iff {t : NodeTable κ α} (grounded : Grounded t) {id : Nat}
    {rows : List (Node κ α)} (h : Path t id rows) : rows = [] ↔ id = rootId := by
  cases h with
  | root => simp
  | step above mem hangs => simpa using grounded.root_not_mem _ mem

/-- The last node of a path is the node the path leads to. -/
theorem Path.snoc {t : NodeTable κ α} {id : Nat} {rows : List (Node κ α)} {n : Node κ α}
    (h : Path t id (rows ++ [n])) : Path t n.parent rows ∧ n ∈ t ∧ n.id = id := by
  generalize hrows : rows ++ [n] = all at h
  cases h with
  | root => simp at hrows
  | step above mem hangs =>
    obtain ⟨hinit, hlast⟩ := List.append_inj' hrows rfl
    cases hinit
    cases hlast
    exact ⟨hangs ▸ above, mem, rfl⟩

theorem Path.snoc_inv {t : NodeTable κ α} {id : Nat} {rows : List (Node κ α)}
    (h : Path t id rows) (hid : id ≠ rootId) :
    ∃ init n, rows = init ++ [n] ∧ n ∈ t ∧ n.id = id ∧ Path t n.parent init := by
  cases h with
  | root => exact absurd rfl hid
  | step above mem hangs => exact ⟨_, _, rfl, mem, rfl, hangs ▸ above⟩

theorem Path.initial {t : NodeTable κ α} {id : Nat} {rows below : List (Node κ α)}
    {n : Node κ α} (h : Path t id (rows ++ n :: below)) : Path t n.id (rows ++ [n]) := by
  induction below using List.reverseRecOn generalizing id with
  | nil =>
    obtain ⟨above, mem, -⟩ := h.snoc
    exact .step above mem rfl
  | append_singleton below last ih =>
    rw [← List.cons_append, ← List.append_assoc] at h
    exact ih h.snoc.1

theorem Path.parent_eq {t : NodeTable κ α} {id : Nat} {rows below : List (Node κ α)}
    {n : Node κ α} (h : Path t id (rows ++ n :: below)) : Path t n.parent rows :=
  h.initial.snoc.1

theorem Path.unique {t : NodeTable κ α} (grounded : Grounded t) {id : Nat}
    {left right : List (Node κ α)} (hl : Path t id left) (hr : Path t id right) :
    left = right := by
  induction hl generalizing right with
  | root => exact (((Path.nil_iff grounded hr).mpr rfl)).symm
  | step above mem hangs ih =>
    obtain ⟨init, n, rfl, hn, hid, hinit⟩ :=
      hr.snoc_inv (grounded.root_not_mem _ mem)
    obtain rfl := eq_of_id_eq grounded.nodup hn mem hid
    rw [ih (hangs ▸ hinit)]

theorem Path.id_unique {t : NodeTable κ α} {left right : Nat} {rows : List (Node κ α)}
    (hl : Path t left rows) (hr : Path t right rows) : left = right := by
  cases hl with
  | root =>
    generalize hrows : ([] : List (Node κ α)) = rows at hr
    cases hr with
    | root => rfl
    | step => simp at hrows
  | step above mem hangs => exact hr.snoc.2.2

/-- No node occurs twice on a path: cutting the path at its first occurrence
would give a second, shorter path to the same node. -/
theorem Path.ids_nodup {t : NodeTable κ α} (grounded : Grounded t) {id : Nat}
    {rows : List (Node κ α)} (h : Path t id rows) : (rows.map Node.id).Nodup := by
  induction h with
  | root => simp
  | @step parent rows n above mem hangs ih =>
    rw [List.map_append, List.nodup_append]
    refine ⟨ih, by simp, ?_⟩
    intro a ha b hb hab
    simp only [List.map_cons, List.map_nil, List.mem_singleton] at hb
    obtain ⟨m, hm, hma⟩ := List.mem_map.mp ha
    obtain ⟨before, after, rfl⟩ := List.append_of_mem hm
    have hmn : m = n := eq_of_id_eq grounded.nodup (above.mem m (by simp)) mem
      (by rw [hma, hab, hb])
    subst hmn
    have hlen := congrArg List.length
      (Path.unique grounded above.initial (Path.step above mem hangs))
    simp only [List.length_append, List.length_cons, List.length_nil] at hlen
    omega

theorem Path.length_le {t : NodeTable κ α} (grounded : Grounded t) {id : Nat}
    {rows : List (Node κ α)} (h : Path t id rows) : rows.length ≤ t.length := by
  have hnodup := h.ids_nodup grounded
  have hsub : rows ⊆ t := h.mem
  exact (hnodup.of_map.subperm hsub).length_le

private theorem walkUp_eq {t : NodeTable κ α} (grounded : Grounded t) {id : Nat}
    {rows : List (Node κ α)} (h : Path t id rows) (fuel : Nat) (hfuel : rows.length ≤ fuel) :
    t.walkUp fuel id = rows.reverse := by
  induction h generalizing fuel with
  | root =>
    have hnone : t.find? rootId = none := find?_eq_none.mpr grounded.root_not_mem
    cases fuel <;> simp [walkUp, hnone]
  | step above mem hangs ih =>
    rw [List.length_append, List.length_singleton] at hfuel
    obtain ⟨fuel, rfl⟩ : ∃ m, fuel = m + 1 := ⟨fuel - 1, by omega⟩
    simp only [walkUp, find?_of_mem grounded.nodup mem, List.reverse_append,
      List.reverse_singleton, List.singleton_append]
    rw [hangs, ih fuel (by omega)]

theorem ancestors_eq {t : NodeTable κ α} (grounded : Grounded t) {id : Nat}
    {rows : List (Node κ α)} (h : Path t id rows) : t.ancestors id = rows.reverse :=
  walkUp_eq grounded h _ (h.length_le grounded)

theorem Path.mono {t u : NodeTable κ α} (hsub : ∀ n ∈ t, n ∈ u) {id : Nat}
    {rows : List (Node κ α)} (h : Path t id rows) : Path u id rows := by
  induction h with
  | root => exact .root
  | step above mem hangs ih => exact .step ih (hsub _ mem) hangs

/-- Rewriting nodes without moving them carries every path along. -/
theorem Path.map {t : NodeTable κ α} (g : Node κ α → Node κ β)
    (hid : ∀ n, (g n).id = n.id) (hparent : ∀ n, (g n).parent = n.parent) {id : Nat}
    {rows : List (Node κ α)} (h : Path t id rows) :
    Path (List.map g t) id (rows.map g) := by
  induction h with
  | root => exact .root
  | @step parent rows n above mem hangs ih =>
    rw [List.map_append, List.map_singleton, ← hid n]
    exact .step ih (List.mem_map_of_mem mem) (by rw [hparent, hangs])

theorem Grounded.parent_ne_id {t : NodeTable κ α} (grounded : Grounded t) {n : Node κ α}
    (hn : n ∈ t) : n.parent ≠ n.id := by
  intro heq
  obtain ⟨rows, hrows⟩ := grounded.reach n hn
  obtain ⟨init, m, rfl, hm, hid, hinit⟩ := hrows.snoc_inv (grounded.root_not_mem n hn)
  obtain rfl := eq_of_id_eq grounded.nodup hm hn hid
  have hlen := congrArg List.length (Path.unique grounded (heq ▸ hinit) hrows)
  simp at hlen

/-- A table without children of the root is empty. -/
theorem Grounded.eq_nil_of_bare {t : NodeTable κ α} (grounded : Grounded t)
    (hbare : ∀ n ∈ t, n.parent ≠ rootId) : t = [] := by
  apply List.eq_nil_iff_forall_not_mem.mpr
  intro n hn
  obtain ⟨rows, hrows⟩ := grounded.reach n hn
  cases rows with
  | nil => exact grounded.root_not_mem n hn ((hrows.nil_iff grounded).mp rfl)
  | cons first below =>
    have htop : Path t first.parent [] := by
      apply Path.parent_eq
      exact hrows
    exact hbare first (hrows.mem first (by simp)) ((htop.nil_iff grounded).mp rfl)

/-- Going down from any node ends at a leaf. -/
theorem Grounded.exists_leaf {t : NodeTable κ α} (grounded : Grounded t) {n : Node κ α}
    (hn : n ∈ t) : ∃ leaf ∈ t, (∀ m ∈ t, m.parent ≠ leaf.id) ∧
      ∃ rows, Path t leaf.id (rows ++ [leaf]) ∧ n ∈ rows ++ [leaf] := by
  have hdown : ∀ (k : Nat) (top : List (Node κ α)) (m : Node κ α), Path t m.id (top ++ [m]) →
      n ∈ top ++ [m] → t.length - top.length ≤ k → ∃ leaf ∈ t, (∀ m ∈ t, m.parent ≠ leaf.id) ∧
        ∃ rows, Path t leaf.id (rows ++ [leaf]) ∧ n ∈ rows ++ [leaf] := by
    intro k
    induction k with
    | zero =>
      intro top m hpath hmem hfew
      have hlen := hpath.length_le grounded
      rw [List.length_append, List.length_singleton] at hlen
      omega
    | succ k ih =>
      intro top m hpath hmem hfew
      by_cases hleaf : ∀ child ∈ t, child.parent ≠ m.id
      · exact ⟨m, hpath.mem m (by simp), hleaf, top, hpath, hmem⟩
      · push Not at hleaf
        obtain ⟨child, hchild, hparent⟩ := hleaf
        apply ih (top ++ [m]) child (.step hpath hchild hparent) (List.mem_append_left _ hmem)
        rw [List.length_append, List.length_singleton]
        omega
  obtain ⟨rows, hrows⟩ := grounded.reach n hn
  obtain ⟨top, m, rfl, hm, hid, -⟩ := hrows.snoc_inv (grounded.root_not_mem n hn)
  obtain rfl := eq_of_id_eq grounded.nodup hm hn hid
  exact hdown t.length top m hrows (by simp) (Nat.sub_le _ _)

/-- A path is the part of the table with its identities, in some order. -/
theorem Path.perm_filter {t : NodeTable κ α} (grounded : Grounded t) {id : Nat}
    {rows : List (Node κ α)} (h : Path t id rows) :
    rows.Perm (t.filter fun n => n.id ∈ rows.map Node.id) := by
  have hrows : rows.Nodup := (h.ids_nodup grounded).of_map
  have htable : t.Nodup := grounded.nodup.of_map
  rw [List.perm_ext_iff_of_nodup hrows (htable.filter _)]
  intro n
  simp only [List.mem_filter, decide_eq_true_eq]
  constructor
  · intro hn
    exact ⟨h.mem n hn, List.mem_map_of_mem hn⟩
  · rintro ⟨hn, hid⟩
    obtain ⟨m, hm, hmn⟩ := List.mem_map.mp hid
    rwa [← eq_of_id_eq grounded.nodup (h.mem m hm) hn hmn]

/-! ### Payload updates -/

theorem modify_eq_map (t : NodeTable κ α) (ids : List Nat) (f : α → α) :
    t.modify ids f = List.map
      (fun n => if n.id ∈ ids then { n with data := f n.data } else n) t := rfl

theorem mem_modify {t : NodeTable κ α} {ids : List Nat} {f : α → α} {n : Node κ α} :
    n ∈ t.modify ids f ↔
      ∃ m ∈ t, n = { m with data := if m.id ∈ ids then f m.data else m.data } := by
  rw [modify_eq_map, List.mem_map]
  constructor
  · rintro ⟨m, hm, rfl⟩
    exact ⟨m, hm, by split <;> simp_all⟩
  · rintro ⟨m, hm, rfl⟩
    exact ⟨m, hm, by split <;> simp_all⟩

theorem map_id_modify (t : NodeTable κ α) (ids : List Nat) (f : α → α) :
    (t.modify ids f).map Node.id = t.map Node.id := by
  rw [modify_eq_map, List.map_map]
  apply List.map_congr_left
  intro n _
  dsimp only [Function.comp]
  split <;> rfl

theorem Path.modify {t : NodeTable κ α} (ids : List Nat) (f : α → α) {id : Nat}
    {rows : List (Node κ α)} (h : Path t id rows) :
    Path (t.modify ids f) id (NodeTable.modify rows ids f) :=
  h.map _ (fun n => by split <;> rfl) (fun n => by split <;> rfl)

theorem Grounded.modify {t : NodeTable κ α} (grounded : Grounded t) (ids : List Nat)
    (f : α → α) : Grounded (t.modify ids f) where
  nodup := by rw [map_id_modify]; exact grounded.nodup
  root_not_mem := by
    intro n hn
    obtain ⟨m, hm, rfl⟩ := mem_modify.mp hn
    exact grounded.root_not_mem m hm
  reach := by
    intro n hn
    obtain ⟨m, hm, rfl⟩ := mem_modify.mp hn
    obtain ⟨rows, hrows⟩ := grounded.reach m hm
    exact ⟨_, hrows.modify ids f⟩

theorem Rooted.modify {t : NodeTable κ α} (rooted : Rooted t) (ids : List Nat)
    (f : α → α) : Rooted (t.modify ids f) where
  toGrounded := rooted.toGrounded.modify ids f
  slot_inj := by
    intro a ha b hb hparent hslot
    obtain ⟨m, hm, rfl⟩ := mem_modify.mp ha
    obtain ⟨n, hn, rfl⟩ := mem_modify.mp hb
    rw [rooted.slot_inj m hm n hn hparent hslot]

theorem find?_map_data (t : NodeTable κ α) (g : Node κ α → α) (id : Nat) :
    NodeTable.find? (t.map fun n => { n with data := g n } : NodeTable κ α) id =
      (t.find? id).map fun n => { n with data := g n } := by
  unfold find?
  rw [List.find?_map]
  rfl

theorem walkUp_map_data (t : NodeTable κ α) (g : Node κ α → α) (fuel id : Nat) :
    NodeTable.walkUp (t.map fun n => { n with data := g n } : NodeTable κ α) fuel id =
      (t.walkUp fuel id).map fun n => { n with data := g n } := by
  induction fuel generalizing id with
  | zero => rfl
  | succ fuel ih =>
    unfold walkUp
    rw [find?_map_data]
    cases t.find? id with
    | none => rfl
    | some n => simp [ih]

/-- Rewriting payloads does not move a node. -/
theorem ids_ancestors_map_data (t : NodeTable κ α) (g : Node κ α → α) (id : Nat) :
    (NodeTable.ancestors (t.map fun n => { n with data := g n } : NodeTable κ α) id).map Node.id =
      (t.ancestors id).map Node.id := by
  unfold ancestors
  rw [walkUp_map_data, List.length_map, List.map_map]
  rfl
/-! ### Splicing a node in -/

section Splice

variable {t : NodeTable κ α} {old : Node κ α} {newId : Nat} {topSlot bottomSlot : κ}
  {top bottom : α → α}

/-- The two halves a spliced node falls into; other nodes stay whole. -/
def halves (id newId : Nat) (topSlot bottomSlot : κ) (top bottom : α → α)
    (n : Node κ α) : List (Node κ α) :=
  if n.id = id then
    [⟨newId, n.parent, topSlot, top n.data⟩, ⟨n.id, newId, bottomSlot, bottom n.data⟩]
  else [n]

theorem splice_eq_flatMap (id : Nat) :
    t.splice id newId topSlot bottomSlot top bottom =
      List.flatMap (halves id newId topSlot bottomSlot top bottom) t := rfl

theorem flatMap_halves_of_not_mem {rows : List (Node κ α)} {id : Nat}
    (h : ∀ n ∈ rows, n.id ≠ id) :
    rows.flatMap (halves id newId topSlot bottomSlot top bottom) = rows := by
  induction rows with
  | nil => rfl
  | cons n rows ih =>
    rw [List.flatMap_cons, ih (fun m hm => h m (by simp [hm])), halves,
      if_neg (h n (by simp)), List.singleton_append]

theorem flatMap_halves (nodup : (t.map Node.id).Nodup) (hold : old ∈ t)
    (w : Node κ α → List β)
    (hw : w ⟨newId, old.parent, topSlot, top old.data⟩ ++
      w ⟨old.id, newId, bottomSlot, bottom old.data⟩ = w old)
    {rows : List (Node κ α)} (hrows : ∀ n ∈ rows, n ∈ t) :
    (rows.flatMap (halves old.id newId topSlot bottomSlot top bottom)).flatMap w =
      rows.flatMap w := by
  induction rows with
  | nil => rfl
  | cons n rows ih =>
    rw [List.flatMap_cons, List.flatMap_append, List.flatMap_cons,
      ih (fun m hm => hrows m (by simp [hm]))]
    congr 1
    by_cases hid : n.id = old.id
    · obtain rfl := eq_of_id_eq nodup (hrows n (by simp)) hold hid
      rw [halves, if_pos rfl]
      simpa using hw
    · rw [halves, if_neg hid]
      simp

theorem splice_perm (nodup : (t.map Node.id).Nodup) (hold : old ∈ t) :
    (t.splice old.id newId topSlot bottomSlot top bottom).Perm
      (⟨newId, old.parent, topSlot, top old.data⟩ ::
        List.map (fun n => if n.id = old.id then ⟨n.id, newId, bottomSlot, bottom n.data⟩ else n)
          t) := by
  rw [splice_eq_flatMap]
  induction t with
  | nil => simp at hold
  | cons n t ih =>
    rw [List.map_cons, List.nodup_cons] at nodup
    by_cases hid : n.id = old.id
    · have hrest : ∀ m ∈ t, m.id ≠ old.id := by
        intro m hm hmid
        exact nodup.1 (List.mem_map.mpr ⟨m, hm, hmid.trans hid.symm⟩)
      have hn : n = old := by
        rcases List.mem_cons.mp hold with h | h
        · exact h.symm
        · exact absurd rfl (hrest old h)
      subst hn
      rw [List.flatMap_cons, flatMap_halves_of_not_mem hrest, halves, if_pos rfl,
        List.map_cons, if_pos rfl, List.cons_append, List.cons_append, List.nil_append]
      have hsame : List.map (fun m : Node κ α => if m.id = n.id then
          ⟨m.id, newId, bottomSlot, bottom m.data⟩ else m) t = t := by
        conv_rhs => rw [← List.map_id t]
        exact List.map_congr_left fun m hm => if_neg (hrest m hm)
      rw [hsame]
    · have hmem : old ∈ t := by
        rcases List.mem_cons.mp hold with h | h
        · exact absurd (congrArg Node.id h.symm) hid
        · exact h
      rw [List.flatMap_cons, halves, if_neg hid, List.map_cons, if_neg hid,
        List.singleton_append]
      exact ((ih nodup.2 hmem).cons n).trans (List.Perm.swap _ _ _)

theorem mem_splice (nodup : (t.map Node.id).Nodup) (hold : old ∈ t) {n : Node κ α} :
    n ∈ t.splice old.id newId topSlot bottomSlot top bottom ↔
      n = ⟨newId, old.parent, topSlot, top old.data⟩ ∨
      n = ⟨old.id, newId, bottomSlot, bottom old.data⟩ ∨ (n ∈ t ∧ n.id ≠ old.id) := by
  rw [(splice_perm nodup hold).mem_iff, List.mem_cons, List.mem_map]
  refine or_congr Iff.rfl ⟨?_, ?_⟩
  · rintro ⟨m, hm, rfl⟩
    by_cases hid : m.id = old.id
    · obtain rfl := eq_of_id_eq nodup hm hold hid
      exact .inl (if_pos rfl)
    · rw [if_neg hid]
      exact .inr ⟨hm, hid⟩
  · rintro (rfl | ⟨hn, hid⟩)
    · exact ⟨old, hold, if_pos rfl⟩
    · exact ⟨n, hn, if_neg hid⟩

/-- Every old path survives with the spliced node replaced by its halves. -/
theorem Path.splice (nodup : (t.map Node.id).Nodup) (hold : old ∈ t) {id : Nat}
    {rows : List (Node κ α)} (h : Path t id rows) :
    Path (t.splice old.id newId topSlot bottomSlot top bottom) id
      (rows.flatMap (halves old.id newId topSlot bottomSlot top bottom)) := by
  induction h with
  | root => exact .root
  | @step parent rows n above mem hangs ih =>
    rw [List.flatMap_append, List.flatMap_singleton]
    by_cases hid : n.id = old.id
    · obtain rfl := eq_of_id_eq nodup mem hold hid
      rw [halves, if_pos rfl, List.append_cons]
      refine .step (n := ⟨n.id, newId, bottomSlot, bottom n.data⟩) ?_
        ((mem_splice nodup mem).mpr (.inr (.inl rfl))) rfl
      exact .step (n := ⟨newId, n.parent, topSlot, top n.data⟩) ih
        ((mem_splice nodup mem).mpr (.inl rfl)) hangs
    · rw [halves, if_neg hid]
      exact .step ih ((mem_splice nodup hold).mpr (.inr (.inr ⟨mem, hid⟩))) hangs

theorem Path.splice_top (nodup : (t.map Node.id).Nodup) (hold : old ∈ t)
    {rows : List (Node κ α)} (h : Path t old.parent rows) :
    Path (t.splice old.id newId topSlot bottomSlot top bottom) newId
      (rows.flatMap (halves old.id newId topSlot bottomSlot top bottom) ++
        [⟨newId, old.parent, topSlot, top old.data⟩]) :=
  .step (n := ⟨newId, old.parent, topSlot, top old.data⟩) (h.splice nodup hold)
    ((mem_splice nodup hold).mpr (.inl rfl)) rfl

theorem Grounded.splice (grounded : Grounded t) (hold : old ∈ t) (hroot : newId ≠ rootId)
    (fresh : ∀ n ∈ t, n.id ≠ newId) :
    Grounded (t.splice old.id newId topSlot bottomSlot top bottom) where
  nodup := by
    rw [((splice_perm grounded.nodup hold).map Node.id).nodup_iff, List.map_cons, List.map_map]
    have hids : List.map (Node.id ∘ fun n =>
        if n.id = old.id then ⟨n.id, newId, bottomSlot, bottom n.data⟩ else n) t =
        t.map Node.id := by
      apply List.map_congr_left
      intro n _
      dsimp only [Function.comp]
      split <;> rfl
    rw [hids, List.nodup_cons]
    refine ⟨?_, grounded.nodup⟩
    intro hmem
    obtain ⟨n, hn, hid⟩ := List.mem_map.mp hmem
    exact fresh n hn hid
  root_not_mem := by
    intro n hn
    rcases (mem_splice grounded.nodup hold).mp hn with rfl | rfl | ⟨hn, -⟩
    · exact hroot
    · exact grounded.root_not_mem old hold
    · exact grounded.root_not_mem n hn
  reach := by
    intro n hn
    rcases (mem_splice grounded.nodup hold).mp hn with rfl | rfl | ⟨hn, -⟩
    · obtain ⟨rows, hrows⟩ := grounded.reach old hold
      obtain ⟨init, m, -, hm, hid, hinit⟩ := hrows.snoc_inv (grounded.root_not_mem old hold)
      obtain rfl := eq_of_id_eq grounded.nodup hm hold hid
      exact ⟨_, hinit.splice_top grounded.nodup hold⟩
    · obtain ⟨rows, hrows⟩ := grounded.reach old hold
      exact ⟨_, hrows.splice grounded.nodup hold⟩
    · obtain ⟨rows, hrows⟩ := grounded.reach n hn
      exact ⟨_, hrows.splice grounded.nodup hold⟩

theorem Rooted.splice (rooted : Rooted t) (hold : old ∈ t) (hroot : newId ≠ rootId)
    (fresh : ∀ n ∈ t, n.id ≠ newId ∧ n.parent ≠ newId) (hslot : topSlot = old.slot) :
    Rooted (t.splice old.id newId topSlot bottomSlot top bottom) where
  toGrounded := rooted.toGrounded.splice hold hroot fun n hn => (fresh n hn).1
  slot_inj := by
    intro a ha b hb hparent hsame
    rcases (mem_splice rooted.nodup hold).mp ha with rfl | rfl | ⟨ha, haid⟩ <;>
      rcases (mem_splice rooted.nodup hold).mp hb with rfl | rfl | ⟨hb, hbid⟩
    · rfl
    · exact absurd hparent (fresh old hold).2
    · have := rooted.slot_inj old hold b hb hparent (hslot ▸ hsame)
      exact absurd (congrArg Node.id this.symm) hbid
    · exact absurd hparent.symm (fresh old hold).2
    · rfl
    · exact absurd hparent.symm (fresh b hb).2
    · have := rooted.slot_inj a ha old hold hparent (hsame.trans hslot)
      exact absurd (congrArg Node.id this) haid
    · exact absurd hparent (fresh a ha).2
    · exact rooted.slot_inj a ha b hb hparent hsame

end Splice

/-! ### Adding and removing leaves -/

theorem Grounded.attach {t : NodeTable κ α} (grounded : Grounded t) {n : Node κ α}
    (hroot : n.id ≠ rootId) (fresh : ∀ m ∈ t, m.id ≠ n.id)
    {rows : List (Node κ α)} (hparent : Path t n.parent rows) : Grounded (t.attach n) where
  nodup := by
    rw [NodeTable.attach, List.map_append, List.nodup_append]
    refine ⟨grounded.nodup, by simp, ?_⟩
    intro a ha b hb hab
    obtain ⟨m, hm, hma⟩ := List.mem_map.mp ha
    simp only [List.map_cons, List.map_nil, List.mem_singleton] at hb
    exact fresh m hm (by rw [hma, hab, hb])
  root_not_mem := by
    intro m hm
    rcases mem_attach.mp hm with hm | rfl
    · exact grounded.root_not_mem m hm
    · exact hroot
  reach := by
    intro m hm
    have hmono : ∀ k ∈ t, k ∈ t.attach n := fun k hk => mem_attach.mpr (.inl hk)
    rcases mem_attach.mp hm with hm | rfl
    · obtain ⟨rows, hrows⟩ := grounded.reach m hm
      exact ⟨rows, hrows.mono hmono⟩
    · exact ⟨_, .step (hparent.mono hmono) (mem_attach.mpr (.inr rfl)) rfl⟩

theorem Rooted.attach {t : NodeTable κ α} (rooted : Rooted t) {n : Node κ α}
    (hroot : n.id ≠ rootId) (fresh : ∀ m ∈ t, m.id ≠ n.id)
    {rows : List (Node κ α)} (hparent : Path t n.parent rows)
    (vacant : ∀ m ∈ t, m.parent = n.parent → m.slot ≠ n.slot) : Rooted (t.attach n) where
  toGrounded := rooted.toGrounded.attach hroot fresh hparent
  slot_inj := by
    intro a ha b hb hsame hslot
    rcases mem_attach.mp ha with hat | han <;> rcases mem_attach.mp hb with hbt | hbn
    · exact rooted.slot_inj a hat b hbt hsame hslot
    · exact absurd (hbn ▸ hslot) (vacant a hat (hbn ▸ hsame))
    · exact absurd (han ▸ hslot.symm) (vacant b hbt (han ▸ hsame.symm))
    · rw [han, hbn]

/-- A node without children lies on no other node's path. -/
theorem Path.avoids_leaf {t : NodeTable κ α} {id leaf : Nat} {rows : List (Node κ α)}
    (h : Path t id rows) (hleaf : ∀ n ∈ t, n.parent ≠ leaf) (hid : id ≠ leaf) :
    ∀ n ∈ rows, n.id ≠ leaf := by
  induction h with
  | root => simp
  | @step parent rows n above mem hangs ih =>
    intro m hm
    rcases List.mem_append.mp hm with hm | hm
    · exact ih (fun hp => hleaf n mem (hangs.trans hp)) m hm
    · rw [List.mem_singleton.mp hm]
      exact hid

theorem Path.detach {t : NodeTable κ α} {id leaf : Nat} {rows : List (Node κ α)}
    (h : Path t id rows) (havoid : ∀ n ∈ rows, n.id ≠ leaf) : Path (t.detach leaf) id rows := by
  induction h with
  | root => exact .root
  | step above mem hangs ih =>
    refine .step (ih fun m hm => havoid m (by simp [hm])) ?_ hangs
    exact mem_detach.mpr ⟨mem, havoid _ (by simp)⟩

theorem Path.of_detach {t : NodeTable κ α} {id leaf : Nat} {rows : List (Node κ α)}
    (h : Path (t.detach leaf) id rows) : Path t id rows :=
  h.mono fun _ hn => (mem_detach.mp hn).1

theorem Rooted.detach {t : NodeTable κ α} (rooted : Rooted t) {leaf : Nat}
    (hleaf : ∀ n ∈ t, n.parent ≠ leaf) : Rooted (t.detach leaf) where
  nodup := rooted.nodup.sublist (List.filter_sublist.map Node.id)
  root_not_mem := fun n hn => rooted.root_not_mem n (mem_detach.mp hn).1
  reach := by
    intro n hn
    obtain ⟨hn, hid⟩ := mem_detach.mp hn
    obtain ⟨rows, hrows⟩ := rooted.reach n hn
    exact ⟨rows, hrows.detach (hrows.avoids_leaf hleaf hid)⟩
  slot_inj := fun a ha b hb => rooted.slot_inj a (mem_detach.mp ha).1 b (mem_detach.mp hb).1

end NodeTable
end SglJax.Foundation
