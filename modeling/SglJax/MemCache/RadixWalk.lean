import SglJax.MemCache.PrefixMap
import SglJax.MemCache.RadixCache

/-! What the two walks of `RadixCache` do. Both go down along a page-aligned key
and may cut nodes on the way; what they change is a sequence of such cuts, so
every invariant that survives one cut survives the walk. -/
namespace SglJax.MemCache.RadixCache

open Foundation Foundation.NodeTable

structure Valid (c : RadixCache) : Prop where
  page_pos : 0 < c.pageSize
  tree : KeyedTree c.pageSize c.isEagle c.tree
  value_len : ∀ n ∈ c.tree, n.data.value.length = n.data.key.length
  counter_pos : 0 < c.counter
  id_lt : ∀ n ∈ c.tree, n.id < c.counter

def values (n : TreeNode RadixNode) : List Nat := n.data.value

theorem Valid.reset {pageSize : Nat} (hpage : 0 < pageSize) (disable isEagle : Bool) :
    Valid (reset pageSize disable isEagle) where
  page_pos := hpage
  tree := ⟨.nil, by simp [RadixCache.reset], by simp [RadixCache.reset],
    by simp [RadixCache.reset], by simp [RadixCache.reset], by simp [RadixCache.reset]⟩
  value_len := by simp [RadixCache.reset]
  counter_pos := by simp [RadixCache.reset]
  id_lt := by simp [RadixCache.reset]

theorem Valid.node_lt {c : RadixCache} (valid : Valid c) {node : Nat}
    {rows : List (TreeNode RadixNode)} (h : Path c.tree node rows) : node < c.counter := by
  cases h with
  | root => exact valid.counter_pos
  | step above mem hangs => exact valid.id_lt _ mem

theorem Valid.fresh {c : RadixCache} (valid : Valid c) :
    ∀ m ∈ c.tree, m.id ≠ c.counter ∧ m.parent ≠ c.counter := by
  intro m hm
  obtain ⟨rows, hrows⟩ := valid.tree.rooted.reach m hm
  obtain ⟨init, k, -, hk, hid, hinit⟩ := hrows.snoc_inv (valid.tree.rooted.root_not_mem m hm)
  obtain rfl := eq_of_id_eq valid.tree.rooted.nodup hk hm hid
  exact ⟨(valid.id_lt k hm).ne, (valid.node_lt hinit).ne⟩

/-! ### Cutting a node -/

/-- The cache after `_split_node`, with the dictionary keys it computes. -/
def cutNode (c : RadixCache) (child : TreeNode RadixNode) (n : Nat) (bottomSlot : PyVal) :
    RadixCache :=
  { c with
    tree := c.tree.splice child.id c.counter child.slot bottomSlot (topHalf n) (bottomHalf n)
    counter := c.counter + 1 }

/-- What `_split_node` needs to work as intended. -/
structure Cuttable (c : RadixCache) (child : TreeNode RadixNode) (n : Nat)
    (bottomSlot : PyVal) : Prop where
  mem : child ∈ c.tree
  pos : 0 < n
  lt : n < child.data.key.length
  aligned : n % c.pageSize = 0
  slot : getChildKey c.pageSize (child.data.key.drop n) = .ok bottomSlot

section Cut

variable {c : RadixCache} {child : TreeNode RadixNode} {n : Nat} {bottomSlot : PyVal}

theorem Cuttable.clean (cut : Cuttable c child n bottomSlot) (valid : Valid c) :
    CleanSplit c.pageSize c.tree child n c.counter child.slot bottomSlot
      (topHalf n) (bottomHalf n) where
  mem := cut.mem
  pos := cut.pos
  lt := cut.lt
  aligned := cut.aligned
  newId_ne := valid.counter_pos.ne'
  fresh := valid.fresh
  top_key := rfl
  bottom_key := rfl
  top_slot := valid.tree.slot_eq child cut.mem
  bottom_slot := cut.slot

theorem cuttable_of_mem (hchild : child ∈ c.tree) (hpos : 0 < n)
    (hlt : n < child.data.key.length) (halign : n % c.pageSize = 0) :
    ∃ bottomSlot, Cuttable c child n bottomSlot := by
  have hne : (child.data.key.drop n).tokenIds ≠ [] := by
    rw [RadixKey.tokenIds_drop, ne_eq, List.drop_eq_nil_iff]
    rw [RadixKey.length] at hlt
    omega
  obtain ⟨bottomSlot, hslot⟩ := getChildKey_ok c.pageSize hne
  exact ⟨bottomSlot, hchild, hpos, hlt, halign, hslot⟩

theorem Cuttable.splitNode_eq (cut : Cuttable c child n bottomSlot) (valid : Valid c) :
    c.splitNode child n = .ok (c.cutNode child n bottomSlot, c.counter) := by
  have htop := valid.tree.slot_eq child cut.mem
  change getChildKey c.pageSize child.data.key = .ok child.slot at htop
  simp only [splitNode, cut.slot, htop]
  rfl

theorem Valid.cutNode (valid : Valid c) (cut : Cuttable c child n bottomSlot) :
    Valid (c.cutNode child n bottomSlot) := by
  have hmem := @mem_splice _ _ c.tree child c.counter child.slot bottomSlot (topHalf n)
    (bottomHalf n) valid.tree.rooted.nodup cut.mem
  refine ⟨valid.page_pos, valid.tree.splice (cut.clean valid), ?_, ?_, ?_⟩
  · intro m hm
    have hlen := valid.value_len child cut.mem
    rcases hmem.mp hm with rfl | rfl | ⟨hm, -⟩
    · simp [topHalf, hlen]
    · simp [bottomHalf, hlen]
    · exact valid.value_len m hm
  · exact Nat.succ_pos _
  · intro m hm
    change m.id < c.counter + 1
    rcases hmem.mp hm with rfl | rfl | ⟨hm, -⟩
    · exact Nat.lt_succ_self _
    · exact Nat.lt_succ_of_lt (valid.id_lt child cut.mem)
    · exact Nat.lt_succ_of_lt (valid.id_lt m hm)

theorem Cuttable.values_halves (cut : Cuttable c child n bottomSlot) (valid : Valid c) :
    (values ⟨c.counter, child.parent, child.slot, topHalf n child.data⟩).length = n ∧
    values ⟨c.counter, child.parent, child.slot, topHalf n child.data⟩ ++
      values ⟨child.id, c.counter, bottomSlot, bottomHalf n child.data⟩ = values child := by
  have hlen := valid.value_len child cut.mem
  have hlt := cut.lt
  constructor
  · simp only [values, topHalf, List.length_take]
    omega
  · exact List.take_append_drop _ _

theorem Cuttable.stored_iff (cut : Cuttable c child n bottomSlot) (valid : Valid c)
    {key : RadixKey} {slots : List Nat} :
    Stored values (c.cutNode child n bottomSlot).tree key slots ↔
      Stored values c.tree key slots :=
  (cut.clean valid).stored_iff valid.tree valid.value_len (cut.values_halves valid).1
    (cut.values_halves valid).2

end Cut

/-- `d` is `c` after cutting some nodes. -/
inductive Cuts : RadixCache → RadixCache → Prop where
  | refl (c : RadixCache) : Cuts c c
  | head {c d : RadixCache} {child : TreeNode RadixNode} {n : Nat} {bottomSlot : PyVal}
      (cut : Cuttable c child n bottomSlot) (rest : Cuts (c.cutNode child n bottomSlot) d) :
      Cuts c d

/-- Every invariant that survives a cut survives a sequence of them. -/
theorem Cuts.preserves {P : RadixCache → Prop}
    (step : ∀ {c child n bottomSlot}, Valid c → P c → Cuttable c child n bottomSlot →
      P (c.cutNode child n bottomSlot)) {c d : RadixCache} (cuts : Cuts c d) (valid : Valid c)
    (h : P c) : Valid d ∧ P d := by
  induction cuts with
  | refl c => exact ⟨valid, h⟩
  | head cut rest ih => exact ih (valid.cutNode cut) (step valid h cut)

theorem Cuts.valid {c d : RadixCache} (cuts : Cuts c d) (valid : Valid c) : Valid d :=
  (cuts.preserves (P := fun _ => True) (fun _ _ _ => trivial) valid trivial).1

theorem Cuts.settings {c d : RadixCache} (cuts : Cuts c d) :
    d.pageSize = c.pageSize ∧ d.disable = c.disable ∧ d.isEagle = c.isEagle ∧
      d.evictableSize = c.evictableSize ∧ d.protectedSize = c.protectedSize := by
  induction cuts with
  | refl c => exact ⟨rfl, rfl, rfl, rfl, rfl⟩
  | head cut rest ih => exact ih

theorem Cuts.stored_iff {c d : RadixCache} (cuts : Cuts c d) (valid : Valid c)
    {key : RadixKey} {slots : List Nat} :
    Stored values d.tree key slots ↔ Stored values c.tree key slots := by
  induction cuts with
  | refl c => exact Iff.rfl
  | head cut rest ih => exact (ih (valid.cutNode cut)).trans (cut.stored_iff valid)

/-! ### The walks -/

/-- The key a walk looks up: aligned to pages and of the cache's token kind. -/
structure Lookup (c : RadixCache) (key : RadixKey) : Prop where
  aligned : key.length % c.pageSize = 0
  kind : OfKind c.isEagle key.tokenIds

theorem Cuts.lookup {c d : RadixCache} (cuts : Cuts c d) {key : RadixKey}
    (h : Lookup c key) : Lookup d key := by
  obtain ⟨hpage, -, heagle, -⟩ := cuts.settings
  exact ⟨by rw [hpage]; exact h.aligned, by rw [heagle]; exact h.kind⟩

section Walks

variable {c : RadixCache} {key : RadixKey} {node : Nat} {rows : List (TreeNode RadixNode)}

theorem Lookup.rest (h : Lookup c key) (valid : Valid c) (walk : Walk c.tree key node rows) :
    Lookup c (key.drop (spell rows).length) where
  aligned := by
    rw [RadixKey.length_drop]
    exact Nat.mod_eq_zero_of_dvd (Nat.dvd_sub (Nat.dvd_of_mod_eq_zero h.aligned)
      (Nat.dvd_of_mod_eq_zero (valid.tree.spell_aligned walk.path.mem)))
  kind := h.kind.drop _

/-- The walk after the node below its end has been cut where it stops agreeing
with the key. -/
theorem Walk.cut {child : TreeNode RadixNode} {n : Nat} {bottomSlot : PyVal} (valid : Valid c)
    (walk : Walk c.tree key child.parent rows) (hspace : (label child).SameNamespace key)
    (cut : Cuttable c child n bottomSlot)
    (hsame : child.data.key.tokenIds.take n =
      (key.tokenIds.drop (spell rows).length).take n) :
    ∃ above, Walk (c.cutNode child n bottomSlot).tree key c.counter above ∧
      spell above = spell rows ++ child.data.key.tokenIds.take n ∧
      above.flatMap values = rows.flatMap values ++ child.data.value.take n := by
  have hread := flatMap_halves valid.tree.rooted.nodup cut.mem values (cut.values_halves valid).2
    walk.path.mem
  obtain ⟨hwalk, hspell⟩ := (cut.clean valid).walk_top valid.tree walk hspace hsame
  refine ⟨_, hwalk, hspell, ?_⟩
  rw [List.flatMap_append, hread, List.flatMap_singleton]
  rfl

/-- One look below the end of a walk that has some of the key left. -/
theorem Valid.child_match (valid : Valid c) (h : Lookup c key)
    (walk : Walk c.tree key node rows)
    (hne : (key.drop (spell rows).length).length ≠ 0) {slot : PyVal}
    (hslot : getChildKey c.pageSize (key.drop (spell rows).length) = .ok slot)
    {child : TreeNode RadixNode} (hchild : c.tree.child? node slot = some child) :
    child ∈ c.tree ∧ child.parent = node ∧ (label child).SameNamespace key ∧
      ∃ n, keyMatchFn c.pageSize child.data.key (key.drop (spell rows).length) = .ok n ∧
        0 < n ∧ PageMatch c.pageSize child.data.key.tokenIds
          (key.tokenIds.drop (spell rows).length) n :=
  valid.tree.child_match valid.page_pos (fun hnil => hne (by rw [RadixKey.length, hnil]; rfl))
    (h.rest valid walk).aligned (h.rest valid walk).kind hslot hchild

theorem Walk.down_whole {child : TreeNode RadixNode} {n : Nat}
    (walk : Walk c.tree key child.parent rows) (hchild : child ∈ c.tree)
    (hspace : (label child).SameNamespace key)
    (hmatch : PageMatch c.pageSize child.data.key.tokenIds
      (key.tokenIds.drop (spell rows).length) n) (hn : ¬ n < child.data.key.length) :
    n = child.data.key.length ∧ Walk c.tree key child.id (rows ++ [child]) := by
  have hle := hmatch.le_left
  have hlen : n = child.data.key.length := by
    rw [RadixKey.length] at hn ⊢
    omega
  refine ⟨hlen, walk.down hchild hspace ?_⟩
  have hsame := hmatch.same
  rw [hlen, RadixKey.length, List.take_length] at hsame
  change child.data.key.tokenIds <+: _
  rw [hsame]
  exact List.take_prefix _ _

/-- The child key is the next one whenever some of the key is left. -/
def NextKey (c : RadixCache) (key : RadixKey) (childKey : PyVal) : Prop :=
  key.length ≠ 0 → getChildKey c.pageSize key = .ok childKey

theorem nextChildKey_ok (c : RadixCache) (key : RadixKey) (childKey : PyVal) :
    ∃ next, c.nextChildKey key childKey = .ok next ∧ NextKey c key next := by
  unfold nextChildKey
  split
  · rename_i hzero
    exact ⟨childKey, rfl, fun h => absurd hzero h⟩
  · rename_i hne
    obtain ⟨slot, hslot⟩ := getChildKey_ok c.pageSize
      (fun hnil : key.tokenIds = [] => hne (by rw [RadixKey.length, hnil]; rfl))
    exact ⟨slot, hslot, fun _ => hslot⟩

theorem spell_append_take {child : TreeNode RadixNode} {n : Nat}
    (hmatch : PageMatch c.pageSize child.data.key.tokenIds
      (key.tokenIds.drop (spell rows).length) n) :
    (spell rows ++ child.data.key.tokenIds.take n).length = (spell rows).length + n := by
  have hle := hmatch.le_left
  rw [List.length_append, List.length_take, Nat.min_eq_left hle]

/-- What a walk along `key` leaves behind: some nodes cut, and a path to the
node it ends at that spells as much of the key as it went along. -/
structure Reached (c d : RadixCache) (key : RadixKey) (node : Nat)
    (rows : List (TreeNode RadixNode)) : Prop where
  cuts : Cuts c d
  walk : Walk d.tree key node rows

theorem matchLoop_spec (valid : Valid c) (h : Lookup c key)
    (walk : Walk c.tree key node rows) (fuel : Nat) {childKey : PyVal} {acc : List (List Nat)}
    (hfuel : (key.drop (spell rows).length).length < fuel)
    (hnext : NextKey c (key.drop (spell rows).length) childKey)
    (hacc : acc.flatten = rows.flatMap values) :
    ∃ d seqs last path,
      matchLoop fuel c node (key.drop (spell rows).length) childKey acc = .ok (d, seqs, last) ∧
      Reached c d key last path ∧ seqs.flatten = path.flatMap values ∧
      ∀ m slots, m % c.pageSize = 0 → m ≤ key.length → Stored values c.tree (key.take m) slots →
        m ≤ (spell path).length := by
  induction fuel generalizing node rows childKey acc with
  | zero => omega
  | succ fuel ih =>
    rw [matchLoop]
    by_cases hzero : (key.drop (spell rows).length).length = 0
    · rw [if_pos hzero]
      refine ⟨c, acc, node, rows, rfl, ⟨.refl c, walk⟩, hacc, ?_⟩
      intro m slots _ hm _
      rw [RadixKey.length_drop] at hzero
      omega
    rw [if_neg hzero]
    cases hchild : c.tree.child? node childKey with
    | none =>
      refine ⟨c, acc, node, rows, rfl, ⟨.refl c, walk⟩, hacc, ?_⟩
      rintro m slots halign hm ⟨cover, hcover, -⟩
      exact valid.tree.longest_of_no_child walk (fun _ => ⟨childKey, hnext hzero, hchild⟩)
        halign hm hcover
    | some child =>
      obtain ⟨hmem, rfl, hspace, n, hn, hpos, hmatch⟩ :=
        valid.child_match h walk hzero (hnext hzero) hchild
      simp only [hn, bind, Except.bind]
      by_cases hlt : n < child.data.key.length
      · -- The key leaves the edge of `child` in the middle.
        obtain ⟨bottomSlot, cut⟩ := cuttable_of_mem hmem hpos hlt hmatch.aligned
        obtain ⟨above, hwalk, hspell, hvalues⟩ := Walk.cut valid walk hspace cut hmatch.same
        rw [if_pos hlt, cut.splitNode_eq valid]
        refine ⟨_, _, _, above, rfl, ⟨.head cut (.refl _), hwalk⟩, ?_, ?_⟩
        · rw [List.flatten_append, hacc, hvalues]
          simp
        · rintro m slots halign hm ⟨cover, hcover, -⟩
          rw [hspell, spell_append_take hmatch]
          exact valid.tree.longest_of_partial walk hmem hspace hpos hmatch hlt halign hm hcover
      · obtain ⟨rfl, hwalk⟩ := Walk.down_whole walk hmem hspace hmatch hlt
        rw [if_neg hlt]
        have hspell : (spell (rows ++ [child])).length =
            (spell rows).length + child.data.key.length := by
          rw [spell_append, spell_singleton, List.length_append]
          rfl
        have hdrop : (key.drop (spell rows).length).drop child.data.key.length =
            key.drop (spell (rows ++ [child])).length := by
          rw [RadixKey.drop_drop, hspell]
        rw [hdrop]
        obtain ⟨next, hnextEq, hnextKey⟩ :=
          nextChildKey_ok c (key.drop (spell (rows ++ [child])).length) childKey
        rw [hnextEq]
        refine ih hwalk ?_ hnextKey ?_
        · rw [RadixKey.length_drop] at hfuel hzero ⊢
          omega
        · rw [List.flatten_append, hacc]
          simp [values]

theorem insertLoop_spec (valid : Valid c) (h : Lookup c key) (value : List Nat)
    (walk : Walk c.tree key node rows) (fuel : Nat) {childKey : PyVal}
    (hfuel : (key.drop (spell rows).length).length < fuel)
    (hnext : NextKey c (key.drop (spell rows).length) childKey) :
    ∃ d last path lastKey,
      insertLoop fuel c node (key.drop (spell rows).length) (value.drop (spell rows).length)
        childKey (spell rows).length =
        .ok (d, last, key.drop (spell path).length, value.drop (spell path).length, lastKey,
          (spell path).length) ∧
      Reached c d key last path ∧ NextKey d (key.drop (spell path).length) lastKey ∧
      ((key.drop (spell path).length).length ≠ 0 → d.tree.child? last lastKey = none) := by
  induction fuel generalizing c node rows childKey with
  | zero => omega
  | succ fuel ih =>
    rw [insertLoop]
    by_cases hzero : (key.drop (spell rows).length).length = 0
    · rw [if_pos hzero]
      exact ⟨c, node, rows, childKey, rfl, ⟨.refl c, walk⟩, hnext, fun hne => absurd hzero hne⟩
    rw [if_neg hzero]
    cases hchild : c.tree.child? node childKey with
    | none => exact ⟨c, node, rows, childKey, rfl, ⟨.refl c, walk⟩, hnext, fun _ => hchild⟩
    | some child =>
      obtain ⟨hmem, rfl, hspace, n, hn, hpos, hmatch⟩ :=
        valid.child_match h walk hzero (hnext hzero) hchild
      simp only [hn, bind, Except.bind]
      -- Both ways of going on leave a walk that is `n` tokens longer.
      have hgo {d : RadixCache} {mid : Nat} {path : List (TreeNode RadixNode)} (cuts : Cuts c d)
          (hwalk : Walk d.tree key mid path)
          (hspell : (spell path).length = (spell rows).length + n) :
          ∃ next, d.nextChildKey ((key.drop (spell rows).length).drop n) childKey = .ok next ∧
            ∃ e last path lastKey,
            insertLoop fuel d mid ((key.drop (spell rows).length).drop n)
              ((value.drop (spell rows).length).drop n) next ((spell rows).length + n) =
              .ok (e, last, key.drop (spell path).length, value.drop (spell path).length, lastKey,
                (spell path).length) ∧
            Reached d e key last path ∧ NextKey e (key.drop (spell path).length) lastKey ∧
            ((key.drop (spell path).length).length ≠ 0 → e.tree.child? last lastKey = none) := by
        have hdrop : (key.drop (spell rows).length).drop n = key.drop (spell path).length := by
          rw [RadixKey.drop_drop, hspell]
        rw [hdrop, List.drop_drop, ← hspell]
        obtain ⟨next, hnextEq, hnextKey⟩ :=
          nextChildKey_ok d (key.drop (spell path).length) childKey
        refine ⟨next, hnextEq, ih (cuts.valid valid) (cuts.lookup h) hwalk ?_ hnextKey⟩
        rw [RadixKey.length_drop] at hfuel hzero ⊢
        omega
      by_cases hlt : n < child.data.key.length
      · obtain ⟨bottomSlot, cut⟩ := cuttable_of_mem hmem hpos hlt hmatch.aligned
        obtain ⟨above, hwalk, hspell, -⟩ := Walk.cut valid walk hspace cut hmatch.same
        rw [if_pos hlt, cut.splitNode_eq valid]
        obtain ⟨next, hnextEq, e, last, path, lastKey, heq, hreach, hrest⟩ :=
          hgo (.head cut (.refl _)) hwalk (by rw [hspell, spell_append_take hmatch])
        simp only [hnextEq]
        exact ⟨e, last, path, lastKey, heq, ⟨.head cut hreach.cuts, hreach.walk⟩, hrest⟩
      · obtain ⟨rfl, hwalk⟩ := Walk.down_whole walk hmem hspace hmatch hlt
        rw [if_neg hlt]
        obtain ⟨next, hnextEq, e, last, path, lastKey, heq, hreach, hrest⟩ :=
          hgo (.refl c) hwalk (by rw [spell_append, spell_singleton, List.length_append]; rfl)
        simp only [pure, Except.pure, hnextEq]
        exact ⟨e, last, path, lastKey, heq, hreach, hrest⟩

end Walks
end SglJax.MemCache.RadixCache
