import SglJax.MemCache.KeyedTree

/-! What a prefix cache is for: a partial map from page-aligned keys to the
slots that hold them, closed under page-aligned prefixes. A tree represents the
map that reads the slots along its paths; the edits of a tree are followed
here on the map. -/
namespace SglJax.MemCache

open Foundation Foundation.NodeTable

abbrev PrefixMap := RadixKey → Option (List Nat)

namespace PrefixMap

/-- `n` is the length of the longest page-aligned part of the key with an
entry. -/
structure Longest (pageSize : Nat) (m : PrefixMap) (key : RadixKey) (n : Nat) : Prop where
  aligned : n % pageSize = 0
  le_length : n ≤ key.length
  stored : (m (key.take n)).isSome
  longest : ∀ j, j % pageSize = 0 → j ≤ key.length → (m (key.take j)).isSome → j ≤ n

/-- Keep every entry, and enter each longer page-aligned part of the key with
the slots of its stored part `n` followed by the given ones. -/
def extend (pageSize : Nat) (m : PrefixMap) (key : RadixKey) (n : Nat) (slots : List Nat) :
    PrefixMap := fun other =>
  match m other with
  | some old => some old
  | none =>
    if other.length % pageSize = 0 ∧ other = key.take other.length then
      (m (key.take n)).map fun old => old ++ (slots.drop n).take (other.length - n)
    else none

end PrefixMap

section

variable {α : Type} [Keyed α] {pageSize : Nat} {isEagle : Bool} {t : Tree α}

/-- The slots read along a path that covers the key. -/
def Stored (w : TreeNode α → List Nat) (t : Tree α) (key : RadixKey) (slots : List Nat) : Prop :=
  ∃ rows, Covers t key rows ∧ slots = (rows.flatMap w).take key.length

variable {w : TreeNode α → List Nat} {key : RadixKey}

theorem KeyedTree.stored_unique (tree : KeyedTree pageSize isEagle t)
    (hw : ∀ n ∈ t, (w n).length = (label n).length) (halign : key.length % pageSize = 0)
    {left right : List Nat} (hl : Stored w t key left) (hr : Stored w t key right) :
    left = right := by
  obtain ⟨rowsL, hcl, rfl⟩ := hl
  obtain ⟨rowsR, hcr, rfl⟩ := hr
  exact tree.covers_unique halign hcl hcr w hw

theorem Walk.stored {node : Nat} {rows : List (TreeNode α)} (walk : Walk t key node rows)
    (hw : ∀ n ∈ t, (w n).length = (label n).length) :
    Stored w t (key.take (spell rows).length) (rows.flatMap w) := by
  refine ⟨rows, walk.covers, ?_⟩
  have hlen := length_flatMap_eq w fun m hm => hw m (walk.path.mem m hm)
  rw [RadixKey.length_take, Nat.min_eq_left walk.length_le, List.take_of_length_le (by omega)]

/-! ### Splitting a node -/

section Splice

variable {old : TreeNode α} {n newId : Nat} {topSlot bottomSlot : PyVal} {top bottom : α → α}

theorem CleanSplit.spell_flatMap
    (cut : CleanSplit pageSize t old n newId topSlot bottomSlot top bottom)
    (tree : KeyedTree pageSize isEagle t) {rows : List (TreeNode α)} (hrows : ∀ m ∈ rows, m ∈ t) :
    spell (rows.flatMap (halves old.id newId topSlot bottomSlot top bottom)) = spell rows := by
  refine flatMap_halves tree.rooted.nodup cut.mem (fun m => (label m).tokenIds) ?_ hrows
  simp only [label, cut.top_key, cut.bottom_key]
  exact List.take_append_drop _ _

theorem CleanSplit.covers
    (cut : CleanSplit pageSize t old n newId topSlot bottomSlot top bottom)
    (tree : KeyedTree pageSize isEagle t) {rows : List (TreeNode α)} (h : Covers t key rows) :
    Covers (t.splice old.id newId topSlot bottomSlot top bottom) key
      (rows.flatMap (halves old.id newId topSlot bottomSlot top bottom)) := by
  obtain ⟨⟨id, hpath⟩, hspace, hspell⟩ := h
  refine ⟨⟨id, hpath.splice tree.rooted.nodup cut.mem⟩, ?_, ?_⟩
  · intro m hm
    obtain ⟨k, hk, hmk⟩ := List.mem_flatMap.mp hm
    rw [halves] at hmk
    split at hmk
    · rename_i hid
      obtain rfl := eq_of_id_eq tree.rooted.nodup (hpath.mem k hk) cut.mem hid
      simp only [List.mem_cons, List.not_mem_nil, or_false] at hmk
      rcases hmk with rfl | rfl
      · exact (cut.sameSpace (.inl rfl)).trans (hspace k hk)
      · exact (cut.sameSpace (.inr rfl)).trans (hspace k hk)
    · rw [List.mem_singleton.mp hmk]
      exact hspace k hk
  · rw [cut.spell_flatMap tree hpath.mem]
    exact hspell

/-- The walk after the node below its end has been split where it stops agreeing
with the key. -/
theorem CleanSplit.walk_top
    (cut : CleanSplit pageSize t old n newId topSlot bottomSlot top bottom)
    (tree : KeyedTree pageSize isEagle t) {rows : List (TreeNode α)}
    (walk : Walk t key old.parent rows) (hspace : (label old).SameNamespace key)
    (hsame : (label old).tokenIds.take n = (key.tokenIds.drop (spell rows).length).take n) :
    Walk (t.splice old.id newId topSlot bottomSlot top bottom) key newId
        (rows.flatMap (halves old.id newId topSlot bottomSlot top bottom) ++
          [⟨newId, old.parent, topSlot, top old.data⟩]) ∧
      spell (rows.flatMap (halves old.id newId topSlot bottomSlot top bottom) ++
          [⟨newId, old.parent, topSlot, top old.data⟩]) =
        spell rows ++ (label old).tokenIds.take n := by
  have hspell : spell (rows.flatMap (halves old.id newId topSlot bottomSlot top bottom) ++
      [⟨newId, old.parent, topSlot, top old.data⟩]) =
        spell rows ++ (label old).tokenIds.take n := by
    rw [spell_append, cut.spell_flatMap tree walk.path.mem, spell_singleton, label, cut.top_key]
    rfl
  refine ⟨⟨walk.path.splice_top tree.rooted.nodup cut.mem, ?_, ?_⟩, hspell⟩
  · intro m hm
    rcases List.mem_append.mp hm with hm | hm
    · exact (cut.covers tree walk.covers).2.1 m hm
    · rw [List.mem_singleton.mp hm]
      exact (cut.sameSpace (.inl rfl)).trans hspace
  · rw [hspell, hsame]
    conv_rhs => rw [← List.take_append_drop (spell rows).length key.tokenIds]
    rw [← List.prefix_iff_eq_take.mp walk.spelled, List.prefix_append_right_inj]
    exact List.take_prefix _ _

/-- Every path of the split tree is an old path with the node in halves, except
the one that ends at the upper half. -/
theorem CleanSplit.path_inv
    (cut : CleanSplit pageSize t old n newId topSlot bottomSlot top bottom)
    (tree : KeyedTree pageSize isEagle t) {id : Nat} {rows : List (TreeNode α)}
    (h : Path (t.splice old.id newId topSlot bottomSlot top bottom) id rows) :
    (∃ init, Path t id init ∧ id ≠ newId ∧
      rows = init.flatMap (halves old.id newId topSlot bottomSlot top bottom)) ∨
    (∃ init, Path t old.parent init ∧ id = newId ∧
      rows = init.flatMap (halves old.id newId topSlot bottomSlot top bottom) ++
        [⟨newId, old.parent, topSlot, top old.data⟩]) := by
  have hrooted := (tree.splice cut).rooted
  by_cases hnew : id = newId
  · obtain ⟨above, habove⟩ := tree.rooted.reach old cut.mem
    obtain ⟨init, m, -, hm, hid, hinit⟩ := habove.snoc_inv (tree.rooted.root_not_mem old cut.mem)
    obtain rfl := eq_of_id_eq tree.rooted.nodup hm cut.mem hid
    refine .inr ⟨init, hinit, hnew, ?_⟩
    rw [hnew] at h
    exact h.unique hrooted.toGrounded (hinit.splice_top tree.rooted.nodup cut.mem)
  · have hinit : ∃ init, Path t id init := by
      by_cases hroot : id = rootId
      · exact ⟨[], hroot ▸ .root⟩
      · obtain ⟨-, m, -, hm, hid, -⟩ := h.snoc_inv hroot
        rcases (mem_splice tree.rooted.nodup cut.mem).mp hm with rfl | rfl | ⟨hm, -⟩
        · exact absurd hid.symm hnew
        · exact hid ▸ tree.rooted.reach old cut.mem
        · exact hid ▸ tree.rooted.reach m hm
    obtain ⟨init, hinit⟩ := hinit
    exact .inl ⟨init, hinit, hnew, h.unique hrooted.toGrounded (hinit.splice tree.rooted.nodup cut.mem)⟩

/-- Splitting a node changes no entry of the map. -/
theorem CleanSplit.stored_iff
    (cut : CleanSplit pageSize t old n newId topSlot bottomSlot top bottom)
    (tree : KeyedTree pageSize isEagle t)
    (hw : ∀ m ∈ t, (w m).length = (label m).length)
    (htop : (w ⟨newId, old.parent, topSlot, top old.data⟩).length = n)
    (hhalves : w ⟨newId, old.parent, topSlot, top old.data⟩ ++
      w ⟨old.id, newId, bottomSlot, bottom old.data⟩ = w old) {slots : List Nat} :
    Stored w (t.splice old.id newId topSlot bottomSlot top bottom) key slots ↔
      Stored w t key slots := by
  have hread {rows : List (TreeNode α)} (hrows : ∀ m ∈ rows, m ∈ t) :=
    flatMap_halves tree.rooted.nodup cut.mem w hhalves hrows
  have hspell {rows : List (TreeNode α)} (hrows : ∀ m ∈ rows, m ∈ t) :=
    cut.spell_flatMap tree hrows
  constructor
  · rintro ⟨rows, ⟨⟨id, hpath⟩, hspace, hkey⟩, rfl⟩
    -- The namespace of a path is that of any node of it, so it carries over.
    have hback {init : List (TreeNode α)} (hinit : ∀ m ∈ init, m ∈ t)
        (hsub : ∀ m ∈ init.flatMap (halves old.id newId topSlot bottomSlot top bottom),
          (label m).SameNamespace key) : ∀ m ∈ init, (label m).SameNamespace key := by
      intro m hm
      by_cases hid : m.id = old.id
      · obtain rfl := eq_of_id_eq tree.rooted.nodup (hinit m hm) cut.mem hid
        refine (cut.sameSpace (m := ⟨newId, m.parent, topSlot, top m.data⟩) (.inl rfl)).symm.trans
          (hsub _ (List.mem_flatMap.mpr ⟨m, hm, ?_⟩))
        simp [halves]
      · exact hsub m (List.mem_flatMap.mpr ⟨m, hm, by simp [halves, hid]⟩)
    rcases cut.path_inv tree hpath with ⟨init, hinit, -, rfl⟩ | ⟨init, hinit, -, rfl⟩
    · rw [hspell hinit.mem] at hkey
      exact ⟨init, ⟨⟨id, hinit⟩, hback hinit.mem hspace, hkey⟩, by rw [hread hinit.mem]⟩
    · have hold : (label old).SameNamespace key :=
        (cut.sameSpace (m := ⟨newId, old.parent, topSlot, top old.data⟩) (.inl rfl)).symm.trans
          (hspace _ (by simp))
      rw [spell_append, hspell hinit.mem, spell_singleton] at hkey
      refine ⟨init ++ [old], ⟨⟨old.id, .step hinit cut.mem rfl⟩, ?_, ?_⟩, ?_⟩
      · intro m hm
        rcases List.mem_append.mp hm with hm | hm
        · exact hback hinit.mem (fun k hk => hspace k (List.mem_append_left _ hk)) m hm
        · rw [List.mem_singleton.mp hm]
          exact hold
      · refine hkey.trans ?_
        rw [spell_append, spell_singleton, List.prefix_append_right_inj, label, cut.top_key]
        exact List.take_prefix _ _
      · have hinitLen := length_flatMap_eq w fun m hm => hw m (hinit.mem m hm)
        have hkeyLen := hkey.length_le
        rw [List.length_append, label, cut.top_key, RadixKey.tokenIds_take,
          List.length_take] at hkeyLen
        rw [List.flatMap_append, List.flatMap_append, hread hinit.mem, List.flatMap_singleton,
          List.flatMap_singleton, ← hhalves, ← List.append_assoc, RadixKey.length]
        exact (List.take_append_of_le_length (by rw [List.length_append]; omega)).symm
  · rintro ⟨rows, hcover, rfl⟩
    obtain ⟨id, hpath⟩ := hcover.1
    exact ⟨_, cut.covers tree hcover, by rw [hread hpath.mem]⟩

end Splice

/-! ### Adding a leaf -/

/-- A new leaf adds the entries that end inside it and no others. -/
theorem KeyedTree.stored_attach_iff {leaf : TreeNode α} {rows : List (TreeNode α)}
    (tree : KeyedTree pageSize isEagle t) (tree' : KeyedTree pageSize isEagle (t.attach leaf))
    (fresh : ∀ m ∈ t, m.id ≠ leaf.id) (hroot : leaf.id ≠ rootId)
    (hparent : Path t leaf.parent rows) (hspace : ∀ m ∈ rows, (label m).SameNamespace (label leaf))
    (hw : ∀ m ∈ t, (w m).length = (label m).length) {slots : List Nat} :
    Stored w (t.attach leaf) key slots ↔ Stored w t key slots ∨
      ((spell rows).length < key.length ∧ (label leaf).SameNamespace key ∧
        key.tokenIds <+: spell rows ++ (label leaf).tokenIds ∧
        slots = (rows.flatMap w ++ w leaf).take key.length) := by
  have hmono : ∀ m ∈ t, m ∈ t.attach leaf := fun m hm => mem_attach.mpr (.inl hm)
  have hleaf : Path (t.attach leaf) leaf.id (rows ++ [leaf]) :=
    .step (hparent.mono hmono) (mem_attach.mpr (.inr rfl)) rfl
  constructor
  · rintro ⟨cover, ⟨⟨id, hpath⟩, hcspace, hkey⟩, rfl⟩
    by_cases hid : id = leaf.id
    · subst hid
      obtain rfl := hpath.unique tree'.rooted.toGrounded hleaf
      rw [spell_append, spell_singleton] at hkey
      by_cases hlen : key.length ≤ (spell rows).length
      · left
        refine ⟨rows, ⟨⟨_, hparent⟩, fun m hm => hcspace m (by simp [hm]), ?_⟩, ?_⟩
        · exact List.prefix_of_prefix_length_le hkey (List.prefix_append _ _) hlen
        · have hrowsLen := length_flatMap_eq w fun m hm => hw m (hparent.mem m hm)
          rw [List.flatMap_append, List.take_append_of_le_length (by omega)]
      · right
        refine ⟨by omega, hcspace leaf (by simp), hkey, ?_⟩
        rw [List.flatMap_append, List.flatMap_singleton]
    · left
      have hinit : ∃ init, Path t id init := by
        by_cases hr : id = rootId
        · exact ⟨[], hr ▸ .root⟩
        · obtain ⟨-, m, -, hm, hmid, -⟩ := hpath.snoc_inv hr
          rcases mem_attach.mp hm with hm | rfl
          · exact hmid ▸ tree.rooted.reach m hm
          · exact absurd hmid.symm hid
      obtain ⟨init, hinit⟩ := hinit
      obtain rfl := hpath.unique tree'.rooted.toGrounded (hinit.mono hmono)
      exact ⟨cover, ⟨⟨id, hinit⟩, hcspace, hkey⟩, rfl⟩
  · rintro (⟨cover, ⟨⟨id, hpath⟩, hcspace, hkey⟩, rfl⟩ | ⟨-, hns, hkey, rfl⟩)
    · exact ⟨cover, ⟨⟨id, hpath.mono hmono⟩, hcspace, hkey⟩, rfl⟩
    · refine ⟨rows ++ [leaf], ⟨⟨_, hleaf⟩, ?_, ?_⟩, ?_⟩
      · intro m hm
        rcases List.mem_append.mp hm with hm | hm
        · exact (hspace m hm).trans hns
        · rw [List.mem_singleton.mp hm]
          exact hns
      · rwa [spell_append, spell_singleton]
      · rw [List.flatMap_append, List.flatMap_singleton]

end

end SglJax.MemCache
