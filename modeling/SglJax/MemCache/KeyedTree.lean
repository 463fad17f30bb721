import SglJax.Foundation.NodeTable
import SglJax.MemCache.RadixKey

/-! The tree shape shared by all prefix caches: edges labelled with page-aligned
keys, children filed under the child key of their label. The payload is left
open; a cache only says how to read the label off it. -/
namespace SglJax.MemCache

open Foundation Foundation.NodeTable

class Keyed (α : Type) where
  key : α → RadixKey

section

variable {α β : Type} [Keyed α]

abbrev Tree (α : Type) := NodeTable PyVal α

abbrev TreeNode (α : Type) := Node PyVal α

/-- The edge label of a node. -/
def label (n : TreeNode α) : RadixKey := Keyed.key n.data

/-- The tokens along a path. -/
def spell (rows : List (TreeNode α)) : List Token :=
  rows.flatMap fun n => (label n).tokenIds

@[simp] theorem spell_nil : spell ([] : List (TreeNode α)) = [] := rfl

@[simp] theorem spell_append (left right : List (TreeNode α)) :
    spell (left ++ right) = spell left ++ spell right := by
  simp [spell]

@[simp] theorem spell_singleton (n : TreeNode α) : spell [n] = (label n).tokenIds := by
  simp [spell]

@[simp] theorem spell_cons (n : TreeNode α) (rows : List (TreeNode α)) :
    spell (n :: rows) = (label n).tokenIds ++ spell rows := by
  simp [spell]

/-- Data kept per token is as long as the path it is read along. -/
theorem length_flatMap_eq (w : TreeNode α → List β) {rows : List (TreeNode α)}
    (hw : ∀ n ∈ rows, (w n).length = (label n).length) :
    (rows.flatMap w).length = (spell rows).length := by
  induction rows with
  | nil => rfl
  | cons n rows ih =>
    rw [List.flatMap_cons, spell_cons, List.length_append, List.length_append,
      ih (fun m hm => hw m (by simp [hm])), hw n (by simp), RadixKey.length]

structure KeyedTree (pageSize : Nat) (isEagle : Bool) (t : Tree α) : Prop where
  rooted : Rooted t
  slot_eq : ∀ n ∈ t, getChildKey pageSize (label n) = .ok n.slot
  key_ne : ∀ n ∈ t, (label n).tokenIds ≠ []
  aligned : ∀ n ∈ t, (label n).length % pageSize = 0
  kind : ∀ n ∈ t, OfKind isEagle (label n).tokenIds
  sameSpace : ∀ n ∈ t, ∀ m ∈ t, n.parent = m.id → (label n).SameNamespace (label m)

/-- `rows` is a path of the key's namespace that spells the key and possibly
more. -/
def Covers (t : Tree α) (key : RadixKey) (rows : List (TreeNode α)) : Prop :=
  (∃ id, Path t id rows) ∧ (∀ n ∈ rows, (label n).SameNamespace key) ∧
    key.tokenIds <+: spell rows

variable {pageSize : Nat} {isEagle : Bool} {t : Tree α}

theorem KeyedTree.pageSize_le (tree : KeyedTree pageSize isEagle t) {n : TreeNode α}
    (hn : n ∈ t) : pageSize ≤ (label n).length := by
  have hpos : 0 < (label n).length := List.length_pos_iff.mpr (tree.key_ne n hn)
  exact Nat.le_of_dvd hpos (Nat.dvd_of_mod_eq_zero (tree.aligned n hn))

theorem KeyedTree.spell_aligned (tree : KeyedTree pageSize isEagle t)
    {rows : List (TreeNode α)} (hrows : ∀ n ∈ rows, n ∈ t) :
    (spell rows).length % pageSize = 0 := by
  induction rows with
  | nil => simp
  | cons n rows ih =>
    rw [spell_cons, List.length_append, Nat.add_mod, ih (fun m hm => hrows m (by simp [hm]))]
    have := tree.aligned n (hrows n (by simp))
    rw [RadixKey.length] at this
    simp [this]

theorem KeyedTree.path_sameSpace (tree : KeyedTree pageSize isEagle t) {id : Nat}
    {rows : List (TreeNode α)} {n : TreeNode α} (h : Path t id (rows ++ [n])) :
    ∀ m ∈ rows ++ [n], (label m).SameNamespace (label n) := by
  induction rows using List.reverseRecOn generalizing id n with
  | nil => simp [RadixKey.SameNamespace.refl]
  | append_singleton init p ih =>
    obtain ⟨habove, hn, -⟩ := h.snoc
    obtain ⟨-, hp, hpid⟩ := habove.snoc
    intro m hm
    rcases List.mem_append.mp hm with hm | hm
    · exact (ih habove m hm).trans (tree.sameSpace n hn p hp hpid.symm).symm
    · rw [List.mem_singleton.mp hm]
      exact .refl _

/-- Children of one node whose labels start with the same page are the same. -/
theorem KeyedTree.child_unique (tree : KeyedTree pageSize isEagle t)
    {x y : TreeNode α} (hx : x ∈ t) (hy : y ∈ t) (hparent : x.parent = y.parent)
    (hns : (label x).SameNamespace (label y))
    (hpage : (label x).tokenIds.take pageSize = (label y).tokenIds.take pageSize) : x = y := by
  refine tree.rooted.slot_inj x hx y hy hparent ?_
  have hcongr := getChildKey_congr hns (tree.key_ne x hx) (tree.key_ne y hy) hpage
  rw [tree.slot_eq x hx, tree.slot_eq y hy] at hcongr
  exact Except.ok.inj hcongr

/-- The child that continues a path by one given page is determined. -/
private theorem KeyedTree.next_eq (tree : KeyedTree pageSize isEagle t)
    {x y : TreeNode α} {rows belowX belowY : List (TreeNode α)} {page : List Token}
    {a b : Nat} (hpx : Path t a (rows ++ x :: belowX)) (hpy : Path t b (rows ++ y :: belowY))
    (hns : (label x).SameNamespace (label y)) (hpage : page.length = pageSize)
    (hkx : spell rows ++ page <+: spell (rows ++ x :: belowX))
    (hky : spell rows ++ page <+: spell (rows ++ y :: belowY)) : x = y := by
  have hxt := hpx.mem x (by simp)
  have hyt := hpy.mem y (by simp)
  have starts (z : TreeNode α) (hz : z ∈ t) (below : List (TreeNode α))
      (hk : spell rows ++ page <+: spell (rows ++ z :: below)) :
      (label z).tokenIds.take pageSize = page := by
    rw [spell_append, spell_cons, List.prefix_append_right_inj] at hk
    have hle := tree.pageSize_le hz
    rw [RadixKey.length, ← hpage] at hle
    have := List.prefix_of_prefix_length_le hk (List.prefix_append _ _) hle
    rw [← hpage]
    exact (List.prefix_iff_eq_take.mp this).symm
  refine tree.child_unique hxt hyt (hpx.parent_eq.id_unique hpy.parent_eq) hns ?_
  rw [starts x hxt belowX hkx, starts y hyt belowY hky]

/-- A path the key spells out is an initial part of every path that covers the
key. -/
theorem KeyedTree.follow (tree : KeyedTree pageSize isEagle t) {id : Nat}
    {rows cover : List (TreeNode α)} {key : RadixKey} (hrows : Path t id rows)
    (hspace : ∀ n ∈ rows, (label n).SameNamespace key) (hspell : spell rows <+: key.tokenIds)
    (hcover : Covers t key cover) : rows <+: cover := by
  obtain ⟨⟨b, hb⟩, hcspace, hcspell⟩ := hcover
  induction hrows with
  | root => exact List.nil_prefix
  | @step parent rows x above mem hangs ih =>
    rw [spell_append, spell_singleton] at hspell
    obtain ⟨below, rfl⟩ := ih (fun n hn => hspace n (by simp [hn]))
      ((List.prefix_append _ _).trans hspell)
    cases below with
    | nil =>
      have hx := List.length_pos_iff.mpr (tree.key_ne x mem)
      have hlen := hspell.length_le
      have hclen := hcspell.length_le
      rw [List.append_nil] at hclen
      rw [List.length_append] at hlen
      omega
    | cons y below =>
      have hle := tree.pageSize_le mem
      have hpage : spell rows ++ (label x).tokenIds.take pageSize <+:
          spell rows ++ (label x).tokenIds :=
        (List.prefix_append_right_inj _).mpr (List.take_prefix _ _)
      have hxy : x = y := tree.next_eq (Path.step above mem hangs) hb
        ((hspace x (by simp)).trans (hcspace y (by simp)).symm)
        (by rw [List.length_take]; rw [RadixKey.length] at hle; omega)
        (by rw [spell_append, spell_singleton]; exact hpage)
        ((hpage.trans hspell).trans hcspell)
      rw [hxy]
      exact ⟨below, by simp⟩

private theorem exists_cut (rows : List (TreeNode α)) {n : Nat} (hpos : 0 < n)
    (hn : n ≤ (spell rows).length) :
    ∃ init y rest, rows = init ++ y :: rest ∧ (spell init).length < n ∧
      n ≤ (spell (init ++ [y])).length := by
  induction rows using List.reverseRecOn with
  | nil => simp at hn; omega
  | append_singleton rows y ih =>
    by_cases hle : n ≤ (spell rows).length
    · obtain ⟨init, z, rest, rfl, hlt, hz⟩ := ih hle
      exact ⟨init, z, rest ++ [y], by simp, hlt, hz⟩
    · exact ⟨rows, y, [], rfl, by omega, hn⟩

theorem Covers.initial {key : RadixKey} {init rest : List (TreeNode α)} {y : TreeNode α}
    (h : Covers t key (init ++ y :: rest)) (hlen : key.length ≤ (spell (init ++ [y])).length) :
    Covers t key (init ++ [y]) := by
  obtain ⟨⟨id, hpath⟩, hspace, hspell⟩ := h
  refine ⟨⟨y.id, hpath.initial⟩, fun m hm => hspace m ?_, ?_⟩
  · rw [List.append_cons]
    exact List.mem_append_left _ hm
  · rw [List.append_cons, spell_append (init ++ [y])] at hspell
    exact List.prefix_of_prefix_length_le hspell (List.prefix_append _ _) hlen

theorem Covers.take {key : RadixKey} {rows : List (TreeNode α)} (h : Covers t key rows)
    (n : Nat) : Covers t (key.take n) rows :=
  ⟨h.1, h.2.1, (List.take_prefix _ _).trans h.2.2⟩

/-- All paths that cover an aligned key read the same data along it. -/
theorem KeyedTree.covers_unique (tree : KeyedTree pageSize isEagle t) {key : RadixKey}
    (halign : key.length % pageSize = 0) {left right : List (TreeNode α)}
    (hl : Covers t key left) (hr : Covers t key right) (w : TreeNode α → List β)
    (hw : ∀ n ∈ t, (w n).length = (label n).length) :
    (left.flatMap w).take key.length = (right.flatMap w).take key.length := by
  rcases Nat.eq_zero_or_pos key.length with hzero | hpos
  · simp [hzero]
  obtain ⟨i, y, restL, rfl, hilt, hyle⟩ := exists_cut left hpos hl.2.2.length_le
  obtain ⟨j, z, restR, rfl, hjlt, hzle⟩ := exists_cut right hpos hr.2.2.length_le
  have hcl := hl.initial hyle
  have hcr := hr.initial hzle
  have spelled (init rest : List (TreeNode α)) (x : TreeNode α)
      (h : Covers t key (init ++ x :: rest)) (hlt : (spell init).length < key.length) :
      spell init <+: key.tokenIds := by
    have hspell := h.2.2
    rw [spell_append] at hspell
    exact List.prefix_of_prefix_length_le (List.prefix_append _ _) hspell
      (Nat.le_of_lt hlt)
  have follows (a b : List (TreeNode α)) (x x' : TreeNode α)
      (ha : Covers t key (a ++ [x])) (hb : Covers t key (b ++ [x']))
      (halt : (spell a).length < key.length) : a <+: b := by
    obtain ⟨id, hpath⟩ := ha.1
    have h := tree.follow hpath.snoc.1 (fun m hm => ha.2.1 m (by simp [hm]))
      (spelled a [] x ha halt) hb
    rcases List.prefix_concat_iff.mp h with heq | h
    · have := hb.2.2.length_le
      rw [heq] at halt
      rw [RadixKey.length] at halt
      omega
    · exact h
  obtain rfl : i = j := (follows i j y z hcl hcr hilt).eq_of_length
    (Nat.le_antisymm (follows i j y z hcl hcr hilt).length_le
      (follows j i z y hcr hcl hjlt).length_le)
  -- One more whole page of the key follows the common part.
  have hpageLen : (spell i).length + pageSize ≤ key.length := by
    have hi := tree.spell_aligned (fun m hm => hcl.1.choose_spec.mem m (List.mem_append_left [y] hm))
    have hdvd := Nat.dvd_sub (Nat.dvd_of_mod_eq_zero halign) (Nat.dvd_of_mod_eq_zero hi)
    have := Nat.le_of_dvd (by omega) hdvd
    omega
  have hpage : spell i ++ ((key.tokenIds.drop (spell i).length).take pageSize) <+:
      key.tokenIds := by
    conv_rhs => rw [← List.take_append_drop (spell i).length key.tokenIds]
    rw [← List.prefix_iff_eq_take.mp (spelled i restL y hl hilt),
      List.prefix_append_right_inj]
    exact List.take_prefix _ _
  have hyz : y = z := by
    obtain ⟨a, ha⟩ := hcl.1
    obtain ⟨b, hb⟩ := hcr.1
    refine tree.next_eq ha hb ((hcl.2.1 y (by simp)).trans (hcr.2.1 z (by simp)).symm) ?_
      (hpage.trans hcl.2.2) (hpage.trans hcr.2.2)
    rw [List.length_take, List.length_drop]
    rw [RadixKey.length] at hpageLen
    omega
  subst hyz
  have hshort := length_flatMap_eq w fun m hm => hw m (hcl.1.choose_spec.mem m hm)
  have cut (rest : List (TreeNode α)) : ((i ++ y :: rest).flatMap w).take key.length =
      ((i ++ [y]).flatMap w).take key.length := by
    rw [List.append_cons, List.flatMap_append, List.take_append_of_le_length (by omega)]
  rw [cut restL, cut restR]

/-! ### Walking down along a key -/

/-- `rows` leads from the root to `node` and spells an initial part of the key. -/
structure Walk (t : Tree α) (key : RadixKey) (node : Nat) (rows : List (TreeNode α)) : Prop where
  path : Path t node rows
  space : ∀ n ∈ rows, (label n).SameNamespace key
  spelled : spell rows <+: key.tokenIds

theorem Walk.start (t : Tree α) (key : RadixKey) : Walk t key rootId [] where
  path := .root
  space := by simp
  spelled := List.nil_prefix

theorem Walk.length_le {key : RadixKey} {node : Nat} {rows : List (TreeNode α)}
    (walk : Walk t key node rows) : (spell rows).length ≤ key.length :=
  walk.spelled.length_le

theorem Walk.covers {key : RadixKey} {node : Nat} {rows : List (TreeNode α)}
    (walk : Walk t key node rows) : Covers t (key.take (spell rows).length) rows := by
  refine ⟨⟨node, walk.path⟩, walk.space, ?_⟩
  have hspelled := List.prefix_iff_eq_take.mp walk.spelled
  exact ⟨[], by rw [List.append_nil]; exact hspelled.symm⟩

theorem Walk.down {key : RadixKey} {rows : List (TreeNode α)} {child : TreeNode α}
    (walk : Walk t key child.parent rows) (hchild : child ∈ t)
    (hspace : (label child).SameNamespace key)
    (hkey : (label child).tokenIds <+: key.tokenIds.drop (spell rows).length) :
    Walk t key child.id (rows ++ [child]) where
  path := .step walk.path hchild rfl
  space := by
    intro m hm
    rcases List.mem_append.mp hm with hm | hm
    · exact walk.space m hm
    · rw [List.mem_singleton.mp hm]
      exact hspace
  spelled := by
    rw [spell_append, spell_singleton]
    conv_rhs => rw [← List.take_append_drop (spell rows).length key.tokenIds]
    rw [← List.prefix_iff_eq_take.mp walk.spelled, List.prefix_append_right_inj]
    exact hkey

/-- A child filed under the next page of the key belongs to the key's namespace
and shares at least that page with what is left of the key. -/
theorem KeyedTree.child_match (tree : KeyedTree pageSize isEagle t) (hpage : 0 < pageSize)
    {key : RadixKey} (hne : key.tokenIds ≠ []) (halign : key.length % pageSize = 0)
    (hkind : OfKind isEagle key.tokenIds) {slot : PyVal}
    (hslot : getChildKey pageSize key = .ok slot) {node : Nat} {child : TreeNode α}
    (hchild : t.child? node slot = some child) :
    child ∈ t ∧ child.parent = node ∧ (label child).SameNamespace key ∧
      ∃ n, keyMatchFn pageSize (label child) key = .ok n ∧ 0 < n ∧
        PageMatch pageSize (label child).tokenIds key.tokenIds n := by
  obtain ⟨hmem, hparent, hslotEq⟩ := mem_of_child? hchild
  have hown := tree.slot_eq child hmem
  rw [hslotEq] at hown
  obtain ⟨hspace, hfirst⟩ :=
    getChildKey_inj (tree.key_ne child hmem) hne (tree.kind child hmem) hkind hown hslot
  obtain ⟨n, hn, hmatch⟩ :=
    keyMatchFn_spec hpage hspace (tree.aligned child hmem) halign
  refine ⟨hmem, hparent, hspace, n, hn, Nat.pos_of_ne_zero ?_, hmatch⟩
  rintro rfl
  exact hmatch.stops (List.length_pos_iff.mpr (tree.key_ne child hmem))
    (List.length_pos_iff.mpr hne) (by simpa using hfirst)

private theorem window_eq {β : Type} {xs ys : List β} {m i k : Nat} (h : xs.take m <+: ys)
    (hik : i + k ≤ m) (hm : m ≤ xs.length) : (ys.drop i).take k = (xs.drop i).take k := by
  obtain ⟨rest, rfl⟩ := h
  have hlen : (xs.take m).length = m := by rw [List.length_take, Nat.min_eq_left hm]
  rw [List.drop_append_of_le_length (by omega), List.take_append_of_le_length
    (by rw [List.length_drop]; omega), List.drop_take, List.take_take, Nat.min_eq_left (by omega)]

/-- A path that covers more of the key than a walk has spelled goes through a
child of the walk's end that starts with the next page of the key. -/
theorem KeyedTree.next_on_cover (tree : KeyedTree pageSize isEagle t) {key : RadixKey}
    {node m : Nat} {rows cover : List (TreeNode α)} (walk : Walk t key node rows)
    (halign : m % pageSize = 0) (hm : m ≤ key.length) (hlt : (spell rows).length < m)
    (hcover : Covers t (key.take m) cover) :
    ∃ y below, cover = rows ++ y :: below ∧ y ∈ t ∧ y.parent = node ∧
      (label y).SameNamespace key ∧
      (label y).tokenIds.take pageSize =
        (key.tokenIds.drop (spell rows).length).take pageSize := by
  have hspelled : spell rows <+: (key.take m).tokenIds := by
    refine List.prefix_of_prefix_length_le walk.spelled (List.take_prefix _ _) ?_
    rw [← RadixKey.length, RadixKey.length_take]
    omega
  have hspace : ∀ n ∈ rows, (label n).SameNamespace (key.take m) := walk.space
  obtain ⟨below, rfl⟩ := tree.follow walk.path hspace hspelled hcover
  have hlen := hcover.2.2.length_le
  rw [← RadixKey.length, RadixKey.length_take, Nat.min_eq_left hm] at hlen
  cases below with
  | nil =>
    rw [List.append_nil] at hlen
    omega
  | cons y below =>
    obtain ⟨id, hpath⟩ := hcover.1
    have hy := hpath.mem y (by simp)
    refine ⟨y, below, rfl, hy, hpath.parent_eq.id_unique walk.path, hcover.2.1 y (by simp), ?_⟩
    have hrowsAlign := tree.spell_aligned walk.path.mem
    have hnext : (spell rows).length + pageSize ≤ m := by
      have hdvd := Nat.dvd_sub (Nat.dvd_of_mod_eq_zero halign)
        (Nat.dvd_of_mod_eq_zero hrowsAlign)
      have := Nat.le_of_dvd (by omega) hdvd
      omega
    have hyLen := tree.pageSize_le hy
    rw [RadixKey.length] at hyLen
    have hwindow := window_eq hcover.2.2 hnext hm
    rw [spell_append, spell_cons, List.drop_left, List.take_append_of_le_length hyLen] at hwindow
    exact hwindow

/-- The longest covered part of a key, when the walk's end has no child for the
next page. -/
theorem KeyedTree.longest_of_no_child (tree : KeyedTree pageSize isEagle t) {key : RadixKey}
    {node m : Nat} {rows cover : List (TreeNode α)} (walk : Walk t key node rows)
    (hstuck : (key.drop (spell rows).length).tokenIds ≠ [] → ∃ slot,
      getChildKey pageSize (key.drop (spell rows).length) = .ok slot ∧ t.child? node slot = none)
    (halign : m % pageSize = 0) (hm : m ≤ key.length)
    (hcover : Covers t (key.take m) cover) : m ≤ (spell rows).length := by
  by_contra hlt
  obtain ⟨y, below, -, hy, hparent, hspace, hpage⟩ :=
    tree.next_on_cover walk halign hm (by omega) hcover
  have hne : (key.drop (spell rows).length).tokenIds ≠ [] := by
    rw [RadixKey.tokenIds_drop, ne_eq, List.drop_eq_nil_iff]
    rw [RadixKey.length] at hm
    omega
  obtain ⟨slot, hslot, hnone⟩ := hstuck hne
  have hcongr : getChildKey pageSize (label y) =
      getChildKey pageSize (key.drop (spell rows).length) :=
    getChildKey_congr hspace (tree.key_ne y hy) hne hpage
  rw [tree.slot_eq y hy, hslot] at hcongr
  exact child?_eq_none.mp hnone y hy hparent (Except.ok.inj hcongr)

/-- The longest covered part of a key that leaves an edge in the middle. -/
theorem KeyedTree.longest_of_partial (tree : KeyedTree pageSize isEagle t) {key : RadixKey}
    {m n : Nat} {rows cover : List (TreeNode α)} {child : TreeNode α}
    (walk : Walk t key child.parent rows) (hchild : child ∈ t)
    (hspace : (label child).SameNamespace key) (hpos : 0 < n)
    (hmatch : PageMatch pageSize (label child).tokenIds
      (key.tokenIds.drop (spell rows).length) n)
    (hn : n < (label child).length) (halign : m % pageSize = 0) (hm : m ≤ key.length)
    (hcover : Covers t (key.take m) cover) : m ≤ (spell rows).length + n := by
  by_contra hlt
  obtain ⟨y, below, rfl, hy, hparent, hyspace, hpage⟩ :=
    tree.next_on_cover walk halign hm (by omega) hcover
  have hpageLe : pageSize ≤ n := Nat.le_of_dvd hpos (Nat.dvd_of_mod_eq_zero hmatch.aligned)
  have hyChild : y = child := by
    refine tree.child_unique hy hchild hparent (hyspace.trans hspace.symm) ?_
    have := congrArg (List.take pageSize) hmatch.same
    rw [List.take_take, List.take_take, Nat.min_eq_left hpageLe] at this
    rw [hpage, this]
  subst hyChild
  have hrowsAlign := tree.spell_aligned walk.path.mem
  have stride {a b : Nat} (ha : a % pageSize = 0) (hb : b % pageSize = 0) (hab : a < b) :
      a + pageSize ≤ b := by
    have := Nat.le_of_dvd (by omega)
      (Nat.dvd_sub (Nat.dvd_of_mod_eq_zero hb) (Nat.dvd_of_mod_eq_zero ha))
    omega
  have hsum : ((spell rows).length + n) % pageSize = 0 := by
    rw [Nat.add_mod, hrowsAlign, hmatch.aligned, Nat.zero_add, Nat.zero_mod]
  have hnextKey := stride hsum halign (by omega)
  have hnextLabel := stride hmatch.aligned (tree.aligned y hy) hn
  have hwindow := window_eq hcover.2.2 hnextKey hm
  rw [RadixKey.length] at hnextLabel hn hm
  rw [spell_append, spell_cons, ← List.drop_drop, List.drop_left, ← List.drop_drop,
    List.drop_append_of_le_length hn.le, List.take_append_of_le_length
      (by rw [List.length_drop]; omega)] at hwindow
  exact hmatch.stops hn (by rw [List.length_drop]; omega) hwindow

/-! ### Edits keep the shape -/

section Edits

variable {old : TreeNode α} {newId : Nat} {topSlot bottomSlot : PyVal} {top bottom : α → α}

/-- A node may be cut at an inner page boundary: the halves divide its label
and are filed under their own first pages. -/
structure CleanSplit (pageSize : Nat) (t : Tree α) (old : TreeNode α) (n newId : Nat)
    (topSlot bottomSlot : PyVal) (top bottom : α → α) : Prop where
  mem : old ∈ t
  pos : 0 < n
  lt : n < (label old).length
  aligned : n % pageSize = 0
  newId_ne : newId ≠ rootId
  fresh : ∀ m ∈ t, m.id ≠ newId ∧ m.parent ≠ newId
  top_key : Keyed.key (top old.data) = (label old).take n
  bottom_key : Keyed.key (bottom old.data) = (label old).drop n
  top_slot : getChildKey pageSize (label old) = .ok topSlot
  bottom_slot : getChildKey pageSize ((label old).drop n) = .ok bottomSlot

theorem CleanSplit.slot_eq {n : Nat}
    (cut : CleanSplit pageSize t old n newId topSlot bottomSlot top bottom)
    (tree : KeyedTree pageSize isEagle t) : topSlot = old.slot := by
  have h := cut.top_slot
  rw [tree.slot_eq old cut.mem] at h
  exact (Except.ok.inj h).symm

/-- The halves of a node lie in its namespace. -/
theorem CleanSplit.sameSpace {n : Nat}
    (cut : CleanSplit pageSize t old n newId topSlot bottomSlot top bottom)
    {m : TreeNode α} (hm : m.data = top old.data ∨ m.data = bottom old.data) :
    (label m).SameNamespace (label old) := by
  rcases hm with hm | hm
  · rw [label, hm, cut.top_key]; exact .refl _
  · rw [label, hm, cut.bottom_key]; exact .refl _

theorem KeyedTree.splice (tree : KeyedTree pageSize isEagle t) {n : Nat}
    (cut : CleanSplit pageSize t old n newId topSlot bottomSlot top bottom) :
    KeyedTree pageSize isEagle (t.splice old.id newId topSlot bottomSlot top bottom) := by
  have hold := cut.mem
  have hmem := @mem_splice _ _ t old newId topSlot bottomSlot top bottom tree.rooted.nodup hold
  refine ⟨tree.rooted.splice hold cut.newId_ne cut.fresh (cut.slot_eq tree), ?_, ?_, ?_, ?_, ?_⟩
  · intro m hm
    rcases hmem.mp hm with rfl | rfl | ⟨hm, -⟩
    · have hpage : pageSize ≤ n :=
        Nat.le_of_dvd cut.pos (Nat.dvd_of_mod_eq_zero cut.aligned)
      rw [label, cut.top_key, ← cut.top_slot]
      refine getChildKey_congr (.refl _) ?_ (tree.key_ne old hold) ?_
      · have := tree.key_ne old hold
        simp [cut.pos.ne', this]
      · rw [RadixKey.tokenIds_take, List.take_take, Nat.min_eq_left hpage]
    · rw [label, cut.bottom_key, cut.bottom_slot]
    · exact tree.slot_eq m hm
  · intro m hm
    rcases hmem.mp hm with rfl | rfl | ⟨hm, -⟩
    · have := tree.key_ne old hold
      rw [label, cut.top_key]
      simp [cut.pos.ne', this]
    · rw [label, cut.bottom_key]
      simpa [RadixKey.length] using cut.lt
    · exact tree.key_ne m hm
  · intro m hm
    rcases hmem.mp hm with rfl | rfl | ⟨hm, -⟩
    · rw [label, cut.top_key, RadixKey.length_take, Nat.min_eq_left cut.lt.le, cut.aligned]
    · rw [label, cut.bottom_key, RadixKey.length_drop]
      exact Nat.mod_eq_zero_of_dvd (Nat.dvd_sub
        (Nat.dvd_of_mod_eq_zero (tree.aligned old hold)) (Nat.dvd_of_mod_eq_zero cut.aligned))
    · exact tree.aligned m hm
  · intro m hm
    rcases hmem.mp hm with rfl | rfl | ⟨hm, -⟩
    · rw [label, cut.top_key]; exact (tree.kind old hold).take n
    · rw [label, cut.bottom_key]; exact (tree.kind old hold).drop n
    · exact tree.kind m hm
  · intro m hm k hk hparent
    rcases hmem.mp hm with rfl | rfl | ⟨hmt, hmid⟩
    · have hkt : k ∈ t := by
        rcases hmem.mp hk with rfl | rfl | ⟨hk, -⟩
        · exact absurd hparent (cut.fresh old hold).2
        · exact absurd hparent (tree.rooted.parent_ne_id hold)
        · exact hk
      exact (cut.sameSpace (.inl rfl)).trans (tree.sameSpace old hold k hkt hparent)
    · refine (cut.sameSpace (.inr rfl)).trans ?_
      rcases hmem.mp hk with rfl | rfl | ⟨hkt, -⟩
      · exact (cut.sameSpace (.inl rfl)).symm
      · exact (cut.sameSpace (.inr rfl)).symm
      · exact absurd hparent.symm (cut.fresh k hkt).1
    · rcases hmem.mp hk with rfl | rfl | ⟨hkt, -⟩
      · exact absurd hparent (cut.fresh m hmt).2
      · exact (tree.sameSpace m hmt old hold hparent).trans (cut.sameSpace (.inr rfl)).symm
      · exact tree.sameSpace m hmt k hkt hparent

theorem KeyedTree.attach (tree : KeyedTree pageSize isEagle t) {n : TreeNode α}
    (hroot : n.id ≠ rootId) (fresh : ∀ m ∈ t, m.id ≠ n.id ∧ m.parent ≠ n.id)
    {rows : List (TreeNode α)} (hparent : Path t n.parent rows)
    (hspace : ∀ m ∈ rows, (label m).SameNamespace (label n))
    (hslot : getChildKey pageSize (label n) = .ok n.slot)
    (vacant : ∀ m ∈ t, m.parent = n.parent → m.slot ≠ n.slot)
    (hne : (label n).tokenIds ≠ []) (halign : (label n).length % pageSize = 0)
    (hkind : OfKind isEagle (label n).tokenIds) : KeyedTree pageSize isEagle (t.attach n) where
  rooted := tree.rooted.attach hroot (fun m hm => (fresh m hm).1) hparent vacant
  slot_eq := by
    intro m hm
    rcases mem_attach.mp hm with hm | rfl
    · exact tree.slot_eq m hm
    · exact hslot
  key_ne := by
    intro m hm
    rcases mem_attach.mp hm with hm | rfl
    · exact tree.key_ne m hm
    · exact hne
  aligned := by
    intro m hm
    rcases mem_attach.mp hm with hm | rfl
    · exact tree.aligned m hm
    · exact halign
  kind := by
    intro m hm
    rcases mem_attach.mp hm with hm | rfl
    · exact tree.kind m hm
    · exact hkind
  sameSpace := by
    intro m hm k hk hmk
    rcases mem_attach.mp hm with hmt | rfl <;> rcases mem_attach.mp hk with hkt | rfl
    · exact tree.sameSpace m hmt k hkt hmk
    · exact absurd hmk (fresh m hmt).2
    · rw [hmk] at hparent
      obtain ⟨init, last, rfl, hlast, hid, -⟩ :=
        hparent.snoc_inv (tree.rooted.root_not_mem k hkt)
      obtain rfl := eq_of_id_eq tree.rooted.nodup hlast hkt hid
      exact (hspace last (by simp)).symm
    · exact .refl _

theorem KeyedTree.detach (tree : KeyedTree pageSize isEagle t) {leaf : Nat}
    (hleaf : ∀ n ∈ t, n.parent ≠ leaf) : KeyedTree pageSize isEagle (t.detach leaf) where
  rooted := tree.rooted.detach hleaf
  slot_eq := fun n hn => tree.slot_eq n (mem_detach.mp hn).1
  key_ne := fun n hn => tree.key_ne n (mem_detach.mp hn).1
  aligned := fun n hn => tree.aligned n (mem_detach.mp hn).1
  kind := fun n hn => tree.kind n (mem_detach.mp hn).1
  sameSpace := fun n hn m hm => tree.sameSpace n (mem_detach.mp hn).1 m (mem_detach.mp hm).1

/-- Payload updates that leave the labels alone keep the shape. -/
theorem KeyedTree.modify (tree : KeyedTree pageSize isEagle t) (ids : List Nat) {f : α → α}
    (hf : ∀ d, Keyed.key (f d) = Keyed.key d) :
    KeyedTree pageSize isEagle (t.modify ids f) := by
  have hlabel (m : TreeNode α) :
      label { m with data := if m.id ∈ ids then f m.data else m.data } = label m := by
    simp only [label]
    split
    · exact hf _
    · rfl
  refine ⟨tree.rooted.modify ids f, ?_, ?_, ?_, ?_, ?_⟩
  · intro n hn
    obtain ⟨m, hm, rfl⟩ := mem_modify.mp hn
    rw [hlabel]; exact tree.slot_eq m hm
  · intro n hn
    obtain ⟨m, hm, rfl⟩ := mem_modify.mp hn
    rw [hlabel]; exact tree.key_ne m hm
  · intro n hn
    obtain ⟨m, hm, rfl⟩ := mem_modify.mp hn
    rw [hlabel]; exact tree.aligned m hm
  · intro n hn
    obtain ⟨m, hm, rfl⟩ := mem_modify.mp hn
    rw [hlabel]; exact tree.kind m hm
  · intro n hn k hk hparent
    obtain ⟨m, hm, rfl⟩ := mem_modify.mp hn
    obtain ⟨j, hj, rfl⟩ := mem_modify.mp hk
    rw [hlabel, hlabel]; exact tree.sameSpace m hm j hj hparent

end Edits

end

end SglJax.MemCache
