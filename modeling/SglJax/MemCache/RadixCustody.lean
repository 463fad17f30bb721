import SglJax.Foundation.NodeAccounts
import SglJax.MemCache.PageLayout
import SglJax.MemCache.RadixRefinement

/-! What a `RadixCache` keeps for its users: the paths that references hold, the
lock counts and size counters that follow from them, and the pages in the nodes'
values. Each change of the cache is studied on its own: cutting a node, locking
and unlocking a path, adding a leaf, removing an unlocked leaf. -/
namespace SglJax.MemCache.RadixCache

open Foundation Foundation.NodeTable

/-- The tokens a node keeps for a rank. -/
def sizeOn (rank : Nat) (d : RadixNode) : Nat := if d.key.rank = rank then d.value.length else 0

/-- The same when no reference holds the node. -/
def unlockedOn (rank : Nat) (d : RadixNode) : Nat := if d.lockRef = 0 then sizeOn rank d else 0

/-- How often a node's value takes up a page of a rank. -/
def pageOn (pageSize rank page : Nat) (d : RadixNode) : Nat :=
  if d.key.rank = rank then (pagesOf pageSize d.value).count page else 0

section Shares

variable {d : RadixNode} {pageSize rank page : Nat}

theorem sizeOn_self (h : d.key.rank = rank) : sizeOn rank d = d.value.length := if_pos h

theorem sizeOn_of_ne (h : d.key.rank ≠ rank) : sizeOn rank d = 0 := if_neg h

theorem unlockedOn_self (h : d.lockRef = 0) : unlockedOn rank d = sizeOn rank d := if_pos h

theorem unlockedOn_of_ne (h : d.lockRef ≠ 0) : unlockedOn rank d = 0 := if_neg h

theorem pageOn_self (h : d.key.rank = rank) :
    pageOn pageSize rank page d = (pagesOf pageSize d.value).count page := if_pos h

theorem pageOn_of_ne (h : d.key.rank ≠ rank) : pageOn pageSize rank page d = 0 := if_neg h

end Shares

/-- The evictable sizes count what no reference holds. -/
def Sized (c : RadixCache) : Prop :=
  ∀ rank, c.evictableSize rank = weigh (unlockedOn rank) c.tree

/-- How often a page of a rank is taken up by the tree. -/
def treeCount (c : RadixCache) (rank page : Nat) : Nat :=
  weigh (pageOn c.pageSize rank page) c.tree

/-- The path to `node` spells the key and has these slots. -/
def Held (c : RadixCache) (node : Nat) (key : RadixKey) (slots : List Nat) : Prop :=
  ∃ rows, Path c.tree node rows ∧ (∀ n ∈ rows, (label n).SameNamespace key) ∧
    spell rows = key.tokenIds ∧ rows.flatMap values = slots

/-- `holders` are the nodes that references keep locked. -/
structure Custody (c : RadixCache) (holders : List Nat) : Prop where
  valid : Valid c
  disabled : c.disable = true → c.tree = []
  paths : ∀ holder ∈ holders, ∃ rows, Path c.tree holder rows
  locks : ∀ n ∈ c.tree, n.data.lockRef = c.tree.refs holders n.id
  sizes : ∀ rank, c.evictableSize rank + c.protectedSize rank = weigh (sizeOn rank) c.tree
  sized : Sized c
  laid : ∀ n ∈ c.tree, Laid c.pageSize n.data.value (pagesOf c.pageSize n.data.value)

theorem custody_reset {pageSize : Nat} (hpage : 0 < pageSize) (disable isEagle : Bool) :
    Custody (reset pageSize disable isEagle) [] where
  valid := .reset hpage _ _
  disabled := fun _ => rfl
  paths := by simp
  locks := by simp [reset]
  sizes := fun _ => rfl
  sized := fun _ => rfl
  laid := by simp [reset]

section Custody

variable {c d : RadixCache} {holders : List Nat}

theorem Custody.perm {others : List Nat} (h : Custody c holders) (hperm : holders.Perm others) :
    Custody c others where
  valid := h.valid
  disabled := h.disabled
  paths := fun holder hmem => h.paths holder (hperm.mem_iff.mpr hmem)
  locks := fun n hn => by rw [h.locks n hn, refs_perm hperm]
  sizes := h.sizes
  sized := h.sized
  laid := h.laid

theorem Held.stored {node : Nat} {key : RadixKey} {slots : List Nat} (valid : Valid c)
    (h : Held c node key slots) : Stored values c.tree key slots := by
  obtain ⟨rows, hpath, hspace, hspell, rfl⟩ := h
  have hlen := length_flatMap_eq values fun m hm => valid.value_len m (hpath.mem m hm)
  refine ⟨rows, ⟨⟨node, hpath⟩, hspace, by rw [hspell]⟩, ?_⟩
  rw [List.take_of_length_le]
  rw [hlen, hspell, RadixKey.length]

theorem Held.length_eq {node : Nat} {key : RadixKey} {slots : List Nat} (valid : Valid c)
    (h : Held c node key slots) : slots.length = key.length := by
  obtain ⟨rows, hpath, -, hspell, rfl⟩ := h
  rw [length_flatMap_eq values fun m hm => valid.value_len m (hpath.mem m hm), hspell,
    RadixKey.length]

theorem Held.aligned {node : Nat} {key : RadixKey} {slots : List Nat} (valid : Valid c)
    (h : Held c node key slots) : key.length % c.pageSize = 0 := by
  obtain ⟨rows, hpath, -, hspell, -⟩ := h
  rw [RadixKey.length, ← hspell]
  exact valid.tree.spell_aligned hpath.mem

/-- The slots of a path are laid over pages of the tree. -/
theorem Custody.laid_path (h : Custody c holders) {node : Nat} {rows : List (TreeNode RadixNode)}
    (hpath : Path c.tree node rows) :
    Laid c.pageSize (rows.flatMap values)
      (rows.flatMap fun n => pagesOf c.pageSize n.data.value) := by
  have hmem := hpath.mem
  clear hpath
  induction rows with
  | nil => exact .nil h.valid.page_pos
  | cons n rows ih =>
    rw [List.flatMap_cons, List.flatMap_cons]
    have hn := hmem n (by simp)
    refine (h.laid n hn).append h.valid.page_pos ?_ (ih fun m hm => hmem m (by simp [hm]))
    rw [values, h.valid.value_len n hn]
    exact h.valid.tree.aligned n hn

theorem Custody.treeCount_pos_iff (h : Custody c holders) {rank page : Nat} :
    0 < c.treeCount rank page ↔
      ∃ n ∈ c.tree, n.data.key.rank = rank ∧ Touches c.pageSize n.data.value page := by
  have hone {n : TreeNode RadixNode} (hn : n ∈ c.tree) :
      0 < pageOn c.pageSize rank page n.data ↔
        n.data.key.rank = rank ∧ Touches c.pageSize n.data.value page := by
    rw [(h.laid n hn).touches h.valid.page_pos]
    by_cases hrank : n.data.key.rank = rank
    · rw [pageOn_self hrank, List.count_pos_iff]
      exact (and_iff_right hrank).symm
    · rw [pageOn_of_ne hrank]
      simp [hrank]
  constructor
  · intro hpos
    obtain ⟨n, hn, hshare⟩ := exists_of_weigh_pos hpos
    exact ⟨n, hn, (hone hn).mp hshare⟩
  · rintro ⟨n, hn, hshare⟩
    exact lt_of_lt_of_le ((hone hn).mpr hshare) (le_weigh h.valid.tree.rooted.nodup hn)

/-! ### Cutting a node -/

section Cut

variable {child : TreeNode RadixNode} {n : Nat} {bottomSlot : PyVal}

/-- The halves of a node divide its pages. -/
theorem Cuttable.laid_halves (cut : Cuttable c child n bottomSlot) (h : Custody c holders) :
    Laid c.pageSize (child.data.value.take n)
      ((pagesOf c.pageSize child.data.value).take (n / c.pageSize)) ∧
    Laid c.pageSize (child.data.value.drop n)
      ((pagesOf c.pageSize child.data.value).drop (n / c.pageSize)) := by
  have hpage := h.valid.page_pos
  have hlaid := h.laid child cut.mem
  have hle : n ≤ child.data.value.length := by
    rw [h.valid.value_len child cut.mem]
    exact cut.lt.le
  have hmul := Nat.div_mul_cancel (Nat.dvd_of_mod_eq_zero cut.aligned)
  refine ⟨?_, ?_⟩
  · have := hlaid.take hpage hle
    rwa [pagesFor_of_dvd hpage cut.aligned] at this
  · have := hlaid.drop hpage (n / c.pageSize)
    rwa [hmul] at this

theorem Cuttable.treeCount_eq (cut : Cuttable c child n bottomSlot) (h : Custody c holders)
    (rank page : Nat) : (c.cutNode child n bottomSlot).treeCount rank page =
      c.treeCount rank page := by
  have hpage := h.valid.page_pos
  obtain ⟨htop, hbottom⟩ := cut.laid_halves h
  refine weigh_splice h.valid.tree.rooted.nodup cut.mem ?_
  change pageOn c.pageSize rank page (topHalf n child.data) +
    pageOn c.pageSize rank page (bottomHalf n child.data) = pageOn c.pageSize rank page child.data
  by_cases hrank : child.data.key.rank = rank
  · rw [pageOn_self hrank, pageOn_self (d := topHalf n child.data) hrank,
      pageOn_self (d := bottomHalf n child.data) hrank, topHalf, bottomHalf,
      htop.pagesOf_eq hpage, hbottom.pagesOf_eq hpage, ← List.count_append, List.take_append_drop]
  · rw [pageOn_of_ne hrank, pageOn_of_ne (d := topHalf n child.data) hrank,
      pageOn_of_ne (d := bottomHalf n child.data) hrank]

theorem sizeOn_halves (rank n : Nat) (d : RadixNode) :
    sizeOn rank (topHalf n d) + sizeOn rank (bottomHalf n d) = sizeOn rank d := by
  by_cases hrank : d.key.rank = rank
  · rw [sizeOn_self hrank, sizeOn_self (d := topHalf n d) hrank,
      sizeOn_self (d := bottomHalf n d) hrank, topHalf, bottomHalf, ← List.length_append,
      List.take_append_drop]
  · rw [sizeOn_of_ne hrank, sizeOn_of_ne (d := topHalf n d) hrank,
      sizeOn_of_ne (d := bottomHalf n d) hrank]

theorem unlockedOn_halves (rank n : Nat) (d : RadixNode) :
    unlockedOn rank (topHalf n d) + unlockedOn rank (bottomHalf n d) = unlockedOn rank d := by
  by_cases hlock : d.lockRef = 0
  · rw [unlockedOn_self hlock, unlockedOn_self (d := topHalf n d) hlock,
      unlockedOn_self (d := bottomHalf n d) hlock, sizeOn_halves]
  · rw [unlockedOn_of_ne hlock, unlockedOn_of_ne (d := topHalf n d) hlock,
      unlockedOn_of_ne (d := bottomHalf n d) hlock]

theorem Custody.cutNode (h : Custody c holders) (cut : Cuttable c child n bottomSlot) :
    Custody (c.cutNode child n bottomSlot) holders := by
  have hrooted := h.valid.tree.rooted
  have hmem := @mem_splice _ _ c.tree child c.counter child.slot bottomSlot (topHalf n)
    (bottomHalf n) hrooted.nodup cut.mem
  have valid' := h.valid.cutNode cut
  have hrefs (id : Nat) : (c.cutNode child n bottomSlot).tree.refs holders id =
      c.tree.refs holders (if id = c.counter then child.id else id) :=
    refs_splice hrooted.toGrounded cut.mem valid'.tree.rooted.toGrounded
      (fun m hm => (h.valid.fresh m hm).1) h.paths id
  have hchild := (h.valid.fresh child cut.mem).1
  refine ⟨valid', ?_, ?_, ?_, ?_, ?_, ?_⟩
  · intro hdisable
    have hmem := cut.mem
    rw [h.disabled hdisable] at hmem
    cases hmem
  · intro holder hholder
    obtain ⟨rows, hpath⟩ := h.paths holder hholder
    exact ⟨_, hpath.splice hrooted.nodup cut.mem⟩
  · intro m hm
    have hcount : m.data.lockRef =
        c.tree.refs holders (if m.id = c.counter then child.id else m.id) := by
      rcases hmem.mp hm with rfl | rfl | ⟨hm, -⟩
      · rw [if_pos rfl]
        exact h.locks child cut.mem
      · rw [if_neg hchild]
        exact h.locks child cut.mem
      · rw [if_neg (h.valid.fresh m hm).1]
        exact h.locks m hm
    rw [hcount, ← hrefs]
  · intro rank
    have hsum : weigh (sizeOn rank) (c.cutNode child n bottomSlot).tree =
        weigh (sizeOn rank) c.tree :=
      weigh_splice hrooted.nodup cut.mem (sizeOn_halves rank n child.data)
    rw [hsum]
    exact h.sizes rank
  · intro rank
    have hsum : weigh (unlockedOn rank) (c.cutNode child n bottomSlot).tree =
        weigh (unlockedOn rank) c.tree :=
      weigh_splice hrooted.nodup cut.mem (unlockedOn_halves rank n child.data)
    rw [hsum]
    exact h.sized rank
  · intro m hm
    obtain ⟨htop, hbottom⟩ := cut.laid_halves h
    change Laid c.pageSize m.data.value (pagesOf c.pageSize m.data.value)
    rcases hmem.mp hm with rfl | rfl | ⟨hm, -⟩
    · rwa [← htop.pagesOf_eq h.valid.page_pos] at htop
    · rwa [← hbottom.pagesOf_eq h.valid.page_pos] at hbottom
    · exact h.laid m hm

theorem Held.cutNode {node : Nat} {key : RadixKey} {slots : List Nat} (valid : Valid c)
    (h : Held c node key slots) (cut : Cuttable c child n bottomSlot) :
    Held (c.cutNode child n bottomSlot) node key slots := by
  obtain ⟨rows, hpath, hspace, hspell, rfl⟩ := h
  have clean := cut.clean valid
  have hnodup := valid.tree.rooted.nodup
  have hcovers : Covers c.tree key rows := ⟨⟨node, hpath⟩, hspace, by rw [hspell]⟩
  have hcover := clean.covers valid.tree hcovers
  refine ⟨_, hpath.splice hnodup cut.mem, hcover.2.1, ?_, ?_⟩
  · rw [clean.spell_flatMap valid.tree hpath.mem, hspell]
  · exact flatMap_halves hnodup cut.mem values (cut.values_halves valid).2 hpath.mem

end Cut

theorem Cuts.custody (cuts : Cuts c d) (h : Custody c holders) : Custody d holders :=
  (cuts.preserves (P := fun d => Custody d holders) (fun _ h cut => h.cutNode cut) h.valid h).2

theorem Cuts.held {node : Nat} {key : RadixKey} {slots : List Nat} (cuts : Cuts c d)
    (valid : Valid c) (h : Held c node key slots) : Held d node key slots :=
  (cuts.preserves (P := fun d => Held d node key slots) (fun valid h cut => h.cutNode valid cut)
    valid h).2

theorem Cuts.treeCount_eq (cuts : Cuts c d) (h : Custody c holders) (rank page : Nat) :
    d.treeCount rank page = c.treeCount rank page := by
  have := (cuts.preserves
    (P := fun d => Custody d holders ∧ d.treeCount rank page = c.treeCount rank page)
    (fun _ h cut => ⟨h.1.cutNode cut, (cut.treeCount_eq h.1 rank page).trans h.2⟩)
    h.valid ⟨h, rfl⟩).2
  exact this.2

/-! ### Locking and unlocking a path -/

/-- `d` is `c` with `k` added to the counts on one path, its sizes shifted between
the two counters. -/
structure Relocks (c : RadixCache) (rows : List (TreeNode RadixNode)) (k : Int)
    (d : RadixCache) : Prop where
  tree : d.tree = c.relock (rows.map Node.id) k
  settings : d.settings = c.settings
  total : ∀ rank, d.evictableSize rank + d.protectedSize rank =
    c.evictableSize rank + c.protectedSize rank

theorem bump_apply (sizes : Nat → Int) (rank r : Nat) (amount : Int) :
    bump sizes rank amount r = if r = rank then sizes r + amount else sizes r := rfl

theorem lockStep_total (state : RadixCache × Int) (n : TreeNode RadixNode) (rank : Nat) :
    (lockStep state n).1.evictableSize rank + (lockStep state n).1.protectedSize rank =
      state.1.evictableSize rank + state.1.protectedSize rank := by
  unfold lockStep
  dsimp only
  split
  · simp only [bump_apply]
    split <;> omega
  · rfl

theorem unlockStep_total (state : RadixCache × Int) (n : TreeNode RadixNode) (rank : Nat) :
    (unlockStep state n).1.evictableSize rank + (unlockStep state n).1.protectedSize rank =
      state.1.evictableSize rank + state.1.protectedSize rank := by
  unfold unlockStep
  dsimp only
  split
  · simp only [bump_apply]
    split <;> omega
  · rfl

/-- An account that every step keeps for nodes as good as those of the path, the
fold over the path keeps. -/
theorem LockStep.fold_sized {step : RadixCache × Int → TreeNode RadixNode → RadixCache × Int}
    {k : Int} (h : LockStep step k) {P : RadixNode → Prop}
    (hstep : ∀ state n, (state.1.tree.map Node.id).Nodup → n ∈ state.1.tree → P n.data →
      Sized state.1 → Sized (step state n).1)
    {rows : List (TreeNode RadixNode)} (nodup : (rows.map Node.id).Nodup)
    {state : RadixCache × Int} (hids : (state.1.tree.map Node.id).Nodup)
    (hrows : ∀ n ∈ rows, n ∈ state.1.tree) (hgood : ∀ n ∈ rows, P n.data)
    (sized : Sized state.1) : Sized (rows.foldl step state).1 := by
  induction rows generalizing state with
  | nil => exact sized
  | cons n rows ih =>
    rw [List.map_cons, List.nodup_cons] at nodup
    rw [List.foldl_cons]
    refine ih nodup.2 ?_ ?_ (fun m hm => hgood m (by simp [hm]))
      (hstep state n hids (hrows n (by simp)) (hgood n (by simp)) sized)
    · rw [h.tree, relock, map_id_modify]
      exact hids
    · intro m hm
      refine h.mem_of_ne (hrows m (by simp [hm])) fun heq => nodup.1 ?_
      rw [← heq]
      exact List.mem_map_of_mem hm

theorem lockStep_sized (state : RadixCache × Int) (n : TreeNode RadixNode)
    (hids : (state.1.tree.map Node.id).Nodup) (hn : n ∈ state.1.tree) (hlock : 0 ≤ n.data.lockRef)
    (sized : Sized state.1) : Sized (lockStep state n).1 := by
  intro rank
  have hsum := weigh_modify_one (w := unlockedOn rank) hids hn (addLock 1)
  have hold := sized rank
  have hafter : unlockedOn rank (addLock 1 n.data) = 0 :=
    unlockedOn_of_ne (by dsimp only [addLock]; omega)
  rw [hafter] at hsum
  rw [lockStep_tree, relock]
  unfold lockStep
  dsimp only
  split
  · rename_i hfree
    rw [unlockedOn_self hfree] at hsum
    dsimp only
    rw [bump_apply]
    split
    · rename_i hrank
      rw [sizeOn_self hrank.symm] at hsum
      omega
    · rename_i hrank
      rw [sizeOn_of_ne (Ne.symm hrank)] at hsum
      omega
  · rename_i hheld
    rw [unlockedOn_of_ne hheld] at hsum
    dsimp only
    omega

theorem unlockStep_sized (state : RadixCache × Int) (n : TreeNode RadixNode)
    (hids : (state.1.tree.map Node.id).Nodup) (hn : n ∈ state.1.tree) (hlock : 0 < n.data.lockRef)
    (sized : Sized state.1) : Sized (unlockStep state n).1 := by
  intro rank
  have hsum := weigh_modify_one (w := unlockedOn rank) hids hn (addLock (-1))
  have hold := sized rank
  rw [unlockedOn_of_ne (by omega : n.data.lockRef ≠ 0)] at hsum
  rw [unlockStep_tree, relock]
  unfold unlockStep
  dsimp only
  split
  · rename_i hlast
    have hfree : (addLock (-1) n.data).lockRef = 0 := by
      dsimp only [addLock]
      omega
    rw [unlockedOn_self hfree] at hsum
    dsimp only
    rw [bump_apply]
    split
    · rename_i hrank
      rw [sizeOn_self (d := addLock (-1) n.data) hrank.symm] at hsum
      dsimp only [addLock] at hsum ⊢
      omega
    · rename_i hrank
      rw [sizeOn_of_ne (d := addLock (-1) n.data) (Ne.symm hrank)] at hsum
      omega
  · rename_i hmore
    have hheld : (addLock (-1) n.data).lockRef ≠ 0 := by
      dsimp only [addLock]
      omega
    rw [unlockedOn_of_ne hheld] at hsum
    dsimp only
    omega

/-- The account of a walk over the path of a node of the tree. -/
theorem LockStep.path_sized {step : RadixCache × Int → TreeNode RadixNode → RadixCache × Int}
    {k : Int} (h : LockStep step k) {P : RadixNode → Prop}
    (hstep : ∀ state n, (state.1.tree.map Node.id).Nodup → n ∈ state.1.tree → P n.data →
      Sized state.1 → Sized (step state n).1)
    (valid : Valid c) {node : Nat} {rows : List (TreeNode RadixNode)} (hpath : Path c.tree node rows)
    (hgood : ∀ n ∈ rows, P n.data) (sized : Sized c) :
    Sized ((c.tree.ancestors node).foldl step (c, 0)).1 := by
  rw [ancestors_eq valid.tree.rooted.toGrounded hpath]
  have hnodup := hpath.ids_nodup valid.tree.rooted.toGrounded
  refine h.fold_sized hstep ?_ valid.tree.rooted.nodup ?_ ?_ sized
  · rw [List.map_reverse]
    exact List.nodup_reverse.mpr hnodup
  · intro n hn
    exact hpath.mem n (List.mem_reverse.mp hn)
  · intro n hn
    exact hgood n (List.mem_reverse.mp hn)

theorem LockStep.relocks {step : RadixCache × Int → TreeNode RadixNode → RadixCache × Int} {k : Int}
    (h : LockStep step k)
    (htotal : ∀ state n rank, (step state n).1.evictableSize rank +
      (step state n).1.protectedSize rank = state.1.evictableSize rank + state.1.protectedSize rank)
    (valid : Valid c) {node : Nat} {rows : List (TreeNode RadixNode)}
    (hpath : Path c.tree node rows) :
    Relocks c rows k ((c.tree.ancestors node).foldl step (c, 0)).1 := by
  obtain ⟨htree, hsettings⟩ := h.path_tree valid hpath
  refine ⟨htree, hsettings, ?_⟩
  intro rank
  have hfold (nodes : List (TreeNode RadixNode)) (state : RadixCache × Int) :
      (nodes.foldl step state).1.evictableSize rank +
        (nodes.foldl step state).1.protectedSize rank =
        state.1.evictableSize rank + state.1.protectedSize rank := by
    induction nodes generalizing state with
    | nil => rfl
    | cons n nodes ih => rw [List.foldl_cons, ih, htotal]
  exact hfold _ _

theorem incLockRef_relocks (valid : Valid c) (henabled : c.disable = false) {node : Nat}
    {rows : List (TreeNode RadixNode)} (hpath : Path c.tree node rows) :
    Relocks c rows 1 (c.incLockRef node).1 := by
  rw [incLockRef, if_neg (by simp [henabled])]
  exact lockStep_isLockStep.relocks lockStep_total valid hpath

theorem decLockRef_relocks (valid : Valid c) (henabled : c.disable = false) {node : Nat}
    {rows : List (TreeNode RadixNode)} (hpath : Path c.tree node rows) :
    Relocks c rows (-1) (c.decLockRef node).1 := by
  rw [decLockRef, if_neg (by simp [henabled])]
  exact unlockStep_isLockStep.relocks unlockStep_total valid hpath

theorem decLockRef_pageSize (c : RadixCache) (node : Nat) :
    (c.decLockRef node).1.pageSize = c.pageSize := by
  have hfold (nodes : List (TreeNode RadixNode)) (state : RadixCache × Int) :
      (nodes.foldl unlockStep state).1.settings = state.1.settings := by
    induction nodes generalizing state with
    | nil => rfl
    | cons n nodes ih => rw [List.foldl_cons, ih, unlockStep_settings]
  unfold decLockRef
  split
  · rfl
  · exact congrArg Prod.fst (hfold _ (c, 0))

section Relocks

variable {rows : List (TreeNode RadixNode)} {k : Int}

theorem Relocks.pageSize_eq (h : Relocks c rows k d) : d.pageSize = c.pageSize :=
  congrArg Prod.fst h.settings

theorem Relocks.disable_eq (h : Relocks c rows k d) : d.disable = c.disable :=
  congrArg (fun settings => settings.2.1) h.settings

theorem Relocks.isEagle_eq (h : Relocks c rows k d) : d.isEagle = c.isEagle :=
  congrArg (fun settings => settings.2.2.1) h.settings

theorem Relocks.treeCount_eq (h : Relocks c rows k d) (rank page : Nat) :
    d.treeCount rank page = c.treeCount rank page := by
  rw [treeCount, h.tree, h.pageSize_eq]
  exact weigh_modify _ fun _ => rfl

theorem Relocks.path (h : Relocks c rows k d) {node : Nat} {path : List (TreeNode RadixNode)}
    (hpath : Path c.tree node path) :
    Path d.tree node (NodeTable.modify path (rows.map Node.id) (addLock k)) := by
  rw [h.tree]
  exact hpath.modify _ _

theorem Relocks.held (h : Relocks c rows k d) {node : Nat} {key : RadixKey} {slots : List Nat}
    (held : Held c node key slots) : Held d node key slots := by
  obtain ⟨path, hpath, hspace, hspell, hslots⟩ := held
  refine ⟨_, h.path hpath, ?_, ?_, ?_⟩
  · intro n hn
    obtain ⟨m, hm, rfl⟩ := mem_modify.mp hn
    have := hspace m hm
    dsimp only [label] at this ⊢
    split <;> exact this
  · rw [← hspell, modify_eq_map, spell, spell, List.flatMap_map]
    congr 1
    funext n
    split <;> rfl
  · rw [← hslots, modify_eq_map, List.flatMap_map]
    congr 1
    funext n
    split <;> rfl

/-- Counts that follow the references still do when both change together. -/
theorem Relocks.custody {others : List Nat} (h : Relocks c rows k d) (custody : Custody c holders)
    (henabled : c.disable = false) (hsub : ∀ holder ∈ others, ∃ path, Path c.tree holder path)
    (hcount : ∀ id, (c.tree.refs holders id : Int) + (if id ∈ rows.map Node.id then k else 0) =
      c.tree.refs others id) (hsized : Sized d) : Custody d others := by
  have valid' := custody.valid.relock h.tree h.settings
  have hrefs (id : Nat) : d.tree.refs others id = c.tree.refs others id := by
    refine refs_of_paths custody.valid.tree.rooted.toGrounded valid'.tree.rooted.toGrounded ?_ id
    intro holder hmem
    obtain ⟨path, hpath⟩ := hsub holder hmem
    exact ⟨path, _, hpath, h.path hpath, map_id_modify _ _ _⟩
  refine ⟨valid', ?_, ?_, ?_, ?_, hsized, ?_⟩
  · intro hdisable
    rw [h.disable_eq, henabled] at hdisable
    cases hdisable
  · intro holder hmem
    obtain ⟨path, hpath⟩ := hsub holder hmem
    exact ⟨_, h.path hpath⟩
  · intro n hn
    rw [h.tree, relock] at hn
    obtain ⟨m, hm, rfl⟩ := mem_modify.mp hn
    rw [hrefs, ← hcount, ← custody.locks m hm]
    dsimp only
    split
    · rfl
    · rw [Int.add_zero]
  · intro rank
    rw [h.total, custody.sizes, h.tree, relock, weigh_modify (f := addLock k) _ fun _ => rfl]
  · intro n hn
    rw [h.tree, relock] at hn
    obtain ⟨m, hm, rfl⟩ := mem_modify.mp hn
    rw [h.pageSize_eq]
    have := custody.laid m hm
    dsimp only
    split <;> exact this

end Relocks

/-- References keep a count on every node of their paths. -/
theorem Custody.lockRef_pos (h : Custody c holders) {node : Nat} (hmem : node ∈ holders)
    {rows : List (TreeNode RadixNode)} (hpath : Path c.tree node rows) :
    ∀ n ∈ rows, 0 < n.data.lockRef := by
  intro n hn
  have hrefers : c.tree.Refers node n.id := by
    rw [refers_iff h.valid.tree.rooted.toGrounded hpath]
    exact List.mem_map_of_mem hn
  have hpos := refs_pos hmem hrefers
  have hlock := h.locks n (hpath.mem n hn)
  omega

theorem Custody.lockRef_nonneg (h : Custody c holders) {n : TreeNode RadixNode} (hn : n ∈ c.tree) :
    0 ≤ n.data.lockRef := by
  rw [h.locks n hn]
  exact Int.natCast_nonneg _

theorem Custody.incLockRef (h : Custody c holders) {node : Nat}
    {rows : List (TreeNode RadixNode)} (hpath : Path c.tree node rows) :
    Custody (c.incLockRef node).1 (node :: holders) := by
  have hpaths : ∀ holder ∈ node :: holders, ∃ path, Path c.tree holder path := by
    intro holder hmem
    rcases List.mem_cons.mp hmem with rfl | hmem
    · exact ⟨rows, hpath⟩
    · exact h.paths holder hmem
  cases hdisable : c.disable with
  | true =>
    have htree := h.disabled hdisable
    rw [RadixCache.incLockRef, if_pos hdisable]
    exact ⟨h.valid, h.disabled, hpaths, by simp [htree], h.sizes, h.sized, h.laid⟩
  | false =>
    refine (incLockRef_relocks h.valid hdisable hpath).custody h hdisable hpaths ?_ ?_
    swap
    · rw [RadixCache.incLockRef, if_neg (by simp [hdisable])]
      exact lockStep_isLockStep.path_sized (P := fun d => 0 ≤ d.lockRef) lockStep_sized h.valid
        hpath (fun n hn => h.lockRef_nonneg (hpath.mem n hn)) h.sized
    intro id
    have hiff : c.tree.Refers node id ↔ id ∈ rows.map Node.id :=
      refers_iff h.valid.tree.rooted.toGrounded hpath
    rw [refs_cons]
    by_cases hid : id ∈ rows.map Node.id
    · rw [if_pos hid, if_pos (hiff.mpr hid)]
      omega
    · rw [if_neg hid, if_neg (mt hiff.mp hid)]
      omega

theorem Custody.decLockRef {node : Nat} (h : Custody c (node :: holders)) :
    Custody (c.decLockRef node).1 holders := by
  have hpaths : ∀ holder ∈ holders, ∃ path, Path c.tree holder path := fun holder hmem =>
    h.paths holder (by simp [hmem])
  cases hdisable : c.disable with
  | true =>
    have htree := h.disabled hdisable
    rw [RadixCache.decLockRef, if_pos hdisable]
    exact ⟨h.valid, h.disabled, hpaths, by simp [htree], h.sizes, h.sized, h.laid⟩
  | false =>
    obtain ⟨rows, hpath⟩ := h.paths node (by simp)
    refine (decLockRef_relocks h.valid hdisable hpath).custody h hdisable hpaths ?_ ?_
    swap
    · rw [RadixCache.decLockRef, if_neg (by simp [hdisable])]
      exact unlockStep_isLockStep.path_sized (P := fun d => 0 < d.lockRef) unlockStep_sized
        h.valid hpath (h.lockRef_pos (by simp) hpath) h.sized
    intro id
    have hiff : c.tree.Refers node id ↔ id ∈ rows.map Node.id :=
      refers_iff h.valid.tree.rooted.toGrounded hpath
    rw [refs_cons]
    by_cases hid : id ∈ rows.map Node.id
    · rw [if_pos hid, if_pos (hiff.mpr hid)]
      omega
    · rw [if_neg hid, if_neg (mt hiff.mp hid)]
      omega

/-- What `inc_lock_ref` and `dec_lock_ref` leave alone. -/
structure SameContent (c d : RadixCache) : Prop where
  pageSize : d.pageSize = c.pageSize
  disable : d.disable = c.disable
  isEagle : d.isEagle = c.isEagle
  held : ∀ {node key slots}, Held c node key slots → Held d node key slots
  count : ∀ rank page, d.treeCount rank page = c.treeCount rank page

theorem Relocks.sameContent {rows : List (TreeNode RadixNode)} {k : Int}
    (h : Relocks c rows k d) : SameContent c d where
  pageSize := h.pageSize_eq
  disable := h.disable_eq
  isEagle := h.isEagle_eq
  held := h.held
  count := h.treeCount_eq

theorem SameContent.refl (c : RadixCache) : SameContent c c :=
  ⟨rfl, rfl, rfl, id, fun _ _ => rfl⟩

theorem SameContent.trans {e : RadixCache} (hcd : SameContent c d) (hde : SameContent d e) :
    SameContent c e where
  pageSize := hde.pageSize.trans hcd.pageSize
  disable := hde.disable.trans hcd.disable
  isEagle := hde.isEagle.trans hcd.isEagle
  held := fun h => hde.held (hcd.held h)
  count := fun rank page => (hde.count rank page).trans (hcd.count rank page)

theorem sameContent_incLockRef (valid : Valid c) {node : Nat} {rows : List (TreeNode RadixNode)}
    (hpath : Path c.tree node rows) : SameContent c (c.incLockRef node).1 := by
  cases hdisable : c.disable with
  | true =>
    rw [incLockRef, if_pos hdisable]
    exact .refl c
  | false => exact (incLockRef_relocks valid hdisable hpath).sameContent

theorem sameContent_decLockRef (valid : Valid c) {node : Nat} {rows : List (TreeNode RadixNode)}
    (hpath : Path c.tree node rows) : SameContent c (c.decLockRef node).1 := by
  cases hdisable : c.disable with
  | true =>
    rw [decLockRef, if_pos hdisable]
    exact .refl c
  | false => exact (decLockRef_relocks valid hdisable hpath).sameContent

theorem Cuts.sameContent (cuts : Cuts c d) (h : Custody c holders) : SameContent c d where
  pageSize := cuts.settings.1
  disable := cuts.settings.2.1
  isEagle := cuts.settings.2.2.1
  held := cuts.held h.valid
  count := cuts.treeCount_eq h

/-! ### Adding a leaf -/

section Leaf

variable {node : Nat} {rows : List (TreeNode RadixNode)} {slot : PyVal} {key : RadixKey}
  {value pages : List Nat}

theorem path_addLeaf {holder : Nat} {path : List (TreeNode RadixNode)}
    (hpath : Path c.tree holder path) :
    Path (c.addLeaf node slot key value).tree holder path :=
  hpath.mono fun _ hm => mem_attach.mpr (.inl hm)

theorem Custody.addLeaf (h : Custody c holders) (henabled : c.disable = false)
    (fits : LeafFits c node rows slot key value) (hlaid : Laid c.pageSize value pages) :
    Custody (c.addLeaf node slot key value) holders := by
  have hrooted := h.valid.tree.rooted
  have valid' := h.valid.addLeaf fits
  have hrefs (id : Nat) : (c.addLeaf node slot key value).tree.refs holders id =
      c.tree.refs holders id := by
    refine refs_of_paths hrooted.toGrounded valid'.tree.rooted.toGrounded ?_ id
    intro holder hmem
    obtain ⟨path, hpath⟩ := h.paths holder hmem
    exact ⟨path, path, hpath, path_addLeaf hpath, rfl⟩
  refine ⟨valid', ?_, ?_, ?_, ?_, ?_, ?_⟩
  · intro hdisable
    rw [show (c.addLeaf node slot key value).disable = c.disable from rfl, henabled] at hdisable
    cases hdisable
  · intro holder hmem
    obtain ⟨path, hpath⟩ := h.paths holder hmem
    exact ⟨path, path_addLeaf hpath⟩
  · intro n hn
    rw [hrefs]
    rcases mem_attach.mp hn with hn | rfl
    · exact h.locks n hn
    · -- No reference passes through an identity that is new.
      have hzero : c.tree.refs holders c.counter = 0 := by
        apply List.countP_eq_zero.mpr
        intro holder hmem
        obtain ⟨path, hpath⟩ := h.paths holder hmem
        rw [decide_eq_true_eq, refers_iff hrooted.toGrounded hpath]
        intro hid
        obtain ⟨m, hm, hid⟩ := List.mem_map.mp hid
        exact (h.valid.fresh m (hpath.mem m hm)).1 hid
      rw [hzero]
      rfl
  · intro rank
    have hsizes := h.sizes rank
    simp only [RadixCache.addLeaf, weigh_attach, bump_apply, sizeOn]
    by_cases hrank : rank = key.rank
    · subst hrank
      simp only [if_true]
      omega
    · rw [if_neg hrank, if_neg (Ne.symm hrank)]
      omega
  · intro rank
    have hsized := h.sized rank
    simp only [RadixCache.addLeaf, weigh_attach, bump_apply, unlockedOn, sizeOn, if_true]
    by_cases hrank : rank = key.rank
    · subst hrank
      simp only [if_true]
      omega
    · rw [if_neg hrank, if_neg (Ne.symm hrank)]
      omega
  · intro n hn
    rcases mem_attach.mp hn with hn | rfl
    · exact h.laid n hn
    · rw [show (c.addLeaf node slot key value).pageSize = c.pageSize from rfl,
        hlaid.pagesOf_eq h.valid.page_pos]
      exact hlaid

theorem treeCount_addLeaf (hpage : 0 < c.pageSize) (hlaid : Laid c.pageSize value pages)
    (rank page : Nat) : (c.addLeaf node slot key value).treeCount rank page =
      c.treeCount rank page + if rank = key.rank then pages.count page else 0 := by
  rw [treeCount, RadixCache.addLeaf, weigh_attach]
  dsimp only
  rw [pageOn, hlaid.pagesOf_eq hpage]
  by_cases hrank : rank = key.rank
  · rw [if_pos hrank, if_pos hrank.symm]
    rfl
  · rw [if_neg hrank, if_neg (Ne.symm hrank)]
    rfl

theorem Held.addLeaf {other : Nat} {otherKey : RadixKey} {slots : List Nat}
    (held : Held c other otherKey slots) :
    Held (c.addLeaf node slot key value) other otherKey slots := by
  obtain ⟨path, hpath, hrest⟩ := held
  exact ⟨path, path_addLeaf hpath, hrest⟩

end Leaf

/-! ### Removing an unlocked leaf -/

section Leave

variable {n : TreeNode RadixNode}

/-- An unlocked leaf is on no reference's path. -/
theorem Custody.avoids (h : Custody c holders) (take : Evictable c n) {holder : Nat}
    (hmem : holder ∈ holders) {path : List (TreeNode RadixNode)}
    (hpath : Path c.tree holder path) : ∀ m ∈ path, m.id ≠ n.id := by
  intro m hm hid
  have hrefers : c.tree.Refers holder n.id := by
    rw [refers_iff h.valid.tree.rooted.toGrounded hpath, ← hid]
    exact List.mem_map_of_mem hm
  have hpos := refs_pos hmem hrefers
  have hlock := h.locks n take.mem
  have := take.unlocked
  omega

theorem Custody.deleteLeaf (h : Custody c holders) (take : Evictable c n) :
    Custody (c.deleteLeaf n) holders := by
  have hrooted := h.valid.tree.rooted
  have valid' := h.valid.deleteLeaf take
  refine ⟨valid', ?_, ?_, ?_, ?_, ?_, ?_⟩
  · intro hdisable
    have hmem := take.mem
    rw [h.disabled hdisable] at hmem
    cases hmem
  · intro holder hmem
    obtain ⟨path, hpath⟩ := h.paths holder hmem
    exact ⟨path, hpath.detach (h.avoids take hmem hpath)⟩
  · intro m hm
    rw [h.locks m (mem_detach.mp hm).1,
      refs_of_paths hrooted.toGrounded valid'.tree.rooted.toGrounded]
    intro holder hmem
    obtain ⟨path, hpath⟩ := h.paths holder hmem
    exact ⟨path, path, hpath, hpath.detach (h.avoids take hmem hpath), rfl⟩
  · intro rank
    have hsizes := h.sizes rank
    have hlen := h.valid.value_len n take.mem
    rw [weigh_detach hrooted.nodup take.mem, sizeOn] at hsizes
    simp only [RadixCache.deleteLeaf, bump_apply]
    by_cases hrank : rank = n.data.key.rank
    · rw [if_pos hrank]
      rw [if_pos hrank.symm] at hsizes
      omega
    · rw [if_neg hrank]
      rw [if_neg (Ne.symm hrank)] at hsizes
      omega
  · intro rank
    have hsized := h.sized rank
    have hlen := h.valid.value_len n take.mem
    have hlock := h.lockRef_nonneg take.mem
    have hfree : n.data.lockRef = 0 := by
      have := take.unlocked
      omega
    rw [weigh_detach hrooted.nodup take.mem, unlockedOn_self hfree, sizeOn] at hsized
    simp only [RadixCache.deleteLeaf, bump_apply]
    by_cases hrank : rank = n.data.key.rank
    · rw [if_pos hrank]
      rw [if_pos hrank.symm] at hsized
      omega
    · rw [if_neg hrank]
      rw [if_neg (Ne.symm hrank)] at hsized
      omega
  · intro m hm
    exact h.laid m (mem_detach.mp hm).1

theorem Custody.treeCount_deleteLeaf (h : Custody c holders) (take : Evictable c n)
    (rank page : Nat) : c.treeCount rank page = (c.deleteLeaf n).treeCount rank page +
      if rank = n.data.key.rank then (pagesOf c.pageSize n.data.value).count page else 0 := by
  rw [treeCount, weigh_detach h.valid.tree.rooted.nodup take.mem, Nat.add_comm, pageOn]
  by_cases hrank : rank = n.data.key.rank
  · rw [if_pos hrank, if_pos hrank.symm]
    rfl
  · rw [if_neg hrank, if_neg (Ne.symm hrank)]
    rfl

theorem Custody.held_deleteLeaf (h : Custody c holders) (take : Evictable c n) {node : Nat}
    (hmem : node ∈ holders) {key : RadixKey} {slots : List Nat} (held : Held c node key slots) :
    Held (c.deleteLeaf n) node key slots := by
  obtain ⟨path, hpath, hrest⟩ := held
  exact ⟨path, hpath.detach (h.avoids take hmem hpath), hrest⟩

end Leave

/-! ### Looking up and inserting -/

theorem storedKey_of_plain (hplain : c.isEagle = false) (key : RadixKey) :
    c.storedKey key = key := by
  simp [storedKey, keyConvertFn, hplain]

theorem PlainIds.take {key : RadixKey} (h : PlainIds key) (n : Nat) : PlainIds (key.take n) :=
  OfKind.take h n

theorem Walk.held (valid : Valid c) {key : RadixKey} {node : Nat}
    {rows : List (TreeNode RadixNode)} (walk : Walk c.tree key node rows) :
    Held c node (key.take (rows.flatMap values).length) (rows.flatMap values) := by
  refine ⟨rows, walk.path, walk.space, ?_, rfl⟩
  rw [length_flatMap_eq values fun m hm => valid.value_len m (walk.path.mem m hm)]
  exact List.prefix_iff_eq_take.mp walk.spelled

/-- A lookup holds the slots it returns, and they are all there are. -/
theorem Custody.matchPrefix (h : Custody c holders) (hplain : c.isEagle = false) {key : RadixKey}
    (hids : PlainIds key) :
    ∃ d result, c.matchPrefix key = .ok (d, result) ∧ Custody d holders ∧ SameContent c d ∧
      Held d result.lastDeviceNode (key.take result.deviceIndices.length) result.deviceIndices ∧
      result.deviceIndices.length ≤ key.length ∧
      (c.disable = false → key.length % c.pageSize = 0 → ∀ slots, Stored values c.tree key slots →
        result.deviceIndices.length = key.length) := by
  cases hdisable : c.disable with
  | true =>
    refine ⟨c, emptyMatch, by simp [RadixCache.matchPrefix, hdisable, pure, Except.pure], h,
      .refl c, ⟨[], .root, by simp, ?_, rfl⟩, Nat.zero_le _, by simp⟩
    simp [emptyMatch]
  | false =>
    obtain ⟨d, result, rows, heq, cuts, walk, hslots, hlongest⟩ :=
      matchPrefix_spec h.valid hdisable hids (fun hEagle => by rw [hplain] at hEagle; cases hEagle)
    rw [storedKey_of_plain hplain] at walk hlongest
    have valid' := cuts.valid h.valid
    have hlen : result.deviceIndices.length = (spell rows).length := by
      rw [hslots]
      exact length_flatMap_eq values fun m hm => valid'.value_len m (walk.path.mem m hm)
    have halignedLe : (c.pageAlign key).length ≤ key.length := by
      rw [pageAlign_eq_take, RadixKey.length_take]
      exact Nat.min_le_right _ _
    have hle := walk.length_le
    refine ⟨d, result, heq, cuts.custody h, cuts.sameContent h, ?_, by omega, ?_⟩
    · have held := Walk.held valid' walk
      rw [← hslots, pageAlign_eq_take, RadixKey.take_take] at held
      rw [pageAlign_eq_take, RadixKey.length_take] at hle
      rwa [Nat.min_eq_left (by omega)] at held
    · intro _ halign slots hstored
      rw [pageAlign_of_aligned halign] at hlongest hle
      have hself : key.take key.length = key := by
        rw [RadixKey.take, RadixKey.length, List.take_length]
      have := hlongest.longest key.length halign (Nat.le_refl _) (by
        rw [hself, h.valid.prefixMap_isSome_iff]
        exact ⟨halign, slots, hstored⟩)
      omega

/-- What inserting a key with slots laid over `pages` does: the tree takes the
pages from the reported length on, and afterwards has the whole key. -/
structure Inserted (c : RadixCache) (key : RadixKey) (pages : List Nat) (d : RadixCache)
    (n : Nat) : Prop where
  pageSize : d.pageSize = c.pageSize
  disable : d.disable = c.disable
  isEagle : d.isEagle = c.isEagle
  aligned : n % c.pageSize = 0
  le : n ≤ key.length
  longest : ∀ m slots, m % c.pageSize = 0 → m ≤ key.length →
    Stored values c.tree (key.take m) slots → m ≤ n
  held : ∀ {node other slots}, Held c node other slots → Held d node other slots
  count : ∀ rank page, d.treeCount rank page = c.treeCount rank page +
    if rank = key.rank then (pages.drop (n / c.pageSize)).count page else 0
  stored : ∃ slots, Stored values d.tree key slots

theorem Custody.insert (h : Custody c holders) (henabled : c.disable = false)
    (hplain : c.isEagle = false) {key : RadixKey} {value pages : List Nat} (hids : PlainIds key)
    (halign : key.length % c.pageSize = 0) (hlen : value.length = key.length)
    (hlaid : Laid c.pageSize value pages) :
    ∃ d n, c.insert key value = .ok (d, n) ∧ Custody d holders ∧ Inserted c key pages d n := by
  have hlookup : Lookup c key := ⟨halign, hplain ▸ hids⟩
  obtain ⟨e, node, rows, reached, hmax, hcase⟩ := insertHelper_cases h.valid hlookup hlen
  have custody' := reached.cuts.custody h
  have content := reached.cuts.sameContent h
  have hwhole := reached.walk.stored custody'.valid.value_len
  have halignRows := custody'.valid.tree.spell_aligned reached.walk.path.mem
  rw [content.pageSize] at halignRows
  have hle := reached.walk.length_le
  have hpage := h.valid.page_pos
  have hinsert : c.insert key value = c.insertHelper key value := by
    rw [insert_eq henabled hids hlen, storedKey_of_plain hplain, ← hlen, List.take_length]
  have hself : key.take key.length = key := by
    rw [RadixKey.take, RadixKey.length, List.take_length]
  rw [hinsert]
  rcases hcase with ⟨hfull, heq⟩ | ⟨hlt, slot, fits, heq⟩
  · refine ⟨e, _, heq, custody', content.pageSize, content.disable, content.isEagle, halignRows,
      hle, hmax, content.held, ?_, _, by rw [hfull, hself] at hwhole; exact hwhole⟩
    intro rank page
    rw [content.count, hfull, List.drop_eq_nil_of_le]
    · simp
    · rw [hlaid.count, hlen, pagesFor_of_dvd hpage halign]
  · have hrest : Laid e.pageSize (value.drop (spell rows).length)
        (pages.drop ((spell rows).length / c.pageSize)) := by
      have := hlaid.drop hpage ((spell rows).length / c.pageSize)
      rw [content.pageSize]
      rwa [Nat.div_mul_cancel (Nat.dvd_of_mod_eq_zero halignRows)] at this
    refine ⟨_, _, heq, custody'.addLeaf (content.disable.trans henabled) fits hrest,
      content.pageSize, content.disable, content.isEagle, halignRows, hle, hmax,
      fun held => (content.held held).addLeaf, ?_, ?_⟩
    · intro rank page
      rw [treeCount_addLeaf custody'.valid.page_pos hrest, content.count, RadixKey.rank_drop]
    · refine ⟨_, (fits.stored_iff custody'.valid).mpr (.inr ⟨hlt, .refl _, ?_, rfl⟩)⟩
      conv_lhs => rw [← List.take_append_drop (spell rows).length key.tokenIds]
      rw [← List.prefix_iff_eq_take.mp reached.walk.spelled]
      exact List.prefix_refl _

end Custody
end SglJax.MemCache.RadixCache
