import SglJax.MemCache.RadixRefinement
import SglJax.MemCache.UnifiedKv

/-! What inserting into a `UnifiedRadixCache` does to the slots it is given: each
page that the tree has is taken up or freed, the pages past those go to a new
leaf. -/
namespace SglJax.MemCache.UnifiedCache

open Foundation Foundation.NodeTable

structure Valid (c : UnifiedCache) : Prop where
  page_pos : 0 < c.pageSize
  tree : KeyedTree c.pageSize c.isEagle c.tree
  value_len : ∀ n ∈ c.tree, ∀ value, n.data.value = some value →
    value.length = n.data.key.length
  counter_pos : 0 < c.counter
  id_lt : ∀ n ∈ c.tree, n.id < c.counter

/-- The slots on the device. -/
def slots (n : TreeNode UnifiedNode) : List Nat := n.data.value.getD []

/-- Every node of the path to `node` is locked. -/
def Locked (c : UnifiedCache) (node : Nat) : Prop :=
  ∃ rows, Path c.tree node rows ∧ ∀ n ∈ rows, 0 < n.data.lockRef

/-- The key is on a path of nodes that have their values. -/
def Resident (c : UnifiedCache) (key : RadixKey) : Prop :=
  ∃ rows, Covers c.tree key rows ∧ ∀ n ∈ rows, n.data.value.isSome

theorem Valid.reset {pageSize : Nat} (hpage : 0 < pageSize) (disable isEagle : Bool) :
    Valid (reset pageSize disable isEagle) where
  page_pos := hpage
  tree := ⟨.nil, by simp [UnifiedCache.reset], by simp [UnifiedCache.reset],
    by simp [UnifiedCache.reset], by simp [UnifiedCache.reset], by simp [UnifiedCache.reset]⟩
  value_len := by simp [UnifiedCache.reset]
  counter_pos := by simp [UnifiedCache.reset]
  id_lt := by simp [UnifiedCache.reset]

theorem Valid.node_lt {c : UnifiedCache} (valid : Valid c) {node : Nat}
    {rows : List (TreeNode UnifiedNode)} (h : Path c.tree node rows) : node < c.counter := by
  cases h with
  | root => exact valid.counter_pos
  | step above mem hangs => exact valid.id_lt _ mem

theorem Valid.fresh {c : UnifiedCache} (valid : Valid c) :
    ∀ m ∈ c.tree, m.id ≠ c.counter ∧ m.parent ≠ c.counter := by
  intro m hm
  obtain ⟨rows, hrows⟩ := valid.tree.rooted.reach m hm
  obtain ⟨init, k, -, hk, hid, hinit⟩ := hrows.snoc_inv (valid.tree.rooted.root_not_mem m hm)
  obtain rfl := eq_of_id_eq valid.tree.rooted.nodup hk hm hid
  exact ⟨(valid.id_lt k hk).ne, (valid.node_lt hinit).ne⟩

/-! ### Cutting a node -/

/-- The cache after `_split_node`, with the dictionary keys it computes. -/
def cutNode (c : UnifiedCache) (child : TreeNode UnifiedNode) (n : Nat) (bottomSlot : PyVal) :
    UnifiedCache :=
  { c with
    tree := c.tree.splice child.id c.counter child.slot bottomSlot (topHalf n) (bottomHalf n)
    counter := c.counter + 1 }

/-- The new node above the child. -/
def topNode (c : UnifiedCache) (child : TreeNode UnifiedNode) (n : Nat) : TreeNode UnifiedNode :=
  ⟨c.counter, child.parent, child.slot, topHalf n child.data⟩

/-- What `_split_node` needs to work as intended. -/
structure Cuttable (c : UnifiedCache) (child : TreeNode UnifiedNode) (n : Nat)
    (bottomSlot : PyVal) : Prop where
  mem : child ∈ c.tree
  pos : 0 < n
  lt : n < child.data.key.length
  aligned : n % c.pageSize = 0
  slot : getChildKey c.pageSize (child.data.key.drop n) = .ok bottomSlot

section Cut

variable {c : UnifiedCache} {child : TreeNode UnifiedNode} {n : Nat} {bottomSlot : PyVal}

theorem Cuttable.clean (cut : Cuttable c child n bottomSlot) (valid : Valid c) :
    CleanSplit c.pageSize c.tree child n c.counter child.slot bottomSlot
      (topHalf n) (bottomHalf n) where
  mem := cut.mem
  pos := cut.pos
  lt := cut.lt
  aligned := cut.aligned
  newId_ne := valid.counter_pos.ne'
  fresh := valid.fresh
  top_key := rfl
  bottom_key := rfl
  top_slot := valid.tree.slot_eq child cut.mem
  bottom_slot := cut.slot

theorem cuttable_of_mem (hchild : child ∈ c.tree) (hpos : 0 < n)
    (hlt : n < child.data.key.length) (halign : n % c.pageSize = 0) :
    ∃ bottomSlot, Cuttable c child n bottomSlot := by
  have hne : (child.data.key.drop n).tokenIds ≠ [] := by
    rw [RadixKey.tokenIds_drop, ne_eq, List.drop_eq_nil_iff]
    rw [RadixKey.length] at hlt
    omega
  obtain ⟨bottomSlot, hslot⟩ := getChildKey_ok c.pageSize hne
  exact ⟨bottomSlot, hchild, hpos, hlt, halign, hslot⟩

theorem Cuttable.splitNode_eq (cut : Cuttable c child n bottomSlot) (valid : Valid c) :
    c.splitNode child n = .ok (c.cutNode child n bottomSlot, c.topNode child n) := by
  have htop := valid.tree.slot_eq child cut.mem
  change getChildKey c.pageSize child.data.key = .ok child.slot at htop
  simp only [splitNode, cut.slot, htop]
  rfl

theorem Cuttable.slots_halves (cut : Cuttable c child n bottomSlot) :
    slots (c.topNode child n) ++ slots ⟨child.id, c.counter, bottomSlot, bottomHalf n child.data⟩ =
      slots child := by
  unfold slots topNode topHalf bottomHalf
  cases child.data.value with
  | none => rfl
  | some value => exact List.take_append_drop _ _

theorem Valid.cutNode (valid : Valid c) (cut : Cuttable c child n bottomSlot) :
    Valid (c.cutNode child n bottomSlot) := by
  have hmem := @mem_splice _ _ c.tree child c.counter child.slot bottomSlot (topHalf n)
    (bottomHalf n) valid.tree.rooted.nodup cut.mem
  have hlt := cut.lt
  refine ⟨valid.page_pos, valid.tree.splice (cut.clean valid), ?_, Nat.succ_pos _, ?_⟩
  · intro m hm value hvalue
    rcases hmem.mp hm with rfl | rfl | ⟨hm, -⟩
    · obtain ⟨whole, hwhole, rfl⟩ := Option.map_eq_some_iff.mp hvalue
      have := valid.value_len child cut.mem whole hwhole
      simp only [topHalf, List.length_take, RadixKey.length_take, this]
    · obtain ⟨whole, hwhole, rfl⟩ := Option.map_eq_some_iff.mp hvalue
      have := valid.value_len child cut.mem whole hwhole
      simp only [bottomHalf, List.length_drop, RadixKey.length_drop, this]
    · exact valid.value_len m hm value hvalue
  · intro m hm
    rcases hmem.mp hm with rfl | rfl | ⟨hm, -⟩
    · exact Nat.lt_succ_self _
    · exact Nat.lt_succ_of_lt (valid.id_lt child cut.mem)
    · exact Nat.lt_succ_of_lt (valid.id_lt m hm)

theorem Cuttable.inTree_iff (cut : Cuttable c child n bottomSlot) (valid : Valid c)
    {rank slot : Nat} :
    InTree slots (c.cutNode child n bottomSlot).tree rank slot ↔ InTree slots c.tree rank slot :=
  inTree_splice (cut.clean valid) valid.tree cut.slots_halves

/-- The halves of a node have what it had. -/
theorem mem_halves {P : UnifiedNode → Prop} {rows : List (TreeNode UnifiedNode)} {newId : Nat}
    {topSlot : PyVal} (h : ∀ m ∈ rows, P m.data) (hnodup : (c.tree.map Node.id).Nodup)
    (hrows : ∀ m ∈ rows, m ∈ c.tree) (hchild : child ∈ c.tree)
    (htop : P child.data → P (topHalf n child.data))
    (hbottom : P child.data → P (bottomHalf n child.data)) :
    ∀ m ∈ rows.flatMap (halves child.id newId topSlot bottomSlot (topHalf n) (bottomHalf n)),
      P m.data := by
  intro m hm
  obtain ⟨k, hk, hmk⟩ := List.mem_flatMap.mp hm
  rw [halves] at hmk
  split at hmk
  · rename_i hid
    obtain rfl := eq_of_id_eq hnodup (hrows k hk) hchild hid
    simp only [List.mem_cons, List.not_mem_nil, or_false] at hmk
    rcases hmk with rfl | rfl
    · exact htop (h k hk)
    · exact hbottom (h k hk)
  · rw [List.mem_singleton.mp hmk]
    exact h k hk

theorem Locked.cutNode {node : Nat} (valid : Valid c) (h : Locked c node)
    (cut : Cuttable c child n bottomSlot) : Locked (c.cutNode child n bottomSlot) node := by
  obtain ⟨rows, hpath, hlock⟩ := h
  have hnodup := valid.tree.rooted.nodup
  exact ⟨_, hpath.splice hnodup cut.mem, mem_halves (P := fun d => 0 < d.lockRef) hlock hnodup
    hpath.mem cut.mem id id⟩

theorem Resident.cutNode {key : RadixKey} (valid : Valid c) (h : Resident c key)
    (cut : Cuttable c child n bottomSlot) : Resident (c.cutNode child n bottomSlot) key := by
  obtain ⟨rows, hcovers, hvalue⟩ := h
  obtain ⟨id, hpath⟩ := hcovers.1
  refine ⟨_, (cut.clean valid).covers valid.tree hcovers,
    mem_halves (P := fun d => d.value.isSome) hvalue valid.tree.rooted.nodup hpath.mem cut.mem
      ?_ ?_⟩
  · intro hsome
    simpa [topHalf] using hsome
  · intro hsome
    simpa [bottomHalf] using hsome

end Cut

/-! ### Going down one node -/

structure Lookup (c : UnifiedCache) (key : RadixKey) : Prop where
  aligned : key.length % c.pageSize = 0
  kind : OfKind c.isEagle key.tokenIds

/-- `d` has the settings of `c`, and what held of a path for `c` holds for `d`. -/
structure Keeps (c d : UnifiedCache) : Prop where
  pageSize : d.pageSize = c.pageSize
  isEagle : d.isEagle = c.isEagle
  disable : d.disable = c.disable
  locked : ∀ {node}, Locked c node → Locked d node

theorem Keeps.refl (c : UnifiedCache) : Keeps c c := ⟨rfl, rfl, rfl, id⟩

theorem Keeps.trans {c d e : UnifiedCache} (hcd : Keeps c d) (hde : Keeps d e) : Keeps c e where
  pageSize := hde.pageSize.trans hcd.pageSize
  isEagle := hde.isEagle.trans hcd.isEagle
  disable := hde.disable.trans hcd.disable
  locked := fun h => hde.locked (hcd.locked h)

theorem Keeps.lookup {c d : UnifiedCache} {key : RadixKey} (h : Keeps c d) (hkey : Lookup c key) :
    Lookup d key := by
  refine ⟨?_, ?_⟩
  · rw [h.pageSize]
    exact hkey.aligned
  · rw [h.isEagle]
    exact hkey.kind

section Walks

variable {c d : UnifiedCache} {key : RadixKey} {rows : List (TreeNode UnifiedNode)}
  {child : TreeNode UnifiedNode} {n : Nat}

theorem Lookup.rest {node : Nat} (h : Lookup c key) (valid : Valid c)
    (walk : Walk c.tree key node rows) : Lookup c (key.drop (spell rows).length) where
  aligned := by
    rw [RadixKey.length_drop]
    exact Nat.mod_eq_zero_of_dvd (Nat.dvd_sub (Nat.dvd_of_mod_eq_zero h.aligned)
      (Nat.dvd_of_mod_eq_zero (valid.tree.spell_aligned walk.path.mem)))
  kind := h.kind.drop _

/-- A node below the end of a walk that agrees with the next `n` tokens of the key. -/
structure Stop (c : UnifiedCache) (key : RadixKey) (n total : Nat) (child node : TreeNode UnifiedNode)
    (d : UnifiedCache) (path : List (TreeNode UnifiedNode)) : Prop where
  valid : Valid d
  keeps : Keeps c d
  mem : node ∈ d.tree
  walk : Walk d.tree key node.id path
  length_eq : (spell path).length = total + n
  key_len : node.data.key.length = n
  space : (label node).SameNamespace key
  value : node.data.value.isSome = child.data.value.isSome
  inTree : ∀ rank slot, InTree slots d.tree rank slot ↔ InTree slots c.tree rank slot
  resident : ∀ {other}, Resident c other → Resident d other

/-- The node is cut when the key leaves its label in the middle. -/
theorem stop_of_match (valid : Valid c) (walk : Walk c.tree key child.parent rows)
    (hchild : child ∈ c.tree) (hspace : (label child).SameNamespace key) (hpos : 0 < n)
    (hmatch : PageMatch c.pageSize child.data.key.tokenIds
      (key.tokenIds.drop (spell rows).length) n) :
    ∃ d node path, (if n < child.data.key.length then c.splitNode child n else pure (c, child)) =
        Except.ok (d, node) ∧ Stop c key n (spell rows).length child node d path := by
  have hle := hmatch.le_left
  by_cases hlt : n < child.data.key.length
  · obtain ⟨bottomSlot, cut⟩ := cuttable_of_mem hchild hpos hlt hmatch.aligned
    have clean := cut.clean valid
    obtain ⟨hwalk, hspell⟩ := clean.walk_top valid.tree walk hspace hmatch.same
    refine ⟨c.cutNode child n bottomSlot, c.topNode child n, _,
      by rw [if_pos hlt, cut.splitNode_eq valid], ⟨valid.cutNode cut,
      ⟨rfl, rfl, rfl, fun h => h.cutNode valid cut⟩, ?_, hwalk, ?_, ?_, ?_, ?_,
      fun rank slot => cut.inTree_iff valid, fun h => h.cutNode valid cut⟩⟩
    · exact (mem_splice valid.tree.rooted.nodup hchild).mpr (.inl rfl)
    · rw [hspell, List.length_append, List.length_take]
      change _ + min n child.data.key.tokenIds.length = _
      rw [Nat.min_eq_left hle]
    · rw [topNode, topHalf, RadixKey.length_take, Nat.min_eq_left hlt.le]
    · exact (clean.sameSpace (.inl rfl)).trans hspace
    · simp [topNode, topHalf]
  · have hlen : n = child.data.key.length := by
      rw [RadixKey.length] at hlt ⊢
      omega
    have hkey : (label child).tokenIds <+: key.tokenIds.drop (spell rows).length := by
      have hsame := hmatch.same
      rw [hlen, RadixKey.length, List.take_length] at hsame
      change child.data.key.tokenIds <+: _
      rw [hsame]
      exact List.take_prefix _ _
    refine ⟨c, child, rows ++ [child], by rw [if_neg hlt]; rfl, ⟨valid, .refl c, hchild,
      walk.down hchild hspace hkey, ?_, hlen.symm, hspace, rfl, fun _ _ => Iff.rfl, id⟩⟩
    rw [spell_append, spell_singleton, List.length_append, hlen]
    rfl

/-! ### Taking a value up -/

/-- The cache after `_unevict_node_on_insert`. -/
def giveValue (c : UnifiedCache) (node : TreeNode UnifiedNode) (fresh : List Nat) : UnifiedCache :=
  { c with
    tree := c.tree.modify [node.id] fun d => { d with value := some fresh }
    evictableSize := RadixCache.bump c.evictableSize node.data.key.rank fresh.length }

theorem mem_giveValue {node : TreeNode UnifiedNode} {fresh : List Nat} (valid : Valid c)
    (hnode : node ∈ c.tree) {m : TreeNode UnifiedNode} :
    m ∈ (c.giveValue node fresh).tree ↔
      m = { node with data := { node.data with value := some fresh } } ∨
        m ∈ c.tree ∧ m.id ≠ node.id := by
  unfold giveValue
  rw [mem_modify]
  constructor
  · rintro ⟨k, hk, rfl⟩
    by_cases hid : k.id = node.id
    · obtain rfl := eq_of_id_eq valid.tree.rooted.nodup hk hnode hid
      left
      rw [if_pos (by simp)]
    · right
      rw [if_neg (by simpa using hid)]
      exact ⟨hk, hid⟩
  · rintro (rfl | ⟨hm, hid⟩)
    · exact ⟨node, hnode, by rw [if_pos (by simp)]⟩
    · exact ⟨m, hm, by rw [if_neg (by simpa using hid)]⟩

theorem spell_modify (rows : List (TreeNode UnifiedNode)) (ids : List Nat) (fresh : List Nat) :
    spell (NodeTable.modify rows ids fun d => { d with value := some fresh }) = spell rows := by
  rw [modify_eq_map, spell, spell, List.flatMap_map]
  congr 1
  funext m
  dsimp only [label]
  split <;> rfl

theorem walk_giveValue (node : TreeNode UnifiedNode) (fresh : List Nat) {id : Nat}
    (walk : Walk c.tree key id rows) :
    ∃ path, Walk (c.giveValue node fresh).tree key id path ∧ spell path = spell rows := by
  have hpath := walk.path.modify [node.id] fun d : UnifiedNode => { d with value := some fresh }
  refine ⟨_, ⟨hpath, ?_, ?_⟩, spell_modify _ _ _⟩
  · intro m hm
    obtain ⟨k, hk, rfl⟩ := mem_modify.mp hm
    have := walk.space k hk
    dsimp only [label] at this ⊢
    split <;> exact this
  · rw [spell_modify]
    exact walk.spelled

theorem Valid.giveValue {node : TreeNode UnifiedNode} {fresh : List Nat} (valid : Valid c)
    (hnode : node ∈ c.tree) (hlen : fresh.length = node.data.key.length) :
    Valid (c.giveValue node fresh) where
  page_pos := valid.page_pos
  tree := valid.tree.modify (f := fun d : UnifiedNode => { d with value := some fresh }) [node.id]
    fun _ => rfl
  value_len := by
    intro m hm value hvalue
    rcases (mem_giveValue valid hnode).mp hm with rfl | ⟨hm, -⟩
    · cases hvalue
      exact hlen
    · exact valid.value_len m hm value hvalue
  counter_pos := valid.counter_pos
  id_lt := by
    intro m hm
    rcases (mem_giveValue valid hnode).mp hm with rfl | ⟨hm, -⟩
    · exact valid.id_lt node hnode
    · exact valid.id_lt m hm

theorem keeps_giveValue (c : UnifiedCache) (node : TreeNode UnifiedNode) (fresh : List Nat) :
    Keeps c (c.giveValue node fresh) where
  pageSize := rfl
  isEagle := rfl
  disable := rfl
  locked := by
    rintro id ⟨rows, hpath, hlock⟩
    have hnew := hpath.modify [node.id] fun d : UnifiedNode => { d with value := some fresh }
    refine ⟨_, hnew, ?_⟩
    intro m hm
    obtain ⟨k, hk, rfl⟩ := mem_modify.mp hm
    have := hlock k hk
    dsimp only
    split <;> exact this

theorem inTree_giveValue {node : TreeNode UnifiedNode} {fresh : List Nat} (valid : Valid c)
    (hnode : node ∈ c.tree) (hnone : node.data.value = none) {rank slot : Nat} :
    InTree slots (c.giveValue node fresh).tree rank slot ↔
      InTree slots c.tree rank slot ∨ (label node).rank = rank ∧ slot ∈ fresh := by
  constructor
  · rintro ⟨m, hm, hrank, hslot⟩
    rcases (mem_giveValue valid hnode).mp hm with rfl | ⟨hm, -⟩
    · exact .inr ⟨hrank, hslot⟩
    · exact .inl ⟨m, hm, hrank, hslot⟩
  · rintro (⟨m, hm, hrank, hslot⟩ | ⟨hrank, hslot⟩)
    · refine ⟨m, (mem_giveValue valid hnode).mpr (.inr ⟨hm, ?_⟩), hrank, hslot⟩
      intro hid
      obtain rfl := eq_of_id_eq valid.tree.rooted.nodup hm hnode hid
      simp [slots, hnone] at hslot
    · exact ⟨_, (mem_giveValue valid hnode).mpr (.inl rfl), hrank, hslot⟩

end Walks

/-! ### One node of an insertion -/

/-- What became of the pages `lo` to `hi` of a row inserted under `key`: the tree
took up the ones marked in `adopted`, and of the others those past `prev` slots
were freed. -/
structure Overlapped (c d : UnifiedCache) (key : RadixKey) (row : List Nat) (prev lo hi : Nat)
    (freed : List FreeCall) (adopted : Nat → Bool) : Prop where
  inTree : ∀ rank slot, InTree slots d.tree rank slot ↔ InTree slots c.tree rank slot ∨
    key.rank = rank ∧ ∃ i, lo ≤ i / c.pageSize ∧ i / c.pageSize < hi ∧
      adopted (i / c.pageSize) = true ∧ row[i]? = some slot
  freed : ∀ i slot, row[i]? = some slot → freedTimes c.pageSize key.rank slot freed =
    if lo ≤ i / c.pageSize ∧ i / c.pageSize < hi ∧ prev / c.pageSize ≤ i / c.pageSize ∧
      adopted (i / c.pageSize) = false then 1 else 0

section Overlap

variable {c d : UnifiedCache} {key : RadixKey} {row : List Nat} {node : TreeNode UnifiedNode}
  {path : List (TreeNode UnifiedNode)} {prev lo hi : Nat}

/-- The page of the later of two places. -/
theorem max_div {pageSize first n : Nat} (hpage : 0 < pageSize) :
    max (first * pageSize) n / pageSize = max first (n / pageSize) := by
  rcases Nat.le_total (first * pageSize) n with hle | hle
  · rw [Nat.max_eq_right hle, Nat.max_eq_right ((Nat.le_div_iff_mul_le hpage).mpr hle)]
  · have := Nat.div_le_div_right (c := pageSize) hle
    rw [Nat.mul_div_cancel _ hpage] at this
    rw [Nat.max_eq_left hle, Nat.max_eq_left this, Nat.mul_div_cancel _ hpage]

/-- Some place from the later of two places on. -/
theorem between_max {pageSize : Nat} (hpage : 0 < pageSize) {k : Nat} :
    Between pageSize (max (lo * pageSize) prev) (hi * pageSize) k ↔
      lo ≤ k ∧ k < hi ∧ prev / pageSize ≤ k := by
  rw [between_iff hpage, max_div hpage, pagesFor_mul hpage]
  constructor
  · omega
  · rintro ⟨hlo, hhi, hprev⟩
    have hfirst : lo * pageSize < hi * pageSize := Nat.mul_lt_mul_of_pos_right (by omega) hpage
    have hlast : prev < hi * pageSize := (Nat.div_lt_iff_lt_mul hpage).mp (by omega)
    exact ⟨by omega, by omega, hhi⟩

theorem slice_slice {a b k : Nat} (h : a ≤ b) :
    slice (slice row a b) (k - a) (b - a) = slice row (max a k) b := by
  have hmax : a + (k - a) = max a k := by omega
  rw [slice, List.take_of_length_le (by rw [slice, List.length_drop, List.length_take]; omega),
    slice, List.drop_drop, hmax]
  rfl

theorem mem_slice_iff {a b slot : Nat} :
    slot ∈ slice row a b ↔ ∃ i, a ≤ i ∧ i < b ∧ row[i]? = some slot := by
  constructor
  · intro h
    obtain ⟨k, hk⟩ := List.mem_iff_getElem?.mp h
    rw [slice, List.getElem?_drop, List.getElem?_take] at hk
    split at hk
    · exact ⟨a + k, by omega, by omega, hk⟩
    · cases hk
  · rintro ⟨i, ha, hb, hi⟩
    refine List.mem_of_getElem? (i := i - a) ?_
    rw [slice, List.getElem?_drop, List.getElem?_take, Nat.add_sub_cancel' ha, if_pos hb, hi]

theorem overlapNode_spec (prev : Nat) (valid : Valid c) (hnode : node ∈ c.tree)
    (walk : Walk c.tree key node.id path) (hspace : (label node).SameNamespace key)
    (hrow : PagedRow c.pageSize row) (hlt : lo < hi) (hend : hi * c.pageSize ≤ row.length)
    (hlen : node.data.key.length = hi * c.pageSize - lo * c.pageSize) :
    ∃ d freed path', c.overlapNode node (slice row (lo * c.pageSize) (hi * c.pageSize))
        (hi * c.pageSize - lo * c.pageSize) (lo * c.pageSize) prev = .ok (d, freed) ∧
      Valid d ∧ Keeps c d ∧ Walk d.tree key node.id path' ∧ spell path' = spell path ∧
      Overlapped c d key row prev lo hi freed (fun _ => node.data.value.isNone) ∧
      (node.data.value.isSome → d = c) := by
  have hpage := valid.page_pos
  have hmul : lo * c.pageSize < hi * c.pageSize := Nat.mul_lt_mul_of_pos_right hlt hpage
  have hfresh : (slice row (lo * c.pageSize) (hi * c.pageSize)).length =
      hi * c.pageSize - lo * c.pageSize := by
    rw [slice, List.length_drop, List.length_take, Nat.min_eq_left hend]
  unfold overlapNode
  cases hvalue : node.data.value with
  | none =>
    have hmod : (slice row (lo * c.pageSize) (hi * c.pageSize)).length % c.pageSize = 0 := by
      rw [hfresh, ← Nat.sub_mul, Nat.mul_mod_left]
    obtain ⟨path', walk', hspell⟩ := walk_giveValue node
      (slice row (lo * c.pageSize) (hi * c.pageSize)) walk
    refine ⟨c.giveValue node (slice row (lo * c.pageSize) (hi * c.pageSize)), [], path', ?_,
      valid.giveValue hnode (hfresh.trans hlen.symm), keeps_giveValue _ _ _, walk', hspell,
      ⟨?_, ?_⟩, ?_⟩
    · unfold unevictNodeOnInsert
      rw [Option.isNone_none, if_pos rfl, if_neg (not_not.mpr hmod)]
      rfl
    · intro rank slot
      rw [inTree_giveValue valid hnode hvalue, hspace.rank_eq, mem_slice_iff]
      refine or_congr Iff.rfl (and_congr_right fun _ => exists_congr fun i => ?_)
      rw [Nat.le_div_iff_mul_le hpage, Nat.div_lt_iff_lt_mul hpage]
      simp
    · intro i slot _
      rw [if_neg (by simp)]
      rfl
    · intro h
      cases h
  | some value =>
    rw [Option.isNone_some, if_neg Bool.false_ne_true]
    have hrank : node.data.key.rank = key.rank := hspace.rank_eq
    have hbetween (k : Nat) : (lo ≤ k ∧ k < hi ∧ prev / c.pageSize ≤ k ∧ false = false) ↔
        Between c.pageSize (max (lo * c.pageSize) prev) (hi * c.pageSize) k := by
      rw [between_max hpage]
      simp
    refine ⟨c, if prev - lo * c.pageSize < hi * c.pageSize - lo * c.pageSize then
      [⟨slice row (max (lo * c.pageSize) prev) (hi * c.pageSize), key.rank⟩] else [], path, ?_,
      valid, .refl c, walk, rfl, ⟨?_, ?_⟩, fun _ => rfl⟩
    · dsimp only
      rw [slice_slice hmul.le, hrank]
      split <;> rfl
    · intro rank slot
      simp
    · intro i slot hi
      split
      · rw [freedTimes, List.countP_singleton]
        apply if_congr _ rfl rfl
        rw [hrow.gives_slice key.rank hi hend, hbetween]
      · rename_i hnone
        rw [if_neg]
        · rfl
        · rw [hbetween]
          rintro ⟨j, hj, hjlt, -⟩
          omega

theorem Overlapped.refl (c : UnifiedCache) (key : RadixKey) (row : List Nat) (prev lo : Nat) :
    Overlapped c c key row prev lo lo [] fun _ => false where
  inTree := by simp
  freed := by
    intro i slot _
    rw [if_neg (by omega)]
    rfl

/-- Two stretches of pages, one after the other. -/
theorem Overlapped.trans {e : UnifiedCache} {mid : Nat} {freed more : List FreeCall}
    {adopted after : Nat → Bool} (hcd : Overlapped c d key row prev lo mid freed adopted)
    (hde : Overlapped d e key row prev mid hi more after) (hpage : d.pageSize = c.pageSize)
    (hlo : lo ≤ mid) (hhi : mid ≤ hi) :
    Overlapped c e key row prev lo hi (freed ++ more)
      fun k => if k < mid then adopted k else after k where
  inTree := by
    intro rank slot
    rw [hde.inTree, hcd.inTree, hpage, or_assoc, ← and_or_left, ← exists_or]
    refine or_congr Iff.rfl (and_congr_right fun _ => exists_congr fun i => ?_)
    by_cases hlt : i / c.pageSize < mid
    · rw [if_pos hlt]
      constructor
      · rintro (⟨h, -, hrest⟩ | ⟨h, -⟩)
        · exact ⟨h, by omega, hrest⟩
        · omega
      · rintro ⟨h, -, hrest⟩
        exact .inl ⟨h, hlt, hrest⟩
    · rw [if_neg hlt]
      constructor
      · rintro (⟨-, h, -⟩ | ⟨h, hrest⟩)
        · omega
        · exact ⟨by omega, hrest⟩
      · rintro ⟨-, hrest⟩
        exact .inr ⟨by omega, hrest⟩
  freed := by
    intro i slot hslot
    have hfirst := hcd.freed i slot hslot
    have hsecond := hde.freed i slot hslot
    rw [hpage] at hsecond
    by_cases hlt : i / c.pageSize < mid
    · rw [if_neg fun h => absurd h.1 (not_le.mpr hlt)] at hsecond
      rw [freedTimes_append, hfirst, hsecond, Nat.add_zero, if_pos hlt]
      apply if_congr _ rfl rfl
      refine and_congr_right fun _ => and_congr_left fun _ => ?_
      omega
    · rw [if_neg fun h => absurd h.2.1 hlt] at hfirst
      rw [freedTimes_append, hfirst, hsecond, Nat.zero_add, if_neg hlt]
      apply if_congr _ rfl rfl
      refine and_congr_left fun _ => ?_
      omega

/-- The same when the first cache only differs in how it is cut. -/
theorem Overlapped.of_cut {e : UnifiedCache} {freed : List FreeCall} {adopted : Nat → Bool}
    (h : Overlapped d e key row prev lo hi freed adopted) (hpage : d.pageSize = c.pageSize)
    (hin : ∀ rank slot, InTree slots d.tree rank slot ↔ InTree slots c.tree rank slot) :
    Overlapped c e key row prev lo hi freed adopted where
  inTree := by
    intro rank slot
    rw [← hin, ← hpage]
    exact h.inTree rank slot
  freed := by
    intro i slot hi
    rw [← hpage]
    exact h.freed i slot hi

end Overlap

/-! ### The walk of an insertion -/

section Loop

variable {c : UnifiedCache} {key : RadixKey} {row : List Nat} {node : Nat}
  {rows : List (TreeNode UnifiedNode)} {child : TreeNode UnifiedNode} {n : Nat}

/-- The child key is the next one whenever some of the key is left. -/
def NextKey (c : UnifiedCache) (key : RadixKey) (childKey : PyVal) : Prop :=
  key.length ≠ 0 → getChildKey c.pageSize key = .ok childKey

theorem nextChildKey_ok (c : UnifiedCache) (key : RadixKey) (childKey : PyVal) :
    ∃ next, c.nextChildKey key childKey = .ok next ∧ NextKey c key next := by
  unfold nextChildKey
  split
  · rename_i hzero
    exact ⟨childKey, rfl, fun h => absurd hzero h⟩
  · rename_i hne
    obtain ⟨slot, hslot⟩ := getChildKey_ok c.pageSize
      (fun hnil : key.tokenIds = [] => hne (by rw [RadixKey.length, hnil]; rfl))
    exact ⟨slot, hslot, fun _ => hslot⟩

/-- The child that an insertion meets lies on every path that goes on along the
key. -/
theorem child_isSome (valid : Valid c) (walk : Walk c.tree key child.parent rows)
    (hchild : child ∈ c.tree) (hspace : (label child).SameNamespace key) (hpos : 0 < n)
    (hmatch : PageMatch c.pageSize child.data.key.tokenIds
      (key.tokenIds.drop (spell rows).length) n) {m : Nat} (halign : m % c.pageSize = 0)
    (hm : m ≤ key.length) (hlt : (spell rows).length < m) (h : Resident c (key.take m)) :
    child.data.value.isSome := by
  obtain ⟨cover, hcover, hvalue⟩ := h
  obtain ⟨y, below, rfl, hy, hparent, hyspace, hfirst⟩ :=
    valid.tree.next_on_cover walk halign hm hlt hcover
  have hpageLe : c.pageSize ≤ n := Nat.le_of_dvd hpos (Nat.dvd_of_mod_eq_zero hmatch.aligned)
  have heq : y = child := by
    refine valid.tree.child_unique hy hchild hparent (hyspace.trans hspace.symm) ?_
    have := congrArg (List.take c.pageSize) hmatch.same
    rw [List.take_take, List.take_take, Nat.min_eq_left hpageLe] at this
    rw [hfirst]
    exact this.symm
  rw [← heq]
  exact hvalue y (by simp)

theorem insertLoop_spec (valid : Valid c) (h : Lookup c key) (hrow : PagedRow c.pageSize row)
    (hend : key.length ≤ row.length) (prev : Nat) (walk : Walk c.tree key node rows) (fuel : Nat)
    {childKey : PyVal} (hfuel : (key.drop (spell rows).length).length < fuel)
    (hnext : NextKey c (key.drop (spell rows).length) childKey) :
    ∃ d last path lastKey freed adopted,
      insertLoop prev fuel c node (key.drop (spell rows).length)
        ((row.take key.length).drop (spell rows).length) childKey (spell rows).length =
        .ok (d, last, key.drop (spell path).length,
          (row.take key.length).drop (spell path).length, lastKey, (spell path).length, freed) ∧
      Valid d ∧ Keeps c d ∧ Walk d.tree key last path ∧
      NextKey d (key.drop (spell path).length) lastKey ∧
      ((key.drop (spell path).length).length ≠ 0 → d.tree.child? last lastKey = none) ∧
      (spell rows).length ≤ (spell path).length ∧
      Overlapped c d key row prev ((spell rows).length / c.pageSize)
        ((spell path).length / c.pageSize) freed adopted ∧
      ∀ m, m % c.pageSize = 0 → m ≤ key.length → Resident c (key.take m) →
        ∀ k, (spell rows).length / c.pageSize ≤ k → k * c.pageSize < m →
          k < (spell path).length / c.pageSize ∧ adopted k = false := by
  have hpage := valid.page_pos
  induction fuel generalizing c node rows childKey with
  | zero => omega
  | succ fuel ih =>
    have haligned := valid.tree.spell_aligned walk.path.mem
    have hback := Nat.div_mul_cancel (Nat.dvd_of_mod_eq_zero haligned)
    -- Nothing is left to be found when the walk stops here.
    have hstuck (hshort : ∀ m, m % c.pageSize = 0 → m ≤ key.length → Resident c (key.take m) →
        m ≤ (spell rows).length) : ∀ m, m % c.pageSize = 0 → m ≤ key.length →
          Resident c (key.take m) → ∀ k, (spell rows).length / c.pageSize ≤ k →
            k * c.pageSize < m → k < (spell rows).length / c.pageSize ∧ false = false := by
      intro m hmod hm hres k hk hlt
      have := Nat.mul_le_mul_right c.pageSize hk
      have := hshort m hmod hm hres
      omega
    rw [insertLoop]
    by_cases hzero : (key.drop (spell rows).length).length = 0
    · rw [if_pos hzero]
      refine ⟨c, node, rows, childKey, [], fun _ => false, rfl, valid, .refl c, walk, hnext,
        fun hne => absurd hzero hne, le_rfl, .refl c key row prev _, hstuck fun m _ hm _ => ?_⟩
      rw [RadixKey.length_drop] at hzero
      omega
    rw [if_neg hzero]
    cases hchild : c.tree.child? node childKey with
    | none =>
      refine ⟨c, node, rows, childKey, [], fun _ => false, rfl, valid, .refl c, walk, hnext,
        fun _ => hchild, le_rfl, .refl c key row prev _, hstuck fun m hmod hm hres => ?_⟩
      obtain ⟨cover, hcover, -⟩ := hres
      exact valid.tree.longest_of_no_child walk (fun _ => ⟨childKey, hnext hzero, hchild⟩)
        hmod hm hcover
    | some child =>
      obtain ⟨hmem, rfl, hspace, n, hn, hpos, hmatch⟩ := valid.tree.child_match hpage
        (fun hnil => hzero (by rw [RadixKey.length, hnil]; rfl)) (h.rest valid walk).aligned
        (h.rest valid walk).kind (hnext hzero) hchild
      obtain ⟨mid, stop, path, hsplit, stopped⟩ :=
        stop_of_match valid walk hmem hspace hpos hmatch
      have hmidAligned := stopped.valid.tree.spell_aligned stopped.walk.path.mem
      rw [stopped.length_eq, stopped.keeps.pageSize] at hmidAligned
      have hmidBack := Nat.div_mul_cancel (Nat.dvd_of_mod_eq_zero hmidAligned)
      have hmidLe := stopped.walk.length_le
      rw [stopped.length_eq] at hmidLe
      have hlt : (spell rows).length / c.pageSize < ((spell rows).length + n) / c.pageSize := by
        by_contra hge
        have := Nat.mul_le_mul_right c.pageSize (not_lt.mp hge)
        omega
      obtain ⟨d, freed, path', hoverlap, valid', hkeeps, walk', hspell, hover, hsame⟩ :=
        overlapNode_spec prev stopped.valid stopped.mem stopped.walk stopped.space
          (stopped.keeps.pageSize.symm ▸ hrow) hlt
          (by rw [stopped.keeps.pageSize]; omega) (by
            rw [stopped.key_len, stopped.keeps.pageSize]
            omega)
      have hslice : ((row.take key.length).drop (spell rows).length).take n =
          slice row (spell rows).length ((spell rows).length + n) := by
        rw [List.take_drop, List.take_take, Nat.min_eq_left hmidLe, slice]
      rw [stopped.keeps.pageSize, hback, hmidBack, Nat.add_sub_cancel_left] at hoverlap
      have hgone := hkeeps.pageSize.trans stopped.keeps.pageSize
      have hlen : (spell path').length = (spell rows).length + n := by
        rw [hspell, stopped.length_eq]
      have hdrop : (key.drop (spell rows).length).drop n = key.drop (spell path').length := by
        rw [RadixKey.drop_drop, hlen]
      obtain ⟨next, hnextEq, hnextKey⟩ := nextChildKey_ok d (key.drop (spell path').length) childKey
      obtain ⟨e, last, final, lastKey, more, after, heq, validE, hkeepsE, walkE, hnextE, hvacant,
        hle, hoverE, hlong⟩ := ih valid' ((stopped.keeps.trans hkeeps).lookup h)
          (hgone.symm ▸ hrow) walk' (by
            rw [RadixKey.length_drop] at hfuel hzero ⊢
            omega) hnextKey (hgone.symm ▸ hpage)
      rw [hgone, hlen] at hoverE hlong
      have hboth := (hover.of_cut stopped.keeps.pageSize stopped.inTree).trans hoverE hgone hlt.le
        (Nat.div_le_div_right (hlen ▸ hle))
      refine ⟨e, last, final, lastKey, freed ++ more, _, ?_, validE,
        (stopped.keeps.trans hkeeps).trans hkeepsE, walkE, hnextE, hvacant, by omega, hboth, ?_⟩
      · change keyMatchFn c.pageSize child.data.key _ = .ok n at hn
        dsimp only
        simp only [hn, bind, Except.bind]
        split
        all_goals
          rename_i hcut
          simp only [hcut, ↓reduceIte] at hsplit
          rw [hsplit]
          dsimp only
          rw [hslice, hoverlap]
          dsimp only
          rw [hdrop, hnextEq]
          dsimp only
          rw [List.drop_drop, ← hlen, heq]
          rfl
      · intro m hmod hm hres k hk hkm
        have hreach : (spell rows).length < m := by
          have := Nat.mul_le_mul_right c.pageSize hk
          omega
        have hsome := child_isSome valid walk hmem hspace hpos hmatch hmod hm hreach hres
        rw [← stopped.value] at hsome
        by_cases hnear : k < ((spell rows).length + n) / c.pageSize
        · rw [if_pos hnear]
          refine ⟨lt_of_lt_of_le hnear (Nat.div_le_div_right (hlen ▸ hle)), ?_⟩
          simpa using hsome
        · rw [if_neg hnear]
          refine hlong m hmod hm ?_ k (not_lt.mp hnear) hkm
          rw [hsame hsome]
          exact stopped.resident hres

end Loop

/-! ### The leaf -/

section Leaf

variable {c d : UnifiedCache} {key : RadixKey} {row : List Nat} {node : Nat}
  {rows : List (TreeNode UnifiedNode)} {slot : PyVal}

/-- What is left of the key becomes a leaf under the end of the walk. -/
theorem addNewNode_spec (valid : Valid c) (h : Lookup c key) (hrow : PagedRow c.pageSize row)
    (hend : key.length ≤ row.length) (prev : Nat) (walk : Walk c.tree key node rows)
    (hslot : getChildKey c.pageSize (key.drop (spell rows).length) = .ok slot)
    (hvacant : c.tree.child? node slot = none)
    (hne : (key.drop (spell rows).length).length ≠ 0) {d : UnifiedCache}
    (hd : d = c.addNewNode node slot (key.drop (spell rows).length)
      ((row.take key.length).drop (spell rows).length)) :
    Valid d ∧ Keeps c d ∧ Overlapped c d key row prev ((spell rows).length / c.pageSize)
      (key.length / c.pageSize) [] fun _ => true := by
  subst hd
  have hpage := valid.page_pos
  have hrest := h.rest valid walk
  have hlen : ((row.take key.length).drop (spell rows).length).length =
      (key.drop (spell rows).length).length := by
    rw [List.length_drop, List.length_take, RadixKey.length_drop, Nat.min_eq_left hend]
  refine ⟨⟨hpage, ?_, ?_, Nat.succ_pos _, ?_⟩, ⟨rfl, rfl, rfl, ?_⟩, ⟨?_, ?_⟩⟩
  · have hkeyNe : (key.drop (spell rows).length).tokenIds ≠ [] := fun hnil => hne (by
      rw [RadixKey.length, hnil]
      rfl)
    have := valid.tree.attach (n := ⟨c.counter, node, slot, ⟨key.drop (spell rows).length,
      some ((row.take key.length).drop (spell rows).length), 0⟩⟩) valid.counter_pos.ne' valid.fresh
      walk.path walk.space hslot (child?_eq_none.mp hvacant) hkeyNe hrest.aligned hrest.kind
    exact this
  · intro m hm value hvalue
    rcases mem_attach.mp hm with hm | rfl
    · exact valid.value_len m hm value hvalue
    · cases hvalue
      exact hlen
  · intro m hm
    change m.id < c.counter + 1
    rcases mem_attach.mp hm with hm | rfl
    · exact Nat.lt_succ_of_lt (valid.id_lt m hm)
    · exact Nat.lt_succ_self _
  · rintro other ⟨above, hpath, hlock⟩
    exact ⟨above, hpath.mono fun m hm => mem_attach.mpr (.inl hm), hlock⟩
  · intro rank other
    change InTree slots (c.tree.attach _) rank other ↔ _
    rw [inTree_attach]
    refine or_congr Iff.rfl (and_congr_right fun _ => ?_)
    change other ∈ slice row (spell rows).length key.length ↔ _
    rw [mem_slice_iff]
    refine exists_congr fun i => ?_
    have hfrom : (spell rows).length ≤ i ↔ (spell rows).length / c.pageSize ≤ i / c.pageSize := by
      rw [Nat.le_div_iff_mul_le hpage,
        Nat.div_mul_cancel (Nat.dvd_of_mod_eq_zero (valid.tree.spell_aligned walk.path.mem))]
    have hto : i < key.length ↔ i / c.pageSize < key.length / c.pageSize := by
      rw [Nat.div_lt_iff_lt_mul hpage, Nat.div_mul_cancel (Nat.dvd_of_mod_eq_zero h.aligned)]
    rw [hfrom, hto]
    simp
  · intro i slot _
    rw [if_neg (by simp)]
    rfl

/-- Every page of the row is taken up or freed; what the tree holds along the key
is not taken up again. -/
theorem insertHelper_spec (valid : Valid c) (h : Lookup c key) (hrow : PagedRow c.pageSize row)
    (hend : key.length ≤ row.length) (prev : Nat) :
    ∃ d n freed adopted, c.insertHelper key (row.take key.length) prev = .ok (d, n, freed) ∧
      Valid d ∧ Keeps c d ∧
      Overlapped c d key row prev 0 (key.length / c.pageSize) freed adopted ∧
      ∀ m, m % c.pageSize = 0 → m ≤ key.length → Resident c (key.take m) →
        ∀ k, k * c.pageSize < m → adopted k = false := by
  unfold insertHelper
  by_cases hzero : key.length = 0
  · refine ⟨c, 0, [], fun _ => false, by rw [if_pos hzero]; rfl, valid, .refl c, ?_,
      fun _ _ _ _ _ _ => rfl⟩
    rw [hzero, Nat.zero_div]
    exact .refl c key row prev 0
  rw [if_neg hzero]
  obtain ⟨first, hfirst⟩ := getChildKey_ok c.pageSize
    (fun hnil : key.tokenIds = [] => hzero (by rw [RadixKey.length, hnil]; rfl))
  obtain ⟨d, last, path, lastKey, freed, adopted, heq, valid', hkeeps, walk, hnext, hvacant, -,
    hover, hlong⟩ := insertLoop_spec valid h hrow hend prev (Walk.start c.tree key)
      (key.length + 1) (Nat.lt_succ_of_le (by simp)) (fun _ => hfirst)
  change insertLoop _ _ c rootId key (row.take key.length) first 0 = _ at heq
  simp only [hfirst, heq, bind, Except.bind]
  have hzeroDiv : (spell ([] : List (TreeNode UnifiedNode))).length / c.pageSize = 0 :=
    Nat.zero_div _
  rw [hzeroDiv] at hover hlong
  by_cases hdone : (key.drop (spell path).length).length = 0
  · rw [if_pos hdone]
    have hlen : (spell path).length = key.length := by
      have := walk.length_le
      rw [RadixKey.length_drop] at hdone
      omega
    rw [hlen] at hover
    exact ⟨d, _, freed, adopted, rfl, valid', hkeeps, hover, fun m hmod hm hres k hk =>
      (hlong m hmod hm hres k (Nat.zero_le _) hk).2⟩
  · rw [if_neg hdone]
    obtain ⟨validE, hkeepsE, hleaf⟩ := addNewNode_spec valid' (hkeeps.lookup h)
      (hkeeps.pageSize.symm ▸ hrow) hend prev walk (hnext hdone) (hvacant hdone) hdone rfl
    rw [hkeeps.pageSize] at hleaf
    refine ⟨_, _, freed ++ [], _, by rw [List.append_nil]; rfl, validE, hkeeps.trans hkeepsE,
      hover.trans hleaf hkeeps.pageSize (Nat.zero_le _)
        (Nat.div_le_div_right walk.length_le), ?_⟩
    intro m hmod hm hres k hk
    obtain ⟨hlt, hkeep⟩ := hlong m hmod hm hres k (Nat.zero_le _) hk
    rw [if_pos hlt, hkeep]

end Leaf

/-! ### Unlocking -/

section Unlock

variable {c d : UnifiedCache} {node rank slot : Nat}

theorem unlock_tree (c : UnifiedCache) (n : TreeNode UnifiedNode) :
    (c.unlock n).tree = c.tree.modify [n.id] fun d => { d with lockRef := d.lockRef - 1 } := by
  unfold unlock
  dsimp only
  split <;> rfl

theorem unlock_pageSize (c : UnifiedCache) (n : TreeNode UnifiedNode) :
    (c.unlock n).pageSize = c.pageSize := by
  unfold unlock
  dsimp only
  split <;> rfl

theorem unlockAll_spec {nodes : List (TreeNode UnifiedNode)} (h : ∀ n ∈ nodes, 0 < n.data.lockRef)
    (c : UnifiedCache) : ∃ d, unlockAll nodes c = .ok d ∧ d.pageSize = c.pageSize ∧
      ∀ rank slot, InTree slots d.tree rank slot ↔ InTree slots c.tree rank slot := by
  induction nodes generalizing c with
  | nil => exact ⟨c, rfl, rfl, fun _ _ => Iff.rfl⟩
  | cons n nodes ih =>
    obtain ⟨d, heq, hpage, hin⟩ := ih (fun m hm => h m (List.mem_cons_of_mem _ hm)) (c.unlock n)
    refine ⟨d, ?_, hpage.trans (unlock_pageSize c n), ?_⟩
    · rw [unlockAll, if_pos (h n List.mem_cons_self), heq]
    · intro rank slot
      rw [hin, unlock_tree]
      exact inTree_modify (fun _ => rfl) fun _ => rfl

/-- Unlocking a locked path works, and moves no slot. -/
theorem decLockRef_spec (valid : Valid c) (h : Locked c node) :
    ∃ d, c.decLockRef node = .ok d ∧ d.pageSize = c.pageSize ∧
      ∀ rank slot, InTree slots d.tree rank slot ↔ InTree slots c.tree rank slot := by
  unfold decLockRef
  split
  · exact ⟨c, rfl, rfl, fun _ _ => Iff.rfl⟩
  · obtain ⟨rows, hpath, hlock⟩ := h
    rw [ancestors_eq valid.tree.rooted.toGrounded hpath]
    exact unlockAll_spec (fun n hn => hlock n (List.mem_reverse.mp hn)) c

end Unlock
end SglJax.MemCache.UnifiedCache
