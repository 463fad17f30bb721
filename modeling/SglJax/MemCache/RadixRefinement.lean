import SglJax.MemCache.RadixUpkeep

/-! `RadixCache` as a prefix map: the map a cache represents, what each operation
does to it, and that this holds in every cache a run can reach. -/
namespace SglJax.MemCache.RadixCache

open Foundation Foundation.NodeTable

open Classical in
/-- The map from page-aligned keys on a stored path to their slots. -/
noncomputable def prefixMap (c : RadixCache) : PrefixMap := fun key =>
  if h : key.length % c.pageSize = 0 ∧ ∃ slots, Stored values c.tree key slots then
    some h.2.choose
  else none

section Map

variable {c d : RadixCache} {key : RadixKey}

theorem Valid.prefixMap_eq_some_iff (valid : Valid c) {slots : List Nat} :
    c.prefixMap key = some slots ↔
      key.length % c.pageSize = 0 ∧ Stored values c.tree key slots := by
  unfold prefixMap
  split
  · rename_i h
    constructor
    · intro heq
      cases heq
      exact ⟨h.1, h.2.choose_spec⟩
    · rintro ⟨halign, hstored⟩
      rw [valid.tree.stored_unique valid.value_len halign h.2.choose_spec hstored]
  · rename_i h
    constructor
    · intro heq
      cases heq
    · rintro ⟨halign, hstored⟩
      exact absurd ⟨halign, slots, hstored⟩ h

theorem Valid.prefixMap_isSome_iff (valid : Valid c) :
    (c.prefixMap key).isSome ↔
      key.length % c.pageSize = 0 ∧ ∃ slots, Stored values c.tree key slots := by
  rw [Option.isSome_iff_exists]
  constructor
  · rintro ⟨slots, h⟩
    obtain ⟨halign, hstored⟩ := valid.prefixMap_eq_some_iff.mp h
    exact ⟨halign, slots, hstored⟩
  · rintro ⟨halign, slots, hstored⟩
    exact ⟨slots, valid.prefixMap_eq_some_iff.mpr ⟨halign, hstored⟩⟩

theorem Cuts.prefixMap_eq (cuts : Cuts c d) (valid : Valid c) :
    d.prefixMap = c.prefixMap := by
  funext other
  apply Option.ext
  intro slots
  rw [(cuts.valid valid).prefixMap_eq_some_iff, valid.prefixMap_eq_some_iff,
    cuts.stored_iff valid, cuts.settings.1]

/-- A walk that cannot go on has found the longest stored part of its key. -/
theorem Reached.longest {node : Nat} {rows : List (TreeNode RadixNode)}
    (reached : Reached c d key node rows) (valid : Valid c)
    (hmax : ∀ m slots, m % c.pageSize = 0 → m ≤ key.length →
      Stored values c.tree (key.take m) slots → m ≤ (spell rows).length) :
    PrefixMap.Longest c.pageSize c.prefixMap key (spell rows).length := by
  have valid' := reached.cuts.valid valid
  have halign := valid'.tree.spell_aligned reached.walk.path.mem
  rw [reached.cuts.settings.1] at halign
  refine ⟨halign, reached.walk.length_le, ?_, ?_⟩
  · rw [valid.prefixMap_isSome_iff, RadixKey.length_take,
      Nat.min_eq_left reached.walk.length_le]
    exact ⟨halign, _, (reached.cuts.stored_iff valid).mp (reached.walk.stored valid'.value_len)⟩
  · intro j hj hle hsome
    obtain ⟨-, slots, hstored⟩ := valid.prefixMap_isSome_iff.mp hsome
    exact hmax j slots hj hle hstored

end Map

/-! ### Inserting -/

/-- The leaf `_insert_helper` hangs under the node its walk ended at. -/
def addLeaf (c : RadixCache) (node : Nat) (slot : PyVal) (key : RadixKey) (value : List Nat) :
    RadixCache :=
  { c with
    tree := c.tree.attach ⟨c.counter, node, slot, ⟨key, value, 0⟩⟩
    evictableSize := bump c.evictableSize key.rank value.length
    counter := c.counter + 1 }

/-- The leaf continues the path to its parent and no sibling starts alike. -/
structure LeafFits (c : RadixCache) (node : Nat) (rows : List (TreeNode RadixNode))
    (slot : PyVal) (key : RadixKey) (value : List Nat) : Prop where
  path : Path c.tree node rows
  space : ∀ m ∈ rows, (label m).SameNamespace key
  key_ne : key.tokenIds ≠ []
  lookup : Lookup c key
  slot_eq : getChildKey c.pageSize key = .ok slot
  vacant : c.tree.child? node slot = none
  value_len : value.length = key.length

section Insert

variable {c d : RadixCache} {key : RadixKey} {value : List Nat} {node : Nat} {slot : PyVal}
  {rows : List (TreeNode RadixNode)}

theorem LeafFits.tree (fits : LeafFits c node rows slot key value) (valid : Valid c) :
    KeyedTree c.pageSize c.isEagle (c.addLeaf node slot key value).tree :=
  valid.tree.attach valid.counter_pos.ne' valid.fresh fits.path fits.space fits.slot_eq
    (child?_eq_none.mp fits.vacant) fits.key_ne fits.lookup.aligned fits.lookup.kind

theorem Valid.addLeaf (valid : Valid c) (fits : LeafFits c node rows slot key value) :
    Valid (c.addLeaf node slot key value) := by
  refine ⟨valid.page_pos, fits.tree valid, ?_, Nat.succ_pos _, ?_⟩
  · intro m hm
    rcases mem_attach.mp hm with hm | rfl
    · exact valid.value_len m hm
    · exact fits.value_len
  · intro m hm
    change m.id < c.counter + 1
    rcases mem_attach.mp hm with hm | rfl
    · exact Nat.lt_succ_of_lt (valid.id_lt m hm)
    · exact Nat.lt_succ_self _

theorem LeafFits.stored_iff (fits : LeafFits c node rows slot key value) (valid : Valid c)
    {other : RadixKey} {slots : List Nat} :
    Stored values (c.addLeaf node slot key value).tree other slots ↔
      Stored values c.tree other slots ∨
      ((spell rows).length < other.length ∧ key.SameNamespace other ∧
        other.tokenIds <+: spell rows ++ key.tokenIds ∧
        slots = (rows.flatMap values ++ value).take other.length) :=
  valid.tree.stored_attach_iff (fits.tree valid) (fun m hm => (valid.fresh m hm).1)
    valid.counter_pos.ne' fits.path fits.space valid.value_len

/-- `_insert_helper` walks down, and hangs what is left of the key under the
node it ends at. -/
theorem insertHelper_cases (valid : Valid c) (h : Lookup c key) (hlen : value.length = key.length) :
    ∃ e node rows, Reached c e key node rows ∧
      (∀ m slots, m % c.pageSize = 0 → m ≤ key.length →
        Stored values c.tree (key.take m) slots → m ≤ (spell rows).length) ∧
      ((spell rows).length = key.length ∧
          c.insertHelper key value = .ok (e, (spell rows).length) ∨
        (spell rows).length < key.length ∧ ∃ slot,
          LeafFits e node rows slot (key.drop (spell rows).length)
            (value.drop (spell rows).length) ∧
          c.insertHelper key value = .ok (e.addLeaf node slot (key.drop (spell rows).length)
            (value.drop (spell rows).length), (spell rows).length)) := by
  unfold insertHelper
  by_cases hzero : key.length = 0
  · refine ⟨c, rootId, [], ⟨.refl c, .start _ _⟩, ?_, .inl ⟨hzero.symm, ?_⟩⟩
    · intro m slots _ hm _
      omega
    · rw [if_pos hzero]
      rfl
  rw [if_neg hzero]
  obtain ⟨first, hfirst⟩ := getChildKey_ok c.pageSize
    (fun hnil : key.tokenIds = [] => hzero (by rw [RadixKey.length, hnil]; rfl))
  obtain ⟨e, node, rows, slot, heq, reached, hnext, hvacant⟩ :=
    insertLoop_spec valid h value (Walk.start c.tree key) (key.length + 1)
      (Nat.lt_succ_of_le (by simp)) (fun _ => hfirst)
  change insertLoop _ c rootId key value first 0 = _ at heq
  simp only [hfirst, heq, bind, Except.bind]
  have valid' := reached.cuts.valid valid
  have hrest : (key.drop (spell rows).length).tokenIds = [] ↔
      (key.drop (spell rows).length).length = 0 := by
    rw [RadixKey.length, List.length_eq_zero_iff]
  refine ⟨e, node, rows, reached, ?_, ?_⟩
  · rintro m slots halign hm hstored
    obtain ⟨cover, hcover, -⟩ := (reached.cuts.stored_iff valid).mpr hstored
    rw [← reached.cuts.settings.1] at halign
    refine valid'.tree.longest_of_no_child reached.walk (fun hne => ?_) halign hm hcover
    have hlenNe := mt hrest.mpr hne
    exact ⟨slot, hnext hlenNe, hvacant hlenNe⟩
  · have hle := reached.walk.length_le
    by_cases hdone : (key.drop (spell rows).length).length = 0
    · left
      rw [if_pos hdone]
      rw [RadixKey.length_drop] at hdone
      exact ⟨by omega, rfl⟩
    · right
      rw [if_neg hdone]
      have hlt : (spell rows).length < key.length := by
        rw [RadixKey.length_drop] at hdone
        omega
      refine ⟨hlt, slot, ⟨reached.walk.path, reached.walk.space, mt hrest.mp hdone,
        (reached.cuts.lookup h).rest valid' reached.walk, hnext hdone, hvacant hdone, ?_⟩, rfl⟩
      rw [List.length_drop, RadixKey.length_drop, hlen]

theorem key_eq_take_iff (key other : RadixKey) :
    other = key.take other.length ↔
      key.SameNamespace other ∧ other.tokenIds <+: key.tokenIds := by
  rw [List.prefix_iff_eq_take]
  constructor
  · intro heq
    have htokens := congrArg RadixKey.tokenIds heq
    refine ⟨⟨?_, ?_⟩, htokens⟩
    · rw [heq]; rfl
    · rw [heq]; rfl
  · rintro ⟨⟨hextra, hrank⟩, htokens⟩
    cases other
    simp only [RadixKey.take, RadixKey.length, RadixKey.mk.injEq] at *
    exact ⟨htokens, hextra.symm, hrank.symm⟩

/-- Inserting reports the longest stored part of the key and enters the longer
ones. -/
theorem insertHelper_spec (valid : Valid c) (h : Lookup c key)
    (hlen : value.length = key.length) :
    ∃ d n, c.insertHelper key value = .ok (d, n) ∧ Valid d ∧ d.disable = c.disable ∧
      PrefixMap.Longest c.pageSize c.prefixMap key n ∧
      d.prefixMap = PrefixMap.extend c.pageSize c.prefixMap key n value := by
  obtain ⟨e, node, rows, reached, hmax, hcase⟩ := insertHelper_cases valid h hlen
  have valid' := reached.cuts.valid valid
  have hlongest := reached.longest valid hmax
  have hmap := reached.cuts.prefixMap_eq valid
  have hpage := reached.cuts.settings.1
  have hstored : c.prefixMap (key.take (spell rows).length) = some (rows.flatMap values) := by
    rw [← hmap, valid'.prefixMap_eq_some_iff, RadixKey.length_take,
      Nat.min_eq_left reached.walk.length_le, hpage]
    exact ⟨hlongest.aligned, reached.walk.stored valid'.value_len⟩
  -- Parts of the key up to where the walk ended have an entry.
  have hshort {other : RadixKey} (halign : other.length % c.pageSize = 0)
      (htake : other = key.take other.length) (hle : other.length ≤ (spell rows).length) :
      (c.prefixMap other).isSome := by
    rw [← hmap, valid'.prefixMap_isSome_iff, hpage]
    refine ⟨halign, _, rows, ?_, rfl⟩
    have hcover := reached.walk.covers.take other.length
    rwa [RadixKey.take_take, Nat.min_eq_left hle, ← htake] at hcover
  rcases hcase with ⟨hfull, heq⟩ | ⟨hlt, slot, fits, heq⟩
  · refine ⟨e, _, heq, valid', reached.cuts.settings.2.1, hlongest, ?_⟩
    rw [hmap]
    funext other
    unfold PrefixMap.extend
    split
    · assumption
    · rename_i hnone
      rw [if_neg]
      · exact hnone
      · rintro ⟨halign, htake⟩
        have hle : other.length ≤ key.length := by
          have := congrArg RadixKey.length htake
          rw [RadixKey.length_take] at this
          omega
        have := hshort halign htake (by omega)
        rw [hnone] at this
        cases this
  · have hkey : spell rows ++ (key.drop (spell rows).length).tokenIds = key.tokenIds := by
      conv_rhs => rw [← List.take_append_drop (spell rows).length key.tokenIds]
      rw [← List.prefix_iff_eq_take.mp reached.walk.spelled]
      rfl
    have hrowsLen : (rows.flatMap values).length = (spell rows).length :=
      length_flatMap_eq values fun m hm => valid'.value_len m (reached.walk.path.mem m hm)
    have hslots {j : Nat} (hlong : (spell rows).length < j) :
        (rows.flatMap values ++ value.drop (spell rows).length).take j =
          rows.flatMap values ++ (value.drop (spell rows).length).take (j - (spell rows).length) := by
      rw [List.take_append, List.take_of_length_le (by omega), hrowsLen]
    refine ⟨_, _, heq, valid'.addLeaf fits, reached.cuts.settings.2.1, hlongest, ?_⟩
    funext other
    apply Option.ext
    intro slots
    rw [(valid'.addLeaf fits).prefixMap_eq_some_iff, fits.stored_iff valid', hkey]
    change other.length % e.pageSize = 0 ∧ _ ↔ _
    rw [hpage, reached.cuts.stored_iff valid]
    unfold PrefixMap.extend
    split
    · rename_i old hold
      obtain ⟨halign, hold⟩ := valid.prefixMap_eq_some_iff.mp hold
      constructor
      · rintro ⟨-, hnew | ⟨hlong, hns, hinit, -⟩⟩
        · rw [valid.tree.stored_unique valid.value_len halign hold hnew]
        · -- A longer part of the key was not stored before.
          have htake := (key_eq_take_iff key other).mpr ⟨hns, hinit⟩
          have hle := hinit.length_le
          rw [htake] at hold
          have := hmax other.length old halign hle hold
          omega
      · intro hsome
        cases hsome
        exact ⟨halign, .inl hold⟩
    · rename_i hnone
      rw [hstored, Option.map_some]
      constructor
      · rintro ⟨halign, hold | ⟨hlong, hns, hinit, rfl⟩⟩
        · rw [valid.prefixMap_eq_some_iff.mpr ⟨halign, hold⟩] at hnone
          cases hnone
        · rw [if_pos ⟨halign, (key_eq_take_iff key other).mpr ⟨hns, hinit⟩⟩, hslots hlong]
      · intro hif
        split at hif
        · rename_i htake
          obtain ⟨halign, htake⟩ := htake
          obtain ⟨hns, hinit⟩ := (key_eq_take_iff key other).mp htake
          have hlong : (spell rows).length < other.length := by
            by_contra hle
            have := hshort halign htake (by omega)
            rw [hnone] at this
            cases this
          cases hif
          refine ⟨halign, .inr ⟨hlong, hns, hinit, ?_⟩⟩
          rw [hslots hlong]
        · cases hif

end Insert

/-! ### Looking up -/

/-- The key as the tree keeps it. -/
def storedKey (c : RadixCache) (key : RadixKey) : RadixKey :=
  { key with tokenIds := keyConvertFn c.isEagle key.tokenIds }

/-- A request's key: plain token ids. -/
def PlainIds (key : RadixKey) : Prop := OfKind false key.tokenIds

instance (key : RadixKey) : Decidable (PlainIds key) :=
  inferInstanceAs (Decidable (OfKind _ _))

section Lookup

variable {c : RadixCache} {key : RadixKey}

private theorem bigrams_kind (a : Int) (tokens : List Token) :
    OfKind true (convertToBigramKey.bigrams a tokens) := by
  induction tokens generalizing a with
  | nil =>
    intro token htoken
    simp [convertToBigramKey.bigrams] at htoken
  | cons token rest ih =>
    cases token with
    | id b =>
      intro token htoken
      rw [convertToBigramKey.bigrams] at htoken
      rcases List.mem_cons.mp htoken with rfl | htoken
      · rfl
      · exact ih b token htoken
    | bigram x y =>
      intro token htoken
      simp [convertToBigramKey.bigrams] at htoken

private theorem bigrams_length (a : Int) {tokens : List Token} (h : OfKind false tokens) :
    (convertToBigramKey.bigrams a tokens).length = tokens.length := by
  induction tokens generalizing a with
  | nil => rfl
  | cons token rest ih =>
    cases token with
    | id b =>
      rw [convertToBigramKey.bigrams, List.length_cons, List.length_cons,
        ih b fun token htoken => h token (by simp [htoken])]
    | bigram x y =>
      have := h (.bigram x y) (by simp)
      simp [Token.isBigram] at this

theorem storedKey_kind (c : RadixCache) (hids : PlainIds key) :
    OfKind c.isEagle (c.storedKey key).tokenIds := by
  unfold storedKey keyConvertFn
  cases hEagle : c.isEagle with
  | false => exact hids
  | true =>
    match htokens : key.tokenIds with
    | [] => intro token htoken; simp [convertToBigramKey] at htoken
    | [_] => intro token htoken; simp [convertToBigramKey] at htoken
    | .id a :: second :: rest => exact bigrams_kind a _
    | .bigram a b :: second :: rest =>
      have := hids (.bigram a b) (by simp [htokens])
      simp [Token.isBigram] at this

/-- EAGLE keeps one bigram less than there are tokens. -/
theorem storedKey_length (c : RadixCache) (hids : PlainIds key) :
    (c.storedKey key).length = if c.isEagle then key.length - 1 else key.length := by
  unfold storedKey keyConvertFn
  cases hEagle : c.isEagle with
  | false => rfl
  | true =>
    match htokens : key.tokenIds with
    | [] => simp [RadixKey.length, convertToBigramKey, htokens]
    | [_] => simp [RadixKey.length, convertToBigramKey, htokens]
    | .id a :: second :: rest =>
      have hrest : OfKind false (second :: rest) := fun token htoken =>
        hids token (by rw [htokens]; exact List.mem_cons_of_mem _ htoken)
      simp only [RadixKey.length, htokens, if_true, convertToBigramKey]
      rw [bigrams_length a hrest]
      rfl
    | .bigram a b :: second :: rest =>
      have := hids (.bigram a b) (by simp [htokens])
      simp [Token.isBigram] at this

theorem pageAlign_eq_take (c : RadixCache) (key : RadixKey) :
    c.pageAlign key = key.take (key.length / c.pageSize * c.pageSize) := by
  unfold pageAlign
  split
  · rfl
  · rename_i hone
    rw [not_not.mp hone, Nat.div_one, Nat.mul_one]
    cases key
    simp [RadixKey.take, RadixKey.length]

theorem lookup_pageAlign (hids : PlainIds key) : Lookup c (c.pageAlign (c.storedKey key)) := by
  rw [pageAlign_eq_take]
  refine ⟨?_, (c.storedKey_kind hids).take _⟩
  rw [RadixKey.length_take, Nat.min_eq_left (Nat.div_mul_le_self _ _)]
  exact Nat.mul_mod_left _ _

theorem pageAlign_of_aligned (h : key.length % c.pageSize = 0) : c.pageAlign key = key := by
  rw [pageAlign_eq_take, Nat.div_mul_cancel (Nat.dvd_of_mod_eq_zero h)]
  cases key
  simp [RadixKey.take, RadixKey.length]

theorem matchPrefixHelper_spec (valid : Valid c) (h : Lookup c key)
    (hsome : key.tokenIds ≠ [] ∨ c.pageSize ≠ 1) :
    ∃ d seqs last rows, c.matchPrefixHelper key = .ok (d, seqs, last) ∧
      Reached c d key last rows ∧ seqs.flatten = rows.flatMap values ∧
      PrefixMap.Longest c.pageSize c.prefixMap key (spell rows).length := by
  -- An empty key has a child key unless the page size is one.
  have hfirst : ∃ first, getChildKey c.pageSize key = .ok first := by
    rcases hsome with hne | hmany
    · exact getChildKey_ok c.pageSize hne
    · exact ⟨_, by rw [getChildKey, plainKey.eq_def, if_neg hmany]; rfl⟩
  obtain ⟨first, hfirst⟩ := hfirst
  unfold matchPrefixHelper
  obtain ⟨d, seqs, last, rows, heq, reached, hslots, hmax⟩ :=
    matchLoop_spec valid h (Walk.start c.tree key) (key.length + 1)
      (Nat.lt_succ_of_le (by simp)) (fun _ => hfirst) (show ([] : List (List Nat)).flatten = _ from rfl)
  change matchLoop _ c rootId key first [] = _ at heq
  simp only [hfirst, heq, bind, Except.bind]
  exact ⟨d, seqs, last, rows, rfl, reached, hslots, reached.longest valid hmax⟩

/-- EAGLE keeps nothing of a single token, and an empty key has no first token
to look up a page of one by. -/
def Searchable (c : RadixCache) (key : RadixKey) : Prop :=
  c.isEagle = true → c.pageSize = 1 → key.length ≠ 1

/-- Looking a key up returns the slots of its longest stored part and the node
whose path spells it; the map stays the same. -/
theorem matchPrefix_spec (valid : Valid c) (henabled : c.disable = false) (hids : PlainIds key)
    (hsearch : c.Searchable key) :
    ∃ d result rows, c.matchPrefix key = .ok (d, result) ∧ Cuts c d ∧
      Walk d.tree (c.pageAlign (c.storedKey key)) result.lastDeviceNode rows ∧
      result.deviceIndices = rows.flatMap values ∧
      PrefixMap.Longest c.pageSize c.prefixMap (c.pageAlign (c.storedKey key))
        (spell rows).length := by
  unfold matchPrefix
  by_cases hzero : key.length = 0
  · have hstored : (c.pageAlign (c.storedKey key)).length = 0 := by
      have hlen := c.storedKey_length hids
      rw [pageAlign_eq_take, RadixKey.length_take, hlen, hzero]
      simp
    refine ⟨c, emptyMatch, [], by simp [hzero]; rfl, .refl c, .start _ _, rfl, ?_⟩
    refine (Reached.longest ⟨.refl c, .start _ _⟩ valid ?_ :)
    intro m slots _ hm _
    omega
  · have hne : (c.pageAlign (c.storedKey key)).tokenIds ≠ [] ∨ c.pageSize ≠ 1 := by
      by_cases hone : c.pageSize = 1
      · left
        have hpos : 0 < (c.storedKey key).length := by
          rw [c.storedKey_length hids]
          split
          · have := hsearch ‹_› hone
            omega
          · omega
        rw [pageAlign_of_aligned (by rw [hone]; exact Nat.mod_one _)]
        exact List.length_pos_iff.mp hpos
      · exact .inr hone
    obtain ⟨d, seqs, last, rows, heq, reached, hslots, hlongest⟩ :=
      matchPrefixHelper_spec valid (lookup_pageAlign hids) hne
    simp only [storedKey] at heq
    simp only [henabled, hzero, Bool.false_or, decide_false, Bool.false_eq_true, if_false, heq,
      bind, Except.bind]
    exact ⟨d, _, rows, rfl, reached.cuts, reached.walk, hslots, hlongest⟩

theorem matchPrefix_unsearchable (henabled : c.disable = false) (hids : PlainIds key)
    (h : ¬ c.Searchable key) : c.matchPrefix key = .error .indexError := by
  simp only [Searchable, not_forall, not_not] at h
  obtain ⟨hEagle, hone, hlen⟩ := h
  have hnil : (c.pageAlign (c.storedKey key)).tokenIds = [] := by
    have hstored := c.storedKey_length hids
    rw [hEagle, if_pos rfl, hlen, RadixKey.length] at hstored
    rw [pageAlign_eq_take, RadixKey.tokenIds_take, List.length_eq_zero_iff.mp hstored,
      List.take_nil]
  have hraise : getChildKey c.pageSize (c.pageAlign (c.storedKey key)) = .error .indexError := by
    rw [getChildKey, hnil, plainKey.eq_def, if_pos hone]
    rfl
  simp only [storedKey] at hraise
  simp only [matchPrefix, henabled, hlen, Bool.false_or, matchPrefixHelper, hraise, bind,
    Except.bind]
  rfl

theorem insert_eq (henabled : c.disable = false) (hids : PlainIds key) {value : List Nat}
    (hlen : value.length = key.length) :
    c.insert key value =
      c.insertHelper (c.storedKey key) (value.take (c.storedKey key).length) := by
  have hstored := c.storedKey_length hids
  unfold insert
  rw [henabled, if_neg (by simp)]
  cases hEagle : c.isEagle with
  | true => simp [storedKey, hEagle]
  | false =>
    rw [hEagle, if_neg (by simp)] at hstored
    rw [hstored, ← hlen, List.take_length]
    simp [storedKey, hEagle]

end Lookup

/-! ### Runs -/

/-- The caches that runs of the public operations reach. Keys are plain token
ids; what is inserted is aligned to pages in the form the tree keeps it, as the
callers of `insert` make sure. -/
inductive Reachable : RadixCache → Prop where
  | reset {pageSize : Nat} (hpage : 0 < pageSize) (isEagle : Bool) :
      Reachable (reset pageSize false isEagle)
  | insert {c d : RadixCache} {key : RadixKey} {value : List Nat} {n : Nat} (h : Reachable c)
      (hids : PlainIds key) (halign : (c.storedKey key).length % c.pageSize = 0)
      (hlen : value.length = key.length) (heq : c.insert key value = .ok (d, n)) : Reachable d
  | matchPrefix {c d : RadixCache} {key : RadixKey} {result : MatchResult} (h : Reachable c)
      (hids : PlainIds key) (heq : c.matchPrefix key = .ok (d, result)) : Reachable d
  | incLockRef {c : RadixCache} {node : Nat} {rows : List (TreeNode RadixNode)}
      (h : Reachable c) (hpath : Path c.tree node rows) : Reachable (c.incLockRef node).1
  | decLockRef {c : RadixCache} {node : Nat} {rows : List (TreeNode RadixNode)}
      (h : Reachable c) (hpath : Path c.tree node rows) : Reachable (c.decLockRef node).1
  | evict {c : RadixCache} (h : Reachable c) (order : PopOrder) (numTokens : Nat)
      (dpRank : Option Nat) : Reachable (c.evict order numTokens dpRank).1

/-- Slots past the end of the key make no difference. -/
theorem extend_take (pageSize : Nat) (m : PrefixMap) (key : RadixKey) (n : Nat)
    (slots : List Nat) : PrefixMap.extend pageSize m key n (slots.take key.length) =
      PrefixMap.extend pageSize m key n slots := by
  funext other
  unfold PrefixMap.extend
  split
  · rfl
  · split
    · rename_i htake
      have hle : other.length ≤ key.length := by
        have := congrArg RadixKey.length htake.2
        rw [RadixKey.length_take] at this
        omega
      rw [List.drop_take, List.take_take, Nat.min_eq_left (by omega)]
    · rfl

section Runs

variable {c : RadixCache} {key : RadixKey} {value : List Nat}

theorem insert_spec (valid : Valid c) (henabled : c.disable = false) (hids : PlainIds key)
    (halign : (c.storedKey key).length % c.pageSize = 0) (hlen : value.length = key.length) :
    ∃ d n, c.insert key value = .ok (d, n) ∧ Valid d ∧ d.disable = c.disable ∧
      PrefixMap.Longest c.pageSize c.prefixMap (c.storedKey key) n ∧
      d.prefixMap = PrefixMap.extend c.pageSize c.prefixMap (c.storedKey key) n value := by
  have hvalue : (value.take (c.storedKey key).length).length = (c.storedKey key).length := by
    have := c.storedKey_length hids
    rw [List.length_take, hlen, this]
    split <;> omega
  obtain ⟨d, n, heq, valid', hdisable, hlongest, hmap⟩ :=
    insertHelper_spec valid ⟨halign, c.storedKey_kind hids⟩ hvalue
  rw [extend_take] at hmap
  rw [insert_eq henabled hids hlen]
  exact ⟨d, n, heq, valid', hdisable, hlongest, hmap⟩

theorem Evicts.disable_eq {d : RadixCache} {freed : List FreeCall} (h : Evicts c freed d) :
    d.disable = c.disable := by
  induction h with
  | refl c => rfl
  | head take rest ih => exact ih

theorem LockStep.disable_eq {step : RadixCache × Int → TreeNode RadixNode → RadixCache × Int}
    {k : Int} (h : LockStep step k) (valid : Valid c) {node : Nat}
    {rows : List (TreeNode RadixNode)} (hpath : Path c.tree node rows) :
    ((c.tree.ancestors node).foldl step (c, 0)).1.disable = c.disable :=
  congrArg (fun settings => settings.2.1) (h.path_tree valid hpath).2

theorem Reachable.valid (h : Reachable c) : Valid c ∧ c.disable = false := by
  induction h with
  | reset hpage isEagle => exact ⟨.reset hpage _ _, rfl⟩
  | insert h hids halign hlen heq ih =>
    obtain ⟨d, n, heq', valid', hdisable, -⟩ := insert_spec ih.1 ih.2 hids halign hlen
    rw [heq] at heq'
    cases heq'
    exact ⟨valid', hdisable.trans ih.2⟩
  | @matchPrefix c d key result h hids heq ih =>
    by_cases hsearch : c.Searchable key
    · obtain ⟨d, result, rows, heq', cuts, -⟩ := matchPrefix_spec ih.1 ih.2 hids hsearch
      rw [heq] at heq'
      cases heq'
      exact ⟨cuts.valid ih.1, cuts.settings.2.1.trans ih.2⟩
    · rw [matchPrefix_unsearchable ih.2 hids hsearch] at heq
      cases heq
  | incLockRef h hpath ih =>
    refine ⟨ih.1.incLockRef hpath, ?_⟩
    rw [RadixCache.incLockRef, if_neg (by simp [ih.2]), lockStep_isLockStep.disable_eq ih.1 hpath]
    exact ih.2
  | decLockRef h hpath ih =>
    refine ⟨ih.1.decLockRef hpath, ?_⟩
    rw [RadixCache.decLockRef, if_neg (by simp [ih.2]), unlockStep_isLockStep.disable_eq ih.1 hpath]
    exact ih.2
  | @evict c h order numTokens dpRank ih =>
    have hevicts := evict_spec c order numTokens dpRank
    exact ⟨hevicts.valid ih.1, hevicts.disable_eq.trans ih.2⟩

/-- In every reachable cache, inserting reports the longest stored page-aligned
part of the key and enters exactly the longer ones, and looking up returns the
slots of the longest stored part with the node that spells it and changes no
entry. -/
theorem reachable_refines_prefixMap (h : Reachable c) (hids : PlainIds key)
    (halign : (c.storedKey key).length % c.pageSize = 0) (hlen : value.length = key.length)
    (hsearch : c.Searchable key) :
    (∃ d n, c.insert key value = .ok (d, n) ∧
      PrefixMap.Longest c.pageSize c.prefixMap (c.storedKey key) n ∧
      d.prefixMap = PrefixMap.extend c.pageSize c.prefixMap (c.storedKey key) n value) ∧
    (∃ d result n rows, c.matchPrefix key = .ok (d, result) ∧
      PrefixMap.Longest c.pageSize c.prefixMap (c.storedKey key) n ∧
      c.prefixMap ((c.storedKey key).take n) = some result.deviceIndices ∧
      Path d.tree result.lastDeviceNode rows ∧
      spell rows = (c.storedKey key).tokenIds.take n ∧
      (∀ m ∈ rows, (label m).SameNamespace key) ∧
      d.prefixMap = c.prefixMap) := by
  obtain ⟨valid, henabled⟩ := h.valid
  constructor
  · obtain ⟨d, n, heq, -, -, hlongest, hmap⟩ := insert_spec valid henabled hids halign hlen
    exact ⟨d, n, heq, hlongest, hmap⟩
  · obtain ⟨d, result, rows, heq, cuts, walk, hslots, hlongest⟩ :=
      matchPrefix_spec valid henabled hids hsearch
    rw [pageAlign_of_aligned halign] at walk hlongest
    have valid' := cuts.valid valid
    refine ⟨d, result, (spell rows).length, rows, heq, hlongest, ?_, walk.path,
      List.prefix_iff_eq_take.mp walk.spelled, walk.space, cuts.prefixMap_eq valid⟩
    rw [valid.prefixMap_eq_some_iff, RadixKey.length_take, Nat.min_eq_left walk.length_le, hslots,
      ← cuts.stored_iff valid]
    exact ⟨hlongest.aligned, walk.stored valid'.value_len⟩

end Runs

/-- Four tokens in two pages, under one leaf. -/
def twoPages : RadixCache :=
  { reset 2 false false with
    tree := [⟨1, rootId, .tuple [.int 1, .int 2],
      ⟨⟨[.id 1, .id 2, .id 3, .id 4], none, none⟩, [2, 3, 4, 5], 0⟩⟩]
    evictableSize := bump (fun _ => 0) 0 4
    counter := 2 }

theorem twoPages_reachable : Reachable twoPages := by
  have heq : (reset 2 false false).insert ⟨[.id 1, .id 2, .id 3, .id 4], none, none⟩
      [2, 3, 4, 5] = .ok (twoPages, 0) := rfl
  exact .insert (.reset (by decide) false) (by decide) rfl rfl heq

/-- A key that leaves the stored path after its first page. -/
theorem twoPages_refines : let key : RadixKey := ⟨[.id 1, .id 2, .id 5, .id 6], none, none⟩
    (∃ d n, twoPages.insert key [2, 3, 6, 7] = .ok (d, n) ∧
      PrefixMap.Longest 2 twoPages.prefixMap key n ∧
      d.prefixMap = PrefixMap.extend 2 twoPages.prefixMap key n [2, 3, 6, 7]) ∧
    (∃ d result n rows, twoPages.matchPrefix key = .ok (d, result) ∧
      PrefixMap.Longest 2 twoPages.prefixMap key n ∧
      twoPages.prefixMap (key.take n) = some result.deviceIndices ∧
      Path d.tree result.lastDeviceNode rows ∧ spell rows = key.tokenIds.take n ∧
      (∀ m ∈ rows, (label m).SameNamespace key) ∧ d.prefixMap = twoPages.prefixMap) :=
  reachable_refines_prefixMap twoPages_reachable (by decide) rfl rfl (by intro h; cases h)

end SglJax.MemCache.RadixCache
