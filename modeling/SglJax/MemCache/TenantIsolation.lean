import SglJax.MemCache.RadixRefinement

/-! Prefix-cache isolation between tenants. A request's namespace in the cache is
its `extra_key`, to which `Req.__init__` appends the `lora_id`, and its `dp_rank`.
The tree keeps namespaces apart; two tenants share slots exactly when the two
strings run together to the same text. -/
namespace SglJax.MemCache

open Foundation Foundation.NodeTable

/-- What a request brings as its identity. -/
structure Tenant where
  extraKey : Option String
  loraId : Option String
  dpRank : Option Nat
deriving DecidableEq, Repr

namespace Tenant

/-- `Req.extra_key` after `Req.__init__` -/
def reqExtraKey (t : Tenant) : Option String :=
  match t.loraId with
  | some loraId => some (t.extraKey.getD "" ++ loraId)
  | none => t.extraKey

/-- `build_radix_key` for a request of this tenant. -/
def radixKey (t : Tenant) (tokenIds : List Token) : RadixKey :=
  ⟨tokenIds, t.reqExtraKey, t.dpRank⟩

/-- Two identities whose strings run together: with a `lora_id` the text is that of
`extra_key` (the empty one if there is none) followed by it. -/
def Clashes (a b : Tenant) : Prop :=
  a.dpRank = b.dpRank ∧
    match a.loraId, b.loraId with
    | none, none => a.extraKey = b.extraKey
    | none, some lora => a.extraKey = some (b.extraKey.getD "" ++ lora)
    | some lora, none => some (a.extraKey.getD "" ++ lora) = b.extraKey
    | some lora, some lora' => a.extraKey.getD "" ++ lora = b.extraKey.getD "" ++ lora'

theorem clashes_iff (a b : Tenant) :
    a.Clashes b ↔ a.reqExtraKey = b.reqExtraKey ∧ a.dpRank = b.dpRank := by
  unfold Clashes reqExtraKey
  cases a.loraId <;> cases b.loraId <;> simp [and_comm]

theorem Clashes.symm {a b : Tenant} (h : a.Clashes b) : b.Clashes a := by
  rw [clashes_iff] at h ⊢
  exact ⟨h.1.symm, h.2.symm⟩

end Tenant

namespace RadixCache

/-- The caches and slot owners that requests of several tenants reach. Every slot is
computed for one tenant until it is given out again, which only happens to slots that
are not in the tree. What a request inserts was computed for its tenant or is stored
for its own key already. -/
inductive TenantRun : RadixCache → (Nat → Tenant) → Prop where
  | reset {pageSize : Nat} (hpage : 0 < pageSize) (isEagle : Bool) (owner : Nat → Tenant) :
      TenantRun (reset pageSize false isEagle) owner
  | insert {c d : RadixCache} {owner : Nat → Tenant} {t : Tenant} {tokenIds : List Token}
      {value : List Nat} {n : Nat} (run : TenantRun c owner)
      (hids : PlainIds (t.radixKey tokenIds))
      (halign : (c.storedKey (t.radixKey tokenIds)).length % c.pageSize = 0)
      (hlen : value.length = (t.radixKey tokenIds).length)
      (hown : ∀ s ∈ value, owner s = t ∨ ∃ j slots,
        c.prefixMap ((c.storedKey (t.radixKey tokenIds)).take j) = some slots ∧ s ∈ slots)
      (hok : c.insert (t.radixKey tokenIds) value = .ok (d, n)) : TenantRun d owner
  | matchPrefix {c d : RadixCache} {owner : Nat → Tenant} {t : Tenant} {tokenIds : List Token}
      {result : MatchResult} (run : TenantRun c owner) (hids : PlainIds (t.radixKey tokenIds))
      (hok : c.matchPrefix (t.radixKey tokenIds) = .ok (d, result)) : TenantRun d owner
  | incLockRef {c : RadixCache} {owner : Nat → Tenant} {node : Nat}
      {rows : List (TreeNode RadixNode)} (run : TenantRun c owner)
      (hpath : Path c.tree node rows) : TenantRun (c.incLockRef node).1 owner
  | decLockRef {c : RadixCache} {owner : Nat → Tenant} {node : Nat}
      {rows : List (TreeNode RadixNode)} (run : TenantRun c owner)
      (hpath : Path c.tree node rows) : TenantRun (c.decLockRef node).1 owner
  | evict {c : RadixCache} {owner : Nat → Tenant} (run : TenantRun c owner) (order : PopOrder)
      (numTokens : Nat) (dpRank : Option Nat) :
      TenantRun (c.evict order numTokens dpRank).1 owner
  | reuse {c : RadixCache} {owner owner' : Nat → Tenant} (run : TenantRun c owner)
      (hkeep : ∀ n ∈ c.tree, ∀ s ∈ n.data.value, owner' s = owner s) : TenantRun c owner'

/-- No lookup of a request of `a` returns a slot that was computed for `b`. -/
def Isolated (a b : Tenant) : Prop :=
  ∀ (c : RadixCache) (owner : Nat → Tenant), TenantRun c owner →
    ∀ (tokenIds : List Token) (d : RadixCache) (result : MatchResult),
      PlainIds (a.radixKey tokenIds) →
      c.matchPrefix (a.radixKey tokenIds) = .ok (d, result) →
        ∀ s ∈ result.deviceIndices, owner s ≠ b

/-- A call that does not fail in `_check_composite_key`. -/
def NoMismatch {α : Type} (result : Except CacheError α) : Prop :=
  (∀ key0 key1, result ≠ .error (.extraKeyMismatch key0 key1)) ∧
    ∀ key0 key1, result ≠ .error (.dpRankMismatch key0 key1)

theorem TenantRun.reachable {c : RadixCache} {owner : Nat → Tenant} (run : TenantRun c owner) :
    Reachable c := by
  induction run with
  | reset hpage isEagle owner => exact .reset hpage isEagle
  | insert run hids halign hlen hown hok ih => exact .insert ih hids halign hlen hok
  | matchPrefix run hids hok ih => exact .matchPrefix ih hids hok
  | incLockRef run hpath ih => exact .incLockRef ih hpath
  | decLockRef run hpath ih => exact .decLockRef ih hpath
  | evict run order numTokens dpRank ih => exact .evict ih order numTokens dpRank
  | reuse run hkeep ih => exact ih

/-- A tenant whose requests look keys of this namespace up. -/
def InSpace (t : Tenant) (key : RadixKey) : Prop :=
  t.reqExtraKey = key.extraKey ∧ t.dpRank = key.dpRank

/-- Every slot in the tree belongs to the namespace of its node. -/
def Filed (owner : Nat → Tenant) (c : RadixCache) : Prop :=
  ∀ n ∈ c.tree, ∀ s ∈ n.data.value, InSpace (owner s) n.data.key

section Filing

variable {owner : Nat → Tenant} {c d : RadixCache}

theorem InSpace.congr {t : Tenant} {key other : RadixKey} (h : InSpace t key)
    (hspace : key.SameNamespace other) : InSpace t other :=
  ⟨h.1.trans hspace.1, h.2.trans hspace.2⟩

/-- The same seen from the map: the entries of a key hold slots of its namespace. -/
theorem Valid.filed_iff (valid : Valid c) : Filed owner c ↔
    ∀ key slots, c.prefixMap key = some slots → ∀ s ∈ slots, InSpace (owner s) key := by
  constructor
  · intro hfiled key slots hmap s hs
    obtain ⟨-, rows, ⟨⟨id, hpath⟩, hspace, -⟩, rfl⟩ := valid.prefixMap_eq_some_iff.mp hmap
    obtain ⟨n, hn, hsn⟩ := List.mem_flatMap.mp (List.mem_of_mem_take hs)
    exact (hfiled n (hpath.mem n hn) s hsn).congr (hspace n hn)
  · intro hmap n hn s hs
    -- the path to the node spells a key of its own namespace, and all its slots
    obtain ⟨rows, hpath⟩ := valid.tree.rooted.reach n hn
    obtain ⟨init, m, rfl, hm, hid, -⟩ := hpath.snoc_inv (valid.tree.rooted.root_not_mem n hn)
    obtain rfl := eq_of_id_eq valid.tree.rooted.nodup hm hn hid
    have hspace := valid.tree.path_sameSpace hpath
    let key : RadixKey := ⟨spell (init ++ [m]), m.data.key.extraKey, m.data.key.dpRank⟩
    have hcovers : Covers c.tree key (init ++ [m]) := ⟨⟨_, hpath⟩, hspace, List.prefix_rfl⟩
    have hlen : ((init ++ [m]).flatMap values).length = key.length :=
      length_flatMap_eq values (fun k hk => valid.value_len k (hpath.mem k hk))
    have hentry : c.prefixMap key = some ((init ++ [m]).flatMap values) := by
      rw [valid.prefixMap_eq_some_iff]
      refine ⟨valid.tree.spell_aligned hpath.mem, init ++ [m], hcovers, ?_⟩
      rw [List.take_of_length_le (Nat.le_of_eq hlen)]
    have hmem : s ∈ (init ++ [m]).flatMap values := List.mem_flatMap.mpr ⟨m, by simp, hs⟩
    exact hmap key _ hentry s hmem

theorem Filed.insert (hfiled : Filed owner c) (h : Reachable c) {t : Tenant}
    {tokenIds : List Token} {value : List Nat} {n : Nat} (hids : PlainIds (t.radixKey tokenIds))
    (halign : (c.storedKey (t.radixKey tokenIds)).length % c.pageSize = 0)
    (hlen : value.length = (t.radixKey tokenIds).length)
    (hown : ∀ s ∈ value, owner s = t ∨ ∃ j slots,
      c.prefixMap ((c.storedKey (t.radixKey tokenIds)).take j) = some slots ∧ s ∈ slots)
    (hok : c.insert (t.radixKey tokenIds) value = .ok (d, n)) : Filed owner d := by
  obtain ⟨valid, henabled⟩ := h.valid
  obtain ⟨d', n', hok', valid', -, -, hmap⟩ := insert_spec valid henabled hids halign hlen
  cases hok.symm.trans hok'
  rw [valid.filed_iff] at hfiled
  rw [valid'.filed_iff, hmap]
  have hvalue : ∀ s ∈ value, InSpace (owner s) (c.storedKey (t.radixKey tokenIds)) := by
    intro s hs
    rcases hown s hs with rfl | ⟨j, slots, hentry, hmem⟩
    · exact ⟨rfl, rfl⟩
    · exact hfiled _ _ hentry s hmem
  intro key slots hentry s hs
  unfold PrefixMap.extend at hentry
  split at hentry
  · next hold =>
    cases hentry
    exact hfiled key _ hold s hs
  · split at hentry
    · next hkey =>
      have hspace : (c.storedKey (t.radixKey tokenIds)).SameNamespace key := by
        rw [hkey.2]
        exact .refl _
      rw [Option.map_eq_some_iff] at hentry
      obtain ⟨old, hold, rfl⟩ := hentry
      rcases List.mem_append.mp hs with hs | hs
      · exact (hfiled _ old hold s hs).congr hspace
      · exact (hvalue s (List.mem_of_mem_drop (List.mem_of_mem_take hs))).congr hspace
    · cases hentry

theorem Filed.cuts (hfiled : Filed owner c) (valid : Valid c) (cuts : Cuts c d) :
    Filed owner d := by
  rw [valid.filed_iff] at hfiled
  rw [(cuts.valid valid).filed_iff, cuts.prefixMap_eq valid]
  exact hfiled

theorem Filed.relock (hfiled : Filed owner c) {ids : List Nat} {k : Int}
    (htree : d.tree = c.relock ids k) : Filed owner d := by
  intro n hn
  rw [htree, RadixCache.relock] at hn
  obtain ⟨m, hm, rfl⟩ := mem_modify.mp hn
  intro s hs
  dsimp only at hs ⊢
  split at hs
  · next hid =>
    rw [if_pos hid]
    exact hfiled m hm s hs
  · next hid =>
    rw [if_neg hid]
    exact hfiled m hm s hs

theorem Filed.evicts {freed : List FreeCall} (hfiled : Filed owner c)
    (hevicts : Evicts c freed d) : Filed owner d := by
  induction hevicts with
  | refl c => exact hfiled
  | head take rest ih =>
    apply ih
    intro n hn
    exact hfiled n (mem_detach.mp hn).1

/-- In every run the slots in the tree stay in the namespace they were computed in. -/
theorem TenantRun.filed (run : TenantRun c owner) : Filed owner c := by
  induction run with
  | reset hpage isEagle owner => simp [Filed, RadixCache.reset]
  | insert run hids halign hlen hown hok ih =>
    exact ih.insert run.reachable hids halign hlen hown hok
  | @matchPrefix c d owner t tokenIds result run hids hok ih =>
    obtain ⟨valid, henabled⟩ := run.reachable.valid
    by_cases hsearch : c.Searchable (t.radixKey tokenIds)
    · obtain ⟨d', result', rows, hok', cuts, -⟩ :=
        matchPrefix_spec valid henabled hids hsearch
      cases hok.symm.trans hok'
      exact ih.cuts valid cuts
    · rw [matchPrefix_unsearchable henabled hids hsearch] at hok
      cases hok
  | incLockRef run hpath ih =>
    unfold RadixCache.incLockRef
    split
    · exact ih
    · exact ih.relock (lockStep_isLockStep.path_tree run.reachable.valid.1 hpath).1
  | decLockRef run hpath ih =>
    unfold RadixCache.decLockRef
    split
    · exact ih
    · exact ih.relock (unlockStep_isLockStep.path_tree run.reachable.valid.1 hpath).1
  | evict run order numTokens dpRank ih => exact ih.evicts (evict_spec _ order numTokens dpRank)
  | reuse run hkeep ih =>
    intro n hn s hs
    rw [hkeep n hn s hs]
    exact ih n hn s hs

end Filing

theorem TenantRun.noMismatch {c : RadixCache} {owner : Nat → Tenant} (run : TenantRun c owner)
    {key : RadixKey} (hids : PlainIds key) : NoMismatch (c.matchPrefix key) ∧
      ∀ value : List Nat, (c.storedKey key).length % c.pageSize = 0 →
        value.length = key.length → NoMismatch (c.insert key value) := by
  obtain ⟨valid, henabled⟩ := run.reachable.valid
  constructor
  · by_cases hsearch : c.Searchable key
    · obtain ⟨d, result, rows, hok, -⟩ := matchPrefix_spec valid henabled hids hsearch
      rw [hok]
      simp [NoMismatch]
    · rw [matchPrefix_unsearchable henabled hids hsearch]
      simp [NoMismatch]
  · intro value halign hlen
    obtain ⟨d, n, hok, -⟩ := insert_spec valid henabled hids halign hlen
    rw [hok]
    simp [NoMismatch]

/-- A lookup returns slots of its own namespace only. -/
theorem isolated_of_not_clashes {a b : Tenant} (h : ¬ a.Clashes b) : Isolated a b := by
  intro c owner run tokenIds d result hids hok s hs hb
  apply h
  obtain ⟨valid, henabled⟩ := run.reachable.valid
  by_cases hsearch : c.Searchable (a.radixKey tokenIds)
  · obtain ⟨d', result', rows, hok', cuts, walk, hslots, -⟩ :=
      matchPrefix_spec valid henabled hids hsearch
    cases hok.symm.trans hok'
    rw [hslots] at hs
    obtain ⟨n, hn, hsn⟩ := List.mem_flatMap.mp hs
    have hfiled := run.filed.cuts valid cuts n (walk.path.mem n hn) s hsn
    have hspace := walk.space n hn
    rw [hb] at hfiled
    rw [pageAlign_eq_take] at hspace
    rw [Tenant.clashes_iff]
    exact ⟨hspace.1.symm.trans hfiled.1.symm, hspace.2.symm.trans hfiled.2.symm⟩
  · rw [matchPrefix_unsearchable henabled hids hsearch] at hok
    cases hok

/-- One token under one leaf, stored by a request of the tenant. -/
def oneSlot (t : Tenant) : RadixCache :=
  { reset 1 false false with
    tree := [⟨1, rootId, wrapNamespace t.reqExtraKey t.dpRank (.int 1),
      ⟨t.radixKey [.id 1], [7], 0⟩⟩]
    evictableSize := bump (fun _ => 0) (t.radixKey [.id 1]).rank 1
    counter := 2 }

theorem oneSlot_run (t : Tenant) : TenantRun (oneSlot t) (fun _ => t) := by
  have hok : (reset 1 false false).insert (t.radixKey [.id 1]) [7] = .ok (oneSlot t, 0) := rfl
  apply TenantRun.insert (.reset (by decide) false _) _ (Nat.mod_one _) rfl _ hok
  · intro token htoken
    rw [List.mem_singleton.mp htoken]
    rfl
  · intro s _
    exact .inl rfl

theorem oneSlot_match (t : Tenant) :
    (oneSlot t).matchPrefix (t.radixKey [.id 1]) = .ok (oneSlot t, ⟨[7], 1, 1, 1, 0⟩) := by
  have hchild : (oneSlot t).tree.child? rootId (wrapNamespace t.reqExtraKey t.dpRank (.int 1)) =
      some ⟨1, rootId, wrapNamespace t.reqExtraKey t.dpRank (.int 1),
        ⟨t.radixKey [.id 1], [7], 0⟩⟩ := by
    simp [oneSlot, child?]
  have hmatch : keyMatchFn 1 (t.radixKey [.id 1]) (t.radixKey [.id 1]) = .ok 1 := by
    simp [keyMatchFn, keyMatchPageSize1, checkCompositeKey, Tenant.radixKey, matchTokens]
  have hloop : matchLoop 2 (oneSlot t) rootId (t.radixKey [.id 1])
      (wrapNamespace t.reqExtraKey t.dpRank (.int 1)) [] = .ok (oneSlot t, [[7]], 1) := by
    unfold matchLoop
    rw [if_neg (by simp [Tenant.radixKey, RadixKey.length]), hchild]
    change (keyMatchFn 1 (t.radixKey [.id 1]) (t.radixKey [.id 1]) >>= _) = _
    rw [hmatch]
    rfl
  change (matchLoop 2 (oneSlot t) rootId (t.radixKey [.id 1])
    (wrapNamespace t.reqExtraKey t.dpRank (.int 1)) [] >>= _) = _
  rw [hloop]
  rfl

/-- Clashing tenants share: what one of them stores is found by the other. -/
theorem not_isolated_of_clashes {a b : Tenant} (h : a.Clashes b) : ¬ Isolated a b := by
  intro hisolated
  rw [Tenant.clashes_iff] at h
  have hkey : a.radixKey [.id 1] = b.radixKey [.id 1] := by
    unfold Tenant.radixKey
    rw [h.1, h.2]
  have hids : PlainIds (a.radixKey [.id 1]) := by
    intro token htoken
    rw [List.mem_singleton.mp htoken]
    rfl
  have hmatch := oneSlot_match b
  rw [← hkey] at hmatch
  exact hisolated _ _ (oneSlot_run b) _ _ _ hids hmatch 7 (by simp) rfl

/-- In every run of requests of any tenants no walk fails in `_check_composite_key`,
keys of different namespaces have different child keys, and two tenants are isolated
from each other exactly when their identities do not run together to one namespace. -/
theorem tenants_isolated_iff (a b : Tenant) :
    (∀ (c : RadixCache) (owner : Nat → Tenant), TenantRun c owner →
      ∀ key, PlainIds key → NoMismatch (c.matchPrefix key) ∧
        ∀ value : List Nat, (c.storedKey key).length % c.pageSize = 0 →
          value.length = key.length → NoMismatch (c.insert key value)) ∧
    (∀ (isEagle : Bool) (pageSize : Nat) (left right : RadixKey) (slot : PyVal),
      OfKind isEagle left.tokenIds → OfKind isEagle right.tokenIds →
        ¬ left.SameNamespace right → getChildKey pageSize left = .ok slot →
          getChildKey pageSize right ≠ .ok slot) ∧
    ((Isolated a b ∧ Isolated b a) ↔ ¬ a.Clashes b) := by
  refine ⟨?_, ?_, ?_, ?_⟩
  · intro c owner run key hids
    exact run.noMismatch hids
  · intro isEagle pageSize left right slot hlk hrk hspace hleft hright
    exact hspace (getChildKey_namespace hlk hrk hleft hright)
  · intro hisolated hclash
    exact not_isolated_of_clashes hclash hisolated.1
  · intro hclash
    exact ⟨isolated_of_not_clashes hclash, isolated_of_not_clashes (fun h => hclash h.symm)⟩

/-- The salt `ab` without a LoRA, and the salt `a` with the LoRA `b`: one tenant is
given the slot of the other. -/
theorem saltedLora_shares : let a : Tenant := ⟨some "ab", none, none⟩
    let b : Tenant := ⟨some "a", some "b", none⟩
    (a.extraKey, a.loraId) ≠ (b.extraKey, b.loraId) ∧
    ∃ c owner d result, TenantRun c owner ∧
      c.matchPrefix (a.radixKey [.id 1]) = .ok (d, result) ∧
      ∃ s ∈ result.deviceIndices, owner s = b := by
  refine ⟨by decide, oneSlot ⟨some "a", some "b", none⟩, fun _ => ⟨some "a", some "b", none⟩,
    oneSlot ⟨some "a", some "b", none⟩, ⟨[7], 1, 1, 1, 0⟩, oneSlot_run _, ?_, 7, by simp, rfl⟩
  exact oneSlot_match ⟨some "a", some "b", none⟩

end RadixCache

end SglJax.MemCache
