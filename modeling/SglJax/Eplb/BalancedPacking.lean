import Mathlib.Algebra.BigOperators.Group.Finset.Basic
import Mathlib.Algebra.Order.BigOperators.Group.Finset
import SglJax.Eplb.Deepseek
import SglJax.Foundation.Replicas
import SglJax.Foundation.Results

/-! `balanced_packing` gives each group a place of its own: the packs are filled to the
same size, whatever the weights are. -/
namespace SglJax.Eplb

open Foundation

variable (np : NumPy)

theorem require_true {b : Bool} (h : b = true) : require b = .ok () := by
  rw [h]
  rfl

theorem divisible_eq {a b : Nat} (hb : 0 < b) (h : a % b = 0) : divisible a b = .ok true := by
  unfold divisible
  rw [if_neg (by omega), h]
  rfl

theorem floordiv_eq {a b : Nat} (hb : 0 < b) : floordiv a b = .ok (a / b) := by
  unfold floordiv
  rw [if_neg (by omega)]

theorem minBy_mem {β : Type} (lt : β → β → Bool) (key : Nat → β) {xs : List Nat}
    (h : xs ≠ []) : ∃ k ∈ xs, minBy lt key xs = .ok k := by
  cases xs with
  | nil => contradiction
  | cons i rest =>
    refine ⟨_, ?_, rfl⟩
    induction rest generalizing i with
    | nil => simp
    | cons j rest ih =>
      have hnext := ih (if lt (key j) (key i) then j else i) (by simp)
      rw [List.foldl_cons]
      rw [List.mem_cons] at hnext
      rcases hnext with heq | hmem
      · rw [heq]
        split <;> simp
      · simp [hmem]

/-- The arrays of the loop as functions of the group and of the pack. -/
def packingOf (numGroups numPacks : Nat) (packIndex rankInPack : Nat → Int)
    (weights : Nat → np.Num) (items : Nat → Nat) : Packing np where
  packIndex := tab numGroups packIndex
  rankInPack := tab numGroups rankInPack
  packWeights := tab numPacks weights
  packItems := tab numPacks items

/-- The groups of `done` are placed, each at a place of its own. -/
structure Placing (numPacks size : Nat) (done : List Nat) (packIndex rankInPack : Nat → Int)
    (items : Nat → Nat) : Prop where
  placed : ∀ g ∈ done, ∃ pack rank : Nat, packIndex g = pack ∧ rankInPack g = rank ∧
    pack < numPacks ∧ rank < items pack
  distinct : ∀ g ∈ done, ∀ g' ∈ done, packIndex g = packIndex g' →
    rankInPack g = rankInPack g' → g = g'
  room : ∀ pack < numPacks, items pack ≤ size
  total : ∑ pack ∈ Finset.range numPacks, items pack = done.length

namespace Placing

variable {numPacks size : Nat} {done : List Nat} {packIndex rankInPack : Nat → Int}
  {items : Nat → Nat}

/-- While a group is left, a pack has room. -/
theorem exists_open (h : Placing numPacks size done packIndex rankInPack items)
    (hleft : done.length < numPacks * size) : ∃ pack < numPacks, items pack < size := by
  by_contra hfull
  push Not at hfull
  have hsum : ∑ _pack ∈ Finset.range numPacks, size ≤ ∑ pack ∈ Finset.range numPacks, items pack :=
    Finset.sum_le_sum fun pack hpack => hfull pack (Finset.mem_range.1 hpack)
  rw [h.total, Finset.sum_const, Finset.card_range, Nat.nsmul_eq_mul] at hsum
  omega

/-- One more group, in a pack with room. -/
theorem place (h : Placing numPacks size done packIndex rankInPack items) {group pack : Nat}
    (hnew : group ∉ done) (hpack : pack < numPacks) (hroom : items pack < size) :
    Placing numPacks size (done ++ [group]) (Function.update packIndex group pack)
      (Function.update rankInPack group (items pack : Int))
      (Function.update items pack (items pack + 1)) := by
  have hne : ∀ g ∈ done, g ≠ group := fun g hg heq => hnew (heq ▸ hg)
  have hold : ∀ g ∈ done, packIndex g = (pack : Int) → rankInPack g ≠ (items pack : Int) :=
    fun g hg hindex hrank => by
      obtain ⟨pack', rank, hindex', hrank', -, hlt⟩ := h.placed g hg
      have hsame : pack' = pack := by omega
      subst hsame
      omega
  constructor
  · intro g hg
    rw [List.mem_append, List.mem_singleton] at hg
    rcases hg with hg | rfl
    · obtain ⟨pack', rank, hindex, hrank, hlt, hitems⟩ := h.placed g hg
      refine ⟨pack', rank, ?_, ?_, hlt, ?_⟩
      · rw [Function.update_of_ne (hne g hg), hindex]
      · rw [Function.update_of_ne (hne g hg), hrank]
      · by_cases hsame : pack' = pack
        · subst hsame
          rw [Function.update_self]
          omega
        · rwa [Function.update_of_ne hsame]
    · refine ⟨pack, items pack, Function.update_self .., Function.update_self .., hpack, ?_⟩
      rw [Function.update_self]
      omega
  · intro g hg g' hg'
    rw [List.mem_append, List.mem_singleton] at hg hg'
    rcases hg with hg | rfl
    · rcases hg' with hg' | rfl
      · rw [Function.update_of_ne (hne g hg), Function.update_of_ne (hne g hg),
          Function.update_of_ne (hne g' hg'), Function.update_of_ne (hne g' hg')]
        exact h.distinct g hg g' hg'
      · rw [Function.update_of_ne (hne g hg), Function.update_of_ne (hne g hg),
          Function.update_self, Function.update_self]
        intro hindex hrank
        exact absurd hrank (hold g hg hindex)
    · rcases hg' with hg' | rfl
      · rw [Function.update_of_ne (hne g' hg'), Function.update_of_ne (hne g' hg'),
          Function.update_self, Function.update_self]
        intro hindex hrank
        exact absurd hrank.symm (hold g' hg' hindex.symm)
      · intro _ _
        rfl
  · intro pack' hpack'
    by_cases hsame : pack' = pack
    · rw [hsame, Function.update_self]
      omega
    · rw [Function.update_of_ne hsame]
      exact h.room pack' hpack'
  · have hmem : pack ∈ Finset.range numPacks := Finset.mem_range.2 hpack
    have hbefore := Finset.add_sum_erase (Finset.range numPacks) items hmem
    rw [← Finset.add_sum_erase _ _ hmem, Function.update_self, List.length_append, ← h.total]
    have hrest : ∑ p ∈ (Finset.range numPacks).erase pack,
        Function.update items pack (items pack + 1) p =
          ∑ p ∈ (Finset.range numPacks).erase pack, items p :=
      Finset.sum_congr rfl fun p hp => Function.update_of_ne (Finset.ne_of_mem_erase hp) _ _
    rw [hrest, List.length_singleton]
    omega

end Placing

/-- The body of the loop puts the group in a pack with room. -/
theorem placeGroup_eq (numGroups group : Nat) (weight : List np.Num)
    (packIndex rankInPack : Nat → Int) (weights : Nat → np.Num) {numPacks size : Nat}
    {items : Nat → Nat} (hopen : ∃ pack < numPacks, items pack < size) :
    ∃ pack < numPacks, items pack < size ∧ ∃ weights' : Nat → np.Num,
      placeGroup np numPacks size weight
        (packingOf np numGroups numPacks packIndex rankInPack weights items) group =
        .ok (packingOf np numGroups numPacks (Function.update packIndex group pack)
          (Function.update rankInPack group (items pack : Int)) weights'
          (Function.update items pack (items pack + 1))) := by
  let candidates := (List.range numPacks).filter fun i => (tab numPacks items).getD i 0 < size
  have hmem : ∀ pack, pack ∈ candidates ↔ pack < numPacks ∧ items pack < size := fun pack => by
    simp only [candidates, List.mem_filter, List.mem_range, decide_eq_true_eq]
    constructor
    · rintro ⟨hlt, hroom⟩
      rw [getD_tab hlt] at hroom
      exact ⟨hlt, hroom⟩
    · rintro ⟨hlt, hroom⟩
      rw [getD_tab hlt]
      exact ⟨hlt, hroom⟩
  have hne : candidates ≠ [] := by
    obtain ⟨pack, hlt, hroom⟩ := hopen
    exact List.ne_nil_of_mem ((hmem pack).2 ⟨hlt, hroom⟩)
  obtain ⟨pack, hpack, hleast⟩ :=
    minBy_mem np.lt (fun i => (tab numPacks weights).getD i np.zero) hne
  obtain ⟨hlt, hroom⟩ := (hmem pack).1 hpack
  let weights' := Function.update weights pack (np.add (weights pack) (weight.getD group np.zero))
  refine ⟨pack, hlt, hroom, weights', ?_⟩
  have hrequire : require (decide ((tab numPacks items).getD pack 0 < size)) = .ok () := by
    rw [getD_tab hlt, decide_eq_true hroom]
    rfl
  unfold placeGroup packingOf
  rw [hleast, ok_bind, hrequire, ok_bind]
  simp only [getD_tab hlt, set_tab]
  rfl

/-- The whole loop over groups that are not placed yet. -/
theorem placeGroups_eq (numGroups : Nat) (weight : List np.Num) (todo : List Nat)
    (weights : Nat → np.Num) {numPacks size : Nat} {done : List Nat}
    {packIndex rankInPack : Nat → Int} {items : Nat → Nat}
    (h : Placing numPacks size done packIndex rankInPack items)
    (hnodup : (done ++ todo).Nodup) (hlen : (done ++ todo).length ≤ numPacks * size) :
    ∃ packIndex' rankInPack' weights' items',
      todo.foldlM (placeGroup np numPacks size weight)
        (packingOf np numGroups numPacks packIndex rankInPack weights items) =
          .ok (packingOf np numGroups numPacks packIndex' rankInPack' weights' items') ∧
      Placing numPacks size (done ++ todo) packIndex' rankInPack' items' := by
  induction todo generalizing weights done packIndex rankInPack items with
  | nil =>
    rw [List.append_nil]
    exact ⟨packIndex, rankInPack, weights, items, rfl, h⟩
  | cons group todo ih =>
    have hleft : done.length < numPacks * size := by
      simp only [List.length_append, List.length_cons] at hlen
      omega
    obtain ⟨pack, hpack, hroom, weights', heq⟩ := placeGroup_eq np numGroups group weight
      packIndex rankInPack weights (h.exists_open hleft)
    have hnew : group ∉ done := fun hmem => by
      rw [List.nodup_append] at hnodup
      exact hnodup.2.2 group hmem group (by simp) rfl
    have hnext := h.place hnew hpack hroom
    have happend : done ++ group :: todo = done ++ [group] ++ todo := by simp
    rw [happend] at hnodup hlen ⊢
    obtain ⟨packIndex', rankInPack', weights'', items', hrun, hplacing⟩ :=
      ih weights' hnext hnodup hlen
    refine ⟨packIndex', rankInPack', weights'', items', ?_, hplacing⟩
    rw [List.foldlM_cons, heq]
    exact hrun

/-- Each group is in a pack, at a rank below the size of the packs, and no two groups are
at the same rank of a pack. -/
structure Packed (numGroups numPacks : Nat) (pack rank : Nat → Nat) : Prop where
  pack_lt : ∀ g < numGroups, pack g < numPacks
  rank_lt : ∀ g < numGroups, rank g < numGroups / numPacks
  distinct : ∀ g < numGroups, ∀ g' < numGroups, pack g = pack g' → rank g = rank g' → g = g'

/-- The places of the groups are numbered pack after pack. -/
theorem Packed.permutes {numGroups numPacks : Nat} {pack rank : Nat → Nat}
    (h : Packed numGroups numPacks pack rank) (hdvd : numGroups % numPacks = 0) :
    Permutes numGroups fun g => pack g * (numGroups / numPacks) + rank g := by
  have hsize : numPacks * (numGroups / numPacks) = numGroups :=
    Nat.mul_div_cancel' (Nat.dvd_of_mod_eq_zero hdvd)
  constructor
  · intro g hg
    calc pack g * (numGroups / numPacks) + rank g
        < pack g * (numGroups / numPacks) + numGroups / numPacks := by
          have hrank := h.rank_lt g hg
          omega
      _ = (pack g + 1) * (numGroups / numPacks) := by rw [Nat.succ_mul]
      _ ≤ numPacks * (numGroups / numPacks) := Nat.mul_le_mul_right _ (h.pack_lt g hg)
      _ = numGroups := hsize
  · intro g hg g' hg' heq
    obtain ⟨hpack, hrank⟩ := Replicated.block_inj (h.rank_lt g hg) (h.rank_lt g' hg') heq
    exact h.distinct g hg g' hg' hpack hrank

theorem balancedPacking_eq (weight : List np.Num) {numPacks : Nat} (hpos : 0 < numPacks)
    (hdvd : weight.length % numPacks = 0) :
    ∃ pack rank : Nat → Nat, Packed weight.length numPacks pack rank ∧
      balancedPacking np weight numPacks =
        .ok (tab weight.length fun g => (pack g : Int), tab weight.length fun g => (rank g : Int)) := by
  have hsize : numPacks * (weight.length / numPacks) = weight.length :=
    Nat.mul_div_cancel' (Nat.dvd_of_mod_eq_zero hdvd)
  unfold balancedPacking
  rw [divisible_eq hpos hdvd, ok_bind, require_true rfl, ok_bind, floordiv_eq hpos, ok_bind]
  by_cases hone : weight.length / numPacks = 1
  · refine ⟨id, fun _ => 0, ?_, ?_⟩
    · rw [hone, Nat.mul_one] at hsize
      constructor
      · intro g hg
        rw [hsize]
        exact hg
      · intro g hg
        rw [hone]
        exact Nat.one_pos
      · intro g hg g' hg' heq hrank
        exact heq
    · rw [if_pos hone, replicate_eq_tab]
      rfl
  · have hlength : (weight.map np.neg).length = weight.length := by simp
    have hperm := np.argsort_perm (weight.map np.neg)
    rw [hlength] at hperm
    have hstart : Placing numPacks (weight.length / numPacks) [] (fun _ => -1) (fun _ => -1)
        (fun _ => 0) := by
      constructor
      · intro g hg
        cases hg
      · intro g hg
        cases hg
      · intro pack hpack
        exact Nat.zero_le _
      · simp
    obtain ⟨packIndex, rankInPack, weights, items, hrun, hplacing⟩ :=
      placeGroups_eq np weight.length weight (np.argsort (weight.map np.neg))
        (fun _ => np.zero) hstart
        (by simpa using hperm.nodup_iff.2 List.nodup_range)
        (by simp only [List.nil_append, hperm.length_eq, List.length_range]; omega)
    have hall : ∀ g < weight.length, g ∈ [] ++ np.argsort (weight.map np.neg) := fun g hg =>
      hperm.mem_iff.2 (List.mem_range.2 hg)
    have hnat : ∀ g < weight.length, packIndex g = ((packIndex g).toNat : Int) ∧
        rankInPack g = ((rankInPack g).toNat : Int) := fun g hg => by
      obtain ⟨pack, rank, hindex, hrank, -, -⟩ := hplacing.placed g (hall g hg)
      rw [hindex, hrank]
      exact ⟨rfl, rfl⟩
    refine ⟨fun g => (packIndex g).toNat, fun g => (rankInPack g).toNat, ?_, ?_⟩
    · constructor
      · intro g hg
        obtain ⟨pack, rank, hindex, -, hlt, -⟩ := hplacing.placed g (hall g hg)
        rw [hindex]
        exact hlt
      · intro g hg
        obtain ⟨pack, rank, -, hrank, hlt, hitems⟩ := hplacing.placed g (hall g hg)
        rw [hrank]
        exact hitems.trans_le (hplacing.room pack hlt)
      · intro g hg g' hg' hpack hrank
        apply hplacing.distinct g (hall g hg) g' (hall g' hg')
        · rw [(hnat g hg).1, (hnat g' hg').1, hpack]
        · rw [(hnat g hg).2, (hnat g' hg').2, hrank]
    · have hempty : emptyPacking np weight.length numPacks = packingOf np weight.length numPacks
          (fun _ => -1) (fun _ => -1) (fun _ => np.zero) (fun _ => 0) := by
        unfold emptyPacking packingOf
        rw [replicate_eq_tab, replicate_eq_tab, replicate_eq_tab]
      rw [if_neg hone, hempty, hrun, ok_bind]
      show Except.ok (tab weight.length packIndex, tab weight.length rankInPack) = _
      rw [tab_congr fun g hg => (hnat g hg).1, tab_congr fun g hg => (hnat g hg).2]

end SglJax.Eplb
