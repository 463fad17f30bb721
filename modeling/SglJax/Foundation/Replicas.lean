import SglJax.Foundation.AxisArrays

/-! Things kept in several copies: each of `P` places holds one of `L` things, a copy of
it with a number of its own. Places can be put in another order, things renamed, and
several such stores put one after the other. -/
namespace SglJax.Foundation

/-- Place `p` holds the copy with number `rank p` of the thing `holds p`; of the thing
`e` there are `count e` copies. -/
structure Replicated (L P : Nat) (holds rank count : Nat → Nat) : Prop where
  holds_lt : ∀ p < P, holds p < L
  rank_lt : ∀ p < P, rank p < count (holds p)
  distinct : ∀ p < P, ∀ q < P, holds p = holds q → rank p = rank q → p = q
  kept : ∀ e < L, ∀ k < count e, ∃ p < P, holds p = e ∧ rank p = k
  count_pos : ∀ e < L, 0 < count e

namespace Replicated

variable {L P : Nat} {holds rank count : Nat → Nat}

theorem congr {holds' rank' count' : Nat → Nat} (h : Replicated L P holds rank count)
    (hholds : ∀ p < P, holds' p = holds p) (hrank : ∀ p < P, rank' p = rank p)
    (hcount : ∀ e < L, count' e = count e) : Replicated L P holds' rank' count' := by
  constructor
  · intro p hp
    rw [hholds p hp]
    exact h.holds_lt p hp
  · intro p hp
    rw [hholds p hp, hrank p hp, hcount _ (h.holds_lt p hp)]
    exact h.rank_lt p hp
  · intro p hp q hq
    rw [hholds p hp, hholds q hq, hrank p hp, hrank q hq]
    exact h.distinct p hp q hq
  · intro e he k hk
    rw [hcount e he] at hk
    obtain ⟨p, hp, heq, hkeq⟩ := h.kept e he k hk
    exact ⟨p, hp, by rw [hholds p hp, heq], by rw [hrank p hp, hkeq]⟩
  · intro e he
    rw [hcount e he]
    exact h.count_pos e he

/-- One place for each thing. -/
theorem single (L : Nat) : Replicated L L id (fun _ => 0) (fun _ => 1) := by
  constructor
  · exact fun p hp => hp
  · intro p hp
    exact Nat.one_pos
  · intro p hp q hq heq hrank
    exact heq
  · intro e he k hk
    exact ⟨e, he, rfl, by omega⟩
  · intro e he
    exact Nat.one_pos

/-- One more place, for another copy of `e`. -/
theorem add (h : Replicated L P holds rank count) {e : Nat} (he : e < L) :
    Replicated L (P + 1) (Function.update holds P e) (Function.update rank P (count e))
      (Function.update count e (count e + 1)) := by
  have hne : ∀ p < P, p ≠ P := fun p hp => by omega
  have hrank : ∀ p < P, holds p = e → rank p < count e := fun p hp heq => by
    have hlt := h.rank_lt p hp
    rwa [heq] at hlt
  constructor
  · intro p hp
    by_cases hpP : p = P
    · rwa [hpP, Function.update_self]
    · rw [Function.update_of_ne hpP]
      exact h.holds_lt p (by omega)
  · intro p hp
    by_cases hpP : p = P
    · rw [hpP, Function.update_self, Function.update_self, Function.update_self]
      omega
    · rw [Function.update_of_ne hpP, Function.update_of_ne hpP]
      by_cases heq : holds p = e
      · rw [heq, Function.update_self]
        have hlt := hrank p (by omega) heq
        omega
      · rw [Function.update_of_ne heq]
        exact h.rank_lt p (by omega)
  · intro p hp q hq
    by_cases hpP : p = P
    · by_cases hqP : q = P
      · omega
      · rw [hpP, Function.update_self, Function.update_self, Function.update_of_ne hqP,
          Function.update_of_ne hqP]
        intro heq hcount
        have hlt := hrank q (by omega) heq.symm
        omega
    · by_cases hqP : q = P
      · rw [hqP, Function.update_self, Function.update_self, Function.update_of_ne hpP,
          Function.update_of_ne hpP]
        intro heq hcount
        have hlt := hrank p (by omega) heq
        omega
      · rw [Function.update_of_ne hpP, Function.update_of_ne hpP, Function.update_of_ne hqP,
          Function.update_of_ne hqP]
        exact h.distinct p (by omega) q (by omega)
  · intro e' he' k hk
    by_cases hee : e' = e
    · subst hee
      rw [Function.update_self] at hk
      by_cases hlast : k = count e'
      · exact ⟨P, by omega, Function.update_self .., by rw [Function.update_self, hlast]⟩
      · obtain ⟨p, hp, heq, hkeq⟩ := h.kept e' he' k (by omega)
        exact ⟨p, by omega, by rw [Function.update_of_ne (hne p hp), heq],
          by rw [Function.update_of_ne (hne p hp), hkeq]⟩
    · rw [Function.update_of_ne hee] at hk
      obtain ⟨p, hp, heq, hkeq⟩ := h.kept e' he' k hk
      exact ⟨p, by omega, by rw [Function.update_of_ne (hne p hp), heq],
        by rw [Function.update_of_ne (hne p hp), hkeq]⟩
  · intro e' he'
    by_cases hee : e' = e
    · rw [hee, Function.update_self]
      omega
    · rw [Function.update_of_ne hee]
      exact h.count_pos e' he'

/-- The places in another order. -/
theorem reorder (h : Replicated L P holds rank count) {σ : Nat → Nat} (hσ : Permutes P σ) :
    Replicated L P (holds ∘ σ) (rank ∘ σ) count := by
  constructor
  · intro p hp
    exact h.holds_lt (σ p) (hσ.maps p hp)
  · intro p hp
    exact h.rank_lt (σ p) (hσ.maps p hp)
  · intro p hp q hq heq hrank
    apply hσ.inj p hp q hq
    exact h.distinct (σ p) (hσ.maps p hp) (σ q) (hσ.maps q hq) heq hrank
  · intro e he k hk
    obtain ⟨p, hp, heq, hkeq⟩ := h.kept e he k hk
    obtain ⟨q, hq, rfl⟩ := hσ.surj hp
    exact ⟨q, hq, heq, hkeq⟩
  · exact h.count_pos

/-- The things under other names: `τ` gives the old name, `τ'` the new one. -/
theorem relabel (h : Replicated L P holds rank count) {τ τ' : Nat → Nat}
    (hτ : ∀ e < L, τ e < L) (hτ' : ∀ e < L, τ' e < L) (hleft : ∀ e < L, τ' (τ e) = e)
    (hright : ∀ e < L, τ (τ' e) = e) : Replicated L P (τ' ∘ holds) rank (count ∘ τ) := by
  constructor
  · intro p hp
    exact hτ' _ (h.holds_lt p hp)
  · intro p hp
    show rank p < count (τ (τ' (holds p)))
    rw [hright _ (h.holds_lt p hp)]
    exact h.rank_lt p hp
  · intro p hp q hq heq hrank
    apply h.distinct p hp q hq _ hrank
    calc holds p = τ (τ' (holds p)) := (hright _ (h.holds_lt p hp)).symm
      _ = τ (τ' (holds q)) := congrArg τ heq
      _ = holds q := hright _ (h.holds_lt q hq)
  · intro e he k hk
    obtain ⟨p, hp, heq, hkeq⟩ := h.kept (τ e) (hτ e he) k hk
    refine ⟨p, hp, ?_, hkeq⟩
    show τ' (holds p) = e
    rw [heq, hleft e he]
  · intro e he
    exact h.count_pos (τ e) (hτ e he)

private theorem block_lt {n N m k : Nat} (hn : n < N) (hk : k < m) : n * m + k < N * m := by
  calc n * m + k < n * m + m := by omega
    _ = (n + 1) * m := by rw [Nat.succ_mul]
    _ ≤ N * m := Nat.mul_le_mul_right m hn

theorem block_div {n m k : Nat} (hk : k < m) : (n * m + k) / m = n := by
  rw [Nat.mul_comm, Nat.mul_add_div (by omega), Nat.div_eq_of_lt hk, Nat.add_zero]

theorem block_mod {n m k : Nat} (hk : k < m) : (n * m + k) % m = k := by
  rw [Nat.mul_comm, Nat.mul_add_mod, Nat.mod_eq_of_lt hk]

theorem block_inj {n n' m k k' : Nat} (hk : k < m) (hk' : k' < m)
    (h : n * m + k = n' * m + k') : n = n' ∧ k = k' := by
  have hdiv := congrArg (· / m) h
  have hmod := congrArg (· % m) h
  simp only [block_div hk, block_div hk', block_mod hk, block_mod hk'] at hdiv hmod
  exact ⟨hdiv, hmod⟩

/-- Stores one after the other: in the store `n` the things have the names from `n * L`. -/
theorem blocks {N L P : Nat} {holds rank count : Nat → Nat → Nat} (hL : 0 < L) (hP : 0 < P)
    (h : ∀ n < N, Replicated L P (holds n) (rank n) (count n)) :
    Replicated (N * L) (N * P) (fun p => holds (p / P) (p % P) + p / P * L)
      (fun p => rank (p / P) (p % P)) (fun e => count (e / L) (e % L)) := by
  have hnode : ∀ p < N * P, p / P < N := fun p hp => by
    rw [Nat.mul_comm] at hp
    exact Nat.div_lt_of_lt_mul hp
  have hplace : ∀ p < N * P, holds (p / P) (p % P) < L := fun p hp =>
    (h _ (hnode p hp)).holds_lt _ (Nat.mod_lt p hP)
  have hname : ∀ p < N * P, (holds (p / P) (p % P) + p / P * L) / L = p / P ∧
      (holds (p / P) (p % P) + p / P * L) % L = holds (p / P) (p % P) := fun p hp => by
    rw [Nat.add_comm]
    exact ⟨block_div (hplace p hp), block_mod (hplace p hp)⟩
  constructor
  · intro p hp
    have hlt := block_lt (hnode p hp) (hplace p hp)
    show holds (p / P) (p % P) + p / P * L < N * L
    omega
  · intro p hp
    show rank (p / P) (p % P) < count ((holds (p / P) (p % P) + p / P * L) / L)
      ((holds (p / P) (p % P) + p / P * L) % L)
    rw [(hname p hp).1, (hname p hp).2]
    exact (h _ (hnode p hp)).rank_lt _ (Nat.mod_lt p hP)
  · intro p hp q hq heq hrank
    have hdiv : p / P = q / P := by
      have hboth := congrArg (· / L) heq
      simp only [(hname p hp).1, (hname q hq).1] at hboth
      exact hboth
    have hmod : holds (p / P) (p % P) = holds (p / P) (q % P) := by
      have hboth := congrArg (· % L) heq
      simp only [(hname p hp).2, (hname q hq).2] at hboth
      rw [hboth, hdiv]
    have hplaces : p % P = q % P := by
      apply (h _ (hnode p hp)).distinct _ (Nat.mod_lt p hP) _ (Nat.mod_lt q hP) hmod
      show rank (p / P) (p % P) = rank (p / P) (q % P)
      rw [hrank, hdiv]
    rw [← Nat.div_add_mod p P, ← Nat.div_add_mod q P, hdiv, hplaces]
  · intro e he k hk
    have hnode' : e / L < N := by
      rw [Nat.mul_comm] at he
      exact Nat.div_lt_of_lt_mul he
    obtain ⟨p, hp, heq, hkeq⟩ := (h _ hnode').kept _ (Nat.mod_lt e hL) k hk
    refine ⟨e / L * P + p, block_lt hnode' hp, ?_, ?_⟩
    · show holds ((e / L * P + p) / P) ((e / L * P + p) % P) + (e / L * P + p) / P * L = e
      rw [block_div hp, block_mod hp, heq, Nat.add_comm, Nat.mul_comm]
      exact Nat.div_add_mod e L
    · show rank ((e / L * P + p) / P) ((e / L * P + p) % P) = k
      rw [block_div hp, block_mod hp, hkeq]
  · intro e he
    have hnode' : e / L < N := by
      rw [Nat.mul_comm] at he
      exact Nat.div_lt_of_lt_mul he
    exact (h _ hnode').count_pos _ (Nat.mod_lt e hL)

/-- The table with a row for each thing and `M` entries a row, written at the row of the
thing and the number of the copy: a row has the places of its copies first, and the rest
is what was there before. -/
theorem table_row {M : Nat} (h : Replicated L P holds rank count) (hM : ∀ e < L, count e ≤ M)
    (blank : Int) {e : Nat} (he : e < L) :
    ∃ ps : List Nat, ps.length = count e ∧ ps.Nodup ∧ (∀ p, p ∈ ps ↔ p < P ∧ holds p = e) ∧
      tab M (fun k => scattered (fun _ => blank) (fun p => holds p * M + rank p)
        (fun p => (p : Int)) P (e * M + k)) =
          ps.map (fun p : Nat => (p : Int)) ++ List.replicate (M - count e) blank := by
  have hrank : ∀ p < P, rank p < M := fun p hp =>
    (h.rank_lt p hp).trans_le (hM _ (h.holds_lt p hp))
  have hinj : ∀ p < P, ∀ q < P, holds p * M + rank p = holds q * M + rank q → p = q :=
    fun p hp q hq heq => by
      obtain ⟨hthing, hnumber⟩ := block_inj (hrank p hp) (hrank q hq) heq
      exact h.distinct p hp q hq hthing hnumber
  choose! place hplace using h.kept e he
  refine ⟨tab (count e) place, length_tab .., ?_, ?_, ?_⟩
  · apply List.Nodup.map_on _ List.nodup_range
    intro a ha b hb heq
    calc a = rank (place a) := (hplace a (List.mem_range.1 ha)).2.2.symm
      _ = rank (place b) := by rw [heq]
      _ = b := (hplace b (List.mem_range.1 hb)).2.2
  · intro p
    simp only [tab, List.mem_map, List.mem_range]
    constructor
    · rintro ⟨k, hk, rfl⟩
      exact ⟨(hplace k hk).1, (hplace k hk).2.1⟩
    · rintro ⟨hp, heq⟩
      have hlt := h.rank_lt p hp
      rw [heq] at hlt
      refine ⟨rank p, hlt, ?_⟩
      apply h.distinct _ (hplace _ hlt).1 p hp
      · rw [(hplace _ hlt).2.1, heq]
      · exact (hplace _ hlt).2.2
  · apply List.ext_getElem?
    intro k
    by_cases hk : k < count e
    · have hkM := hM e he
      rw [getElem?_tab (by omega), List.getElem?_append_left (by simpa using hk), map_tab,
        getElem?_tab hk]
      obtain ⟨hp, hthing, hnumber⟩ := hplace k hk
      have hwrite : e * M + k = holds (place k) * M + rank (place k) := by
        rw [hthing, hnumber]
      rw [hwrite]
      congr 1
      exact scattered_of_inj (g := fun p => holds p * M + rank p) (v := fun p => (p : Int)) hp hinj
    · rw [List.getElem?_append_right (by simpa using hk)]
      simp only [List.length_map, length_tab]
      by_cases hkM : k < M
      · rw [getElem?_tab hkM, List.getElem?_replicate, if_pos (by omega)]
        congr 1
        apply scattered_of_not_mem
        intro p hp heq
        obtain ⟨hthing, hnumber⟩ := block_inj (hrank p hp) hkM heq
        have hlt := h.rank_lt p hp
        rw [hthing, hnumber] at hlt
        omega
      · rw [List.getElem?_eq_none (by simpa using hkM)]
        rw [List.getElem?_eq_none (by simp only [List.length_replicate]; omega)]

end Replicated

end SglJax.Foundation
