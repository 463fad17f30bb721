import Mathlib
import SglJax.Foundation.NodeTable

/-! Accounts over a node table: a quantity added up over all nodes, and how many
of a list of references pass through a node on their way to the root. Each edit
of the table changes them by what it adds, removes or divides. -/
namespace SglJax.Foundation.NodeTable

variable {κ α : Type}

/-! ### Sums over the nodes -/

def weigh (w : α → Nat) (t : NodeTable κ α) : Nat := (t.map fun n => w n.data).sum

section Weigh

variable {t : NodeTable κ α} {w : α → Nat}

@[simp] theorem weigh_nil : weigh w ([] : NodeTable κ α) = 0 := rfl

theorem weigh_perm {u : NodeTable κ α} (h : t.Perm u) : weigh w t = weigh w u :=
  (h.map fun n : Node κ α => w n.data).sum_eq

theorem weigh_attach (n : Node κ α) : weigh w (t.attach n) = weigh w t + w n.data := by
  simp [weigh, attach]

theorem weigh_modify_congr (ids : List Nat) {f : α → α}
    (hf : ∀ n ∈ t, n.id ∈ ids → w (f n.data) = w n.data) :
    weigh w (t.modify ids f) = weigh w t := by
  unfold weigh
  rw [modify_eq_map, List.map_map]
  congr 1
  apply List.map_congr_left
  intro n hn
  dsimp only [Function.comp]
  split
  · rename_i hid
    exact hf n hn hid
  · rfl

theorem weigh_modify (ids : List Nat) {f : α → α} (hf : ∀ d, w (f d) = w d) :
    weigh w (t.modify ids f) = weigh w t :=
  weigh_modify_congr ids fun n _ _ => hf n.data

/-- Dividing a node divides its share of the sum. -/
theorem weigh_splice (nodup : (t.map Node.id).Nodup) {old : Node κ α} (hold : old ∈ t)
    {newId : Nat} {topSlot bottomSlot : κ} {top bottom : α → α}
    (hw : w (top old.data) + w (bottom old.data) = w old.data) :
    weigh w (t.splice old.id newId topSlot bottomSlot top bottom) = weigh w t := by
  rw [splice_eq_flatMap]
  have hshare : ∀ n ∈ t, weigh w (halves old.id newId topSlot bottomSlot top bottom n) =
      w n.data := by
    intro n hn
    unfold halves
    split
    · rename_i hid
      obtain rfl := eq_of_id_eq nodup hn hold hid
      simpa [weigh] using hw
    · simp [weigh]
  unfold weigh at hshare ⊢
  rw [List.map_flatMap, List.flatMap_def, List.sum_flatten, List.map_map]
  congr 1
  exact List.map_congr_left hshare

theorem perm_cons_detach (nodup : (t.map Node.id).Nodup) {n : Node κ α} (hn : n ∈ t) :
    t.Perm (n :: t.detach n.id) := by
  have hmem : n ∉ t.detach n.id := fun h => (mem_detach.mp h).2 rfl
  apply (List.perm_ext_iff_of_nodup nodup.of_map
    (List.nodup_cons.mpr ⟨hmem, (nodup.of_map).filter _⟩)).mpr
  intro m
  rw [List.mem_cons, mem_detach]
  constructor
  · intro hm
    by_cases hid : m.id = n.id
    · exact .inl (eq_of_id_eq nodup hm hn hid)
    · exact .inr ⟨hm, hid⟩
  · rintro (rfl | ⟨hm, -⟩)
    · exact hn
    · exact hm

theorem weigh_detach (nodup : (t.map Node.id).Nodup) {n : Node κ α} (hn : n ∈ t) :
    weigh w t = w n.data + weigh w (t.detach n.id) := by
  rw [weigh_perm (perm_cons_detach nodup hn)]
  rfl

/-- A change of one node changes the sum by its share. -/
theorem weigh_modify_one (nodup : (t.map Node.id).Nodup) {n : Node κ α} (hn : n ∈ t) (f : α → α) :
    weigh w (t.modify [n.id] f) + w n.data = weigh w t + w (f n.data) := by
  have hperm := perm_cons_detach nodup hn
  have hrest : (t.detach n.id).modify [n.id] f = t.detach n.id := by
    rw [modify_eq_map]
    conv_rhs => rw [← List.map_id (t.detach n.id)]
    apply List.map_congr_left
    intro m hm
    simp [(mem_detach.mp hm).2]
  have hmodified : (t.modify [n.id] f).Perm ({ n with data := f n.data } :: t.detach n.id) := by
    conv_rhs => rw [← hrest]
    rw [modify_eq_map, modify_eq_map]
    simpa using hperm.map fun m => if m.id ∈ [n.id] then { m with data := f m.data } else m
  rw [weigh_perm hmodified, weigh_perm hperm]
  simp only [weigh, List.map_cons, List.sum_cons]
  omega

theorem dvd_weigh {k : Nat} (h : ∀ n ∈ t, k ∣ w n.data) : k ∣ weigh w t := by
  apply List.dvd_sum
  intro x hx
  obtain ⟨n, hn, rfl⟩ := List.mem_map.mp hx
  exact h n hn

theorem le_weigh (nodup : (t.map Node.id).Nodup) {n : Node κ α} (hn : n ∈ t) :
    w n.data ≤ weigh w t := by
  rw [weigh_detach nodup hn]
  exact Nat.le_add_right _ _

/-- Two nodes have their shares side by side. -/
theorem add_le_weigh (nodup : (t.map Node.id).Nodup) {m n : Node κ α} (hm : m ∈ t) (hn : n ∈ t)
    (hne : m ≠ n) : w m.data + w n.data ≤ weigh w t := by
  have hid : n.id ≠ m.id := fun h => hne (eq_of_id_eq nodup hm hn h.symm)
  have hnodup : ((t.detach m.id).map Node.id).Nodup :=
    nodup.sublist (List.filter_sublist.map Node.id)
  have hrest : w n.data ≤ weigh w (t.detach m.id) :=
    le_weigh hnodup (mem_detach.mpr ⟨hn, hid⟩)
  rw [weigh_detach nodup hm]
  omega

theorem exists_of_weigh_pos (h : 0 < weigh w t) : ∃ n ∈ t, 0 < w n.data := by
  by_contra hnone
  have hzero : weigh w t = 0 := by
    apply List.sum_eq_zero
    intro k hk
    obtain ⟨n, hn, rfl⟩ := List.mem_map.mp hk
    by_contra hpos
    exact hnone ⟨n, hn, Nat.pos_of_ne_zero hpos⟩
  omega

end Weigh

/-! ### References -/

/-- The node lies on the holder's way to the root. -/
def Refers (t : NodeTable κ α) (holder id : Nat) : Prop :=
  id ∈ (t.ancestors holder).map Node.id

instance (t : NodeTable κ α) (holder id : Nat) : Decidable (t.Refers holder id) :=
  inferInstanceAs (Decidable (_ ∈ _))

/-- How many of the references pass through a node. -/
def refs (t : NodeTable κ α) (holders : List Nat) (id : Nat) : Nat :=
  holders.countP fun holder => t.Refers holder id

section Refs

variable {t u : NodeTable κ α} {holders : List Nat}

theorem refers_iff (grounded : Grounded t) {holder id : Nat} {rows : List (Node κ α)}
    (h : Path t holder rows) : t.Refers holder id ↔ id ∈ rows.map Node.id := by
  rw [Refers, ancestors_eq grounded h, List.map_reverse, List.mem_reverse]

theorem refs_cons (holder : Nat) (id : Nat) :
    t.refs (holder :: holders) id = t.refs holders id + if t.Refers holder id then 1 else 0 := by
  simp [refs, List.countP_cons]

theorem refs_perm {others : List Nat} (h : holders.Perm others) (id : Nat) :
    t.refs holders id = t.refs others id :=
  h.countP_eq _

theorem refs_congr {a b : Nat} (h : ∀ holder ∈ holders, t.Refers holder a ↔ u.Refers holder b) :
    t.refs holders a = u.refs holders b := by
  apply List.countP_congr
  intro holder hmem
  simpa using h holder hmem

theorem refs_pos {holder id : Nat} (hmem : holder ∈ holders) (h : t.Refers holder id) :
    0 < t.refs holders id :=
  List.countP_pos_iff.mpr ⟨holder, hmem, by simpa using h⟩

/-- References along the same identities pass through the same nodes. -/
theorem refs_of_paths (grounded : Grounded t) (grounded' : Grounded u)
    (h : ∀ holder ∈ holders, ∃ rows rows', Path t holder rows ∧ Path u holder rows' ∧
      rows'.map Node.id = rows.map Node.id) (id : Nat) :
    u.refs holders id = t.refs holders id := by
  apply refs_congr
  intro holder hmem
  obtain ⟨rows, rows', hpath, hpath', hids⟩ := h holder hmem
  rw [refers_iff grounded hpath, refers_iff grounded' hpath', hids]

theorem mem_ids_halves {old : Node κ α} {newId : Nat} {topSlot bottomSlot : κ}
    {top bottom : α → α} {rows : List (Node κ α)} {id : Nat} :
    id ∈ (rows.flatMap (halves old.id newId topSlot bottomSlot top bottom)).map Node.id ↔
      id ∈ rows.map Node.id ∨ (id = newId ∧ old.id ∈ rows.map Node.id) := by
  induction rows with
  | nil => simp
  | cons n rows ih =>
    rw [List.flatMap_cons, List.map_append, List.mem_append, ih, List.map_cons, List.mem_cons,
      List.mem_cons, halves]
    split
    · rename_i hid
      simp only [List.map_cons, List.map_nil, List.mem_cons, List.not_mem_nil, or_false]
      grind
    · simp only [List.map_cons, List.map_nil, List.mem_cons, List.not_mem_nil, or_false]
      grind

/-- A reference through a divided node passes through both halves. -/
theorem refs_splice (grounded : Grounded t) {old : Node κ α} (hold : old ∈ t) {newId : Nat}
    {topSlot bottomSlot : κ} {top bottom : α → α}
    (grounded' : Grounded (t.splice old.id newId topSlot bottomSlot top bottom))
    (fresh : ∀ n ∈ t, n.id ≠ newId) (h : ∀ holder ∈ holders, ∃ rows, Path t holder rows) (id : Nat) :
    (t.splice old.id newId topSlot bottomSlot top bottom).refs holders id =
      t.refs holders (if id = newId then old.id else id) := by
  apply refs_congr
  intro holder hmem
  obtain ⟨rows, hpath⟩ := h holder hmem
  rw [refers_iff grounded hpath, refers_iff grounded' (hpath.splice grounded.nodup hold),
    mem_ids_halves]
  have hnew : newId ∉ rows.map Node.id := by
    intro hmem
    obtain ⟨n, hn, hid⟩ := List.mem_map.mp hmem
    exact fresh n (hpath.mem n hn) hid
  split
  · rename_i heq
    subst heq
    simp [hnew]
  · rename_i hne
    simp [hne]

end Refs
end SglJax.Foundation.NodeTable
