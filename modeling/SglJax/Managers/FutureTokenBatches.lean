import SglJax.Managers.FutureTokenWrites

/-! The layout of a worker batch, with the ranks one after the other and padded, and the
slots that a prefill batch takes. -/
namespace SglJax.Managers.FutureTokens

open Foundation MemCache

variable {ρ : Type}

/-- Blocks of one length: the block `d` starts at `d * m`. -/
theorem take_drop_flatMap_range {α : Type} {n m d k : Nat} {f : Nat → List α}
    (hlen : ∀ i < n, (f i).length = m) (hd : d < n) (hk : k ≤ m) :
    (((List.range n).flatMap f).drop (d * m)).take k = (f d).take k := by
  have hfront : ∀ i ≤ n, ((List.range i).flatMap f).length = i * m := by
    intro i
    induction i with
    | zero => simp
    | succ i ih =>
      intro hi
      rw [List.range_succ, List.flatMap_append, List.length_append, ih (by omega),
        List.flatMap_singleton, hlen i (by omega), Nat.succ_mul]
  obtain ⟨r, rfl⟩ := Nat.exists_eq_add_of_lt hd
  have hsplit : (List.range (d + r + 1)).flatMap f =
      (List.range d).flatMap f ++ (f d ++ ((List.range r).map fun i => d + 1 + i).flatMap f) := by
    have hsum : d + r + 1 = d + 1 + r := by omega
    rw [hsum, List.range_add, List.range_succ, List.flatMap_append, List.flatMap_append,
      List.flatMap_singleton, List.append_assoc]
  rw [hsplit, List.drop_append_of_le_length (by rw [hfront d (by omega)]),
    ← hfront d (by omega), List.drop_length, List.nil_append,
    List.take_append_of_le_length (by rw [hlen d hd]; exact hk)]

section

variable [DecidableEq ρ] (cfg : Config ρ)

/-- The row of a request in the worker batch. -/
def realRow (entry : InfoRow ρ × List Int) : Row ρ :=
  ⟨some entry.1.req, entry.1.seqLen, entry.1.reqPoolIdx, entry.2⟩

theorem length_rankBlock {perDpBs d : Nat} {rows : List (InfoRow ρ × List Int)}
    (h : (rows.filter fun entry => cfg.dpRank entry.1.req = d).length ≤ perDpBs) :
    (rankBlock cfg perDpBs rows d).length = perDpBs := by
  unfold rankBlock
  simp only [List.length_append, List.length_map, List.length_replicate]
  omega

theorem mem_workerBatch {perDpBs : Nat} {rows : List (InfoRow ρ × List Int)} {row : Row ρ}
    (h : row ∈ workerBatch cfg perDpBs rows) :
    row = paddingRow ∨ ∃ entry ∈ rows, row = realRow entry := by
  obtain ⟨d, -, hrow⟩ := List.mem_flatMap.1 h
  rcases List.mem_append.1 hrow with hrow | hrow
  · obtain ⟨entry, hentry, rfl⟩ := List.mem_map.1 hrow
    exact .inr ⟨entry, (List.mem_filter.1 hentry).1, rfl⟩
  · exact .inl (List.eq_of_mem_replicate hrow)

theorem realRow_mem {rows : List (InfoRow ρ × List Int)} (perDpBs : Nat)
    {entry : InfoRow ρ × List Int} (h : entry ∈ rows) :
    realRow entry ∈ workerBatch cfg perDpBs rows := by
  apply List.mem_flatMap.2
  refine ⟨cfg.dpRank entry.1.req, List.mem_range.2 (cfg.dpRank_lt _), List.mem_append_left _ ?_⟩
  exact List.mem_map.2 ⟨entry, List.mem_filter.2 ⟨h, by simp⟩, rfl⟩

/-- The requests of the ranks, one rank after the other. -/
theorem nodup_byRank {α : Type} (req : α → ρ) {rows : List α} (h : (rows.map req).Nodup) :
    ((List.range cfg.dpSize).flatMap fun d =>
      (rows.filter fun row => cfg.dpRank (req row) = d).map req).Nodup := by
  rw [List.nodup_flatMap]
  constructor
  · intro d _
    exact h.sublist (List.filter_sublist.map req)
  · apply List.Pairwise.imp _ List.nodup_range
    intro d d' hne r hr hr'
    obtain ⟨row, hrow, rfl⟩ := List.mem_map.1 hr
    obtain ⟨row', hrow', heq⟩ := List.mem_map.1 hr'
    have hd := (List.mem_filter.1 hrow).2
    have hd' := (List.mem_filter.1 hrow').2
    rw [decide_eq_true_eq] at hd hd'
    rw [heq] at hd'
    exact hne (hd.symm.trans hd')

theorem filterMap_workerBatch (perDpBs : Nat) (rows : List (InfoRow ρ × List Int)) :
    (workerBatch cfg perDpBs rows).filterMap Row.req =
      (List.range cfg.dpSize).flatMap fun d =>
        (rows.filter fun entry => cfg.dpRank entry.1.req = d).map fun entry => entry.1.req := by
  unfold workerBatch
  rw [List.filterMap_flatMap]
  congr 1
  funext d
  unfold rankBlock
  have hpad : ∀ n, (List.replicate n (paddingRow : Row ρ)).filterMap Row.req = [] := fun n => by
    rw [List.filterMap_eq_nil_iff]
    intro row hrow
    rw [List.eq_of_mem_replicate hrow]
    rfl
  rw [List.filterMap_append, hpad, List.append_nil, List.filterMap_map]
  rw [← List.filterMap_eq_map]
  rfl

/-- The scheduler reads the placeholder of each request from the padded array. -/
theorem extractOutputIds_eq {perDpBs : Nat} {rows : List (InfoRow ρ × List Int)}
    (hroom : ∀ d, (rows.filter fun entry => cfg.dpRank entry.1.req = d).length ≤ perDpBs)
    (g : Row ρ → Int) :
    extractOutputIds cfg perDpBs ((workerBatch cfg perDpBs rows).map g) (rows.map Prod.fst) =
      (List.range cfg.dpSize).flatMap fun d =>
        (rows.filter fun entry => cfg.dpRank entry.1.req = d).map fun entry =>
          { entry.1 with outputId := g (realRow entry) } := by
  unfold extractOutputIds
  apply List.flatMap_congr
  intro d hd
  let own := rows.filter fun entry => cfg.dpRank entry.1.req = d
  have hown : (rows.map Prod.fst).filter (fun row => cfg.dpRank row.req = d) = own.map Prod.fst := by
    rw [List.filter_map]
    rfl
  have hblock : (((workerBatch cfg perDpBs rows).map g).drop (d * perDpBs)).take own.length =
      own.map fun entry => g (realRow entry) := by
    unfold workerBatch
    rw [List.map_flatMap, take_drop_flatMap_range (m := perDpBs) (fun i _ => by
      rw [List.length_map, length_rankBlock cfg (hroom i)]) (List.mem_range.1 hd) (hroom d)]
    unfold rankBlock
    rw [List.map_append, List.take_append_of_le_length (by simp),
      List.take_of_length_le (by simp), List.map_map]
    rfl
  dsimp only
  rw [hown, List.length_map, hblock, List.zipWith_map, List.zipWith_self]

/-! ### Slots -/

/-- Free slots and those of the requests: no slot is in two places. -/
structure SlotsOk (size : Nat) (free : List Nat) (reqPoolIdx : ρ → Option Nat) : Prop where
  nodup : free.Nodup
  free_lt : ∀ i ∈ free, i < size
  held : ∀ r i, reqPoolIdx r = some i → i < size ∧ i ∉ free
  inj : ∀ r r' i, reqPoolIdx r = some i → reqPoolIdx r' = some i → r = r'

theorem SlotsOk.take {size i : Nat} {free : List Nat} {reqPoolIdx : ρ → Option Nat}
    (h : SlotsOk size (i :: free) reqPoolIdx) {r : ρ} (hnone : reqPoolIdx r = none) :
    SlotsOk size free (Function.update reqPoolIdx r (some i)) := by
  have hnodup := List.nodup_cons.1 h.nodup
  have hfresh : ∀ r', reqPoolIdx r' ≠ some i := fun r' heq => (h.held r' i heq).2 (by simp)
  constructor
  · exact hnodup.2
  · exact fun j hj => h.free_lt j (by simp [hj])
  · intro r' j hj
    by_cases heq : r' = r
    · rw [heq, Function.update_self] at hj
      cases hj
      exact ⟨h.free_lt i (by simp), hnodup.1⟩
    · rw [Function.update_of_ne heq] at hj
      obtain ⟨hlt, hmem⟩ := h.held r' j hj
      exact ⟨hlt, fun hj' => hmem (by simp [hj'])⟩
  · intro a b j ha hb
    by_cases har : a = r
    · by_cases hbr : b = r
      · rw [har, hbr]
      · rw [har, Function.update_self] at ha
        rw [Function.update_of_ne hbr] at hb
        cases ha
        exact absurd hb (hfresh b)
    · by_cases hbr : b = r
      · rw [hbr, Function.update_self] at hb
        rw [Function.update_of_ne har] at ha
        cases hb
        exact absurd ha (hfresh a)
      · rw [Function.update_of_ne har] at ha
        rw [Function.update_of_ne hbr] at hb
        exact h.inj a b j ha hb

theorem SlotsOk.give {size i : Nat} {free : List Nat} {reqPoolIdx : ρ → Option Nat}
    (h : SlotsOk size free reqPoolIdx) {r : ρ} (hsome : reqPoolIdx r = some i) :
    SlotsOk size (free ++ [i]) (Function.update reqPoolIdx r none) := by
  obtain ⟨hlt, hmem⟩ := h.held r i hsome
  constructor
  · rw [List.nodup_append]
    refine ⟨h.nodup, List.nodup_singleton i, ?_⟩
    intro a ha b hb heq
    rw [List.mem_singleton] at hb
    exact hmem (by rwa [← hb, ← heq])
  · intro j hj
    rcases List.mem_append.1 hj with hj | hj
    · exact h.free_lt j hj
    · rwa [List.mem_singleton.1 hj]
  · intro r' j hj
    by_cases heq : r' = r
    · rw [heq, Function.update_self] at hj
      cases hj
    · rw [Function.update_of_ne heq] at hj
      refine ⟨(h.held r' j hj).1, fun hj' => ?_⟩
      rcases List.mem_append.1 hj' with hj' | hj'
      · exact (h.held r' j hj).2 hj'
      · rw [List.mem_singleton.1 hj'] at hj
        exact heq (h.inj r' r i hj hsome)
  · intro a b j ha hb
    by_cases har : a = r
    · rw [har, Function.update_self] at ha
      cases ha
    · by_cases hbr : b = r
      · rw [hbr, Function.update_self] at hb
        cases hb
      · rw [Function.update_of_ne har] at ha
        rw [Function.update_of_ne hbr] at hb
        exact h.inj a b j ha hb

/-- What giving slots to some requests leaves: these have one, and the others what they had. -/
structure Slotted (before : ρ → Option Nat) (reqs : List ρ) (after : ρ → Option Nat) : Prop where
  given : ∀ r ∈ reqs, (after r).isSome
  keeps : ∀ r i, before r = some i → after r = some i
  others : ∀ r ∉ reqs, after r = before r

theorem setSlots_spec {size : Nat} {rest : List Nat} (f : ρ → Option Nat)
    (own : List (Admission ρ)) {sel : List Nat} {reqPoolIdx : ρ → Option Nat}
    (hnodup : (own.map (·.req)).Nodup) (hsame : ∀ a ∈ own, reqPoolIdx a.req = f a.req)
    (hcount : (own.filter fun a => (f a.req).isNone).length = sel.length)
    (h : SlotsOk size (sel ++ rest) reqPoolIdx) :
    let after := setSlots reqPoolIdx (own.map (·.req))
      (ReqToTokenPool.assign (own.map fun a => ⟨f a.req, a.isChunked, a.kvCommittedLen⟩) sel)
    SlotsOk size rest after ∧ Slotted reqPoolIdx (own.map (·.req)) after := by
  induction own generalizing sel reqPoolIdx with
  | nil =>
    have hsel : sel = [] := List.length_eq_zero_iff.1 hcount.symm
    subst hsel
    exact ⟨h, ⟨by simp, fun r i hi => hi, fun r _ => rfl⟩⟩
  | cons a own ih =>
    simp only [List.map_cons, List.nodup_cons] at hnodup
    have hne : ∀ b ∈ own, b.req ≠ a.req := fun b hb heq =>
      hnodup.1 (List.mem_map.2 ⟨b, hb, heq⟩)
    cases hslot : f a.req with
    | some i =>
      have hcount' : (own.filter fun a => (f a.req).isNone).length = sel.length := by
        rw [List.filter_cons, hslot] at hcount
        exact hcount
      -- the chunked request is written the slot that it has
      have hupdate : Function.update reqPoolIdx a.req (some i) = reqPoolIdx := by
        rw [← hslot, ← hsame a (by simp), Function.update_eq_self]
      have hrest := ih hnodup.2 (fun b hb => hsame b (by simp [hb])) hcount' h
      simp only [List.map_cons, ReqToTokenPool.assign, hslot, setSlots, hupdate]
      refine ⟨hrest.1, ⟨?_, hrest.2.keeps, ?_⟩⟩
      · intro r hr
        rcases List.mem_cons.1 hr with rfl | hr
        · rw [hrest.2.keeps a.req i (by rw [hsame a (by simp), hslot])]
          rfl
        · exact hrest.2.given r hr
      · intro r hr
        exact hrest.2.others r fun hmem => hr (by simp [hmem])
    | none =>
      cases sel with
      | nil =>
        rw [List.filter_cons, hslot] at hcount
        simp at hcount
      | cons i sel =>
        have hnone : reqPoolIdx a.req = none := by rw [hsame a (by simp), hslot]
        have hcount' : (own.filter fun a => (f a.req).isNone).length = sel.length := by
          rw [List.filter_cons, hslot] at hcount
          simpa using hcount
        have hsame' : ∀ b ∈ own, Function.update reqPoolIdx a.req (some i) b.req = f b.req :=
          fun b hb => by
            rw [Function.update_of_ne (hne b hb)]
            exact hsame b (by simp [hb])
        have hrest := ih hnodup.2 hsame' hcount' (h.take hnone)
        simp only [List.map_cons, ReqToTokenPool.assign, hslot, setSlots]
        refine ⟨hrest.1, ⟨?_, ?_, ?_⟩⟩
        · intro r hr
          rcases List.mem_cons.1 hr with rfl | hr
          · rw [hrest.2.keeps a.req i (Function.update_self ..)]
            rfl
          · exact hrest.2.given r hr
        · intro r j hj
          apply hrest.2.keeps
          rw [Function.update_of_ne (fun heq => by rw [heq, hnone] at hj; cases hj)]
          exact hj
        · intro r hr
          rw [hrest.2.others r fun hmem => hr (by simp [hmem]),
            Function.update_of_ne fun heq => hr (by simp [heq])]

theorem Slotted.comp {f g h : ρ → Option Nat} {reqs reqs' : List ρ} (hfg : Slotted f reqs g)
    (hgh : Slotted g reqs' h) : Slotted f (reqs ++ reqs') h := by
  constructor
  · intro r hr
    rcases List.mem_append.1 hr with hr | hr
    · obtain ⟨i, hi⟩ := Option.isSome_iff_exists.1 (hfg.given r hr)
      rw [hgh.keeps r i hi]
      rfl
    · exact hgh.given r hr
  · exact fun r i hi => hgh.keeps r i (hfg.keeps r i hi)
  · intro r hr
    rw [hgh.others r fun hmem => hr (by simp [hmem]), hfg.others r fun hmem => hr (by simp [hmem])]

theorem allocRank_spec {size d : Nat} {admitted : List (Admission ρ)}
    {slots slots' : ReqToTokenPool × (ρ → Option Nat)} (hnodup : (admitted.map (·.req)).Nodup)
    (h : SlotsOk size slots.1.freeSlots slots.2)
    (halloc : allocRank cfg admitted slots d = some slots') :
    SlotsOk size slots'.1.freeSlots slots'.2 ∧
      Slotted slots.2 ((admitted.filter fun a => cfg.dpRank a.req = d).map (·.req)) slots'.2 := by
  let own := admitted.filter fun a => cfg.dpRank a.req = d
  let reqs := own.map fun a => (⟨slots.2 a.req, a.isChunked, a.kvCommittedLen⟩ : SlotReq)
  have hown : (own.map (·.req)).Nodup := hnodup.sublist (List.filter_sublist.map _)
  have hcase : ∃ pool indices, slots.1.alloc reqs = .ok (pool, some indices) ∧
      slots' = (pool, setSlots slots.2 (own.map (·.req)) indices) := by
    unfold allocRank at halloc
    dsimp only at halloc
    split at halloc
    · rename_i pool indices heq
      exact ⟨pool, indices, heq, (Option.some.inj halloc).symm⟩
    · cases halloc
  obtain ⟨pool, indices, hpool, rfl⟩ := hcase
  let need := reqs.length - (reqs.filter fun req => req.reqPoolIdx.isSome).length
  have hcount : (own.filter fun a => (slots.2 a.req).isNone).length = need := by
    have hsplit := List.length_eq_length_filter_add (l := reqs) fun req => req.reqPoolIdx.isSome
    have hnone : (reqs.filter fun req => !req.reqPoolIdx.isSome).length =
        (own.filter fun a => (slots.2 a.req).isNone).length := by
      simp only [reqs, List.filter_map, List.length_map]
      congr 1
      apply List.filter_congr
      intro a _
      simp [Function.comp]
    omega
  unfold ReqToTokenPool.alloc at hpool
  dsimp only at hpool
  split at hpool
  · cases hpool
  · split at hpool
    · cases hpool
    · split at hpool
      · cases hpool
      · rename_i hroom
        cases hpool
        have htake : (slots.1.freeSlots.take need).length = need := by
          rw [List.length_take]
          omega
        have hsplit : SlotsOk size
            (slots.1.freeSlots.take need ++ slots.1.freeSlots.drop need) slots.2 := by
          rwa [List.take_append_drop]
        exact setSlots_spec slots.2 own hown (fun a _ => rfl) (hcount.trans htake.symm) hsplit

theorem allocSlots_spec {size : Nat} {admitted : List (Admission ρ)}
    {slots slots' : ReqToTokenPool × (ρ → Option Nat)} (hnodup : (admitted.map (·.req)).Nodup)
    (h : SlotsOk size slots.1.freeSlots slots.2)
    (halloc : allocSlots cfg admitted slots = some slots') :
    SlotsOk size slots'.1.freeSlots slots'.2 ∧
      Slotted slots.2 (admitted.map (·.req)) slots'.2 := by
  have hranks : ∀ (ds : List Nat) (slots : ReqToTokenPool × (ρ → Option Nat)),
      SlotsOk size slots.1.freeSlots slots.2 →
      ds.foldlM (allocRank cfg admitted) slots = some slots' →
        SlotsOk size slots'.1.freeSlots slots'.2 ∧ Slotted slots.2
          (ds.flatMap fun d => (admitted.filter fun a => cfg.dpRank a.req = d).map (·.req))
          slots'.2 := by
    intro ds
    induction ds with
    | nil =>
      intro slots hok hfold
      cases hfold
      exact ⟨hok, ⟨by simp, fun r i hi => hi, fun r _ => rfl⟩⟩
    | cons d ds ih =>
      intro slots hok hfold
      rw [List.foldlM_cons, Option.bind_eq_bind, Option.bind_eq_some_iff] at hfold
      obtain ⟨mid, hmid, hrest⟩ := hfold
      obtain ⟨hmidOk, hslotted⟩ := allocRank_spec cfg hnodup hok hmid
      obtain ⟨hok', hslotted'⟩ := ih mid hmidOk hrest
      exact ⟨hok', hslotted.comp hslotted'⟩
  obtain ⟨hok, hslotted⟩ := hranks _ slots h halloc
  have hmem : ∀ r, (r ∈ (List.range cfg.dpSize).flatMap fun d =>
      (admitted.filter fun a => cfg.dpRank a.req = d).map (·.req)) ↔
        r ∈ admitted.map (·.req) := fun r => by
    constructor
    · intro hr
      obtain ⟨d, -, hd⟩ := List.mem_flatMap.1 hr
      exact (List.filter_sublist.map (fun a : Admission ρ => a.req)).subset hd
    · intro hr
      obtain ⟨a, ha, rfl⟩ := List.mem_map.1 hr
      apply List.mem_flatMap.2
      refine ⟨cfg.dpRank a.req, List.mem_range.2 (cfg.dpRank_lt _), ?_⟩
      exact List.mem_map.2 ⟨a, List.mem_filter.2 ⟨ha, by simp⟩, rfl⟩
  refine ⟨hok, fun r hr => hslotted.given r ((hmem r).2 hr), hslotted.keeps, fun r hr => ?_⟩
  exact hslotted.others r fun h => hr ((hmem r).1 h)

end

end SglJax.Managers.FutureTokens
