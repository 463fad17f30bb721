import SglJax.Foundation.Results
import SglJax.MemCache.DeepseekLedger

/-! Allocation: what a plan consists of, and that committing it keeps the ledger's
invariant. -/
namespace SglJax.MemCache.DeepseekV4

variable {g : Geometry} {led : RankLedger}

/-- The symbolic id of the new page with index `k`. -/
def freshId (k : Nat) : Int := -(k + 1 : Nat)

/-- The segments on new pages take them in order, from the one with index `k` on. -/
def FreshFrom (k : Nat) (segments : List Segment) : Prop :=
  (segments.filter fun seg => seg.page < 0).map (·.page) =
    (List.range' k (segments.countP fun seg => seg.page < 0)).map freshId

/-- A segment on a page that exists already continues it where it ends. -/
structure ExtendsTail (g : Geometry) (led : RankLedger) (seg : Segment) : Prop where
  inPool : g.InPool seg.page.toNat
  ends : led.ends seg.page.toNat = seg.offset
  offset_ne : seg.offset ≠ 0

structure SegmentFits (g : Geometry) (led : RankLedger) (seg : Segment) : Prop where
  count_pos : 0 < seg.count
  bound : seg.offset + seg.count ≤ g.pageSize
  tail : 0 ≤ seg.page → ExtendsTail g led seg
  fresh : seg.page < 0 → seg.offset = 0

/-- What `_plan` has collected at any time. -/
structure Planned (g : Geometry) (led : RankLedger) (st : PlanState) : Prop where
  fits : ∀ seg ∈ st.segments, SegmentFits g led seg
  distinct : ((st.segments.filter fun seg => 0 ≤ seg.page).map (·.page)).Nodup
  seen : ∀ seg ∈ st.segments, 0 ≤ seg.page → seg.page ∈ st.seenTail
  order : FreshFrom 0 st.segments
  newCount : st.newCount = st.segments.countP fun seg => seg.page < 0

theorem planned_nil (seen : List Int) : Planned g led ⟨[], 0, seen⟩ where
  fits := by simp
  distinct := by simp
  seen := by simp
  order := rfl
  newCount := rfl

theorem Planned.seeTail {st : PlanState} (h : Planned g led st) (page : Int) :
    Planned g led { st with seenTail := page :: st.seenTail } :=
  { h with seen := fun seg hseg hpage => List.mem_cons_of_mem _ (h.seen seg hseg hpage) }

theorem Planned.addTail {st : PlanState} (h : Planned g led st) {seg : Segment}
    (hpage : 0 ≤ seg.page) (hseg : SegmentFits g led seg) (hnew : seg.page ∉ st.seenTail) :
    Planned g led
      { st with segments := st.segments ++ [seg], seenTail := seg.page :: st.seenTail } where
  fits := by
    intro x hx
    rcases List.mem_append.mp hx with hx | hx
    · exact h.fits x hx
    · rw [List.mem_singleton.mp hx]
      exact hseg
  distinct := by
    rw [List.filter_append, List.map_append, List.filter_cons_of_pos (by simpa using hpage)]
    apply List.Nodup.append h.distinct (by simp)
    intro page hin hpage
    obtain ⟨x, hx, rfl⟩ := List.mem_map.mp hin
    have hx := List.mem_filter.mp hx
    have hsame : x.page = seg.page := by simpa using hpage
    exact hnew (hsame ▸ h.seen x hx.1 (of_decide_eq_true hx.2))
  seen := by
    intro x hx hxpage
    rcases List.mem_append.mp hx with hx | hx
    · exact List.mem_cons_of_mem _ (h.seen x hx hxpage)
    · rw [List.mem_singleton.mp hx]
      exact List.mem_cons_self
  order := by
    have hneg : ¬ seg.page < 0 := by omega
    have horder := h.order
    unfold FreshFrom at horder ⊢
    simpa [hneg] using horder
  newCount := by
    have hneg : ¬ seg.page < 0 := by omega
    simpa [hneg] using h.newCount

theorem Planned.addFresh {st : PlanState} (h : Planned g led st) {take : Nat} (hpos : 0 < take)
    (hbound : take ≤ g.pageSize) :
    Planned g led { st with
      newCount := st.newCount + 1
      segments := st.segments ++ [⟨-(st.newCount + 1 : Nat), 0, take⟩] } where
  fits := by
    intro x hx
    rcases List.mem_append.mp hx with hx | hx
    · exact h.fits x hx
    · rw [List.mem_singleton.mp hx]
      exact ⟨hpos, by simpa using hbound, fun hpage => by dsimp only at hpage; omega, fun _ => rfl⟩
  distinct := by
    rw [List.filter_append, List.filter_cons_of_neg (by simp; omega)]
    simpa using h.distinct
  seen := by
    intro x hx hxpage
    rcases List.mem_append.mp hx with hx | hx
    · exact h.seen x hx hxpage
    · rw [List.mem_singleton.mp hx] at hxpage
      dsimp only at hxpage
      omega
  order := by
    have hneg : (-(st.newCount + 1 : Nat) : Int) < 0 := by omega
    have horder := h.order
    have hcount := h.newCount
    unfold FreshFrom at horder ⊢
    rw [List.filter_append, List.map_append, horder, List.countP_append,
      List.filter_cons_of_pos (by simpa using hneg), List.countP_cons_of_pos (by simpa using hneg)]
    rw [← hcount]
    simp [List.range'_concat, freshId]
  newCount := by
    have hneg : (-(st.newCount + 1 : Nat) : Int) < 0 := by omega
    rw [List.countP_append, List.countP_cons_of_pos (by simpa using hneg), ← h.newCount]
    rfl

theorem Planned.freshSegments {st : PlanState} (h : Planned g led st) (fuel count : Nat) :
    Planned g led (freshSegments g fuel count st) := by
  induction fuel generalizing count st with
  | zero => exact h
  | succ fuel ih =>
    unfold DeepseekV4.freshSegments
    split
    · exact h
    · have hp := g.pageSize_pos
      exact ih (h.addFresh (by omega) (by omega)) _

/-- How many slots the segments have. -/
def slotCount : List Segment → Nat
  | [] => 0
  | seg :: rest => seg.count + slotCount rest

theorem slotCount_append (segments : List Segment) (seg : Segment) :
    slotCount (segments ++ [seg]) = slotCount segments + seg.count := by
  induction segments with
  | nil => simp [slotCount]
  | cons x rest ih =>
    rw [List.cons_append]
    unfold slotCount
    rw [ih, Nat.add_assoc]

/-- The loop over new pages ends with nothing left to place. -/
theorem freshSegments_total (st : PlanState) {fuel count : Nat} (h : count ≤ fuel) :
    slotCount (freshSegments g fuel count st).segments = slotCount st.segments + count := by
  induction fuel generalizing count st with
  | zero =>
    have hzero : count = 0 := by omega
    subst hzero
    rfl
  | succ fuel ih =>
    unfold DeepseekV4.freshSegments
    split
    · omega
    · have hp := g.pageSize_pos
      rw [ih _ (by omega), slotCount_append]
      dsimp only
      omega

theorem pred_emod {pre p : Int} (hp : 0 < p) (h : pre % p ≠ 0) : (pre - 1) % p = pre % p - 1 := by
  have hmod := Int.emod_nonneg pre hp.ne'
  have hlt := Int.emod_lt_of_pos pre hp
  have hdecomp := Int.emod_add_mul_ediv pre p
  have hsplit : pre - 1 = (pre % p - 1) + p * (pre / p) := by omega
  rw [hsplit, Int.add_mul_emod_self_left, Int.emod_eq_of_lt (by omega) (by omega)]

theorem Planned.planRequest {st st' : PlanState} {pre fin tail : Int} (h : Planned g led st)
    (heq : planRequest g led st pre fin tail = .ok st') : Planned g led st' := by
  unfold DeepseekV4.planRequest at heq
  dsimp only at heq
  split at heq
  · cases heq
    exact h
  · rename_i hcount
    split at heq
    · split at heq
      · cases heq
      · rename_i hchecks
        push Not at hchecks
        obtain ⟨hpos, hle, hoffset, hends, hnew⟩ := hchecks
        split at heq
        · rename_i hpart
          cases heq
          have hp : (0 : Int) < g.pageSize := by exact_mod_cast g.pageSize_pos
          have hmod := Int.emod_nonneg pre hp.ne'
          have hlt := Int.emod_lt_of_pos pre hp
          have hprev := pred_emod hp hpart
          apply Planned.freshSegments
          refine h.addTail (by dsimp only; omega) ⟨by dsimp only; omega, by dsimp only; omega,
            fun _ => ⟨⟨by dsimp only; omega, by dsimp only; omega⟩, ?_, by dsimp only; omega⟩,
            fun hneg => by dsimp only at hneg; omega⟩ hnew
          dsimp only
          omega
        · cases heq
          exact (h.seeTail _).freshSegments _ _
    · split at heq
      · cases heq
      · cases heq
        exact h.freshSegments _ _

theorem Planned.planRequests {st st' : PlanState} {requests : List (Int × Int × Int)}
    (h : Planned g led st) (heq : planRequests g led st requests = .ok st') :
    Planned g led st' := by
  induction requests generalizing st with
  | nil =>
    cases heq
    exact h
  | cons request rest ih =>
    obtain ⟨pre, fin, tail⟩ := request
    unfold DeepseekV4.planRequests at heq
    split at heq
    · cases heq
    · rename_i st₁ hone
      exact ih (h.planRequest hone) heq

theorem planned_of_plan {prefixLens seqLens lastLoc : NdArray} {extendNumTokens : Int}
    {demand : DeepseekV4AllocationDemand} {segments : List Segment}
    (h : plan g led prefixLens seqLens lastLoc extendNumTokens = .ok (demand, segments)) :
    ∃ st, Planned g led st ∧ st.segments = segments ∧ demand.historyPages = st.newCount ∧
      demand.swaPages = segments.countP (needsSwa led) := by
  unfold plan at h
  split at h
  · cases h
  · dsimp only at h
    split at h
    · cases h
    · split at h
      · cases h
      · split at h
        · cases h
        · rename_i st hst
          cases h
          exact ⟨st, (planned_nil []).planRequests hst, rfl, rfl, rfl⟩

/-! Placing and committing the segments of a plan. -/

theorem FreshFrom.head {k : Nat} {seg : Segment} {rest : List Segment}
    (h : FreshFrom k (seg :: rest)) (hneg : seg.page < 0) :
    seg.page = freshId k ∧ FreshFrom (k + 1) rest := by
  unfold FreshFrom at h ⊢
  rw [List.filter_cons_of_pos (by simpa using hneg),
    List.countP_cons_of_pos (by simpa using hneg), List.range'_succ, List.map_cons,
    List.map_cons] at h
  exact List.cons.inj h

theorem FreshFrom.tail {k : Nat} {seg : Segment} {rest : List Segment}
    (h : FreshFrom k (seg :: rest)) (hpage : ¬ seg.page < 0) : FreshFrom k rest := by
  unfold FreshFrom at h ⊢
  rwa [List.filter_cons_of_neg (by simpa using hpage),
    List.countP_cons_of_neg (by simpa using hpage)] at h

theorem freshId_index (k : Nat) : (-freshId k - 1).toNat = k := by
  unfold freshId
  omega

/-- The commit loop on the way: the ledger it started from still describes the
pages that the remaining segments extend. -/
structure Committing (g : Geometry) (led cur : RankLedger) (segments : List Segment) : Prop where
  fits : ∀ seg ∈ segments, SegmentFits g led seg
  distinct : ((segments.filter fun seg => 0 ≤ seg.page).map (·.page)).Nodup
  ends : ∀ seg ∈ segments, 0 ≤ seg.page → cur.ends seg.page.toNat = led.ends seg.page.toNat
  swaPage : ∀ seg ∈ segments, 0 ≤ seg.page →
    cur.swaPage seg.page.toNat = led.swaPage seg.page.toNat

/-- A write to a page that no remaining segment extends changes none of this. -/
theorem Committing.write {cur : RankLedger} {seg : Segment} {rest : List Segment}
    (h : Committing g led cur (seg :: rest)) {w : PageWrite}
    (hother : ∀ x ∈ rest, 0 ≤ x.page → x.page.toNat ≠ w.page) :
    Committing g led (commitWrite g cur w) rest where
  fits := fun x hx => h.fits x (List.mem_cons_of_mem _ hx)
  distinct := by
    have hdistinct := h.distinct
    by_cases hpage : 0 ≤ seg.page
    · rw [List.filter_cons_of_pos (by simpa using hpage), List.map_cons, List.nodup_cons]
        at hdistinct
      exact hdistinct.2
    · rwa [List.filter_cons_of_neg (by simpa using hpage)] at hdistinct
  ends := by
    intro x hx hpage
    rw [commitWrite_ends, if_neg (hother x hx hpage)]
    exact h.ends x (List.mem_cons_of_mem _ hx) hpage
  swaPage := by
    intro x hx hpage
    rw [commitWrite_swaPage, if_neg (hother x hx hpage)]
    exact h.swaPage x (List.mem_cons_of_mem _ hx) hpage

theorem Committing.other_of_tail {cur : RankLedger} {seg : Segment} {rest : List Segment}
    (h : Committing g led cur (seg :: rest)) (hpage : 0 ≤ seg.page) :
    ∀ x ∈ rest, 0 ≤ x.page → x.page.toNat ≠ seg.page.toNat := by
  intro x hx hxpage heq
  have hdistinct := h.distinct
  rw [List.filter_cons_of_pos (by simpa using hpage), List.map_cons, List.nodup_cons] at hdistinct
  apply hdistinct.1
  have hsame : seg.page = x.page := by omega
  rw [hsame]
  exact List.mem_map_of_mem (List.mem_filter.mpr ⟨hx, by simpa using hxpage⟩)

theorem Committing.other_of_empty {cur : RankLedger} {seg : Segment} {rest : List Segment}
    (h : Committing g led cur (seg :: rest)) {page : Nat} (hempty : cur.ends page = 0) :
    ∀ x ∈ rest, 0 ≤ x.page → x.page.toNat ≠ page := by
  intro x hx hxpage heq
  have htail := (h.fits x (List.mem_cons_of_mem _ hx)).tail hxpage
  have hends := h.ends x (List.mem_cons_of_mem _ hx) hxpage
  rw [heq, hempty, ← heq, htail.ends] at hends
  exact htail.offset_ne hends.symm

theorem needsSwa_eq (seg : Segment) {page : Nat}
    (h : if seg.page < 0 then led.swaPage page = 0 else page = seg.page.toNat) :
    needsSwa led seg = decide (led.swaPage page = 0) := by
  unfold needsSwa
  split at h
  · rename_i hneg
    simp [hneg, h]
  · rename_i hneg
    simp [hneg, h]

/-- The page a segment is placed on, and what is reserved after it. -/
theorem placed_page {cur : RankLedger} {pages : List Nat} {k : Nat} {reservedSwa : List Nat}
    {live : Finset Nat} {seg : Segment} {rest : List Segment} {page : Nat}
    (hcur : Tracks g cur (pages.drop k) reservedSwa live)
    (hcommit : Committing g led cur (seg :: rest)) (hfresh : FreshFrom k (seg :: rest))
    (hblank : ∀ page ∈ pages, led.swaPage page = 0)
    (hpage : (if seg.page < 0 then pages[(-seg.page - 1).toNat]? else some seg.page.toNat) =
      some page) :
    g.InPool page ∧ cur.ends page = seg.offset ∧ cur.swaPage page = led.swaPage page ∧
      needsSwa led seg = decide (led.swaPage page = 0) ∧
      (∀ x ∈ rest, 0 ≤ x.page → x.page.toNat ≠ page) ∧
      (if seg.page < 0 then seg.offset = 0 ∧ pages.drop k = page :: pages.drop (k + 1)
        else seg.offset ≠ 0) := by
  have hfits := hcommit.fits seg List.mem_cons_self
  by_cases hneg : seg.page < 0
  · rw [if_pos hneg, (hfresh.head hneg).1, freshId_index] at hpage
    have hdrop : pages.drop k = page :: pages.drop (k + 1) := by
      obtain ⟨hk, heq⟩ := List.getElem?_eq_some_iff.mp hpage
      rw [List.drop_eq_getElem_cons hk, heq]
    have hfree := (hcur.pages_iff page).mp (by simp [hdrop])
    have hzero := hblank page (List.mem_of_getElem? hpage)
    refine ⟨hfree.1, ?_, ?_, needsSwa_eq seg (by simp [hneg, hzero]),
      hcommit.other_of_empty hfree.2, ?_⟩
    · rw [hfree.2, hfits.fresh hneg]
    · rw [hzero, hcur.swa_zero_of_ends hfree.1 hfree.2]
    · rw [if_pos hneg]
      exact ⟨hfits.fresh hneg, hdrop⟩
  · rw [if_neg hneg] at hpage
    have hpage := Option.some.inj hpage
    have hpos : 0 ≤ seg.page := by omega
    have htail := hfits.tail hpos
    subst hpage
    refine ⟨htail.inPool, ?_, hcommit.swaPage seg List.mem_cons_self hpos,
      needsSwa_eq seg (by simp [hneg]), hcommit.other_of_tail hpos, ?_⟩
    · rw [hcommit.ends seg List.mem_cons_self hpos, htail.ends]
    · rw [if_neg hneg]
      exact htail.offset_ne

/-- Committing all segments keeps the invariant and uses up what they need. -/
theorem tracks_commit {pages : List Nat} (hblank : ∀ page ∈ pages, led.swaPage page = 0)
    {segments : List Segment} {k : Nat} {cur : RankLedger} {reservedSwa : List Nat}
    {live : Finset Nat} {writes : List PageWrite}
    (hcur : Tracks g cur (pages.drop k) reservedSwa live)
    (hcommit : Committing g led cur segments) (hfresh : FreshFrom k segments)
    (hplace : placeSegments led pages reservedSwa segments = .ok writes) :
    Tracks g (writes.foldl (commitWrite g) cur)
      (pages.drop (k + segments.countP fun seg => seg.page < 0))
      (reservedSwa.drop (segments.countP (needsSwa led)))
      (live ∪ (writes.flatMap (·.locs g)).toFinset) := by
  induction segments generalizing k cur reservedSwa live writes with
  | nil =>
    cases hplace
    simpa using hcur
  | cons seg rest ih =>
    unfold placeSegments at hplace
    dsimp only at hplace
    split at hplace
    · cases hplace
    · rename_i page hpage
      obtain ⟨hpool, hends, hswa, hneeds, hother, hreserved⟩ :=
        placed_page hcur hcommit hfresh hblank hpage
      have hfits := hcommit.fits seg List.mem_cons_self
      -- the pages that stay reserved, and the segments on them
      have hnext : ∃ k', FreshFrom k' rest ∧
          k + (seg :: rest).countP (fun seg => seg.page < 0) =
            k' + rest.countP (fun seg => seg.page < 0) ∧
          ((seg.offset = 0 ∧ pages.drop k = page :: pages.drop k') ∨
            (seg.offset ≠ 0 ∧ pages.drop k = pages.drop k')) := by
        by_cases hneg : seg.page < 0
        · rw [if_pos hneg] at hreserved
          refine ⟨k + 1, (hfresh.head hneg).2, ?_, .inl hreserved⟩
          rw [List.countP_cons_of_pos (by simpa using hneg)]
          omega
        · rw [if_neg hneg] at hreserved
          refine ⟨k, hfresh.tail hneg, ?_, .inr ⟨hreserved, rfl⟩⟩
          rw [List.countP_cons_of_neg (by simpa using hneg)]
      obtain ⟨k', hfresh', hcount, hpages⟩ := hnext
      rw [hcount]
      split at hplace
      · rename_i hmapped
        obtain ⟨later, hlater, rfl⟩ := map_eq_ok.mp hplace
        have hw : WriteFits g cur ⟨page, led.swaPage page, seg.offset, seg.count⟩
            (pages.drop k) reservedSwa (pages.drop k') reservedSwa :=
          ⟨hpool, hends, hfits.count_pos, hfits.bound, hpages,
            .inr ⟨by rw [hswa]; exact hmapped, hswa.symm, rfl⟩⟩
        have hrest := ih (hw.tracks hcur) (hcommit.write hother) hfresh' hlater
        rw [List.countP_cons_of_neg (by rw [hneeds]; simpa using hmapped), List.foldl_cons,
          List.flatMap_cons, List.toFinset_append, ← Finset.union_assoc]
        exact hrest
      · rename_i hzero
        split at hplace
        · cases hplace
        · rename_i swa reservedSwa'
          obtain ⟨later, hlater, rfl⟩ := map_eq_ok.mp hplace
          have hzero : led.swaPage page = 0 := by simpa using hzero
          have hw : WriteFits g cur ⟨page, swa, seg.offset, seg.count⟩
              (pages.drop k) (swa :: reservedSwa') (pages.drop k') reservedSwa' :=
            ⟨hpool, hends, hfits.count_pos, hfits.bound, hpages,
              .inl ⟨by rw [hswa]; exact hzero, rfl⟩⟩
          have hrest := ih (hw.tracks hcur) (hcommit.write hother) hfresh' hlater
          rw [List.countP_cons_of_pos (by rw [hneeds]; simpa using hzero), List.foldl_cons,
            List.flatMap_cons, List.toFinset_append, ← Finset.union_assoc]
          exact hrest

end SglJax.MemCache.DeepseekV4
