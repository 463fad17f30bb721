import SglJax.MemCache.DeepseekLedger

/-! Releases: a list of slots that passes the validation names all live slots of
the pages it touches, and releasing these pages keeps the ledger's invariant. -/
namespace SglJax.MemCache.DeepseekV4

variable {g : Geometry} {led : RankLedger} {live : Finset Nat}

/-! What is live on a page. -/

theorem Tracks.mem_page_iff (h : Tracks g led [] [] live) {page : Nat} (hpage : g.InPool page)
    (loc : Nat) : (loc ∈ live ∧ loc / g.pageSize = page) ↔
      page * g.pageSize + (led.ends page - led.swaLiveCount page) ≤ loc ∧
        loc < page * g.pageSize + (led.ends page - led.swaLiveCount page) +
          led.swaLiveCount page := by
  have hcount := h.count_le page hpage
  have hends := h.ends_le page hpage
  rw [mem_run_iff g (by omega), h.live_iff]
  constructor
  · rintro ⟨hlive, rfl⟩
    omega
  · rintro ⟨rfl, hlo, hhi⟩
    exact ⟨⟨hpage, by omega, by omega⟩, rfl⟩

theorem Tracks.card_page (h : Tracks g led [] [] live) {page : Nat} (hpage : g.InPool page) :
    (live.filter fun loc => loc / g.pageSize = page).card = led.swaLiveCount page := by
  have hrun : (live.filter fun loc => loc / g.pageSize = page) =
      Finset.Ico (page * g.pageSize + (led.ends page - led.swaLiveCount page))
        (page * g.pageSize + (led.ends page - led.swaLiveCount page) +
          led.swaLiveCount page) := by
    ext loc
    rw [Finset.mem_filter, Finset.mem_Ico, h.mem_page_iff hpage]
  rw [hrun, Nat.card_Ico]
  omega

/-! Releasing pages. -/

section FreeSwaPages

variable (led) (pages : List Nat)

theorem freeSwaPages_swaFree_perm : (freeSwaPages g led pages).swaFree.Perm
    (led.swaFree ++ (pages.filter fun page => led.swaPage page ≠ 0).map led.swaPage) := by
  unfold freeSwaPages
  dsimp only
  split
  · rename_i hnone
    rw [hnone, List.map_nil, List.append_nil]
  · exact List.perm_insertionSort _ _

@[simp] theorem freeSwaPages_freePages :
    (freeSwaPages g led pages).freePages = led.freePages := rfl

@[simp] theorem freeSwaPages_ends : (freeSwaPages g led pages).ends = led.ends := rfl

@[simp] theorem freeSwaPages_swaPage (page : Nat) : (freeSwaPages g led pages).swaPage page =
    if page ∈ pages then 0 else led.swaPage page := rfl

@[simp] theorem freeSwaPages_swaLiveCount (page : Nat) :
    (freeSwaPages g led pages).swaLiveCount page =
      if page ∈ pages then 0 else led.swaLiveCount page := rfl

theorem mem_freeSwaPages_swaFree {k : Nat} : k ∈ (freeSwaPages g led pages).swaFree ↔
    k ∈ led.swaFree ∨ ∃ page ∈ pages, led.swaPage page ≠ 0 ∧ led.swaPage page = k := by
  rw [(freeSwaPages_swaFree_perm led pages).mem_iff]
  simp [and_assoc]

end FreeSwaPages

theorem Tracks.freeSwaPages (h : Tracks g led [] [] live) {pages : List Nat}
    (hnodup : pages.Nodup) (hpool : ∀ page ∈ pages, g.InPool page) :
    Tracks g (freeSwaPages g led pages) [] []
      (live.filter fun loc => loc / g.pageSize ∉ pages) where
  pages_nodup := h.pages_nodup
  pages_iff := h.pages_iff
  ends_le := h.ends_le
  swa_nodup := by
    rw [List.nil_append, (freeSwaPages_swaFree_perm led pages).nodup_iff]
    apply List.Nodup.append h.swa_nodup
    · apply List.Nodup.map_on _ (hnodup.filter _)
      intro page hpage page' hpage' heq
      have hin := List.mem_filter.mp hpage
      have hin' := List.mem_filter.mp hpage'
      exact h.swa_inj page page' (hpool page hin.1) (hpool page' hin'.1) (by simpa using hin.2) heq
    · intro k hfree hmapped
      obtain ⟨page, hpage, rfl⟩ := List.mem_map.mp hmapped
      exact ((h.swa_iff _).mp hfree).2 page (hpool page (List.mem_filter.mp hpage).1) rfl
  swa_iff := by
    intro k
    rw [List.nil_append, mem_freeSwaPages_swaFree]
    constructor
    · rintro (hfree | ⟨page, hpage, hne, rfl⟩)
      · have hold := (h.swa_iff k).mp hfree
        refine ⟨hold.1, fun page hpage => ?_⟩
        rw [freeSwaPages_swaPage]
        split
        · omega
        · exact hold.2 page hpage
      · refine ⟨⟨Nat.pos_of_ne_zero hne, h.swa_le page (hpool page hpage)⟩, fun other hother => ?_⟩
        rw [freeSwaPages_swaPage]
        split
        · exact Ne.symm hne
        · rename_i hout
          intro heq
          exact hout (h.swa_inj page other (hpool page hpage) hother hne heq.symm ▸ hpage)
    · rintro ⟨hrange, hall⟩
      by_cases hused : ∃ page, g.InPool page ∧ led.swaPage page = k
      · obtain ⟨page, hpage, rfl⟩ := hused
        have hnew := hall page hpage
        rw [freeSwaPages_swaPage] at hnew
        by_cases hin : page ∈ pages
        · exact .inr ⟨page, hin, by omega, rfl⟩
        · rw [if_neg hin] at hnew
          exact absurd rfl hnew
      · push Not at hused
        exact .inl ((h.swa_iff k).mpr ⟨hrange, hused⟩)
  swa_le := by
    intro page hpage
    rw [freeSwaPages_swaPage]
    split
    · exact Nat.zero_le _
    · exact h.swa_le page hpage
  swa_inj := by
    intro page page' hpage hpage' hne heq
    rw [freeSwaPages_swaPage] at hne heq
    rw [freeSwaPages_swaPage] at heq
    by_cases hin : page ∈ pages
    · simp [hin] at hne
    · rw [if_neg hin] at hne heq
      by_cases hin' : page' ∈ pages
      · rw [if_pos hin'] at heq
        exact absurd heq hne
      · rw [if_neg hin'] at heq
        exact h.swa_inj page page' hpage hpage' hne heq
  count_zero := by
    intro page hpage
    rw [freeSwaPages_swaLiveCount, freeSwaPages_swaPage]
    split
    · exact Iff.rfl
    · exact h.count_zero page hpage
  count_le := by
    intro page hpage
    rw [freeSwaPages_swaLiveCount]
    split
    · exact Nat.zero_le _
    · exact h.count_le page hpage
  live_iff := by
    intro loc
    rw [Finset.mem_filter, h.live_iff, freeSwaPages_swaLiveCount, freeSwaPages_ends]
    split
    · rename_i hin
      simp only [hin, not_true_eq_false, and_false, false_iff]
      omega
    · rename_i hout
      simp [hout]
  mapping_eq := by
    intro loc
    have hmap : (DeepseekV4.freeSwaPages g led pages).mapping loc =
        if loc / g.pageSize ∈ pages.filter fun page => led.swaPage page ≠ 0 then 0
        else led.mapping loc := rfl
    rw [hmap, freeSwaPages_swaPage]
    by_cases hin : loc / g.pageSize ∈ pages
    · have hdead : loc ∉ live.filter fun loc => loc / g.pageSize ∉ pages := by simp [hin]
      rw [if_neg hdead]
      split
      · rfl
      · rename_i hzero
        -- a page without an SWA page has no live slot
        rw [h.mapping_eq, if_neg]
        intro hlive
        have hne := (h.mapping_ne_zero_iff loc).mpr hlive
        have hloc := (h.live_iff loc).mp hlive
        have hcount : led.swaLiveCount (loc / g.pageSize) ≠ 0 := by omega
        have hswa := mt (h.count_zero _ hloc.1).mpr hcount
        exact hzero (List.mem_filter.mpr ⟨hin, by simpa using hswa⟩)
    · have hout : loc / g.pageSize ∉ pages.filter fun page => led.swaPage page ≠ 0 :=
        fun hc => hin (List.mem_filter.mp hc).1
      have hmem : loc ∈ (live.filter fun loc => loc / g.pageSize ∉ pages) ↔ loc ∈ live := by
        simp [hin]
      rw [if_neg hout, h.mapping_eq]
      simp only [hmem, if_neg hin]

/-- Pages without SWA slots go back to the history free list. -/
theorem Tracks.freeHistory (h : Tracks g led [] [] live) {pages : List Nat}
    (hnodup : pages.Nodup) (hpool : ∀ page ∈ pages, g.InPool page)
    (hends : ∀ page ∈ pages, led.ends page ≠ 0) (hswa : ∀ page ∈ pages, led.swaPage page = 0) :
    Tracks g { led with
      ends := fun page => if page ∈ pages then 0 else led.ends page
      freePages := (led.freePages ++ pages).insertionSort (· ≤ ·) } [] [] live where
  pages_nodup := by
    rw [List.nil_append, (List.perm_insertionSort _ _).nodup_iff]
    apply List.Nodup.append h.pages_nodup hnodup
    intro page hfree hin
    exact hends page hin ((h.pages_iff page).mp hfree).2
  pages_iff := by
    intro page
    have hold := h.pages_iff page
    rw [List.nil_append] at hold ⊢
    rw [(List.perm_insertionSort _ _).mem_iff, List.mem_append, hold]
    dsimp only
    by_cases hin : page ∈ pages
    · simp [hin, hpool page hin]
    · simp [hin]
  ends_le := by
    intro page hpage
    dsimp only
    split
    · exact Nat.zero_le _
    · exact h.ends_le page hpage
  swa_nodup := h.swa_nodup
  swa_iff := h.swa_iff
  swa_le := h.swa_le
  swa_inj := h.swa_inj
  count_zero := h.count_zero
  count_le := by
    intro page hpage
    dsimp only
    split
    · rename_i hin
      rw [(h.count_zero page hpage).mpr (hswa page hin)]
    · exact h.count_le page hpage
  live_iff := by
    intro loc
    dsimp only
    rw [h.live_iff]
    split
    · rename_i hin
      constructor
      · rintro ⟨hpage, hlo, hhi⟩
        have hzero := (h.count_zero _ hpage).mpr (hswa _ hin)
        omega
      · rintro ⟨_, _, hhi⟩
        omega
    · exact Iff.rfl
  mapping_eq := h.mapping_eq

theorem Tracks.freeFullPages (h : Tracks g led [] [] live) {pages : List Nat}
    (hnodup : pages.Nodup) (hpool : ∀ page ∈ pages, g.InPool page) :
    Tracks g (freeFullPages g led pages) [] []
      (live.filter fun loc => loc / g.pageSize ∉ pages) := by
  -- only pages that are in use have live slots
  have hlive : (live.filter fun loc => loc / g.pageSize ∉ pages) =
      live.filter fun loc => loc / g.pageSize ∉ pages.filter fun page => led.ends page ≠ 0 := by
    apply Finset.filter_congr
    intro loc hloc
    have hends := (h.live_iff loc).mp hloc
    have hne : led.ends (loc / g.pageSize) ≠ 0 := by omega
    simp [hne]
  have hsub : ∀ page ∈ pages.filter fun page => led.ends page ≠ 0, g.InPool page :=
    fun page hpage => hpool page (List.mem_filter.mp hpage).1
  rw [hlive]
  unfold DeepseekV4.freeFullPages
  dsimp only
  split
  · rename_i hnone
    rw [hnone]
    simpa using h
  · have hswaFreed := h.freeSwaPages (hnodup.filter _) hsub
    refine hswaFreed.freeHistory (hnodup.filter _) hsub (fun page hpage => ?_) fun page hpage => ?_
    · simpa using (List.mem_filter.mp hpage).2
    · rw [freeSwaPages_swaPage, if_pos hpage]

/-! The validation. -/

theorem mem_uniqueIndices {indices : NdArray} {loc : Nat} :
    loc ∈ uniqueIndices indices ↔ loc ∈ indices.values.map (·.toNat) := by
  unfold uniqueIndices
  rw [(List.perm_insertionSort _ _).mem_iff, List.mem_dedup]

theorem nodup_uniqueIndices (indices : NdArray) : (uniqueIndices indices).Nodup := by
  unfold uniqueIndices
  rw [(List.perm_insertionSort _ _).nodup_iff]
  exact List.nodup_dedup _

theorem checkPages_ok {swaOnly : Bool} {unique pages : List Nat}
    (h : checkPages g led swaOnly unique pages = .ok ()) :
    ∀ page ∈ pages, checkPage g led swaOnly unique page = .ok () := by
  induction pages with
  | nil => simp
  | cons page rest ih =>
    unfold checkPages at h
    split at h
    · cases h
    · rename_i hpage
      intro x hx
      rcases List.mem_cons.mp hx with rfl | hx
      · exact hpage
      · exact ih h x hx

/-- A sublist without repetitions that has as many members as a finite set it lies
in covers the set. -/
theorem mem_of_countP_eq {l : List Nat} (hnodup : l.Nodup) {p : Nat → Bool} {s : Finset Nat}
    (hsub : ∀ x ∈ l, p x = true → x ∈ s) (hcount : l.countP p = s.card) {x : Nat} (hx : x ∈ s) :
    x ∈ l := by
  have hcard : (l.filter p).toFinset.card = s.card := by
    rw [List.toFinset_card_of_nodup (hnodup.filter _), ← List.countP_eq_length_filter, hcount]
  have hincl : (l.filter p).toFinset ⊆ s := by
    intro y hy
    have hy := List.mem_filter.mp (List.mem_toFinset.mp hy)
    exact hsub y hy.1 hy.2
  have heq := Finset.eq_of_subset_of_card_le hincl hcard.ge
  rw [← heq, List.mem_toFinset] at hx
  exact (List.mem_filter.mp hx).1

theorem checkPage_le {swaOnly : Bool} {unique : List Nat} {page : Nat}
    (h : checkPage g led swaOnly unique page = .ok ()) : page ≤ g.pagesPerRank := by
  unfold checkPage at h
  by_contra hlt
  rw [if_pos (by omega)] at h
  cases h

/-- How many slots of the page `free_swa` must be given. -/
theorem checkPage_swa {unique : List Nat} {page : Nat}
    (h : checkPage g led true unique page = .ok ()) :
    (unique.filter fun loc => loc / g.pageSize = page).countP (fun loc => led.mapping loc ≠ 0) =
      led.swaLiveCount page := by
  have hle := checkPage_le h
  unfold checkPage at h
  rw [if_neg (by omega)] at h
  simp only [if_true] at h
  by_contra hne
  rw [if_pos hne] at h
  cases h

/-- How many slots of the page `free` must be given. -/
theorem checkPage_full {unique : List Nat} {page : Nat}
    (h : checkPage g led false unique page = .ok ()) :
    (unique.filter fun loc => loc / g.pageSize = page).countP
      (fun loc => loc < page * g.pageSize + led.ends page) = led.ends page := by
  have hle := checkPage_le h
  unfold checkPage at h
  rw [if_neg (by omega)] at h
  simp only [Bool.false_eq_true, if_false] at h
  by_contra hne
  rw [if_pos hne] at h
  cases h

/-- Under both coverage rules, a page that passes has all its live slots named. -/
theorem checkPage_covers (h : Tracks g led [] [] live) {swaOnly : Bool} {unique : List Nat}
    (hnodup : unique.Nodup) {page : Nat} (hpage : g.InPool page)
    (hcheck : checkPage g led swaOnly unique page = .ok ()) {loc : Nat} (hloc : loc ∈ live)
    (hin : loc / g.pageSize = page) : loc ∈ unique := by
  have hreq : (unique.filter fun loc => loc / g.pageSize = page).Nodup := hnodup.filter _
  cases swaOnly with
  | true =>
    have hcovered := checkPage_swa hcheck
    rw [← h.card_page hpage] at hcovered
    have hmem := mem_of_countP_eq hreq (fun x hx hne => ?_) hcovered
      (Finset.mem_filter.mpr ⟨hloc, hin⟩)
    · exact (List.mem_filter.mp hmem).1
    · refine Finset.mem_filter.mpr ⟨(h.mapping_ne_zero_iff x).mp (of_decide_eq_true hne), ?_⟩
      exact of_decide_eq_true (List.mem_filter.mp hx).2
  | false =>
    have hcovered := checkPage_full hcheck
    have hdiv := Nat.div_add_mod' loc g.pageSize
    have hends := ((h.live_iff loc).mp hloc).2.2
    rw [hin] at hdiv hends
    have hcard : (Finset.Ico (page * g.pageSize) (page * g.pageSize + led.ends page)).card =
        led.ends page := by
      rw [Nat.card_Ico]
      omega
    have hwritten : loc ∈ Finset.Ico (page * g.pageSize) (page * g.pageSize + led.ends page) := by
      rw [Finset.mem_Ico]
      omega
    have hmem := mem_of_countP_eq hreq (fun x hx hlt => ?_) (hcovered.trans hcard.symm) hwritten
    · exact (List.mem_filter.mp hmem).1
    · have hxpage := of_decide_eq_true (List.mem_filter.mp hx).2
      have hxdiv := Nat.div_add_mod' x g.pageSize
      rw [hxpage] at hxdiv
      exact Finset.mem_Ico.mpr ⟨by omega, of_decide_eq_true hlt⟩

/-- What `_release_pages` returns are the pages of the named slots, each once and
within the pool, and taking these pages is taking the named slots. -/
theorem releasePages_spec (h : Tracks g led [] [] live) {indices : NdArray} {swaOnly : Bool}
    {pages : List Nat} (hok : releasePages g led indices swaOnly = .ok pages) :
    pages.Nodup ∧ (∀ page ∈ pages, g.InPool page) ∧
      (live.filter fun loc => loc / g.pageSize ∉ pages) =
        live \ (indices.values.map (·.toNat)).toFinset := by
  unfold releasePages at hok
  split at hok
  · cases hok
  · split at hok
    · cases hok
    · rename_i hrange
      dsimp only at hok
      split at hok
      · cases hok
      · rename_i hchecks
        cases hok
        have hpages := checkPages_ok hchecks
        have hmem : ∀ page, page ∈ ((uniqueIndices indices).map (· / g.pageSize)).dedup ↔
            ∃ loc ∈ uniqueIndices indices, loc / g.pageSize = page := by
          intro page
          rw [List.mem_dedup, List.mem_map]
        have hpool : ∀ page ∈ ((uniqueIndices indices).map (· / g.pageSize)).dedup,
            g.InPool page := by
          intro page hpage
          obtain ⟨loc, hloc, rfl⟩ := (hmem page).mp hpage
          constructor
          · obtain ⟨i, hi, rfl⟩ := List.mem_map.mp (mem_uniqueIndices.mp hloc)
            have hbound : ¬ (i < g.pageSize ∨ (g.mappingLen : Int) ≤ i) := by
              intro hout
              apply hrange
              rw [List.any_eq_true]
              exact ⟨i, hi, by simpa using hout⟩
            apply (Nat.one_le_div_iff g.pageSize_pos).mpr
            omega
          · exact checkPage_le (hpages _ hpage)
        refine ⟨List.nodup_dedup _, hpool, ?_⟩
        ext loc
        rw [Finset.mem_filter, Finset.mem_sdiff, List.mem_toFinset, ← mem_uniqueIndices]
        refine and_congr_right fun hloc => not_congr ?_
        constructor
        · intro hpage
          exact checkPage_covers h (nodup_uniqueIndices indices) (hpool _ hpage)
            (hpages _ hpage) hloc rfl
        · intro hin
          exact (hmem _).mpr ⟨loc, hin, rfl⟩

end SglJax.MemCache.DeepseekV4
