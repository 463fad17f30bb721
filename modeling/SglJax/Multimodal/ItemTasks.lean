import SglJax.Multimodal.MultimodalData

/-! Where the media of a batch go: the part of a prompt that a prefill computes is a window
of the token batch, and the placeholders in it say which row of an item belongs where. -/
namespace SglJax.Multimodal

structure MergeMapping where
  sourceStart : Nat
  destinationStart : Nat
  length : Nat
deriving DecidableEq, Repr

/-- Row `k` of the source goes to token `d`. -/
abbrev MergeMapping.Lands (m : MergeMapping) (d k : Nat) : Prop :=
  m.destinationStart ≤ d ∧ d < m.destinationStart + m.length ∧
    k = m.sourceStart + (d - m.destinationStart)

def Lands (mappings : List MergeMapping) (d k : Nat) : Prop := ∃ m ∈ mappings, m.Lands d k

variable {F : Type}

structure ItemTask (F : Type) where
  item : MultimodalDataItem F
  outputLen : Nat
  mergeMappings : List MergeMapping
  nonempty : mergeMappings ≠ []

namespace ItemTask

def hasUnmergedTail (task : ItemTask F) : Bool :=
  let last := task.mergeMappings.getLast task.nonempty
  last.sourceStart + last.length < task.outputLen

end ItemTask

/-- The loop of `build_item_task`, from the rows of the ranges before: the mappings, and the
rows in all. -/
def itemMappings (tokenBase chunkStart chunkEnd : Nat) : List PlaceholderRange → Nat →
    List MergeMapping × Nat
  | [], outputLen => ([], outputLen)
  | r :: ranges, outputLen =>
    let overlapStart := max r.start chunkStart
    let overlapEnd := min r.stop chunkEnd
    let rest := itemMappings tokenBase chunkStart chunkEnd ranges (outputLen + (r.stop - r.start))
    if overlapStart < overlapEnd then
      (⟨outputLen + overlapStart - r.start, tokenBase + overlapStart - chunkStart,
        overlapEnd - overlapStart⟩ :: rest.1, rest.2)
    else rest

def buildItemTask (item : MultimodalDataItem F) (tokenBase chunkStart chunkEnd : Nat) :
    Option (ItemTask F) :=
  let mappings := itemMappings tokenBase chunkStart chunkEnd (item.placeholderRanges.getD []) 0
  if h : mappings.1 ≠ [] then some ⟨item, mappings.2, mappings.1, h⟩ else none

section

variable {tokenBase chunkStart chunkEnd : Nat} {r : PlaceholderRange}
    {ranges : List PlaceholderRange} {outputLen : Nat}

theorem itemMappings_cons_of_overlap (h : max r.start chunkStart < min r.stop chunkEnd) :
    itemMappings tokenBase chunkStart chunkEnd (r :: ranges) outputLen =
      (⟨outputLen + max r.start chunkStart - r.start,
        tokenBase + max r.start chunkStart - chunkStart,
        min r.stop chunkEnd - max r.start chunkStart⟩ ::
          (itemMappings tokenBase chunkStart chunkEnd ranges (outputLen + r.size)).1,
        (itemMappings tokenBase chunkStart chunkEnd ranges (outputLen + r.size)).2) :=
  if_pos h

theorem itemMappings_cons_of_apart (h : ¬ max r.start chunkStart < min r.stop chunkEnd) :
    itemMappings tokenBase chunkStart chunkEnd (r :: ranges) outputLen =
      itemMappings tokenBase chunkStart chunkEnd ranges (outputLen + r.size) :=
  if_neg h

end

theorem lands_cons {m : MergeMapping} {mappings : List MergeMapping} {d k : Nat} :
    Lands (m :: mappings) d k ↔ m.Lands d k ∨ Lands mappings d k := by
  simp [Lands]

/-- The mappings of the ranges that are left put row `k` where position `k` of these ranges
stands in the chunk. -/
theorem lands_itemMappings {tokenBase chunkStart chunkEnd d k : Nat}
    (ranges : List PlaceholderRange) (outputLen : Nat) :
    Lands (itemMappings tokenBase chunkStart chunkEnd ranges outputLen).1 d k ↔
      ∃ p, chunkStart ≤ p ∧ p < chunkEnd ∧ d = tokenBase + (p - chunkStart) ∧ outputLen ≤ k ∧
        (ranges.flatMap PlaceholderRange.positions)[k - outputLen]? = some p := by
  induction ranges generalizing outputLen with
  | nil => simp [itemMappings, Lands]
  | cons r ranges ih =>
    have hle := r.le
    have hsplit (p : Nat) (h : outputLen ≤ k) :
        ((r :: ranges).flatMap PlaceholderRange.positions)[k - outputLen]? = some p ↔
          (k - outputLen < r.size ∧ p = r.start + (k - outputLen)) ∨
          (outputLen + r.size ≤ k ∧
            (ranges.flatMap PlaceholderRange.positions)[k - (outputLen + r.size)]? = some p) := by
      rw [List.flatMap_cons]
      by_cases hlt : k - outputLen < r.size
      · rw [List.getElem?_append_left (by simpa using hlt), r.getElem?_positions]
        simp only [hlt, true_and]
        constructor
        · exact .inl
        · rintro (h | h)
          · exact h
          · omega
      · rw [List.getElem?_append_right (by simpa using hlt), r.length_positions, Nat.sub_sub]
        simp only [hlt, false_and, false_or]
        exact ⟨fun h => ⟨by omega, h⟩, fun h => h.2⟩
    have hsize : r.size = r.stop - r.start := rfl
    by_cases hoverlap : max r.start chunkStart < min r.stop chunkEnd
    · rw [itemMappings_cons_of_overlap hoverlap, lands_cons, ih]
      simp only [MergeMapping.Lands]
      constructor
      · rintro (⟨hd, hd', rfl⟩ | ⟨p, hp, hp', hpd, hk, hget⟩)
        · refine ⟨chunkStart + (d - tokenBase), by omega, by omega, by omega, by omega, ?_⟩
          rw [hsplit _ (by omega)]
          exact .inl ⟨by omega, by omega⟩
        · refine ⟨p, hp, hp', hpd, by omega, ?_⟩
          rw [hsplit p (by omega)]
          exact .inr ⟨hk, hget⟩
      · rintro ⟨p, hp, hp', hpd, hk, hget⟩
        rcases (hsplit p hk).mp hget with ⟨hlt, rfl⟩ | ⟨hge, hget⟩
        · exact .inl ⟨by omega, by omega, by omega⟩
        · exact .inr ⟨p, hp, hp', hpd, hge, hget⟩
    · rw [itemMappings_cons_of_apart hoverlap, ih]
      constructor
      · rintro ⟨p, hp, hp', hpd, hk, hget⟩
        refine ⟨p, hp, hp', hpd, by omega, ?_⟩
        rw [hsplit p (by omega)]
        exact .inr ⟨hk, hget⟩
      · rintro ⟨p, hp, hp', hpd, hk, hget⟩
        rcases (hsplit p hk).mp hget with ⟨hlt, rfl⟩ | ⟨hge, hget⟩
        · omega
        · exact ⟨p, hp, hp', hpd, hge, hget⟩

theorem itemMappings_outputLen (tokenBase chunkStart chunkEnd : Nat)
    (ranges : List PlaceholderRange) (outputLen : Nat) :
    (itemMappings tokenBase chunkStart chunkEnd ranges outputLen).2 =
      outputLen + (ranges.flatMap PlaceholderRange.positions).length := by
  induction ranges generalizing outputLen with
  | nil => simp [itemMappings]
  | cons r ranges ih =>
    rw [List.flatMap_cons, List.length_append, r.length_positions, ← Nat.add_assoc]
    by_cases hoverlap : max r.start chunkStart < min r.stop chunkEnd
    · rw [itemMappings_cons_of_overlap hoverlap, ih]
    · rw [itemMappings_cons_of_apart hoverlap, ih]

theorem itemMappings_length_pos {tokenBase chunkStart chunkEnd outputLen : Nat}
    {ranges : List PlaceholderRange} :
    ∀ m ∈ (itemMappings tokenBase chunkStart chunkEnd ranges outputLen).1, 0 < m.length := by
  induction ranges generalizing outputLen with
  | nil => intro m hm; cases hm
  | cons r ranges ih =>
    intro m hm
    by_cases hoverlap : max r.start chunkStart < min r.stop chunkEnd
    · rw [itemMappings_cons_of_overlap hoverlap] at hm
      rcases List.mem_cons.mp hm with rfl | hm
      · exact Nat.sub_pos_of_lt hoverlap
      · exact ih m hm
    · rw [itemMappings_cons_of_apart hoverlap] at hm
      exact ih m hm

/-- A request in the batch: the part of its prompt that is computed, where that part begins
among the tokens, and the items of its `mm_inputs`. -/
structure Window (F : Type) where
  base : Nat
  start : Nat
  stop : Nat
  items : List (MultimodalDataItem F)

namespace Window

def tasks (w : Window F) : List (ItemTask F) :=
  w.items.filterMap fun item => buildItemTask item w.base w.start w.stop

/-- Token `d` is position `p` of the prompt. -/
def Reads (w : Window F) (d p : Nat) : Prop :=
  w.start ≤ p ∧ p < w.stop ∧ d = w.base + (p - w.start)

end Window

/-- The task of an item in a window. -/
structure ItemTask.Of (task : ItemTask F) (w : Window F) : Prop where
  item_mem : task.item ∈ w.items
  outputLen : task.outputLen = task.item.positions.length
  length_pos : ∀ m ∈ task.mergeMappings, 0 < m.length
  lands : ∀ d k, Lands task.mergeMappings d k ↔
    ∃ p, w.Reads d p ∧ task.item.positions[k]? = some p

theorem lands_item (item : MultimodalDataItem F) (w : Window F) (d k : Nat) :
    Lands (itemMappings w.base w.start w.stop (item.placeholderRanges.getD []) 0).1 d k ↔
      ∃ p, w.Reads d p ∧ item.positions[k]? = some p := by
  rw [lands_itemMappings]
  simp [Window.Reads, MultimodalDataItem.positions, and_assoc]

/-- The tasks of a window are those of its items that have a placeholder in it. -/
theorem Window.of_mem_tasks {w : Window F} {task : ItemTask F} (h : task ∈ w.tasks) :
    task.Of w := by
  obtain ⟨item, hitem, hbuild⟩ := List.mem_filterMap.mp h
  simp only [buildItemTask] at hbuild
  split at hbuild
  · cases hbuild
    exact ⟨hitem, by rw [itemMappings_outputLen, Nat.zero_add]; rfl, itemMappings_length_pos,
      lands_item item w⟩
  · cases hbuild

theorem Window.exists_task {w : Window F} {item : MultimodalDataItem F} (hitem : item ∈ w.items)
    {d p k : Nat} (hreads : w.Reads d p) (hp : item.positions[k]? = some p) :
    ∃ task ∈ w.tasks, task.item = item ∧ Lands task.mergeMappings d k := by
  have hlands := (lands_item item w d k).mpr ⟨p, hreads, hp⟩
  have hne : (itemMappings w.base w.start w.stop (item.placeholderRanges.getD []) 0).1 ≠ [] := by
    obtain ⟨m, hm, -⟩ := hlands
    exact List.ne_nil_of_mem hm
  exact ⟨⟨item, _, _, hne⟩, List.mem_filterMap.mpr ⟨item, hitem, dif_pos hne⟩, rfl, hlands⟩

/-- A request as the batch has it. `mm_inputs` is held by its items, and is `None` where it is
not a `MultimodalInputs`. -/
structure MultimodalReq (F : Type) where
  prefixLen : Nat
  extendInputLen : Nat
  mmItems : Option (List (MultimodalDataItem F))

/-- The requests of a rank. The lists of lengths, where there are any, have one for each. -/
structure RankInfo (F : Type) where
  reqs : List (MultimodalReq F)
  prefixLens : Option (List Nat)
  extendLens : Option (List Nat)
  prefixLens_length : ∀ lens ∈ prefixLens, lens.length = reqs.length
  extendLens_length : ∀ lens ∈ extendLens, lens.length = reqs.length

namespace RankInfo

/-- `prefix_lens` and `extend_lens`, or what the requests say of themselves. -/
def prefixLengths (info : RankInfo F) : List Nat :=
  info.prefixLens.getD (info.reqs.map MultimodalReq.prefixLen)

def extendLengths (info : RankInfo F) : List Nat :=
  info.extendLens.getD (info.reqs.map MultimodalReq.extendInputLen)

end RankInfo

/-- The inner loop of `collect_item_tasks`: what it has for each request. -/
def reqWindows : Nat → List Nat → List Nat → List (MultimodalReq F) → List (Window F)
  | base, prefixLen :: prefixLengths, extendLen :: extendLengths, req :: reqs =>
    ⟨base, prefixLen, prefixLen + extendLen, req.mmItems.getD []⟩ ::
      reqWindows (base + extendLen) prefixLengths extendLengths reqs
  | _, _, _, _ => []

/-- The outer loop, from a given rank on. -/
def rankWindows (perDpToken : Nat) : Nat → List (RankInfo F) → List (Window F)
  | _, [] => []
  | dpRank, info :: infos =>
    reqWindows (dpRank * perDpToken) info.prefixLengths info.extendLengths info.reqs ++
      rankWindows perDpToken (dpRank + 1) infos

def windows (reqsInfo : Option (List (RankInfo F))) (dpSize perDpToken : Nat) :
    List (Window F) :=
  rankWindows perDpToken 0 ((reqsInfo.getD []).take dpSize)

def collectItemTasks (reqsInfo : Option (List (RankInfo F))) (dpSize perDpToken : Nat) :
    List (ItemTask F) :=
  (windows reqsInfo dpSize perDpToken).flatMap Window.tasks

namespace Window

def size (w : Window F) : Nat := w.stop - w.start

/-- The tokens of the one come before those of the other. -/
def Before (w w' : Window F) : Prop := w.base + w.size ≤ w'.base

theorem Reads.bounds {w : Window F} {d p : Nat} (h : w.Reads d p) :
    w.base ≤ d ∧ d < w.base + w.size := by
  obtain ⟨hstart, hstop, rfl⟩ := h
  unfold size
  omega

theorem Reads.unique {w : Window F} {d p p' : Nat} (h : w.Reads d p) (h' : w.Reads d p') :
    p = p' := by
  obtain ⟨hstart, -, hd⟩ := h
  obtain ⟨hstart', -, hd'⟩ := h'
  omega

end Window

theorem reqWindows_sorted (base : Nat) (prefixLengths extendLengths : List Nat)
    (reqs : List (MultimodalReq F)) :
    (reqWindows base prefixLengths extendLengths reqs).Pairwise Window.Before ∧
      ∀ w ∈ reqWindows base prefixLengths extendLengths reqs,
        base ≤ w.base ∧ w.base + w.size ≤ base + extendLengths.sum := by
  induction reqs generalizing base prefixLengths extendLengths with
  | nil => simp [reqWindows]
  | cons req reqs ih =>
    cases prefixLengths with
    | nil => simp [reqWindows]
    | cons prefixLen prefixLengths =>
      cases extendLengths with
      | nil => simp [reqWindows]
      | cons extendLen extendLengths =>
        obtain ⟨hsorted, hinside⟩ := ih (base + extendLen) prefixLengths extendLengths
        rw [reqWindows, List.sum_cons]
        refine ⟨List.pairwise_cons.mpr ⟨fun w hw => ?_, hsorted⟩, fun w hw => ?_⟩
        · have := hinside w hw
          simp only [Window.Before, Window.size]
          omega
        · rcases List.mem_cons.mp hw with rfl | hw
          · simp only [Window.size]
            omega
          · have := hinside w hw
            omega

theorem rankWindows_sorted {perDpToken : Nat} (dpRank : Nat) {infos : List (RankInfo F)}
    (hfits : ∀ info ∈ infos, info.extendLengths.sum ≤ perDpToken) :
    (rankWindows perDpToken dpRank infos).Pairwise Window.Before ∧
      ∀ w ∈ rankWindows perDpToken dpRank infos, dpRank * perDpToken ≤ w.base ∧
        w.base + w.size ≤ (dpRank + infos.length) * perDpToken := by
  induction infos generalizing dpRank with
  | nil => simp [rankWindows]
  | cons info infos ih =>
    obtain ⟨hsorted, hinside⟩ := ih (dpRank + 1) fun i hi => hfits i (List.mem_cons_of_mem info hi)
    obtain ⟨hsorted', hinside'⟩ := reqWindows_sorted (dpRank * perDpToken) info.prefixLengths
      info.extendLengths info.reqs
    have hfit := hfits info List.mem_cons_self
    have hnext : (dpRank + 1) * perDpToken = dpRank * perDpToken + perDpToken := by ring
    have hlast : (dpRank + (infos.length + 1)) * perDpToken =
        dpRank * perDpToken + perDpToken + infos.length * perDpToken := by ring
    have hlast' : (dpRank + 1 + infos.length) * perDpToken =
        dpRank * perDpToken + perDpToken + infos.length * perDpToken := by ring
    rw [rankWindows, List.length_cons, hlast]
    refine ⟨List.pairwise_append.mpr ⟨hsorted', hsorted, fun w hw w' hw' => ?_⟩, fun w hw => ?_⟩
    · have := hinside' w hw
      have := hinside w' hw'
      simp only [Window.Before]
      omega
    · rcases List.mem_append.mp hw with hw | hw
      · have := hinside' w hw
        omega
      · have := hinside w hw
        omega

/-- The tokens that a rank computes fit its part of the batch. -/
def RanksFit (reqsInfo : Option (List (RankInfo F))) (dpSize perDpToken : Nat) : Prop :=
  ∀ info ∈ (reqsInfo.getD []).take dpSize, info.extendLengths.sum ≤ perDpToken

section

variable {reqsInfo : Option (List (RankInfo F))} {dpSize perDpToken : Nat}

theorem windows_sorted (h : RanksFit reqsInfo dpSize perDpToken) :
    (windows reqsInfo dpSize perDpToken).Pairwise Window.Before :=
  (rankWindows_sorted 0 h).1

theorem windows_inside (h : RanksFit reqsInfo dpSize perDpToken) {w : Window F}
    (hw : w ∈ windows reqsInfo dpSize perDpToken) : w.base + w.size ≤ dpSize * perDpToken := by
  refine ((rankWindows_sorted 0 h).2 w hw).2.trans (Nat.mul_le_mul_right _ ?_)
  rw [Nat.zero_add, List.length_take]
  exact Nat.min_le_left _ _

/-- A token belongs to one request at most. -/
theorem windows_unique (h : RanksFit reqsInfo dpSize perDpToken) {w w' : Window F}
    (hw : w ∈ windows reqsInfo dpSize perDpToken) (hw' : w' ∈ windows reqsInfo dpSize perDpToken)
    {d p p' : Nat} (hreads : w.Reads d p) (hreads' : w'.Reads d p') : w = w' ∧ p = p' := by
  have hsame : w = w' := by
    by_contra hne
    have hbounds := hreads.bounds
    have hbounds' := hreads'.bounds
    have hapart : (windows reqsInfo dpSize perDpToken).Pairwise fun w w' : Window F =>
        w.Before w' ∨ w'.Before w := (windows_sorted h).imp .inl
    have hsymm : Std.Symm fun w w' : Window F => w.Before w' ∨ w'.Before w :=
      ⟨fun _ _ => Or.symm⟩
    rcases hapart.forall hw hw' hne with hbefore | hbefore <;> unfold Window.Before at hbefore <;>
      omega
  subst hsame
  exact ⟨rfl, hreads.unique hreads'⟩

end

end SglJax.Multimodal
