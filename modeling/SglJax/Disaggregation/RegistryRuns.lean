import SglJax.Disaggregation.TransferRegistry

/-! What the bundles of the registry look like after any run, and what a registration
does to them. -/
namespace SglJax.Disaggregation.TransferRegistry

variable {μ : Type}

/-! ### Runs -/

inductive Op (μ : Type) where
  | register (now : ℚ) (info : TransferInfo μ)
  | get (now : ℚ) (key : Key)
  | pop (key : Key) (expectedTransferId : Option String)

def Registry.apply [DecidableEq μ] (registry : Registry μ) : Op μ → Registry μ
  | .register now info => (registry.registerTransfer now info).1
  | .get now key => (registry.getTransfer now key).1
  | .pop key expectedTransferId => (registry.popRoom key expectedTransferId).1

/-- The states of the runs whose steps all meet `ok`. -/
inductive Reaches [DecidableEq μ] (ok : Registry μ → Op μ → Prop) (transferTtlSeconds : ℚ) :
    Registry μ → Prop where
  | start : Reaches ok transferTtlSeconds (.new transferTtlSeconds)
  | step {registry : Registry μ} (op : Op μ) (hrun : Reaches ok transferTtlSeconds registry)
      (hok : ok registry op) : Reaches ok transferTtlSeconds (registry.apply op)

/-! ### Bundles -/

/-- What every chunk of a bundle has in common with it. -/
structure Bundle.Fits (bundle : Bundle μ) (index : Int) (info : TransferInfo μ) : Prop where
  sameBase : info.base = bundle.baseTransferId
  ownIndex : info.chunkIndex = index
  /-- A transfer that is not cut into chunks keeps its own id. -/
  ownId : info.transferId = bundle.baseTransferId ∨
    parseChunkTransferId info.transferId = .ok (bundle.baseTransferId, index)
  count : info.numChunks ≠ 0 → bundle.numChunks = info.numChunks
  pages : info.expectedTotalPages ≠ 0 → bundle.expectedTotalPages = info.expectedTotalPages

def Bundle.WellFormed (bundle : Bundle μ) : Prop :=
  ∀ index info, bundle.chunks index = some info → bundle.Fits index info

def Registry.WellFormed (registry : Registry μ) : Prop :=
  ∀ key bundle, registry.transfers key = some bundle → bundle.WellFormed

/-- No chunk lies behind the last one. -/
def Bundle.Counted (bundle : Bundle μ) : Prop :=
  bundle.numChunks ≠ 0 →
    ∀ index, (bundle.chunks index).isSome → index < bundle.numChunks

def Registry.Counted (registry : Registry μ) : Prop :=
  ∀ key bundle, registry.transfers key = some bundle → bundle.Counted

/-- When the last chunk is registered, no chunk with a larger index is stored. -/
def LastIsLargest (registry : Registry μ) : Op μ → Prop
  | .register now info =>
    info.numChunks ≠ 0 → ∀ bundle,
      (registry.evictStaleTransfers now).currentBundle info = some bundle →
        ∀ index, (bundle.chunks index).isSome → index < info.numChunks
  | _ => True

/-! ### Eviction and removal -/

variable {registry registry' : Registry μ} {bundle : Bundle μ} {info : TransferInfo μ} {now : ℚ}

theorem transfers_evict {key : Key}
    (h : (registry.evictStaleTransfers now).transfers key = some bundle) :
    registry.transfers key = some bundle := by
  unfold Registry.evictStaleTransfers at h
  dsimp only at h
  split at h
  · cases h
  · exact h

theorem transfers_pop {key key' : Key} {expectedTransferId : Option String}
    (h : (registry.popRoom key expectedTransferId).1.transfers key' = some bundle) :
    registry.transfers key' = some bundle := by
  unfold Registry.popRoom at h
  dsimp only at h
  split at h
  · exact h
  · dsimp only at h
    by_cases hkey : key' = key
    · rw [hkey, Function.update_self] at h
      cases h
    · rwa [Function.update_of_ne hkey] at h

/-! ### Registration -/

theorem currentBundle_eq_some :
    registry.currentBundle info = some bundle ↔
      registry.transfers info.key = some bundle ∧ bundle.baseTransferId = info.base := by
  simp [Registry.currentBundle, Option.filter_eq_some_iff]

/-- What the checks of a payload let pass. -/
theorem infoCheck_ok (h : info.check = .ok ()) :
    (info.numChunks ≠ 0 → info.numChunks = info.chunkIndex + 1) ∧
      info.expectedTransferId = .ok info.transferId := by
  unfold TransferInfo.check at h
  split at h
  · cases h
  · split at h
    · cases h
    · split at h
      · cases h
      · split at h
        · cases h
        · split at h
          · cases h
          · split at h
            · cases h
            · rename_i hlast
              split at h
              · cases h
              · rename_i expected hexpected
                split at h
                · cases h
                · rename_i hid
                  rw [hexpected, ← not_not.mp hid]
                  exact ⟨fun hfinal => by_contra fun hne => hlast ⟨hfinal, hne⟩, rfl⟩

theorem check_id (h : info.check = .ok ()) :
    info.transferId = info.base ∨
      parseChunkTransferId info.transferId = .ok (info.base, info.chunkIndex) := by
  have hexpected := (infoCheck_ok h).2
  unfold TransferInfo.expectedTransferId at hexpected
  split at hexpected
  · rename_i hbase
    exact .inl hbase.symm
  · split at hexpected
    · cases hexpected
    · rename_i parsedBase parsedIndex hparse
      split at hexpected
      · cases hexpected
      · rename_i hsame
        rw [not_or, not_not, not_not] at hsame
        rw [hparse, hsame.1, hsame.2]
        exact .inr rfl

/-- The bundle is the one in the table, or it is new. -/
theorem openBundle_cases (h : registry.openBundle info = .ok (registry', bundle)) :
    (registry.currentBundle info = some bundle ∧ registry' = registry) ∨
      (registry.currentBundle info = none ∧ bundle = .new info ∧
        registry' = { registry with
          transfers := Function.update registry.transfers info.key (some bundle) }) := by
  unfold Registry.openBundle at h
  split at h
  · cases h
  · split at h
    · rename_i b hcurrent
      cases h
      exact .inl ⟨hcurrent, rfl⟩
    · rename_i hcurrent
      split at h
      · cases h
      · cases h
        exact .inr ⟨hcurrent, rfl, rfl⟩

section

variable [DecidableEq μ]

/-- A new bundle raises no objection. -/
theorem check_new : (Bundle.new info).check info = .ok () := by
  simp [Bundle.check, Bundle.new]

/-- A registration that raises does nothing but evict; one that goes through stores the
descriptor. -/
theorem registerTransfer_cases (registry : Registry μ) (now : ℚ) (info : TransferInfo μ) :
    (∃ e, registry.registerTransfer now info = (registry.evictStaleTransfers now, .error e)) ∨
      ∃ bundle, info.check = .ok () ∧ bundle.check info = .ok () ∧
        ((registry.evictStaleTransfers now).currentBundle info = some bundle ∨
          (registry.evictStaleTransfers now).currentBundle info = none ∧ bundle = .new info) ∧
        registry.registerTransfer now info =
          ({ registry.evictStaleTransfers now with
            transfers := Function.update (registry.evictStaleTransfers now).transfers info.key
              (some (bundle.store info))
            transferLastSeen := Function.update
              (registry.evictStaleTransfers now).transferLastSeen info.key (some now) },
            .ok ()) := by
  unfold Registry.registerTransfer
  dsimp only
  split
  · exact .inl ⟨_, rfl⟩
  · rename_i hcheck
    split
    · exact .inl ⟨_, rfl⟩
    · rename_i registry' bundle hopen
      rcases openBundle_cases hopen with ⟨hcurrent, rfl⟩ | ⟨hcurrent, hnew, rfl⟩
      · split
        · exact .inl ⟨_, rfl⟩
        · rename_i hfits
          exact .inr ⟨bundle, hcheck, hfits, .inl hcurrent, rfl⟩
      · have hfits : bundle.check info = .ok () := by
          rw [hnew]
          exact check_new
        rw [hfits]
        refine .inr ⟨bundle, hcheck, hfits, .inr ⟨hcurrent, hnew⟩, ?_⟩
        simp only [Function.update_idem]

end

/-! ### What a registration keeps -/

theorem evict_wellFormed (hwell : registry.WellFormed) :
    (registry.evictStaleTransfers now).WellFormed :=
  fun key _ h => hwell key _ (transfers_evict h)

theorem evict_counted (hcounted : registry.Counted) :
    (registry.evictStaleTransfers now).Counted :=
  fun key _ h => hcounted key _ (transfers_evict h)

section

variable [DecidableEq μ]

/-- What the checks against a bundle let pass. -/
theorem bundleCheck_ok (h : bundle.check info = .ok ()) :
    (bundle.numChunks ≠ 0 → info.chunkIndex < bundle.numChunks) ∧
      (info.numChunks ≠ 0 → bundle.numChunks ≠ 0 → bundle.numChunks = info.numChunks) ∧
      (info.expectedTotalPages ≠ 0 → bundle.expectedTotalPages ≠ 0 →
        bundle.expectedTotalPages = info.expectedTotalPages) := by
  unfold Bundle.check at h
  dsimp only at h
  split at h
  · cases h
  · split at h
    · cases h
    · rename_i hinside
      split at h
      · cases h
      · rename_i hcount
        split at h
        · cases h
        · rename_i hpages
          refine ⟨fun hne => ?_, fun hfinal hne => ?_, fun hgiven hne => ?_⟩
          · by_contra hnot
            exact hinside ⟨hne, by omega⟩
          · by_contra hnot
            exact hcount ⟨hfinal, hne, hnot⟩
          · by_contra hnot
            exact hpages ⟨hgiven, hne, hnot⟩

theorem count_of_check (hfits : bundle.check info = .ok ()) (hcount : bundle.numChunks ≠ 0) :
    (bundle.store info).numChunks = bundle.numChunks := by
  unfold Bundle.store
  dsimp only
  split
  · rename_i hfinal
    exact ((bundleCheck_ok hfits).2.1 hfinal hcount).symm
  · rfl

theorem pages_of_check (hfits : bundle.check info = .ok ())
    (hpages : bundle.expectedTotalPages ≠ 0) :
    (bundle.store info).expectedTotalPages = bundle.expectedTotalPages := by
  unfold Bundle.store
  dsimp only
  split
  · rename_i hgiven
    exact ((bundleCheck_ok hfits).2.2 hgiven hpages).symm
  · rfl

omit [DecidableEq μ] in
theorem store_middle (hfinal : info.numChunks = 0) :
    (bundle.store info).numChunks = bundle.numChunks := by
  unfold Bundle.store
  simp [hfinal]

omit [DecidableEq μ] in
theorem store_last (hfinal : info.numChunks ≠ 0) :
    (bundle.store info).numChunks = info.numChunks := by
  unfold Bundle.store
  simp [hfinal]

/-- The index of a chunk that is accepted lies before the end, where it is known. -/
theorem index_of_check (hcheck : info.check = .ok ()) (hfits : bundle.check info = .ok ())
    (hcount : (bundle.store info).numChunks ≠ 0) :
    info.chunkIndex < (bundle.store info).numChunks := by
  by_cases hfinal : info.numChunks = 0
  · rw [store_middle hfinal] at hcount ⊢
    exact (bundleCheck_ok hfits).1 hcount
  · rw [store_last hfinal, (infoCheck_ok hcheck).1 hfinal]
    omega

theorem store_wellFormed (hcheck : info.check = .ok ()) (hfits : bundle.check info = .ok ())
    (hbase : bundle.baseTransferId = info.base) (hwell : bundle.WellFormed) :
    (bundle.store info).WellFormed := by
  intro index chunk hchunk
  by_cases hindex : index = info.chunkIndex
  · have hself : chunk = info := by
      have : (bundle.store info).chunks index = some info := by
        rw [hindex]
        exact Function.update_self _ _ _
      rw [this] at hchunk
      exact (Option.some.inj hchunk).symm
    rw [hself]
    refine ⟨hbase.symm, hindex.symm, ?_, ?_, ?_⟩
    · rw [hindex]
      show _ = bundle.baseTransferId ∨ _ = Except.ok (bundle.baseTransferId, _)
      rw [hbase]
      exact check_id hcheck
    · intro hfinal
      exact if_pos hfinal
    · intro hgiven
      exact if_pos hgiven
  · have hother : bundle.chunks index = some chunk := by
      have : (bundle.store info).chunks index = bundle.chunks index :=
        Function.update_of_ne hindex _ _
      rwa [this] at hchunk
    have hold := hwell index chunk hother
    refine ⟨hold.sameBase, hold.ownIndex, hold.ownId, ?_, ?_⟩
    · intro hfinal
      have hcount := hold.count hfinal
      rw [count_of_check hfits (hcount ▸ hfinal), hcount]
    · intro hgiven
      have hpages := hold.pages hgiven
      rw [pages_of_check hfits (hpages ▸ hgiven), hpages]

theorem new_wellFormed : (Bundle.new info).WellFormed := by
  intro index chunk hchunk
  cases hchunk

theorem new_counted : (Bundle.new info).Counted := fun hcount => absurd rfl hcount

theorem registerTransfer_wellFormed (hwell : registry.WellFormed) :
    (registry.registerTransfer now info).1.WellFormed := by
  have hevict : (registry.evictStaleTransfers now).WellFormed := evict_wellFormed hwell
  rcases registerTransfer_cases registry now info with ⟨e, heq⟩ | ⟨bundle, hcheck, hfits, hbundle, heq⟩
  · rw [heq]
    exact hevict
  · rw [heq]
    have hopen : bundle.baseTransferId = info.base ∧ bundle.WellFormed := by
      rcases hbundle with hcurrent | ⟨_, rfl⟩
      · obtain ⟨htable, hbase⟩ := currentBundle_eq_some.mp hcurrent
        exact ⟨hbase, hevict _ _ htable⟩
      · exact ⟨rfl, new_wellFormed⟩
    intro key stored hstored
    by_cases hkey : key = info.key
    · have hself : bundle.store info = stored := by
        rw [hkey] at hstored
        simpa using hstored
      rw [← hself]
      exact store_wellFormed hcheck hfits hopen.1 hopen.2
    · have hother : (registry.evictStaleTransfers now).transfers key = some stored := by
        simpa [Function.update_of_ne hkey] using hstored
      exact hevict key stored hother

/-- The step of the counts: where the chunk is the last one, the others lie before it. -/
theorem store_counted (hcheck : info.check = .ok ()) (hfits : bundle.check info = .ok ())
    (hcounted : bundle.Counted)
    (hlast : info.numChunks ≠ 0 → ∀ index, (bundle.chunks index).isSome → index < info.numChunks) :
    (bundle.store info).Counted := by
  intro hcount index hstored
  by_cases hindex : index = info.chunkIndex
  · rw [hindex]
    exact index_of_check hcheck hfits hcount
  · have hother : (bundle.chunks index).isSome := by
      have : (bundle.store info).chunks index = bundle.chunks index :=
        Function.update_of_ne hindex _ _
      rwa [this] at hstored
    by_cases hfinal : info.numChunks = 0
    · rw [store_middle hfinal] at hcount ⊢
      exact hcounted hcount index hother
    · rw [store_last hfinal]
      exact hlast hfinal index hother

theorem registerTransfer_counted (hcounted : registry.Counted)
    (hlast : LastIsLargest registry (.register now info)) :
    (registry.registerTransfer now info).1.Counted := by
  have hevict : (registry.evictStaleTransfers now).Counted := evict_counted hcounted
  rcases registerTransfer_cases registry now info with ⟨e, heq⟩ | ⟨bundle, hcheck, hfits, hbundle, heq⟩
  · rw [heq]
    exact hevict
  · rw [heq]
    have hstore : (bundle.store info).Counted := by
      rcases hbundle with hcurrent | ⟨_, rfl⟩
      · obtain ⟨htable, _⟩ := currentBundle_eq_some.mp hcurrent
        exact store_counted hcheck hfits (hevict _ _ htable) fun hfinal =>
          hlast hfinal bundle hcurrent
      · apply store_counted hcheck hfits new_counted
        intro _ index hnone
        cases hnone
    intro key stored hstored
    by_cases hkey : key = info.key
    · have hself : bundle.store info = stored := by
        rw [hkey] at hstored
        simpa using hstored
      rwa [← hself]
    · have hother : (registry.evictStaleTransfers now).transfers key = some stored := by
        simpa [Function.update_of_ne hkey] using hstored
      exact hevict key stored hother

/-- A descriptor that is stored already is stored once more, and nothing else changes. -/
theorem store_again (hwell : bundle.WellFormed) (hstored : bundle.chunks info.chunkIndex = some info) :
    bundle.store info = bundle := by
  have hold := hwell _ _ hstored
  unfold Bundle.store
  have hchunks : Function.update bundle.chunks info.chunkIndex (some info) = bundle.chunks := by
    rw [← hstored, Function.update_eq_self]
  have hcount : (if info.numChunks ≠ 0 then info.numChunks else bundle.numChunks) =
      bundle.numChunks := by
    split
    · rename_i hfinal
      exact (hold.count hfinal).symm
    · rfl
  have hpages : (if info.expectedTotalPages ≠ 0 then info.expectedTotalPages
      else bundle.expectedTotalPages) = bundle.expectedTotalPages := by
    split
    · rename_i hgiven
      exact (hold.pages hgiven).symm
    · rfl
  rw [hchunks, hcount, hpages]

theorem registerTransfer_again (hwell : registry.WellFormed)
    (htable : (registry.evictStaleTransfers now).transfers info.key = some bundle)
    (hstored : bundle.chunks info.chunkIndex = some info) :
    (registry.registerTransfer now info).1.transfers =
        (registry.evictStaleTransfers now).transfers ∧
      ∀ key, key ≠ info.key →
        (registry.registerTransfer now info).1.transferLastSeen key =
          (registry.evictStaleTransfers now).transferLastSeen key := by
  have hbundle : bundle.WellFormed := evict_wellFormed hwell _ _ htable
  have hbase := (hbundle _ _ hstored).sameBase
  have hcurrent : (registry.evictStaleTransfers now).currentBundle info = some bundle :=
    currentBundle_eq_some.mpr ⟨htable, hbase.symm⟩
  rcases registerTransfer_cases registry now info with
    ⟨e, heq⟩ | ⟨opened, hcheck, hfits, hopened | ⟨hnone, _⟩, heq⟩
  · rw [heq]
    exact ⟨rfl, fun _ _ => rfl⟩
  · obtain rfl : bundle = opened := Option.some.inj (hcurrent.symm.trans hopened)
    rw [heq]
    dsimp only
    rw [store_again hbundle hstored, ← htable, Function.update_eq_self]
    exact ⟨rfl, fun key hkey => Function.update_of_ne hkey _ _⟩
  · rw [hcurrent] at hnone
    cases hnone

theorem registerTransfer_raises {e : RegisterError}
    (hraises : (registry.registerTransfer now info).2 = .error e) :
    (registry.registerTransfer now info).1 = registry.evictStaleTransfers now := by
  rcases registerTransfer_cases registry now info with ⟨e, heq⟩ | ⟨_, _, _, _, heq⟩
  · rw [heq]
  · rw [heq] at hraises
    cases hraises

/-! ### Whole runs -/

variable {ok : Registry μ → Op μ → Prop} {transferTtlSeconds : ℚ}

theorem Reaches.wellFormed (hrun : Reaches ok transferTtlSeconds registry) :
    registry.WellFormed := by
  induction hrun with
  | start =>
    intro key bundle hnone
    cases hnone
  | step op _ _ ih =>
    cases op with
    | register now info => exact registerTransfer_wellFormed ih
    | get now key => exact evict_wellFormed ih
    | pop key expectedTransferId => exact fun key' _ h => ih key' _ (transfers_pop h)

theorem Reaches.counted (hrun : Reaches ok transferTtlSeconds registry)
    (hlast : ∀ registry op, ok registry op → LastIsLargest registry op) : registry.Counted := by
  induction hrun with
  | start =>
    intro key bundle hnone
    cases hnone
  | step op _ hok ih =>
    cases op with
    | register now info => exact registerTransfer_counted ih (hlast _ _ hok)
    | get now key => exact evict_counted ih
    | pop key expectedTransferId => exact fun key' _ h => ih key' _ (transfers_pop h)

/-- What holds of the registry after a run. -/
structure Registry.Sound (registry : Registry μ) : Prop where
  bundles : registry.WellFormed
  again : ∀ now info bundle,
    (registry.evictStaleTransfers now).transfers info.key = some bundle →
      bundle.chunks info.chunkIndex = some info →
        (registry.registerTransfer now info).1.transfers =
            (registry.evictStaleTransfers now).transfers ∧
          ∀ key, key ≠ info.key →
            (registry.registerTransfer now info).1.transferLastSeen key =
              (registry.evictStaleTransfers now).transferLastSeen key
  raises : ∀ now info e, (registry.registerTransfer now info).2 = .error e →
    (registry.registerTransfer now info).1 = registry.evictStaleTransfers now

theorem reaches_sound (hrun : Reaches ok transferTtlSeconds registry) :
    registry.Sound ∧
      ((∀ registry op, ok registry op → LastIsLargest registry op) → registry.Counted) := by
  refine ⟨⟨hrun.wellFormed, ?_, ?_⟩, hrun.counted⟩
  · exact fun now info bundle => registerTransfer_again hrun.wellFormed
  · exact fun now info e => registerTransfer_raises

end

/-! Chunks of one transfer in room 0. -/

def chunkOf (chunkIndex numChunks : Int) (transferId : String) : TransferInfo Unit where
  bootstrapRoom := 0
  transferId := transferId
  baseTransferId := some "t"
  jaxProcessIndex := 0
  prefillDpRank := 0
  chunkIndex := chunkIndex
  numChunks := numChunks
  chunkPageOffset := 0
  expectedTotalPages := 4
  transportMetadata := ()

def registerAll (infos : List (TransferInfo Unit)) : Registry Unit :=
  infos.foldl (fun registry info => registry.apply (.register 0 info)) (.new 300)

theorem reaches_registerAll (infos : List (TransferInfo Unit)) :
    Reaches (fun _ _ => True) 300 (registerAll infos) := by
  induction infos using List.reverseRecOn with
  | nil => exact .start
  | append_singleton infos info ih =>
    unfold registerAll at ih ⊢
    rw [List.foldl_concat]
    exact ih.step _ trivial

def inOrder : Registry Unit := registerAll [chunkOf 0 0 "t#c0", chunkOf 1 2 "t#c1"]

theorem inOrder_sound :
    ((inOrder.transfers (0, 0, 0)).map fun bundle =>
      (bundle.numChunks, (bundle.chunks 0).isSome, (bundle.chunks 1).isSome)) =
        some (2, true, true) ∧ inOrder.Sound :=
  ⟨by decide +kernel, (reaches_sound (reaches_registerAll _)).1⟩

/-- A transfer that is not cut into chunks is stored under an id that does not parse, and
a chunk that came before a last one with a smaller index stays behind it. -/
theorem whole_and_late :
    (∃ registry : Registry Unit, Reaches (fun _ _ => True) 300 registry ∧
      ∃ bundle info, registry.transfers (0, 0, 0) = some bundle ∧
        bundle.chunks 0 = some info ∧
          parseChunkTransferId info.transferId ≠ .ok (bundle.baseTransferId, 0)) ∧
    ∃ registry : Registry Unit, Reaches (fun _ _ => True) 300 registry ∧
      ∃ bundle, registry.transfers (0, 0, 0) = some bundle ∧ bundle.numChunks = 2 ∧
        (bundle.chunks 3).isSome := by
  constructor
  · refine ⟨registerAll [chunkOf 0 1 "t"], reaches_registerAll _, ?_⟩
    have hsome : ((registerAll [chunkOf 0 1 "t"]).transfers (0, 0, 0)).map
        (fun bundle => (bundle.chunks 0, bundle.baseTransferId)) =
          some (some (chunkOf 0 1 "t"), "t") := by
      decide +kernel
    obtain ⟨bundle, htable, hfields⟩ := Option.map_eq_some_iff.mp hsome
    obtain ⟨hchunk, hbase⟩ := Prod.mk.inj hfields
    refine ⟨bundle, chunkOf 0 1 "t", htable, hchunk, ?_⟩
    rw [hbase]
    decide +kernel
  · refine ⟨registerAll [chunkOf 0 0 "t#c0", chunkOf 3 0 "t#c3", chunkOf 1 2 "t#c1"],
      reaches_registerAll _, ?_⟩
    have hsome : ((registerAll [chunkOf 0 0 "t#c0", chunkOf 3 0 "t#c3",
        chunkOf 1 2 "t#c1"]).transfers (0, 0, 0)).map
          (fun bundle => (bundle.numChunks, (bundle.chunks 3).isSome)) = some (2, true) := by
      decide +kernel
    obtain ⟨bundle, htable, hfields⟩ := Option.map_eq_some_iff.mp hsome
    obtain ⟨hcount, hchunk⟩ := Prod.mk.inj hfields
    exact ⟨bundle, htable, hcount, hchunk⟩

end SglJax.Disaggregation.TransferRegistry
