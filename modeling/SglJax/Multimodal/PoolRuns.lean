import SglJax.Multimodal.PoolWrites

/-! Runs of the embedding pool: whatever was looked up, written or evicted, an entry shows
the rows last written under its hash. -/
namespace SglJax.Multimodal

open Lora (Mat)
open Foundation

variable {K : Type}

namespace EmbeddingPool

theorem packedItems_cons (itemHash length start : Int) (itemHashes lengths offsets : List Int)
    (write : Bool) (mask : List Bool) :
    packedItems (itemHash :: itemHashes) (length :: lengths) (write :: mask) (start :: offsets) =
      ⟨itemHash, length.toNat, write, start.toNat⟩ ::
        packedItems itemHashes lengths mask offsets := rfl

/-- Items that stand one after the other are apart. -/
theorem packedItems_apart (itemHashes : List Int) {lengths : List Int} (mask : List Bool)
    {start : Int} (hstart : 0 ≤ start) (hlengths : ∀ length ∈ lengths, 0 ≤ length) :
    (packedItems itemHashes lengths mask (startOffsets start lengths)).Pairwise
        PackedItem.Apart ∧
      ∀ item ∈ packedItems itemHashes lengths mask (startOffsets start lengths),
        start.toNat ≤ item.offset := by
  induction lengths generalizing itemHashes mask start with
  | nil => simp [packedItems]
  | cons length lengths ih =>
    cases itemHashes with
    | nil => simp [packedItems]
    | cons itemHash itemHashes =>
      cases mask with
      | nil => simp [packedItems]
      | cons write mask =>
        have hlength := hlengths length List.mem_cons_self
        have hnext : 0 ≤ start + length := by omega
        obtain ⟨hapart, hge⟩ := ih itemHashes mask hnext
          fun l hl => hlengths l (List.mem_cons_of_mem length hl)
        rw [startOffsets, packedItems_cons]
        refine ⟨List.pairwise_cons.mpr ⟨fun item hitem i hi => ?_, hapart⟩, fun item hitem => ?_⟩
        · have := hge item hitem
          dsimp only at hi
          omega
        · rcases List.mem_cons.mp hitem with rfl | hitem
          · exact le_rfl
          · have := hge item hitem
            omega

end EmbeddingPool

namespace PackedWrite

variable {call : PackedWrite K} {hidden : Nat}

theorem Accepted.inside_items (h : call.Accepted hidden) :
    ∀ item ∈ call.items, item.offset + item.length ≤ call.packed.rows.length := by
  intro item hitem
  obtain ⟨⟨itemHash, length, write, start⟩, hmem, rfl⟩ := List.mem_map.mp hitem
  obtain ⟨i, hi⟩ := List.mem_iff_getElem?.mp hmem
  simp only [List.getElem?_zip_eq_some] at hi
  have hpair : (start, length) ∈ call.offsets.zip call.lengths :=
    List.mem_iff_getElem?.mpr ⟨i, List.getElem?_zip_eq_some.mpr ⟨hi.2.2.2, hi.2.1⟩⟩
  have hin := h.inside _ hpair
  have hlength := h.lengths_nonneg length (List.mem_of_getElem? hi.2.1)
  have hcapacity : call.capacity = call.packed.rows.length := rfl
  dsimp only at hin ⊢
  omega

/-- The slices that a caller names are apart. -/
def Apart (call : PackedWrite K) : Prop :=
  call.itemOffsets ≠ none → call.items.Pairwise PackedItem.Apart

theorem Accepted.sliced (h : call.Accepted hidden) (hapart : call.Apart) :
    EmbeddingPool.Sliced call.packed call.items where
  inside := h.inside_items
  apart := by
    cases hoffsets : call.itemOffsets with
    | some offsets => exact hapart (by simp [hoffsets])
    | none =>
      have heq : call.items = EmbeddingPool.packedItems call.itemHashes call.lengths call.mask
          (EmbeddingPool.startOffsets 0 call.lengths) := by
        rw [items, offsets, hoffsets, Option.getD_none]
      rw [heq]
      exact (EmbeddingPool.packedItems_apart _ _ le_rfl h.lengths_nonneg).1

end PackedWrite

inductive PoolOp (K : Type) where
  | lookup (itemHash : Int)
  | write (call : PackedWrite K)
  | precompile (capacity : Int)
  | clear

namespace PoolOp

variable [Zero K]

/-- A call that raises an error leaves the pool as it is. -/
def step (pool : EmbeddingPool K) : PoolOp K → EmbeddingPool K
  | .lookup itemHash => (pool.lookup itemHash).2
  | .write call => match pool.writePacked call with
    | .ok (_, pool') => pool'
    | .error _ => pool
  | .precompile capacity => match pool.precompilePackedWrite capacity with
    | .ok pool' => pool'
    | .error _ => pool
  | .clear => pool.clear

def run (pool : EmbeddingPool K) (ops : List (PoolOp K)) : EmbeddingPool K := ops.foldl step pool

/-- The call stores nothing under the hash, and does not drop what is stored. -/
def Keeps (pool : EmbeddingPool K) (itemHash : Int) : PoolOp K → Prop
  | .write call => call.Accepted pool.hidden → pool.lastItem itemHash call.items = none
  | .clear => False
  | _ => True

/-- The rows that were last stored under the hash. -/
def LastWritten (pool : EmbeddingPool K) (ops : List (PoolOp K)) (itemHash : Int)
    (rows : List (List K)) : Prop :=
  ∃ before call after item, ops = before ++ .write call :: after ∧ call.Accepted pool.hidden ∧
    pool.lastItem itemHash call.items = some item ∧ rows = item.rows call.packed ∧
    ∀ op ∈ after, op.Keeps pool itemHash

variable {pool₀ pool : EmbeddingPool K}

/-- The sizes are those of `pool₀`. -/
structure SameSizes (pool₀ pool : EmbeddingPool K) : Prop where
  numPages : pool.numPages = pool₀.numPages
  pageSize : pool.pageSize = pool₀.pageSize
  hidden : pool.hidden = pool₀.hidden

omit [Zero K] in
theorem SameSizes.lastItem (h : SameSizes pool₀ pool) (itemHash : Int)
    (items : List PackedItem) : pool.lastItem itemHash items = pool₀.lastItem itemHash items := by
  induction items with
  | nil => rfl
  | cons item items ih =>
    rw [EmbeddingPool.lastItem, EmbeddingPool.lastItem, ih, h.pageSize, h.numPages]

/-- What one call leaves: an entry shows what it showed before, or what the call stored. -/
structure StepKeeps (pool₀ pool : EmbeddingPool K) (op : PoolOp K) (pool' : EmbeddingPool K) :
    Prop where
  partitioned : pool'.Partitioned
  sizes : SameSizes pool₀ pool'
  entries : ∀ e ∈ pool'.entries,
    (op.Keeps pool₀ e.1 ∧ e ∈ pool.entries ∧ ∀ rows, pool.Shows e.2 rows → pool'.Shows e.2 rows) ∨
    ∃ call item, op = .write call ∧ call.Accepted pool₀.hidden ∧
      pool₀.lastItem e.1 call.items = some item ∧ pool'.Shows e.2 (item.rows call.packed)

theorem scatterDrop_replicate {α : Type} (l : List α) (n : Nat) (values : List α) :
    scatterDrop l ((List.replicate n (-1)).zip values) = l := by
  induction n generalizing l values with
  | zero => simp [scatterDrop]
  | succ n ih =>
    cases values with
    | nil => simp [scatterDrop]
    | cons v values =>
      rw [List.replicate_succ, List.zip_cons_cons, scatterDrop_cons, if_neg (by omega)]
      exact ih l values

/-- Compiling the writer leaves the pool as it is. -/
theorem step_precompile (pool : EmbeddingPool K) (capacity : Int) :
    step pool (.precompile capacity) = pool := by
  unfold step EmbeddingPool.precompilePackedWrite
  by_cases hcapacity : capacity ≤ 0
  · simp [hcapacity]
  · have hcols : (Mat.zeros (K := K) (capacity.toNat, pool.hidden)).cols = pool.pages.cols := rfl
    simp only [if_neg hcapacity, EmbeddingPool.scatterRows, dif_pos hcols, scatterDrop_replicate]
    rfl

theorem step_keeps (h : pool.Partitioned) (hsizes : SameSizes pool₀ pool) (op : PoolOp K)
    (hapart : ∀ call, op = .write call → call.Apart) : StepKeeps pool₀ pool op (op.step pool) := by
  cases op with
  | lookup itemHash =>
    obtain ⟨-, hpart, hbuffer, -, hperm⟩ := EmbeddingPool.lookup_spec h itemHash
    refine ⟨hpart, ⟨hbuffer.numPages.trans hsizes.numPages, hbuffer.pageSize.trans hsizes.pageSize,
      ?_⟩, fun e he => .inl ⟨trivial, hperm.mem_iff.mp he, fun rows => hbuffer.shows.mpr⟩⟩
    rw [← hsizes.hidden]
    exact congrArg Mat.cols hbuffer.pages
  | write call =>
    rcases call.writePacked_cases pool with ⟨haccepted, hrun⟩ | ⟨hrefused, error, hrun⟩
    · obtain ⟨results, pool', hok, hwritten⟩ := EmbeddingPool.writeItems_spec h haccepted.cols
        (haccepted.sliced (hapart call rfl))
      have hstep : step pool (.write call) = pool' := by simp only [step, hrun, hok]
      rw [hstep]
      refine ⟨hwritten.partitioned, ⟨hwritten.numPages.trans hsizes.numPages,
        hwritten.pageSize.trans hsizes.pageSize, hwritten.hidden.trans hsizes.hidden⟩, ?_⟩
      intro e he
      rw [hsizes.hidden] at haccepted
      refine (hwritten.entries e he).imp (fun ⟨hnone, hold, hshows⟩ => ⟨fun _ => ?_, hold, hshows⟩)
        fun ⟨item, hlast, hshows⟩ => ⟨call, item, rfl, haccepted, ?_, hshows⟩
      · rw [← hsizes.lastItem, hnone]
      · rw [← hsizes.lastItem, hlast]
    · have hstep : step pool (.write call) = pool := by simp only [step, hrun]
      rw [hstep]
      rw [hsizes.hidden] at hrefused
      exact ⟨h, hsizes, fun e he => .inl ⟨fun haccepted => absurd haccepted hrefused, he,
        fun rows => id⟩⟩
  | precompile capacity =>
    rw [step_precompile]
    exact ⟨h, hsizes, fun e he => .inl ⟨trivial, he, fun rows => id⟩⟩
  | clear =>
    refine ⟨EmbeddingPool.clear_partitioned h, ⟨hsizes.numPages, hsizes.pageSize, hsizes.hidden⟩,
      fun e he => ?_⟩
    cases he

/-- After any calls every page is free or in one entry, and an entry shows the rows that were
last stored under its hash. -/
theorem run_shows_lastWritten {numPages pageSize hidden : Nat} (hpage : 0 < pageSize)
    (hinit : pool₀ = .init numPages pageSize hidden) (ops : List (PoolOp K))
    (hapart : ∀ call, .write call ∈ ops → call.Apart) :
    (run pool₀ ops).Partitioned ∧ ∀ e ∈ (run pool₀ ops).entries, ∃ rows,
      LastWritten pool₀ ops e.1 rows ∧ (run pool₀ ops).Shows e.2 rows := by
  have hstart : pool₀.Partitioned := hinit ▸ EmbeddingPool.init_partitioned numPages hidden hpage
  have hempty : pool₀.entries = [] := hinit ▸ rfl
  suffices hrun : (run pool₀ ops).Partitioned ∧ SameSizes pool₀ (run pool₀ ops) ∧
      ∀ e ∈ (run pool₀ ops).entries, ∃ rows, LastWritten pool₀ ops e.1 rows ∧
        (run pool₀ ops).Shows e.2 rows from ⟨hrun.1, hrun.2.2⟩
  induction ops using List.reverseRecOn with
  | nil =>
    refine ⟨hstart, ⟨rfl, rfl, rfl⟩, fun e he => ?_⟩
    rw [show run pool₀ [] = pool₀ from rfl, hempty] at he
    cases he
  | append_singleton ops op ih =>
    obtain ⟨hpart, hsizes, hentries⟩ := ih fun call hcall => hapart call
      (List.mem_append_left _ hcall)
    have hlast : run pool₀ (ops ++ [op]) = op.step (run pool₀ ops) := List.foldl_concat ..
    have hstep := step_keeps hpart hsizes op fun call hcall => hapart call
      (List.mem_append_right _ (List.mem_singleton.mpr hcall.symm))
    rw [hlast]
    refine ⟨hstep.partitioned, hstep.sizes, fun e he => ?_⟩
    rcases hstep.entries e he with ⟨hkeeps, hold, hshows⟩ | ⟨call, item, rfl, haccepted, hitem,
      hshows⟩
    · obtain ⟨rows, ⟨before, call, after, item, rfl, haccepted, hitem, hrows, hafter⟩, hshown⟩ :=
        hentries e hold
      refine ⟨rows, ⟨before, call, after ++ [op], item, by simp, haccepted, hitem, hrows,
        fun other hother => ?_⟩, hshows rows hshown⟩
      rcases List.mem_append.mp hother with hother | hother
      · exact hafter other hother
      · rw [List.mem_singleton.mp hother]
        exact hkeeps
    · exact ⟨_, ⟨ops, call, [], item, rfl, haccepted, hitem, rfl, fun _ hop => by cases hop⟩,
        hshows⟩

/-- An array of one column. -/
def column (values : List Nat) : Mat Nat where
  cols := 1
  rows := values.map fun value => [value]
  length_row := by
    intro row hrow
    obtain ⟨value, -, rfl⟩ := List.mem_map.mp hrow
    rfl

/-- With two pages, the third item takes the page of the one that was not looked up. -/
def evictingOps : List (PoolOp Nat) :=
  [.write ⟨[1, 2], column [10, 20], [1, 1], none, none⟩, .lookup 1,
    .write ⟨[3], column [30], [1], none, none⟩]

theorem evictingOps_shows :
    ((run (.init 2 1 1) evictingOps).entries.map fun e => (e.1, e.2.pageIds)) =
      [(1, [0]), (3, [1])] ∧
    (run (.init 2 1 1) evictingOps).Partitioned ∧
    ∀ e ∈ (run (.init 2 1 1) evictingOps).entries, ∃ rows,
      LastWritten (.init 2 1 1) evictingOps e.1 rows ∧
        (run (.init 2 1 1) evictingOps).Shows e.2 rows := by
  refine ⟨by decide, run_shows_lastWritten Nat.one_pos rfl evictingOps fun call hcall => ?_⟩
  have hnone : call.itemOffsets = none := by
    simp only [evictingOps, List.mem_cons, PoolOp.write.injEq, reduceCtorEq, false_or,
      List.not_mem_nil, or_false] at hcall
    rcases hcall with rfl | rfl <;> rfl
  exact fun hsome => absurd hnone hsome

end PoolOp

end SglJax.Multimodal
