import Mathlib.Data.List.Nodup
import SglJax.MemCache.HostKvPool

/-! No interleaving of the two threads publishes a copy of an earlier owner of a
host page. -/
namespace SglJax.MemCache.HostPool

variable {δ : Type}

/-- The copy was gathered for page `b` by a `stage_backup` of the history, and the
page was not handed out again since. -/
structure GatheredSinceAlloc (history : List HostEvent) (b : Int) (copy : PageCopy δ) : Prop where
  page : copy.page = b
  issued : ∃ pages, history[copy.issue]? = some (.stageBackup pages) ∧ b ∈ pages
  kept : ∀ j pages, copy.issue < j → history[j]? = some (.alloc pages) → b ∉ pages

theorem GatheredSinceAlloc.append {history : List HostEvent} {b : Int} {copy : PageCopy δ}
    (h : GatheredSinceAlloc history b copy) {event : HostEvent}
    (hevent : ∀ pages, event = .alloc pages → b ∉ pages) :
    GatheredSinceAlloc (history ++ [event]) b copy where
  page := h.page
  issued := by
    obtain ⟨pages, hissue, hb⟩ := h.issued
    obtain ⟨hlt, _⟩ := List.getElem?_eq_some_iff.mp hissue
    exact ⟨pages, by rw [List.getElem?_append_left hlt]; exact hissue, hb⟩
  kept := by
    intro j pages hj hat
    by_cases hlt : j < history.length
    · rw [List.getElem?_append_left hlt] at hat
      exact h.kept j pages hj hat
    · obtain ⟨hbound, hlast⟩ := List.getElem?_eq_some_iff.mp hat
      have hend : j = history.length := by
        simp only [List.length_append, List.length_singleton] at hbound
        omega
      subst hend
      exact hevent pages (by simpa using hlast)

theorem gatheredSinceAlloc_issue {history : List HostEvent} {pages : List Int} {b : Int}
    (hb : b ∈ pages) (data : δ) :
    GatheredSinceAlloc (history ++ [.stageBackup pages]) b ⟨b, history.length, data⟩ where
  page := rfl
  issued := ⟨pages, by simp, hb⟩
  kept := by
    intro j pages' hj hat
    obtain ⟨hbound, _⟩ := List.getElem?_eq_some_iff.mp hat
    dsimp only at hj
    rw [List.length_append, List.length_singleton] at hbound
    omega

/-- A copy tagged with an epoch: if the page still has this epoch, the copy is of
its current owner. -/
structure ValidAt (pool : LRUHostKVPool δ) (history : List HostEvent) (b : Int) (gen : Nat)
    (copy : PageCopy δ) : Prop where
  le : gen ≤ pool.generation b
  current : gen = pool.generation b → GatheredSinceAlloc history b copy

/-- What a thread has captured. -/
def TaskOk (pool : LRUHostKVPool δ) (history : List HostEvent) : Task δ → Prop
  | .idle | .popping _ => True
  | .gathering ids gens issue => ∀ b ∈ ids, ∀ data : δ,
    ValidAt pool history b (gens b) ⟨b, issue, data⟩
  | .putting b gen copy _ => ValidAt pool history b gen copy
  | .staging ids gens slots => ∀ b ∈ ids, ∀ copy, slots b = some copy →
    ValidAt pool history b (gens b) copy
  | .unloading _ _ staged => ∀ entry ∈ staged, GatheredSinceAlloc history entry.page entry.copy

/-- The worker gathers nothing and scatters nothing. -/
def Task.OfWorker : Task δ → Prop
  | .gathering _ _ _ | .unloading _ _ _ => False
  | _ => True

/-- What holds of the pool: only allocated pages have a copy or a pending transfer,
and each is of the current owner. -/
structure PoolOk (pool : LRUHostKVPool δ) (history : List HostEvent) : Prop where
  free_iff : ∀ b, b ∈ pool.freeIds → pool.allocated b = false
  slots : ∀ b copy, pool.slots b = some copy →
    pool.allocated b = true ∧ GatheredSinceAlloc history b copy
  gather : ∀ b gen copy, pool.pendingGather b = some (gen, copy) →
    pool.allocated b = true ∧ gen = pool.generation b ∧ GatheredSinceAlloc history b copy
  load : ∀ b gen copy, pool.pendingLoad b = some (gen, copy) →
    pool.allocated b = true ∧ gen = pool.generation b ∧ GatheredSinceAlloc history b copy
  nodup : pool.freeIds.Nodup

structure HostInv (s : HostSystem δ) : Prop where
  pool : PoolOk s.pool s.history
  tasks : ∀ t, TaskOk s.pool s.history (s.tasks t)
  worker : (s.tasks .worker).OfWorker

/-! What a section leaves of what was captured. -/

/-- The pages keep their epochs, and the history gains no allocation. -/
def SameOwners (pool pool' : LRUHostKVPool δ) : Prop := pool'.generation = pool.generation

theorem TaskOk.of_sameOwners {pool pool' : LRUHostKVPool δ} {history : List HostEvent}
    {task : Task δ} (h : TaskOk pool history task) (hsame : SameOwners pool pool') :
    TaskOk pool' history task := by
  have hvalid : ∀ {b gen} {copy : PageCopy δ}, ValidAt pool history b gen copy →
      ValidAt pool' history b gen copy := by
    intro b gen copy hv
    exact ⟨by rw [hsame]; exact hv.le, by rw [hsame]; exact hv.current⟩
  cases task with
  | idle => trivial
  | gathering ids gens issue => exact fun b hb data => hvalid (h b hb data)
  | popping ids => trivial
  | putting b gen copy rest => exact hvalid h
  | staging ids gens slots => exact fun b hb copy hcopy => hvalid (h b hb copy hcopy)
  | unloading current todo staged => exact h

theorem TaskOk.stageBackup {pool : LRUHostKVPool δ} {history : List HostEvent} {task : Task δ}
    (h : TaskOk pool history task) (ids : List Int) :
    TaskOk pool (history ++ [.stageBackup ids]) task := by
  have hkeep : ∀ {b} {copy : PageCopy δ}, GatheredSinceAlloc history b copy →
      GatheredSinceAlloc (history ++ [.stageBackup ids]) b copy :=
    fun hg => hg.append fun pages hpages => by cases hpages
  have hvalid : ∀ {b gen} {copy : PageCopy δ}, ValidAt pool history b gen copy →
      ValidAt pool (history ++ [.stageBackup ids]) b gen copy :=
    fun hv => ⟨hv.le, fun heq => hkeep (hv.current heq)⟩
  cases task with
  | idle => trivial
  | gathering ids gens issue => exact fun b hb data => hvalid (h b hb data)
  | popping ids => trivial
  | putting b gen copy rest => exact hvalid h
  | staging ids gens slots => exact fun b hb copy hcopy => hvalid (h b hb copy hcopy)
  | unloading current todo staged => exact fun entry hentry => hkeep (h entry hentry)

/-- Handing out a page makes every copy captured of it stale. -/
theorem ValidAt.alloc {pool pool' : LRUHostKVPool δ} {history : List HostEvent} {pages : List Int}
    (hgen : ∀ b, pool'.generation b =
      if b ∈ pages then pool.generation b + 1 else pool.generation b)
    {b : Int} {gen : Nat} {copy : PageCopy δ} (h : ValidAt pool history b gen copy) :
    ValidAt pool' (history ++ [.alloc pages]) b gen copy := by
  have hle := h.le
  have hb := hgen b
  by_cases hin : b ∈ pages
  · rw [if_pos hin] at hb
    exact ⟨by omega, fun heq => by omega⟩
  · rw [if_neg hin] at hb
    refine ⟨by omega, fun heq => (h.current (by omega)).append ?_⟩
    intro pages' hpages
    cases hpages
    exact hin

theorem TaskOk.alloc {pool pool' : LRUHostKVPool δ} {history : List HostEvent} {pages : List Int}
    (hgen : ∀ b, pool'.generation b =
      if b ∈ pages then pool.generation b + 1 else pool.generation b)
    {task : Task δ} (h : TaskOk pool history task) (htask : task.OfWorker) :
    TaskOk pool' (history ++ [.alloc pages]) task := by
  cases task with
  | idle => trivial
  | gathering ids gens issue => cases htask
  | popping ids => trivial
  | putting b gen copy rest => exact ValidAt.alloc hgen h
  | staging ids gens slots => exact fun b hb copy hcopy => ValidAt.alloc hgen (h b hb copy hcopy)
  | unloading current todo staged => cases htask

/-! What each section does to the pool. -/

section Pool

variable {pool : LRUHostKVPool δ} {history : List HostEvent}

theorem PoolOk.of_alloc {n : Int} {pages : List Int} {pool' : LRUHostKVPool δ}
    (h : PoolOk pool history) (heq : pool.alloc n = .ok (some (pages, pool'))) :
    PoolOk pool' (history ++ [.alloc pages]) ∧
      ∀ b, pool'.generation b = if b ∈ pages then pool.generation b + 1 else pool.generation b := by
  unfold LRUHostKVPool.alloc at heq
  split at heq
  · cases heq
  · split at heq
    · cases heq
    · cases heq
      have hout : ∀ b, pool.allocated b = true → b ∉ pool.freeIds.take n.toNat := by
        intro b hb hin
        have hfree := h.free_iff b (List.mem_of_mem_take hin)
        rw [hb] at hfree
        cases hfree
      have hkeep : ∀ {b} {copy : PageCopy δ}, pool.allocated b = true →
          GatheredSinceAlloc history b copy →
          GatheredSinceAlloc (history ++ [.alloc (pool.freeIds.take n.toNat)]) b copy := by
        intro b copy hb hg
        apply hg.append
        intro pages hpages
        cases hpages
        exact hout b hb
      refine ⟨⟨?_, ?_, ?_, ?_, ?_⟩, fun _ => rfl⟩
      · intro b hb
        dsimp only at hb ⊢
        have hnodup := h.nodup
        rw [← List.take_append_drop n.toNat pool.freeIds] at hnodup
        rw [if_neg fun hin => List.disjoint_of_nodup_append hnodup hin hb]
        exact h.free_iff b (List.mem_of_mem_drop hb)
      · intro b copy hslot
        obtain ⟨halloc, hg⟩ := h.slots b copy hslot
        dsimp only
        rw [if_neg (hout b halloc)]
        exact ⟨halloc, hkeep halloc hg⟩
      · intro b gen copy hgather
        obtain ⟨halloc, hgen, hg⟩ := h.gather b gen copy hgather
        dsimp only
        rw [if_neg (hout b halloc), if_neg (hout b halloc)]
        exact ⟨halloc, hgen, hkeep halloc hg⟩
      · intro b gen copy hload
        obtain ⟨halloc, hgen, hg⟩ := h.load b gen copy hload
        dsimp only
        rw [if_neg (hout b halloc), if_neg (hout b halloc)]
        exact ⟨halloc, hgen, hkeep halloc hg⟩
      · exact h.nodup.sublist (List.drop_sublist _ _)

theorem PoolOk.of_freePage {pid : Int} {pool' : LRUHostKVPool δ} (h : PoolOk pool history)
    (heq : pool.freePage pid = .ok pool') : PoolOk pool' history ∧ SameOwners pool pool' := by
  unfold LRUHostKVPool.freePage at heq
  split at heq
  · cases heq
  · split at heq
    · cases heq
    · rename_i hused
      split at heq
      · cases heq
      · cases heq
        refine ⟨⟨?_, ?_, ?_, ?_, ?_⟩, rfl⟩
        · intro b hb
          dsimp only at hb ⊢
          by_cases hpid : b = pid
          · rw [hpid, Function.update_self]
          · rw [Function.update_of_ne hpid]
            rcases List.mem_append.mp hb with hb | hb
            · exact h.free_iff b hb
            · exact absurd (List.mem_singleton.mp hb) hpid
        · intro b copy hslot
          dsimp only at hslot ⊢
          by_cases hpid : b = pid
          · simp [hpid] at hslot
          · rw [Function.update_of_ne hpid] at hslot ⊢
            exact h.slots b copy hslot
        · intro b gen copy hgather
          dsimp only at hgather ⊢
          by_cases hpid : b = pid
          · simp [hpid] at hgather
          · rw [Function.update_of_ne hpid] at hgather ⊢
            exact h.gather b gen copy hgather
        · intro b gen copy hload
          dsimp only at hload ⊢
          by_cases hpid : b = pid
          · simp [hpid] at hload
          · rw [Function.update_of_ne hpid] at hload ⊢
            exact h.load b gen copy hload
        · apply List.Nodup.append h.nodup (List.nodup_singleton pid)
          intro b hb hpid
          rw [List.mem_singleton.mp hpid] at hb
          exact hused hb

theorem PoolOk.of_freeLoop (h : PoolOk pool history) (ids : List Int) :
    PoolOk (pool.freeLoop ids).1 history ∧ SameOwners pool (pool.freeLoop ids).1 := by
  induction ids generalizing pool with
  | nil => exact ⟨h, rfl⟩
  | cons pid rest ih =>
    unfold LRUHostKVPool.freeLoop
    split
    · exact ⟨h, rfl⟩
    · rename_i pool' heq
      obtain ⟨hpool, hsame⟩ := h.of_freePage heq
      obtain ⟨hrest, hsame'⟩ := ih hpool
      exact ⟨hrest, hsame'.trans hsame⟩

theorem of_incLockRef {b : Int} {pool' : LRUHostKVPool δ} (heq : pool.incLockRef b = .ok pool') :
    ∃ lockRef, pool' = { pool with lockRef := lockRef } := by
  unfold LRUHostKVPool.incLockRef at heq
  split at heq
  · cases heq
  · cases heq
    exact ⟨_, rfl⟩

theorem of_decLockRef {b : Int} {pool' : LRUHostKVPool δ} (heq : pool.decLockRef b = .ok pool') :
    ∃ lockRef, pool' = { pool with lockRef := lockRef } := by
  unfold LRUHostKVPool.decLockRef at heq
  split at heq
  · cases heq
  · split at heq
    · cases heq
    · cases heq
      exact ⟨_, rfl⟩

theorem PoolOk.of_lockRef (h : PoolOk pool history) (lockRef : Int → Nat) :
    PoolOk { pool with lockRef := lockRef } history :=
  ⟨h.free_iff, h.slots, h.gather, h.load, h.nodup⟩

theorem PoolOk.stageBackup (h : PoolOk pool history) (ids : List Int) :
    PoolOk pool (history ++ [.stageBackup ids]) := by
  have hkeep : ∀ {b} {copy : PageCopy δ}, GatheredSinceAlloc history b copy →
      GatheredSinceAlloc (history ++ [.stageBackup ids]) b copy :=
    fun hg => hg.append fun pages hpages => by cases hpages
  exact ⟨h.free_iff, fun b copy hs => ⟨(h.slots b copy hs).1, hkeep (h.slots b copy hs).2⟩,
    fun b gen copy hg => ⟨(h.gather b gen copy hg).1, (h.gather b gen copy hg).2.1,
      hkeep (h.gather b gen copy hg).2.2⟩,
    fun b gen copy hl => ⟨(h.load b gen copy hl).1, (h.load b gen copy hl).2.1,
      hkeep (h.load b gen copy hl).2.2⟩, h.nodup⟩

theorem sameEpoch_iff {b : Int} {gen : Nat} :
    pool.sameEpoch b gen = true ↔ pool.allocated b = true ∧ gen = pool.generation b := by
  unfold LRUHostKVPool.sameEpoch
  rw [Bool.and_eq_true, beq_iff_eq, eq_comm (a := gen)]

theorem PoolOk.publishGather (h : PoolOk pool history) {ids : List Int} {gens : Int → Nat}
    {copies : Int → PageCopy δ} (hvalid : ∀ b ∈ ids, ValidAt pool history b (gens b) (copies b)) :
    PoolOk (pool.publishGather ids gens copies) history where
  free_iff := h.free_iff
  slots := h.slots
  gather := by
    intro b gen copy hgather
    dsimp only [LRUHostKVPool.publishGather] at hgather ⊢
    split at hgather
    · rename_i hpub
      cases hgather
      have hepoch := sameEpoch_iff.mp hpub.2
      exact ⟨hepoch.1, hepoch.2, (hvalid b hpub.1).current hepoch.2⟩
    · exact h.gather b gen copy hgather
  load := h.load
  nodup := h.nodup

theorem PoolOk.publishLoad (h : PoolOk pool history) {ids : List Int} {gens : Int → Nat}
    {copies : Int → Option (PageCopy δ)}
    (hvalid : ∀ b ∈ ids, ∀ copy, copies b = some copy → ValidAt pool history b (gens b) copy) :
    PoolOk (pool.publishLoad ids gens copies) history where
  free_iff := h.free_iff
  slots := h.slots
  gather := h.gather
  load := by
    intro b gen copy hload
    dsimp only [LRUHostKVPool.publishLoad] at hload ⊢
    split at hload
    · rename_i hpub
      obtain ⟨copy', hcopy, hpair⟩ := Option.map_eq_some_iff.mp hload
      cases hpair
      have hepoch := sameEpoch_iff.mp hpub.2
      exact ⟨hepoch.1, hepoch.2, (hvalid b hpub.1 copy hcopy).current hepoch.2⟩
    · exact h.load b gen copy hload
  nodup := h.nodup

theorem PoolOk.publishSlot (h : PoolOk pool history) {b : Int} {gen : Nat} {copy : PageCopy δ}
    (hvalid : ValidAt pool history b gen copy) : PoolOk (pool.publishSlot b gen copy) history := by
  unfold LRUHostKVPool.publishSlot
  split
  · rename_i hepoch
    have hepoch := sameEpoch_iff.mp hepoch
    refine ⟨h.free_iff, ?_, h.gather, h.load, h.nodup⟩
    intro b' copy' hslot
    dsimp only at hslot ⊢
    by_cases heq : b' = b
    · rw [heq, Function.update_self] at hslot
      cases hslot
      rw [heq]
      exact ⟨hepoch.1, hvalid.current hepoch.2⟩
    · rw [Function.update_of_ne heq] at hslot
      exact h.slots b' copy' hslot
  · exact h

theorem publishSlot_sameOwners (b : Int) (gen : Nat) (copy : PageCopy δ) :
    SameOwners pool (pool.publishSlot b gen copy) := by
  unfold LRUHostKVPool.publishSlot
  split <;> rfl

theorem PoolOk.dropGather (h : PoolOk pool history) (b : Int) :
    PoolOk (pool.dropGather b) history where
  free_iff := h.free_iff
  slots := h.slots
  gather := by
    intro b' gen copy hgather
    dsimp only [LRUHostKVPool.dropGather] at hgather ⊢
    by_cases heq : b' = b
    · simp [heq] at hgather
    · rw [Function.update_of_ne heq] at hgather
      exact h.gather b' gen copy hgather
  load := h.load
  nodup := h.nodup

theorem PoolOk.dropLoad (h : PoolOk pool history) (b : Int) :
    PoolOk (pool.dropLoad b) history where
  free_iff := h.free_iff
  slots := h.slots
  gather := h.gather
  load := by
    intro b' gen copy hload
    dsimp only [LRUHostKVPool.dropLoad] at hload ⊢
    by_cases heq : b' = b
    · simp [heq] at hload
    · rw [Function.update_of_ne heq] at hload
      exact h.load b' gen copy hload
  nodup := h.nodup

end Pool

/-! One step. -/

/-- A thread moves on while the pages keep their owners: what the other thread
captured stays as good as it was. -/
theorem HostInv.move {s : HostSystem δ} (h : HostInv s) (t : Thread) {task : Task δ}
    {pool : LRUHostKVPool δ} {history : List HostEvent} {scattered : List (StagedPage δ)}
    (hpool : PoolOk pool history)
    (hother : ∀ t', TaskOk pool history (s.tasks t')) (htask : TaskOk pool history task)
    (hworker : t = .worker → task.OfWorker) :
    HostInv { s.setTask t task with
      pool := pool, history := history, scattered := scattered } where
  pool := hpool
  tasks := by
    intro t'
    dsimp only [HostSystem.setTask]
    by_cases heq : t' = t
    · rw [heq, Function.update_self]
      exact htask
    · rw [Function.update_of_ne heq]
      exact hother t'
  worker := by
    dsimp only [HostSystem.setTask]
    by_cases heq : Thread.worker = t
    · rw [heq, Function.update_self]
      exact hworker heq.symm
    · rw [Function.update_of_ne heq]
      exact h.worker

theorem HostInv.step {s s' : HostSystem δ} (h : HostInv s) (hstep : HostSystem.Step s s') :
    HostInv s' := by
  have hsame : ∀ {pool : LRUHostKVPool δ}, SameOwners s.pool pool →
      ∀ t, TaskOk pool s.history (s.tasks t) := fun hown t => (h.tasks t).of_sameOwners hown
  cases hstep with
  | alloc hidle halloc =>
    obtain ⟨hpool, hgen⟩ := h.pool.of_alloc halloc
    refine ⟨hpool, fun t => TaskOk.alloc hgen (h.tasks t) ?_, h.worker⟩
    cases t with
    | kv => rw [hidle]; trivial
    | worker => exact h.worker
  | free ids hidle =>
    obtain ⟨hpool, hown⟩ := h.pool.of_freeLoop ids.eraseDups
    exact ⟨hpool, hsame hown, h.worker⟩
  | incLockRef hlock =>
    obtain ⟨lockRef, rfl⟩ := of_incLockRef hlock
    exact ⟨h.pool.of_lockRef lockRef, hsame rfl, h.worker⟩
  | decLockRef hlock =>
    obtain ⟨lockRef, rfl⟩ := of_decLockRef hlock
    exact ⟨h.pool.of_lockRef lockRef, hsame rfl, h.worker⟩
  | @stageBackup ids hidle hallocated =>
    refine h.move .kv (h.pool.stageBackup ids) (fun t => (h.tasks t).stageBackup ids) ?_
      fun hkv => by cases hkv
    intro b hb data
    exact ⟨Nat.le_refl _, fun _ => gatheredSinceAlloc_issue hb data⟩
  | gathered data htask =>
    have hok := h.tasks .kv
    rw [htask] at hok
    exact h.move .kv (h.pool.publishGather fun b hb => hok b hb (data b)) (hsame rfl) trivial
      fun _ => trivial
  | flushBackup t ids hidle =>
    exact h.move t h.pool h.tasks trivial fun _ => trivial
  | @popGather t b rest gen copy htask hpending =>
    obtain ⟨_, hgen, hg⟩ := h.pool.gather b gen copy hpending
    exact h.move t (h.pool.dropGather b) (hsame rfl) ⟨Nat.le_of_eq hgen, fun _ => hg⟩ fun _ => trivial
  | @putHost t b gen copy rest htask =>
    have hok := h.tasks t
    rw [htask] at hok
    exact h.move t (h.pool.publishSlot hok) (hsame (publishSlot_sameOwners b gen copy)) trivial
      fun _ => trivial
  | @stageLoad t ids hidle hallocated =>
    refine h.move t h.pool h.tasks ?_ fun _ => trivial
    intro b _ copy hslot
    exact ⟨Nat.le_refl _, fun _ => (h.pool.slots b copy hslot).2⟩
  | @loaded t ids gens slots htask hall =>
    have hok := h.tasks t
    rw [htask] at hok
    exact h.move t (h.pool.publishLoad hok) (hsame rfl) trivial fun _ => trivial
  | flushLoad hidle hcurrent =>
    refine h.move .kv h.pool h.tasks ?_ fun hkv => by cases hkv
    intro entry hentry
    cases hentry
  | @popLoad current b d rest staged gen copy htask hpending =>
    have hok := h.tasks .kv
    rw [htask] at hok
    obtain ⟨_, _, hg⟩ := h.pool.load b gen copy hpending
    refine h.move .kv (h.pool.dropLoad b) (hsame rfl) ?_ fun hkv => by cases hkv
    intro entry hentry
    rcases List.mem_append.mp hentry with hentry | hentry
    · exact hok entry hentry
    · rw [List.mem_singleton.mp hentry]
      exact hg
  | scatter htask => exact h.move .kv h.pool h.tasks trivial fun _ => trivial
  | stop t => exact h.move t h.pool h.tasks trivial fun _ => trivial

/-- Only the scatter of `flush_load` writes device pages. -/
theorem HostInv.scattered {s s' : HostSystem δ} (h : HostInv s) (hstep : HostSystem.Step s s') :
    ∃ new, s'.scattered = s.scattered ++ new ∧
      ∀ entry ∈ new, GatheredSinceAlloc s.history entry.page entry.copy := by
  have hnone : ∃ new, s.scattered = s.scattered ++ new ∧
      ∀ entry ∈ new, GatheredSinceAlloc s.history entry.page entry.copy :=
    ⟨[], by simp, by simp⟩
  cases hstep with
  | @scatter current staged htask =>
    have hok := h.tasks .kv
    rw [htask] at hok
    exact ⟨staged.filter (·.fresh), rfl, fun entry hentry => hok entry (List.mem_filter.mp hentry).1⟩
  | alloc _ _ | free _ _ | incLockRef _ | decLockRef _ | stageBackup _ _ | gathered _ _
  | flushBackup _ _ _ | popGather _ _ | putHost _ | stageLoad _ _ _ | loaded _ _ | flushLoad _ _
  | popLoad _ _ | stop _ => exact hnone

end SglJax.MemCache.HostPool
