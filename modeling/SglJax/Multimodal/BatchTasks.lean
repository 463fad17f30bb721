import SglJax.Multimodal.HostOrchestration

/-! Which tasks a batch has: scheduling, the lookups of execution and the rebalancing pass
them on, and none is lost or made up. -/
namespace SglJax.Multimodal

open Foundation

variable {F K : Type}

theorem tasksOf_setKey (lane : LaneTasks F) (modality other : Modality)
    (tasks : List (ItemTask F)) :
    tasksOf (setKey lane modality tasks) other =
      if other = modality then tasks else tasksOf lane other := by
  unfold tasksOf
  rw [lookup_setKey]
  by_cases h : other = modality <;> simp [h]

theorem tasksOf_nil (modality : Modality) : tasksOf ([] : LaneTasks F) modality = [] := rfl

theorem tasksOf_eq_nil {lane : LaneTasks F} {modality : Modality}
    (h : modality ∉ lane.map Prod.fst) : tasksOf lane modality = [] := by
  rw [tasksOf, lookup_eq_none_iff.mpr h, Option.getD_none]

theorem nodup_keys_setKey {κ ν : Type} [DecidableEq κ] {l : List (κ × ν)}
    (h : (l.map Prod.fst).Nodup) (key : κ) (v : ν) : ((setKey l key v).map Prod.fst).Nodup := by
  unfold setKey
  split
  · have hkeys : (l.map fun e => if e.1 = key then (key, v) else e).map Prod.fst =
        l.map Prod.fst := by
      rw [List.map_map]
      apply List.map_congr_left
      intro e _
      by_cases he : e.1 = key <;> simp [he]
    rwa [hkeys]
  · next hkey => exact nodup_keys_concat h hkey v

/-- The groups of the tasks so far, and of those that follow. -/
theorem groupTasks_from (tasks : List (ItemTask F)) (grouped : LaneTasks F)
    (hnodup : (grouped.map Prod.fst).Nodup) :
    let all := tasks.foldl (fun grouped task =>
      setKey grouped task.item.modality (tasksOf grouped task.item.modality ++ [task])) grouped
    (all.map Prod.fst).Nodup ∧
    (∀ modality, tasksOf all modality =
      tasksOf grouped modality ++ tasks.filter fun task => task.item.modality = modality) ∧
    ∀ modality, modality ∈ all.map Prod.fst ↔
      modality ∈ grouped.map Prod.fst ∨ ∃ task ∈ tasks, task.item.modality = modality := by
  induction tasks generalizing grouped with
  | nil => simpa using hnodup
  | cons task tasks ih =>
    obtain ⟨hkeys, hget, hmem⟩ := ih
      (setKey grouped task.item.modality (tasksOf grouped task.item.modality ++ [task]))
      (nodup_keys_setKey hnodup _ _)
    refine ⟨hkeys, fun modality => ?_, fun modality => ?_⟩
    · rw [List.foldl_cons, hget, tasksOf_setKey]
      by_cases h : modality = task.item.modality
      · simp [h]
      · simp [h, Ne.symm h]
    · rw [List.foldl_cons, hmem, mem_keys_setKey]
      simp only [List.mem_cons, exists_eq_or_imp, eq_comm (a := modality)]
      tauto

theorem nodup_groupTasks (tasks : List (ItemTask F)) : ((groupTasks tasks).map Prod.fst).Nodup :=
  (groupTasks_from tasks [] List.nodup_nil).1

theorem mem_keys_groupTasks {tasks : List (ItemTask F)} {modality : Modality} :
    modality ∈ (groupTasks tasks).map Prod.fst ↔
      ∃ task ∈ tasks, task.item.modality = modality := by
  have hmem := (groupTasks_from tasks [] List.nodup_nil).2.2 modality
  rwa [List.map_nil, List.mem_nil_iff, false_or] at hmem

/-- A group has the tasks of its modality, in their order. -/
theorem group_eq {tasks : List (ItemTask F)} {group : Modality × List (ItemTask F)}
    (h : group ∈ groupTasks tasks) :
    group.2 = tasks.filter fun task => task.item.modality = group.1 := by
  have hget := (groupTasks_from tasks [] List.nodup_nil).2.1 group.1
  have hlookup : (groupTasks tasks).lookup group.1 = some group.2 :=
    (lookup_eq_some_iff (nodup_groupTasks tasks)).mpr h
  rw [tasksOf_nil, List.nil_append] at hget
  rw [← hget]
  show group.2 = ((groupTasks tasks).lookup group.1).getD []
  rw [hlookup, Option.getD_some]

theorem mem_pickTasks {tasks : List (ItemTask F)} {indices : List Nat} {task : ItemTask F} :
    task ∈ pickTasks tasks indices ↔ ∃ i ∈ indices, tasks[i]? = some task := by
  simp [pickTasks]

section Spread

variable {setEmpty : Bool} {modality : Modality} {tasks : List (ItemTask F)}
  {lanes : List (LaneTasks F)}

/-- A lane after its turn, and the indices that it got. -/
theorem mem_spreadTasks {lane : LaneTasks F} :
    lane ∈ spreadTasks setEmpty modality tasks lanes ↔ ∃ (i : Nat) (old : LaneTasks F)
      (indices : List Nat), lanes[i]? = some old ∧
      (balanceLanes (tasks.map fun task => task.item.feature.length) lanes.length)[i]? =
        some indices ∧
      lane = if setEmpty ∨ indices ≠ [] then setKey old modality (pickTasks tasks indices)
        else old := by
  rw [spreadTasks, List.mem_iff_getElem?]
  refine exists_congr fun i => ?_
  rw [List.getElem?_zipWith_eq_some]
  simp only [eq_comm (a := lane)]

theorem length_spreadTasks (hlanes : lanes ≠ []) :
    (spreadTasks setEmpty modality tasks lanes).length = lanes.length := by
  rw [spreadTasks, List.length_zipWith, length_balanceLanes _ (List.length_pos_iff.mpr hlanes),
    Nat.min_self]

theorem exists_indices (tasks : List (ItemTask F)) (hlanes : lanes ≠ []) {i : Nat}
    (hi : i < lanes.length) :
    ∃ indices, (balanceLanes (tasks.map fun task => task.item.feature.length)
      lanes.length)[i]? = some indices := by
  rw [← length_balanceLanes (tasks.map fun task => task.item.feature.length)
    (List.length_pos_iff.mpr hlanes)] at hi
  exact ⟨_, List.getElem?_eq_getElem hi⟩

/-- The lanes have exactly the tasks that are spread. -/
theorem mem_tasksOf_spreadTasks (hlanes : lanes ≠ [])
    (hold : setEmpty = true ∨ ∀ lane ∈ lanes, tasksOf lane modality = []) {task : ItemTask F} :
    (∃ lane ∈ spreadTasks setEmpty modality tasks lanes, task ∈ tasksOf lane modality) ↔
      task ∈ tasks := by
  have hperm := balanceLanes_perm (tasks.map fun task => task.item.feature.length)
    (List.length_pos_iff.mpr hlanes)
  rw [List.length_map] at hperm
  constructor
  · rintro ⟨lane, hlane, htask⟩
    obtain ⟨i, old, indices, hget, -, rfl⟩ := mem_spreadTasks.mp hlane
    by_cases hset : setEmpty = true ∨ indices ≠ []
    · rw [if_pos (by simpa using hset), tasksOf_setKey, if_pos rfl] at htask
      obtain ⟨j, -, hj⟩ := mem_pickTasks.mp htask
      exact List.mem_of_getElem? hj
    · rw [if_neg (by simpa using hset)] at htask
      rcases hold with hempty | hold
      · exact absurd (.inl hempty) hset
      · rw [hold old (List.mem_of_getElem? hget)] at htask
        cases htask
  · intro htask
    obtain ⟨j, hj⟩ := List.mem_iff_getElem?.mp htask
    have hlt := (List.getElem?_eq_some_iff.mp hj).1
    obtain ⟨indices, hindices, hmem⟩ := List.mem_flatten.mp
      (hperm.mem_iff.mpr (List.mem_range.mpr hlt))
    obtain ⟨i, hi⟩ := List.mem_iff_getElem?.mp hindices
    have hilt := (List.getElem?_eq_some_iff.mp hi).1
    rw [length_balanceLanes _ (List.length_pos_iff.mpr hlanes)] at hilt
    refine ⟨_, mem_spreadTasks.mpr ⟨i, _, indices, List.getElem?_eq_getElem hilt, hi, rfl⟩, ?_⟩
    rw [if_pos (.inr (List.ne_nil_of_mem hmem)), tasksOf_setKey, if_pos rfl]
    exact mem_pickTasks.mpr ⟨j, hmem, hj⟩

/-- The tasks of the other modalities stay. -/
theorem mem_tasksOf_spreadTasks_of_ne (hlanes : lanes ≠ []) {other : Modality}
    (hne : other ≠ modality) {task : ItemTask F} :
    (∃ lane ∈ spreadTasks setEmpty modality tasks lanes, task ∈ tasksOf lane other) ↔
      ∃ lane ∈ lanes, task ∈ tasksOf lane other := by
  have hsame (old : LaneTasks F) (indices : List Nat) : tasksOf
      (if setEmpty ∨ indices ≠ [] then setKey old modality (pickTasks tasks indices) else old)
      other = tasksOf old other := by
    split
    · rw [tasksOf_setKey, if_neg hne]
    · rfl
  constructor
  · rintro ⟨lane, hlane, htask⟩
    obtain ⟨i, old, indices, hget, -, rfl⟩ := mem_spreadTasks.mp hlane
    rw [hsame] at htask
    exact ⟨old, List.mem_of_getElem? hget, htask⟩
  · rintro ⟨old, hold, htask⟩
    obtain ⟨i, hi⟩ := List.mem_iff_getElem?.mp hold
    obtain ⟨indices, hindices⟩ := exists_indices tasks hlanes
      (List.getElem?_eq_some_iff.mp hi).1
    refine ⟨_, mem_spreadTasks.mpr ⟨i, old, indices, hi, hindices, rfl⟩, ?_⟩
    rw [hsame]
    exact htask

end Spread

/-- The lanes have the tasks, each under its modality, and no modality without one. -/
structure LanesHold (numLanes : Nat) (lanes : List (LaneTasks F)) (tasks : ItemTask F → Prop) :
    Prop where
  count : lanes.length = numLanes
  nonempty : lanes ≠ []
  modality : ∀ lane ∈ lanes, ∀ modality, ∀ task ∈ tasksOf lane modality,
    task.item.modality = modality
  occupied : ∀ lane ∈ lanes, ∀ modality ∈ lane.map Prod.fst,
    ∃ other ∈ lanes, tasksOf other modality ≠ []
  mem : ∀ task, (∃ lane ∈ lanes, task ∈ tasksOf lane task.item.modality) ↔ tasks task

section Hold

variable {numLanes : Nat}

theorem LanesHold.congr {lanes : List (LaneTasks F)} {held held' : ItemTask F → Prop}
    (h : LanesHold numLanes lanes held) (heq : ∀ task, held task ↔ held' task) :
    LanesHold numLanes lanes held' where
  count := h.count
  nonempty := h.nonempty
  modality := h.modality
  occupied := h.occupied
  mem := fun task => (h.mem task).trans (heq task)

theorem replicate_hold (hlanes : 0 < numLanes) :
    LanesHold numLanes (List.replicate numLanes ([] : LaneTasks F)) fun _ => False where
  count := List.length_replicate
  nonempty := by
    rw [← List.length_pos_iff, List.length_replicate]
    exact hlanes
  modality := by
    intro lane hlane modality task htask
    rw [List.eq_of_mem_replicate hlane] at htask
    cases htask
  occupied := by
    intro lane hlane modality hmem
    rw [List.eq_of_mem_replicate hlane] at hmem
    cases hmem
  mem := by
    refine fun task => ⟨?_, False.elim⟩
    rintro ⟨lane, hlane, htask⟩
    rw [List.eq_of_mem_replicate hlane] at htask
    cases htask

/-- The tasks of one modality are spread: they take the place of those the lanes had. -/
theorem LanesHold.spread {lanes : List (LaneTasks F)} {held : ItemTask F → Prop}
    (h : LanesHold numLanes lanes held) (setEmpty : Bool) (modality : Modality)
    (tasks : List (ItemTask F))
    (hold : setEmpty = true ∨ ∀ lane ∈ lanes, tasksOf lane modality = [])
    (hmodality : ∀ task ∈ tasks, task.item.modality = modality) (hne : tasks ≠ []) :
    LanesHold numLanes (spreadTasks setEmpty modality tasks lanes)
      fun task => (task.item.modality ≠ modality ∧ held task) ∨ task ∈ tasks where
  count := (length_spreadTasks h.nonempty).trans h.count
  nonempty := by
    rw [← List.length_pos_iff, length_spreadTasks h.nonempty, List.length_pos_iff]
    exact h.nonempty
  modality := by
    intro lane hlane other task htask
    by_cases hother : other = modality
    · subst hother
      exact hmodality task ((mem_tasksOf_spreadTasks h.nonempty hold).mp ⟨lane, hlane, htask⟩)
    · obtain ⟨old, hmem, htask⟩ :=
        (mem_tasksOf_spreadTasks_of_ne h.nonempty hother).mp ⟨lane, hlane, htask⟩
      exact h.modality old hmem other task htask
  occupied := by
    intro lane hlane other hother
    by_cases heq : other = modality
    · obtain ⟨task, htask⟩ := List.exists_mem_of_ne_nil tasks hne
      obtain ⟨lane', hlane', htask'⟩ :=
        (mem_tasksOf_spreadTasks h.nonempty hold).mpr htask
      exact ⟨lane', hlane', heq ▸ List.ne_nil_of_mem htask'⟩
    · obtain ⟨i, old, indices, hget, -, rfl⟩ := mem_spreadTasks.mp hlane
      have hkey : other ∈ old.map Prod.fst := by
        split at hother
        · exact (mem_keys_setKey.mp hother).resolve_left heq
        · exact hother
      obtain ⟨lane, hlane, hsome⟩ := h.occupied old (List.mem_of_getElem? hget) other hkey
      obtain ⟨task, htask⟩ := List.exists_mem_of_ne_nil _ hsome
      obtain ⟨lane', hlane', htask'⟩ :=
        (mem_tasksOf_spreadTasks_of_ne h.nonempty heq).mpr ⟨lane, hlane, htask⟩
      exact ⟨lane', hlane', List.ne_nil_of_mem htask'⟩
  mem := by
    intro task
    by_cases heq : task.item.modality = modality
    · rw [heq, mem_tasksOf_spreadTasks h.nonempty hold]
      simp
    · rw [mem_tasksOf_spreadTasks_of_ne h.nonempty heq, h.mem]
      have habsent : task ∉ tasks := fun htask => heq (hmodality task htask)
      simp [heq, habsent]

/-- What a batch comes to: of the tasks, those that were cached are set apart, and the lanes
have the others. -/
structure MultimodalBatch.Holds (numLanes : Nat) (batch : MultimodalBatch F)
    (tasks : List (ItemTask F)) (cached : ItemTask F → Prop) : Prop where
  lanes : LanesHold numLanes batch.perLaneTasks fun task => task ∈ tasks ∧ ¬ cached task
  mem_cached : ∀ task, task ∈ batch.cachedTasks ↔ task ∈ tasks ∧ cached task

section Build

variable {pool : Option (EmbeddingPool K)} {tasks : List (ItemTask F)}

/-- The groups that are left, when those before had the modalities `past`. -/
theorem addModality_all (pool : Option (EmbeddingPool K)) (tasks : List (ItemTask F))
    (groups : LaneTasks F) (hgroups : ∀ group ∈ groups, group ∈ groupTasks tasks)
    (hnodup : (groups.map Prod.fst).Nodup)
    (past : Modality → Prop) (hpast : ∀ group ∈ groups, ¬ past group.1)
    (batch : MultimodalBatch F)
    (hlanes : LanesHold numLanes batch.perLaneTasks fun task =>
      (task ∈ tasks ∧ past task.item.modality) ∧ ¬ isCached pool task)
    (hcached : ∀ task, task ∈ batch.cachedTasks ↔
      (task ∈ tasks ∧ past task.item.modality) ∧ isCached pool task) :
    let all := groups.foldl (addModality pool) batch
    LanesHold numLanes all.perLaneTasks (fun task => (task ∈ tasks ∧
      (past task.item.modality ∨ task.item.modality ∈ groups.map Prod.fst)) ∧
      ¬ isCached pool task) ∧
    ∀ task, task ∈ all.cachedTasks ↔ (task ∈ tasks ∧
      (past task.item.modality ∨ task.item.modality ∈ groups.map Prod.fst)) ∧
      isCached pool task := by
  induction groups generalizing past batch with
  | nil =>
    simp only [List.foldl_nil, List.map_nil, List.not_mem_nil, or_false]
    exact ⟨hlanes, hcached⟩
  | cons group groups ih =>
    obtain ⟨modality, members⟩ := group
    obtain ⟨hfresh, hnodup⟩ := List.nodup_cons.mp hnodup
    have hmembers : ∀ task, task ∈ members ↔ task ∈ tasks ∧ task.item.modality = modality := by
      intro task
      rw [show members = _ from group_eq (hgroups _ List.mem_cons_self)]
      simp
    have hnew := hpast _ List.mem_cons_self
    have hstep := ih (fun g hg => hgroups g (List.mem_cons_of_mem _ hg)) hnodup
      (fun m => past m ∨ m = modality) (fun g hg => not_or.mpr
        ⟨hpast g (List.mem_cons_of_mem _ hg), fun heq => hfresh (List.mem_map.mpr ⟨g, hg, heq⟩)⟩)
      (addModality pool batch (modality, members)) ?_ ?_
    · simpa only [List.foldl_cons, List.map_cons, List.mem_cons, or_assoc] using hstep
    · unfold addModality
      dsimp only
      by_cases hmisses : members.filter (fun task => ¬ isCached pool task) = []
      · rw [if_neg (not_not_intro hmisses)]
        refine hlanes.congr fun task => ?_
        have hall : ∀ task ∈ members, isCached pool task := by
          simpa [List.filter_eq_nil_iff] using hmisses
        constructor
        · rintro ⟨⟨hmem, hp⟩, hc⟩
          exact ⟨⟨hmem, .inl hp⟩, hc⟩
        · rintro ⟨⟨hmem, hp | hp⟩, hc⟩
          · exact ⟨⟨hmem, hp⟩, hc⟩
          · exact absurd (hall task ((hmembers task).mpr ⟨hmem, hp⟩)) hc
      · rw [if_pos hmisses]
        have hempty : ∀ lane ∈ batch.perLaneTasks, tasksOf lane modality = [] := by
          intro lane hlane
          rw [List.eq_nil_iff_forall_not_mem]
          intro task htask
          have heq := hlanes.modality lane hlane modality task htask
          obtain ⟨⟨-, hp⟩, -⟩ := (hlanes.mem task).mp ⟨lane, hlane, heq ▸ htask⟩
          exact hnew (heq ▸ hp)
        refine (hlanes.spread false modality _ (.inr hempty) (fun task htask => ?_) hmisses).congr
          fun task => ?_
        · exact ((hmembers task).mp (List.mem_of_mem_filter htask)).2
        · rw [List.mem_filter, hmembers]
          by_cases heq : task.item.modality = modality
          · subst heq
            simp [hnew]
          · simp [heq]
    · intro task
      unfold addModality
      rw [List.mem_append, hcached, List.mem_filter, hmembers]
      tauto

theorem groupTasks_eq_nil : groupTasks tasks = [] ↔ tasks = [] := by
  constructor
  · intro h
    rw [List.eq_nil_iff_forall_not_mem]
    intro task htask
    have hkey := mem_keys_groupTasks.mpr ⟨task, htask, rfl⟩
    rw [h] at hkey
    cases hkey
  · rintro rfl
    rfl

/-- Scheduling has a batch when a task is in the window, and then with all tasks. -/
theorem buildMultimodalBatch_spec {infos : List (RankInfo F)} (dpSize perDpToken : Nat)
    {numEncoderLanes : Nat} (hlanes : 0 < numEncoderLanes) :
    (collectItemTasks (some infos) dpSize perDpToken = [] ∧
      buildMultimodalBatch (some infos) dpSize true perDpToken pool numEncoderLanes =
        .ok none) ∨
    collectItemTasks (some infos) dpSize perDpToken ≠ [] ∧ ∃ batch,
      buildMultimodalBatch (some infos) dpSize true perDpToken pool numEncoderLanes =
        .ok (some batch) ∧
      batch.Holds numEncoderLanes (collectItemTasks (some infos) dpSize perDpToken)
        fun task => isCached pool task := by
  unfold buildMultimodalBatch
  rw [if_neg (by omega), if_neg (by simp)]
  generalize collectItemTasks (some infos) dpSize perDpToken = tasks
  by_cases hempty : tasks = []
  · exact .inl ⟨hempty, if_pos (by simp [hempty, groupTasks])⟩
  · right
    refine ⟨hempty, _, if_neg ?_, ?_⟩
    · rwa [List.isEmpty_iff, groupTasks_eq_nil]
    · have hall := addModality_all pool tasks (groupTasks tasks) (fun _ h => h)
        (nodup_groupTasks tasks) (fun _ => False) (fun _ _ h => h)
        ⟨List.replicate numEncoderLanes [], []⟩
        ((replicate_hold hlanes).congr (by simp)) (by simp)
      have hkey (task : ItemTask F) (htask : task ∈ tasks) :
          task.item.modality ∈ (groupTasks tasks).map Prod.fst :=
        mem_keys_groupTasks.mpr ⟨task, htask, rfl⟩
      refine ⟨hall.1.congr fun task => ?_, fun task => (hall.2 task).trans ?_⟩
      · have := hkey task
        tauto
      · have := hkey task
        tauto

end Build

/-- What expired joins the tasks of its modality. -/
theorem LanesHold.rebalance {lanes : List (LaneTasks F)} {held : ItemTask F → Prop}
    (h : LanesHold numLanes lanes held) (expired : List (ItemTask F)) :
    LanesHold numLanes (rebalance expired lanes) fun task => held task ∨ task ∈ expired := by
  suffices hfold : ∀ groups : LaneTasks F, (∀ group ∈ groups, group ∈ groupTasks expired) →
      ∀ lanes held, LanesHold numLanes lanes held → LanesHold numLanes
        (groups.foldl (fun lanes group => spreadTasks true group.1
          (lanes.flatMap (tasksOf · group.1) ++ group.2) lanes) lanes)
        fun task => held task ∨ task ∈ expired ∧ task.item.modality ∈ groups.map Prod.fst by
    refine (hfold (groupTasks expired) (fun _ hg => hg) lanes held h).congr fun task => ?_
    refine or_congr_right ⟨fun hm => hm.1, fun hm => ⟨hm, ?_⟩⟩
    exact mem_keys_groupTasks.mpr ⟨task, hm, rfl⟩
  intro groups
  induction groups with
  | nil =>
    intro _ lanes held h
    simpa using h
  | cons group groups ih =>
    intro hgroups lanes held h
    obtain ⟨modality, members⟩ := group
    have hmembers : ∀ task, task ∈ members ↔ task ∈ expired ∧ task.item.modality = modality := by
      intro task
      rw [show members = _ from group_eq (hgroups _ List.mem_cons_self)]
      simp
    have hthere : ∀ task, task ∈ lanes.flatMap (tasksOf · modality) ↔
        held task ∧ task.item.modality = modality := by
      intro task
      rw [List.mem_flatMap, ← h.mem]
      constructor
      · rintro ⟨lane, hlane, htask⟩
        have heq := h.modality lane hlane modality task htask
        exact ⟨⟨lane, hlane, heq ▸ htask⟩, heq⟩
      · rintro ⟨⟨lane, hlane, htask⟩, heq⟩
        exact ⟨lane, hlane, heq ▸ htask⟩
    have hne : members ≠ [] := by
      obtain ⟨task, htask, heq⟩ := mem_keys_groupTasks.mp
        (List.mem_map.mpr ⟨_, hgroups _ List.mem_cons_self, rfl⟩)
      exact List.ne_nil_of_mem ((hmembers task).mpr ⟨htask, heq⟩)
    have hspread := h.spread true modality (lanes.flatMap (tasksOf · modality) ++ members)
      (.inl rfl) ?_ ?_
    · refine (ih (fun g hg => hgroups g (List.mem_cons_of_mem _ hg)) _ _ hspread).congr
        fun task => ?_
      rw [List.mem_append, hthere, hmembers, List.map_cons, List.mem_cons]
      tauto
    · intro task htask
      rcases List.mem_append.mp htask with htask | htask
      · exact ((hthere task).mp htask).2
      · exact ((hmembers task).mp htask).2
    · simp [hne]

end Hold

/-- Every task is a hit or has expired; a hit has an entry under its hash. -/
structure Lookups.Of (lookups : Lookups F K) (tasks : List (ItemTask F))
    (pool pool' : EmbeddingPool K) : Prop where
  pool_eq : lookups.pool = some pool'
  partitioned : pool'.Partitioned
  buffer : EmbeddingPool.SameBuffer pool pool'
  entries : pool'.entries.Perm pool.entries
  hits : ∀ hit ∈ lookups.hits, (hit.1.item.hash, hit.2) ∈ pool.entries
  mem : ∀ task, task ∈ tasks ↔ task ∈ lookups.hits.map Prod.fst ∨ task ∈ lookups.expired

theorem lookupTasks_none (tasks : List (ItemTask F)) :
    lookupTasks (K := K) tasks none = ⟨[], tasks, none⟩ := by
  induction tasks with
  | nil => rfl
  | cons task tasks ih => rw [lookupTasks, ih]

theorem lookupTasks_some (tasks : List (ItemTask F)) {pool : EmbeddingPool K}
    (h : pool.Partitioned) :
    ∃ pool', (lookupTasks tasks (some pool)).Of tasks pool pool' := by
  induction tasks generalizing pool with
  | nil =>
    refine ⟨pool, rfl, h, .refl pool, .refl _, fun hit hhit => ?_, fun task => ?_⟩
    · cases hhit
    · simp [lookupTasks]
  | cons task tasks ih =>
    obtain ⟨hfst, hpart, hbuffer, -, hperm⟩ := EmbeddingPool.lookup_spec h task.item.hash
    obtain ⟨pool', hof⟩ := ih hpart
    rw [lookupTasks]
    rcases hres : pool.lookup task.item.hash with ⟨_ | entry, pool₁⟩
    all_goals
      rw [hres] at hfst hpart hbuffer hperm hof
      dsimp only at hfst hpart hbuffer hperm hof ⊢
    · refine ⟨pool', hof.pool_eq, hof.partitioned, hbuffer.trans hof.buffer,
        hof.entries.trans hperm, fun hit hhit => hperm.mem_iff.mp (hof.hits hit hhit),
        fun other => ?_⟩
      rw [List.mem_cons, hof.mem, List.mem_cons]
      tauto
    · refine ⟨pool', hof.pool_eq, hof.partitioned, hbuffer.trans hof.buffer,
        hof.entries.trans hperm, fun hit hhit => ?_, fun other => ?_⟩
      · rcases List.mem_cons.mp hhit with rfl | hhit
        · exact (lookup_eq_some_iff h.keys).mp hfst.symm
        · exact hperm.mem_iff.mp (hof.hits hit hhit)
      · rw [List.mem_cons, hof.mem, List.map_cons, List.mem_cons]
        tauto

end SglJax.Multimodal
