import SglJax.Managers.DpIntake
import Mathlib.Algebra.BigOperators.Group.Finset.Basic
import Mathlib.Data.List.Count

/-! The snapshot of the load that an intake starts from: every live request counts once, on the
rank that owns it, however many batches and queues refer to it. -/
namespace SglJax.Managers.DpRouting

/-- A request that the scheduler owns: its identity, and the tokens that it is estimated to
need. -/
structure OwnedReq where
  ident : Nat
  finished : Bool
  tokens : Nat × Nat
deriving DecidableEq, Repr

inductive CollectError where
  | invalidRank (rank : Int)
  | multipleRanks
deriving DecidableEq, Repr

def collectLoop (dpSize : Nat) : List (Int × OwnedReq) → List (Nat × Int) → Loads →
    Except CollectError Loads
  | [], _, loads => .ok loads
  | (rank, req) :: rest, seen, loads =>
    if ¬ (0 ≤ rank ∧ rank < dpSize) then .error (.invalidRank rank)
    else
      match seen.lookup req.ident with
      | some owner =>
        if owner ≠ rank then .error .multipleRanks else collectLoop dpSize rest seen loads
      | none =>
        let seen := (req.ident, rank) :: seen
        if req.finished then collectLoop dpSize rest seen loads
        else collectLoop dpSize rest seen
          (loads.record rank.toNat req.tokens.1 req.tokens.2)

/-- `DpLoadSnapshot.collect`; the limits are passed through. -/
def collect (dpSize : Nat) (requests : List (Int × OwnedReq)) : Except CollectError Loads :=
  collectLoop dpSize requests [] (zeroLoads dpSize)

/-- The live requests of a rank. -/
def live (requests : List (Int × OwnedReq)) (rank : Nat) : Finset OwnedReq :=
  ((requests.filter fun entry => decide (entry.1 = (rank : Int)) && !entry.2.finished).map
    Prod.snd).toFinset

theorem mem_live {requests : List (Int × OwnedReq)} {rank : Nat} {req : OwnedReq} :
    req ∈ live requests rank ↔ ((rank : Int), req) ∈ requests ∧ req.finished = false := by
  unfold live
  rw [List.mem_toFinset, List.mem_map]
  constructor
  · rintro ⟨⟨r, q⟩, hmem, rfl⟩
    rw [List.mem_filter, Bool.and_eq_true, decide_eq_true_iff, Bool.not_eq_true'] at hmem
    obtain ⟨hin, rfl, hfin⟩ := hmem
    exact ⟨hin, hfin⟩
  · rintro ⟨hin, hfin⟩
    refine ⟨((rank : Int), req), ?_, rfl⟩
    rw [List.mem_filter]
    simp [hin, hfin]

/-- Requests of one identity are one object. -/
def OneObject (requests : List (Int × OwnedReq)) : Prop :=
  ∀ entry ∈ requests, ∀ entry' ∈ requests, entry.2.ident = entry'.2.ident → entry.2 = entry'.2

section collect

variable {dpSize : Nat} {requests : List (Int × OwnedReq)} {seen : List (Nat × Int)}
  {loads loads' : Loads}

/-- What has been seen on a rank is not met on another. -/
theorem collectLoop_owner (h : collectLoop dpSize requests seen loads = .ok loads') {ident : Nat}
    {owner : Int} (hseen : seen.lookup ident = some owner) :
    ∀ entry ∈ requests, entry.2.ident = ident → entry.1 = owner := by
  induction requests generalizing seen loads with
  | nil => exact fun entry hentry => absurd hentry List.not_mem_nil
  | cons first rest ih =>
    obtain ⟨rank, req⟩ := first
    unfold collectLoop at h
    split at h
    next => contradiction
    next =>
      split at h
      next o ho =>
        split at h
        next => contradiction
        next heq =>
          rw [not_not] at heq
          intro entry hentry hident
          rcases List.mem_cons.mp hentry with rfl | hentry
          · dsimp only at hident ⊢
            rw [hident, hseen] at ho
            injection ho with ho
            rw [← heq, ← ho]
          · exact ih h hseen entry hentry hident
      next hnone =>
        have hne : req.ident ≠ ident := by
          rintro rfl
          rw [hseen] at hnone
          contradiction
        have hseen' : ((req.ident, rank) :: seen).lookup ident = some owner := by
          rw [List.lookup_cons, show (ident == req.ident) = false by simpa using hne.symm]
          exact hseen
        have hrest : ∀ entry ∈ rest, entry.2.ident = ident → entry.1 = owner := by
          dsimp only at h
          split at h
          · exact ih h hseen'
          · exact ih h hseen'
        intro entry hentry hident
        rcases List.mem_cons.mp hentry with rfl | hentry
        · exact absurd hident hne
        · exact hrest entry hentry hident

/-- The live requests of a rank that have not been seen yet. -/
def fresh (requests : List (Int × OwnedReq)) (seen : List (Nat × Int)) (rank : Nat) :
    Finset OwnedReq :=
  (live requests rank).filter fun req => (seen.lookup req.ident).isNone

/-- The counters of a rank that grow by what is fresh. -/
structure Grown (loads loads' : Loads) (rank : Nat) (new : Finset OwnedReq) : Prop where
  counts : loads'.count rank = loads.count rank + new.card
  inputs : loads'.input rank = loads.input rank + ∑ req ∈ new, req.tokens.1
  outputs : loads'.output rank = loads.output rank + ∑ req ∈ new, req.tokens.2

theorem mem_fresh {rank : Nat} {req : OwnedReq} : req ∈ fresh requests seen rank ↔
    ((rank : Int), req) ∈ requests ∧ req.finished = false ∧ seen.lookup req.ident = none := by
  unfold fresh
  rw [Finset.mem_filter, mem_live, Option.isNone_iff_eq_none, and_assoc]

theorem collectLoop_grown (hone : OneObject requests) (hsized : loads.Sized dpSize)
    (h : collectLoop dpSize requests seen loads = .ok loads') {r : Nat} (hr : r < dpSize) :
    Grown loads loads' r (fresh requests seen r) := by
  induction requests generalizing seen loads with
  | nil =>
    unfold collectLoop at h
    injection h with h
    subst h
    exact ⟨rfl, rfl, rfl⟩
  | cons first rest ih =>
    obtain ⟨rank, req⟩ := first
    have hrest : OneObject rest := fun a ha b hb =>
      hone a (List.mem_cons_of_mem _ ha) b (List.mem_cons_of_mem _ hb)
    -- entries of this identity in the rest are this request
    have hsame : ∀ {rank' : Int} {q : OwnedReq}, (rank', q) ∈ rest → q.ident = req.ident →
        q = req :=
      fun hq hident => hone _ (List.mem_cons_of_mem _ hq) _ List.mem_cons_self hident
    unfold collectLoop at h
    split at h
    next => contradiction
    next hvalid =>
      rw [not_not] at hvalid
      split at h
      next owner howner =>
        split at h
        next => contradiction
        next =>
          have heq : fresh ((rank, req) :: rest) seen r = fresh rest seen r := by
            ext q
            rw [mem_fresh, mem_fresh, List.mem_cons]
            constructor
            · rintro ⟨hq | hq, hfin, hnone⟩
              · rw [Prod.mk.injEq] at hq
                rw [hq.2, howner] at hnone
                contradiction
              · exact ⟨hq, hfin, hnone⟩
            · rintro ⟨hq, hfin, hnone⟩
              exact ⟨.inr hq, hfin, hnone⟩
          rw [heq]
          exact ih hrest hsized h
      next hnone =>
        have hlookup : ∀ ident, ((req.ident, rank) :: seen).lookup ident =
            if ident = req.ident then some rank else seen.lookup ident := by
          intro ident
          rw [List.lookup_cons]
          by_cases hi : ident = req.ident
          · rw [if_pos hi, beq_iff_eq.mpr hi]
          · rw [if_neg hi, show (ident == req.ident) = false by simpa using hi]
        dsimp only at h
        -- what is fresh in the rest once this request has been seen
        have hfresh : ∀ q, q ∈ fresh rest ((req.ident, rank) :: seen) r ↔
            q ∈ fresh rest seen r ∧ q ≠ req := by
          intro q
          rw [mem_fresh, mem_fresh, hlookup]
          constructor
          · rintro ⟨hq, hfin, hn⟩
            split at hn
            next => contradiction
            next hi => exact ⟨⟨hq, hfin, hn⟩, fun heq => hi (heq ▸ rfl)⟩
          · rintro ⟨⟨hq, hfin, hn⟩, hne⟩
            rw [if_neg fun hi => hne (hsame hq hi)]
            exact ⟨hq, hfin, hn⟩
        have hcons : ∀ q, q ∈ fresh ((rank, req) :: rest) seen r ↔
            q ∈ fresh rest seen r ∨ (q = req ∧ rank = r ∧ req.finished = false) := by
          intro q
          rw [mem_fresh, mem_fresh, List.mem_cons, Prod.mk.injEq]
          constructor
          · rintro ⟨⟨hrank, rfl⟩ | hq, hfin, hn⟩
            · exact .inr ⟨rfl, hrank.symm, hfin⟩
            · exact .inl ⟨hq, hfin, hn⟩
          · rintro (⟨hq, hfin, hn⟩ | ⟨rfl, hrank, hfin⟩)
            · exact ⟨.inr hq, hfin, hn⟩
            · exact ⟨.inl ⟨hrank.symm, rfl⟩, hfin, hnone⟩
        have hseen : ((req.ident, rank) :: seen).lookup req.ident = some rank := by
          rw [hlookup, if_pos rfl]
        split at h
        next hfin =>
          have heq : fresh ((rank, req) :: rest) seen r =
              fresh rest ((req.ident, rank) :: seen) r := by
            ext q
            rw [hcons, hfresh]
            constructor
            · rintro (hq | ⟨rfl, -, hf⟩)
              · refine ⟨hq, ?_⟩
                rintro rfl
                rw [mem_fresh] at hq
                rw [hfin] at hq
                exact absurd hq.2.1 (by decide)
              · rw [hfin] at hf
                exact absurd hf (by decide)
            · exact fun hq => .inl hq.1
          rw [heq]
          exact ih hrest hsized h
        next hfin =>
          rw [Bool.not_eq_true] at hfin
          have hgrown := ih hrest (hsized.record rank.toNat req.tokens.1 req.tokens.2) h
          have howner := collectLoop_owner h hseen
          obtain ⟨hc, hi, ho⟩ := record_rank hsized hr rank.toNat req.tokens.1 req.tokens.2
          by_cases hrank : rank = r
          · have hnot : req ∉ fresh rest ((req.ident, rank) :: seen) r :=
              fun hmem => ((hfresh req).mp hmem).2 rfl
            have heq : fresh ((rank, req) :: rest) seen r =
                insert req (fresh rest ((req.ident, rank) :: seen) r) := by
              ext q
              rw [hcons, Finset.mem_insert, hfresh]
              by_cases hq : q = req <;> simp [hq, hrank, hfin]
            rw [if_pos (by omega)] at hc hi ho
            rw [heq]
            constructor
            · rw [Finset.card_insert_of_notMem hnot, hgrown.counts, hc]
              omega
            · rw [Finset.sum_insert hnot, hgrown.inputs, hi]
              omega
            · rw [Finset.sum_insert hnot, hgrown.outputs, ho]
              omega
          · have heq : fresh ((rank, req) :: rest) seen r =
                fresh rest ((req.ident, rank) :: seen) r := by
              ext q
              rw [hcons, hfresh]
              constructor
              · rintro (hq | ⟨-, hr', -⟩)
                · refine ⟨hq, ?_⟩
                  rintro rfl
                  exact hrank (howner _ (mem_fresh.mp hq).1 rfl).symm
                · exact absurd hr' hrank
              · exact fun hq => .inl hq.1
            rw [if_neg (by omega)] at hc hi ho
            rw [heq]
            rw [Nat.add_zero] at hc hi ho
            exact ⟨by rw [hgrown.counts, hc], by rw [hgrown.inputs, hi], by rw [hgrown.outputs, ho]⟩

theorem collect_grown (hone : OneObject requests) (h : collect dpSize requests = .ok loads)
    {r : Nat} (hr : r < dpSize) : Grown (zeroLoads dpSize) loads r (live requests r) := by
  have hfresh : fresh requests [] r = live requests r := by
    unfold fresh
    exact Finset.filter_true_of_mem fun _ _ => rfl
  rw [← hfresh]
  exact collectLoop_grown hone (sized_zeroLoads dpSize) h hr

theorem getD_replicate_zero (n i : Nat) : (List.replicate n 0).getD i 0 = 0 := by
  rw [List.getD_eq_getElem?_getD, List.getElem?_replicate]
  split <;> rfl

theorem collectLoop_sized (hsized : loads.Sized dpSize)
    (h : collectLoop dpSize requests seen loads = .ok loads') : loads'.Sized dpSize := by
  induction requests generalizing seen loads with
  | nil =>
    unfold collectLoop at h
    injection h with h
    exact h ▸ hsized
  | cons first rest ih =>
    obtain ⟨rank, req⟩ := first
    unfold collectLoop at h
    split at h
    next => contradiction
    next =>
      split at h
      next =>
        split at h
        next => contradiction
        next => exact ih hsized h
      next =>
        dsimp only at h
        split at h
        next => exact ih hsized h
        next => exact ih (hsized.record _ _ _) h

end collect

/-- After an intake that looks at the load, the counters of a rank are its live requests, each
once however often the scheduler refers to it, and the requests that the intake has let through
to it. -/
theorem intake_counts_live {γ : Type} (env : RouterEnv) (router : DpRouter)
    (messages : List (Message γ)) (requests : List (Int × OwnedReq)) (hone : OneObject requests)
    (hcollect : collect router.dpSize requests = .ok router.loads) (hsize : router.dpSize ≠ 1)
    (hpolicy : router.policy ≠ .roundRobin) (r : Nat) (hr : r < router.dpSize) :
    (assignDpRanks env router messages).1.loads.count r =
        (live requests r).card + bound r (assignDpRanks env router messages).2.1 ∧
      (assignDpRanks env router messages).1.loads.input r =
        (∑ req ∈ live requests r, req.tokens.1) + (boundTokens env r (assignDpRanks env router messages).2.1).1 ∧
      (assignDpRanks env router messages).1.loads.output r =
        (∑ req ∈ live requests r, req.tokens.2) + (boundTokens env r (assignDpRanks env router messages).2.1).2 := by
  have hgrown := collect_grown hone hcollect hr
  obtain ⟨hcount, hinput, houtput⟩ := assignDpRanks_counts env router messages
    (collectLoop_sized (sized_zeroLoads _) hcollect) hsize hpolicy r hr
  have hzero : (zeroLoads router.dpSize).count r = 0 ∧ (zeroLoads router.dpSize).input r = 0 ∧
      (zeroLoads router.dpSize).output r = 0 :=
    ⟨getD_replicate_zero _ _, getD_replicate_zero _ _, getD_replicate_zero _ _⟩
  rw [hcount, hinput, houtput, hgrown.counts, hgrown.inputs, hgrown.outputs, hzero.1, hzero.2.1,
    hzero.2.2, Nat.zero_add, Nat.zero_add, Nat.zero_add]
  exact ⟨rfl, rfl, rfl⟩

/-- Two queues refer to one of three requests; one of them has finished. -/
def sharedRequests : List (Int × OwnedReq) :=
  [(0, ⟨7, false, (3, 2)⟩), (1, ⟨8, true, (5, 5)⟩), (0, ⟨7, false, (3, 2)⟩),
    (1, ⟨9, false, (1, 4)⟩)]

theorem sharedRequests_counted :
    (assignDpRanks plainEnv (twoRanks .minRunningQueue)
        [Message.generate (γ := Unit) (plainReq 1)]).1.loads.count 0
      = (live sharedRequests 0).card + 1 := by
  have h := intake_counts_live plainEnv (twoRanks .minRunningQueue)
    [Message.generate (γ := Unit) (plainReq 1)] sharedRequests (by unfold OneObject; decide) (by decide) (by decide) (by decide) 0 (by decide)
  rw [h.1]
  decide

end SglJax.Managers.DpRouting
