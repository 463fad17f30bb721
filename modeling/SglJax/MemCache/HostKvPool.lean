import Mathlib.Data.List.Basic
import Mathlib.Logic.Function.Basic
import Mathlib.Tactic.Common

/-! `LRUHostKVPool` as two threads run it. Every lock-protected section of the pool
is one function here; a transfer keeps what it captured in one section until its
next one. -/
namespace SglJax.MemCache.HostPool

variable {δ : Type}

/-- A page packed over its layers: the host page it was gathered for, and which
event of the history the `stage_backup` was that gathered it. -/
structure PageCopy (δ : Type) where
  page : Int
  issue : Nat
  data : δ

inductive HostPoolError where
  | valueError (message : String)
  | runtimeError (message : String)
deriving DecidableEq, Repr

structure LRUHostKVPool (δ : Type) where
  poolSize : Nat
  freeIds : List Int
  slots : Int → Option (PageCopy δ)
  lockRef : Int → Nat
  allocated : Int → Bool
  generation : Int → Nat
  pendingGather : Int → Option (Nat × PageCopy δ)
  pendingLoad : Int → Option (Nat × PageCopy δ)

namespace LRUHostKVPool

def init (poolSize : Nat) : LRUHostKVPool δ where
  poolSize := poolSize
  freeIds := (List.range poolSize).map Int.ofNat
  slots := fun _ => none
  lockRef := fun _ => 0
  allocated := fun _ => false
  generation := fun _ => 0
  pendingGather := fun _ => none
  pendingLoad := fun _ => none

variable (pool : LRUHostKVPool δ)

def outside (label : String) (pid : Int) : HostPoolError :=
  .valueError (label ++ "=" ++ toString pid ++ " outside pool range [0, " ++
    toString pool.poolSize ++ ")")

/-- `alloc`: the pages, or `none` when there are not enough. -/
def alloc (needPages : Int) : Except HostPoolError (Option (List Int × LRUHostKVPool δ)) :=
  if needPages ≤ 0 then
    .error (.valueError ("need_pages must be positive, got " ++ toString needPages))
  else if (pool.freeIds.length : Int) < needPages then .ok none
  else
    let pages := pool.freeIds.take needPages.toNat
    .ok (some (pages,
      { pool with
        freeIds := pool.freeIds.drop needPages.toNat
        allocated := fun b => if b ∈ pages then true else pool.allocated b
        generation := fun b => if b ∈ pages then pool.generation b + 1 else pool.generation b }))

/-- The body of the loop of `free`. -/
def freePage (pid : Int) : Except HostPoolError (LRUHostKVPool δ) :=
  if ¬ (0 ≤ pid ∧ pid < pool.poolSize) then .error (pool.outside "page id" pid)
  else if pid ∈ pool.freeIds then
    .error (.runtimeError ("double free of page id=" ++ toString pid))
  else if pool.lockRef pid ≠ 0 then
    .error (.runtimeError ("free of locked page id=" ++ toString pid ++ " (lock_ref=" ++
      toString (pool.lockRef pid) ++ ")"))
  else .ok
    { pool with
      pendingGather := Function.update pool.pendingGather pid none
      pendingLoad := Function.update pool.pendingLoad pid none
      slots := Function.update pool.slots pid none
      allocated := Function.update pool.allocated pid false
      freeIds := pool.freeIds ++ [pid] }

/-- The loop of `free`: an exception leaves the pages before it freed. -/
def freeLoop (pool : LRUHostKVPool δ) : List Int → LRUHostKVPool δ × Option HostPoolError
  | [] => (pool, none)
  | pid :: rest =>
    match pool.freePage pid with
    | .error e => (pool, some e)
    | .ok pool => freeLoop pool rest

def free (hostPageIds : List Int) : LRUHostKVPool δ × Option HostPoolError :=
  pool.freeLoop hostPageIds.eraseDups

def requireAllocated (b : Int) : Except HostPoolError Unit :=
  if ¬ (0 ≤ b ∧ b < pool.poolSize) then .error (pool.outside "buffer_id" b)
  else if pool.allocated b = false then
    .error (.runtimeError ("buffer_id=" ++ toString b ++ " is not allocated (in free-list)"))
  else .ok ()

def requireAllAllocated : List Int → Except HostPoolError Unit
  | [] => .ok ()
  | b :: rest =>
    match pool.requireAllocated b with
    | .error e => .error e
    | .ok () => requireAllAllocated rest

def incLockRef (b : Int) : Except HostPoolError (LRUHostKVPool δ) :=
  match pool.requireAllocated b with
  | .error e => .error e
  | .ok () => .ok { pool with lockRef := Function.update pool.lockRef b (pool.lockRef b + 1) }

def decLockRef (b : Int) : Except HostPoolError (LRUHostKVPool δ) :=
  match pool.requireAllocated b with
  | .error e => .error e
  | .ok () =>
    if pool.lockRef b = 0 then
      .error (.runtimeError ("dec_lock_ref underflow on buffer_id=" ++ toString b))
    else .ok { pool with lockRef := Function.update pool.lockRef b (pool.lockRef b - 1) }

/-- The page is the same allocation as when the epoch was captured. -/
def sameEpoch (b : Int) (gen : Nat) : Bool := pool.allocated b && pool.generation b == gen

/-- The second section of `stage_backup`. -/
def publishGather (hostIds : List Int) (gens : Int → Nat) (gathered : Int → PageCopy δ) :
    LRUHostKVPool δ :=
  { pool with
    pendingGather := fun b =>
      if b ∈ hostIds ∧ pool.sameEpoch b (gens b) = true then some (gens b, gathered b)
      else pool.pendingGather b }

def dropGather (b : Int) : LRUHostKVPool δ :=
  { pool with pendingGather := Function.update pool.pendingGather b none }

/-- The section of `flush_backup` that publishes a page on the host. -/
def publishSlot (b : Int) (gen : Nat) (copy : PageCopy δ) : LRUHostKVPool δ :=
  if pool.sameEpoch b gen then { pool with slots := Function.update pool.slots b (some copy) }
  else pool

/-- The second section of `stage_load`. -/
def publishLoad (hostIds : List Int) (gens : Int → Nat) (loaded : Int → Option (PageCopy δ)) :
    LRUHostKVPool δ :=
  { pool with
    pendingLoad := fun b =>
      if b ∈ hostIds ∧ pool.sameEpoch b (gens b) = true then (loaded b).map fun copy => (gens b, copy)
      else pool.pendingLoad b }

/-- The first section of `flush_load`: the epoch of every page that is allocated. -/
def currentEpochs (hostIds : List Int) : Except HostPoolError (Int → Option Nat) :=
  match hostIds.find? fun b : Int => ¬ (0 ≤ b ∧ b < pool.poolSize) with
  | some b => .error (pool.outside "buffer_id" b)
  | none => .ok fun b => if pool.allocated b then some (pool.generation b) else none

def dropLoad (b : Int) : LRUHostKVPool δ :=
  { pool with pendingLoad := Function.update pool.pendingLoad b none }

end LRUHostKVPool

/-- The thread that owns the KV buffer, and the worker. -/
inductive Thread where
  | kv
  | worker
deriving DecidableEq, Repr

/-- A page that `flush_load` has popped, the device page it is for, and whether its
epoch was the current one. -/
structure StagedPage (δ : Type) where
  page : Int
  devicePage : Int
  copy : PageCopy δ
  fresh : Bool

/-- Where a thread is between two lock-protected sections. -/
inductive Task (δ : Type) where
  | idle
  /-- `stage_backup`, gathering. -/
  | gathering (hostIds : List Int) (gens : Int → Nat) (issue : Nat)
  /-- `flush_backup`, before the pop of the next page. -/
  | popping (hostIds : List Int)
  /-- `flush_backup`, transferring a page it popped. -/
  | putting (b : Int) (gen : Nat) (copy : PageCopy δ) (rest : List Int)
  /-- `stage_load`, transferring what it read from the slots. -/
  | staging (hostIds : List Int) (gens : Int → Nat) (slots : Int → Option (PageCopy δ))
  /-- `flush_load`, with the host and device pages still to pop. -/
  | unloading (current : Int → Option Nat) (todo : List (Int × Int)) (staged : List (StagedPage δ))

/-- What the history records: which pages were handed out, which were gathered. -/
inductive HostEvent where
  | alloc (pages : List Int)
  | stageBackup (pages : List Int)
deriving DecidableEq, Repr

structure HostSystem (δ : Type) where
  pool : LRUHostKVPool δ
  tasks : Thread → Task δ
  history : List HostEvent
  /-- What all scatters so far wrote to device pages. -/
  scattered : List (StagedPage δ)

namespace HostSystem

def init (poolSize : Nat) : HostSystem δ where
  pool := .init poolSize
  tasks := fun _ => .idle
  history := []
  scattered := []

def setTask (s : HostSystem δ) (t : Thread) (task : Task δ) : HostSystem δ :=
  { s with tasks := Function.update s.tasks t task }

/-- One section of one thread. Only the thread that owns the KV buffer allocates,
frees, gathers and scatters. A call that raises before it changed anything is no
step, one that raises later is `stop`. -/
inductive Step : HostSystem δ → HostSystem δ → Prop where
  | alloc {s : HostSystem δ} {n : Int} {pages : List Int} {pool : LRUHostKVPool δ} :
    s.tasks .kv = .idle → s.pool.alloc n = .ok (some (pages, pool)) →
    Step s { s with pool := pool, history := s.history ++ [.alloc pages] }
  | free {s : HostSystem δ} (ids : List Int) : s.tasks .kv = .idle →
    Step s { s with pool := (s.pool.free ids).1 }
  | incLockRef {s : HostSystem δ} {b : Int} {pool : LRUHostKVPool δ} :
    s.pool.incLockRef b = .ok pool → Step s { s with pool := pool }
  | decLockRef {s : HostSystem δ} {b : Int} {pool : LRUHostKVPool δ} :
    s.pool.decLockRef b = .ok pool → Step s { s with pool := pool }
  | stageBackup {s : HostSystem δ} {ids : List Int} :
    s.tasks .kv = .idle → s.pool.requireAllAllocated ids = .ok () →
    Step s { s.setTask .kv (.gathering ids s.pool.generation s.history.length) with
      history := s.history ++ [.stageBackup ids] }
  | gathered {s : HostSystem δ} {ids : List Int} {gens : Int → Nat} {issue : Nat}
    (data : Int → δ) : s.tasks .kv = .gathering ids gens issue →
    Step s { s.setTask .kv .idle with
      pool := s.pool.publishGather ids gens fun b => ⟨b, issue, data b⟩ }
  | flushBackup {s : HostSystem δ} (t : Thread) (ids : List Int) : s.tasks t = .idle →
    Step s (s.setTask t (.popping ids))
  | popGather {s : HostSystem δ} {t : Thread} {b : Int} {rest : List Int} {gen : Nat}
    {copy : PageCopy δ} : s.tasks t = .popping (b :: rest) →
    s.pool.pendingGather b = some (gen, copy) →
    Step s { s.setTask t (.putting b gen copy rest) with pool := s.pool.dropGather b }
  | putHost {s : HostSystem δ} {t : Thread} {b : Int} {gen : Nat} {copy : PageCopy δ}
    {rest : List Int} : s.tasks t = .putting b gen copy rest →
    Step s { s.setTask t (.popping rest) with pool := s.pool.publishSlot b gen copy }
  | stageLoad {s : HostSystem δ} (t : Thread) {ids : List Int} :
    s.tasks t = .idle → s.pool.requireAllAllocated ids = .ok () →
    Step s (s.setTask t (.staging ids s.pool.generation s.pool.slots))
  | loaded {s : HostSystem δ} {t : Thread} {ids : List Int} {gens : Int → Nat}
    {slots : Int → Option (PageCopy δ)} : s.tasks t = .staging ids gens slots →
    (∀ b ∈ ids, (slots b).isSome) →
    Step s { s.setTask t .idle with pool := s.pool.publishLoad ids gens slots }
  | flushLoad {s : HostSystem δ} {todo : List (Int × Int)} {current : Int → Option Nat} :
    s.tasks .kv = .idle → s.pool.currentEpochs (todo.map (·.1)) = .ok current →
    Step s (s.setTask .kv (.unloading current todo []))
  | popLoad {s : HostSystem δ} {current : Int → Option Nat} {b d : Int}
    {rest : List (Int × Int)} {staged : List (StagedPage δ)} {gen : Nat} {copy : PageCopy δ} :
    s.tasks .kv = .unloading current ((b, d) :: rest) staged →
    s.pool.pendingLoad b = some (gen, copy) →
    Step s { s.setTask .kv
        (.unloading current rest (staged ++ [⟨b, d, copy, current b = some gen⟩])) with
      pool := s.pool.dropLoad b }
  | scatter {s : HostSystem δ} {current : Int → Option Nat} {staged : List (StagedPage δ)} :
    s.tasks .kv = .unloading current [] staged →
    Step s { s.setTask .kv .idle with scattered := s.scattered ++ staged.filter (·.fresh) }
  | stop {s : HostSystem δ} (t : Thread) : Step s (s.setTask t .idle)

inductive Reachable (poolSize : Nat) : HostSystem δ → Prop where
  | init : Reachable poolSize (.init poolSize)
  | step {s s' : HostSystem δ} : Reachable poolSize s → Step s s' → Reachable poolSize s'

end HostSystem

end SglJax.MemCache.HostPool
