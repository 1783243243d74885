import AndroidKernel.Binder.Fault
import AndroidKernel.Lib.Heap
import AndroidKernel.Lib.Queues
import Mathlib.Algebra.Order.Ring.Int
import Mathlib.Data.List.Sort

/-!
# Nodes, references and death records

The objects of `drivers/staging/android/binder.c` that processes share, and the work
lists they are queued on. A node is an object of one process, a reference is another
process's handle for it, and a death record asks to be told when the node's process
goes away. The trees of a process are modelled by their in-order sequences.
-/

namespace AndroidKernel.Binder

open Function

/-- A process, a thread or an object, by the name of its cell. -/
abbrev Id := ℕ

/-- A `binder_work`, by the object it is embedded in. -/
inductive Work where
  | transaction (t : Id)
  | transactionComplete (w : Id)
  | node (n : Id)
  | death (d : Id)
  deriving DecidableEq, Repr

/-- The work of a node or of a death record. -/
def Work.isObject : Work → Bool
  | .node _ | .death _ => true
  | .transaction _ | .transactionComplete _ => false

/-- The heads of the lists that work is queued on. -/
inductive Queue where
  /-- `thread->todo` -/
  | thread (id : Id)
  /-- `proc->todo` -/
  | proc (id : Id)
  /-- `node->async_todo` -/
  | async (n : Id)
  /-- `proc->delivered_death` -/
  | deliveredDeath (id : Id)
  deriving DecidableEq, Repr

/-- `struct binder_node` -/
structure Node where
  /-- The owner; none once it is gone. -/
  proc : Option Id
  ptr : ℕ
  cookie : ℕ
  refs : List Id
  internalStrongRefs : ℤ
  localWeakRefs : ℤ
  localStrongRefs : ℤ
  hasStrongRef : Bool
  pendingStrongRef : Bool
  hasWeakRef : Bool
  pendingWeakRef : Bool
  hasAsyncTransaction : Bool
  acceptFds : Bool
  deriving DecidableEq

/-- `struct binder_ref` -/
structure Ref where
  proc : Id
  node : Id
  desc : ℕ
  strong : ℕ
  weak : ℕ
  death : Option Id
  deriving DecidableEq

/-- The `work.type` of a death record. -/
inductive DeathWork where
  /-- Not queued so far. -/
  | unset
  | deadBinder
  | deadBinderAndClear
  | clearDeathNotification
  deriving DecidableEq, Repr

/-- `struct binder_ref_death` -/
structure Death where
  cookie : ℕ
  type : DeathWork
  deriving DecidableEq

/-- `obj_created` and `obj_deleted` of one type of object. -/
structure Stat where
  created : ℕ
  deleted : ℕ
  deriving DecidableEq

/-- `binder_stats_created` -/
def Stat.create (s : Stat) : Stat := { s with created := s.created + 1 }

/-- `binder_stats_deleted` -/
def Stat.delete (s : Stat) : Stat := { s with deleted := s.deleted + 1 }

/-- The objects, the work lists and the trees of all processes. -/
structure Objs where
  nodes : Heap Node
  refs : Heap Ref
  deaths : Heap Death
  works : Queues Queue Work
  /-- `proc->nodes`, by `ptr` -/
  procNodes : Id → List Id
  /-- `proc->refs_by_desc` -/
  refsByDesc : Id → List Id
  /-- `proc->refs_by_node` -/
  refsByNode : Id → List Id
  /-- `binder_context_mgr_node` -/
  contextMgrNode : Option Id
  nodeStat : Stat
  refStat : Stat
  deathStat : Stat

/-- A reference count goes up. The run is followed up to `INT_MAX`, where the `int` of the source
wraps. -/
def increment (count : ℤ) : Except Fault ℤ :=
  if count = 2 ^ 31 - 1 then .error .overflow else .ok (count + 1)

/-- The same for a count of a `binder_ref`. -/
def incrementNat (count : ℕ) : Except Fault ℕ :=
  if count = 2 ^ 31 - 1 then .error .overflow else .ok (count + 1)

namespace Objs

variable (s : Objs) (p : Id) (ptr : ℕ)

/-- Write a node back. -/
def setNode (n : Id) (node : Node) : Objs := { s with nodes := s.nodes.modify n fun _ => node }

/-- Write a reference back. -/
def setRef (r : Id) (ref : Ref) : Objs := { s with refs := s.refs.modify r fun _ => ref }

/-- Write a death record back. -/
def setDeath (d : Id) (death : Death) : Objs :=
  { s with deaths := s.deaths.modify d fun _ => death }

/-- `list_add_tail(&w->entry, q)` -/
def queue (w : Work) (q : Queue) : Objs := { s with works := s.works.addTail w q }

/-- `list_del_init(&w->entry)` -/
def unqueue (w : Work) : Objs := { s with works := s.works.del w }

/-- `binder_get_node` -/
def binderGetNode : Option Id :=
  (s.procNodes p).find? fun n => (s.nodes.cell n).any fun node => node.ptr == ptr

/-- `ref->desc`, as a key of the tree of references. -/
def refKey (r : Id) : ℕ := (s.refs.cell r).elim 0 Ref.desc

/-- The objects with a new node. -/
def addNode (cookie : ℕ) (acceptFds : Bool) : Objs :=
  let n := s.nodes.next
  let nodes := s.nodes.alloc ⟨some p, ptr, cookie, [], 0, 0, 0, false, false, false, false, false,
    acceptFds⟩
  let key (m : Id) : ℕ := (nodes.cell m).elim 0 Node.ptr
  { s with
    nodes := nodes
    procNodes := update s.procNodes p
      ((s.procNodes p).orderedInsert (fun a b => key a ≤ key b) n)
    nodeStat := s.nodeStat.create }

/-- `binder_new_node`; `alloc` says whether `kzalloc` succeeds. -/
def binderNewNode (cookie : ℕ) (acceptFds alloc : Bool) : Option Id × Objs :=
  if (s.binderGetNode p ptr).isSome ∨ ¬ alloc then (none, s)
  else (some s.nodes.next, s.addNode p ptr cookie acceptFds)

end Objs

/-- The counter that `binder_inc_node` raises. -/
def Node.incCount (node : Node) (strong internal : Bool) : Except Fault Node :=
  match strong, internal with
  | true, true => (increment node.internalStrongRefs).map fun c =>
    { node with internalStrongRefs := c }
  | true, false => (increment node.localStrongRefs).map fun c => { node with localStrongRefs := c }
  | false, false => (increment node.localWeakRefs).map fun c => { node with localWeakRefs := c }
  | false, true => .ok node

/-- `binder_dec_node` has nothing more to do, as references of the kind it lowers are left. -/
def Node.referenced (node : Node) (strong : Bool) : Bool :=
  if strong then node.localStrongRefs ≠ 0 ∨ node.internalStrongRefs ≠ 0
  else node.localWeakRefs ≠ 0 ∨ node.refs ≠ []

/-- The counter that `binder_dec_node` lowers. -/
def Node.decCount (node : Node) (strong internal : Bool) : Node :=
  match strong, internal with
  | true, true => { node with internalStrongRefs := node.internalStrongRefs - 1 }
  | true, false => { node with localStrongRefs := node.localStrongRefs - 1 }
  | false, false => { node with localWeakRefs := node.localWeakRefs - 1 }
  | false, true => node

namespace Objs

variable (s : Objs)

/-- `binder_inc_node` refuses a first strong internal reference without a list for the
node's work, except for the context manager. -/
def incStrongRefused (n : Id) (node : Node) (internal : Bool) (target : Option Queue) : Bool :=
  internal && target.isNone && node.internalStrongRefs == 0 &&
    !(s.contextMgrNode == some n && node.hasStrongRef)

/-- `binder_inc_node` has to tell the owner about a weak reference, as it has none and
the node's work is not queued. -/
def incWeakQueues (n : Id) (node : Node) : Bool :=
  !node.hasWeakRef && (s.works.home (.node n)).isNone

/-- `binder_inc_node`: false stands for `-EINVAL`. -/
def binderIncNode (n : Id) (strong internal : Bool) (target : Option Queue) :
    Except Fault (Bool × Objs) := do
  let node ← s.nodes.get .danglingNode n
  if strong && s.incStrongRefused n node internal target then .ok (false, s)
  else
    let counted ← node.incCount strong internal
    let s' := s.setNode n counted
    if strong then
      match target with
      | some q => .ok (true, if node.hasStrongRef then s' else s'.queue (.node n) q)
      | none => .ok (true, s')
    else if s.incWeakQueues n node then
      match target with
      | some q => .ok (true, s'.queue (.node n) q)
      | none => .ok (false, s')
    else .ok (true, s')

/-- The end of a node nobody refers to. -/
def freeNode (n : Id) (node : Node) : Objs :=
  { s with
    works := s.works.del (.node n)
    procNodes := match node.proc with
      | some p => update s.procNodes p ((s.procNodes p).erase n)
      | none => s.procNodes
    nodes := s.nodes.free n
    nodeStat := s.nodeStat.delete }

/-- `binder_dec_node` -/
def binderDecNode (n : Id) (strong internal : Bool) : Except Fault Objs := do
  let old ← s.nodes.get .danglingNode n
  let node := old.decCount strong internal
  let s := s.setNode n node
  if node.referenced strong then .ok s
  else
    match node.proc, node.hasStrongRef || node.hasWeakRef with
    | some p, true =>
      if (s.works.home (.node n)).isNone then .ok (s.queue (.node n) (.proc p)) else .ok s
    | _, _ =>
      if node.refs = [] ∧ node.localStrongRefs = 0 ∧ node.localWeakRefs = 0 then
        .ok (s.freeNode n node)
      else .ok s

/-- `binder_get_ref` -/
def binderGetRef (p : Id) (desc : ℕ) : Option Id :=
  (s.refsByDesc p).find? fun r => (s.refs.cell r).any fun ref => ref.desc == desc

/-- The first descent of `binder_get_ref_for_node`. -/
def findRefForNode (p n : Id) : Option Id :=
  (s.refsByNode p).find? fun r => (s.refs.cell r).any fun ref => ref.node == n

end Objs

/-- The loop of `binder_get_ref_for_node` that picks a descriptor, over the descriptors in
use in increasing order. -/
def nextDesc : ℕ → List ℕ → ℕ
  | desc, [] => desc
  | desc, d :: l => if d > desc then desc else nextDesc ((d + 1) % 2 ^ 32) l

namespace Objs

variable (s : Objs)

/-- The descriptor that `binder_get_ref_for_node` picks for a new reference. -/
def freshDesc (p n : Id) : ℕ :=
  nextDesc (if s.contextMgrNode = some n then 0 else 1) ((s.refsByDesc p).map s.refKey)

/-- The objects with a new reference. -/
def addRef (p n : Id) (node : Node) (desc : ℕ) : Objs :=
  let r := s.refs.next
  let refs := s.refs.alloc ⟨p, n, desc, 0, 0, none⟩
  let key (q : Id) : ℕ := (refs.cell q).elim 0 Ref.desc
  { s.setNode n { node with refs := r :: node.refs } with
    refs := refs
    refsByDesc := update s.refsByDesc p
      ((s.refsByDesc p).orderedInsert (fun a b => key a ≤ key b) r)
    refsByNode := update s.refsByNode p (r :: s.refsByNode p)
    refStat := s.refStat.create }

/-- `binder_get_ref_for_node`; `alloc` says whether `kzalloc` succeeds. -/
def binderGetRefForNode (p n : Id) (alloc : Bool) : Except Fault (Option Id × Objs) := do
  match s.findRefForNode p n with
  | some r => .ok (some r, s)
  | none =>
    if alloc then
      let node ← s.nodes.get .danglingNode n
      if s.freshDesc p n ∈ (s.refsByDesc p).map s.refKey then .error .refDesc
      else .ok (some s.refs.next, s.addRef p n node (s.freshDesc p n))
    else .ok (none, s)

/-- `hlist_del(&ref->node_entry)` -/
def removeNodeRef (n r : Id) : Except Fault Objs := do
  let node ← s.nodes.get .danglingNode n
  .ok (s.setNode n { node with refs := node.refs.erase r })

/-- `list_del(&death->work.entry)` and `kfree(death)` -/
def freeDeath (d : Id) : Except Fault Objs := do
  let _ ← s.deaths.get .danglingDeath d
  .ok { s with
    works := s.works.del (.death d)
    deaths := s.deaths.free d
    deathStat := s.deathStat.delete }

/-- `binder_delete_ref` -/
def binderDeleteRef (r : Id) : Except Fault Objs := do
  let ref ← s.refs.get .danglingRef r
  let s := { s with
    refsByDesc := update s.refsByDesc ref.proc ((s.refsByDesc ref.proc).erase r)
    refsByNode := update s.refsByNode ref.proc ((s.refsByNode ref.proc).erase r) }
  let s ← (if ref.strong ≠ 0 then s.binderDecNode ref.node true true else .ok s)
  let s ← s.removeNodeRef ref.node r
  let s ← s.binderDecNode ref.node false true
  let s ← (match ref.death with
    | some d => s.freeDeath d
    | none => .ok s)
  .ok { s with
    refs := s.refs.free r
    refStat := s.refStat.delete }

end Objs

/-- The count of a reference that a command is about. -/
def Ref.count (ref : Ref) (strong : Bool) : ℕ := if strong then ref.strong else ref.weak

/-- A reference with another count. -/
def Ref.withCount (ref : Ref) (strong : Bool) (count : ℕ) : Ref :=
  if strong then { ref with strong := count } else { ref with weak := count }

namespace Objs

/-- `binder_inc_ref`: false stands for `-EINVAL`. -/
def binderIncRef (s : Objs) (r : Id) (strong : Bool) (target : Option Queue) :
    Except Fault (Bool × Objs) := do
  let ref ← s.refs.get .danglingRef r
  let (done, s) ← (if ref.count strong = 0 then s.binderIncNode ref.node strong true target
    else .ok (true, s))
  if done then
    let count ← incrementNat (ref.count strong)
    .ok (true, s.setRef r (ref.withCount strong count))
  else .ok (false, s)

/-- `binder_dec_ref` -/
def binderDecRef (s : Objs) (r : Id) (strong : Bool) : Except Fault Objs := do
  let ref ← s.refs.get .danglingRef r
  if ref.count strong = 0 then .ok s
  else
    let ref' := ref.withCount strong (ref.count strong - 1)
    let s := s.setRef r ref'
    let s ← (if strong ∧ ref'.strong = 0 then s.binderDecNode ref.node true true else .ok s)
    if ref'.strong = 0 ∧ ref'.weak = 0 then s.binderDeleteRef r else .ok s

end Objs

end AndroidKernel.Binder
