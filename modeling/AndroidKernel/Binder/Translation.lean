import AndroidKernel.Binder.State

/-!
# The objects in a transaction buffer

A transaction carries flat objects at the offsets its sender lists. `binder_transaction`
rewrites each of them from the sender's names to the receiver's, and
`binder_transaction_buffer_release` reads the rewritten objects again to take back the
references the rewriting took.
-/

namespace AndroidKernel.Binder

open Function

/-- `BINDER_TYPE_BINDER` -/
def typeBinder : ℕ := 0x73622a85

/-- `BINDER_TYPE_WEAK_BINDER` -/
def typeWeakBinder : ℕ := 0x77622a85

/-- `BINDER_TYPE_HANDLE` -/
def typeHandle : ℕ := 0x73682a85

/-- `BINDER_TYPE_WEAK_HANDLE` -/
def typeWeakHandle : ℕ := 0x77682a85

/-- `BINDER_TYPE_FD` -/
def typeFd : ℕ := 0x66642a85

/-- The types of a `flat_binder_object`, with the strength of the first four as a flag. -/
inductive ObjectType where
  | binder (strong : Bool)
  | handle (strong : Bool)
  | fd
  deriving DecidableEq, Repr

/-- The `switch (fp->type)`. -/
def ObjectType.decode (type : ℕ) : Option ObjectType :=
  if type = typeBinder then some (.binder true)
  else if type = typeWeakBinder then some (.binder false)
  else if type = typeHandle then some (.handle true)
  else if type = typeWeakHandle then some (.handle false)
  else if type = typeFd then some .fd
  else none

/-- The value of `fp->type` for a type. -/
def ObjectType.encode : ObjectType → ℕ
  | .binder true => typeBinder
  | .binder false => typeWeakBinder
  | .handle true => typeHandle
  | .handle false => typeWeakHandle
  | .fd => typeFd

/-- `sizeof(struct flat_binder_object)` -/
def objectSize : ℕ := 16

/-- `struct flat_binder_object`; `binder` is also the `handle` of the union. -/
structure FlatObject where
  type : ℕ
  flags : ℕ
  binder : ℕ
  cookie : ℕ
  deriving DecidableEq, Repr

/-- The object at a byte offset that is a multiple of four. -/
def readObject (data : ℕ → ℕ) (off : ℕ) : FlatObject :=
  ⟨data (off / 4), data (off / 4 + 1), data (off / 4 + 2), data (off / 4 + 3)⟩

/-- Write `fp->type`, `fp->binder` or `fp->handle`, and `fp->cookie` back. -/
def writeObject (data : ℕ → ℕ) (off : ℕ) (fp : FlatObject) : ℕ → ℕ :=
  update (update (update data (off / 4) fp.type)
    (off / 4 + 2) fp.binder) (off / 4 + 3) fp.cookie

/-- The check of an offset. -/
def offsetValid (dataSize off : ℕ) : Bool :=
  !(decide (off > sub32 dataSize objectSize) || decide (dataSize < objectSize) ||
    decide (off % 4 ≠ 0))

/-- What the translation of one transaction works on: the shared objects, the file table
of the target process and the data of the buffer. -/
structure Transfer where
  objs : Objs
  files : Option Files
  data : ℕ → ℕ

/-- The way of a transaction: from a thread of a process to a process, and whether that
one takes file descriptors. -/
structure Route where
  proc : Id
  thread : Id
  targetProc : Id
  acceptFds : Bool

/-- The environment of one `binder_transaction`: what can fail, and the value of an
uninitialised variable. -/
structure TransactionEnv where
  allocTransaction : Bool
  allocComplete : Bool
  pages : PageFaults
  copyData : Bool
  copyOffsets : Bool
  /-- `kzalloc` in `binder_new_node`, by the index of the object. -/
  allocNode : ℕ → Bool
  /-- `kzalloc` in `binder_get_ref_for_node`, by the index of the object. -/
  allocRef : ℕ → Bool
  /-- The files of the sender by descriptor. -/
  fget : ℕ → Option ℕ
  /-- Whether the limits allow another descriptor, by the index of the object. -/
  unusedFd : ℕ → Bool
  /-- The value of `return_error` on the path that does not set it. -/
  returnError : ℕ

namespace Transfer

variable (x : Transfer)

/-- `BINDER_TYPE_BINDER` and `BINDER_TYPE_WEAK_BINDER` once the node is known: the receiver
gets a handle. -/
def translateToHandle (route : Route) (off : ℕ) (fp : FlatObject) (strong : Bool) (n : Id)
    (cookie : ℕ) (env : TransactionEnv) (i : ℕ) : Except Fault (Option ℕ × Transfer) := do
  if fp.cookie ≠ cookie then .ok (some env.returnError, x)
  else
    let (r, objs) ← x.objs.binderGetRefForNode route.targetProc n (env.allocRef i)
    match r with
    | none => .ok (some brFailedReply, { x with objs := objs })
    | some r =>
      let ref ← objs.refs.get .danglingRef r
      let data := writeObject x.data off
        { fp with type := (ObjectType.handle strong).encode, binder := ref.desc }
      let (_, objs) ← objs.binderIncRef r strong (some (.thread route.thread))
      .ok (none, { x with objs := objs, data := data })

/-- `BINDER_TYPE_BINDER` and `BINDER_TYPE_WEAK_BINDER` -/
def translateBinder (route : Route) (off : ℕ) (fp : FlatObject) (strong : Bool)
    (env : TransactionEnv) (i : ℕ) : Except Fault (Option ℕ × Transfer) := do
  match x.objs.binderGetNode route.proc fp.binder with
  | some n =>
    let node ← x.objs.nodes.get .danglingNode n
    x.translateToHandle route off fp strong n node.cookie env i
  | none =>
    match x.objs.binderNewNode route.proc fp.binder fp.cookie (fp.flags / 0x100 % 2 = 1)
        (env.allocNode i) with
    | (none, _) => .ok (some brFailedReply, x)
    | (some n, objs) =>
      Transfer.translateToHandle { x with objs := objs } route off fp strong n fp.cookie env i

/-- `BINDER_TYPE_HANDLE` and `BINDER_TYPE_WEAK_HANDLE` -/
def translateHandle (route : Route) (off : ℕ) (fp : FlatObject) (strong : Bool)
    (env : TransactionEnv) (i : ℕ) : Except Fault (Option ℕ × Transfer) := do
  match x.objs.binderGetRef route.proc fp.binder with
  | none => .ok (some brFailedReply, x)
  | some r =>
    let ref ← x.objs.refs.get .danglingRef r
    let node ← x.objs.nodes.get .danglingNode ref.node
    if node.proc = some route.targetProc then
      let data := writeObject x.data off
        { fp with
          type := (ObjectType.binder strong).encode, binder := node.ptr, cookie := node.cookie }
      let (_, objs) ← x.objs.binderIncNode ref.node strong false none
      .ok (none, { x with objs := objs, data := data })
    else
      let (r, objs) ← x.objs.binderGetRefForNode route.targetProc ref.node (env.allocRef i)
      match r with
      | none => .ok (some brFailedReply, { x with objs := objs })
      | some r =>
        let newRef ← objs.refs.get .danglingRef r
        let data := writeObject x.data off { fp with binder := newRef.desc }
        let (_, objs) ← objs.binderIncRef r strong none
        .ok (none, { x with objs := objs, data := data })

/-- `BINDER_TYPE_FD` -/
def translateFd (route : Route) (off : ℕ) (fp : FlatObject) (env : TransactionEnv) (i : ℕ) :
    Option ℕ × Transfer :=
  if ¬ route.acceptFds then (some brFailedReply, x)
  else
    match env.fget fp.binder, x.files, env.unusedFd i with
    | some file, some files, true =>
      (none, { x with
        files := some (files.install file)
        data := writeObject x.data off { fp with binder := files.unusedFd } })
    | _, _, _ => (some brFailedReply, x)

/-- One round of the loop of `binder_transaction` over the offsets: the value of
`return_error` when it fails. -/
def translateObject (route : Route) (dataSize : ℕ) (env : TransactionEnv) (i off : ℕ) :
    Except Fault (Option ℕ × Transfer) :=
  if offsetValid dataSize off then
    let fp := readObject x.data off
    match ObjectType.decode fp.type with
    | some (.binder strong) => x.translateBinder route off fp strong env i
    | some (.handle strong) => x.translateHandle route off fp strong env i
    | some .fd => .ok (x.translateFd route off fp env i)
    | none => .ok (some brFailedReply, x)
  else .ok (some brFailedReply, x)

/-- The loop of `binder_transaction` over the offsets: `return_error` and the number of
translated objects when it fails. -/
def translateObjects (route : Route) (dataSize : ℕ) (env : TransactionEnv) :
    ℕ → List ℕ → Transfer → Except Fault (Option (ℕ × ℕ) × Transfer)
  | _, [], x => .ok (none, x)
  | i, off :: offsets, x => do
    let (error, x) ← x.translateObject route dataSize env i off
    match error with
    | some error => .ok (some (error, i), x)
    | none => translateObjects route dataSize env (i + 1) offsets x

/-- One round of the loop of `binder_transaction_buffer_release`. -/
def releaseObject (p : Id) (dataSize : ℕ) (failed : Bool) (off : ℕ) : Except Fault Transfer := do
  if offsetValid dataSize off then
    let fp := readObject x.data off
    match ObjectType.decode fp.type with
    | some (.binder strong) =>
      match x.objs.binderGetNode p fp.binder with
      | none => .ok x
      | some n =>
        let objs ← x.objs.binderDecNode n strong false
        .ok { x with objs := objs }
    | some (.handle strong) =>
      match x.objs.binderGetRef p fp.binder with
      | none => .ok x
      | some r =>
        let objs ← x.objs.binderDecRef r strong
        .ok { x with objs := objs }
    | some .fd => .ok (if failed then { x with files := x.files.map (·.close fp.binder) } else x)
    | none => .ok x
  else .ok x

/-- The loop of `binder_transaction_buffer_release`. -/
def releaseObjects (p : Id) (dataSize : ℕ) (failed : Bool) (offsets : List ℕ) (x : Transfer) :
    Except Fault Transfer :=
  offsets.foldlM (fun x off => x.releaseObject p dataSize failed off) x

end Transfer

end AndroidKernel.Binder
