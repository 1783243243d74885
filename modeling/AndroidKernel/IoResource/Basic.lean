import Mathlib.Algebra.Order.Ring.Nat
import Mathlib.Data.List.TakeWhile

/-!
# The tree of resources

`kernel/resource.c` keeps the ranges of I/O ports and memory in trees: the children of a resource
are ranges inside of it, sorted by their starts. Drivers put their own resources into the trees
(`request_resource`, `insert_resource`), or ask for regions (`__request_region`), which are marked
busy. A request for a region that is marked as shared in turns (`IORESOURCE_MUXED`) waits until the
region in its way is released.

A resource is known by its number, for its address. The list that starts at `child` and goes on
along `sibling` is a list of children; the `sibling` that `__release_resource` leaves in a resource
that is not part of a tree any more is left out, as nothing reads it. Where the code would follow a
pointer to a resource that is not there, a call has no result; and so it has when its fuel, which
bounds the ways down the tree, runs out. The names of the resources are left out.
-/

namespace AndroidKernel.IoResource

open Function

/-- `IORESOURCE_BUSY`. -/
def ioresourceBusy : BitVec 32 := 0x80000000

/-- `IORESOURCE_MUXED`. -/
def ioresourceMuxed : BitVec 32 := 0x00400000

/-- `struct resource`; `stop` is its `end`. -/
structure Resource where
  start : ℕ
  stop : ℕ
  flags : BitVec 32
  parent : Option ℕ
  children : List ℕ

/-- The resources in memory. -/
abbrev Heap : Type := ℕ → Option Resource

/-- A change to a resource. -/
def modify (h : Heap) (id : ℕ) (f : Resource → Resource) : Heap := update h id ((h id).map f)

/-- `start + n - 1`, as a `resource_size_t`. -/
def rangeEnd (start n : ℕ) : ℕ := (start + n + (2 ^ 32 - 1)) % 2 ^ 32

variable (h : Heap)

/-- The loop of `__request_resource`: the children with the new one among them, or the child that is
in its way. -/
def place (start stop new : ℕ) : List ℕ → Option (Except ℕ (List ℕ))
  | [] => some (.ok [new])
  | tmp :: rest => do
    let t ← h tmp
    if t.start > stop then some (.ok (new :: tmp :: rest))
    else if t.stop < start then (place start stop new rest).map fun r => r.map (tmp :: ·)
    else some (.error tmp)

/-- The new resource is a child of `root`, whose children are now the given ones. -/
def link (root new : ℕ) (children : List ℕ) : Heap :=
  modify (modify h root fun r => { r with children := children }) new fun r =>
    { r with parent := some root }

/-- `__request_resource`: the resources after it, and the conflict that it returns. -/
def requestResource (root new : ℕ) : Option (Heap × Option ℕ) := do
  let r ← h root
  let n ← h new
  if n.stop < n.start ∨ n.start < r.start ∨ n.stop > r.stop then some (h, some root)
  else
    match ← place h n.start n.stop new r.children with
    | .error conflict => some (h, some conflict)
    | .ok children => some (link h root new children, none)

/-- The resource is not a child of `parent` any more. -/
def unlink (parent old : ℕ) : Heap :=
  modify (modify h parent fun r => { r with children := r.children.erase old }) old fun r =>
    { r with parent := none }

/-- `__release_resource`. -/
def releaseResource (old : ℕ) : Option (Heap × Bool) := do
  let o ← h old
  let parent ← o.parent
  let p ← h parent
  if old ∈ p.children then some (unlink h parent old, true) else some (h, false)

/-- The second loop of `__insert_resource`: the children that the new range covers and those behind,
or the child that it covers in part. -/
def covered (start stop : ℕ) : List ℕ → Option (Except ℕ (List ℕ × List ℕ))
  | [] => some (.ok ([], []))
  | next :: rest => do
    let x ← h next
    if x.start < start ∨ x.stop > stop then some (.error next)
    else
      match rest with
      | [] => some (.ok ([next], []))
      | sibling :: _ => do
        let y ← h sibling
        if y.start > stop then some (.ok ([next], rest))
        else (covered start stop rest).map fun r => r.map fun l => (next :: l.1, l.2)

/-- The resources of the list are children of `new`. -/
def reparent (new : ℕ) (run : List ℕ) : Heap :=
  run.foldl (fun h c => modify h c fun r => { r with parent := some new }) h

/-- The new resource stands between `parent` and the run of its children. -/
def linkAbove (parent new : ℕ) (run children : List ℕ) : Heap :=
  let h := modify h new fun r => { r with parent := some parent, children := run }
  modify (reparent h new run) parent fun r => { r with children := children }

/-- The part of `__insert_resource` behind its first loop. -/
def insertAbove (parent first new : ℕ) : Option (Heap × Option ℕ) := do
  let p ← h parent
  let n ← h new
  match ← covered h n.start n.stop (p.children.dropWhile (· ≠ first)) with
  | .error conflict => some (h, some conflict)
  | .ok (run, rest) =>
    some (linkAbove h parent new run (p.children.takeWhile (· ≠ first) ++ new :: rest), none)

/-- `__insert_resource`. -/
def insertResource (new : ℕ) : ℕ → ℕ → Option (Heap × Option ℕ)
  | 0, _ => none
  | fuel + 1, parent => do
    let r ← requestResource h parent new
    match r.2 with
    | none => some r
    | some first =>
      if first = parent then some (h, some first)
      else do
        let f ← h first
        let n ← h new
        if f.start > n.start ∨ f.stop < n.stop ∨ f.start = n.start ∧ f.stop = n.stop then
          insertAbove h parent first new
        else insertResource new fuel first

/-- The loop of `adjust_resource`: all the children are in the range. -/
def allInside (start stop : ℕ) : List ℕ → Option Bool
  | [] => some true
  | tmp :: rest => do
    let t ← h tmp
    if t.start < start ∨ t.stop > stop then some false else allInside start stop rest

/-- The neighbour of a resource passes a test, if there is one. -/
def neighbour (tmp : Option ℕ) (test : Resource → Bool) : Option Bool :=
  match tmp with
  | some id => (h id).map test
  | none => some true

/-- `adjust_resource`. -/
def adjustResource (res start size : ℕ) : Option (Heap × Bool) := do
  let stop := rangeEnd start size
  let r ← h res
  let parent ← r.parent
  let p ← h parent
  if start < p.start ∨ stop > p.stop then some (h, false)
  else do
    let inside ← allInside h start stop r.children
    if !inside then some (h, false)
    else if res ∈ p.children then do
      let behind ← neighbour h (p.children.dropWhile (· ≠ res)).tail.head? fun s => s.start > stop
      let before ← neighbour h (p.children.takeWhile (· ≠ res)).getLast? fun t => start > t.stop
      if behind && before then
        some (modify h res fun r => { r with start := start, stop := stop }, true)
      else some (h, false)
    else none

/-- How the loop of `__request_region` ends. -/
inductive RegionOutcome
  | handedOut
  | refused
  | sleeping (parent : ℕ)

/-- The loop of `__request_region`. -/
def regionLoop (res : ℕ) (flags : BitVec 32) : ℕ → ℕ → Option (Heap × RegionOutcome)
  | 0, _ => none
  | fuel + 1, parent => do
    let r ← requestResource h parent res
    match r.2 with
    | none => some (r.1, .handedOut)
    | some conflict => do
      let c ← h conflict
      if conflict ≠ parent ∧ c.flags &&& ioresourceBusy = 0 then regionLoop res flags fuel conflict
      else if c.flags &&& flags &&& ioresourceMuxed ≠ 0 then some (h, .sleeping conflict)
      else some (update h res none, .refused)

/-- The region that `__request_region` allocates. -/
def newRegion (start n : ℕ) (flags : BitVec 32) : Resource :=
  ⟨start, rangeEnd start n, ioresourceBusy ||| flags, none, []⟩

/-- The first of the resources that contains the range. -/
def firstContaining (start stop : ℕ) : List ℕ → Option (Option ℕ)
  | [] => some none
  | x :: rest => do
    let r ← h x
    if r.start ≤ start ∧ r.stop ≥ stop then some (some x) else firstContaining start stop rest

/-- The loop of `__release_region`: the resources after it, and the region that was freed with its
flags. -/
def releaseRegion (start stop : ℕ) : ℕ → ℕ → Option (Heap × Option (ℕ × BitVec 32))
  | 0, _ => none
  | fuel + 1, parent => do
    let p ← h parent
    match ← firstContaining h start stop p.children with
    | none => some (h, none)
    | some x => do
      let r ← h x
      if r.flags &&& ioresourceBusy = 0 then releaseRegion start stop fuel x
      else if r.start ≠ start ∨ r.stop ≠ stop then some (h, none)
      else some (update (unlink h parent x) x none, some (x, r.flags))

/-- A task that sleeps in `__request_region`, on `muxed_resource_wait`. -/
structure Sleeper where
  parent : ℕ
  res : ℕ
  flags : BitVec 32
  awake : Bool

/-- The resources, the tasks that sleep, and the regions that were handed out and not released. -/
structure State where
  heap : Heap
  sleepers : List Sleeper
  regions : List ℕ

/-- What is called. A driver sets up a resource before it gives it to the other functions; a call of
`__request_region` comes with the region that it allocates, if it can; and a task that sleeps goes
on. -/
inductive Op
  | setup (id start stop : ℕ) (flags : BitVec 32)
  | request (root new : ℕ)
  | release (old : ℕ)
  | insert (parent new : ℕ)
  | adjust (res start size : ℕ)
  | requestRegion (parent start n : ℕ) (flags : BitVec 32) (alloc : Option ℕ)
  | releaseRegion (parent start n : ℕ)
  | resume (i : ℕ)

/-- How a call ends: a call that sleeps has not returned. -/
inductive Outcome
  | success
  | failure
  | asleep
  deriving DecidableEq

/-- The state after the loop of `__request_region`. -/
def State.afterRegion (st : State) (res : ℕ) (flags : BitVec 32) :
    Heap × RegionOutcome → Outcome × State
  | (h, .handedOut) => (.success, { st with heap := h, regions := res :: st.regions })
  | (h, .refused) => (.failure, { st with heap := h })
  | (h, .sleeping parent) =>
    (.asleep, { st with heap := h, sleepers := st.sleepers ++ [⟨parent, res, flags, false⟩] })

/-- A call, with the fuel that it takes. -/
def exec (fuel : ℕ) (st : State) : Op → Option (Outcome × State)
  | .setup id start stop flags =>
    some (.success, { st with
      heap := update st.heap id (some ⟨start, stop, flags, none, []⟩) })
  | .request root new => (requestResource st.heap root new).map fun r =>
      (if r.2.isNone then .success else .failure, { st with heap := r.1 })
  | .release old => (releaseResource st.heap old).map fun r =>
      if r.2 then (.success, { st with heap := r.1, regions := st.regions.filter (· ≠ old) })
      else (.failure, { st with heap := r.1 })
  | .insert parent new => (insertResource st.heap new fuel parent).map fun r =>
      (if r.2.isNone then .success else .failure, { st with heap := r.1 })
  | .adjust res start size => (adjustResource st.heap res start size).map fun r =>
      (if r.2 then .success else .failure, { st with heap := r.1 })
  | .requestRegion parent start n flags alloc =>
    match alloc with
    | none => some (.failure, st)
    | some res =>
      (regionLoop (update st.heap res (some (newRegion start n flags))) res flags fuel
        parent).map (st.afterRegion res flags)
  | .releaseRegion parent start n =>
    (releaseRegion st.heap start (rangeEnd start n) fuel parent).map fun r =>
      match r.2 with
      | none => (.failure, { st with heap := r.1 })
      | some (x, flags) => (.success, { st with
          heap := r.1
          regions := st.regions.filter (· ≠ x)
          sleepers := if flags &&& ioresourceMuxed = 0 then st.sleepers
            else st.sleepers.map fun sl => { sl with awake := true } })
  | .resume i =>
    match st.sleepers[i]? with
    | some ⟨parent, res, flags, true⟩ =>
      (regionLoop st.heap res flags fuel parent).map
        (State.afterRegion { st with sleepers := st.sleepers.eraseIdx i } res flags)
    | _ => none

end AndroidKernel.IoResource
