import AndroidKernel.Lib.Loop
import Mathlib.Algebra.Order.Ring.Nat

/-!
# The id allocator

`lib/idr.c` with 5 bits a level and 32-bit integers. An `int` is kept as its 32 bits. The layers on
`id_free` are a list, which stands for their links in `ary[0]`. A call returns `none` where the
source has a `BUG_ON`, or takes a user's pointer or `NULL` for a layer.
-/

namespace AndroidKernel.Ids

/-- `IDR_BITS` -/
def idrBits : ℕ := 5

/-- `MAX_LEVEL`, from `MAX_ID_SHIFT` -/
def maxLevel : ℕ := (31 + idrBits - 1) / idrBits

/-- `IDR_FREE_MAX` -/
def idrFreeMax : ℕ := maxLevel + maxLevel

/-- `-EAGAIN` -/
def eagain : ℤ := -11

/-- `-ENOSPC` -/
def enospc : ℤ := -28

/-- `-EINVAL` -/
def einval : ℤ := -22

/-- `-ENOENT` -/
def enoent : ℤ := -2

/-- `struct idr_layer` -/
structure Layer (σ : Type) where
  bitmap : Fin 32 → Bool
  ary : Fin 32 → σ
  count : ℤ
  layer : ℕ

/-- What an entry of `ary` holds: nothing, a user's pointer, or a layer. -/
inductive Slot (ι : Type) where
  | null
  | ptr (x : ι)
  | layer (p : Layer (Slot ι))

/-- `struct idr` -/
structure Idr (ι : Type) where
  top : Slot ι
  layers : ℕ
  idFree : List (Layer (Slot ι))

variable {ι : Type}

namespace Slot

/-- The entry is `NULL`. -/
def isNull : Slot ι → Bool
  | .null => true
  | _ => false

@[simp] theorem isNull_null : (.null : Slot ι).isNull = true := rfl

@[simp] theorem isNull_ptr (x : ι) : (ptr x).isNull = false := rfl

@[simp] theorem isNull_layer (p : Layer (Slot ι)) : (layer p).isNull = false := rfl

/-- A user's pointer, which may be `NULL`. -/
def ofPtr : Option ι → Slot ι
  | none => .null
  | some x => .ptr x

/-- An entry read as a user's pointer. -/
def toPtr : Slot ι → Option (Option ι)
  | .null => some none
  | .ptr x => some (some x)
  | .layer _ => none

@[simp] theorem toPtr_ofPtr (x : Option ι) : (ofPtr x).toPtr = some x := by cases x <;> rfl

end Slot

namespace Layer

/-- `kmem_cache_zalloc` -/
def zero : Layer (Slot ι) := ⟨fun _ => false, fun _ => .null, 0, 0⟩

variable (p : Layer (Slot ι))

/-- The layer with another value in an entry. -/
def setAry (o : Fin 32) (s : Slot ι) : Layer (Slot ι) := { p with ary := Function.update p.ary o s }

/-- `__set_bit` and `__clear_bit` -/
def setBit (o : Fin 32) (b : Bool) : Layer (Slot ι) :=
  { p with bitmap := Function.update p.bitmap o b }

/-- `bitmap == IDR_FULL` -/
def isFull : Bool := decide (∀ o, p.bitmap o = true)

/-- `find_next_bit` on the complement of the bitmap. -/
def nextSpace (n : Fin 32) : Option (Fin 32) :=
  (List.finRange 32).find? fun m => decide (n ≤ m) && !p.bitmap m

end Layer

/-- `(id >> (IDR_BITS * l)) & IDR_MASK` -/
def offset (id l : ℕ) : Fin 32 :=
  ⟨(id >>> (idrBits * l)) &&& 31, Nat.lt_succ_of_le Nat.and_le_right⟩

/-- `id >= bound` for a signed `id`. -/
def geInt (id bound : ℕ) : Bool := decide (id < 2 ^ 31 ∧ bound ≤ id)

/-- `get_from_free_list` -/
def getFromFreeList : List (Layer (Slot ι)) → Option (Layer (Slot ι) × List (Layer (Slot ι)))
  | [] => none
  | p :: free => some (p.setAry 0 .null, free)

/-- The loop of `idr_pre_get`; as many allocations succeed as are granted. -/
def preGetLoop : ℕ → List (Layer (Slot ι)) → Bool × List (Layer (Slot ι))
  | 0, free => (!decide (free.length < idrFreeMax), free)
  | grants + 1, free =>
    if free.length < idrFreeMax then preGetLoop grants (.zero :: free) else (true, free)

/-- `idr_pre_get` -/
def idrPreGet (grants : ℕ) (idp : Idr ι) : Bool × Idr ι :=
  let r := preGetLoop grants idp.idFree
  (r.1, { idp with idFree := r.2 })

section Ways

/-- What stands at the end of a way from the top. -/
def Slot.read : List (Fin 32) → Slot ι → Slot ι
  | o :: way, .layer p => (p.ary o).read way
  | _ :: _, _ => .null
  | [], s => s

/-- The layer at the end of a way is changed. -/
def Slot.modify (f : Layer (Slot ι) → Layer (Slot ι)) : List (Fin 32) → Slot ι → Slot ι
  | o :: way, .layer p => .layer (p.setAry o ((p.ary o).modify f way))
  | [], .layer p => .layer (f p)
  | _, s => s

end Ways

section GetNew

/-- Where the loop of `sub_alloc` is: the id, the way from the top to `p` through the layers in
`pa`, and the tree and the free layers. -/
structure Search (ι : Type) where
  id : ℕ
  way : List (Fin 32)
  top : Slot ι
  free : List (Layer (Slot ι))

/-- What `sub_alloc` returns: an id with the way to its layer, `IDR_NEED_TO_GROW` with the new
`starting_id`, `IDR_NOMORE_SPACE` or -1. -/
inductive Outcome where
  | found (id : ℕ) (way : List (Fin 32))
  | needToGrow (id : ℕ)
  | nomoreSpace
  | noMemory

variable (layers : ℕ) (s : Search ι) (p : Layer (Slot ι)) (idp : Idr ι) (startingId : ℕ)

/-- An entry gets a new layer. -/
def Layer.link (o : Fin 32) (new : Layer (Slot ι)) : Layer (Slot ι) :=
  { p.setAry o (.layer new) with count := p.count + 1 }

/-- There is no space in `p` from `id` on: back to the layer above. -/
def Search.goBack (layers l : ℕ) : Option (Search ι ⊕ Outcome × Search ι) :=
  let id := ((s.id ||| (1 <<< (idrBits * l) - 1)) + 1) % 2 ^ 32
  if geInt id (1 <<< (layers * idrBits)) then some (.inr (.needToGrow id, s))
  else if s.way = [] then none
  else
    let sh := idrBits * (l + 1)
    if s.id >>> sh = id >>> sh then some (.inl { s with id := id, way := s.way.dropLast })
    else some (.inl { s with id := id, way := [] })

/-- There is space in `p` from `m` on: down to the layer below, which is created if it
is missing. -/
def Search.goDown (l : ℕ) (m : Fin 32) : Option (Search ι ⊕ Outcome × Search ι) :=
  let n := offset s.id l
  let sh := idrBits * l
  let id := if m ≠ n then (((s.id >>> sh) ^^^ n.val ^^^ m.val) <<< sh) % 2 ^ 32 else s.id
  if 2 ^ 31 ≤ id then some (.inr (.nomoreSpace, s))
  else if l = 0 then some (.inr (.found id s.way, s))
  else if (p.ary m).isNull then
    match getFromFreeList s.free with
    | none => some (.inr (.noMemory, s))
    | some (new, free) => some (.inl
        { id := id
          way := s.way ++ [m]
          top := s.top.modify (fun p => p.link m { new with layer := l - 1 }) s.way
          free := free })
  else some (.inl { s with id := id, way := s.way ++ [m] })

/-- One round of the loop of `sub_alloc`. -/
def subAllocStep : Option (Search ι ⊕ Outcome × Search ι) :=
  let l := layers - 1 - s.way.length
  match s.top.read s.way with
  | .layer p =>
    match p.nextSpace (offset s.id l) with
    | none => s.goBack layers (l + 1)
    | some m => s.goDown p l m
  | _ => none

/-- `sub_alloc` -/
def subAlloc : Option (Outcome × Idr ι) :=
  (loop (subAllocStep idp.layers) (2 ^ 36) ⟨startingId, [], idp.top, idp.idFree⟩).map fun r =>
    (r.1, { idp with top := r.2.top, idFree := r.2.free })

/-- The layers that `idr_get_empty_slot` built above `idp->top` go back; `built` counts them. -/
def tearDown : ℕ → Slot ι → List (Layer (Slot ι)) → Slot ι × List (Layer (Slot ι))
  | built + 1, .layer p, free =>
    tearDown built (p.ary 0)
      ({ p.setAry 0 .null with bitmap := fun _ => false, count := 0 } :: free)
  | _, p, free => (p, free)

/-- A new layer above `p`. -/
def Layer.above (new p : Layer (Slot ι)) (layers : ℕ) : Layer (Slot ι) :=
  let new := { new.setAry 0 (.layer p) with count := 1, layer := layers - 1 }
  if p.isFull then new.setBit 0 true else new

/-- The loop of `idr_get_empty_slot` that adds layers, while there may be more of them. -/
def buildUp (id : ℕ) : ℕ → ℕ → Layer (Slot ι) → Idr ι → Bool × Idr ι
  | 0, _, p, idp => (true, { idp with top := .layer p })
  | n + 1, built, p, idp =>
    if geInt id (1 <<< (idp.layers * idrBits)) then
      -- an empty tree grows by moving its top layer upwards
      if p.count = 0 then
        buildUp id n built { p with layer := p.layer + 1 } { idp with layers := idp.layers + 1 }
      else
        match getFromFreeList idp.idFree with
        | none =>
          let r := tearDown built (.layer p) idp.idFree
          (false, { idp with top := r.1, idFree := r.2 })
        | some (new, free) =>
          buildUp id n (built + 1) (new.above p (idp.layers + 1))
            { idp with layers := idp.layers + 1, idFree := free }
    else (true, { idp with top := .layer p })

/-- What `idr_get_empty_slot` builds on: the top layer, or a first one, with the number of layers
above `idp->top`. -/
def firstLayer : Option (Option (ℕ × Layer (Slot ι) × Idr ι)) :=
  match idp.top with
  | .layer p => some (some (0, p, idp))
  | .null => some ((getFromFreeList idp.idFree).map fun r =>
      (1, { r.1 with layer := 0 }, { idp with layers := 1, idFree := r.2 }))
  | .ptr _ => none

/-- One round of `idr_get_empty_slot`, from `build_up`. -/
def getEmptySlotStep (s : Idr ι × ℕ) : Option ((Idr ι × ℕ) ⊕ Outcome × Idr ι) :=
  match firstLayer s.1 with
  | none => none
  | some none => some (.inr (.noMemory, s.1))
  | some (some (built, p, idp)) =>
    let r := buildUp s.2 (maxLevel - 1 - idp.layers) built p idp
    if !r.1 then some (.inr (.noMemory, { r.2 with layers := s.1.layers }))
    else
      match subAlloc r.2 s.2 with
      | none => none
      | some (.needToGrow id, idp) => some (.inl (idp, id))
      | some (v, idp) => some (.inr (v, idp))

/-- `idr_get_empty_slot` -/
def idrGetEmptySlot : Option (Outcome × Idr ι) := loop getEmptySlotStep (2 ^ 32) (idp, startingId)

/-- `idr_mark_full`, from the layer at the end of the way up; and whether the topmost is full. -/
def idrMarkFull (id : ℕ) : List (Fin 32) → Slot ι → Slot ι × Bool
  | [], .layer p =>
    let p := p.setBit (offset id 0) true
    (.layer p, p.isFull)
  | o :: way, .layer p =>
    let r := idrMarkFull id way (p.ary o)
    let p := p.setAry o r.1
    if r.2 then
      let p := p.setBit (offset id (way.length + 1)) true
      (.layer p, p.isFull)
    else (.layer p, false)
  | _, s => (s, false)

/-- The user's pointer is put into its layer. -/
def Layer.install (id : ℕ) (ptr : Option ι) : Layer (Slot ι) :=
  { p.setAry (offset id 0) (.ofPtr ptr) with count := p.count + 1 }

/-- `idr_get_new_above`, with `idr_get_new_above_int` -/
def idrGetNewAbove (ptr : Option ι) (startingId : ℕ) (idp : Idr ι) : Option (Except ℤ ℕ × Idr ι) :=
  match idrGetEmptySlot idp startingId with
  | none => none
  | some (.found id way, idp) =>
    let top := idp.top.modify (fun p => p.install id ptr) way
    some (.ok id, { idp with top := (idrMarkFull id way top).1 })
  | some (.noMemory, idp) => some (.error eagain, idp)
  | some (_, idp) => some (.error enospc, idp)

end GetNew

section Remove

variable (id : ℕ)

/-- Where `sub_remove` is after an entry: the id was not there, or it is gone and the layer above
loses this entry, or keeps it. -/
inductive Removal where
  | warned
  | emptied
  | kept

/-- The layer loses an entry, and goes when it was the last. -/
def Layer.release (p : Layer (Slot ι)) : Slot ι × Removal :=
  let p := { p with count := p.count - 1 }
  if p.count = 0 then (.null, .emptied) else (.layer p, .kept)

/-- The two loops of `sub_remove`, below a layer of the height. -/
def removeDown : ℕ → Slot ι → Option (Slot ι × Removal)
  | 0, .layer p =>
    let n := offset id 0
    if p.bitmap n then some ((p.setBit n false).setAry n .null).release
    else some (.layer p, .warned)
  | l + 1, .layer p => do
    let n := offset id (l + 1)
    let p := p.setBit n false
    match ← removeDown l (p.ary n) with
    | (s, .emptied) => some (p.setAry n s).release
    | (s, r) => some (.layer (p.setAry n s), r)
  | _, .null => some (.null, .warned)
  | _, .ptr _ => none

/-- `sub_remove` -/
def subRemove (idp : Idr ι) : Option (Idr ι) := do
  match ← removeDown id (idp.layers - 1) idp.top with
  | (top, .emptied) => some { idp with top := top, layers := 0 }
  | (top, _) => some { idp with top := top }

/-- A top layer with nothing but its first entry goes. -/
def shrink (idp : Idr ι) : Idr ι :=
  match idp.top with
  | .layer p =>
    if p.count = 1 ∧ 1 < idp.layers ∧ (p.ary 0).isNull = false then
      { idp with top := p.ary 0, layers := idp.layers - 1 }
    else idp
  | _ => idp

/-- The loop of `idr_remove` that keeps the free layers few. -/
def trimFree : List (Layer (Slot ι)) → List (Layer (Slot ι))
  | [] => []
  | p :: free => if idrFreeMax ≤ (p :: free).length then trimFree free else p :: free

/-- `idr_remove` -/
def idrRemove (idp : Idr ι) : Option (Idr ι) := do
  let idp := shrink (← subRemove (id % 2 ^ 31) idp)
  some { idp with idFree := trimFree idp.idFree }

end Remove

section Find

variable (id : ℕ)

/-- The loop of `idr_find`, below a layer of the height. -/
def findDown : ℕ → Slot ι → Option (Slot ι)
  | 0, s => some s
  | l + 1, .layer p => if p.layer ≠ l then none else findDown l (p.ary (offset id l))
  | _ + 1, .null => some .null
  | _ + 1, .ptr _ => none

/-- `idr_find` -/
def idrFind (idp : Idr ι) : Option (Option ι) :=
  match idp.top with
  | .null => some none
  | .layer p =>
    let id := id % 2 ^ 31
    if 1 <<< ((p.layer + 1) * idrBits) ≤ id then some none
    else (findDown id (p.layer + 1) (.layer p)).bind Slot.toPtr
  | .ptr _ => none

/-- The loop of `idr_replace` and what follows it: what the entry held, and the tree with the new
pointer. -/
def replaceDown (ptr : Option ι) : ℕ → Slot ι → Option (Except ℤ (Option ι) × Slot ι)
  | 0, .layer p =>
    let n := offset id 0
    if !p.bitmap n then some (.error enoent, .layer p)
    else (p.ary n).toPtr.map fun old => (.ok old, .layer (p.setAry n (.ofPtr ptr)))
  | l + 1, .layer p => do
    let n := offset id (l + 1)
    let (r, s) ← replaceDown ptr l (p.ary n)
    some (r, .layer (p.setAry n s))
  | _, .null => some (.error enoent, .null)
  | _, .ptr _ => none

/-- `idr_replace` -/
def idrReplace (ptr : Option ι) (idp : Idr ι) : Option (Except ℤ (Option ι) × Idr ι) :=
  match idp.top with
  | .null => some (.error einval, idp)
  | .layer p =>
    let id := id % 2 ^ 31
    if 1 <<< ((p.layer + 1) * idrBits) ≤ id then some (.error einval, idp)
    else (replaceDown id ptr p.layer (.layer p)).map fun r => (r.1, { idp with top := r.2 })
  | .ptr _ => none

end Find

end AndroidKernel.Ids
