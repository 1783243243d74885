import Mathlib.Algebra.Order.Ring.Int
import Mathlib.Algebra.Order.Ring.Nat

/-!
# The radix tree

`lib/radix-tree.c` with 6 bits a level and 32-bit indices. A node that is freed goes to the slab as
`radix_tree_node_rcu_free` leaves it, and an allocation may hand it out again just so. Items are not
`NULL` and do not have the bit that marks a node at the root. A call returns `none` where the source
has a `BUG_ON`, or takes an item or `NULL` for a node.
-/

namespace AndroidKernel.RadixTree

open Function

/-- `RADIX_TREE_MAP_SHIFT` -/
def mapShift : ℕ := 6

/-- `-EEXIST` -/
def eexist : ℤ := -17

/-- `-ENOMEM` -/
def enomem : ℤ := -12

/-- `struct radix_tree_node`, for `RADIX_TREE_MAX_TAGS` tags. -/
structure Node (σ : Type) where
  height : ℕ
  count : ℕ
  slots : Fin 64 → σ
  tags : Fin 2 → Fin 64 → Bool

/-- What a slot holds. -/
inductive Tree (ι : Type) where
  | null
  | item (x : ι)
  | node (n : Node (Tree ι))

/-- `struct radix_tree_root`; the tags are bits of `gfp_mask`. -/
structure Root (ι : Type) where
  height : ℕ
  rnode : Tree ι
  tags : Fin 2 → Bool

/-- What one allocation of a node does: it fails, takes a new object, or one that was freed. -/
inductive Answer where
  | fail
  | fresh
  | reuse (i : ℕ)

/-- The slab of nodes: those that are free, how many were made, and what the next allocations do. -/
structure Slab (ι : Type) where
  free : List (Node (Tree ι))
  made : ℕ
  answers : List Answer

variable {ι : Type}

/-- The slot is `NULL`. -/
def Tree.isNull : Tree ι → Bool
  | .null => true
  | _ => false

@[simp] theorem Tree.isNull_null : (.null : Tree ι).isNull = true := rfl

@[simp] theorem Tree.isNull_item (x : ι) : (Tree.item x).isNull = false := rfl

@[simp] theorem Tree.isNull_node (n : Node (Tree ι)) : (Tree.node n).isNull = false := rfl

theorem Tree.isNull_of_ne {t : Tree ι} (ht : t ≠ .null) : t.isNull = false := by
  cases t with
  | null => exact absurd rfl ht
  | item | node => rfl

namespace Node

/-- `radix_tree_node_ctor` -/
def zero : Node (Tree ι) := ⟨0, 0, fun _ => .null, fun _ _ => false⟩

variable (n : Node (Tree ι))

/-- The tags at a slot. -/
def tagsAt (o : Fin 64) : Fin 2 → Bool := fun tag => n.tags tag o

/-- The node with another value in a slot. -/
def setSlot (o : Fin 64) (t : Tree ι) : Node (Tree ι) := { n with slots := update n.slots o t }

@[simp] theorem setSlot_slots (o : Fin 64) (t : Tree ι) :
    (n.setSlot o t).slots = update n.slots o t := rfl

@[simp] theorem setSlot_tags (o : Fin 64) (t : Tree ι) : (n.setSlot o t).tags = n.tags := rfl

@[simp] theorem setSlot_tagsAt (o o' : Fin 64) (t : Tree ι) :
    (n.setSlot o t).tagsAt o' = n.tagsAt o' := rfl

/-- A slot gets a value; a slot that was empty counts. -/
def link (o : Fin 64) (t : Tree ι) : Node (Tree ι) :=
  { n.setSlot o t with
    count := if (n.slots o).isNull && !t.isNull then n.count + 1 else n.count }

/-- `tag_set` and `tag_clear` -/
def putTag (tag : Fin 2) (o : Fin 64) (b : Bool) : Node (Tree ι) :=
  { n with tags := update n.tags tag (update (n.tags tag) o b) }

@[simp] theorem putTag_slots (tag : Fin 2) (o : Fin 64) (b : Bool) :
    (n.putTag tag o b).slots = n.slots := rfl

theorem putTag_tags (tag : Fin 2) (o : Fin 64) (b : Bool) (tag' : Fin 2) (o' : Fin 64) :
    (n.putTag tag o b).tags tag' o' = if tag' = tag ∧ o' = o then b else n.tags tag' o' := by
  by_cases htag : tag' = tag
  · subst htag
    by_cases ho : o' = o
    · subst ho
      simp [putTag]
    · simp [putTag, ho]
  · simp [putTag, htag]

/-- `any_tag_set` -/
def anyTagSet (tag : Fin 2) : Bool := decide (∃ o, n.tags tag o = true)

end Node

/-- `radix_tree_node_alloc` -/
def Slab.nodeAlloc (m : Slab ι) : Option (Node (Tree ι)) × Slab ι :=
  match m.answers with
  | [] => (none, m)
  | .fail :: answers => (none, { m with answers := answers })
  | .fresh :: answers => (some .zero, { m with made := m.made + 1, answers := answers })
  | .reuse i :: answers => (m.free[i]?, { m with free := m.free.eraseIdx i, answers := answers })

/-- `radix_tree_node_rcu_free` -/
def Slab.nodeFree (m : Slab ι) (n : Node (Tree ι)) : Slab ι :=
  let n := (n.putTag ⟨0, Nat.two_pos⟩ 0 false).putTag ⟨1, Nat.one_lt_two⟩ 0 false
  { m with free := { n.setSlot 0 .null with count := 0 } :: m.free }

/-- `__maxindex` -/
def radixTreeMaxindex (height : ℕ) : ℕ :=
  let width := height * mapShift
  if 32 < width then 2 ^ 32 - 1
  else if 32 - width ≥ 32 then 0
  else (2 ^ 32 - 1) >>> (32 - width)

/-- The slot for an index in a node of height `h + 1`. -/
def offset (index h : ℕ) : Fin 64 :=
  ⟨(index >>> (h * mapShift)) &&& 63, Nat.lt_succ_of_le Nat.and_le_right⟩

section Insert

variable (index : ℕ) (x : ι)

/-- The loop of `radix_tree_extend` that finds the height. -/
def findHeight : ℕ → ℕ → ℕ
  | 0, height => height
  | n + 1, height => if index > radixTreeMaxindex height then findHeight n (height + 1) else height

/-- The new node in `radix_tree_extend`, above a tree with its tags. -/
def Node.above (n : Node (Tree ι)) (height : ℕ) (t : Tree ι) (tags : Fin 2 → Bool) :
    Node (Tree ι) :=
  { n.setSlot 0 t with
    tags := fun tag o => if o = 0 ∧ tags tag = true then true else n.tags tag o
    height := height
    count := 1 }

variable (root : Root ι) (m : Slab ι)

/-- A new root node above the old one. -/
def Root.raise (n : Node (Tree ι)) : Root ι :=
  { root with
    height := root.height + 1
    rnode := .node (n.above (root.height + 1) root.rnode root.tags) }

/-- The loop of `radix_tree_extend` that adds nodes. -/
def extendLoop : ℕ → Root ι → Slab ι → ℤ × Root ι × Slab ι
  | 0, root, m => (0, root, m)
  | n + 1, root, m =>
    match m.nodeAlloc with
    | (none, m) => (enomem, root, m)
    | (some node, m) => extendLoop n (root.raise node) m

/-- `radix_tree_extend` -/
def radixTreeExtend : ℤ × Root ι × Slab ι :=
  let height := findHeight index 6 (root.height + 1)
  if root.rnode.isNull then (0, { root with height := height }, m)
  else extendLoop (height - root.height) root m

/-- The node in a slot, or a new one for an empty slot. -/
def childNode (height : ℕ) (m : Slab ι) : Tree ι → Option (Option (Node (Tree ι)) × Slab ι)
  | .node n => some (some n, m)
  | .null => some (m.nodeAlloc.1.map fun n => { n with height := height }, m.nodeAlloc.2)
  | .item _ => none

/-- The loop of `radix_tree_insert`, on the slot above a node of the height, with its tags. -/
def insertDown : ℕ → Tree ι → (Fin 2 → Bool) → Slab ι → Option (ℤ × Tree ι × Slab ι)
  | 0, slot, tags, m =>
    if !slot.isNull then some (eexist, slot, m)
    else if tags ⟨0, Nat.two_pos⟩ || tags ⟨1, Nat.one_lt_two⟩ then none
    else some (0, .item x, m)
  | h + 1, slot, _, m => do
    match ← childNode (h + 1) m slot with
    | (none, m) => some (enomem, slot, m)
    | (some n, m) =>
      let o := offset index h
      let (error, slot, m) ← insertDown h (n.slots o) (n.tagsAt o) m
      some (error, .node (n.link o slot), m)

/-- `radix_tree_insert` -/
def radixTreeInsert : Option (ℤ × Root ι × Slab ι) :=
  let (error, root, m) := if index > radixTreeMaxindex root.height then
    radixTreeExtend index root m else (0, root, m)
  if error ≠ 0 then some (error, root, m)
  else do
    let (error, rnode, m) ← insertDown index x root.height root.rnode root.tags m
    some (error, { root with rnode := rnode }, m)

end Insert

section Lookup

variable (index : ℕ)

/-- The loop of `radix_tree_lookup_element`: the slot, as the way to it, and the item in it. -/
def lookupDown : ℕ → Node (Tree ι) → List (Fin 64) → Option (Option (List (Fin 64) × ι))
  | 0, _, _ => none
  | h + 1, n, way =>
    let o := offset index h
    match n.slots o with
    | .null => some none
    | .item x => if h = 0 then some (some (way ++ [o], x)) else none
    | .node n => if h = 0 then none else lookupDown h n (way ++ [o])

/-- `radix_tree_lookup_element` -/
def radixTreeLookupElement (root : Root ι) : Option (Option (List (Fin 64) × ι)) :=
  match root.rnode with
  | .null => some none
  | .item x => if index > 0 then some none else some (some ([], x))
  | .node n => if index > radixTreeMaxindex n.height then some none
    else lookupDown index n.height n []

/-- `radix_tree_lookup` -/
def radixTreeLookup (root : Root ι) : Option (Option ι) :=
  (radixTreeLookupElement index root).map fun r => r.map Prod.snd

/-- `radix_tree_lookup_slot` -/
def radixTreeLookupSlot (root : Root ι) : Option (Option (List (Fin 64))) :=
  (radixTreeLookupElement index root).map fun r => r.map Prod.fst

end Lookup

/-- What the slot at the end of a way holds. -/
def Tree.read : List (Fin 64) → Tree ι → Tree ι
  | o :: way, .node n => (n.slots o).read way
  | _ :: _, _ => .null
  | [], t => t

section Tags

variable (index : ℕ) (tag : Fin 2)

/-- The loop of `radix_tree_tag_set`, with the item it ends at. -/
def tagSetDown : ℕ → Tree ι → Option (ι × Tree ι)
  | 0, .item x => some (x, .item x)
  | h + 1, .node n => do
    let o := offset index h
    let (x, slot) ← tagSetDown h (n.slots o)
    some (x, .node ((n.putTag tag o true).setSlot o slot))
  | _, _ => none

variable (root : Root ι)

/-- `radix_tree_tag_set` -/
def radixTreeTagSet : Option (Option ι × Root ι) :=
  if index > radixTreeMaxindex root.height then none
  else if root.height = 0 ∧ root.rnode.isNull then some (none, root)
  else do
    let (x, rnode) ← tagSetDown index tag root.height root.rnode
    some (some x, { root with rnode := rnode, tags := update root.tags tag true })

/-- The two loops of `radix_tree_tag_clear`: the item, and whether the tag goes above too. -/
def tagClearDown : ℕ → Tree ι → Option (Option ι × Tree ι × Bool)
  | 0, .item x => some (some x, .item x, true)
  | h + 1, .node n => do
    let o := offset index h
    let (slot, child, up) ← tagClearDown h (n.slots o)
    let n := n.setSlot o child
    if !up || !n.tags tag o then some (slot, .node n, false)
    else
      let n := n.putTag tag o false
      some (slot, .node n, !n.anyTagSet tag)
  | _, .null => some (none, .null, false)
  | _, _ => none

/-- `radix_tree_tag_clear` -/
def radixTreeTagClear : Option (Option ι × Root ι) :=
  if index > radixTreeMaxindex root.height then some (none, root)
  else do
    let (slot, rnode, up) ← tagClearDown index tag root.height root.rnode
    some (slot, { root with
      rnode := rnode
      tags := if up then update root.tags tag false else root.tags })

/-- The loop of `radix_tree_tag_get` -/
def tagGetDown : ℕ → Tree ι → Option Bool
  | _ + 1, .null => some false
  | h + 1, .node n =>
    let o := offset index h
    if h = 0 then some (n.tags tag o) else tagGetDown h (n.slots o)
  | _, _ => none

/-- `radix_tree_tag_get` -/
def radixTreeTagGet : Option Bool :=
  if !root.tags tag then some false
  else
    match root.rnode with
    | .null => some false
    | .item _ => some (decide (index = 0))
    | .node n => if index > radixTreeMaxindex n.height then some false
      else tagGetDown index tag n.height (.node n)

/-- `radix_tree_tagged` -/
def radixTreeTagged : Bool := root.tags tag

end Tags

section Delete

variable (index : ℕ)

/-- The first loop of `radix_tree_delete`: the slot of the index, with the tags at it. -/
def slotDown : ℕ → Tree ι → (Fin 2 → Bool) → Option (Tree ι × (Fin 2 → Bool))
  | 0, slot, tags => some (slot, tags)
  | h + 1, .node n, _ => slotDown h (n.slots (offset index h)) (n.tagsAt (offset index h))
  | _ + 1, .null, tags => some (.null, tags)
  | _ + 1, .item _, _ => none

/-- Where the last loop of `radix_tree_delete` is after a slot: the slot is to be cleared, or the
loop ended at the node, or below it. -/
inductive Climb (ι : Type) where
  | clear (toFree : Option (Node (Tree ι)))
  | ended (n : Node (Tree ι))
  | endedBelow (n : Node (Tree ι))

/-- `radix_tree_node_free`, unless there is nothing to free. -/
def Slab.freeNode (m : Slab ι) : Option (Node (Tree ι)) → Slab ι
  | none => m
  | some n => m.nodeFree n

/-- The last loop of `radix_tree_delete`, up to the slot above a node of the height. -/
def removeDown : ℕ → Tree ι → Slab ι → Option (Climb ι × Slab ι)
  | 0, _, m => some (.clear none, m)
  | h + 1, .node n, m => do
    let o := offset index h
    match ← removeDown h (n.slots o) m with
    | (.clear toFree, m) =>
      let n := { n.setSlot o .null with count := n.count - 1 }
      some (if n.count ≠ 0 then .ended n else .clear (some n), m.freeNode toFree)
    | (.ended child, m) => some (.endedBelow (n.setSlot o (.node child)), m)
    | (.endedBelow child, m) => some (.endedBelow (n.setSlot o (.node child)), m)
  | _, _, _ => none

/-- `radix_tree_shrink` -/
def radixTreeShrink : ℕ → Tree ι → Slab ι → Option (ℕ × Tree ι × Slab ι)
  | 0, rnode, m => some (0, rnode, m)
  | h + 1, .node n, m =>
    if n.count ≠ 1 then some (h + 1, .node n, m)
    else if (n.slots 0).isNull then some (h + 1, .node n, m)
    else radixTreeShrink h (n.slots 0) (m.nodeFree n)
  | _, _, _ => none

/-- A tag of the item is cleared. -/
def clearTag (root : Root ι) (tag : Fin 2) : Option (Root ι) := do
  let (_, tags) ← slotDown index root.height root.rnode root.tags
  if tags tag then (radixTreeTagClear index tag root).map Prod.snd else some root

/-- The tags of the item are cleared, one after the other. -/
def clearTags (root : Root ι) : Option (Root ι) := (List.finRange 2).foldlM (clearTag index) root

/-- The end of `radix_tree_delete`, by where its last loop ended. -/
def deleteEnd (x : ι) (root : Root ι) : Climb ι × Slab ι → Option (Option ι × Root ι × Slab ι)
  | (.clear toFree, m) =>
    some (some x, { height := 0, rnode := .null, tags := fun _ => false }, m.freeNode toFree)
  | (.ended n, m) => do
    let (height, rnode, m) ← radixTreeShrink root.height (.node n) m
    some (some x, { root with height := height, rnode := rnode }, m)
  | (.endedBelow n, m) => some (some x, { root with rnode := .node n }, m)

/-- `radix_tree_delete` -/
def radixTreeDelete (root : Root ι) (m : Slab ι) : Option (Option ι × Root ι × Slab ι) :=
  if index > radixTreeMaxindex root.height then some (none, root, m)
  else if root.height = 0 then
    match root.rnode with
    | .null => some (none, { root with tags := fun _ => false, rnode := .null }, m)
    | .item x => some (some x, { root with tags := fun _ => false, rnode := .null }, m)
    | .node _ => none
  else do
    match ← slotDown index root.height root.rnode root.tags with
    | (.null, _) => some (none, root, m)
    | (.node _, _) => none
    | (.item x, _) =>
      let root ← clearTags index root
      deleteEnd x root (← removeDown index root.height root.rnode m)

end Delete

end AndroidKernel.RadixTree
