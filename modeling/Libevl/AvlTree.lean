import Mathlib.Algebra.Order.Ring.Int
import Mathlib.Logic.Function.Basic

/-!
# The AVL trees of the heap

A tree is a memory of holders with its anchor, its ends and its counters. Links
are followed through that memory, so nothing but the code makes it a tree. A
null dereference and a loop that does not end are faults. The loops are bounded
by a fuel above the number of nodes. The counters are exact.
-/
namespace Libevl

/-- What the C code must not do. -/
inductive Fault
  | null
  | wild
  | endless
  | assertion
  | page
  | bucket
  deriving DecidableEq, Repr

namespace AvlTree

/-- A pointer to `struct avlh`: the anchor of the tree or a linked holder. -/
inductive Ref (α : Type)
  | anchor
  | node (a : α)
  deriving DecidableEq, Repr

/-- `struct avlh`. -/
structure Avlh (α : Type) where
  type : ℤ
  balance : ℤ
  left : Option (Ref α)
  up : Option (Ref α)
  right : Option (Ref α)
  deriving DecidableEq, Repr

/-- `struct avl`, with the memory its links point into. -/
structure Avl (α : Type) where
  cell : Ref α → Avlh α
  head : Option (Ref α)
  tail : Option (Ref α)
  count : ℕ
  height : ℕ

variable {α : Type}

/-- The 2-bit signed fields. -/
def narrow2 (x : ℤ) : ℤ := x.bmod 4

/-- `AVL_LEFT`, `AVL_UP` and `AVL_RIGHT` are -1, 0 and 1. -/
def avlOpposite (dir : ℤ) : ℤ := -dir

def Avlh.link (c : Avlh α) (dir : ℤ) : Option (Ref α) :=
  if dir < 0 then c.left else if dir = 0 then c.up else c.right

def Avlh.setLink (c : Avlh α) (dir : ℤ) (p : Option (Ref α)) : Avlh α :=
  if dir < 0 then { c with left := p }
  else if dir = 0 then { c with up := p }
  else { c with right := p }

def Avlh.setType (c : Avlh α) (type : ℤ) : Avlh α := { c with type := narrow2 type }

def Avlh.setBalance (c : Avlh α) (balance : ℤ) : Avlh α := { c with balance := narrow2 balance }

/-- `avl_end`. -/
def Avl.getEnd (t : Avl α) (dir : ℤ) : Option (Ref α) := if dir < 0 then t.head else t.tail

/-- `avl_set_end`. -/
def avlSetEnd (t : Avl α) (dir : ℤ) (p : Option (Ref α)) : Avl α :=
  if dir < 0 then { t with head := p } else { t with tail := p }

/-- `avl_top`. -/
def Avl.top (t : Avl α) : Option (Ref α) := (t.cell .anchor).right

def deref (p : Option (Ref α)) : Except Fault (Ref α) :=
  match p with
  | some r => .ok r
  | none => .error .null

/-- The bound on the iterations of a loop. -/
def Avl.fuel (t : Avl α) : ℕ := t.count + 2

variable [DecidableEq α]

/-- `avl_set_end`, when the end is `oldh`. -/
def moveEnd (t : Avl α) (dir : ℤ) (oldh newh : Ref α) : Avl α :=
  if some oldh = t.getEnd dir then avlSetEnd t dir (some newh) else t

def Avl.modify (t : Avl α) (r : Ref α) (f : Avlh α → Avlh α) : Avl α :=
  { t with cell := Function.update t.cell r (f (t.cell r)) }

/-- `avlh_set_link`. -/
def avlhSetLink (t : Avl α) (lhs : Ref α) (dir : ℤ) (rhs : Option (Ref α)) : Avl α :=
  t.modify lhs (·.setLink dir rhs)

def setType (t : Avl α) (r : Ref α) (type : ℤ) : Avl α :=
  t.modify r (·.setType type)

def setBalance (t : Avl α) (r : Ref α) (balance : ℤ) : Avl α :=
  t.modify r (·.setBalance balance)

/-- `avlh_set_parent_link`. -/
def avlhSetParentLink (t : Avl α) (lhs : Ref α) (rhs : Option (Ref α)) : Except Fault (Avl α) := do
  let up ← deref (t.cell lhs).up
  return avlhSetLink t up (t.cell lhs).type rhs

/-- `avlh_init`. -/
def avlhInit (t : Avl α) (r : Ref α) : Avl α := setType (setBalance t r 0) r 0

/-- `avl_init`. -/
def avlInit (t : Avl α) : Avl α :=
  let t := avlhInit t .anchor
  { avlhSetLink t .anchor 1 none with height := 0, count := 0, head := none, tail := none }

/-- `avlh_link_child`. -/
def avlhLinkChild (t : Avl α) (oldh newh : Ref α) (side : ℤ) : Avl α :=
  let child := (t.cell oldh).link side
  let t := avlhSetLink t newh side child
  match child with
  | some c => avlhSetLink t c 0 (some newh)
  | none => t

/-- `avlh_replace`. -/
def avlhReplace (t : Avl α) (oldh newh : Ref α) : Except Fault (Avl α) := do
  let t := setType t newh (t.cell oldh).type
  let t := avlhSetLink t newh 0 (t.cell oldh).up
  let t ← avlhSetParentLink t oldh (some newh)
  let t := avlhLinkChild t oldh newh (-1)
  return avlhLinkChild t oldh newh 1

/-- The loop of `avl_inorder` that goes down to the end of a subtree. -/
def descend (t : Avl α) (dir : ℤ) : ℕ → Ref α → Except Fault (Ref α)
  | 0, _ => .error .endless
  | n + 1, holder =>
    match (t.cell holder).link dir with
    | some next => descend t dir n next
    | none => .ok holder

/-- The loop of `avl_inorder` that climbs to the first holder on the other side. -/
def climb (t : Avl α) (dir : ℤ) : ℕ → Ref α → Except Fault (Option (Ref α))
  | 0, _ => .error .endless
  | n + 1, holder => do
    let next ← deref (t.cell holder).up
    if next = .anchor then return none
    else if (t.cell holder).type ≠ dir then return some next
    else climb t dir n next

/-- `avl_inorder`. -/
def avlInorder (t : Avl α) (holder : Ref α) (dir : ℤ) : Except Fault (Option (Ref α)) :=
  match (t.cell holder).link dir with
  | some child => some <$> descend t (avlOpposite dir) t.fuel child
  | none => climb t dir t.fuel holder

/-- `avl_prev`. -/
def avlPrev (t : Avl α) (holder : Ref α) : Except Fault (Option (Ref α)) := avlInorder t holder (-1)

/-- `avl_next`. -/
def avlNext (t : Avl α) (holder : Ref α) : Except Fault (Option (Ref α)) := avlInorder t holder 1

/-- `delta ?: dir`. -/
def orElse (delta dir : ℤ) : ℤ := if delta ≠ 0 then delta else dir

/-- The loop of `DECLARE_AVL_SEARCH`; `cmp` compares the key with a holder. -/
def searchLoop (t : Avl α) (cmp : α → ℤ) (dir : ℤ) : ℕ → Ref α → Except Fault (Ref α × ℤ)
  | 0, _ => .error .endless
  | _ + 1, .anchor => .error .wild
  | n + 1, .node a =>
    let delta := cmp a
    if orElse delta dir = 0 then .ok (.node a, delta)
    else
      match (t.cell (.node a)).link (orElse delta dir) with
      | some next => searchLoop t cmp dir n next
      | none => .ok (.node a, delta)

/-- A search function of `struct avl_searchops`. -/
def search (t : Avl α) (cmp : α → ℤ) (dir : ℤ) : Except Fault (Option (Ref α) × ℤ) :=
  match t.top with
  | none => .ok (none, 1)
  | some holder => do
    let (holder, delta) ← searchLoop t cmp dir t.fuel holder
    return (some holder, delta)

/-- `avl_search_nearest`. -/
def avlSearchNearest (t : Avl α) (cmp : α → ℤ) (dir : ℤ) : Except Fault (Option (Ref α)) := do
  let (holder, delta) ← search t cmp 0
  match holder with
  | none => return none
  | some h => if delta ≠ dir then return some h else avlInorder t h dir

/-- `avl_search_le`. -/
def avlSearchLe (t : Avl α) (cmp : α → ℤ) : Except Fault (Option (Ref α)) :=
  avlSearchNearest t cmp (-1)

/-- `avl_search_ge`. -/
def avlSearchGe (t : Avl α) (cmp : α → ℤ) : Except Fault (Option (Ref α)) :=
  avlSearchNearest t cmp 1

/-- `avlh_rotate`. -/
def avlhRotate (t : Avl α) (holder : Ref α) (dir : ℤ) : Except Fault (Avl α × Ref α) := do
  let opp := avlOpposite dir
  let nexttop ← deref ((t.cell holder).link opp)
  let subtree := (t.cell nexttop).link dir
  let t := match subtree with
    | some s => setType (avlhSetLink (avlhSetLink t holder opp subtree) s 0 (some holder)) s opp
    | none => avlhSetLink t holder opp none
  let t := avlhSetLink t nexttop dir (some holder)
  let t := avlhSetLink t nexttop 0 (t.cell holder).up
  let t := setType t nexttop (t.cell holder).type
  let t := avlhSetLink t holder 0 (some nexttop)
  let t := setType t holder dir
  let t ← avlhSetParentLink t nexttop (some nexttop)
  return (t, nexttop)

/-- `avlh_dbl_rotate`. -/
def avlhDblRotate (t : Avl α) (holder : Ref α) (dir : ℤ) : Except Fault (Avl α × Ref α) := do
  let heavy ← deref ((t.cell holder).link (avlOpposite dir))
  let (t, _) ← avlhRotate t heavy (avlOpposite dir)
  avlhRotate t holder dir

/-- The balances of the three nodes involved in a double rotation. -/
def recomputeBalances (t : Avl α) (holder : Ref α) : Except Fault (Avl α) := do
  let dir := orElse (t.cell holder).balance 1
  let one ← deref ((t.cell holder).link dir)
  let t := setBalance t one 0
  let other ← deref ((t.cell holder).link (avlOpposite dir))
  let t := setBalance t other (-(t.cell holder).balance)
  return setBalance t holder 0

/-- `avlh_rebalance`. -/
def avlhRebalance (t : Avl α) (holder : Ref α) (delta : ℤ) : Except Fault (Avl α × Ref α) := do
  let heavySide ← deref ((t.cell holder).link delta)
  if (t.cell heavySide).balance = -delta then
    let (t, holder) ← avlhDblRotate t holder (avlOpposite delta)
    let t ← recomputeBalances t holder
    return (t, holder)
  else
    let (t, _) ← avlhRotate t holder (avlOpposite delta)
    let t := setBalance t holder ((t.cell holder).balance - (t.cell heavySide).balance)
    let t := setBalance t heavySide ((t.cell heavySide).balance - delta)
    return (t, heavySide)

/-- `avlh_balance_add`. -/
def avlhBalanceAdd (t : Avl α) (holder : Ref α) (delta : ℤ) : Except Fault (Avl α × Ref α) :=
  if (t.cell holder).balance = delta then avlhRebalance t holder delta
  else .ok (setBalance t holder ((t.cell holder).balance + delta), holder)

/-- `avl_delete_leaf`. -/
def avlDeleteLeaf (t : Avl α) (node : Ref α) : Except Fault (Avl α) := do
  let newNode ← deref (t.cell node).up
  let dir := (t.cell node).type
  let t := avlhSetLink t newNode dir ((t.cell node).link dir)
  return moveEnd t dir node newNode

/-- `avl_delete_1child`. -/
def avlDelete1child (t : Avl α) (node : Ref α) (dir : ℤ) : Except Fault (Avl α × Ref α) := do
  let newNode ← deref ((t.cell node).link dir)
  let t := avlhSetLink t node dir ((t.cell newNode).link dir)
  let t ← avlhReplace t node newNode
  return (moveEnd t (avlOpposite dir) node newNode, newNode)

/-- The rebalancing loop of `avl_delete`. -/
def shrinkLoop : ℕ → Avl α → Ref α → Except Fault (Avl α)
  | 0, _, _ => .error .endless
  | n + 1, t, node =>
    if (t.cell node).balance = 0 then do
      let delta := -(t.cell node).type
      let node ← deref (t.cell node).up
      if node = .anchor then return { t with height := t.height - 1 }
      else
        let (t, node) ← avlhBalanceAdd t node delta
        shrinkLoop n t node
    else .ok t

/-- `avl_delete`. The fuel bounds the nested calls through `avl_delete_2children`,
of which the code makes at most one. -/
def deleteWith : ℕ → Avl α → Ref α → Except Fault (Avl α)
  | 0, _, _ => .error .endless
  | n + 1, t, node =>
    let t := { t with count := t.count - 1 }
    if t.count = 0 then
      .ok { avlhSetLink t .anchor 1 none with head := none, tail := none, height := t.height - 1 }
    else
      match (t.cell node).link (-1), (t.cell node).link 1 with
      | none, none => do
        let t ← avlDeleteLeaf t node
        shrinkLoop t.fuel t node
      | none, some _ => do
        let (t, node) ← avlDelete1child t node 1
        shrinkLoop t.fuel t node
      | some _, none => do
        let (t, node) ← avlDelete1child t node (-1)
        shrinkLoop t.fuel t node
      | some _, some _ => do
        -- `avl_delete_2children`
        let dir := orElse (t.cell node).balance 1
        let newNode ← deref (← avlInorder t node dir)
        let t ← deleteWith n t newNode
        let t := { t with count := t.count + 1 }
        let t ← avlhReplace t node newNode
        let t := setBalance t newNode (t.cell node).balance
        return moveEnd t dir node newNode

/-- `avl_delete`. -/
def avlDelete (t : Avl α) (node : Ref α) : Except Fault (Avl α) := deleteWith 2 t node

/-- `avlh_attach`. -/
def avlhAttach (t : Avl α) (parent child : Ref α) (side : ℤ) : Avl α :=
  let t := avlhSetLink t child (-1) none
  let t := avlhSetLink t child 1 none
  let t := avlhSetLink t child 0 (some parent)
  let t := avlhSetLink t parent side (some child)
  setType t child side

/-- The rebalancing loop of `avl_insert_inner`. -/
def growLoop : ℕ → Avl α → Ref α → Except Fault (Avl α)
  | 0, _, _ => .error .endless
  | n + 1, t, parent =>
    if (t.cell parent).balance ≠ 0 then do
      let delta := (t.cell parent).type
      let parent ← deref (t.cell parent).up
      if parent = .anchor then return { t with height := t.height + 1 }
      else
        let (t, parent) ← avlhBalanceAdd t parent delta
        growLoop n t parent
    else .ok t

/-- `avl_insert_inner`. -/
def avlInsertInner (t : Avl α) (parent : Option (Ref α)) (node : Ref α) (side : ℤ) :
    Except Fault (Avl α) :=
  match parent with
  | none =>
    let t := avlhAttach t .anchor node side
    .ok { t with count := t.count + 1, head := some node, tail := some node,
                 height := t.height + 1 }
  | some p =>
    let t := avlhAttach t p node side
    let t := { t with count := t.count + 1 }
    let t := moveEnd t side p node
    let t := setBalance t p ((t.cell p).balance + side)
    growLoop t.fuel t p

/-- `assert`, which `NDEBUG` compiles out. -/
def assert (debug : Bool) (p : Prop) [Decidable p] : Except Fault Unit :=
  if debug ∧ ¬ p then .error .assertion else .ok ()

/-- `avl_insert`. -/
def avlInsert (debug : Bool) (t : Avl α) (holder : Ref α) (cmp : α → ℤ) : Except Fault (Avl α) := do
  let (parent, delta) ← search t cmp 0
  assert debug (delta ≠ 0)
  avlInsertInner t parent holder delta

/-- `avl_insert_back`. -/
def avlInsertBack (t : Avl α) (holder : Ref α) (cmp : α → ℤ) : Except Fault (Avl α) := do
  let (parent, delta) ← search t cmp 1
  avlInsertInner t parent holder (orElse delta 1)

/-- An assertion on the result of `ops->cmp`, when there is a holder to compare with. -/
def assertCmp (debug : Bool) (cmp : α → ℤ) (r : Option (Ref α)) (p : ℤ → Prop) [DecidablePred p] :
    Except Fault Unit :=
  match r with
  | some (.node a) => assert debug (p (cmp a))
  | some .anchor => if debug then .error .wild else .ok ()
  | none => .ok ()

/-- `avl_prepend`. -/
def avlPrepend (debug : Bool) (t : Avl α) (holder : Ref α) (cmp : α → ℤ) :
    Except Fault (Avl α) := do
  let type : ℤ := if t.head = none then 1 else -1
  assertCmp debug cmp t.head (· < 0)
  avlInsertInner t t.head holder type

/-- `avl_replace`. -/
def avlReplace (debug : Bool) (t : Avl α) (oldh newh : Ref α) (cmp : α → ℤ) :
    Except Fault (Avl α) := do
  let prev ← avlPrev t oldh
  let next ← avlNext t oldh
  assertCmp debug cmp prev (¬ · < 0)
  assertCmp debug cmp next (¬ 0 < ·)
  let t ← avlhReplace t oldh newh
  let t := moveEnd t (-1) oldh newh
  let t := moveEnd t 1 oldh newh
  return setBalance t newh (t.cell oldh).balance

end AvlTree
end Libevl
