import TinyLsm.Iterator.BaseIterator

/-!
# Skip lists

The nodes of a skip list live in a heap, a list of nodes, and point to each other by their
positions in it; a null pointer is `none`.  A node has a vector of links forward and a
vector of links backward, one for each of its levels.  The outcomes of the coin flips that
`random_level` draws are arguments of `put`.  An iterator is a pointer to a node.

Following a null pointer, or indexing a vector out of its bounds, is undefined.
-/

namespace TinyLsm

/-- A pointer to a node. -/
abbrev Ref := ℕ

structure SkipListNode where
  key : Bytes
  value : Bytes
  trancId : TrancId
  height : ℕ
  forward : Vector (Option Ref) height
  backward : Vector (Option Ref) height

/-- A node of a given height, with its links null. -/
def SkipListNode.unlinked (key value : Bytes) (level : ℕ) (trancId : TrancId) : SkipListNode :=
  ⟨key, value, trancId, level, Vector.replicate level none, Vector.replicate level none⟩

def SkipListNode.entry (n : SkipListNode) : Entry := ⟨n.key, n.value, n.trancId⟩

structure SkipList where
  nodes : List SkipListNode
  head : Ref
  maxLevel : ℕ
  currentLevel : ℕ
  sizeBytes : UInt64

namespace SkipList

/-- The constructor, `16` being the default for the greatest level. -/
def empty (maxLvl : ℕ := 16) : SkipList where
  nodes := [SkipListNode.unlinked [] [] maxLvl 0]
  head := 0
  maxLevel := maxLvl
  currentLevel := 1
  sizeBytes := 0

/-- Climb from a level as long as the coin comes up and the greatest level is not reached.
The flips after the given ones do not come up. -/
def climb (maxLevel : ℕ) : ℕ → List Bool → ℕ
  | level, [] => level
  | level, flip :: flips =>
      if flip && decide (level < maxLevel) then climb maxLevel (level + 1) flips else level

def randomLevel (maxLevel : ℕ) (flips : List Bool) : ℕ := climb maxLevel 1 flips

/-! ### Nodes and links -/

def node (s : SkipList) (r : Ref) : Except Fault SkipListNode :=
  match s.nodes[r]? with
  | some n => .ok n
  | none => .error .undefinedBehavior

/-- The link `forward_[level]` of a node. -/
def forwardAt (s : SkipList) (level : ℕ) (r : Ref) : Except Fault (Option Ref) :=
  match s.nodes[r]? with
  | some n => if h : level < n.height then .ok n.forward[level] else .error .undefinedBehavior
  | none => .error .undefinedBehavior

/-- The link `backward_[level]` of a node. -/
def backwardAt (s : SkipList) (level : ℕ) (r : Ref) : Except Fault (Option Ref) :=
  match s.nodes[r]? with
  | some n => if h : level < n.height then .ok n.backward[level] else .error .undefinedBehavior
  | none => .error .undefinedBehavior

def setForward (s : SkipList) (level : ℕ) (r : Ref) (link : Option Ref) :
    Except Fault SkipList :=
  match s.nodes[r]? with
  | some n =>
      if h : level < n.height then
        .ok { s with nodes := s.nodes.set r { n with forward := n.forward.set level link } }
      else
        .error .undefinedBehavior
  | none => .error .undefinedBehavior

def setBackward (s : SkipList) (level : ℕ) (r : Ref) (link : Ref) : Except Fault SkipList :=
  match s.nodes[r]? with
  | some n =>
      if h : level < n.height then
        .ok { s with
          nodes := s.nodes.set r { n with backward := n.backward.set level (some link) } }
      else
        .error .undefinedBehavior
  | none => .error .undefinedBehavior

/-! ### Searching -/

/-- Step along a level while the next node has a key less than `key`.  No node is visited
twice, so as many rounds as there are nodes suffice. -/
def advance (s : SkipList) (key : Bytes) (level : ℕ) : ℕ → Ref → Except Fault Ref
  | 0, _ => .error .outOfFuel
  | fuel + 1, current => do
      match ← s.forwardAt level current with
      | none => .ok current
      | some next => do
          let n ← s.node next
          if n.key < key then advance s key level fuel next else .ok current

/-- Advance along the levels below a given one, from the highest of them down, and answer
the node reached with the nodes reached on each level, that of the lowest first. -/
def descend (s : SkipList) (key : Bytes) : ℕ → Ref → List Ref → Except Fault (Ref × List Ref)
  | 0, current, update => .ok (current, update)
  | level + 1, current, update => do
      let current' ← s.advance key level s.nodes.length current
      descend s key level current' (current' :: update)

/-- The iterator `get` answers, a pointer to its node, null for the end. -/
def get (s : SkipList) (key : Bytes) (trancId : TrancId) : Except Fault (Option Ref) := do
  let (current, _) ← s.descend key s.currentLevel s.head []
  match ← s.forwardAt 0 current with
  | none => .ok none
  | some target => do
      let n ← s.node target
      if n.key = key ∧ (trancId = 0 ∨ n.trancId ≤ trancId) then
        .ok (some target)
      else
        .ok none

/-! ### Inserting -/

/-- Link a node in after another one on a level. -/
def linkAt (s : SkipList) (new : Ref) (level : ℕ) (prev : Ref) : Except Fault SkipList := do
  let next ← s.forwardAt level prev
  let s₁ ← s.setForward level new next
  let s₂ ← s₁.setForward level prev (some new)
  let s₃ ← s₂.setBackward level new prev
  match next with
  | none => .ok s₃
  | some r => s₃.setBackward level r new

/-- Link a node in on the levels from a given one on, `count` of them, each time after the
node `update` has for the level. -/
def linkLevels (new : Ref) : ℕ → ℕ → List Ref → SkipList → Except Fault SkipList
  | 0, _, _, s => .ok s
  | _ + 1, _, [], _ => .error .undefinedBehavior
  | count + 1, level, prev :: update, s => do
      let s' ← s.linkAt new level prev
      linkLevels new count (level + 1) update s'

/-- Add a node to the heap, at the position of the length of the heap. -/
def allocate (s : SkipList) (n : SkipListNode) : SkipList := { s with nodes := s.nodes ++ [n] }

/-- Add a new node after the nodes of `update`. -/
def insertNode (s : SkipList) (update : List Ref) (newLevel : ℕ) (key value : Bytes)
    (trancId : TrancId) : Except Fault SkipList := do
  let allocated := s.allocate (SkipListNode.unlinked key value newLevel trancId)
  let linked ← linkLevels s.nodes.length newLevel 0 update allocated
  return { linked with
    sizeBytes := linked.sizeBytes + UInt64.ofNat (key.length + value.length + 8) }

/-- Raise the current level to the level of a new node. -/
def raise (s : SkipList) (newLevel : ℕ) : SkipList :=
  { s with currentLevel := max s.currentLevel newLevel }

/-- Replace the value of the node `n` at `r`.  The size loses that of the old value, and does
not gain that of the new one. -/
def replaceValue (s : SkipList) (r : Ref) (n : SkipListNode) (value : Bytes) : SkipList :=
  { s with
    nodes := s.nodes.set r { n with value }
    sizeBytes := s.sizeBytes - UInt64.ofNat n.value.length }

/-- Add a version of a key before the versions there are, or, if the first of these has the
same id, replace its value. -/
def place (s : SkipList) (newLevel : ℕ) (key value : Bytes) (trancId : TrancId) :
    Except Fault SkipList := do
  let (_, update) ← s.descend key s.currentLevel s.head []
  match update with
  | [] => .error .undefinedBehavior
  | prev :: _ => do
      match ← s.forwardAt 0 prev with
      | none => s.insertNode update newLevel key value trancId
      | some next => do
          let n ← s.node next
          if n.key = key ∧ n.trancId = trancId then
            return s.replaceValue next n value
          else
            s.insertNode update newLevel key value trancId

/-- `put`, with the outcomes of the coin flips of `random_level`. -/
def put (s : SkipList) (flips : List Bool) (key value : Bytes) (trancId : TrancId) :
    Except Fault SkipList :=
  let newLevel := randomLevel s.maxLevel flips
  (s.raise newLevel).place newLevel key value trancId

/-! ### Removing -/

/-- Link a node out on a level, where it comes after `prev`. -/
def unlinkAt (s : SkipList) (target : Ref) (level : ℕ) (prev : Ref) : Except Fault SkipList := do
  let next ← s.forwardAt level target
  let s₁ ← s.setForward level prev next
  match next with
  | none => .ok s₁
  | some r => s₁.setBackward level r prev

/-- Link a node out on the levels from a given one on, `count` of them, each time after the
node `update` has for the level. -/
def unlinkLevels (target : Ref) : ℕ → ℕ → List Ref → SkipList → Except Fault SkipList
  | 0, _, _, s => .ok s
  | _ + 1, _, [], _ => .error .undefinedBehavior
  | count + 1, level, prev :: update, s => do
      let s' ← s.unlinkAt target level prev
      unlinkLevels target count (level + 1) update s'

/-- Take the node `n` at `r` out, which comes after the nodes of `update`.  What is left of it
in the heap is not linked to. -/
def removeNode (s : SkipList) (update : List Ref) (r : Ref) (n : SkipListNode) :
    Except Fault SkipList := do
  let unlinked ← unlinkLevels r n.height 0 update s
  return { unlinked with
    sizeBytes := unlinked.sizeBytes - UInt64.ofNat (n.key.length + n.value.length + 8) }

def remove (s : SkipList) (key : Bytes) : Except Fault SkipList := do
  let (_, update) ← s.descend key s.currentLevel s.head []
  match update with
  | [] => .error .undefinedBehavior
  | prev :: _ => do
      match ← s.forwardAt 0 prev with
      | none => return s
      | some target => do
          let n ← s.node target
          if n.key = key then s.removeNode update target n else return s

/-- Start over with a new head.  The current level stays what it is. -/
def clear (s : SkipList) : SkipList :=
  { s.allocate (SkipListNode.unlinked [] [] s.maxLevel 0) with
    head := s.nodes.length
    sizeBytes := 0 }

/-! ### Iterating -/

/-- The entries from a node on, along the lowest level. -/
def flushFrom (s : SkipList) : ℕ → Option Ref → Except Fault (List Entry)
  | _, none => .ok []
  | 0, some _ => .error .outOfFuel
  | fuel + 1, some r => do
      let n ← s.node r
      let next ← s.forwardAt 0 r
      let data ← flushFrom s fuel next
      return n.entry :: data

def flush (s : SkipList) : Except Fault (List Entry) := do
  let first ← s.forwardAt 0 s.head
  s.flushFrom s.nodes.length first

end SkipList

/-- An iterator over a list is a pointer to a node of it, null at the end. -/
structure SkipListIterator where
  list : SkipList
  current : Option Ref

namespace SkipListIterator

def next (it : SkipListIterator) : Except Fault SkipListIterator :=
  match it.current with
  | none => .ok it
  | some r => do
      let current ← it.list.forwardAt 0 r
      return { it with current }

def deref (it : SkipListIterator) : Except Fault ((Bytes × Bytes) × SkipListIterator) :=
  match it.current with
  | none => .error (.runtimeError "SkipListIterator: Cannot dereference null iterator")
  | some r => do
      let n ← it.list.node r
      return ((n.key, n.value), it)

/-- The node an iterator is at, if it is at one. -/
def node? (it : SkipListIterator) : Option SkipListNode :=
  it.current.bind (fun r => it.list.nodes[r]?)

/-- At the end there is no id to report. -/
def getTrancId (it : SkipListIterator) : TrancId := (it.node?.map SkipListNode.trancId).getD 0

def isEnd (it : SkipListIterator) : Bool := it.current.isNone

def isValid (it : SkipListIterator) : Bool := it.node?.any (fun n => decide (n.key ≠ []))

instance : BaseIterator SkipListIterator := ⟨next, deref, getTrancId, isEnd, isValid⟩

end SkipListIterator

def SkipList.begin (s : SkipList) : Except Fault SkipListIterator := do
  let current ← s.forwardAt 0 s.head
  return ⟨s, current⟩

end TinyLsm
