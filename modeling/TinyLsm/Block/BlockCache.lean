import Mathlib.Data.List.AList
import TinyLsm.Block.BlockIterator
import TinyLsm.Library.LruK
import TinyLsm.Library.Runs

/-!
# The block cache

The cache keeps its items in two lists, those with less than `k` accesses and the others, each
from the most recently accessed item on, and a map from the ids of an item to its list element.
An access takes the element out of the list its count says, and puts it at the front of the list
its new count says; a put of a new item at capacity evicts the last item of the first list, or of
the second one if the first one is empty.

For `k` at least two this is replacement by the `k`-th access.  An item enters the first list
whatever `k` is: for `k = 1` its count is too large there, and the next access looks for it in the
second list.
-/

namespace TinyLsm

/-- An item of the cache.  A shared pointer to a block may be null. -/
structure CacheItem where
  sstId : ℤ
  blockId : ℤ
  cacheBlock : Option Block
  accessCount : ℕ
deriving DecidableEq, Repr

namespace CacheItem

def key (item : CacheItem) : ℤ × ℤ := (item.sstId, item.blockId)

/-- A list of items, each with the address of its list element. -/
abbrev CacheList := List (ℕ × CacheItem)

/-- The list once the element at an address holds an item. -/
def write (it : ℕ) (item : CacheItem) (l : CacheList) : CacheList :=
  l.map (fun e => if e.1 = it then (it, item) else e)

/-- The list without an element of it. -/
def erase (it : ℕ) (l : CacheList) : Except Fault CacheList :=
  if it ∈ l.map Prod.fst then .ok (l.filter (fun e => e.1 ≠ it)) else .error .undefinedBehavior

/-- The list with an element of it moved to the front. -/
def splice (it : ℕ) (l : CacheList) : Except Fault CacheList :=
  match l.find? (fun e => e.1 = it) with
  | some e => .ok (e :: l.filter (fun e => e.1 ≠ it))
  | none => .error .undefinedBehavior

theorem write_of_notMem {it : ℕ} {item : CacheItem} {l : CacheList} (h : it ∉ l.map Prod.fst) :
  write it item l = l
  := by
  induction l with
  | nil => rfl
  | cons e l ih =>
      rw [List.map_cons, List.mem_cons, not_or] at h
      have ih := ih h.2
      rw [write] at ih ⊢
      rw [List.map_cons, ih, if_neg (Ne.symm h.1)]

theorem filter_write (it : ℕ) (item : CacheItem) (l : CacheList) :
  (write it item l).filter (fun e => e.1 ≠ it) = l.filter (fun e => e.1 ≠ it)
  := by
  induction l with
  | nil => rfl
  | cons e l ih =>
      rw [write] at ih ⊢
      rw [List.map_cons]
      by_cases he : e.1 = it
      · rw [if_pos he, List.filter_cons_of_neg (by simp), List.filter_cons_of_neg (by simp [he]),
          ih]
      · rw [if_neg he, List.filter_cons_of_pos (by simp [he]),
          List.filter_cons_of_pos (by simp [he]), ih]

theorem filter_of_notMem {it : ℕ} {l : CacheList} (h : it ∉ l.map Prod.fst) :
  l.filter (fun e => e.1 ≠ it) = l
  := by
  apply List.filter_eq_self.mpr
  intro e he
  apply decide_eq_true
  rintro rfl
  exact h (List.mem_map_of_mem he)

theorem erase_write {it : ℕ} {item : CacheItem} {l : CacheList} (h : it ∈ l.map Prod.fst) :
  erase it (write it item l) = .ok (l.filter (fun e => e.1 ≠ it))
  := by
  have hmem : it ∈ (write it item l).map Prod.fst := by
    obtain ⟨e, he, hit⟩ := List.mem_map.mp h
    rw [write, List.map_map]
    exact List.mem_map.mpr ⟨e, he, by simp [hit]⟩
  rw [erase, if_pos hmem, filter_write]

theorem splice_write {it : ℕ} {item : CacheItem} {l : CacheList} (h : it ∈ l.map Prod.fst) :
  splice it (write it item l) = .ok ((it, item) :: l.filter (fun e => e.1 ≠ it))
  := by
  have hfind : (write it item l).find? (fun e => e.1 = it) = some (it, item) := by
    induction l with
    | nil => cases h
    | cons e l ih =>
        rw [write, List.map_cons]
        by_cases he : e.1 = it
        · rw [if_pos he, List.find?_cons_of_pos (by simp)]
        · rw [if_neg he, List.find?_cons_of_neg (by simpa using he)]
          apply ih
          simpa [Ne.symm he] using h
  rw [splice, hfind, filter_write]

theorem splice_of_notMem {it : ℕ} {l : CacheList} (h : it ∉ l.map Prod.fst) :
  splice it l = .error .undefinedBehavior
  := by
  have hfind : l.find? (fun e => e.1 = it) = none := by
    apply List.find?_eq_none.mpr
    intro e he hit
    apply h
    rw [← of_decide_eq_true hit]
    exact List.mem_map_of_mem he
  rw [splice, hfind]

/-- Distinct elements are found at their addresses. -/
theorem find?_of_mem {it : ℕ} {item : CacheItem} {l : CacheList} (hl : (l.map Prod.fst).Nodup)
    (h : (it, item) ∈ l) :
  l.find? (fun e => e.1 = it) = some (it, item)
  := by
  induction l with
  | nil => cases h
  | cons e l ih =>
      rw [List.map_cons, List.nodup_cons] at hl
      rcases List.mem_cons.mp h with rfl | h
      · apply List.find?_cons_of_pos (by simp)
      · have hne : e.1 ≠ it := by
          intro he
          exact hl.1 (List.mem_map.mpr ⟨_, h, he.symm⟩)
        rw [List.find?_cons_of_neg (by simpa using hne)]
        apply ih hl.2 h

end CacheItem

open CacheItem

structure BlockCache where
  capacity : ℕ
  k : ℕ
  cacheListGreaterK : CacheList := []
  cacheListLessK : CacheList := []
  /-- The addresses of the list elements. -/
  cacheMap : AList (fun _ : ℤ × ℤ => ℕ) := ∅
  /-- The next address to be allocated. -/
  allocated : ℕ := 0
  totalRequests : ℕ := 0
  hitRequests : ℕ := 0

namespace BlockCache

/-- The elements of both lists. -/
def elements (s : BlockCache) : CacheList := s.cacheListLessK ++ s.cacheListGreaterK

/-- The item an iterator points to. -/
def deref (s : BlockCache) (it : ℕ) : Except Fault CacheItem :=
  match s.elements.find? (fun e => e.1 = it) with
  | some e => .ok e.2
  | none => .error .undefinedBehavior

/-- Write through an iterator. -/
def assign (s : BlockCache) (it : ℕ) (item : CacheItem) : BlockCache :=
  { s with
    cacheListLessK := CacheItem.write it item s.cacheListLessK
    cacheListGreaterK := CacheItem.write it item s.cacheListGreaterK }

def updateAccessCount (s : BlockCache) (it : ℕ) : Except Fault BlockCache := do
  let item ← s.deref it
  let item := { item with accessCount := item.accessCount + 1 }
  let s := s.assign it item
  if item.accessCount < s.k then
    return { s with cacheListLessK := ← splice it s.cacheListLessK }
  else if item.accessCount = s.k then
    return { s with
      cacheListLessK := ← CacheItem.erase it s.cacheListLessK
      cacheListGreaterK := (s.allocated, item) :: s.cacheListGreaterK
      cacheMap := s.cacheMap.insert item.key s.allocated
      allocated := s.allocated + 1 }
  else
    return { s with cacheListGreaterK := ← splice it s.cacheListGreaterK }

/-- The block of an item, or null, and the cache after the call. -/
def get (s : BlockCache) (sstId blockId : ℤ) : Except Fault (Option Block × BlockCache) := do
  let s := { s with totalRequests := s.totalRequests + 1 }
  match s.cacheMap.lookup (sstId, blockId) with
  | none => return (none, s)
  | some it =>
      let s := { s with hitRequests := s.hitRequests + 1 }
      let s ← s.updateAccessCount it
      -- after a promotion the map holds the new element
      match s.cacheMap.lookup (sstId, blockId) with
      | none => throw .undefinedBehavior
      | some it => return ((← s.deref it).cacheBlock, s)

/-- Remove the least recently used item, preferably one with less than `k` accesses. -/
def evict (s : BlockCache) : Except Fault BlockCache :=
  match s.cacheListLessK.getLast?, s.cacheListGreaterK.getLast? with
  | some e, _ => .ok { s with
      cacheMap := s.cacheMap.erase e.2.key
      cacheListLessK := s.cacheListLessK.dropLast }
  | none, some e => .ok { s with
      cacheMap := s.cacheMap.erase e.2.key
      cacheListGreaterK := s.cacheListGreaterK.dropLast }
  | none, none => .error .undefinedBehavior

/-- Evict an item if the cache is full. -/
def makeRoom (s : BlockCache) : Except Fault BlockCache :=
  if s.capacity ≤ s.cacheMap.keys.length then s.evict else .ok s

def put (s : BlockCache) (sstId blockId : ℤ) (block : Option Block) : Except Fault BlockCache :=
  match s.cacheMap.lookup (sstId, blockId) with
  | some it => do
      let item ← s.deref it
      (s.assign it { item with cacheBlock := block }).updateAccessCount it
  | none => do
      let s ← s.makeRoom
      return { s with
        cacheListLessK := (s.allocated, ⟨sstId, blockId, block, 1⟩) :: s.cacheListLessK
        cacheMap := s.cacheMap.insert (sstId, blockId) s.allocated
        allocated := s.allocated + 1 }

abbrev Call := LruK.Call (ℤ × ℤ) (Option Block)

/-- The cache after a call. -/
def call (s : BlockCache) : Call → Except Fault BlockCache
  | .get key => do return (← s.get key.1 key.2).2
  | .put key block => s.put key.1 key.2 block

/-- The cache after the calls on a new one. -/
def run (capacity k : ℕ) (calls : List Call) : Except Fault BlockCache :=
  calls.foldlM call { capacity := capacity, k := k }

/-! ### Accesses -/

theorem updateAccessCount_of_lt {s : BlockCache} {it : ℕ} {item : CacheItem}
    (hitem : s.deref it = .ok item) (hcount : item.accessCount + 1 < s.k)
    (hless : it ∈ s.cacheListLessK.map Prod.fst)
    (hgreater : it ∉ s.cacheListGreaterK.map Prod.fst) :
  s.updateAccessCount it = .ok { s with
    cacheListLessK := (it, { item with accessCount := item.accessCount + 1 }) ::
      s.cacheListLessK.filter (fun e => e.1 ≠ it) }
  := by
  rw [updateAccessCount, Except.bind_eq_of_ok _ hitem]
  dsimp only [assign]
  rw [if_pos hcount, splice_write hless, write_of_notMem hgreater]
  rfl

theorem updateAccessCount_of_eq {s : BlockCache} {it : ℕ} {item : CacheItem}
    (hitem : s.deref it = .ok item) (hcount : item.accessCount + 1 = s.k)
    (hless : it ∈ s.cacheListLessK.map Prod.fst)
    (hgreater : it ∉ s.cacheListGreaterK.map Prod.fst) :
  s.updateAccessCount it = .ok { s with
    cacheListLessK := s.cacheListLessK.filter (fun e => e.1 ≠ it)
    cacheListGreaterK := (s.allocated, { item with accessCount := item.accessCount + 1 }) ::
      s.cacheListGreaterK
    cacheMap := s.cacheMap.insert item.key s.allocated
    allocated := s.allocated + 1 }
  := by
  rw [updateAccessCount, Except.bind_eq_of_ok _ hitem]
  dsimp only [assign]
  rw [if_neg (by omega), if_pos hcount, erase_write hless, write_of_notMem hgreater]
  rfl

theorem updateAccessCount_of_gt {s : BlockCache} {it : ℕ} {item : CacheItem}
    (hitem : s.deref it = .ok item) (hcount : s.k < item.accessCount + 1)
    (hgreater : it ∈ s.cacheListGreaterK.map Prod.fst)
    (hless : it ∉ s.cacheListLessK.map Prod.fst) :
  s.updateAccessCount it = .ok { s with
    cacheListGreaterK := (it, { item with accessCount := item.accessCount + 1 }) ::
      s.cacheListGreaterK.filter (fun e => e.1 ≠ it) }
  := by
  rw [updateAccessCount, Except.bind_eq_of_ok _ hitem]
  dsimp only [assign]
  rw [if_neg (by omega), if_neg (by omega), splice_write hgreater, write_of_notMem hless]
  rfl

/-! ### The residents of the cache -/

abbrev Resident := LruK.Resident (ℤ × ℤ) (Option Block)

/-- The item of a resident. -/
def item (r : Resident) : CacheItem := ⟨r.key.1, r.key.2, r.value, r.accesses⟩

/-- The list element of a resident. -/
def element (e : ℕ × Resident) : ℕ × CacheItem := (e.1, item e.2)

/-- The map has the addresses of the residents, which are distinct and allocated. -/
structure Indexed (cacheMap : AList (fun _ : ℤ × ℤ => ℕ)) (allocated : ℕ)
    (order : List (ℕ × Resident)) : Prop where
  nodes : (order.map Prod.fst).Nodup
  keys : (order.map (fun e => e.2.key)).Nodup
  lookup : ∀ {key it}, cacheMap.lookup key = some it ↔ ∃ r, (it, r) ∈ order ∧ r.key = key
  lt_allocated : ∀ e ∈ order, e.1 < allocated

/-- The lists have the residents in their order, and the map has their addresses. -/
structure Represents (capacity k : ℕ) (s : BlockCache) (order : List (ℕ × Resident)) : Prop where
  capacity_eq : s.capacity = capacity
  k_eq : s.k = k
  less : s.cacheListLessK = (order.filter (fun e => e.2.accesses < k)).map element
  greater : s.cacheListGreaterK = (order.filter (fun e => ¬ e.2.accesses < k)).map element
  indexed : Indexed s.cacheMap s.allocated order

theorem Indexed.eq_of_key_eq {cacheMap : AList (fun _ : ℤ × ℤ => ℕ)} {allocated : ℕ}
    {order : List (ℕ × Resident)} (h : Indexed cacheMap allocated order) {e e' : ℕ × Resident}
    (he : e ∈ order) (he' : e' ∈ order) (hkey : e.2.key = e'.2.key) :
  e = e'
  := List.inj_on_of_nodup_map h.keys he he' hkey

theorem Indexed.eq_of_node_eq {cacheMap : AList (fun _ : ℤ × ℤ => ℕ)} {allocated : ℕ}
    {order : List (ℕ × Resident)} (h : Indexed cacheMap allocated order) {e e' : ℕ × Resident}
    (he : e ∈ order) (he' : e' ∈ order) (hnode : e.1 = e'.1) :
  e = e'
  := List.inj_on_of_nodup_map h.nodes he he' hnode

/-- To take out the element of a resident is to take out the resident. -/
theorem Indexed.map_filter {cacheMap : AList (fun _ : ℤ × ℤ => ℕ)} {allocated : ℕ}
    {order : List (ℕ × Resident)} (h : Indexed cacheMap allocated order) {it : ℕ} {r : Resident}
    (hr : (it, r) ∈ order) :
  (order.filter (fun e => e.1 ≠ it)).map Prod.snd = LruK.without r.key (order.map Prod.snd)
  := by
  rw [LruK.without, List.filter_map]
  apply congrArg
  apply List.filter_congr
  intro e he
  apply decide_eq_decide.mpr
  apply not_congr
  constructor
  · intro hnode
    rw [h.eq_of_node_eq he hr hnode]
  · intro hkey
    rw [h.eq_of_key_eq he hr hkey]

theorem Indexed.perm_others {cacheMap : AList (fun _ : ℤ × ℤ => ℕ)} {allocated : ℕ}
    {order : List (ℕ × Resident)} (h : Indexed cacheMap allocated order) {it : ℕ} {r : Resident}
    (hr : (it, r) ∈ order) :
  order.Perm ((it, r) :: order.filter (fun e => e.1 ≠ it))
  := by
  have hnodup : order.Nodup := List.Nodup.of_map Prod.fst h.nodes
  apply (List.perm_ext_iff_of_nodup hnodup (List.nodup_cons.mpr ⟨_, hnodup.filter _⟩)).mpr
  · intro e
    rw [List.mem_cons, List.mem_filter, decide_eq_true_iff]
    constructor
    · intro he
      by_cases hnode : e.1 = it
      · exact .inl (h.eq_of_node_eq he hr hnode)
      · exact .inr ⟨he, hnode⟩
    · rintro (rfl | ⟨he, -⟩)
      · exact hr
      · exact he
  · intro hmem
    exact of_decide_eq_true (List.mem_filter.mp hmem).2 rfl

/-- A resident that enters, or is accessed, is the first one in the order. -/
theorem Indexed.access {cacheMap cacheMap' : AList (fun _ : ℤ × ℤ => ℕ)} {allocated allocated' : ℕ}
    {order rest : List (ℕ × Resident)} (h : Indexed cacheMap allocated order)
    (hrest : rest.Sublist order) {it : ℕ} {r : Resident}
    (hnode : it ∉ rest.map Prod.fst)
    (hkeys : ∀ e ∈ order, e.2.key ≠ r.key ↔ e ∈ rest)
    (hself : cacheMap'.lookup r.key = some it)
    (hothers : ∀ key, key ≠ r.key → cacheMap'.lookup key = cacheMap.lookup key)
    (hle : allocated ≤ allocated') (hlt : it < allocated') :
  Indexed cacheMap' allocated' ((it, r) :: rest)
  where
  nodes := List.nodup_cons.mpr ⟨hnode, h.nodes.sublist (hrest.map _)⟩
  keys := by
    apply List.nodup_cons.mpr ⟨_, h.keys.sublist (hrest.map _)⟩
    intro hmem
    obtain ⟨e, he, hkey⟩ := List.mem_map.mp hmem
    exact (hkeys e (hrest.subset he)).mpr he hkey
  lookup := by
    intro key it'
    by_cases hkey : key = r.key
    · subst hkey
      rw [hself]
      constructor
      · rintro ⟨⟩
        exact ⟨r, List.mem_cons_self, rfl⟩
      · rintro ⟨r', hr', hkey⟩
        rcases List.mem_cons.mp hr' with heq | hr'
        · cases heq
          rfl
        · exact absurd hkey ((hkeys _ (hrest.subset hr')).mpr hr')
    · rw [hothers key hkey, h.lookup]
      constructor
      · rintro ⟨r', hr', rfl⟩
        exact ⟨r', List.mem_cons_of_mem _ ((hkeys _ hr').mp hkey), rfl⟩
      · rintro ⟨r', hr', rfl⟩
        rcases List.mem_cons.mp hr' with heq | hr'
        · cases heq
          exact absurd rfl hkey
        · exact ⟨r', hrest.subset hr', rfl⟩
  lt_allocated := by
    intro e he
    rcases List.mem_cons.mp he with rfl | he
    · exact hlt
    · exact (h.lt_allocated e (hrest.subset he)).trans_le hle

/-- A resident that is evicted is no longer in the order. -/
theorem Indexed.evict {cacheMap : AList (fun _ : ℤ × ℤ => ℕ)} {allocated : ℕ}
    {order : List (ℕ × Resident)} (h : Indexed cacheMap allocated order) {it : ℕ} {r : Resident}
    (hr : (it, r) ∈ order) :
  Indexed (cacheMap.erase r.key) allocated (order.filter (fun e => e.1 ≠ it))
  where
  nodes := h.nodes.sublist (List.filter_sublist.map _)
  keys := h.keys.sublist (List.filter_sublist.map _)
  lookup := by
    intro key it'
    by_cases hkey : key = r.key
    · subst hkey
      rw [AList.lookup_erase]
      constructor
      · rintro ⟨⟩
      · rintro ⟨r', hr', hkey⟩
        have hmem := List.mem_filter.mp hr'
        have heq := h.eq_of_key_eq hmem.1 hr hkey
        exact absurd (congrArg Prod.fst heq) (of_decide_eq_true hmem.2)
    · rw [AList.lookup_erase_ne hkey, h.lookup]
      constructor
      · rintro ⟨r', hr', rfl⟩
        refine ⟨r', List.mem_filter.mpr ⟨hr', decide_eq_true ?_⟩, rfl⟩
        intro hnode
        exact hkey (congrArg (fun e => e.2.key) (h.eq_of_node_eq hr' hr hnode))
      · rintro ⟨r', hr', rfl⟩
        exact ⟨r', List.mem_of_mem_filter hr', rfl⟩
  lt_allocated e he := h.lt_allocated e (List.mem_of_mem_filter he)

/-- The elements of both lists are those of the residents. -/
theorem Represents.elements_perm {capacity k : ℕ} {s : BlockCache} {order : List (ℕ × Resident)}
    (h : Represents capacity k s order) :
  s.elements.Perm (order.map element)
  := by
  rw [elements, h.less, h.greater, ← List.map_append]
  apply List.Perm.map
  simp only [decide_not]
  exact List.filter_append_perm _ order

theorem Represents.deref {capacity k : ℕ} {s : BlockCache} {order : List (ℕ × Resident)}
    (h : Represents capacity k s order) {it : ℕ} {r : Resident} (hr : (it, r) ∈ order) :
  s.deref it = .ok (element (it, r)).2
  := by
  have hnodup : (s.elements.map Prod.fst).Nodup := by
    apply (h.elements_perm.map Prod.fst).nodup_iff.mpr
    rw [List.map_map]
    exact h.indexed.nodes
  have hmem : element (it, r) ∈ s.elements :=
    h.elements_perm.mem_iff.mpr (List.mem_map_of_mem hr)
  have hfind := find?_of_mem hnodup hmem
  rw [BlockCache.deref]
  exact hfind ▸ rfl

/-- An element is in the list its count says. -/
theorem Represents.mem_less {capacity k : ℕ} {s : BlockCache} {order : List (ℕ × Resident)}
    (h : Represents capacity k s order) {it : ℕ} {r : Resident} (hr : (it, r) ∈ order) :
  it ∈ s.cacheListLessK.map Prod.fst ↔ r.accesses < k
  := by
  rw [h.less, List.map_map, List.mem_map]
  constructor
  · rintro ⟨e, he, hnode⟩
    have hmem := List.mem_filter.mp he
    have heq := h.indexed.eq_of_node_eq hmem.1 hr hnode
    rw [heq] at hmem
    exact of_decide_eq_true hmem.2
  · intro hlt
    exact ⟨(it, r), List.mem_filter.mpr ⟨hr, decide_eq_true hlt⟩, rfl⟩

theorem Represents.mem_greater {capacity k : ℕ} {s : BlockCache} {order : List (ℕ × Resident)}
    (h : Represents capacity k s order) {it : ℕ} {r : Resident} (hr : (it, r) ∈ order) :
  it ∈ s.cacheListGreaterK.map Prod.fst ↔ k ≤ r.accesses
  := by
  rw [h.greater, List.map_map, List.mem_map]
  constructor
  · rintro ⟨e, he, hnode⟩
    have hmem := List.mem_filter.mp he
    have heq := h.indexed.eq_of_node_eq hmem.1 hr hnode
    rw [heq] at hmem
    exact Nat.le_of_not_lt (of_decide_eq_true hmem.2)
  · intro hle
    exact ⟨(it, r), List.mem_filter.mpr ⟨hr, decide_eq_true (Nat.not_lt.mpr hle)⟩, rfl⟩

theorem Represents.filter_less {capacity k : ℕ} {s : BlockCache} {order : List (ℕ × Resident)}
    (h : Represents capacity k s order) (it : ℕ) :
  s.cacheListLessK.filter (fun e => e.1 ≠ it) =
    ((order.filter (fun e => e.1 ≠ it)).filter (fun e => e.2.accesses < k)).map element
  := by
  rw [h.less, List.filter_map, List.filter_comm]
  rfl

theorem Represents.filter_greater {capacity k : ℕ} {s : BlockCache} {order : List (ℕ × Resident)}
    (h : Represents capacity k s order) (it : ℕ) :
  s.cacheListGreaterK.filter (fun e => e.1 ≠ it) =
    ((order.filter (fun e => e.1 ≠ it)).filter (fun e => ¬ e.2.accesses < k)).map element
  := by
  rw [h.greater, List.filter_map, List.filter_comm]
  rfl

/-- An accessed resident is put at the front with its count. -/
theorem Indexed.touch {cacheMap cacheMap' : AList (fun _ : ℤ × ℤ => ℕ)} {allocated allocated' : ℕ}
    {order : List (ℕ × Resident)} (h : Indexed cacheMap allocated order) {it it' : ℕ}
    {r : Resident} (hr : (it, r) ∈ order) (accesses lastAccess : ℕ)
    (hnode : it' = it ∨ it' = allocated)
    (hself : cacheMap'.lookup r.key = some it')
    (hothers : ∀ key, key ≠ r.key → cacheMap'.lookup key = cacheMap.lookup key)
    (hle : allocated ≤ allocated') (hlt : it' < allocated') :
  Indexed cacheMap' allocated'
    ((it', ⟨r.key, r.value, accesses, lastAccess⟩) :: order.filter (fun e => e.1 ≠ it))
  := by
  apply h.access (r := ⟨r.key, r.value, accesses, lastAccess⟩) List.filter_sublist _ _ hself
    hothers hle hlt
  · intro hmem
    obtain ⟨e, he, rfl⟩ := List.mem_map.mp hmem
    have hmem := List.mem_filter.mp he
    rcases hnode with hnode | hnode
    · exact of_decide_eq_true hmem.2 hnode
    · exact absurd (h.lt_allocated e hmem.1) (hnode ▸ lt_irrefl _)
  · intro e he
    rw [List.mem_filter, decide_eq_true_iff]
    constructor
    · intro hkey
      refine ⟨he, fun hnode => hkey ?_⟩
      rw [h.eq_of_node_eq he hr hnode]
    · rintro ⟨-, hnode⟩ hkey
      exact hnode (congrArg Prod.fst (h.eq_of_key_eq he hr hkey))

/-- An access counts, and puts the item at the front of the list for its count. -/
theorem Represents.updateAccessCount {capacity k : ℕ} {s : BlockCache}
    {order : List (ℕ × Resident)} (h : Represents capacity k s order) {it : ℕ} {r : Resident}
    (hr : (it, r) ∈ order) (lastAccess : ℕ) :
  ∃ s' it', s.updateAccessCount it = .ok s' ∧ Represents capacity k s'
    ((it', ⟨r.key, r.value, r.accesses + 1, lastAccess⟩) :: order.filter (fun e => e.1 ≠ it))
  := by
  have hself : s.cacheMap.lookup r.key = some it := h.indexed.lookup.mpr ⟨r, hr, rfl⟩
  have hlt := h.indexed.lt_allocated _ hr
  have hless := h.mem_less hr
  have hgreater := h.mem_greater hr
  have hk := h.k_eq
  rcases lt_trichotomy (r.accesses + 1) k with hcount | hcount | hcount
  · have hnot : it ∉ s.cacheListGreaterK.map Prod.fst := by
      rw [hgreater]
      omega
    refine ⟨_, it, updateAccessCount_of_lt (h.deref hr) (hk.symm ▸ hcount)
      (hless.mpr (by omega)) hnot, h.capacity_eq, hk, ?_, ?_,
      h.indexed.touch hr _ _ (.inl rfl) hself (fun _ _ => rfl) le_rfl hlt⟩
    · rw [List.filter_cons_of_pos (by simpa using hcount), List.map_cons, ← h.filter_less it]
      rfl
    · rw [List.filter_cons_of_neg (by simpa using hcount), ← h.filter_greater it]
      exact (filter_of_notMem hnot).symm
  · have hnot : it ∉ s.cacheListGreaterK.map Prod.fst := by
      rw [hgreater]
      omega
    refine ⟨_, s.allocated, updateAccessCount_of_eq (h.deref hr) (hk.symm ▸ hcount)
      (hless.mpr (by omega)) hnot, h.capacity_eq, hk, ?_, ?_,
      h.indexed.touch hr _ _ (.inr rfl) (AList.lookup_insert _)
        (fun _ hne => AList.lookup_insert_ne hne) (Nat.le_succ _) (Nat.lt_succ_self _)⟩
    · rw [List.filter_cons_of_neg (by simp [hcount]), ← h.filter_less it]
    · rw [List.filter_cons_of_pos (by simp [hcount]), List.map_cons, ← h.filter_greater it]
      exact congrArg _ (filter_of_notMem hnot).symm
  · have hnot : it ∉ s.cacheListLessK.map Prod.fst := by
      rw [hless]
      omega
    refine ⟨_, it, updateAccessCount_of_gt (h.deref hr) (hk.symm ▸ hcount)
      (hgreater.mpr (by omega)) hnot, h.capacity_eq, hk, ?_, ?_,
      h.indexed.touch hr _ _ (.inl rfl) hself (fun _ _ => rfl) le_rfl hlt⟩
    · rw [List.filter_cons_of_neg (by simpa using hcount.le), ← h.filter_less it]
      exact (filter_of_notMem hnot).symm
    · rw [List.filter_cons_of_pos (by simpa using hcount.le), List.map_cons,
        ← h.filter_greater it]
      rfl

/-- A resident with a value written to the element at an address. -/
def revalue (it : ℕ) (value : Option Block) (e : ℕ × Resident) : ℕ × Resident :=
  if e.1 = it then (e.1, { e.2 with value := value }) else e

@[simp]
theorem revalue_fst (it : ℕ) (value : Option Block) (e : ℕ × Resident) :
  (revalue it value e).1 = e.1
  := by
  unfold revalue
  split <;> rfl

@[simp]
theorem revalue_key (it : ℕ) (value : Option Block) (e : ℕ × Resident) :
  (revalue it value e).2.key = e.2.key
  := by
  unfold revalue
  split <;> rfl

@[simp]
theorem revalue_accesses (it : ℕ) (value : Option Block) (e : ℕ × Resident) :
  (revalue it value e).2.accesses = e.2.accesses
  := by
  unfold revalue
  split <;> rfl

theorem Indexed.revalue {cacheMap : AList (fun _ : ℤ × ℤ => ℕ)} {allocated : ℕ}
    {order : List (ℕ × Resident)} (h : Indexed cacheMap allocated order) (it : ℕ)
    (value : Option Block) :
  Indexed cacheMap allocated (order.map (revalue it value))
  where
  nodes := by
    rw [List.map_map]
    simpa [Function.comp_def] using h.nodes
  keys := by
    rw [List.map_map]
    simpa [Function.comp_def] using h.keys
  lookup := by
    intro key it'
    rw [h.lookup]
    constructor
    · rintro ⟨r, hr, rfl⟩
      refine ⟨(BlockCache.revalue it value (it', r)).2, ?_, by simp⟩
      exact List.mem_map.mpr ⟨(it', r), hr, Prod.ext (by simp) rfl⟩
    · rintro ⟨r, hr, rfl⟩
      obtain ⟨e, he, heq⟩ := List.mem_map.mp hr
      have hnode := congrArg Prod.fst heq
      have hkey := congrArg (fun e => e.2.key) heq
      rw [revalue_fst] at hnode
      dsimp only at hnode hkey
      rw [revalue_key] at hkey
      exact ⟨e.2, hnode ▸ he, hkey⟩
  lt_allocated := by
    intro e he
    obtain ⟨e', he', rfl⟩ := List.mem_map.mp he
    rw [revalue_fst]
    apply h.lt_allocated e' he'

/-- Writing the block of an item gives its resident the block. -/
theorem Represents.assign {capacity k : ℕ} {s : BlockCache} {order : List (ℕ × Resident)}
    (h : Represents capacity k s order) {it : ℕ} {r : Resident} (hr : (it, r) ∈ order)
    (block : Option Block) :
  Represents capacity k (s.assign it ⟨r.key.1, r.key.2, block, r.accesses⟩)
    (order.map (revalue it block))
  := by
  have hlist (p : ℕ × Resident → Bool) (hp : ∀ e, p (revalue it block e) = p e) :
      CacheItem.write it ⟨r.key.1, r.key.2, block, r.accesses⟩ ((order.filter p).map element) =
        ((order.map (revalue it block)).filter p).map element := by
    have hcount : p ∘ revalue it block = p := funext hp
    rw [List.filter_map, hcount, CacheItem.write, List.map_map, List.map_map]
    apply List.map_congr_left
    intro e he
    dsimp only [Function.comp, revalue]
    by_cases hnode : e.1 = it
    · have heq := h.indexed.eq_of_node_eq (List.mem_of_mem_filter he) hr hnode
      subst heq
      rw [if_pos hnode]
      exact if_pos hnode
    · rw [if_neg hnode]
      exact if_neg hnode
  refine ⟨h.capacity_eq, h.k_eq, ?_, ?_, h.indexed.revalue it block⟩
  · rw [← hlist _ (by simp), ← h.less]
    rfl
  · rw [← hlist _ (by simp), ← h.greater]
    rfl

/-! ### Eviction -/

/-- Distinct elements without the last one. -/
theorem dropLast_eq_filter {order : List (ℕ × Resident)} (hnodes : (order.map Prod.fst).Nodup)
    {e : ℕ × Resident} (he : order.getLast? = some e) :
  order.dropLast = order.filter (fun e' => e'.1 ≠ e.1)
  := by
  obtain ⟨rest, rfl⟩ := List.getLast?_eq_some_iff.mp he
  rw [List.map_append, List.map_singleton] at hnodes
  rw [List.dropLast_concat, List.filter_append, List.filter_cons_of_neg (by simp),
    List.filter_nil, List.append_nil]
  symm
  apply List.filter_eq_self.mpr
  intro e' he'
  apply decide_eq_true
  intro hnode
  apply (List.nodup_append.mp hnodes).2.2 e'.1 (List.mem_map_of_mem he') e.1 (by simp) hnode

theorem evict_of_less {s : BlockCache} {e : ℕ × CacheItem}
    (he : s.cacheListLessK.getLast? = some e) :
  s.evict = .ok { s with
    cacheMap := s.cacheMap.erase e.2.key
    cacheListLessK := s.cacheListLessK.dropLast }
  := by
  rw [evict, he]

theorem evict_of_greater {s : BlockCache} {e : ℕ × CacheItem} (hless : s.cacheListLessK = [])
    (he : s.cacheListGreaterK.getLast? = some e) :
  s.evict = .ok { s with
    cacheMap := s.cacheMap.erase e.2.key
    cacheListGreaterK := s.cacheListGreaterK.dropLast }
  := by
  rw [evict, hless, he]
  rfl

/-- Without a resident the others are those with the same property, if the resident has it not. -/
theorem Indexed.filter_others {cacheMap : AList (fun _ : ℤ × ℤ => ℕ)} {allocated : ℕ}
    {order : List (ℕ × Resident)} (h : Indexed cacheMap allocated order) {it : ℕ} {r : Resident}
    (hr : (it, r) ∈ order) (p : ℕ × Resident → Bool) (hp : p (it, r) = false) :
  (order.filter (fun e => e.1 ≠ it)).filter p = order.filter p
  := by
  rw [List.filter_comm]
  apply List.filter_eq_self.mpr
  intro e he
  have hmem := List.mem_filter.mp he
  apply decide_eq_true
  intro hnode
  rw [h.eq_of_node_eq hmem.1 hr hnode, hp] at hmem
  cases hmem.2

/-- Without the last one of some residents the others are left. -/
theorem Indexed.filter_dropLast {cacheMap : AList (fun _ : ℤ × ℤ => ℕ)} {allocated : ℕ}
    {order : List (ℕ × Resident)} (h : Indexed cacheMap allocated order) {it : ℕ} {r : Resident}
    {p : ℕ × Resident → Bool} (hlast : (order.filter p).getLast? = some (it, r)) :
  (order.filter (fun e => e.1 ≠ it)).filter p = (order.filter p).dropLast
  := by
  have hnodes : ((order.filter p).map Prod.fst).Nodup :=
    h.nodes.sublist (List.filter_sublist.map _)
  rw [List.filter_comm, dropLast_eq_filter hnodes hlast]

/-- The item evicted is the victim among the residents. -/
theorem Represents.evict {capacity k : ℕ} {s : BlockCache} {order : List (ℕ × Resident)}
    (h : Represents capacity k s order) {r : Resident}
    (hvictim : LruK.victim k (order.map Prod.snd) = some r) :
  ∃ s' it, s.evict = .ok s' ∧ (it, r) ∈ order ∧
    Represents capacity k s' (order.filter (fun e => e.1 ≠ it))
  := by
  rw [LruK.victim, List.filter_map, List.getLast?_map, List.getLast?_map] at hvictim
  rcases Option.or_eq_some_iff.mp hvictim with hfew | ⟨hnone, hlastOfAll⟩
  · obtain ⟨⟨it, r⟩, hlast, rfl⟩ := Option.map_eq_some_iff.mp hfew
    have hmem := List.mem_filter.mp (List.mem_of_getLast? hlast)
    have hless : s.cacheListLessK.getLast? = some (element (it, r)) := by
      rw [h.less, List.getLast?_map]
      exact congrArg (Option.map element) hlast
    refine ⟨_, it, evict_of_less hless, hmem.1, h.capacity_eq, h.k_eq, ?_, ?_,
      h.indexed.evict hmem.1⟩
    · have hdrop := h.indexed.filter_dropLast hlast
      rw [h.less, ← List.map_dropLast]
      exact congrArg _ hdrop.symm
    · rw [h.indexed.filter_others hmem.1 _ (by simpa using hmem.2), ← h.greater]
  · obtain ⟨⟨it, r⟩, hlast, rfl⟩ := Option.map_eq_some_iff.mp hlastOfAll
    have hnil := List.getLast?_eq_none_iff.mp (Option.map_eq_none_iff.mp hnone)
    have hless : s.cacheListLessK = [] := by
      rw [h.less]
      exact congrArg _ hnil
    have hall : order.filter (fun e => ¬ e.2.accesses < k) = order := by
      apply List.filter_eq_self.mpr
      intro e he
      simpa using List.filter_eq_nil_iff.mp hnil e he
    have hmem := List.mem_of_getLast? hlast
    have hgreater : s.cacheListGreaterK.getLast? = some (element (it, r)) := by
      rw [h.greater, hall, List.getLast?_map, hlast]
      rfl
    refine ⟨_, it, evict_of_greater hless hgreater, hmem, h.capacity_eq, h.k_eq, ?_, ?_,
      h.indexed.evict hmem⟩
    · rw [List.filter_comm]
      change _ = ((order.filter ((fun r => decide (r.accesses < k)) ∘ Prod.snd)).filter _).map _
      rw [hnil, hless]
      rfl
    · have hdrop : (order.filter (fun e => ¬ e.2.accesses < k)).getLast? = some (it, r) := by
        rw [hall, hlast]
      rw [h.indexed.filter_dropLast hdrop, h.greater, List.map_dropLast]

/-! ### Calls -/

theorem Indexed.lookup_of_find {cacheMap : AList (fun _ : ℤ × ℤ => ℕ)} {allocated : ℕ}
    {order : List (ℕ × Resident)} (h : Indexed cacheMap allocated order) {key : ℤ × ℤ}
    {r : Resident} (hfind : LruK.find key (order.map Prod.snd) = some r) :
  ∃ it, cacheMap.lookup key = some it ∧ (it, r) ∈ order ∧ r.key = key
  := by
  obtain ⟨hmem, hkey⟩ := LruK.find_eq_some hfind
  obtain ⟨⟨it, r⟩, hr, rfl⟩ := List.mem_map.mp hmem
  exact ⟨it, h.lookup.mpr ⟨r, hr, hkey⟩, hr, hkey⟩

theorem Indexed.find_eq_none_iff {cacheMap : AList (fun _ : ℤ × ℤ => ℕ)} {allocated : ℕ}
    {order : List (ℕ × Resident)} (h : Indexed cacheMap allocated order) {key : ℤ × ℤ} :
  LruK.find key (order.map Prod.snd) = none ↔ cacheMap.lookup key = none
  := by
  rw [LruK.find_eq_none, List.map_map, Option.eq_none_iff_forall_ne_some]
  constructor
  · intro hnot it hlookup
    obtain ⟨r, hr, rfl⟩ := h.lookup.mp hlookup
    exact hnot (List.mem_map.mpr ⟨(it, r), hr, rfl⟩)
  · intro hnone hmem
    obtain ⟨e, he, hkey⟩ := List.mem_map.mp hmem
    exact hnone e.1 (h.lookup.mpr ⟨e.2, he, hkey⟩)

/-- The map has as many keys as there are residents. -/
theorem Indexed.length_keys {cacheMap : AList (fun _ : ℤ × ℤ => ℕ)} {allocated : ℕ}
    {order : List (ℕ × Resident)} (h : Indexed cacheMap allocated order) :
  cacheMap.keys.length = order.length
  := by
  have hperm : cacheMap.keys.Perm (order.map (fun e => e.2.key)) := by
    apply (List.perm_ext_iff_of_nodup cacheMap.keys_nodup h.keys).mpr
    intro key
    rw [← AList.mem_keys, ← AList.lookup_isSome, Option.isSome_iff_exists, List.mem_map]
    constructor
    · rintro ⟨it, hlookup⟩
      obtain ⟨r, hr, hkey⟩ := h.lookup.mp hlookup
      exact ⟨(it, r), hr, hkey⟩
    · rintro ⟨e, he, hkey⟩
      exact ⟨e.1, h.lookup.mpr ⟨e.2, he, hkey⟩⟩
  rw [hperm.length_eq, List.length_map]

/-- A hit counts, and answers the block. -/
theorem Represents.get {capacity k : ℕ} {s : BlockCache} {order : List (ℕ × Resident)}
    (h : Represents capacity k s order) (key : ℤ × ℤ) (now : ℕ) :
  ∃ s' order', s.get key.1 key.2 =
      .ok (((LruK.find key (order.map Prod.snd)).map LruK.Resident.value).getD none, s') ∧
    Represents capacity k s' order' ∧
    order'.map Prod.snd = (LruK.step capacity k ⟨now, order.map Prod.snd⟩ (.get key)).residents
  := by
  cases hfind : LruK.find key (order.map Prod.snd) with
  | none =>
      have hlookup := h.indexed.find_eq_none_iff.mp hfind
      refine ⟨{ s with totalRequests := s.totalRequests + 1 }, order, ?_,
        ⟨h.capacity_eq, h.k_eq, h.less, h.greater, h.indexed⟩, ?_⟩
      · rw [BlockCache.get]
        dsimp only
        rw [hlookup]
        rfl
      · rw [LruK.step, hfind]
  | some r =>
      obtain ⟨it, hlookup, hr, rfl⟩ := h.indexed.lookup_of_find hfind
      have hcounted : Represents capacity k
          { s with totalRequests := s.totalRequests + 1, hitRequests := s.hitRequests + 1 } order :=
        ⟨h.capacity_eq, h.k_eq, h.less, h.greater, h.indexed⟩
      obtain ⟨s', it', hupdate, hs'⟩ := hcounted.updateAccessCount hr now
      have hlookup' : s'.cacheMap.lookup r.key = some it' :=
        hs'.indexed.lookup.mpr ⟨_, List.mem_cons_self, rfl⟩
      refine ⟨s', _, ?_, hs', ?_⟩
      · rw [BlockCache.get]
        dsimp only
        rw [hlookup]
        dsimp only
        rw [Except.bind_eq_of_ok _ hupdate, hlookup']
        dsimp only
        rw [Except.bind_eq_of_ok _ (hs'.deref List.mem_cons_self)]
        rfl
      · rw [LruK.step, hfind, List.map_cons, h.indexed.map_filter hr]

/-- An item enters at the front of the list for few accesses. -/
theorem Represents.enter {capacity k : ℕ} (hk : 2 ≤ k) {s : BlockCache}
    {order : List (ℕ × Resident)} (h : Represents capacity k s order) {key : ℤ × ℤ}
    (hlookup : s.cacheMap.lookup key = none) (block : Option Block) (now : ℕ) :
  Represents capacity k
    { s with
      cacheListLessK := (s.allocated, ⟨key.1, key.2, block, 1⟩) :: s.cacheListLessK
      cacheMap := s.cacheMap.insert key s.allocated
      allocated := s.allocated + 1 }
    ((s.allocated, ⟨key, block, 1, now⟩) :: order)
  := by
  have hlt : 1 < k := hk
  refine ⟨h.capacity_eq, h.k_eq, ?_, ?_, ?_⟩
  · rw [List.filter_cons_of_pos (by simpa using hlt), List.map_cons, ← h.less]
    rfl
  · rw [List.filter_cons_of_neg (by simpa using hlt), ← h.greater]
  · apply h.indexed.access (r := ⟨key, block, 1, now⟩) (List.Sublist.refl _) _ _
      (AList.lookup_insert _) (fun _ hne => AList.lookup_insert_ne hne) (Nat.le_succ _)
      (Nat.lt_succ_self _)
    · intro hmem
      obtain ⟨e, he, hnode⟩ := List.mem_map.mp hmem
      exact absurd (h.indexed.lt_allocated e he) (hnode ▸ lt_irrefl _)
    · intro e he
      refine ⟨fun _ => he, ?_⟩
      rintro - rfl
      rw [h.indexed.lookup.mpr ⟨e.2, he, rfl⟩] at hlookup
      cases hlookup

/-- A put of a new item at capacity evicts the victim. -/
theorem Represents.put_full {capacity k : ℕ} (hk : 2 ≤ k) {s : BlockCache}
    {order : List (ℕ × Resident)} (h : Represents capacity k s order) {key : ℤ × ℤ}
    (hlookup : s.cacheMap.lookup key = none) (hfull : capacity ≤ order.length) {r : Resident}
    (hvictim : LruK.victim k (order.map Prod.snd) = some r) (block : Option Block) (now : ℕ) :
  ∃ s' it it', s.put key.1 key.2 block = .ok s' ∧ (it, r) ∈ order ∧
    Represents capacity k s' ((it', ⟨key, block, 1, now⟩) :: order.filter (fun e => e.1 ≠ it))
  := by
  obtain ⟨s', it, hevict, hr, hs'⟩ := h.evict hvictim
  have hlookup' : s'.cacheMap.lookup key = none := by
    apply Option.eq_none_iff_forall_ne_some.mpr
    intro it' hsome
    obtain ⟨r', hr', rfl⟩ := hs'.indexed.lookup.mp hsome
    have hsome := h.indexed.lookup.mpr ⟨r', List.mem_of_mem_filter hr', rfl⟩
    rw [hlookup] at hsome
    cases hsome
  refine ⟨_, it, _, ?_, hr, hs'.enter hk hlookup' block now⟩
  have hroom : s.makeRoom = .ok s' := by
    rw [makeRoom, h.indexed.length_keys, h.capacity_eq, if_pos hfull, hevict]
  rw [BlockCache.put, hlookup]
  dsimp only
  rw [Except.bind_eq_of_ok _ hroom]
  rfl

/-- A put is an access of an item that is there, and else lets one enter, for the victim if the
cache is full. -/
theorem Represents.put {capacity k : ℕ} (hcapacity : 1 ≤ capacity) (hk : 2 ≤ k) {s : BlockCache}
    {order : List (ℕ × Resident)} (h : Represents capacity k s order) (key : ℤ × ℤ)
    (block : Option Block) (now : ℕ) :
  ∃ s' order', s.put key.1 key.2 block = .ok s' ∧ Represents capacity k s' order' ∧
    order'.map Prod.snd =
      (LruK.step capacity k ⟨now, order.map Prod.snd⟩ (.put key block)).residents
  := by
  cases hfind : LruK.find key (order.map Prod.snd) with
  | none =>
      have hlookup := h.indexed.find_eq_none_iff.mp hfind
      rw [LruK.step, hfind]
      dsimp only
      rcases LruK.makeRoom_cases capacity k (R := order.map Prod.snd) hcapacity with
        ⟨hlt, hroom⟩ | ⟨r, hfull, hvictim, hroom⟩
      · rw [List.length_map] at hlt
        refine ⟨_, _, ?_, h.enter hk hlookup block now, by rw [hroom]; rfl⟩
        have hmake : s.makeRoom = .ok s := by
          rw [makeRoom, h.indexed.length_keys, h.capacity_eq, if_neg (Nat.not_le.mpr hlt)]
        rw [BlockCache.put, hlookup]
        dsimp only
        rw [Except.bind_eq_of_ok _ hmake]
        rfl
      · rw [List.length_map] at hfull
        obtain ⟨s', it, it', hput, hr, hs'⟩ := h.put_full hk hlookup hfull hvictim block now
        refine ⟨s', _, hput, hs', ?_⟩
        rw [hroom, List.map_cons, h.indexed.map_filter hr]
  | some r =>
      obtain ⟨it, hlookup, hr, rfl⟩ := h.indexed.lookup_of_find hfind
      have hassign := h.assign hr block
      have hr' : (it, { r with value := block }) ∈ order.map (revalue it block) :=
        List.mem_map.mpr ⟨(it, r), hr, if_pos rfl⟩
      obtain ⟨s', it', hupdate, hs'⟩ := hassign.updateAccessCount hr' now
      refine ⟨s', _, ?_, hs', ?_⟩
      · rw [BlockCache.put, hlookup]
        dsimp only
        rw [Except.bind_eq_of_ok _ (h.deref hr)]
        exact hupdate
      · have hrest : (order.map (revalue it block)).filter (fun e => e.1 ≠ it) =
            order.filter (fun e => e.1 ≠ it) := by
          have hnodes : (fun e => decide (e.1 ≠ it)) ∘ revalue it block =
              fun e => decide (e.1 ≠ it) := by
            funext e
            rw [Function.comp, revalue_fst]
          rw [List.filter_map, hnodes]
          refine Eq.trans (List.map_congr_left ?_) (List.map_id _)
          intro e he
          exact if_neg (of_decide_eq_true (List.mem_filter.mp he).2)
        rw [LruK.step, hfind, List.map_cons, hrest, h.indexed.map_filter hr]

theorem Represents.call {capacity k : ℕ} (hcapacity : 1 ≤ capacity) (hk : 2 ≤ k) {s : BlockCache}
    {order : List (ℕ × Resident)} (h : Represents capacity k s order) (c : Call) (now : ℕ) :
  ∃ s' order', s.call c = .ok s' ∧ Represents capacity k s' order' ∧
    order'.map Prod.snd = (LruK.step capacity k ⟨now, order.map Prod.snd⟩ c).residents
  := by
  cases c with
  | get key =>
      obtain ⟨s', order', hget, hs', horder⟩ := h.get key now
      refine ⟨s', order', ?_, hs', horder⟩
      rw [BlockCache.call, hget]
      rfl
  | put key block => apply h.put hcapacity hk key block now

theorem run_concat_eq_ok {capacity k : ℕ} {calls : List Call} {c : Call} {s' : BlockCache} :
  run capacity k (calls ++ [c]) = .ok s' ↔
    ∃ s, run capacity k calls = .ok s ∧ s.call c = .ok s'
  := Runs.foldlM_concat_eq_ok

/-- After all calls the cache holds the residents. -/
theorem represents_run {capacity k : ℕ} (hcapacity : 1 ≤ capacity) (hk : 2 ≤ k)
    (calls : List Call) :
  ∃ s order, run capacity k calls = .ok s ∧ Represents capacity k s order ∧
    order.map Prod.snd = (LruK.run capacity k calls).residents
  := by
  induction calls using List.reverseRecOn with
  | nil =>
      refine ⟨_, [], rfl, ⟨rfl, rfl, rfl, rfl, List.nodup_nil, List.nodup_nil, ?_, ?_⟩, rfl⟩
      · intro key it
        simp
      · intro e he
        cases he
  | append_singleton calls c ih =>
      obtain ⟨s, order, hrun, hs, horder⟩ := ih
      obtain ⟨s', order', hcall, hs', horder'⟩ :=
        hs.call hcapacity hk c (LruK.run capacity k calls).now
      refine ⟨s', order', run_concat_eq_ok.mpr ⟨s, hrun, hcall⟩, hs', ?_⟩
      rw [horder', horder, LruK.run, LruK.run, List.foldl_append]
      rfl

/-! ### The policy -/

theorem Represents.items_perm {capacity k : ℕ} {s : BlockCache} {order : List (ℕ × Resident)}
    (h : Represents capacity k s order) :
  (s.elements.map Prod.snd).Perm ((order.map Prod.snd).map item)
  := by
  have hperm := h.elements_perm.map Prod.snd
  rw [List.map_map] at hperm ⊢
  exact hperm

/-- For `k` at least two the cache replaces by the `k`-th access: after any calls it holds the
residents, which are at most as many as its capacity; `get` answers the block of the last put
unless it was evicted since; and a put of a new item at capacity evicts one item, a victim among
the residents. -/
theorem run_lruK {capacity k : ℕ} (hcapacity : 1 ≤ capacity) (hk : 2 ≤ k) (calls : List Call) :
  ∃ s, run capacity k calls = .ok s ∧
    (s.elements.map Prod.snd).Perm ((LruK.run capacity k calls).residents.map item) ∧
    s.elements.length ≤ capacity ∧
    (∀ key, ∃ s', s.get key.1 key.2 = .ok ((LruK.standing capacity k key calls).getD none, s')) ∧
    ∀ key block, key ∉ s.cacheMap → s.elements.length = capacity →
      ∃ s' r rest, LruK.IsVictim k (LruK.run capacity k calls).residents r ∧
        s.put key.1 key.2 block = .ok s' ∧
        (s.elements.map Prod.snd).Perm (item r :: rest) ∧
        (s'.elements.map Prod.snd).Perm (⟨key.1, key.2, block, 1⟩ :: rest)
  := by
  obtain ⟨s, order, hrun, hs, horder⟩ := represents_run hcapacity hk calls
  have hwell := LruK.wellFormed_run hcapacity k calls
  have hlength : s.elements.length = order.length := by
    rw [hs.elements_perm.length_eq, List.length_map]
  refine ⟨s, hrun, horder ▸ hs.items_perm, ?_, ?_, ?_⟩
  · have hle := hwell.length_le
    rw [← horder, List.length_map] at hle
    exact hlength.trans_le hle
  · intro key
    obtain ⟨s', -, hget, -⟩ := hs.get key 0
    rw [horder, LruK.find_run hcapacity] at hget
    exact ⟨s', hget⟩
  · intro key block hnew hfull
    have hne : order.map Prod.snd ≠ [] := by
      intro hnil
      rw [List.map_eq_nil_iff.mp hnil, List.length_nil] at hlength
      omega
    obtain ⟨r, hvictim⟩ := LruK.exists_victim k hne
    obtain ⟨s', it, it', hput, hr, hs'⟩ := hs.put_full hk (AList.lookup_eq_none.mpr hnew)
      (hfull.symm.trans hlength).le hvictim block 0
    have hperm := hs.indexed.perm_others hr
    refine ⟨s', r, (order.filter (fun e => e.1 ≠ it)).map (fun e => item e.2), ?_, hput, ?_, ?_⟩
    · rw [← horder]
      exact LruK.isVictim_of_victim (horder ▸ hwell.sorted) hvictim
    · have hitems := hs.items_perm.trans ((hperm.map Prod.snd).map item)
      rw [List.map_cons, List.map_cons, List.map_map] at hitems
      exact hitems
    · have hitems := hs'.items_perm
      rw [List.map_cons, List.map_cons, List.map_map] at hitems
      exact hitems

theorem run_lruK_two :
  ∃ s, run 1 2 [.put (1, 0) none, .put (2, 0) none] = .ok s ∧
    (s.elements.map Prod.snd).Perm ((LruK.run 1 2
      ([.put (1, 0) none, .put (2, 0) none] : List Call)).residents.map item) ∧
    s.elements.length ≤ 1
  := by
  obtain ⟨s, hrun, hperm, hle, -⟩ :=
    run_lruK (Nat.le_refl 1) (Nat.le_refl 2) [.put (1, 0) none, .put (2, 0) none]
  exact ⟨s, hrun, hperm, hle⟩

/-! ### The representation -/

/-- The elements are in the list their counts say, with distinct ids, and the map has each id with
the address of its element. -/
structure Consistent (s : BlockCache) : Prop where
  less : ∀ e ∈ s.cacheListLessK, e.2.accessCount < s.k
  greater : ∀ e ∈ s.cacheListGreaterK, s.k ≤ e.2.accessCount
  distinct : (s.elements.map Prod.fst).Nodup
  once : (s.elements.map (fun e => e.2.key)).Nodup
  own : ∀ key it, s.cacheMap.lookup key = some it ↔
    ∃ item, (it, item) ∈ s.elements ∧ item.key = key

theorem Represents.consistent {capacity k : ℕ} {s : BlockCache} {order : List (ℕ × Resident)}
    (h : Represents capacity k s order) :
  s.Consistent
  where
  less := by
    intro e he
    rw [h.less] at he
    obtain ⟨e', he', rfl⟩ := List.mem_map.mp he
    rw [h.k_eq]
    have hcount := (List.mem_filter.mp he').2
    exact of_decide_eq_true hcount
  greater := by
    intro e he
    rw [h.greater] at he
    obtain ⟨e', he', rfl⟩ := List.mem_map.mp he
    rw [h.k_eq]
    have hcount := (List.mem_filter.mp he').2
    exact Nat.le_of_not_lt (of_decide_eq_true hcount)
  distinct := by
    apply (h.elements_perm.map Prod.fst).nodup_iff.mpr
    rw [List.map_map]
    exact h.indexed.nodes
  once := by
    apply (h.elements_perm.map _).nodup_iff.mpr
    rw [List.map_map]
    exact h.indexed.keys
  own := by
    intro key it
    rw [h.indexed.lookup]
    constructor
    · rintro ⟨r, hr, rfl⟩
      exact ⟨item r, h.elements_perm.mem_iff.mpr (List.mem_map.mpr ⟨(it, r), hr, rfl⟩), rfl⟩
    · rintro ⟨item', hmem, rfl⟩
      obtain ⟨e, he, heq⟩ := List.mem_map.mp (h.elements_perm.mem_iff.mp hmem)
      cases heq
      exact ⟨e.2, he, rfl⟩

/-- Without a put nothing enters, whatever `k` is. -/
theorem represents_run_of_gets (capacity k : ℕ) {calls : List Call}
    (hcalls : ∀ key block, LruK.Call.put key block ∉ calls) :
  ∃ s, run capacity k calls = .ok s ∧ Represents capacity k s []
  := by
  induction calls using List.reverseRecOn with
  | nil =>
      refine ⟨_, rfl, ⟨rfl, rfl, rfl, rfl, List.nodup_nil, List.nodup_nil, ?_, ?_⟩⟩
      · intro key it
        simp
      · intro e he
        cases he
  | append_singleton calls c ih =>
      obtain ⟨s, hrun, hs⟩ := ih (fun key block hmem =>
        hcalls key block (List.mem_append_left _ hmem))
      cases c with
      | get key =>
          obtain ⟨s', order', hget, hs', horder'⟩ := hs.get key 0
          have hcall : s.call (LruK.Call.get key) = .ok s' := by
            rw [call, hget]
            rfl
          refine ⟨s', run_concat_eq_ok.mpr ⟨s, hrun, hcall⟩, ?_⟩
          exact List.map_eq_nil_iff.mp horder' ▸ hs'
      | put key block => exact absurd (by simp) (hcalls key block)

/-- For `k = 1`, once an item is in the list for few accesses. -/
structure Misplaced (s : BlockCache) : Prop where
  k_eq : s.k = 1
  less_ne : s.cacheListLessK ≠ []
  pos : ∀ e ∈ s.cacheListLessK, 1 ≤ e.2.accessCount
  greater_eq : s.cacheListGreaterK = []

theorem Misplaced.not_consistent {s : BlockCache} (h : s.Misplaced) :
  ¬ s.Consistent
  := by
  intro hs
  obtain ⟨e, he⟩ := List.exists_mem_of_ne_nil _ h.less_ne
  have hlt := hs.less e he
  have hpos := h.pos e he
  rw [h.k_eq] at hlt
  omega

theorem Misplaced.pos_of_deref {s : BlockCache} (h : s.Misplaced) {it : ℕ} {item : CacheItem}
    (hitem : s.deref it = .ok item) :
  1 ≤ item.accessCount
  := by
  rw [deref, elements, h.greater_eq, List.append_nil] at hitem
  cases hfind : s.cacheListLessK.find? (fun e => e.1 = it) with
  | none =>
      rw [hfind] at hitem
      cases hitem
  | some e =>
      rw [hfind] at hitem
      cases hitem
      apply h.pos e (List.mem_of_find?_eq_some hfind)

/-- An access looks for the item in the list for many accesses, which is empty. -/
theorem Misplaced.updateAccessCount_ne_ok {s : BlockCache} (h : s.Misplaced) (it : ℕ)
    (s' : BlockCache) :
  s.updateAccessCount it ≠ .ok s'
  := by
  intro hok
  rw [updateAccessCount] at hok
  obtain ⟨item, hitem, hok⟩ := Except.exists_of_bind_eq_ok hok
  have hpos := h.pos_of_deref hitem
  have hk := h.k_eq
  have hnot : it ∉ (CacheItem.write it { item with accessCount := item.accessCount + 1 }
      s.cacheListGreaterK).map Prod.fst := by
    rw [h.greater_eq]
    simp [CacheItem.write]
  dsimp only [assign] at hok
  rw [if_neg (by omega), if_neg (by omega), splice_of_notMem hnot] at hok
  cases hok

theorem Misplaced.assign {s : BlockCache} (h : s.Misplaced) {it : ℕ} {item : CacheItem}
    (hitem : 1 ≤ item.accessCount) :
  (s.assign it item).Misplaced
  where
  k_eq := h.k_eq
  less_ne := by
    intro hnil
    exact h.less_ne (List.map_eq_nil_iff.mp hnil)
  pos := by
    intro e he
    obtain ⟨e', he', rfl⟩ := List.mem_map.mp he
    split
    next => exact hitem
    next => apply h.pos e' he'
  greater_eq := by
    rw [BlockCache.assign, h.greater_eq]
    rfl

/-- Making room for an item leaves the other ones where they are. -/
theorem Misplaced.makeRoom {s s' : BlockCache} (h : s.Misplaced)
    (hroom : s.makeRoom = .ok s') :
  s'.k = 1 ∧ (∀ e ∈ s'.cacheListLessK, 1 ≤ e.2.accessCount) ∧ s'.cacheListGreaterK = []
  := by
  rw [BlockCache.makeRoom] at hroom
  split at hroom
  next =>
    rw [evict_of_less (List.getLast?_eq_some_getLast h.less_ne)] at hroom
    cases hroom
    exact ⟨h.k_eq, fun e he => h.pos e (List.mem_of_mem_dropLast he), h.greater_eq⟩
  next =>
    cases hroom
    exact ⟨h.k_eq, h.pos, h.greater_eq⟩

/-- Whatever is called next, the item is still there. -/
theorem Misplaced.call {s s' : BlockCache} (h : s.Misplaced) {c : Call} (hc : s.call c = .ok s') :
  s'.Misplaced
  := by
  cases c with
  | get key =>
      rw [BlockCache.call, get] at hc
      dsimp only at hc
      cases hlookup : s.cacheMap.lookup (key.1, key.2) with
      | none =>
          rw [hlookup] at hc
          cases hc
          exact ⟨h.k_eq, h.less_ne, h.pos, h.greater_eq⟩
      | some it =>
          rw [hlookup] at hc
          have hcounted : Misplaced { s with
              totalRequests := s.totalRequests + 1, hitRequests := s.hitRequests + 1 } :=
            ⟨h.k_eq, h.less_ne, h.pos, h.greater_eq⟩
          obtain ⟨p, hp, -⟩ := Except.exists_of_bind_eq_ok hc
          obtain ⟨s'', hupdate, -⟩ := Except.exists_of_bind_eq_ok hp
          exact absurd hupdate (hcounted.updateAccessCount_ne_ok it s'')
  | put key block =>
      rw [BlockCache.call, put] at hc
      cases hlookup : s.cacheMap.lookup (key.1, key.2) with
      | none =>
          rw [hlookup] at hc
          obtain ⟨s'', hroom, hc⟩ := Except.exists_of_bind_eq_ok hc
          cases hc
          have hs'' := h.makeRoom hroom
          refine ⟨hs''.1, List.cons_ne_nil _ _, ?_, hs''.2.2⟩
          intro e he
          rcases List.mem_cons.mp he with rfl | he
          · exact le_rfl
          · exact hs''.2.1 e he
      | some it =>
          rw [hlookup] at hc
          obtain ⟨item, hitem, hc⟩ := Except.exists_of_bind_eq_ok hc
          have hpos := h.pos_of_deref hitem
          have hassign : (s.assign it { item with cacheBlock := block }).Misplaced :=
            h.assign hpos
          exact absurd hc (hassign.updateAccessCount_ne_ok it s')

/-- For `k = 1` the first item put is misplaced for good. -/
theorem misplaced_run {capacity : ℕ} (hcapacity : 1 ≤ capacity) {calls : List Call}
    {s : BlockCache} (hrun : run capacity 1 calls = .ok s) :
  s.Misplaced ∨ ∀ key block, LruK.Call.put key block ∉ calls
  := by
  induction calls using List.reverseRecOn generalizing s with
  | nil => exact .inr (fun key block hmem => nomatch hmem)
  | append_singleton calls c ih =>
      obtain ⟨s₀, hrun₀, hcall⟩ := run_concat_eq_ok.mp hrun
      rcases ih hrun₀ with hs₀ | hcalls
      · exact .inl (hs₀.call hcall)
      · cases c with
        | get key =>
            right
            intro key' block hmem
            rcases List.mem_append.mp hmem with hmem | hmem
            · exact hcalls key' block hmem
            · cases List.mem_singleton.mp hmem
        | put key block =>
            left
            obtain ⟨s₁, hrun₁, hs₁⟩ := represents_run_of_gets capacity 1 hcalls
            cases hrun₀.symm.trans hrun₁
            have hlookup := hs₁.indexed.find_eq_none_iff.mp (rfl : LruK.find key [] = none)
            have hmake : s₀.makeRoom = .ok s₀ := by
              rw [makeRoom, hs₁.indexed.length_keys, hs₁.capacity_eq, List.length_nil,
                if_neg (Nat.not_le.mpr hcapacity)]
            rw [BlockCache.call, BlockCache.put, hlookup] at hcall
            dsimp only at hcall
            rw [Except.bind_eq_of_ok _ hmake] at hcall
            cases hcall
            refine ⟨hs₁.k_eq, List.cons_ne_nil _ _, ?_, hs₁.greater⟩
            intro e he
            rw [hs₁.less] at he
            rw [List.mem_singleton.mp he]

/-- After any calls the representation is consistent, and no call has taken an element out of a
list that does not hold it, exactly if `k` is at least two or nothing was put. -/
theorem consistent_run_iff {capacity k : ℕ} (hcapacity : 1 ≤ capacity) (hk : 1 ≤ k)
    (calls : List Call) :
  (∃ s, run capacity k calls = .ok s ∧ s.Consistent) ↔
    2 ≤ k ∨ ∀ key block, LruK.Call.put key block ∉ calls
  := by
  constructor
  · rintro ⟨s, hrun, hs⟩
    rcases Nat.lt_or_ge 1 k with hk' | hk'
    · exact .inl hk'
    · cases Nat.le_antisymm hk' hk
      right
      apply (misplaced_run hcapacity hrun).resolve_left
      exact fun hmisplaced => hmisplaced.not_consistent hs
  · rintro (hk' | hcalls)
    · obtain ⟨s, order, hrun, hs, -⟩ := represents_run hcapacity hk' calls
      exact ⟨s, hrun, hs.consistent⟩
    · obtain ⟨s, hrun, hs⟩ := represents_run_of_gets capacity k hcalls
      exact ⟨s, hrun, hs.consistent⟩

/-- For `k = 2` an item is moved to the other list by a hit, and gives way to another. -/
theorem consistent_run_iff_two :
  ∃ s, run 1 2 [.put (0, 0) none, .get (0, 0), .get (0, 0), .put (0, 1) none] = .ok s ∧
    s.Consistent
  := by
  apply (consistent_run_iff (Nat.le_refl 1) (Nat.le_succ 1) _).mpr
  exact .inl (Nat.le_refl 2)

/-- For `k = 1` a hit on the item just put looks for it in the wrong list. -/
theorem not_consistent_run :
  ¬ ∀ capacity k : ℕ, 1 ≤ capacity → 1 ≤ k → ∀ calls : List Call,
    ∃ s, run capacity k calls = .ok s ∧ s.Consistent
  := by
  intro h
  obtain ⟨s, hrun, -⟩ := h 1 1 (Nat.le_refl 1) (Nat.le_refl 1) [.put (0, 0) none, .get (0, 0)]
  have herror : run 1 1 [.put (0, 0) none, .get (0, 0)] = .error .undefinedBehavior := rfl
  rw [herror] at hrun
  cases hrun

end BlockCache

end TinyLsm
