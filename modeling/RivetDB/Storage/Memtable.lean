import RivetDB.Order.Links
import RivetDB.Order.SortedMap
import RivetDB.Storage.Versions
import Mathlib.Data.Prod.Lex

/-!
# The MemTable

The skip list of `memtable.go`.  Nodes live in a heap and are linked on up to `maxHeight` levels;
the head is the node at address 0.  How high a new node reaches is drawn from a random source, which
is a parameter here: the `i`-th call of `random` returns `random i`.

A table is described by the list of its addresses in the order of the keys (`Woven`): on each level
the links visit those that reach it.  `insertLocked` keeps that, and its effect on the bindings is
`SortedMap.put` (`MemTable.Sound.insertLocked`).  The calls and what they return are the subject of
`RivetDB.Storage.MemtableCalls`.
-/

/-! ### The order of internal keys -/

namespace RivetDB.Storage

open scoped ByteOrder

/-- Where a key stands. -/
def InternalKey.place (k : InternalKey) : Bytes ×ₗ ℕᵒᵈ ×ₗ ℕ :=
  toLex (k.userKey, toLex (OrderDual.toDual k.sequence.toNat, k.kind.rank))

theorem InternalKey.place_injective : Function.Injective InternalKey.place := by
  rintro ⟨user, sequence, kind⟩ ⟨user', sequence', kind'⟩ h
  simp only [place, EmbeddingLike.apply_eq_iff_eq, Prod.mk.injEq] at h
  obtain ⟨rfl, hsequence, hkind⟩ := h
  rw [UInt64.toNat_inj.mp hsequence, Kind.rank_inj hkind]

instance : LinearOrder InternalKey :=
  LinearOrder.lift' InternalKey.place InternalKey.place_injective

theorem InternalKey.lt_iff {a b : InternalKey} :
    a < b ↔ a.userKey < b.userKey ∨ a.userKey = b.userKey ∧
      (b.sequence < a.sequence ∨ a.sequence = b.sequence ∧ a.kind.rank < b.kind.rank) := by
  show a.place < b.place ↔ _
  simp only [place, Prod.Lex.toLex_lt_toLex, OrderDual.toDual_lt_toDual, UInt64.lt_iff_toNat_lt,
    EmbeddingLike.apply_eq_iff_eq, UInt64.toNat_inj]

theorem compareInternal_lt {a b : InternalKey} : compareInternal a b = .lt ↔ a < b := by
  rw [InternalKey.lt_iff, compareInternal, compareTrailers]
  rcases lt_trichotomy a.userKey b.userKey with huser | huser | huser
  · simp [huser]
  · rw [huser]
    simp only [lt_irrefl, if_false, false_or, true_and, UInt64.lt_iff_toNat_lt, ← UInt64.toNat_inj]
    split_ifs <;> simp <;> omega
  · have hne : a.userKey ≠ b.userKey := ne_of_gt huser
    simp [huser, hne, not_lt_of_gt huser]

theorem compareInternal_eq {a b : InternalKey} : compareInternal a b = .eq ↔ a = b := by
  constructor
  · intro h
    unfold compareInternal compareTrailers at h
    split_ifs at h with huser huser' hseq hseq' hkind hkind'
    obtain ⟨user, sequence, kind⟩ := a
    obtain ⟨user', sequence', kind'⟩ := b
    have heq : user = user' := le_antisymm (not_lt.mp huser') (not_lt.mp huser)
    have hsequence : sequence = sequence' := by
      rw [← UInt64.toNat_inj]
      simp only [UInt64.lt_iff_toNat_lt] at hseq hseq'
      omega
    have hkinds : kind = kind' :=
      Kind.rank_inj (le_antisymm (not_lt.mp hkind') (not_lt.mp hkind))
    rw [heq, hsequence, hkinds]
  · rintro rfl
    simp [compareInternal, compareTrailers]

theorem InternalKey.userKey_le {a b : InternalKey} (h : a < b) : a.userKey ≤ b.userKey := by
  rcases InternalKey.lt_iff.mp h with hlt | ⟨heq, -⟩
  · exact hlt.le
  · exact heq.le

/-- The key with which the newest version at or below a sequence is sought. -/
theorem InternalKey.seek_le {user : Bytes} {sequence : UInt64} {k : InternalKey} :
    (⟨user, sequence, .delete⟩ : InternalKey) ≤ k ↔
      user < k.userKey ∨ user = k.userKey ∧ k.sequence ≤ sequence := by
  rw [← not_lt, InternalKey.lt_iff]
  have hkind : ¬ k.kind.rank < Kind.delete.rank := Nat.not_lt_zero _
  simp only [hkind, and_false, or_false, not_or, not_and, not_lt]
  constructor
  · rintro ⟨hle, hsequence⟩
    rcases hle.lt_or_eq with hlt | heq
    · exact .inl hlt
    · exact .inr ⟨heq, by simpa using hsequence heq.symm⟩
  · rintro (hlt | ⟨heq, hle⟩)
    · exact ⟨hlt.le, fun heq => absurd heq (ne_of_gt hlt)⟩
    · exact ⟨heq.le, fun _ => by simpa using hle⟩

end RivetDB.Storage

namespace RivetDB.Memtable

open List
open Storage (Kind InternalKey compareInternal compareInternal_lt compareInternal_eq)

/-! ### The table -/

def maxHeight : ℕ := 20

def promotionMask : UInt64 := 3

/-- `wordBytes`, on a 64-bit machine. -/
def wordBytes : ℕ := 8

def tableMetadataBytes : ℕ := 12 * wordBytes

def nodeMetadataBytes : ℕ := 12 * wordBytes

def emptyTableBytes : ℕ := tableMetadataBytes + nodeMetadataBytes + maxHeight * wordBytes

def saturatingAdd (left right : ℕ) : ℕ :=
  if 2 ^ 64 - 1 - left < right then 2 ^ 64 - 1 else left + right

/-- `node`.  A link is an address; `capacity` is that of the slice that holds the value. -/
structure Node where
  key : InternalKey := {}
  value : Bytes := []
  capacity : ℕ := 0
  next : List (Option ℕ) := []
  keyBytes : ℕ := 0
deriving DecidableEq, Repr

def nodeSize (n : Node) : ℕ :=
  saturatingAdd (saturatingAdd (saturatingAdd nodeMetadataBytes n.keyBytes) n.capacity)
    (n.next.length * wordBytes)

/-- `MemTable`.  The nodes are never freed; `drawn` counts the calls of `random`. -/
structure MemTable where
  random : ℕ → UInt64
  drawn : ℕ := 0
  nodes : List Node
  size : ℕ
  count : ℕ := 0
  height : ℕ
  frozen : Bool := false

/-- The node at an address. -/
def node (nodes : List Node) (a : ℕ) : Node := nodes.getD a {}

/-- The link of a node on a level. -/
def link (nodes : List Node) (level a : ℕ) : Option ℕ := (node nodes a).next.getD level none

/-- How many levels a node reaches. -/
def tower (nodes : List Node) (a : ℕ) : ℕ := (node nodes a).next.length

def setLink (nodes : List Node) (level a : ℕ) (target : Option ℕ) : List Node :=
  nodes.modify a fun n => { n with next := n.next.set level target }

/-- One round of the last loop of `insertLocked`. -/
def linkBehind (nodes : List Node) (n level predecessor : ℕ) : List Node :=
  setLink (setLink nodes level n (link nodes level predecessor)) level predecessor (some n)

/-- The new node `n`, linked on `height` levels. -/
def weave (nodes : List Node) (n : Node) (predecessors : List ℕ) (height : ℕ) : List Node :=
  (List.range height).foldl
    (fun nodes' level => linkBehind nodes' nodes.length level (predecessors.getD level 0))
    (nodes ++ [n])

namespace MemTable

/-- `newWithRandom`. -/
def newWithRandom (random : ℕ → UInt64) : MemTable where
  random := random
  nodes := [{ next := List.replicate maxHeight none }]
  size := emptyTableBytes
  height := 1

/-- The levels of `lowerBoundLocked`, from the top.  The predecessors are collected from the bottom
up, as the array holds them. -/
def descend (nodes : List Node) (key : InternalKey) : ℕ → ℕ → List ℕ → ℕ × List ℕ
  | 0, current, predecessors => (current, predecessors)
  | level + 1, current, predecessors =>
    let current := Links.walk (link nodes level)
      (fun n => compareInternal (node nodes n).key key = .lt) nodes.length current
    descend nodes key level current (current :: predecessors)

/-- `lowerBoundLocked`: the lower bound, and the predecessors on the levels in use. -/
def lowerBoundLocked (m : MemTable) (key : InternalKey) : Option ℕ × List ℕ :=
  let found := descend m.nodes key m.height 0 []
  (link m.nodes 0 found.1, found.2)

/-- `replaceValueLocked`.  The value is copied in place where it fits. -/
def replaceValueLocked (m : MemTable) (n : ℕ) (value : Bytes) : MemTable :=
  let oldCapacity := (node m.nodes n).capacity
  if value.length ≤ oldCapacity then
    { m with nodes := m.nodes.modify n fun x => { x with value := value } }
  else
    { m with
      nodes := m.nodes.modify n fun x => { x with value := value, capacity := value.length }
      size := saturatingAdd m.size (value.length - oldCapacity) }

/-- The loop of `randomHeight`. -/
def promote : ℕ → ℕ → UInt64 → ℕ
  | 0, height, _ => height
  | fuel + 1, height, value =>
    if height < maxHeight ∧ value &&& promotionMask = 0 then promote fuel (height + 1) (value >>> 2)
    else height

/-- `randomHeight`, of the number drawn. -/
def randomHeight (value : UInt64) : ℕ := promote maxHeight 1 value

/-- The end of `insertLocked`, for a key that is not in the table. -/
def insertNode (m : MemTable) (key : InternalKey) (value : Bytes) (predecessors : List ℕ) :
    MemTable :=
  let height := randomHeight (m.random m.drawn)
  -- the levels not yet in use start at the head
  let predecessors := predecessors ++ List.replicate (height - m.height) 0
  let n : Node :=
    { key := key
      value := value
      capacity := value.length
      next := List.replicate height none
      keyBytes := key.userKey.length }
  { m with
    drawn := m.drawn + 1
    nodes := weave m.nodes n predecessors height
    height := max m.height height
    count := m.count + 1
    size := saturatingAdd m.size (nodeSize n) }

/-- `insertLocked`. -/
def insertLocked (m : MemTable) (key : InternalKey) (value : Bytes) : MemTable :=
  let found := m.lowerBoundLocked key
  match found.1 with
  | some candidate =>
    if compareInternal (node m.nodes candidate).key key = .eq then
      m.replaceValueLocked candidate value
    else m.insertNode key value found.2
  | none => m.insertNode key value found.2

end MemTable

/-! ### The heap -/

section Heap

variable {nodes : List Node} {a n level : ℕ} {f : Node → Node}

theorem node_modify (h : a < nodes.length) (b : ℕ) :
    node (nodes.modify a f) b = if a = b then f (node nodes b) else node nodes b := by
  simp only [node, getD_eq_getElem?_getD, getElem?_modify]
  split_ifs with hab
  · subst hab
    simp [getElem?_eq_getElem h]
  · simp

variable {x : Node}

theorem node_append_left (h : a < nodes.length) : node (nodes ++ [x]) a = node nodes a := by
  simp only [node, getD_eq_getElem?_getD, getElem?_append_left h]

theorem node_append_right : node (nodes ++ [x]) nodes.length = x := by
  simp [node]

variable {target : Option ℕ}

@[simp] theorem length_setLink : (setLink nodes level a target).length = nodes.length := by
  simp [setLink]

/-- Setting a link changes nothing but links. -/
theorem node_setLink (h : a < nodes.length) (b : ℕ) :
    node (setLink nodes level a target) b =
      { node nodes b with
        next := if a = b then (node nodes b).next.set level target else (node nodes b).next } := by
  rw [setLink, node_modify h]
  split_ifs with hab
  · rfl
  · rfl

theorem link_setLink (h : a < nodes.length) (hlevel : level < tower nodes a) :
    link (setLink nodes level a target) level = Function.update (link nodes level) a target := by
  funext b
  simp only [link, node_setLink h]
  by_cases hab : a = b
  · subst hab
    rw [Function.update_self, if_pos rfl, getD_eq_getElem?_getD, getElem?_set_self hlevel]
    rfl
  · rw [Function.update_of_ne (Ne.symm hab), if_neg hab]
    rfl

theorem link_setLink_of_ne {other : ℕ} (h : a < nodes.length)
    (hne : level ≠ other) : link (setLink nodes level a target) other = link nodes other := by
  funext b
  simp only [link, node_setLink h]
  split_ifs
  · rw [getD_eq_getElem?_getD, getElem?_set_ne hne, ← getD_eq_getElem?_getD]
  · rfl

/-- The nodes agree in everything but their links. -/
structure SameNodes (nodes nodes' : List Node) : Prop where
  length : nodes'.length = nodes.length
  node : ∀ a, node nodes' a = { node nodes a with next := (Memtable.node nodes' a).next }
  tower : ∀ a, tower nodes' a = tower nodes a

theorem SameNodes.refl (nodes : List Node) : SameNodes nodes nodes :=
  ⟨rfl, fun _ => rfl, fun _ => rfl⟩

theorem SameNodes.trans {nodes' nodes'' : List Node} (h : SameNodes nodes nodes')
    (h' : SameNodes nodes' nodes'') : SameNodes nodes nodes'' where
  length := h'.length.trans h.length
  node a := by rw [h'.node a, h.node a]
  tower a := (h'.tower a).trans (h.tower a)

theorem SameNodes.setLink (h : a < nodes.length) :
    SameNodes nodes (setLink nodes level a target) where
  length := length_setLink
  node b := by rw [node_setLink h]
  tower b := by
    simp only [Memtable.tower, node_setLink h]
    split_ifs
    · exact length_set
    · rfl

section LinkBehind

variable {p : ℕ} (hn : n < nodes.length) (hp : p < nodes.length) (hlevel : level < tower nodes n)
  (hlevel' : level < tower nodes p)

include hn hp

theorem SameNodes.linkBehind : SameNodes nodes (linkBehind nodes n level p) := by
  have hset : SameNodes nodes (Memtable.setLink nodes level n (link nodes level p)) :=
    SameNodes.setLink hn
  exact hset.trans (SameNodes.setLink (by rw [hset.length]; exact hp))

theorem link_linkBehind_of_ne {other : ℕ} (hne : level ≠ other) :
    link (linkBehind nodes n level p) other = link nodes other := by
  rw [linkBehind, link_setLink_of_ne (by simpa using hp) hne, link_setLink_of_ne hn hne]

include hlevel hlevel'

theorem link_linkBehind :
    link (linkBehind nodes n level p) level = Links.splice (link nodes level) n p := by
  rw [linkBehind, link_setLink (by simpa using hp), link_setLink hn hlevel, Links.splice]
  rwa [(SameNodes.setLink hn).tower]

end LinkBehind

/-- The last loop of `insertLocked` puts the new node behind its predecessor on every level it
reaches. -/
theorem foldl_linkBehind {predecessors : List ℕ} (height : ℕ) (hn : n < nodes.length)
    (hlevel : ∀ L < height, L < tower nodes n)
    (hplaced : ∀ L < height, predecessors.getD L 0 < nodes.length ∧
      L < tower nodes (predecessors.getD L 0)) :
    let nodes' := (List.range height).foldl
      (fun nodes level => linkBehind nodes n level (predecessors.getD level 0)) nodes
    SameNodes nodes nodes' ∧ ∀ L, link nodes' L =
      if L < height then Links.splice (link nodes L) n (predecessors.getD L 0)
      else link nodes L := by
  induction height with
  | zero => exact ⟨SameNodes.refl _, fun L => rfl⟩
  | succ height ih =>
    obtain ⟨hsame, hlink⟩ := ih (fun L hL => hlevel L (by omega)) fun L hL => hplaced L (by omega)
    obtain ⟨hp, hp'⟩ := hplaced height (by omega)
    have hn' := hsame.length ▸ hn
    rw [range_succ, foldl_append, foldl_cons, foldl_nil]
    refine ⟨hsame.trans (SameNodes.linkBehind hn' (hsame.length ▸ hp)), fun L => ?_⟩
    by_cases hL : height = L
    · subst hL
      rw [link_linkBehind hn' (hsame.length ▸ hp) (by rw [hsame.tower]; exact hlevel _ (by omega))
        (by rw [hsame.tower]; exact hp'), hlink, if_neg (lt_irrefl _), if_pos (by omega)]
    · rw [link_linkBehind_of_ne hn' (hsame.length ▸ hp) hL, hlink]
      simp only [show L < height + 1 ↔ L < height by omega]

end Heap

/-! ### What a table looks like -/

/-- The addresses of `base`, in this order, are linked on every level they reach. -/
structure Woven (nodes : List Node) (base : List ℕ) : Prop where
  head : 0 < nodes.length ∧ tower nodes 0 = maxHeight
  chains : ∀ level < maxHeight,
    Links.Chain (link nodes level) 0 (base.filter (level < tower nodes ·))
  sorted : base.Pairwise fun a b => (node nodes a).key < (node nodes b).key
  placed : ∀ a ∈ base, a ≠ 0 ∧ a < nodes.length ∧ 1 ≤ tower nodes a ∧ tower nodes a ≤ maxHeight

namespace Woven

variable {nodes : List Node} {base : List ℕ} {key : InternalKey}

theorem nodup (h : Woven nodes base) : base.Nodup :=
  h.sorted.imp fun {a b} hab (heq : a = b) => absurd hab (heq ▸ lt_irrefl _)

theorem length_le (h : Woven nodes base) : base.length ≤ nodes.length := by
  have hsubset : base ⊆ List.range nodes.length :=
    fun a ha => mem_range.mpr (h.placed a ha).2.1
  simpa using (h.nodup.subperm hsubset).length_le

/-- The nodes below a key, and those from it on. -/
def below (nodes : List Node) (key : InternalKey) (base : List ℕ) : List ℕ :=
  base.takeWhile fun a => (node nodes a).key < key

def above (nodes : List Node) (key : InternalKey) (base : List ℕ) : List ℕ :=
  base.dropWhile fun a => (node nodes a).key < key

theorem below_append_above : below nodes key base ++ above nodes key base = base :=
  takeWhile_append_dropWhile

theorem cuts (h : Woven nodes base) (key : InternalKey) :
    SortedMap.Cuts (fun a => decide ((node nodes a).key < key)) base :=
  h.sorted.imp fun hab hb => by
    simp only [decide_eq_true_eq] at hb ⊢
    exact hab.trans hb

variable {a : ℕ}

theorem lt_of_mem_below (h : Woven nodes base) (ha : a ∈ below nodes key base) :
    (node nodes a).key < key := by
  rw [below, SortedMap.takeWhile_eq_filter (h.cuts key)] at ha
  simpa using (mem_filter.mp ha).2

theorem le_of_mem_above (h : Woven nodes base) (ha : a ∈ above nodes key base) :
    key ≤ (node nodes a).key := by
  simpa using SortedMap.not_of_mem_dropWhile (h.cuts key) ha

/-- The predecessor of a key on a level. -/
def predecessor (nodes : List Node) (key : InternalKey) (base : List ℕ) (level : ℕ) : ℕ :=
  ((below nodes key base).filter (level < tower nodes ·)).getLastD 0

variable {level : ℕ}

theorem chain_cut (h : Woven nodes base) (key : InternalKey) (hlevel : level < maxHeight) :
    Links.Chain (link nodes level) 0 ((below nodes key base).filter (level < tower nodes ·) ++
      (above nodes key base).filter (level < tower nodes ·)) := by
  rw [← filter_append, below_append_above]
  exact h.chains level hlevel

theorem predecessor_mem (nodes : List Node) (key : InternalKey) (base : List ℕ) (level : ℕ) :
    predecessor nodes key base level ∈ 0 :: (below nodes key base).filter (level < tower nodes ·) :=
  getLastD_mem_cons

variable {current : ℕ}

/-- One level of the search. -/
theorem walk_level (h : Woven nodes base) (hlevel : level < maxHeight)
    (hcurrent : current ∈ 0 :: (below nodes key base).filter (level < tower nodes ·)) :
    Links.walk (link nodes level) (fun n => compareInternal (node nodes n).key key = .lt)
      nodes.length current = predecessor nodes key base level := by
  refine (h.chain_cut key hlevel).walk_from ?_ ?_ ?_ hcurrent
  · intro a ha
    simpa [compareInternal_lt] using h.lt_of_mem_below (mem_filter.mp ha).1
  · intro a ha
    have hmem := mem_of_mem_head? ha
    simpa [compareInternal_lt] using h.le_of_mem_above (mem_filter.mp hmem).1
  · have hsub := (filter_sublist (p := fun a => decide (level < tower nodes a))).trans
      (takeWhile_sublist (l := base) fun a => decide ((node nodes a).key < key))
    exact hsub.length_le.trans h.length_le

/-- The levels of the search: each starts on the way of the one below it. -/
theorem descend_eq (h : Woven nodes base) {levels : ℕ} (hlevels : levels ≤ maxHeight) {acc : List ℕ}
    (hcurrent : current ∈ 0 :: (below nodes key base).filter (levels ≤ tower nodes ·)) :
    MemTable.descend nodes key levels current acc =
      (if levels = 0 then current else predecessor nodes key base 0,
        (List.range levels).map (predecessor nodes key base) ++ acc) := by
  induction levels generalizing current acc with
  | zero => rfl
  | succ level ih =>
    rw [MemTable.descend, h.walk_level (by omega) hcurrent, ih (by omega) ?_]
    · rw [range_succ, map_append, append_assoc]
      rcases level with - | level
      · rfl
      · rfl
    · -- a node above the level reaches the level
      rcases mem_cons.mp (predecessor_mem nodes key base level) with heq | hmem
      · exact heq ▸ mem_cons_self
      · refine mem_cons_of_mem _ (mem_filter.mpr ⟨(mem_filter.mp hmem).1, ?_⟩)
        have := (mem_filter.mp hmem).2
        simp only [decide_eq_true_eq] at this ⊢
        omega

/-- Every node reaches the lowest level. -/
theorem filter_zero (h : Woven nodes base) {l : List ℕ} (hl : l ⊆ base) :
    l.filter (0 < tower nodes ·) = l := by
  refine filter_eq_self.mpr fun a ha => ?_
  have := (h.placed a (hl ha)).2.2.1
  simp only [decide_eq_true_eq]
  omega

theorem below_subset : below nodes key base ⊆ base := (takeWhile_sublist _).subset

theorem above_subset : above nodes key base ⊆ base := (dropWhile_sublist _).subset

theorem link_predecessor (h : Woven nodes base) (key : InternalKey) :
    link nodes 0 (predecessor nodes key base 0) = (above nodes key base).head? := by
  have hnext := (h.chain_cut key (by decide : 0 < maxHeight)).next_getLastD
  rwa [h.filter_zero above_subset] at hnext

/-- The predecessor of a key reaches its level. -/
theorem predecessor_placed (h : Woven nodes base) {level : ℕ} (hlevel : level < maxHeight) :
    predecessor nodes key base level < nodes.length ∧
      level < tower nodes (predecessor nodes key base level) := by
  rcases mem_cons.mp (predecessor_mem nodes key base level) with heq | hmem
  · rw [heq, h.head.2]
    exact ⟨h.head.1, hlevel⟩
  · obtain ⟨hbelow, htower⟩ := mem_filter.mp hmem
    exact ⟨(h.placed _ (below_subset hbelow)).2.1, by simpa using htower⟩

/-- Nodes whose keys and links are the same are woven in the same way. -/
theorem congr {nodes' : List Node} (h : Woven nodes base) (hlength : nodes'.length = nodes.length)
    (hkey : ∀ a, (node nodes' a).key = (node nodes a).key)
    (hnext : ∀ a, (node nodes' a).next = (node nodes a).next) : Woven nodes' base := by
  have htower : tower nodes' = tower nodes := funext fun a => congrArg List.length (hnext a)
  have hlink : link nodes' = link nodes := by
    funext level a
    rw [link, link, hnext]
  refine ⟨?_, ?_, ?_, ?_⟩
  · rw [hlength, htower]
    exact h.head
  · rw [htower, hlink]
    exact h.chains
  · simp only [hkey]
    exact h.sorted
  · rw [hlength, htower]
    exact h.placed

section Insert

variable {n : Node} {predecessors : List ℕ} {height : ℕ} {a : ℕ}

theorem tower_append_left (ha : a < nodes.length) : tower (nodes ++ [n]) a = tower nodes a := by
  rw [tower, tower, node_append_left ha]

variable (h : Woven nodes base) (hnext : n.next = List.replicate height none)
  (hheight : 1 ≤ height ∧ height ≤ maxHeight)
  (hpredecessors : ∀ L < height, predecessors.getD L 0 = predecessor nodes n.key base L)

include h hnext hheight hpredecessors

theorem weave_spec :
    SameNodes (nodes ++ [n]) (weave nodes n predecessors height) ∧
      ∀ L, link (weave nodes n predecessors height) L =
        if L < height then
          Links.splice (link (nodes ++ [n]) L) nodes.length (predecessor nodes n.key base L)
        else link (nodes ++ [n]) L := by
  have htower : tower (nodes ++ [n]) nodes.length = height := by
    rw [tower, node_append_right, hnext, length_replicate]
  obtain ⟨hsame, hlink⟩ := @foldl_linkBehind (nodes ++ [n]) nodes.length predecessors height
    (by simp) (fun L hL => htower ▸ hL) fun L hL => by
      obtain ⟨hplaced, hlevel⟩ := @predecessor_placed _ _ n.key h _ (hL.trans_le hheight.2)
      rw [hpredecessors L hL, tower_append_left hplaced, length_append]
      exact ⟨by omega, hlevel⟩
  refine ⟨hsame, fun L => ?_⟩
  rw [weave, hlink L]
  split_ifs with hL
  · rw [hpredecessors L hL]
  · rfl

/-- The nodes that were there keep what they hold and how high they reach. -/
theorem weave_old (ha : a < nodes.length) :
    tower (weave nodes n predecessors height) a = tower nodes a ∧
      (node (weave nodes n predecessors height) a).key = (node nodes a).key ∧
      (node (weave nodes n predecessors height) a).value = (node nodes a).value := by
  obtain ⟨hsame, -⟩ := h.weave_spec hnext hheight hpredecessors
  rw [hsame.tower, hsame.node, tower_append_left ha, node_append_left ha]
  exact ⟨rfl, rfl, rfl⟩

theorem weave_new :
    tower (weave nodes n predecessors height) nodes.length = height ∧
      (node (weave nodes n predecessors height) nodes.length).key = n.key ∧
      (node (weave nodes n predecessors height) nodes.length).value = n.value := by
  obtain ⟨hsame, -⟩ := h.weave_spec hnext hheight hpredecessors
  rw [hsame.tower, hsame.node, tower, node_append_right, hnext, length_replicate]
  exact ⟨rfl, rfl, rfl⟩

theorem weave_chain {L : ℕ} (hL : L < maxHeight) :
    Links.Chain (link (weave nodes n predecessors height) L) 0
      ((below nodes n.key base ++ nodes.length :: above nodes n.key base).filter
        (L < tower (weave nodes n predecessors height) ·)) := by
  have hbase : ∀ a ∈ base, a < nodes.length := fun a ha => (h.placed a ha).2.1
  have hchain : Links.Chain (link (nodes ++ [n]) L) 0
      ((below nodes n.key base).filter (L < tower nodes ·) ++
        (above nodes n.key base).filter (L < tower nodes ·)) := by
    refine (h.chain_cut n.key hL).congr fun a ha => ?_
    have ha' : a < nodes.length := by
      rw [← filter_append, below_append_above] at ha
      rcases mem_cons.mp ha with rfl | ha
      · exact h.head.1
      · exact hbase a (mem_filter.mp ha).1
    rw [link, link, node_append_left ha']
  have hfilter : ∀ l : List ℕ, l ⊆ base →
      l.filter (L < tower (weave nodes n predecessors height) ·) = l.filter (L < tower nodes ·) :=
    fun l hl => filter_congr fun a ha => by
      rw [(h.weave_old hnext hheight hpredecessors (hbase a (hl ha))).1]
  rw [filter_append, filter_cons, hfilter _ below_subset, hfilter _ above_subset,
    (h.weave_new hnext hheight hpredecessors).1,
    (h.weave_spec hnext hheight hpredecessors).2 L]
  by_cases hlevel : L < height
  · rw [if_pos hlevel, if_pos (by simpa using hlevel)]
    have hzero : 0 ∉ base := fun hmem => (h.placed 0 hmem).1 rfl
    have hlast : nodes.length ∉ base := fun hmem => absurd (hbase _ hmem) (lt_irrefl _)
    refine hchain.splice ?_ ?_
    · rw [← filter_append, below_append_above]
      exact nodup_cons.mpr ⟨fun hmem => hzero (mem_filter.mp hmem).1, h.nodup.filter _⟩
    · rw [← filter_append, below_append_above, mem_cons, not_or]
      exact ⟨ne_of_gt h.head.1, fun hmem => hlast (mem_filter.mp hmem).1⟩
  · rw [if_neg hlevel, if_neg (by simpa using hlevel)]
    exact hchain

theorem weave_sorted (hfresh : ∀ a ∈ base, (node nodes a).key ≠ n.key) :
    (below nodes n.key base ++ nodes.length :: above nodes n.key base).Pairwise fun a b =>
      (node (weave nodes n predecessors height) a).key <
        (node (weave nodes n predecessors height) b).key := by
  have hkeys : ∀ a ∈ base, (node (weave nodes n predecessors height) a).key = (node nodes a).key :=
    fun a ha => (h.weave_old hnext hheight hpredecessors (h.placed a ha).2.1).2.1
  have hnew := (h.weave_new hnext hheight hpredecessors).2.1
  have hcut := h.sorted
  rw [← @below_append_above nodes base n.key, pairwise_append] at hcut
  refine pairwise_append.mpr ⟨?_, pairwise_cons.mpr ⟨?_, ?_⟩, ?_⟩
  · exact hcut.1.imp_of_mem fun ha hb hab => by
      rwa [hkeys _ (below_subset ha), hkeys _ (below_subset hb)]
  · intro a ha
    rw [hnew, hkeys a (above_subset ha)]
    exact lt_of_le_of_ne (h.le_of_mem_above ha) (hfresh a (above_subset ha)).symm
  · exact hcut.2.1.imp_of_mem fun ha hb hab => by
      rwa [hkeys _ (above_subset ha), hkeys _ (above_subset hb)]
  · intro a ha b hb
    rcases mem_cons.mp hb with rfl | hb
    · rw [hnew, hkeys a (below_subset ha)]
      exact h.lt_of_mem_below ha
    · rw [hkeys a (below_subset ha), hkeys b (above_subset hb)]
      exact hcut.2.2 a ha b hb

/-- A new node stands in its place on every level it reaches, and the other levels are as before. -/
theorem insert (hfresh : ∀ a ∈ base, (node nodes a).key ≠ n.key) :
    Woven (weave nodes n predecessors height)
      (below nodes n.key base ++ nodes.length :: above nodes n.key base) := by
  obtain ⟨hsame, -⟩ := h.weave_spec hnext hheight hpredecessors
  have hlength : (weave nodes n predecessors height).length = nodes.length + 1 := by
    rw [hsame.length, length_append, length_singleton]
  refine ⟨?_, fun L hL => h.weave_chain hnext hheight hpredecessors hL,
    h.weave_sorted hnext hheight hpredecessors hfresh, fun a ha => ?_⟩
  · rw [(h.weave_old hnext hheight hpredecessors h.head.1).1, hlength]
    exact ⟨Nat.succ_pos _, h.head.2⟩
  · have hmem : a ∈ base ↔ a ∈ below nodes n.key base ∨ a ∈ above nodes n.key base := by
      rw [← mem_append, below_append_above]
    rw [mem_append, mem_cons, or_left_comm, ← hmem] at ha
    rw [hlength]
    rcases ha with rfl | ha
    · rw [(h.weave_new hnext hheight hpredecessors).1]
      exact ⟨ne_of_gt h.head.1, Nat.lt_succ_self _, hheight⟩
    · obtain ⟨hne, hlt, htower⟩ := h.placed a ha
      rw [(h.weave_old hnext hheight hpredecessors hlt).1]
      exact ⟨hne, hlt.trans (Nat.lt_succ_self _), htower⟩

end Insert

end Woven

/-! ### Insertion -/

/-- The bindings of the addresses. -/
def bindings (nodes : List Node) (base : List ℕ) : List (InternalKey × Bytes) :=
  base.map fun a => ((node nodes a).key, (node nodes a).value)

namespace MemTable

variable {m : MemTable} {base : List ℕ}

/-- The table is woven along `base`, and its fields say so. -/
structure Sound (m : MemTable) (base : List ℕ) : Prop where
  woven : Woven m.nodes base
  height : 1 ≤ m.height ∧ m.height ≤ maxHeight
  towers : ∀ a ∈ base, tower m.nodes a ≤ m.height
  count : m.count = base.length

theorem promote_bounds {fuel height : ℕ} (value : UInt64) (h : height ≤ maxHeight) :
    height ≤ promote fuel height value ∧ promote fuel height value ≤ maxHeight := by
  induction fuel generalizing height value with
  | zero => exact ⟨le_rfl, h⟩
  | succ fuel ih =>
    rw [promote]
    split_ifs with hlt
    · obtain ⟨hlow, hhigh⟩ := @ih (height + 1) (value >>> 2) hlt.1
      exact ⟨by omega, hhigh⟩
    · exact ⟨le_rfl, h⟩

theorem randomHeight_bounds (value : UInt64) :
    1 ≤ randomHeight value ∧ randomHeight value ≤ maxHeight :=
  promote_bounds value (by decide)

theorem sound_new (random : ℕ → UInt64) : (newWithRandom random).Sound [] where
  woven := {
    head := by simp [newWithRandom, tower, node]
    chains := fun level hlevel => by
      simp [newWithRandom, link, node, getD_eq_getElem?_getD, hlevel]
    sorted := List.Pairwise.nil
    placed := by simp }
  height := by simp [newWithRandom, maxHeight]
  towers := by simp
  count := rfl

/-- What `lowerBoundLocked` finds. -/
theorem Sound.lowerBoundLocked_eq (h : m.Sound base) (key : InternalKey) :
    m.lowerBoundLocked key = ((Woven.above m.nodes key base).head?,
      (List.range m.height).map (Woven.predecessor m.nodes key base)) := by
  have hne : m.height ≠ 0 := by have := h.height.1; omega
  rw [lowerBoundLocked, h.woven.descend_eq h.height.2 mem_cons_self]
  simp only [hne, if_false, append_nil, h.woven.link_predecessor]

/-- The addresses of the keys below, at and above a key that is put in. -/
theorem bindings_put {nodes : List Node} {low middle high : List ℕ} {key : InternalKey}
    {value : Bytes} (hlow : ∀ a ∈ low, (node nodes a).key < key)
    (hmiddle : ∀ a ∈ middle, (node nodes a).key = key)
    (hhigh : ∀ a ∈ high, key < (node nodes a).key) :
    SortedMap.put key value (bindings nodes (low ++ (middle ++ high))) =
      bindings nodes low ++ (key, value) :: bindings nodes high := by
  simp only [bindings, map_append]
  refine SortedMap.put_eq ?_ ?_ ?_
  · intro b hb
    obtain ⟨a, ha, rfl⟩ := mem_map.mp hb
    exact hlow a ha
  · intro b hb
    obtain ⟨a, ha, rfl⟩ := mem_map.mp hb
    exact hmiddle a ha
  · intro b hb
    obtain ⟨a, ha, rfl⟩ := mem_map.mp hb
    exact hhigh a ha

theorem bindings_congr {nodes nodes' : List Node} {l : List ℕ}
    (h : ∀ a ∈ l, (node nodes' a).key = (node nodes a).key ∧
      (node nodes' a).value = (node nodes a).value) : bindings nodes' l = bindings nodes l :=
  map_congr_left fun a ha => by rw [(h a ha).1, (h a ha).2]

/-- The predecessors of a key on the levels of a new node. -/
theorem Sound.predecessors_getD (h : m.Sound base) (key : InternalKey) {height L : ℕ}
    (hL : L < height) :
    ((List.range m.height).map (Woven.predecessor m.nodes key base) ++
      List.replicate (height - m.height) 0).getD L 0 = Woven.predecessor m.nodes key base L := by
  rw [getD_eq_getElem?_getD]
  by_cases hlevel : L < m.height
  · rw [getElem?_append_left (by simpa using hlevel)]
    simp [hlevel]
  · -- no node reaches a level that was not in use
    rw [getElem?_append_right (by simpa using hlevel)]
    have hnone : (Woven.below m.nodes key base).filter (L < tower m.nodes ·) = [] :=
      filter_eq_nil_iff.mpr fun a ha => by
        have := h.towers a (Woven.below_subset ha)
        simp only [decide_eq_true_eq]
        omega
    simp only [getElem?_replicate, length_map, length_range]
    rw [if_pos (by omega), Woven.predecessor, hnone]
    rfl

variable {key : InternalKey}

/-- A key that is not in the table gets a node of its own. -/
theorem Sound.insertNode (h : m.Sound base) (value : Bytes)
    (hfresh : ∀ a ∈ base, (node m.nodes a).key ≠ key) :
    ∃ base', (m.insertNode key value
        ((List.range m.height).map (Woven.predecessor m.nodes key base))).Sound base' ∧
      bindings (m.insertNode key value
        ((List.range m.height).map (Woven.predecessor m.nodes key base))).nodes base' =
        SortedMap.put key value (bindings m.nodes base) := by
  obtain ⟨hlow, hhigh⟩ := randomHeight_bounds (m.random m.drawn)
  set height := randomHeight (m.random m.drawn) with hheight
  set n : Node :=
    { key := key
      value := value
      capacity := value.length
      next := List.replicate height none
      keyBytes := key.userKey.length } with hn
  set predecessors := (List.range m.height).map (Woven.predecessor m.nodes key base) ++
    List.replicate (height - m.height) 0 with hpreds
  have hpredecessors : ∀ L < height,
      predecessors.getD L 0 = Woven.predecessor m.nodes n.key base L :=
    fun L hL => h.predecessors_getD key hL
  have hnext : n.next = List.replicate height none := rfl
  have hbounds : 1 ≤ height ∧ height ≤ maxHeight := ⟨hlow, hhigh⟩
  refine ⟨Woven.below m.nodes key base ++ m.nodes.length :: Woven.above m.nodes key base,
    ⟨h.woven.insert hnext hbounds hpredecessors hfresh, ?_, ?_, ?_⟩, ?_⟩
  · show 1 ≤ max m.height height ∧ max m.height height ≤ maxHeight
    have := h.height
    omega
  · intro a ha
    show tower (weave m.nodes n predecessors height) a ≤ max m.height height
    rw [mem_append, mem_cons, or_left_comm, ← mem_append, Woven.below_append_above] at ha
    rcases ha with rfl | ha
    · rw [(h.woven.weave_new hnext hbounds hpredecessors).1]
      exact le_max_right _ _
    · rw [(h.woven.weave_old hnext hbounds hpredecessors (h.woven.placed a ha).2.1).1]
      exact (h.towers a ha).trans (le_max_left _ _)
  · show m.count + 1 = _
    have hlength := congrArg List.length (@Woven.below_append_above m.nodes base key)
    rw [length_append] at hlength
    rw [h.count, length_append, length_cons]
    omega
  · show bindings (weave m.nodes n predecessors height) _ = _
    have hcut : base = Woven.below m.nodes key base ++ ([] ++ Woven.above m.nodes key base) :=
      Woven.below_append_above.symm
    have hold : ∀ l ⊆ base, bindings (weave m.nodes n predecessors height) l = bindings m.nodes l :=
      fun l hl => bindings_congr fun a ha =>
        (h.woven.weave_old hnext hbounds hpredecessors (h.woven.placed a (hl ha)).2.1).2
    conv_rhs => rw [hcut]
    rw [bindings_put (fun a ha => h.woven.lt_of_mem_below ha) (by simp) fun a ha =>
      lt_of_le_of_ne (h.woven.le_of_mem_above ha) (hfresh a (Woven.above_subset ha)).symm]
    obtain ⟨-, hkey, hvalue⟩ := h.woven.weave_new hnext hbounds hpredecessors
    rw [← hold _ Woven.below_subset, ← hold _ Woven.above_subset]
    simp only [bindings, map_append, map_cons, hkey, hvalue]
    rfl

variable {a : ℕ}

/-- The value of a key that is in the table is replaced. -/
theorem Sound.replaceValueLocked (h : m.Sound base) {low high : List ℕ}
    (hbase : base = low ++ a :: high) (value : Bytes) :
    (m.replaceValueLocked a value).Sound base ∧
      bindings (m.replaceValueLocked a value).nodes base =
        SortedMap.put (node m.nodes a).key value (bindings m.nodes base) := by
  obtain ⟨f, hnodes, hcount, hheight, hf⟩ : ∃ f : Node → Node,
      (m.replaceValueLocked a value).nodes = m.nodes.modify a f ∧
      (m.replaceValueLocked a value).count = m.count ∧
      (m.replaceValueLocked a value).height = m.height ∧
      ∀ x, (f x).key = x.key ∧ (f x).next = x.next ∧ (f x).value = value := by
    unfold MemTable.replaceValueLocked
    dsimp only
    split_ifs
    · exact ⟨_, rfl, rfl, rfl, fun x => ⟨rfl, rfl, rfl⟩⟩
    · exact ⟨_, rfl, rfl, rfl, fun x => ⟨rfl, rfl, rfl⟩⟩
  have hplaced := h.woven.placed a (by simp [hbase])
  have hnode := node_modify (f := f) hplaced.2.1
  have hkey : ∀ b, (node (m.nodes.modify a f) b).key = (node m.nodes b).key := fun b => by
    rw [hnode]
    split_ifs
    · exact (hf _).1
    · rfl
  have hnext : ∀ b, (node (m.nodes.modify a f) b).next = (node m.nodes b).next := fun b => by
    rw [hnode]
    split_ifs
    · exact (hf _).2.1
    · rfl
  have hwoven := h.woven.congr (length_modify ..) hkey hnext
  constructor
  · refine ⟨hnodes ▸ hwoven, hheight ▸ h.height, fun b hb => ?_, hcount.trans h.count⟩
    rw [hnodes, hheight, tower, hnext]
    exact h.towers b hb
  · have hsorted := h.woven.sorted
    rw [hbase, pairwise_append, pairwise_cons] at hsorted
    have hother : ∀ b, b ≠ a → (node (m.nodes.modify a f) b).value = (node m.nodes b).value :=
      fun b hb => by rw [hnode, if_neg (Ne.symm hb)]
    have hlow : ∀ b ∈ low, (node m.nodes b).key < (node m.nodes a).key :=
      fun b hb => hsorted.2.2 b hb a mem_cons_self
    have hput := @bindings_put _ _ [a] _ _ value hlow (by simp) hsorted.2.1.1
    rw [singleton_append, ← hbase] at hput
    rw [hput, hnodes, hbase]
    have hlowSame := @bindings_congr m.nodes _ low fun b hb =>
      ⟨hkey b, hother b fun heq => lt_irrefl _ (heq ▸ hlow b hb)⟩
    have hhighSame := @bindings_congr m.nodes _ high fun b hb =>
      ⟨hkey b, hother b fun heq => lt_irrefl _ (heq ▸ hsorted.2.1.1 b hb)⟩
    rw [← hlowSame, ← hhighSame]
    simp only [bindings, map_append, map_cons, hkey]
    rw [hnode, if_pos rfl, (hf _).2.2]

/-- `insertLocked` writes one binding. -/
theorem Sound.insertLocked (h : m.Sound base) (key : InternalKey) (value : Bytes) :
    ∃ base', (m.insertLocked key value).Sound base' ∧
      bindings (m.insertLocked key value).nodes base' =
        SortedMap.put key value (bindings m.nodes base) := by
  have hcut : Woven.below m.nodes key base ++ Woven.above m.nodes key base = base :=
    Woven.below_append_above
  have hsorted := h.woven.sorted
  rw [← hcut, pairwise_append] at hsorted
  rw [MemTable.insertLocked, h.lowerBoundLocked_eq]
  rcases habove : Woven.above m.nodes key base with - | ⟨a, high⟩
  · refine h.insertNode value fun b hb => ?_
    rw [← hcut, habove, append_nil] at hb
    exact ne_of_lt (h.woven.lt_of_mem_below hb)
  · rw [head?_cons]
    dsimp only
    split_ifs with heq
    · rw [compareInternal_eq] at heq
      subst heq
      exact ⟨base, h.replaceValueLocked (hcut.symm.trans (congrArg _ habove)) value⟩
    · rw [compareInternal_eq] at heq
      refine h.insertNode value fun b hb => ?_
      rw [habove] at hsorted
      rw [← hcut, habove] at hb
      have hle : key ≤ (node m.nodes a).key :=
        h.woven.le_of_mem_above (habove ▸ mem_cons_self)
      have hlt : key < (node m.nodes a).key := lt_of_le_of_ne hle (Ne.symm heq)
      rcases mem_append.mp hb with hb | hb
      · exact ne_of_lt (h.woven.lt_of_mem_below hb)
      · rcases mem_cons.mp hb with rfl | hb
        · exact heq
        · exact ne_of_gt (hlt.trans ((pairwise_cons.mp hsorted.2.1).1 b hb))

@[simp] theorem insertLocked_frozen (m : MemTable) (key : InternalKey) (value : Bytes) :
    (m.insertLocked key value).frozen = m.frozen := by
  unfold MemTable.insertLocked
  dsimp only
  split
  · split_ifs
    · unfold MemTable.replaceValueLocked
      dsimp only
      split_ifs <;> rfl
    · rfl
  · rfl

end MemTable

end RivetDB.Memtable
