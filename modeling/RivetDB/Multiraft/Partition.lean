import RivetDB.Order.Keyed
import RivetDB.Order.Tiling
import RivetDB.Multiraft.Catalog
import Mathlib.Data.List.Chain

/-!
# What a catalog guarantees

Every catalog that `newCatalog` accepts keeps its ranges in key order, without overlap
and under distinct identities, so a key lies in at most one range and `lookup` finds
that range.  The checks are stated as propositions first (`Valid`, `Adjacent`), with
equivalences, because later proofs need both directions: what an accepted catalog
satisfies, and that a catalog built from an accepted one is accepted again.
-/

namespace RivetDB.Multiraft

open List RangeDescriptor
open scoped ByteOrder

/-! ### Descriptors -/

namespace RangeDescriptor

/-- The keys of a range. -/
def span (d : RangeDescriptor) : Set Bytes := {key | d.contains key = true}

variable {d : RangeDescriptor}

theorem mem_span {key : Bytes} :
    key ∈ d.span ↔
      (d.startKey.unbounded = true ∨ d.startKey.key ≤ key) ∧
        (d.endKey.unbounded = true ∨ key < d.endKey.key) := by
  simp [span, contains]

/-- What `Validate` accepts. -/
structure Valid (d : RangeDescriptor) : Prop where
  rangeID : d.rangeID ≠ 0
  generation : d.generation ≠ 0
  nonempty : d.replicas ≠ []
  start : d.startKey.unbounded = true → d.startKey.key = []
  finish : d.endKey.unbounded = true → d.endKey.key = []
  startSize : d.startKey.key.length ≤ Storage.maxUserKeySize
  endSize : d.endKey.key.length ≤ Storage.maxUserKeySize
  interval : d.startKey.unbounded = false → d.endKey.unbounded = false →
    d.startKey.key < d.endKey.key
  identities : ∀ r ∈ d.replicas, r.replicaID ≠ 0 ∧ r.nodeID ≠ 0
  replicaIDs : (d.replicas.map ReplicaDescriptor.replicaID).Nodup
  nodeIDs : (d.replicas.map ReplicaDescriptor.nodeID).Nodup

end RangeDescriptor

theorem validateReplicas_ok_iff {seen replicas : List ReplicaDescriptor} :
    validateReplicas seen replicas = .ok () ↔
      (∀ r ∈ replicas, r.replicaID ≠ 0 ∧ r.nodeID ≠ 0) ∧
        (replicas.map ReplicaDescriptor.replicaID).Nodup ∧
        (replicas.map ReplicaDescriptor.nodeID).Nodup ∧
        ∀ r ∈ replicas, r.replicaID ∉ seen.map ReplicaDescriptor.replicaID ∧
          r.nodeID ∉ seen.map ReplicaDescriptor.nodeID := by
  induction replicas generalizing seen with
  | nil => simp [validateReplicas]
  | cons r rest ih =>
    unfold validateReplicas
    split_ifs with hzero hreplica hnode
    · simp only [false_iff]
      rintro ⟨hids, -⟩
      have := hids r mem_cons_self
      tauto
    · simp only [false_iff]
      rintro ⟨-, -, -, hfresh⟩
      exact (hfresh r mem_cons_self).1 hreplica
    · simp only [false_iff]
      rintro ⟨-, -, -, hfresh⟩
      exact (hfresh r mem_cons_self).2 hnode
    · rw [ih]
      rw [forall_mem_cons, forall_mem_cons]
      simp only [map_cons, nodup_cons, mem_cons, not_or]
      constructor
      · rintro ⟨hids, hreplicas, hnodes, hfresh⟩
        refine ⟨⟨by tauto, hids⟩, ⟨?_, hreplicas⟩, ⟨?_, hnodes⟩, ⟨hreplica, hnode⟩,
          fun x hx => ⟨(hfresh x hx).1.2, (hfresh x hx).2.2⟩⟩
        · intro hmem
          obtain ⟨x, hx, heq⟩ := mem_map.mp hmem
          exact (hfresh x hx).1.1 heq
        · intro hmem
          obtain ⟨x, hx, heq⟩ := mem_map.mp hmem
          exact (hfresh x hx).2.1 heq
      · rintro ⟨⟨-, hids⟩, ⟨hr, hreplicas⟩, ⟨hn, hnodes⟩, -, hfresh⟩
        refine ⟨hids, hreplicas, hnodes, fun x hx => ⟨⟨fun heq => hr ?_, (hfresh x hx).1⟩,
          fun heq => hn ?_, (hfresh x hx).2⟩⟩
        · exact heq ▸ mem_map_of_mem hx
        · exact heq ▸ mem_map_of_mem hx

variable {d : RangeDescriptor}

theorem RangeDescriptor.validate_ok_iff : d.validate = .ok () ↔ d.Valid := by
  unfold validate
  split_ifs with hids hbounds hsizes hinterval
  · simp only [false_iff]
    intro h
    have := h.rangeID
    have := h.generation
    have := h.nonempty
    tauto
  · simp only [false_iff]
    intro h
    have := h.start
    have := h.finish
    tauto
  · simp only [false_iff]
    intro h
    have := h.startSize
    have := h.endSize
    omega
  · simp only [false_iff]
    intro h
    simp only [Bool.not_eq_true'] at hinterval
    exact hinterval.2.2 (h.interval hinterval.1 hinterval.2.1)
  · rw [validateReplicas_ok_iff]
    simp only [not_or, not_and, Bool.not_eq_true'] at hids hbounds hsizes hinterval
    constructor
    · rintro ⟨hidentities, hreplicas, hnodes, -⟩
      exact ⟨hids.1, hids.2.1, hids.2.2, fun h => not_not.mp (hbounds.1 h),
        fun h => not_not.mp (hbounds.2 h), by omega, by omega,
        fun h h' => not_not.mp (hinterval h h'), hidentities, hreplicas, hnodes⟩
    · intro h
      exact ⟨h.identities, h.replicaIDs, h.nodeIDs, by simp⟩

theorem validateDescriptors_ok_iff {nodes : List Raft.NodeID} {factor : ℕ}
    {ds : List RangeDescriptor} :
    validateDescriptors nodes factor ds = .ok () ↔
      ∀ d ∈ ds, d.Valid ∧ d.replicas.length = factor ∧ ∀ r ∈ d.replicas, r.nodeID ∈ nodes := by
  induction ds with
  | nil => simp [validateDescriptors]
  | cons d rest ih =>
    unfold validateDescriptors
    rw [forall_mem_cons, ← validate_ok_iff]
    rcases d.validate with err | ⟨⟩
    · simp
    · dsimp only
      split_ifs with hlength hnode
      · simp only [false_iff]
        tauto
      · simp only [any_eq_true, decide_eq_true_eq] at hnode
        obtain ⟨r, hr, hr'⟩ := hnode
        simp only [false_iff]
        rintro ⟨⟨-, -, hnodes⟩, -⟩
        exact hr' (hnodes r hr)
      · rw [ih]
        simp only [any_eq_true, decide_eq_true_eq, not_exists, not_and, not_not] at hlength hnode
        exact ⟨fun h => ⟨⟨rfl, hlength, hnode⟩, h⟩, fun h => h.2⟩

/-! ### The order of the ranges -/

/-- `d` may follow `p` in a catalog. -/
structure Adjacent (allowPartial : Bool) (p d : RangeDescriptor) : Prop where
  finish : p.endKey.unbounded = false
  start : d.startKey.unbounded = false
  le : p.endKey.key ≤ d.startKey.key
  tight : allowPartial = false → p.endKey.key = d.startKey.key

theorem validateOrder_ok_iff {allowPartial : Bool} {seen : List ℕ}
    {previous : Option RangeDescriptor} {ds : List RangeDescriptor} :
    validateOrder allowPartial seen previous ds = .ok () ↔
      (ds.map rangeID).Nodup ∧ (∀ d ∈ ds, d.rangeID ∉ seen) ∧
        (previous.toList ++ ds).IsChain (Adjacent allowPartial) := by
  induction ds generalizing seen previous with
  | nil =>
    cases previous <;> simp [validateOrder]
  | cons d rest ih =>
    unfold validateOrder
    by_cases hseen : d.rangeID ∈ seen
    · simp [hseen]
    have hids : ((rest.map rangeID).Nodup ∧
          ∀ x ∈ rest, x.rangeID ∉ d.rangeID :: seen) ↔
        ((d :: rest).map rangeID).Nodup ∧ ∀ x ∈ d :: rest, x.rangeID ∉ seen := by
      rw [forall_mem_cons]
      simp only [map_cons, nodup_cons, mem_map, not_exists, not_and, mem_cons, not_or]
      constructor
      · rintro ⟨hnodup, hfresh⟩
        exact ⟨⟨fun x hx => (hfresh x hx).1, hnodup⟩, hseen, fun x hx => (hfresh x hx).2⟩
      · rintro ⟨⟨hd, hnodup⟩, -, hfresh⟩
        exact ⟨hnodup, fun x hx => ⟨hd x hx, hfresh x hx⟩⟩
    rw [if_neg hseen]
    rcases previous with - | p
    · dsimp only
      rw [ih, ← and_assoc, hids, and_assoc]
      simp
    · dsimp only
      split_ifs with hbounds hgap
      · simp only [Option.toList_some, singleton_append, isChain_cons_cons, false_iff]
        rintro ⟨-, -, hadjacent, -⟩
        have := hadjacent.finish
        have := hadjacent.start
        simp_all
      · simp only [Option.toList_some, singleton_append, isChain_cons_cons, false_iff]
        rintro ⟨-, -, hadjacent, -⟩
        rcases hgap with hlt | ⟨hgaps, hne⟩
        · exact absurd hlt (not_lt.mpr hadjacent.le)
        · exact hne (hadjacent.tight (by simpa using hgaps))
      · rw [ih, ← and_assoc, hids, and_assoc]
        simp only [not_or, Bool.not_eq_true, not_and, not_lt] at hbounds hgap
        have hadjacent : Adjacent allowPartial p d :=
          ⟨hbounds.1, hbounds.2, hgap.1, fun h => not_not.mp (hgap.2 (by simp [h]))⟩
        simp [hadjacent]

/-- Everything in `p` lies below everything in `d`. -/
structure Precedes (p d : RangeDescriptor) : Prop where
  finish : p.endKey.unbounded = false
  start : d.startKey.unbounded = false
  le : p.endKey.key ≤ d.startKey.key

variable {allowPartial : Bool} {p : RangeDescriptor}

theorem Adjacent.precedes (h : Adjacent allowPartial p d) : Precedes p d :=
  { h with }

theorem Precedes.disjoint (h : Precedes p d) :
    Disjoint p.span d.span := by
  refine Set.disjoint_left.mpr fun key hp hd => ?_
  have hlt := (mem_span.mp hp).2.resolve_left (by simp [h.finish])
  have hge := (mem_span.mp hd).1.resolve_left (by simp [h.start])
  exact absurd (hlt.trans_le (h.le.trans hge)) (lt_irrefl _)

variable {ds : List RangeDescriptor}

/-- Neighbours in order are in order throughout, since no range is empty. -/
theorem pairwise_precedes (hvalid : ∀ d ∈ ds, d.Valid) (h : ds.IsChain (Adjacent allowPartial)) :
    ds.Pairwise Precedes := by
  induction ds with
  | nil => exact List.Pairwise.nil
  | cons p rest ih =>
    have hrest := ih (fun d hd => hvalid d (mem_cons_of_mem _ hd)) h.tail
    refine pairwise_cons.mpr ⟨fun d hd => ?_, hrest⟩
    rcases rest with - | ⟨q, rest⟩
    · cases hd
    have hpq : Adjacent allowPartial p q := (isChain_cons_cons.mp h).1
    rcases mem_cons.mp hd with rfl | hd
    · exact hpq.precedes
    · have hqd : Precedes q d := (pairwise_cons.mp hrest).1 d hd
      have hq := (hvalid q (by simp)).interval hpq.start hqd.finish
      exact ⟨hpq.finish, hqd.start, (hpq.le.trans_lt hq).le.trans hqd.le⟩

/-! ### Catalogs -/

/-- What every catalog satisfies. -/
structure Catalog.WellFormed (c : Catalog) : Prop where
  generation : 0 < c.generation
  nonempty : c.ranges ≠ []
  count : c.ranges.length ≤ maxCatalogRanges
  valid : ∀ d ∈ c.ranges, d.Valid
  hosted : ∀ d ∈ c.ranges, ∀ r ∈ d.replicas, r.nodeID ∈ c.nodes
  factor : ∀ d ∈ c.ranges, d.replicas.length = c.replicationFactor
  replicas : ∀ d ∈ c.ranges, d.replicas.Pairwise replicaLE
  ids : (c.ranges.map rangeID).Nodup
  ordered : c.ranges.Pairwise Precedes

theorem RangeDescriptor.replicaLE_total (a b : ReplicaDescriptor) :
    replicaLE a b ∨ replicaLE b a := by
  rcases Nat.lt_trichotomy a.replicaID b.replicaID with h | h | h
  · exact .inl (.inl h)
  · rcases UInt64.le_total a.nodeID b.nodeID with h' | h'
    · exact .inl (.inr ⟨h, h'⟩)
    · exact .inr (.inr ⟨h.symm, h'⟩)
  · exact .inr (.inl h)

theorem RangeDescriptor.replicaLE_trans {a b c : ReplicaDescriptor} (h : replicaLE a b)
    (h' : replicaLE b c) : replicaLE a c := by
  rcases h with h | ⟨h, hn⟩ <;> rcases h' with h' | ⟨h', hn'⟩
  · exact .inl (h.trans h')
  · exact .inl (h' ▸ h)
  · exact .inl (h ▸ h')
  · exact .inr ⟨h.trans h', UInt64.le_trans hn hn'⟩

theorem RangeDescriptor.sortReplicas_pairwise (d : RangeDescriptor) :
    d.sortReplicas.replicas.Pairwise replicaLE := by
  have htotal : Std.Total replicaLE := ⟨replicaLE_total⟩
  have htrans : IsTrans ReplicaDescriptor replicaLE := ⟨fun _ _ _ => replicaLE_trans⟩
  exact pairwise_insertionSort _ _

theorem RangeDescriptor.sortReplicas_eq
    (h : d.replicas.Pairwise replicaLE) : d.sortReplicas = d := by
  unfold sortReplicas
  rw [h.insertionSort_eq]

theorem RangeDescriptor.sortReplicas_perm (d : RangeDescriptor) :
    d.sortReplicas.replicas.Perm d.replicas :=
  perm_insertionSort _ _

theorem RangeDescriptor.Valid.sortReplicas (h : d.Valid) :
    d.sortReplicas.Valid where
  rangeID := h.rangeID
  generation := h.generation
  nonempty := by
    intro hnil
    have hperm := d.sortReplicas_perm
    rw [hnil] at hperm
    exact h.nonempty hperm.nil_eq.symm
  start := h.start
  finish := h.finish
  startSize := h.startSize
  endSize := h.endSize
  interval := h.interval
  identities r hr := h.identities r (d.sortReplicas_perm.mem_iff.mp hr)
  replicaIDs := (d.sortReplicas_perm.map _).nodup_iff.mpr h.replicaIDs
  nodeIDs := (d.sortReplicas_perm.map _).nodup_iff.mpr h.nodeIDs

theorem Bootstrap.arrange_perm (b : Bootstrap) :
    b.arrange.ranges.Perm (b.ranges.map sortReplicas) :=
  perm_insertionSort _ _

/-- When `NewCatalog` succeeds. -/
structure Bootstrap.Acceptable (b : Bootstrap) : Prop where
  generation : b.generation ≠ 0
  nodes : b.nodes ≠ [] ∧ b.nodes.length ≤ maxCatalogNodes
  factor : 1 ≤ b.replicationFactor ∧ b.replicationFactor ≤ maxRangeReplicas
  count : b.ranges ≠ [] ∧ b.ranges.length ≤ maxCatalogRanges
  distinct : validNodes b.arrange.nodes = true
  valid : ∀ d ∈ b.ranges, d.Valid ∧ d.replicas.length = b.replicationFactor ∧
    ∀ r ∈ d.replicas, r.nodeID ∈ b.arrange.nodes
  ids : (b.arrange.ranges.map rangeID).Nodup
  chain : b.arrange.ranges.IsChain (Adjacent b.allowPartial)
  full : b.allowPartial = false → fullSpan b.arrange.ranges = true
  size : b.arrange.body.length ≤ maxCatalogBytes - 4

variable {b : Bootstrap} {c : Catalog}

theorem newCatalog_ok_iff : newCatalog b = .ok c ↔ c = b.arrange ∧ b.Acceptable := by
  unfold newCatalog
  split
  · rename_i hlimits
    simp only [reduceCtorEq, false_iff, not_and]
    rintro - h
    rcases hlimits with h' | h' | h' | h' | h' | h' | h'
    · exact h.generation h'
    · exact h.nodes.1 h'
    · exact absurd h.nodes.2 (by omega)
    · exact absurd h.factor.1 (by omega)
    · exact absurd h.factor.2 (by omega)
    · exact h.count.1 h'
    · exact absurd h.count.2 (by omega)
  rename_i hlimits
  split
  · rename_i hnodes
    simp only [reduceCtorEq, false_iff, not_and]
    rintro - h
    simp [h.distinct] at hnodes
  rename_i hnodes
  have hdescriptors := @validateDescriptors_ok_iff b.arrange.nodes b.replicationFactor b.ranges
  rcases hvalid : validateDescriptors b.arrange.nodes b.replicationFactor b.ranges with err | ⟨⟩
  · rw [hvalid] at hdescriptors
    simp only [reduceCtorEq, false_iff, not_and]
    rintro - h
    exact absurd (hdescriptors.mpr h.valid) (by simp)
  rw [hvalid] at hdescriptors
  have horder := @validateOrder_ok_iff b.allowPartial [] none b.arrange.ranges
  rcases hchain : validateOrder b.allowPartial [] none b.arrange.ranges with err | ⟨⟩
  · rw [hchain] at horder
    simp only [reduceCtorEq, false_iff, not_and]
    rintro - h
    exact absurd (horder.mpr ⟨h.ids, by simp, by simpa using h.chain⟩) (by simp)
  rw [hchain] at horder
  obtain ⟨hids, -, hadjacent⟩ := horder.mp rfl
  split_ifs with hfull hsize
  · simp only [false_iff, not_and]
    rintro - h
    simp only [Bool.not_eq_true'] at hfull
    exact absurd (h.full hfull.1) (by simp [hfull.2])
  · simp only [false_iff, not_and]
    rintro - h
    have := h.size
    omega
  · simp only [not_or, Bool.not_eq_true', Bool.not_eq_false, not_and] at hlimits hnodes hfull
    constructor
    · intro h
      cases h
      exact ⟨rfl, hlimits.1, ⟨hlimits.2.1, by omega⟩, ⟨by omega, by omega⟩,
        ⟨hlimits.2.2.2.2.2.1, by omega⟩, hnodes, hdescriptors.mp rfl, hids,
        by simpa using hadjacent, hfull, by omega⟩
    · rintro ⟨rfl, -⟩
      rfl

theorem Bootstrap.Acceptable.wellFormed (h : b.Acceptable) :
    b.arrange.WellFormed := by
  have hmem : ∀ d ∈ b.arrange.ranges, ∃ d₀ ∈ b.ranges, d₀.sortReplicas = d := fun d hd =>
    mem_map.mp (b.arrange_perm.mem_iff.mp hd)
  have hvalid : ∀ d ∈ b.arrange.ranges, d.Valid := by
    intro d hd
    obtain ⟨d₀, hd₀, rfl⟩ := hmem d hd
    exact (h.valid d₀ hd₀).1.sortReplicas
  refine ⟨Nat.pos_of_ne_zero h.generation, fun hnil => ?_, ?_, hvalid, ?_, ?_, ?_, h.ids,
    pairwise_precedes hvalid h.chain⟩
  · have hperm := b.arrange_perm
    rw [hnil] at hperm
    exact h.count.1 (map_eq_nil_iff.mp hperm.nil_eq.symm)
  · rw [b.arrange_perm.length_eq, length_map]
    exact h.count.2
  · intro d hd r hr
    obtain ⟨d₀, hd₀, rfl⟩ := hmem d hd
    exact (h.valid d₀ hd₀).2.2 r (d₀.sortReplicas_perm.mem_iff.mp hr)
  · intro d hd
    obtain ⟨d₀, hd₀, rfl⟩ := hmem d hd
    rw [d₀.sortReplicas_perm.length_eq]
    exact (h.valid d₀ hd₀).2.1
  · intro d hd
    obtain ⟨d₀, hd₀, rfl⟩ := hmem d hd
    exact d₀.sortReplicas_pairwise

theorem newCatalog_wellFormed (h : newCatalog b = .ok c) :
    c.WellFormed := by
  obtain ⟨rfl, hb⟩ := newCatalog_ok_iff.mp h
  exact hb.wellFormed

namespace Catalog

variable {c : Catalog}

/-- The catalog leaves no key out. -/
def Covers (c : Catalog) : Prop := ∀ key, ∃ d ∈ c.ranges, d.contains key = true

theorem WellFormed.tiles (h : c.WellFormed) (hcovers : c.Covers) :
    Tiles span Set.univ c.ranges :=
  ⟨fun key => ⟨fun _ => hcovers key, fun _ => trivial⟩, h.ordered.imp fun hpd => hpd.disjoint⟩

theorem WellFormed.eq_of_rangeID (h : c.WellFormed) {d d' : RangeDescriptor}
    (hd : d ∈ c.ranges) (hd' : d' ∈ c.ranges) (hid : d.rangeID = d'.rangeID) : d = d' :=
  inj_on_of_nodup_map h.ids hd hd' hid

theorem WellFormed.find?_rangeID (h : c.WellFormed) {id : ℕ} :
    c.ranges.find? (·.rangeID = id) = some d ↔ d ∈ c.ranges ∧ d.rangeID = id :=
  Keyed.find?_eq_some_iff h.ids

/-- `Lookup` finds the range that contains the key. -/
theorem WellFormed.lookup_ok (h : c.WellFormed) {key : Bytes}
    (hd : d ∈ c.ranges) (hkey : d.contains key = true) : c.lookup key = .ok d := by
  obtain ⟨before, after, hsplit⟩ := append_of_mem hd
  have hfind : c.ranges.find? (fun d => d.endKey.unbounded || key < d.endKey.key) = some d := by
    rw [hsplit, find?_append]
    have hbefore : before.find? (fun d => d.endKey.unbounded || key < d.endKey.key) = none := by
      -- every range before `d` ends at or below its start, so below the key
      refine find?_eq_none.mpr fun p hp => ?_
      have hordered := h.ordered
      rw [hsplit] at hordered
      have hpd : Precedes p d := (pairwise_append.mp hordered).2.2 p hp d mem_cons_self
      have hge := (mem_span.mp hkey).1.resolve_left (by simp [hpd.start])
      simp [hpd.finish, hpd.le.trans hge]
    have hend := (mem_span.mp hkey).2
    rw [hbefore, Option.none_or, find?_cons_of_pos]
    simpa using hend
  unfold lookup
  rw [hfind]
  simp [hkey]

end Catalog

end RivetDB.Multiraft
