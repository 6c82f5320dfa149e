import RivetDB.Multiraft.Rebalance
import RivetDB.Multiraft.Resolution

/-!
# When a fenced split can be committed

`commit` rebuilds the catalog with the children in the place of the parent, validates the
whole lineage again and has to fit the result into one command.  Every one of these can
fail although `begin` accepted the split, and a fenced split can no longer be aborted.
The conditions under which all of them succeed are collected in `Committable`.
-/

namespace RivetDB.Multiraft

open List MetadataState RangeDescriptor Codec
open scoped ByteOrder
open Forest

variable {c₀ : Catalog} {s s' : MetadataState} {r : SplitRecord} {d : RangeDescriptor}

/-! ### The catalog of a reachable state -/

theorem Precedes.startLE {p q : RangeDescriptor} (h : Precedes p q) (hp : p.Valid) :
    startLE p q := by
  rcases hstart : p.startKey.unbounded with - | -
  · refine .inr ⟨h.start, not_lt.mpr ?_⟩
    exact (hp.interval hstart h.finish).le.trans h.le
  · exact .inl hstart

variable {allowPartial : Bool} {ds : List RangeDescriptor}

/-- Ranges that follow one another are in the order of `NewCatalog`. -/
theorem insertionSort_of_chain
    (hvalid : ∀ d ∈ ds, d.Valid) (hchain : ds.IsChain (Adjacent allowPartial)) :
    ds.insertionSort startLE = ds := by
  refine Pairwise.insertionSort_eq ?_
  exact (pairwise_precedes hvalid hchain).imp_of_mem
    fun hp _ hpq => Precedes.startLE hpq (hvalid _ hp)

/-- A catalog is accepted again as it is. -/
theorem newCatalog_snapshot {b : Bootstrap} {c : Catalog} (h : newCatalog b = .ok c) :
    newCatalog c.snapshot = .ok c := by
  have hwf := newCatalog_wellFormed h
  obtain ⟨rfl, hb⟩ := newCatalog_ok_iff.mp h
  have hnodes : b.arrange.nodes.insertionSort (· ≤ ·) = b.arrange.nodes :=
    (pairwise_insertionSort (· ≤ ·) b.nodes).insertionSort_eq
  have hsort : b.arrange.ranges.map sortReplicas = b.arrange.ranges := by
    refine (map_congr_left fun d hd => ?_).trans (map_id _)
    exact sortReplicas_eq (hwf.replicas d hd)
  have hsame : b.arrange.snapshot.arrange = b.arrange := by
    show ({ b.arrange with
      nodes := b.arrange.nodes.insertionSort (· ≤ ·)
      ranges := (b.arrange.ranges.map sortReplicas).insertionSort startLE } : Catalog) = b.arrange
    rw [hnodes, hsort, insertionSort_of_chain hwf.valid hb.chain]
  refine newCatalog_ok_iff.mpr ⟨hsame.symm, ?_⟩
  have hperm : b.arrange.nodes.Perm b.nodes := perm_insertionSort _ _
  exact
    { generation := hb.generation
      nodes := by
        refine ⟨fun hnil => hb.nodes.1 ?_, hperm.length_eq.trans_le hb.nodes.2⟩
        have hnil' : b.arrange.nodes = [] := hnil
        rw [hnil'] at hperm
        exact hperm.nil_eq.symm
      factor := hb.factor
      count := ⟨hwf.nonempty, hwf.count⟩
      distinct := by rw [hsame]; exact hb.distinct
      valid := by
        intro d hd
        rw [hsame]
        exact ⟨hwf.valid d hd, hwf.factor d hd, hwf.hosted d hd⟩
      ids := by rw [hsame]; exact hb.ids
      chain := by rw [hsame]; exact hb.chain
      full := by rw [hsame]; exact hb.full
      size := by rw [hsame]; exact hb.size }

/-- The catalog of every reachable state was accepted by `NewCatalog`. -/
theorem MetadataState.run_snapshot (hs : newCatalog s.catalog.snapshot = .ok s.catalog)
    (calls : List MetadataCall) :
    newCatalog (s.run calls).catalog.snapshot = .ok (s.run calls).catalog := by
  refine run_induction (P := fun s => newCatalog s.catalog.snapshot = .ok s.catalog) hs ?_ calls
  intro s s' h hstep
  obtain ⟨c, hstep⟩ := hstep
  cases hstep with
  | splitCommitted r candidate hr hstate hcandidate => exact newCatalog_snapshot hcandidate
  | migrationCommitted m d candidate hm hstate hd href hgeneration hsource hcandidate =>
    exact newCatalog_snapshot hcandidate
  | _ => exact h

/-! ### Sizes -/

/-- The bytes of a descriptor. -/
def RangeDescriptor.size (d : RangeDescriptor) : ℕ :=
  32 + d.startKey.key.length + d.endKey.key.length + 16 * d.replicas.length

theorem RangeDescriptor.length_encode (d : RangeDescriptor) : d.encode.length = d.size := by
  have hreplicas : (d.replicas.flatMap ReplicaDescriptor.encode).length =
      16 * d.replicas.length := by
    simp [length_flatMap, ReplicaDescriptor.encode, length_putLE, mul_comm]
  simp only [encode, size, length_append, length_putLE, length_cons, length_nil, hreplicas]
  ring

theorem Catalog.length_body (c : Catalog) :
    c.body.length = 28 + 8 * c.nodes.length + (c.ranges.map size).sum := by
  have hnodes : (c.nodes.flatMap fun id => putLE 8 id.toNat).length = 8 * c.nodes.length := by
    simp [length_flatMap, length_putLE, mul_comm]
  have hranges : (c.ranges.flatMap RangeDescriptor.encode).length = (c.ranges.map size).sum := by
    rw [length_flatMap]
    exact congrArg List.sum (map_congr_left fun d _ => d.length_encode)
  simp only [body, headerBytes, fieldBytes, magic, length_append, length_putLE, length_cons,
    length_nil, hnodes, hranges]
  ring

/-- What a split adds to the catalog. -/
def SplitRecord.catalogGrowth (r : SplitRecord) : ℕ :=
  32 + 2 * r.splitKey.length + 16 * r.left.replicas.length

theorem SplitRecord.Divides.size (h : r.Divides d) :
    r.left.size + r.right.size = d.size + r.catalogGrowth := by
  have hreplicas : r.left.replicas = d.replicas := by rw [h.left]
  rw [catalogGrowth, hreplicas, h.left, h.right]
  simp only [RangeDescriptor.size]
  ring

/-! ### The new catalog -/

/-- The parent in the list of ranges, and the children in its place. -/
theorem splitRanges (hs : s.catalog.WellFormed) (hd : d ∈ s.catalog.ranges) (hdiv : r.Divides d) :
    ∃ before after, s.catalog.ranges = before ++ d :: after ∧
      s.catalog.ranges.flatMap (replaceParent r) = before ++ r.left :: r.right :: after := by
  obtain ⟨before, after, hranges⟩ := append_of_mem hd
  have hparent : r.parent.rangeID = d.rangeID := by rw [hdiv.parent]; rfl
  have hids := hs.ids
  rw [hranges, map_append, map_cons] at hids
  obtain ⟨-, hcons, hdisjoint⟩ := nodup_append.mp hids
  have hother : ∀ l : List RangeDescriptor, (∀ x ∈ l, x.rangeID ≠ d.rangeID) →
      l.flatMap (replaceParent r) = l := by
    intro l hl
    induction l with
    | nil => rfl
    | cons x l ih =>
      rw [flatMap_cons, ih fun y hy => hl y (mem_cons_of_mem _ hy), replaceParent,
        if_neg (by rw [hparent]; exact hl x mem_cons_self)]
      rfl
  refine ⟨before, after, hranges, ?_⟩
  rw [hranges, flatMap_append, flatMap_cons, hother before, hother after, replaceParent,
    if_pos hparent.symm]
  · rfl
  · intro x hx heq
    exact (nodup_cons.mp hcons).1 (heq ▸ mem_map_of_mem hx)
  · intro x hx
    exact hdisjoint _ (mem_map_of_mem hx) _ mem_cons_self

theorem SplitRecord.Divides.valid_left (h : r.Divides d) (hd : d.Valid)
    (hid : r.left.rangeID ≠ 0) (hkey : r.splitKey.length ≤ Storage.maxUserKeySize) :
    r.left.Valid := by
  rw [h.left]
  exact
    { hd with
      rangeID := hid
      generation := one_ne_zero
      finish := fun hfalse => absurd hfalse (by simp)
      endSize := hkey
      interval := fun (hstart : d.startKey.unbounded = false) _ =>
        h.inside.1.resolve_left (by simp [hstart]) }

theorem SplitRecord.Divides.valid_right (h : r.Divides d) (hd : d.Valid)
    (hid : r.right.rangeID ≠ 0) (hkey : r.splitKey.length ≤ Storage.maxUserKeySize) :
    r.right.Valid := by
  rw [h.right]
  exact
    { hd with
      rangeID := hid
      generation := one_ne_zero
      start := fun hfalse => absurd hfalse (by simp)
      startSize := hkey
      interval := fun _ (hend : d.endKey.unbounded = false) =>
        h.inside.2.resolve_left (by simp [hend]) }

variable {before after : List RangeDescriptor}

/-- The children follow one another, and the neighbours of the parent. -/
theorem SplitRecord.Divides.chain (h : r.Divides d)
    (hchain : (before ++ d :: after).IsChain (Adjacent allowPartial)) :
    (before ++ r.left :: r.right :: after).IsChain (Adjacent allowPartial) := by
  have hmiddle : Adjacent allowPartial r.left r.right := by
    rw [h.left, h.right]
    exact ⟨rfl, rfl, le_refl _, fun _ => rfl⟩
  rw [isChain_append] at hchain ⊢
  obtain ⟨hbefore, hafter, hjoin⟩ := hchain
  refine ⟨hbefore, isChain_cons_cons.mpr ⟨hmiddle, ?_⟩, ?_⟩
  · rcases after with - | ⟨q, after⟩
    · exact isChain_singleton _
    · obtain ⟨hdq, htail⟩ := isChain_cons_cons.mp hafter
      refine isChain_cons_cons.mpr ⟨?_, htail⟩
      rw [h.right]
      exact { hdq with }
  · intro p hp q hq
    obtain rfl : r.left = q := by simpa using hq
    have hpd := hjoin p hp d (by simp)
    rw [h.left]
    exact { hpd with }

theorem SplitRecord.Divides.fullSpan (h : r.Divides d)
    (hfull : fullSpan (before ++ d :: after) = true) :
    fullSpan (before ++ r.left :: r.right :: after) = true := by
  have hstart : r.left.startKey = d.startKey := by rw [h.left]
  have hend : r.right.endKey = d.endKey := by rw [h.right]
  unfold Multiraft.fullSpan at hfull ⊢
  simp only [Bool.and_eq_true] at hfull ⊢
  refine ⟨?_, ?_⟩
  · rcases before with - | ⟨p, before⟩
    · simpa [hstart] using hfull.1
    · simpa using hfull.1
  · rcases after with - | ⟨q, after⟩
    · simpa [hend] using hfull.2
    · simpa using hfull.2

theorem Sound.child_ne_zero (hs : Sound c₀ s) {id : ℕ} (hid : id ∈ s.allocatedRanges) : id ≠ 0 :=
  (hs.childrenPos id hid).ne'

/-- The catalog of a split takes its children instead of the parent. -/
theorem splitBootstrap_body (hs : s.catalog.WellFormed)
    (hsnapshot : newCatalog s.catalog.snapshot = .ok s.catalog) (hd : d ∈ s.catalog.ranges)
    (hdiv : r.Divides d) :
    (s.splitBootstrap r).arrange.body.length = s.catalog.body.length + r.catalogGrowth := by
  obtain ⟨before, after, hranges, hnew⟩ := splitRanges hs hd hdiv
  obtain ⟨hsame, -⟩ := newCatalog_ok_iff.mp hsnapshot
  set b := s.splitBootstrap r with hb
  have hbranges : b.ranges = before ++ r.left :: r.right :: after := hnew
  have hsum : (b.arrange.ranges.map size).sum = (b.ranges.map size).sum := by
    rw [(b.arrange_perm.map size).sum_nat, map_map]
    refine congrArg List.sum (map_congr_left fun x _ => ?_)
    show x.sortReplicas.size = x.size
    simp only [size, x.sortReplicas_perm.length_eq]
    rfl
  have hnodes : b.arrange.nodes.length = s.catalog.nodes.length := by
    show s.catalog.snapshot.arrange.nodes.length = _
    rw [← hsame]
  have hsize := hdiv.size
  rw [Catalog.length_body, Catalog.length_body, hsum, hnodes, hbranges, hranges]
  simp only [map_append, map_cons, sum_append, sum_cons]
  omega

section Bootstrap

variable (hs : Sound c₀ s) (hd : d ∈ s.catalog.ranges) (hdiv : r.Divides d)

include hs hd hdiv

theorem Sound.splitBootstrap_mem {x : RangeDescriptor} (hx : x ∈ (s.splitBootstrap r).ranges) :
    x = r.left ∨ x = r.right ∨ x ∈ s.catalog.ranges := by
  obtain ⟨before, after, hranges, hnew⟩ := splitRanges hs.catalog hd hdiv
  have hx' : x ∈ before ++ r.left :: r.right :: after := hnew ▸ hx
  rw [hranges]
  simp only [mem_append, mem_cons] at hx' ⊢
  tauto

/-- The children have the replicas of the parent. -/
theorem Sound.splitBootstrap_replicas {x : RangeDescriptor}
    (hx : x ∈ (s.splitBootstrap r).ranges) : ∃ y ∈ s.catalog.ranges, x.replicas = y.replicas := by
  rcases hs.splitBootstrap_mem hd hdiv hx with rfl | rfl | hx
  · exact ⟨d, hd, by rw [hdiv.left]⟩
  · exact ⟨d, hd, by rw [hdiv.right]⟩
  · exact ⟨x, hx, rfl⟩

theorem Sound.splitBootstrap_chain (hold : s.catalog.ranges.IsChain (Adjacent allowPartial)) :
    (s.splitBootstrap r).ranges.IsChain (Adjacent allowPartial) := by
  obtain ⟨before, after, hranges, hnew⟩ := splitRanges hs.catalog hd hdiv
  rw [hranges] at hold
  show (s.catalog.ranges.flatMap (replaceParent r)).IsChain _
  rw [hnew]
  exact hdiv.chain hold

variable (hr : r ∈ s.splits)

include hr

theorem Sound.splitBootstrap_valid (hkey : r.splitKey.length ≤ Storage.maxUserKeySize) :
    ∀ x ∈ (s.splitBootstrap r).ranges, x.Valid := by
  have hchild : ∀ id ∈ [r.left.rangeID, r.right.rangeID], id ≠ 0 :=
    fun id hid => hs.child_ne_zero (mem_flatMap.mpr ⟨r, hr, hid⟩)
  intro x hx
  rcases hs.splitBootstrap_mem hd hdiv hx with rfl | rfl | hx
  · exact hdiv.valid_left (hs.catalog.valid d hd) (hchild _ (by simp)) hkey
  · exact hdiv.valid_right (hs.catalog.valid d hd) (hchild _ (by simp)) hkey
  · exact hs.catalog.valid x hx

/-- The identities of the children are new. -/
theorem Sound.splitBootstrap_ids (hopen : r.state.terminal = false) :
    ((s.splitBootstrap r).ranges.map rangeID).Nodup := by
  obtain ⟨before, after, hranges, hnew⟩ := splitRanges hs.catalog hd hdiv
  have hdistinct : r.left.rangeID ≠ r.right.rangeID := by
    simpa using (nodup_flatMap.mp hs.children).1 r hr
  have hsub : (before ++ after).Sublist s.catalog.ranges :=
    hranges ▸ Sublist.append_left (sublist_cons_self d after) before
  have hfresh : ∀ id ∈ [r.left.rangeID, r.right.rangeID], id ∉ (before ++ after).map rangeID := by
    intro id hid hmem
    obtain ⟨x, hx, heq⟩ := mem_map.mp hmem
    exact (hs.unborn r hr hopen id hid).1 x (hsub.subset hx) heq
  have hperm : (s.splitBootstrap r).ranges.Perm (r.left :: r.right :: (before ++ after)) :=
    (Perm.of_eq hnew).trans (perm_middle.trans (perm_middle.cons _))
  refine ((hperm.map _).nodup_iff).mpr ?_
  rw [map_cons, map_cons, nodup_cons, nodup_cons, mem_cons, not_or]
  exact ⟨⟨hdistinct, hfresh _ (by simp)⟩, hfresh _ (by simp), hs.catalog.ids.sublist (hsub.map _)⟩

end Bootstrap

/-- `NewCatalog` accepts the children of a split under way, but for the limits. -/
theorem Sound.splitBootstrap_ok_iff (hs : Sound c₀ s)
    (hsnapshot : newCatalog s.catalog.snapshot = .ok s.catalog) (hr : r ∈ s.splits)
    (hopen : r.state.terminal = false) :
    (∃ candidate, newCatalog (s.splitBootstrap r) = .ok candidate) ↔
      s.catalog.generation + 1 < 2 ^ 64 ∧ s.catalog.ranges.length < maxCatalogRanges ∧
        r.splitKey.length ≤ Storage.maxUserKeySize ∧
        s.catalog.body.length + r.catalogGrowth ≤ maxCatalogBytes - 4 := by
  obtain ⟨d, hd, hdiv⟩ := hs.divides r hr hopen
  obtain ⟨before, after, hranges, hnew⟩ := splitRanges hs.catalog hd hdiv
  obtain ⟨hsame, hold⟩ := newCatalog_ok_iff.mp hsnapshot
  set b := s.splitBootstrap r with hb
  have hbranges : b.ranges = before ++ r.left :: r.right :: after := hnew
  have hcount : b.ranges.length = s.catalog.ranges.length + 1 := by
    rw [hbranges, hranges]
    simp only [length_append, length_cons]
    omega
  have hbody : b.arrange.body.length = s.catalog.body.length + r.catalogGrowth :=
    splitBootstrap_body hs.catalog hsnapshot hd hdiv
  constructor
  · rintro ⟨candidate, hcandidate⟩
    obtain ⟨-, hacc⟩ := newCatalog_ok_iff.mp hcandidate
    refine ⟨?_, ?_, ?_, ?_⟩
    · have hne : wrap64 (s.catalog.generation + 1) ≠ 0 := hacc.generation
      have heq := (wrap64_succ hs.generation).resolve_left hne
      rw [← heq]
      exact Nat.mod_lt _ (by norm_num)
    · have := hacc.count.2
      omega
    · have hleft := (hacc.valid r.left (by rw [hbranges]; simp)).1.endSize
      rw [hdiv.left] at hleft
      exact hleft
    · rw [← hbody]
      exact hacc.size
  · rintro ⟨hgeneration, hroom, hkey, hsize⟩
    have hvalid := hs.splitBootstrap_valid hd hdiv hr hkey
    have hchain : b.ranges.IsChain (Adjacent b.allowPartial) := by
      refine hs.splitBootstrap_chain hd hdiv ?_
      rw [hsame]
      exact hold.chain
    -- the children stand where the order of the ranges wants them
    have harranged : b.arrange.ranges = b.ranges := by
      have hsort : b.ranges.map sortReplicas = b.ranges := by
        refine (map_congr_left fun x hx => ?_).trans (map_id _)
        obtain ⟨y, hy, hxy⟩ := hs.splitBootstrap_replicas hd hdiv hx
        exact sortReplicas_eq (hxy ▸ hs.catalog.replicas y hy)
      show (b.ranges.map sortReplicas).insertionSort _ = b.ranges
      rw [hsort]
      exact insertionSort_of_chain hvalid hchain
    refine ⟨b.arrange, newCatalog_ok_iff.mpr ⟨rfl, ?_⟩⟩
    exact
      { generation := by
          show wrap64 (s.catalog.generation + 1) ≠ 0
          rw [wrap64, Nat.mod_eq_of_lt hgeneration]
          exact Nat.succ_ne_zero _
        nodes := hold.nodes
        factor := hold.factor
        count := ⟨by rw [hbranges]; simp, by omega⟩
        distinct := hold.distinct
        valid := by
          intro x hx
          obtain ⟨y, hy, hxy⟩ := hs.splitBootstrap_replicas hd hdiv hx
          rw [hxy, show b.arrange.nodes = s.catalog.snapshot.arrange.nodes from rfl, ← hsame]
          exact ⟨hvalid x hx, hs.catalog.factor y hy, hs.catalog.hosted y hy⟩
        ids := by rw [harranged]; exact hs.splitBootstrap_ids hd hdiv hr hopen
        chain := by rw [harranged]; exact hchain
        full := by
          intro hgaps
          have hf := hold.full hgaps
          rw [← hsame, hranges] at hf
          rw [harranged, hbranges]
          exact hdiv.fullSpan hf
        size := by rw [hbody]; exact hsize }

/-! ### The new lineage -/

/-- No edge of the lineage names an older generation of the range as a child. -/
def SplitRecord.Unmigrated (r : SplitRecord) (s : MetadataState) : Prop :=
  ∀ e ∈ s.lineage, ∀ c ∈ [e.leftChild, e.rightChild], c.rangeID = r.parent.rangeID →
    c.generation = r.parent.generation

/-- No chain of splits that leads to the range uses up the depth of the lineage. -/
def SplitRecord.Shallow (r : SplitRecord) (s : MetadataState) : Prop :=
  ∀ e ∈ s.lineage, ∀ k, Path s.view k e.parent r.parent → k < maxLineageDepth

section Lineage

variable {candidate : Catalog} {ref : RangeRef} {e : LineageRecord}

theorem splitCommitted_lineage :
    (s.splitCommitted r candidate).lineage = s.lineage ++ [r.lineage candidate.generation] :=
  rfl

/-- An edge of the lineage shows its children. -/
theorem Traced.view_edge (h : Traced c₀ s) (hs : Sound c₀ s)
    (he : e ∈ s.lineage) : s.view e.parent = .fork e.leftChild e.rightChild := by
  rw [view_retired (hs.retired e he).2, (edge?_eq_some h.distinct).mpr ⟨he, rfl⟩]

section Divided

variable (hs : Sound c₀ s) (hd : d ∈ s.catalog.ranges) (hdiv : r.Divides d)
  (hcandidate : newCatalog (s.splitBootstrap r) = .ok candidate)

include hs hd hdiv hcandidate

/-- The cut-over changes what a reference shows only for the three ranges of the split. -/
theorem Sound.view_splitCommitted (hparent : ref.rangeID ≠ d.rangeID)
    (hleft : ref.rangeID ≠ r.left.rangeID) (hright : ref.rangeID ≠ r.right.rangeID) :
    (s.splitCommitted r candidate).view ref = s.view ref := by
  have hranges : ∀ {x}, x ∈ candidate.ranges ↔ _ :=
    splitCandidate_mem hs.catalog hd hdiv hcandidate
  have hwf := newCatalog_wellFormed hcandidate
  have hfind : (s.splitCommitted r candidate).catalog.ranges.find? (·.rangeID = ref.rangeID) =
      s.catalog.ranges.find? (·.rangeID = ref.rangeID) := by
    show candidate.ranges.find? _ = _
    refine Option.ext fun x => ?_
    rw [hwf.find?_rangeID, hs.catalog.find?_rangeID, hranges]
    constructor
    · rintro ⟨rfl | rfl | ⟨hx, -⟩, hid⟩
      · exact absurd hid.symm hleft
      · exact absurd hid.symm hright
      · exact ⟨hx, hid⟩
    · rintro ⟨hx, hid⟩
      exact ⟨.inr (.inr ⟨hx, fun heq => hparent (hid.symm.trans heq)⟩), hid⟩
  have hcurrent : (s.splitCommitted r candidate).current? ref = s.current? ref := by
    simp only [current?, hfind]
  have hedge : (s.splitCommitted r candidate).edge? ref = s.edge? ref := by
    unfold edge?
    rw [splitCommitted_lineage, find?_append]
    have hnone : [r.lineage candidate.generation].find? (fun e => decide (e.parent = ref)) =
        none := by
      refine find?_eq_none.mpr fun e he => ?_
      rw [mem_singleton.mp he]
      simp only [decide_eq_true_eq]
      intro heq
      have hne : r.parent = ref := heq
      rw [hdiv.parent] at hne
      exact hparent (hne ▸ rfl)
    rw [hnone, Option.or_none]
  unfold view
  rw [hcurrent, hedge]

theorem Sound.view_splitCommitted_child :
    (s.splitCommitted r candidate).view r.left.ref = .leaf r.left ∧
      (s.splitCommitted r candidate).view r.right.ref = .leaf r.right := by
  have hranges : ∀ {x}, x ∈ candidate.ranges ↔ _ :=
    splitCandidate_mem hs.catalog hd hdiv hcandidate
  have hwf : (s.splitCommitted r candidate).catalog.WellFormed :=
    newCatalog_wellFormed hcandidate
  exact ⟨view_current hwf (hranges.mpr (.inl rfl)) rfl (le_refl _),
    view_current hwf (hranges.mpr (.inr (.inl rfl))) rfl (le_refl _)⟩

variable (hr : r ∈ s.splits) (hstate : r.state = .fenced)

include hr hstate

/-- The parent leads to its children, in the generation of the split alone. -/
theorem Sound.view_splitCommitted_parent (hid : ref.rangeID = d.rangeID) :
    (s.splitCommitted r candidate).view ref =
      if ref = d.ref then .fork r.left.ref r.right.ref else .bare := by
  have hsound := hs.splitCommitted hr hstate hcandidate
  have hgone : ∀ x ∈ (s.splitCommitted r candidate).catalog.ranges, x.rangeID ≠ ref.rangeID := by
    have hlast := (hsound.retired (r.lineage candidate.generation)
      (mem_append_right _ (mem_singleton_self _))).2
    intro x hx
    rw [hid]
    have := hlast x hx
    rwa [show (r.lineage candidate.generation).parent = r.parent from rfl, hdiv.parent] at this
  have hold : s.edge? ref = none := by
    refine find?_eq_none.mpr fun e he => ?_
    simp only [decide_eq_true_eq]
    rintro rfl
    exact (hs.retired e he).2 d hd hid.symm
  rw [view_retired hgone]
  have hedge : (s.splitCommitted r candidate).edge? ref =
      if ref = d.ref then some (r.lineage candidate.generation) else none := by
    unfold edge? at hold ⊢
    rw [splitCommitted_lineage, find?_append, hold, Option.none_or]
    have hparent : (r.lineage candidate.generation).parent = d.ref := hdiv.parent
    by_cases heq : ref = d.ref
    · rw [if_pos heq, find?_cons_of_pos]
      simp [hparent, heq]
    · rw [if_neg heq, find?_cons_of_neg, find?_nil]
      simp [hparent, Ne.symm heq]
  rw [hedge]
  split_ifs <;> rfl

/-- The children are in no tree yet, so a reference inside one still shows what it did. -/
theorem Sound.view_splitCommitted_grown {height : ℕ} {nodes : List RangeRef}
    {leaves : List RangeDescriptor} (hgrows : Grows s.view height ref nodes leaves)
    (hne : ref.rangeID ≠ d.rangeID) : (s.splitCommitted r candidate).view ref = s.view ref := by
  have hunborn : ∀ id ∈ [r.left.rangeID, r.right.rangeID], ref.rangeID ≠ id := by
    intro id hid heq
    obtain ⟨hranges, hlineage⟩ := hs.unborn r hr (by rw [hstate]; rfl) id hid
    cases hgrows with
    | leaf hview =>
      obtain ⟨hx, hxid, -⟩ := view_leaf hview
      exact hranges _ hx (hxid.trans heq)
    | fork hview =>
      obtain ⟨e, he, hparent, -⟩ := view_fork hview
      exact hlineage e he (hparent ▸ heq)
  exact hs.view_splitCommitted hd hdiv hcandidate hne (hunborn _ (by simp)) (hunborn _ (by simp))

variable (h : Traced c₀ s)

include h

/-- When the parent occurs in one generation only, the tree of an old edge grows again unless
the parent is as deep in it as a tree may be. -/
theorem Traced.grows_splitCommitted_iff (hunmigrated : r.Unmigrated s) (he : e ∈ s.lineage) :
    (∃ nodes leaves, Grows (s.splitCommitted r candidate).view maxLineageDepth e.parent
      nodes leaves) ↔ ∀ k, Path s.view k e.parent r.parent → k < maxLineageDepth := by
  obtain ⟨nodes, leaves, hgrows⟩ := h.grown e he
  obtain ⟨hleft, hright⟩ := hs.view_splitCommitted_child hd hdiv hcandidate
  rw [hdiv.parent]
  refine hgrows.graft (fun y hy hne => ?_) (view_current hs.catalog hd rfl (le_refl _)) ?_
    hleft hright
  · obtain ⟨_, _, hsub, -⟩ := hgrows.subtree hy
    refine hs.view_splitCommitted_grown hd hdiv hcandidate hr hstate hsub fun hid => ?_
    rcases hgrows.child hy with rfl | ⟨z, -, a, b, hfork, hyab⟩
    · exact (hs.retired e he).2 d hd hid.symm
    · obtain ⟨e', he', -, rfl, rfl⟩ := view_fork hfork
      have hgen := hunmigrated e' he' y (by simpa using hyab) (by rw [hdiv.parent]; exact hid)
      rw [hdiv.parent] at hgen
      refine hne ?_
      show (⟨y.rangeID, y.generation⟩ : RangeRef) = ⟨d.rangeID, d.generation⟩
      rw [hid, hgen]
      rfl
  · rw [hs.view_splitCommitted_parent hd hdiv hcandidate hr hstate rfl, if_pos rfl]

/-- A child in another generation of the parent would show nothing after the cut-over. -/
theorem Traced.unmigrated_of_grows (hgrown : ∀ e ∈ s.lineage, ∃ nodes leaves,
      Grows (s.splitCommitted r candidate).view maxLineageDepth e.parent nodes leaves) :
    r.Unmigrated s := by
  intro e he c hc hid
  rw [hdiv.parent] at hid ⊢
  obtain ⟨_, _, hold⟩ := h.grown e he
  obtain ⟨_, _, hnew⟩ := hgrown e he
  have hview := hs.view_splitCommitted_grown hd hdiv hcandidate hr hstate hold
    fun heq => (hs.retired e he).2 d hd heq.symm
  rw [h.view_edge hs he] at hview
  have hshown : (s.splitCommitted r candidate).view c ≠ .bare := by
    cases hnew with
    | leaf hleaf => rw [hview] at hleaf; cases hleaf
    | fork hfork hl hr' =>
      rw [hview] at hfork
      cases hfork
      rcases mem_pair.mp hc with rfl | rfl
      · exact hl.root_ne_bare
      · exact hr'.root_ne_bare
  rw [hs.view_splitCommitted_parent hd hdiv hcandidate hr hstate hid] at hshown
  by_contra hne
  exact hshown (if_neg fun heq => hne (by rw [heq]))

/-- Every edge has its tree again, the new one as well. -/
theorem Traced.grows_splitCommitted (hunmigrated : r.Unmigrated s) (hshallow : r.Shallow s) :
    ∀ e ∈ (s.splitCommitted r candidate).lineage, ∃ nodes leaves,
      Grows (s.splitCommitted r candidate).view maxLineageDepth e.parent nodes leaves := by
  intro e he
  rcases mem_append.mp he with he | he
  · exact (h.grows_splitCommitted_iff hs hd hdiv hcandidate hr hstate hunmigrated he).mpr
      (hshallow e he)
  · obtain rfl := mem_singleton.mp he
    obtain ⟨hleft, hright⟩ := hs.view_splitCommitted_child hd hdiv hcandidate
    have hfork : (s.splitCommitted r candidate).view d.ref = _ :=
      hs.view_splitCommitted_parent hd hdiv hcandidate hr hstate rfl
    rw [if_pos rfl, ← hdiv.parent] at hfork
    exact ⟨_, _, Grows.mono (.fork hfork (.leaf hleft) (.leaf hright))
      (show 0 + 1 ≤ maxLineageDepth by decide)⟩

omit hcandidate in
theorem Traced.simple_splitCommitted : ∀ e ∈ (s.splitCommitted r candidate).lineage,
    e.leftChild ≠ e.rightChild ∧ e.leftChild ≠ e.parent ∧ e.rightChild ≠ e.parent := by
  intro e he
  rcases mem_append.mp he with he | he
  · exact h.simple e he
  · obtain rfl := mem_singleton.mp he
    have hdistinct : r.left.rangeID ≠ r.right.rangeID := by
      simpa using (nodup_flatMap.mp hs.children).1 r hr
    have hfresh := hs.unborn r hr (by rw [hstate]; rfl)
    show r.left.ref ≠ r.right.ref ∧ r.left.ref ≠ r.parent ∧ r.right.ref ≠ r.parent
    rw [hdiv.parent]
    exact ⟨fun heq => hdistinct (congrArg RangeRef.rangeID heq),
      fun heq => (hfresh r.left.rangeID (by simp)).1 d hd (congrArg RangeRef.rangeID heq).symm,
      fun heq => (hfresh r.right.rangeID (by simp)).1 d hd (congrArg RangeRef.rangeID heq).symm⟩

end Divided

/-- **The lineage stays valid** exactly when the parent has not been migrated since it
was created by a split, and is not too deep in the lineage. -/
theorem Traced.validateLineage_iff (h : Traced c₀ s) (hs : Sound c₀ s) (hc₀ : c₀.WellFormed)
    (hr : r ∈ s.splits) (hstate : r.state = .fenced)
    (hcandidate : newCatalog (s.splitBootstrap r) = .ok candidate) :
    (s.splitCommitted r candidate).validateLineage = .ok () ↔ r.Unmigrated s ∧ r.Shallow s := by
  obtain ⟨d, hd, hdiv⟩ := hs.divides r hr (by rw [hstate]; rfl)
  have hsound := hs.splitCommitted hr hstate hcandidate
  refine (@validateEdges_ok_iff (s.splitCommitted r candidate) _).trans ⟨fun hedges => ?_, ?_⟩
  · have hgrown : ∀ e ∈ s.lineage, ∃ nodes leaves,
        Grows (s.splitCommitted r candidate).view maxLineageDepth e.parent nodes leaves := by
      intro e he
      have he' : e ∈ (s.splitCommitted r candidate).lineage := mem_append_left _ he
      obtain ⟨ds, hds⟩ := (hedges e he').2
      exact grows_of_resolve (hsound.retired e he').2 hds
    have hunmigrated := h.unmigrated_of_grows hs hd hdiv hcandidate hr hstate hgrown
    exact ⟨hunmigrated, fun e he => (h.grows_splitCommitted_iff hs hd hdiv hcandidate hr hstate
      hunmigrated he).mp (hgrown e he)⟩
  · rintro ⟨hunmigrated, hshallow⟩
    have hsimple : ∀ e ∈ (s.splitCommitted r candidate).lineage, _ :=
      h.simple_splitCommitted hs hd hdiv hr hstate
    have hgrown := h.grows_splitCommitted hs hd hdiv hcandidate hr hstate hunmigrated hshallow
    have htraced := h.splitCommitted hs hr hstate hcandidate hsimple hgrown
    intro e he
    obtain ⟨_, _, hgrows⟩ := hgrown e he
    obtain ⟨ds, hds, -⟩ := htraced.resolve_ok hsound hc₀ hgrows
    exact ⟨hsimple e he, ds, hds⟩

end Lineage

/-! ### The encoded metadata -/

/-- The bytes of the metadata, for a control of the given size. -/
def MetadataState.imageSize (s : MetadataState) (control : ℕ) : ℕ :=
  60 + s.catalog.body.length + (s.splits.map fun r => r.encode.length).sum +
    (s.migrations.map fun m => m.encode.length).sum +
    (s.lineage.map fun e => e.encode.length).sum + control

theorem length_flatMap_insertionSort {α : Type*} (le : α → α → Prop) [DecidableRel le]
    (f : α → Bytes) (l : List α) :
    ((l.insertionSort le).flatMap f).length = (l.map fun x => (f x).length).sum := by
  rw [((perm_insertionSort le l).flatMap_right f).length_eq, length_flatMap]

theorem MetadataState.length_image (s : MetadataState) {catalog : Bytes} (control : Bytes)
    (hcatalog : catalog.length = s.catalog.body.length + 4) :
    (s.image catalog control).length = s.imageSize control.length := by
  simp only [image, metadataMagic, length_append, length_putLE, length_cons,
    length_nil, length_flatMap_insertionSort, hcatalog, imageSize]
  ring

variable {crc32 : Bytes → ℕ} {control : RebalanceControl}

theorem encodeMetadata_ok_iff {bytes : Bytes} (hcontrol : control.encode = .ok bytes) :
    (∃ image, encodeMetadata crc32 s control = .ok image) ↔
      s.splits.length ≤ maxSplitRecords ∧ s.migrations.length ≤ maxMigrationRecords ∧
        s.lineage.length ≤ maxSplitRecords ∧ s.catalog.body.length ≤ maxCatalogBytes - 4 ∧
        s.imageSize bytes.length ≤ Raft.maxCommandBytes := by
  unfold encodeMetadata
  split
  · rename_i hcounts
    simp only [reduceCtorEq, exists_false, false_iff]
    omega
  rename_i hcounts
  unfold Catalog.encode
  by_cases hbody : s.catalog.body.length > maxCatalogBytes - 4
  · simp only [if_pos hbody, reduceCtorEq, exists_false, false_iff]
    omega
  simp only [if_neg hbody, hcontrol]
  rw [s.length_image bytes (by rw [length_append, length_putLE])]
  split
  · rename_i hsize
    simp only [reduceCtorEq, exists_false, false_iff]
    omega
  · rename_i hsize
    simp only [Except.ok.injEq, exists_eq', true_iff]
    omega

/-- What a cut-over adds to the encoded metadata: the second child in the catalog and an
edge of the lineage. -/
def SplitRecord.imageGrowth (r : SplitRecord) : ℕ := r.catalogGrowth + 68 + r.splitKey.length

variable {candidate : Catalog}

theorem Sound.imageSize_splitCommitted (hs : Sound c₀ s) (hr : r ∈ s.splits)
    (hbody : candidate.body.length = s.catalog.body.length + r.catalogGrowth) (control : ℕ) :
    (s.splitCommitted r candidate).imageSize control = s.imageSize control + r.imageGrowth := by
  have hsplits : ((s.splitCommitted r candidate).splits.map fun r => r.encode.length) =
      s.splits.map fun r => r.encode.length := by
    have hid : (r.cutOver candidate).splitID = r.splitID := rfl
    refine Keyed.map_replace hs.splitIDs.nodup hr hid ?_
    simp only [SplitRecord.encode, SplitRecord.headerBytes, length_append, length_putLE]
  have hedge : (r.lineage candidate.generation).encode.length = 68 + r.splitKey.length := by
    simp only [LineageRecord.encode, SplitRecord.lineage, length_append,
      length_putLE, flatMap_cons, flatMap_nil, length_nil]
    ring
  unfold imageSize
  rw [hsplits, splitCommitted_lineage, map_append, sum_append, map_singleton, sum_singleton, hedge]
  show 60 + candidate.body.length + _ + (s.migrations.map fun m => m.encode.length).sum + _ + _ = _
  rw [hbody, SplitRecord.imageGrowth]
  ring

/-! ### Committing a fenced split -/

/-- All that stands between a fenced split and its commit. -/
structure Committable (s : MetadataState) (r : SplitRecord) (control : ℕ) : Prop where
  generation : s.catalog.generation + 1 < 2 ^ 64
  room : s.catalog.ranges.length < maxCatalogRanges
  key : r.splitKey.length ≤ Storage.maxUserKeySize
  catalogSize : s.catalog.body.length + r.catalogGrowth ≤ maxCatalogBytes - 4
  unmigrated : r.Unmigrated s
  shallow : r.Shallow s
  records : s.splits.length ≤ maxSplitRecords ∧ s.migrations.length ≤ maxMigrationRecords ∧
    s.lineage.length < maxSplitRecords
  size : s.imageSize control + r.imageGrowth ≤ Raft.maxCommandBytes

/-- **A fenced split whose children have caught up commits, and the result is encoded,
exactly when it is committable.** -/
theorem commit_fenced_iff {b : Bootstrap} {s₀ : MetadataState} (hb : newCatalog b = .ok c₀)
    (hfits : c₀.Fits) (hs₀ : newMetadataState c₀ = .ok s₀) (calls : List MetadataCall)
    {id : ℕ} (hr : (s₀.run calls).split? id = some r) (hstate : r.state = .fenced)
    (hfence : 0 < r.fenceIndex) (hleft : r.leftReplayThrough = r.fenceIndex)
    (hright : r.rightReplayThrough = r.fenceIndex) (crc32 : Bytes → ℕ)
    {control : RebalanceControl} {bytes : Bytes} (hcontrol : control.encode = .ok bytes) :
    (∃ r' s', (s₀.run calls).commit id r.epoch (s₀.run calls).catalog.generation =
        .ok (r', s') ∧ ∃ image, encodeMetadata crc32 s' control = .ok image) ↔
      Committable (s₀.run calls) r bytes.length := by
  have hc₀ := newCatalog_wellFormed hb
  have hsound₀ := newMetadataState_sound hc₀ hfits hs₀
  have htraced := (newMetadataState_traced hs₀).run hsound₀ calls
  have hsound := hsound₀.run calls
  have hsnapshot := run_snapshot (show newCatalog s₀.catalog.snapshot = .ok s₀.catalog by
      rw [newMetadataState_catalog hs₀]; exact newCatalog_snapshot hb) calls
  generalize s₀.run calls = s at *
  have hmem := (split?_some hr).1
  have hopen : r.state.terminal = false := by rw [hstate]; rfl
  obtain ⟨d, hd, hdiv⟩ := hsound.divides r hmem hopen
  have haccept := hsound.splitBootstrap_ok_iff hsnapshot hmem hopen
  have hbody : ∀ {candidate}, newCatalog (s.splitBootstrap r) = .ok candidate →
      candidate.body.length = s.catalog.body.length + r.catalogGrowth := by
    intro candidate hcandidate
    obtain ⟨rfl, -⟩ := newCatalog_ok_iff.mp hcandidate
    exact splitBootstrap_body hsound.catalog hsnapshot hd hdiv
  have hcounts : ∀ {candidate : Catalog},
      (s.splitCommitted r candidate).splits.length = s.splits.length ∧
        (s.splitCommitted r candidate).lineage.length = s.lineage.length + 1 :=
    ⟨length_map _, length_append⟩
  constructor
  · rintro ⟨r', s', hcommit, hencode⟩
    obtain ⟨x, candidate, hx, -, -, -, -, -, -, hcandidate, -, hlineage, -, rfl⟩ :=
      commit_ok_iff.mp hcommit
    obtain rfl : r = x := Option.some.inj (hr.symm.trans hx)
    obtain ⟨hgeneration, hroom, hkey, hsize⟩ := haccept.mp ⟨candidate, hcandidate⟩
    obtain ⟨hunmigrated, hshallow⟩ :=
      (htraced.validateLineage_iff hsound hc₀ hmem hstate hcandidate).mp hlineage
    obtain ⟨hsplits, hmigrations, hedges, -, himage⟩ :=
      (encodeMetadata_ok_iff hcontrol).mp hencode
    rw [hcounts.1] at hsplits
    rw [hcounts.2] at hedges
    rw [hsound.imageSize_splitCommitted hmem (hbody hcandidate)] at himage
    exact ⟨hgeneration, hroom, hkey, hsize, hunmigrated, hshallow,
      ⟨hsplits, hmigrations, hedges⟩, himage⟩
  · intro h
    obtain ⟨candidate, hcandidate⟩ :=
      haccept.mpr ⟨h.generation, h.room, h.key, h.catalogSize⟩
    have hlineage := (htraced.validateLineage_iff hsound hc₀ hmem hstate hcandidate).mpr
      ⟨h.unmigrated, h.shallow⟩
    have hedge : s.edge? r.parent = none := by
      refine find?_eq_none.mpr fun e he => ?_
      simp only [decide_eq_true_eq]
      intro heq
      refine (hsound.retired e he).2 d hd ?_
      rw [heq, hdiv.parent]
      rfl
    refine ⟨_, _, commit_ok_iff.mpr ⟨r, candidate, hr, rfl, hstate, rfl, hfence.ne',
      hleft, hright, hcandidate, hedge, hlineage, rfl, rfl⟩, ?_⟩
    refine (encodeMetadata_ok_iff hcontrol).mpr ⟨?_, h.records.2.1, ?_, ?_, ?_⟩
    · rw [hcounts.1]
      exact h.records.1
    · rw [hcounts.2]
      exact h.records.2.2
    · show candidate.body.length ≤ _
      rw [hbody hcandidate]
      exact h.catalogSize
    · rw [hsound.imageSize_splitCommitted hmem (hbody hcandidate)]
      exact h.size

/-- The split of a range that was never migrated. -/
theorem commit_fenced_pair :
    newMetadataState pair.arrange = .ok pairState ∧ ∃ r bytes,
      (pairState.run (fenceCalls 1 ⟨1, 1⟩ [5] 1)).split? 1 = some r ∧ r.state = .fenced ∧
      ({} : RebalanceControl).encode = .ok bytes ∧
      Committable (pairState.run (fenceCalls 1 ⟨1, 1⟩ [5] 1)) r bytes.length := by
  obtain ⟨bytes, hbytes⟩ : ∃ bytes, ({} : RebalanceControl).encode = .ok bytes := ⟨_, rfl⟩
  set s := pairState.run (fenceCalls 1 ⟨1, 1⟩ [5] 1) with hs
  have hfound : (s.split? 1).isSome = true := by decide +kernel
  obtain ⟨r, hr⟩ := Option.isSome_iff_exists.mp hfound
  have hfields : (s.split? 1).all (fun r => r.state = .fenced ∧ 0 < r.fenceIndex ∧
      r.leftReplayThrough = r.fenceIndex ∧ r.rightReplayThrough = r.fenceIndex ∧
      r.epoch = 1) = true := by decide +kernel
  have hcommit : (match s.commit 1 1 s.catalog.generation with
      | .ok (_, s') => (encodeMetadata (fun _ => 0) s' {}).toBool
      | .error _ => false) = true := by decide +kernel
  simp only [hr, Option.all_some, decide_eq_true_eq] at hfields
  obtain ⟨hstate, hfence, hleft, hright, hepoch⟩ := hfields
  refine ⟨pair_state, r, bytes, hr, hstate, hbytes, ?_⟩
  refine (commit_fenced_iff pair_catalog pair_fits pair_state _ hr hstate hfence hleft hright
    (fun _ => 0) hbytes).mp ?_
  rw [hepoch]
  rcases hresult : s.commit 1 1 s.catalog.generation with err | ⟨r', s'⟩
  · simp [hresult] at hcommit
  · rw [hresult] at hcommit
    dsimp only at hcommit
    rcases himage : encodeMetadata (fun _ => 0) s' {} with err | image
    · simp [himage, Except.toBool] at hcommit
    · exact ⟨r', s', rfl, image, himage⟩

/-- The left child of a split moves to the second node and is split in turn.  The edge of
the first split names the child in its first generation, so the lineage is refused and the
range stays fenced: the split can be neither committed nor aborted. -/
theorem moved_child_stays_fenced :
    newMetadataState pair.arrange = .ok pairState ∧
      let s := pairState.run (fenceCalls 1 ⟨1, 1⟩ [5] 1 ++ [.commit 1 1 1] ++
        migrateCalls 1 2 1 2 1 2 ++ fenceCalls 2 ⟨2, 2⟩ [3] 3)
      (s.split? 2).map (fun r => (r.state, r.epoch, r.fenceIndex, r.leftReplayThrough,
        r.rightReplayThrough)) = some (.fenced, 1, 1, 1, 1) ∧
      s.commit 2 1 s.catalog.generation =
        .error (.join .corruptMetadata .rangeNotFound) ∧
      s.advance 2 1 .aborted splitEvidence = .error .splitConflict :=
  ⟨pair_state, by decide +kernel, by decide +kernel, by decide +kernel⟩

end RivetDB.Multiraft
