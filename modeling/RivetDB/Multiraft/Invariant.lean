import RivetDB.Order.Keyed
import RivetDB.Multiraft.Steps
import Mathlib.Order.WithBot

/-!
# Identities and exclusivity of the metadata

`Sound c₀ s` is the invariant of every metadata state reached from the catalog `c₀`:
identities are issued once, a range is held by at most one split or migration, and the
children of a split that is under way tile their parent as it is now.  `Evolves s s'`
relates a state to a later one.
-/

namespace RivetDB.Multiraft

open List MetadataState RangeDescriptor
open scoped ByteOrder

/-! ### Counters -/

/-- The identities `ids` were issued by a counter that now stands at `next`; the counter
stops at zero once it has wrapped. -/
structure Issued (next : ℕ) (ids : List ℕ) : Prop where
  nodup : ids.Nodup
  below : ∀ id ∈ ids, next = 0 ∨ id < next
  fits : next < 2 ^ 64

variable {n : ℕ}

theorem wrap64_succ (h : n < 2 ^ 64) : wrap64 (n + 1) = 0 ∨ wrap64 (n + 1) = n + 1 := by
  unfold wrap64
  rcases Nat.lt_or_ge (n + 1) (2 ^ 64) with hlt | hge
  · exact .inr (Nat.mod_eq_of_lt hlt)
  · have : n + 1 = 2 ^ 64 := by omega
    exact .inl (by rw [this, Nat.mod_self])

variable {ids : List ℕ}

theorem Issued.next {next : ℕ} (h : Issued next ids) (hnext : next ≠ 0) :
    Issued (wrap64 (next + 1)) (ids ++ [next]) where
  nodup := by
    refine nodup_append.mpr ⟨h.nodup, nodup_singleton _, fun id hid x hx => ?_⟩
    have hlt := (h.below id hid).resolve_left hnext
    rw [mem_singleton.mp hx]
    exact hlt.ne
  below := by
    intro id hid
    refine (wrap64_succ h.fits).imp_right fun heq => ?_
    rw [heq]
    rcases mem_append.mp hid with hid | hid
    · exact ((h.below id hid).resolve_left hnext).trans (Nat.lt_succ_self _)
    · rw [mem_singleton.mp hid]
      exact Nat.lt_succ_self _
  fits := Nat.mod_lt _ (by norm_num)

/-! ### Dividing a range -/

/-- The numbers of a catalog are machine numbers. -/
structure Catalog.Fits (c : Catalog) : Prop where
  generation : c.generation < 2 ^ 64
  ranges : ∀ d ∈ c.ranges, d.rangeID < 2 ^ 64 ∧ d.generation < 2 ^ 64
  replicas : ∀ d ∈ c.ranges, ∀ r ∈ d.replicas, r.replicaID < 2 ^ 64

/-- `r` divides `d` at its split key. -/
structure SplitRecord.Divides (r : SplitRecord) (d : RangeDescriptor) : Prop where
  parent : r.parent = d.ref
  interior : strictInterior d.startKey d.endKey r.splitKey = true
  left : r.left =
    { d with rangeID := r.left.rangeID, generation := 1, endKey := { key := r.splitKey } }
  right : r.right =
    { d with rangeID := r.right.rangeID, generation := 1, startKey := { key := r.splitKey } }

variable {s s' : MetadataState} {r : SplitRecord} {d : RangeDescriptor}
  {r' : SplitRecord} {candidate : Catalog} {x : RangeDescriptor} {m : MigrationRecord}

theorem SplitRecord.Divides.inside (h : r.Divides d) :
    (d.startKey.unbounded = true ∨ d.startKey.key < r.splitKey) ∧
      (d.endKey.unbounded = true ∨ r.splitKey < d.endKey.key) := by
  simpa [strictInterior] using h.interior

theorem SplitRecord.SameSplit.divides (h : r.SameSplit r') (hd : r.Divides d) : r'.Divides d where
  parent := h.parent.trans hd.parent
  interior := h.splitKey ▸ hd.interior
  left := by rw [h.left, h.splitKey]; exact hd.left
  right := by rw [h.right, h.splitKey]; exact hd.right

/-! ### Extents

The keys of a range together with the point below all keys, which a range without a
lower bound covers: no range has an empty extent, although one that ends at the empty
key has no keys. -/

namespace RangeDescriptor

def extent (d : RangeDescriptor) : Set (WithBot Bytes) :=
  {k | (d.startKey.unbounded = true ∨ (d.startKey.key : WithBot Bytes) ≤ k) ∧
    (d.endKey.unbounded = true ∨ k < (d.endKey.key : WithBot Bytes))}

theorem coe_mem_extent {key : Bytes} : (key : WithBot Bytes) ∈ d.extent ↔ key ∈ d.span := by
  rw [mem_span]
  simp only [extent, Set.mem_ofPred_eq, WithBot.coe_le_coe, WithBot.coe_lt_coe]

theorem Valid.extent_nonempty (h : d.Valid) : d.extent.Nonempty := by
  rcases hstart : d.startKey.unbounded with - | -
  · refine ⟨d.startKey.key, .inr (le_refl _), ?_⟩
    rcases hend : d.endKey.unbounded with - | -
    · exact .inr (WithBot.coe_lt_coe.mpr (h.interval hstart hend))
    · exact .inl rfl
  · exact ⟨⊥, .inl hstart, .inr (WithBot.bot_lt_coe _)⟩

theorem extent_congr {d' : RangeDescriptor} (hstart : d'.startKey = d.startKey)
    (hend : d'.endKey = d.endKey) : d'.extent = d.extent := by
  unfold extent
  rw [hstart, hend]

theorem span_congr {d' : RangeDescriptor} (hstart : d'.startKey = d.startKey)
    (hend : d'.endKey = d.endKey) : d'.span = d.span := by
  ext key
  rw [mem_span, mem_span, hstart, hend]

end RangeDescriptor

theorem tiles_span_of_extent {ds : List RangeDescriptor}
    (h : Tiles extent d.extent ds) : Tiles span d.span ds := by
  refine ⟨fun key => ?_, h.disjoint.imp fun hpq => Set.disjoint_left.mpr fun key hp hq => ?_⟩
  · rw [← coe_mem_extent, h.cover]
    simp only [coe_mem_extent]
  · exact Set.disjoint_left.mp hpq (coe_mem_extent.mpr hp) (coe_mem_extent.mpr hq)

/-- The children of a split divide the extent of the parent. -/
theorem SplitRecord.Divides.extent (h : r.Divides d) :
    d.extent = r.left.extent ∪ r.right.extent ∧ Disjoint r.left.extent r.right.extent := by
  have hinterior := h.inside
  have hleft : ∀ k, k ∈ r.left.extent ↔ k ∈ d.extent ∧ k < (r.splitKey : WithBot Bytes) := by
    intro k
    rw [h.left]
    simp only [RangeDescriptor.extent, Set.mem_ofPred_eq, Bool.false_eq_true, false_or]
    refine ⟨fun hk => ⟨⟨hk.1, ?_⟩, hk.2⟩, fun hk => ⟨hk.1.1, hk.2⟩⟩
    exact hinterior.2.imp_right fun hlt => hk.2.trans (WithBot.coe_lt_coe.mpr hlt)
  have hright : ∀ k, k ∈ r.right.extent ↔ k ∈ d.extent ∧ (r.splitKey : WithBot Bytes) ≤ k := by
    intro k
    rw [h.right]
    simp only [RangeDescriptor.extent, Set.mem_ofPred_eq, Bool.false_eq_true, false_or]
    refine ⟨fun hk => ⟨⟨?_, hk.2⟩, hk.1⟩, fun hk => ⟨hk.2, hk.1.2⟩⟩
    exact hinterior.1.imp_right fun hlt => ((WithBot.coe_lt_coe.mpr hlt).trans_le hk.1).le
  refine ⟨?_, Set.disjoint_left.mpr fun k hl hr => ?_⟩
  · ext k
    rw [Set.mem_union, hleft, hright, ← and_or_left]
    exact ⟨fun hk => ⟨hk, lt_or_ge _ _⟩, fun hk => hk.1⟩
  · exact absurd ((hleft k).mp hl).2 (not_lt.mpr ((hright k).mp hr).2)

/-- The children tile the parent. -/
theorem SplitRecord.Divides.tiles (h : r.Divides d) : Tiles span d.span [r.left, r.right] := by
  obtain ⟨hunion, hdisjoint⟩ := h.extent
  refine tiles_span_of_extent ⟨fun k => ?_, pairwise_pair.mpr hdisjoint⟩
  rw [hunion]
  simp

/-! ### The catalogs that replace another -/

/-- The range a split divides gives way to its children, all others stay. -/
theorem splitCandidate_mem (hs : s.catalog.WellFormed)
    (hd : d ∈ s.catalog.ranges) (hdiv : r.Divides d)
    (h : newCatalog (s.splitBootstrap r) = .ok candidate) :
    x ∈ candidate.ranges ↔
      x = r.left ∨ x = r.right ∨ (x ∈ s.catalog.ranges ∧ x.rangeID ≠ d.rangeID) := by
  obtain ⟨rfl, -⟩ := newCatalog_ok_iff.mp h
  have hid : r.parent.rangeID = d.rangeID := by rw [hdiv.parent]; rfl
  have hleft : r.left.sortReplicas = r.left := by
    refine sortReplicas_eq ?_
    rw [hdiv.left]
    exact hs.replicas d hd
  have hright : r.right.sortReplicas = r.right := by
    refine sortReplicas_eq ?_
    rw [hdiv.right]
    exact hs.replicas d hd
  rw [(Bootstrap.arrange_perm _).mem_iff, mem_map]
  simp only [splitBootstrap, mem_flatMap, replaceParent, hid]
  constructor
  · rintro ⟨y, ⟨p, hp, hy⟩, rfl⟩
    split_ifs at hy with hparent
    · rcases mem_pair.mp hy with rfl | rfl
      · exact .inl hleft
      · exact .inr (.inl hright)
    · rw [mem_singleton.mp hy, sortReplicas_eq (hs.replicas p hp)]
      exact .inr (.inr ⟨hp, hparent⟩)
  · rintro (rfl | rfl | ⟨hx, hne⟩)
    · exact ⟨r.left, ⟨d, hd, by simp⟩, hleft⟩
    · exact ⟨r.right, ⟨d, hd, by simp⟩, hright⟩
    · exact ⟨x, ⟨x, hx, by simp [hne]⟩, sortReplicas_eq (hs.replicas x hx)⟩

/-- A migration changes the replicas and the generation of its range alone. -/
theorem migrationCandidate_mem
    (hs : s.catalog.WellFormed) (h : newCatalog (s.migrationBootstrap m) = .ok candidate) :
    x ∈ candidate.ranges ↔
      ∃ p ∈ s.catalog.ranges, x = if p.rangeID = m.rangeID then
        (replaceReplica m p).sortReplicas else p := by
  obtain ⟨rfl, -⟩ := newCatalog_ok_iff.mp h
  rw [(Bootstrap.arrange_perm _).mem_iff, mem_map]
  simp only [migrationBootstrap, mem_map]
  have hsort : ∀ p ∈ s.catalog.ranges, (replaceReplica m p).sortReplicas =
      if p.rangeID = m.rangeID then (replaceReplica m p).sortReplicas else p := by
    intro p hp
    split_ifs with hid
    · rfl
    · rw [replaceReplica, if_neg hid, sortReplicas_eq (hs.replicas p hp)]
  constructor
  · rintro ⟨-, ⟨p, hp, rfl⟩, rfl⟩
    exact ⟨p, hp, hsort p hp⟩
  · rintro ⟨p, hp, rfl⟩
    exact ⟨_, ⟨p, hp, rfl⟩, hsort p hp⟩

/-- The catalog of a split or a migration has the next generation. -/
theorem candidate_generation {b : Bootstrap} {generation : ℕ}
    (h : newCatalog b = .ok candidate) (hb : b.generation = wrap64 (generation + 1))
    (hfits : generation < 2 ^ 64) : candidate.generation = generation + 1 := by
  obtain ⟨rfl, hacc⟩ := newCatalog_ok_iff.mp h
  have hne := hacc.generation
  rw [hb] at hne
  show b.generation = generation + 1
  rw [hb]
  exact (wrap64_succ hfits).resolve_left hne

/-! ### The invariant -/

/-- The range identities handed out to children. -/
def MetadataState.allocatedRanges (s : MetadataState) : List ℕ :=
  s.splits.flatMap fun r => [r.left.rangeID, r.right.rangeID]

/-- The replica identities handed out to migration targets. -/
def MetadataState.allocatedReplicas (s : MetadataState) : List ℕ :=
  s.migrations.map MigrationRecord.targetReplicaID

structure Sound (c₀ : Catalog) (s : MetadataState) : Prop where
  catalog : s.catalog.WellFormed
  generation : s.catalog.generation < 2 ^ 64
  generations : ∀ d ∈ s.catalog.ranges, d.generation < 2 ^ 64
  -- range identities
  nextRange : s.nextRangeID ≤ metaRangeID
  ranges : ∀ d ∈ s.catalog.ranges, d.rangeID < s.nextRangeID
  children : s.allocatedRanges.Nodup
  childrenBelow : ∀ id ∈ s.allocatedRanges, id < s.nextRangeID
  childrenPos : ∀ id ∈ s.allocatedRanges, 0 < id
  origins : ∀ d ∈ c₀.ranges, d.rangeID < s.nextRangeID ∧ d.rangeID ∉ s.allocatedRanges
  retired : ∀ e ∈ s.lineage, e.parent.rangeID < s.nextRangeID ∧
    ∀ d ∈ s.catalog.ranges, d.rangeID ≠ e.parent.rangeID
  -- the other identities
  splitIDs : Issued s.nextSplitID (s.splits.map SplitRecord.splitID)
  migrationIDs : Issued s.nextMigrationID (s.migrations.map MigrationRecord.migrationID)
  replicaIDs : Issued s.nextReplicaID s.allocatedReplicas
  originReplicas : ∀ d ∈ c₀.ranges, ∀ x ∈ d.replicas,
    (s.nextReplicaID = 0 ∨ x.replicaID < s.nextReplicaID) ∧ x.replicaID ∉ s.allocatedReplicas
  -- splits and migrations under way
  divides : ∀ r ∈ s.splits, r.state.terminal = false → ∃ d ∈ s.catalog.ranges, r.Divides d
  unborn : ∀ r ∈ s.splits, r.state.terminal = false →
    ∀ id ∈ [r.left.rangeID, r.right.rangeID],
      (∀ d ∈ s.catalog.ranges, d.rangeID ≠ id) ∧ ∀ e ∈ s.lineage, e.parent.rangeID ≠ id
  oneSplit : ∀ r ∈ s.splits, ∀ r' ∈ s.splits, r.state.terminal = false →
    r'.state.terminal = false → r.parent.rangeID = r'.parent.rangeID → r = r'
  oneMigration : ∀ m ∈ s.migrations, ∀ m' ∈ s.migrations, m.state.terminal = false →
    m'.state.terminal = false → m.rangeID = m'.rangeID → m = m'
  apart : ∀ r ∈ s.splits, ∀ m ∈ s.migrations, r.state.terminal = false →
    m.state.terminal = false → r.parent.rangeID ≠ m.rangeID

variable {c₀ : Catalog}

theorem MetadataState.mem_setSplit (hids : (s.splits.map SplitRecord.splitID).Nodup)
    (hr : r ∈ s.splits) (hsame : r.SameSplit r') {x : SplitRecord} :
    x ∈ (s.setSplit r').splits ↔ x = r' ∨ (x ∈ s.splits ∧ x ≠ r) :=
  Keyed.mem_replace_iff hids hr hsame.splitID

variable {m' : MigrationRecord}

theorem MetadataState.mem_setMigration (hids : (s.migrations.map MigrationRecord.migrationID).Nodup)
    (hm : m ∈ s.migrations) (hsame : m.SameMigration m') {x : MigrationRecord} :
    x ∈ (s.setMigration m').migrations ↔ x = m' ∨ (x ∈ s.migrations ∧ x ≠ m) :=
  Keyed.mem_replace_iff hids hm hsame.migrationID

theorem MetadataState.allocatedRanges_setSplit
    (hids : (s.splits.map SplitRecord.splitID).Nodup) (hr : r ∈ s.splits)
    (hsame : r.SameSplit r') : (s.setSplit r').allocatedRanges = s.allocatedRanges := by
  unfold allocatedRanges
  exact congrArg List.flatten
    (Keyed.map_replace hids hr hsame.splitID (by rw [hsame.left, hsame.right]))

/-- Moving a split along keeps the invariant. -/
theorem Sound.setSplit (h : Sound c₀ s) (hr : r ∈ s.splits)
    (hsame : r.SameSplit r') (hstate : r.state.terminal = false) :
    Sound c₀ (s.setSplit r') := by
  have hmem : ∀ {x}, x ∈ (s.setSplit r').splits → x = r' ∨ (x ∈ s.splits ∧ x ≠ r) :=
    (mem_setSplit h.splitIDs.nodup hr hsame).mp
  have hallocated := allocatedRanges_setSplit h.splitIDs.nodup hr hsame
  exact
    { h with
      children := hallocated ▸ h.children
      childrenBelow := hallocated ▸ h.childrenBelow
      childrenPos := hallocated ▸ h.childrenPos
      origins := hallocated ▸ h.origins
      splitIDs := by
        have := Keyed.map_replace h.splitIDs.nodup hr hsame.splitID hsame.splitID
        exact (congrArg (Issued s.nextSplitID) this).mpr h.splitIDs
      divides := by
        intro x hx hterminal
        rcases hmem hx with rfl | ⟨hx, -⟩
        · obtain ⟨d, hd, hdiv⟩ := h.divides r hr hstate
          exact ⟨d, hd, hsame.divides hdiv⟩
        · exact h.divides x hx hterminal
      unborn := by
        intro x hx hterminal
        rcases hmem hx with rfl | ⟨hx, -⟩
        · rw [hsame.left, hsame.right]
          exact h.unborn r hr hstate
        · exact h.unborn x hx hterminal
      oneSplit := by
        intro x hx y hy hxt hyt hid
        rcases hmem hx with rfl | ⟨hx', hxr⟩ <;> rcases hmem hy with rfl | ⟨hy', hyr⟩
        · rfl
        · rw [hsame.parent] at hid
          exact absurd (h.oneSplit r hr y hy' hstate hyt hid).symm hyr
        · rw [hsame.parent] at hid
          exact absurd (h.oneSplit x hx' r hr hxt hstate hid) hxr
        · exact h.oneSplit x hx' y hy' hxt hyt hid
      apart := by
        intro x hx m hm hxt hmt
        rcases hmem hx with rfl | ⟨hx, -⟩
        · rw [hsame.parent]
          exact h.apart r hr m hm hstate hmt
        · exact h.apart x hx m hm hxt hmt }

/-- Moving a migration along keeps the invariant. -/
theorem Sound.setMigration (h : Sound c₀ s) (hm : m ∈ s.migrations)
    (hsame : m.SameMigration m') (hstate : m.state.terminal = false) :
    Sound c₀ (s.setMigration m') := by
  have hmem : ∀ {x}, x ∈ (s.setMigration m').migrations → x = m' ∨ (x ∈ s.migrations ∧ x ≠ m) :=
    (mem_setMigration h.migrationIDs.nodup hm hsame).mp
  have hallocated : (s.setMigration m').allocatedReplicas = s.allocatedReplicas :=
    Keyed.map_replace h.migrationIDs.nodup hm hsame.migrationID hsame.targetReplicaID
  exact
    { h with
      migrationIDs := by
        have := Keyed.map_replace h.migrationIDs.nodup hm hsame.migrationID hsame.migrationID
        exact (congrArg (Issued s.nextMigrationID) this).mpr h.migrationIDs
      replicaIDs := (congrArg (Issued s.nextReplicaID) hallocated).mpr h.replicaIDs
      originReplicas := hallocated ▸ h.originReplicas
      oneMigration := by
        intro x hx y hy hxt hyt hid
        rcases hmem hx with rfl | ⟨hx', hxm⟩ <;> rcases hmem hy with rfl | ⟨hy', hym⟩
        · rfl
        · rw [hsame.rangeID] at hid
          exact absurd (h.oneMigration m hm y hy' hstate hyt hid).symm hym
        · rw [hsame.rangeID] at hid
          exact absurd (h.oneMigration x hx' m hm hxt hstate hid) hxm
        · exact h.oneMigration x hx' y hy' hxt hyt hid
      apart := by
        intro x hx y hy hxt hyt
        rcases hmem hy with rfl | ⟨hy, -⟩
        · rw [hsame.rangeID]
          exact h.apart x hx m hm hxt hstate
        · exact h.apart x hx y hy hxt hyt }

/-- A new split holds a range that nothing else holds. -/
theorem Sound.withSplit (h : Sound c₀ s) {splitKey : Bytes} (hd : d ∈ s.catalog.ranges)
    (hinterior : strictInterior d.startKey d.endKey splitKey = true)
    (hsplits : ∀ r ∈ s.splits, r.parent = d.ref → r.state.terminal = true)
    (hmigrations : ∀ m ∈ s.migrations, m.rangeID = d.rangeID → m.state.terminal = true)
    (hnext : s.nextRangeID < metaRangeID - 1) (hsplitID : s.nextSplitID ≠ 0) :
    Sound c₀ (s.withSplit d splitKey) := by
  set r := newSplit d.ref d splitKey s.nextRangeID (s.nextRangeID + 1) s.nextSplitID with hr
  have hmem : ∀ {x}, x ∈ (s.withSplit d splitKey).splits → x ∈ s.splits ∨ x = r := by
    simp [MetadataState.withSplit, hr]
  have hallocated : (s.withSplit d splitKey).allocatedRanges =
      s.allocatedRanges ++ [s.nextRangeID, s.nextRangeID + 1] := by
    simp [MetadataState.allocatedRanges, MetadataState.withSplit, newSplit]
  -- a split of another generation of the range would have ended by now
  have hfree : ∀ x ∈ s.splits, x.state.terminal = false → x.parent.rangeID ≠ d.rangeID := by
    intro x hx hterminal hid
    obtain ⟨p, hp, hdiv⟩ := h.divides x hx hterminal
    have hpd : p = d := by
      refine h.catalog.eq_of_rangeID hp hd ?_
      rw [← hid, hdiv.parent]
      rfl
    have := hsplits x hx (hpd ▸ hdiv.parent)
    simp [this] at hterminal
  exact
    { h with
      nextRange := by
        show s.nextRangeID + 2 ≤ metaRangeID
        omega
      ranges := fun x hx => (h.ranges x hx).trans (by simp [MetadataState.withSplit])
      children := by
        rw [hallocated]
        refine nodup_append.mpr ⟨h.children, by simp, fun id hid x hx => ?_⟩
        have := h.childrenBelow id hid
        rcases mem_pair.mp hx with rfl | rfl <;> omega
      childrenBelow := by
        rw [hallocated]
        intro id hid
        show id < s.nextRangeID + 2
        rcases mem_append.mp hid with hid | hid
        · have := h.childrenBelow id hid
          omega
        · rcases mem_pair.mp hid with rfl | rfl <;> omega
      childrenPos := by
        rw [hallocated]
        intro id hid
        have hpos := h.ranges d hd
        rcases mem_append.mp hid with hid | hid
        · exact h.childrenPos id hid
        · rcases mem_pair.mp hid with rfl | rfl <;> omega
      origins := by
        rw [hallocated]
        intro x hx
        obtain ⟨hlt, hnot⟩ := h.origins x hx
        refine ⟨hlt.trans (by simp [MetadataState.withSplit]), fun hid => ?_⟩
        rcases mem_append.mp hid with hid | hid
        · exact hnot hid
        · rcases mem_pair.mp hid with hid | hid <;> omega
      retired := fun e he =>
        ⟨(h.retired e he).1.trans (by simp [MetadataState.withSplit]), (h.retired e he).2⟩
      splitIDs := by
        have := h.splitIDs.next hsplitID
        simpa [MetadataState.withSplit, newSplit] using this
      divides := by
        intro x hx hterminal
        rcases hmem hx with hx | rfl
        · exact h.divides x hx hterminal
        · exact ⟨d, hd, rfl, hinterior, rfl, rfl⟩
      unborn := by
        intro x hx hterminal
        rcases hmem hx with hx | rfl
        · exact h.unborn x hx hterminal
        · intro id hid
          have hge : s.nextRangeID ≤ id := by
            rcases mem_pair.mp hid with rfl | rfl
            · exact le_refl _
            · exact Nat.le_succ _
          exact ⟨fun p hp => ((h.ranges p hp).trans_le hge).ne,
            fun e he => ((h.retired e he).1.trans_le hge).ne⟩
      oneSplit := by
        intro x hx y hy hxt hyt hid
        rcases hmem hx with hx' | rfl <;> rcases hmem hy with hy' | rfl
        · exact h.oneSplit x hx' y hy' hxt hyt hid
        · exact absurd hid (hfree x hx' hxt)
        · exact absurd hid.symm (hfree y hy' hyt)
        · rfl
      apart := by
        intro x hx m hm hxt hmt
        rcases hmem hx with hx | rfl
        · exact h.apart x hx m hm hxt hmt
        · intro hid
          have := hmigrations m hm hid.symm
          simp [this] at hmt }

variable {source : ReplicaDescriptor}

/-- A new migration holds a range that nothing else holds. -/
theorem Sound.withMigration (h : Sound c₀ s) {target : Raft.NodeID}
    (hsplits : ∀ r ∈ s.splits, r.parent.rangeID = d.rangeID → r.state.terminal = true)
    (hmigrations : ∀ m ∈ s.migrations, m.rangeID = d.rangeID → m.state.terminal = true)
    (hreplicaID : s.nextReplicaID ≠ 0) (hmigrationID : s.nextMigrationID ≠ 0) :
    Sound c₀ (s.withMigration d source target) := by
  set m := newMigration s.nextMigrationID d.rangeID d.generation source s.nextReplicaID target
    s.catalog.generation with hm
  have hmem : ∀ {x}, x ∈ (s.withMigration d source target).migrations →
      x ∈ s.migrations ∨ x = m := by
    simp [MetadataState.withMigration, hm]
  have hallocated : (s.withMigration d source target).allocatedReplicas =
      s.allocatedReplicas ++ [s.nextReplicaID] := by
    simp [MetadataState.allocatedReplicas, MetadataState.withMigration, newMigration]
  have hfree : ∀ x ∈ s.migrations, x.state.terminal = false → x.rangeID ≠ d.rangeID := by
    intro x hx hterminal hid
    have := hmigrations x hx hid
    simp [this] at hterminal
  exact
    { h with
      migrationIDs := by
        have := h.migrationIDs.next hmigrationID
        simpa [MetadataState.withMigration, newMigration] using this
      replicaIDs := by
        rw [hallocated]
        exact h.replicaIDs.next hreplicaID
      originReplicas := by
        rw [hallocated]
        intro x hx y hy
        obtain ⟨hlt, hnot⟩ := h.originReplicas x hx y hy
        have hlt := hlt.resolve_left hreplicaID
        refine ⟨(wrap64_succ h.replicaIDs.fits).imp_right fun heq => ?_, fun hid => ?_⟩
        · show y.replicaID < wrap64 (s.nextReplicaID + 1)
          rw [heq]
          exact hlt.trans (Nat.lt_succ_self _)
        · rcases mem_append.mp hid with hid | hid
          · exact hnot hid
          · exact hlt.ne (mem_singleton.mp hid)
      oneMigration := by
        intro x hx y hy hxt hyt hid
        rcases hmem hx with hx' | rfl <;> rcases hmem hy with hy' | rfl
        · exact h.oneMigration x hx' y hy' hxt hyt hid
        · exact absurd hid (hfree x hx' hxt)
        · exact absurd hid.symm (hfree y hy' hyt)
        · rfl
      apart := by
        intro x hx y hy hxt hyt
        rcases hmem hy with hy | rfl
        · exact h.apart x hx y hy hxt hyt
        · intro hid
          have := hsplits x hx hid
          simp [this] at hxt }

/-- **Cut-over.**  The children enter the catalog for their parent, which is retired. -/
theorem Sound.splitCommitted (h : Sound c₀ s) (hr : r ∈ s.splits) (hstate : r.state = .fenced)
    (hcandidate : newCatalog (s.splitBootstrap r) = .ok candidate) :
    Sound c₀ (s.splitCommitted r candidate) := by
  have hopen : r.state.terminal = false := by rw [hstate]; rfl
  obtain ⟨d, hd, hdiv⟩ := h.divides r hr hopen
  have hparent : r.parent.rangeID = d.rangeID := by rw [hdiv.parent]; rfl
  have hsame := r.sameSplit_cutOver candidate
  have hset := h.setSplit hr hsame hopen
  have hranges : ∀ {x}, x ∈ candidate.ranges ↔ _ := splitCandidate_mem h.catalog hd hdiv hcandidate
  have hchild : ∀ id ∈ [r.left.rangeID, r.right.rangeID], id ∈ s.allocatedRanges :=
    fun id hid => mem_flatMap.mpr ⟨r, hr, hid⟩
  -- the other splits under way divide other ranges and have other children
  have hother : ∀ x ∈ (s.setSplit (r.cutOver candidate)).splits, x.state.terminal = false →
      x ∈ s.splits ∧ x ≠ r ∧ x.parent.rangeID ≠ d.rangeID := by
    intro x hx hterminal
    rcases (mem_setSplit h.splitIDs.nodup hr hsame).mp hx with rfl | ⟨hx, hne⟩
    · cases hterminal
    · refine ⟨hx, hne, fun hid => hne ?_⟩
      exact h.oneSplit x hx r hr hterminal hopen (hid.trans hparent.symm)
  have hdisjoint : ∀ x ∈ s.splits, x ≠ r → ∀ id ∈ [x.left.rangeID, x.right.rangeID],
      id ∉ [r.left.rangeID, r.right.rangeID] := by
    intro x hx hne id hid hid'
    have hpairs := (nodup_flatMap.mp h.children).2
    have hsymm : Std.Symm (Function.onFun List.Disjoint
        fun r : SplitRecord => [r.left.rangeID, r.right.rangeID]) := ⟨fun _ _ h => h.symm⟩
    exact hpairs.forall hx hr hne hid hid'
  exact
    { hset with
      catalog := newCatalog_wellFormed hcandidate
      generation := by
        obtain ⟨rfl, -⟩ := newCatalog_ok_iff.mp hcandidate
        exact Nat.mod_lt _ (by norm_num)
      generations := by
        intro x hx
        rcases hranges.mp hx with rfl | rfl | ⟨hx, -⟩
        · rw [hdiv.left]
          norm_num
        · rw [hdiv.right]
          norm_num
        · exact h.generations x hx
      ranges := by
        intro x hx
        rcases hranges.mp hx with rfl | rfl | ⟨hx, -⟩
        · exact h.childrenBelow _ (hchild _ (by simp))
        · exact h.childrenBelow _ (hchild _ (by simp))
        · exact h.ranges x hx
      retired := by
        intro e he
        rcases mem_append.mp he with he | he
        · obtain ⟨hlt, hgone⟩ := h.retired e he
          refine ⟨hlt, fun x hx => ?_⟩
          rcases hranges.mp hx with rfl | rfl | ⟨hx, -⟩
          · exact ((h.unborn r hr hopen _ (by simp)).2 e he).symm
          · exact ((h.unborn r hr hopen _ (by simp)).2 e he).symm
          · exact hgone x hx
        · obtain rfl := mem_singleton.mp he
          show r.parent.rangeID < s.nextRangeID ∧ ∀ x ∈ candidate.ranges,
            x.rangeID ≠ r.parent.rangeID
          rw [hparent]
          refine ⟨h.ranges d hd, fun x hx => ?_⟩
          rcases hranges.mp hx with rfl | rfl | ⟨-, hne⟩
          · exact ((h.unborn r hr hopen _ (by simp)).1 d hd).symm
          · exact ((h.unborn r hr hopen _ (by simp)).1 d hd).symm
          · exact hne
      divides := by
        intro x hx hterminal
        obtain ⟨hx, -, hne⟩ := hother x hx hterminal
        obtain ⟨p, hp, hxp⟩ := h.divides x hx hterminal
        refine ⟨p, hranges.mpr (.inr (.inr ⟨hp, fun hid => hne ?_⟩)), hxp⟩
        rw [← hid, hxp.parent]
        rfl
      unborn := by
        intro x hx hterminal id hid
        obtain ⟨hx, hxr, -⟩ := hother x hx hterminal
        obtain ⟨hfresh, hlineage⟩ := h.unborn x hx hterminal id hid
        have hnot := hdisjoint x hx hxr id hid
        simp only [mem_cons, not_mem_nil, or_false, not_or] at hnot
        refine ⟨fun p hp => ?_, fun e he => ?_⟩
        · rcases hranges.mp hp with rfl | rfl | ⟨hp, -⟩
          · exact Ne.symm hnot.1
          · exact Ne.symm hnot.2
          · exact hfresh p hp
        · rcases mem_append.mp he with he | he
          · exact hlineage e he
          · obtain rfl := mem_singleton.mp he
            show r.parent.rangeID ≠ id
            rw [hparent]
            exact hfresh d hd }

theorem replaceReplica_ranged {m : MigrationRecord} {p : RangeDescriptor} :
    (replaceReplica m p).rangeID = p.rangeID ∧ (replaceReplica m p).startKey = p.startKey ∧
      (replaceReplica m p).endKey = p.endKey := by
  unfold replaceReplica
  split_ifs <;> exact ⟨rfl, rfl, rfl⟩

/-- The range a migration moves keeps its place under the next generation. -/
theorem migrationCandidate_moved
    (hs : s.catalog.WellFormed) (hgenerations : ∀ d ∈ s.catalog.ranges, d.generation < 2 ^ 64)
    (h : newCatalog (s.migrationBootstrap m) = .ok candidate)
    (hx : x ∈ candidate.ranges) :
    ∃ p ∈ s.catalog.ranges, x.rangeID = p.rangeID ∧ x.startKey = p.startKey ∧
      x.endKey = p.endKey ∧
      (x = p ∨ (p.rangeID = m.rangeID ∧ x.generation = p.generation + 1)) := by
  obtain ⟨p, hp, hxp⟩ := (migrationCandidate_mem hs h).mp hx
  refine ⟨p, hp, ?_⟩
  split_ifs at hxp with hid
  · obtain ⟨hrange, hstart, hend⟩ := @replaceReplica_ranged m p
    have hvalid : x.generation ≠ 0 := ((newCatalog_wellFormed h).valid x hx).generation
    have hgen : x.generation = wrap64 (p.generation + 1) := by
      rw [hxp, replaceReplica, if_pos hid]
      rfl
    rw [hgen] at hvalid
    refine ⟨?_, ?_, ?_, .inr ⟨hid, ?_⟩⟩
    · rw [hxp]; exact hrange
    · rw [hxp]; exact hstart
    · rw [hxp]; exact hend
    · rw [hgen]
      exact (wrap64_succ (hgenerations p hp)).resolve_left hvalid
  · subst hxp
    exact ⟨rfl, rfl, rfl, .inl rfl⟩

variable {p : RangeDescriptor}

theorem migrationCandidate_image
    (hs : s.catalog.WellFormed) (h : newCatalog (s.migrationBootstrap m) = .ok candidate)
    (hp : p ∈ s.catalog.ranges) :
    ∃ x ∈ candidate.ranges, x.rangeID = p.rangeID ∧ x.startKey = p.startKey ∧
      x.endKey = p.endKey ∧ (p.rangeID ≠ m.rangeID → x = p) := by
  refine ⟨_, (migrationCandidate_mem hs h).mpr ⟨p, hp, rfl⟩, ?_⟩
  obtain ⟨hrange, hstart, hend⟩ := @replaceReplica_ranged m p
  split_ifs with hid
  · exact ⟨hrange, hstart, hend, fun hne => absurd hid hne⟩
  · exact ⟨rfl, rfl, rfl, fun _ => rfl⟩

/-- A committed migration changes no interval and no identity. -/
theorem Sound.migrationCommitted (h : Sound c₀ s)
    (hm : m ∈ s.migrations) (hstate : m.state = .sourceRemoving)
    (hcandidate : newCatalog (s.migrationBootstrap m) = .ok candidate) :
    Sound c₀ (s.migrationCommitted m candidate) := by
  have hopen : m.state.terminal = false := by rw [hstate]; rfl
  have hsame := m.sameMigration_committed candidate.generation
  have hset := h.setMigration hm hsame hopen
  have hmoved : ∀ {x}, x ∈ candidate.ranges → _ :=
    fun hx => migrationCandidate_moved h.catalog h.generations hcandidate hx
  have himage : ∀ {p}, p ∈ s.catalog.ranges → _ :=
    fun hp => migrationCandidate_image h.catalog hcandidate hp
  exact
    { hset with
      catalog := newCatalog_wellFormed hcandidate
      generation := by
        obtain ⟨rfl, -⟩ := newCatalog_ok_iff.mp hcandidate
        exact Nat.mod_lt _ (by norm_num)
      generations := by
        intro x hx
        obtain ⟨p, hp, hxp⟩ := (migrationCandidate_mem h.catalog hcandidate).mp hx
        split_ifs at hxp with hid
        · rw [hxp, replaceReplica, if_pos hid]
          exact Nat.mod_lt _ (by norm_num)
        · rw [hxp]
          exact h.generations p hp
      ranges := by
        intro x hx
        obtain ⟨p, hp, hid, -⟩ := hmoved hx
        rw [hid]
        exact h.ranges p hp
      retired := by
        intro e he
        refine ⟨(h.retired e he).1, fun x hx => ?_⟩
        obtain ⟨p, hp, hid, -⟩ := hmoved hx
        rw [hid]
        exact (h.retired e he).2 p hp
      divides := by
        intro r hr hterminal
        obtain ⟨p, hp, hdiv⟩ := h.divides r hr hterminal
        obtain ⟨x, hx, -, -, -, hsame⟩ := himage hp
        have hpm : p.rangeID ≠ m.rangeID := by
          have := h.apart r hr m hm hterminal hopen
          rwa [hdiv.parent] at this
        exact ⟨p, hsame hpm ▸ hx, hdiv⟩
      unborn := by
        intro r hr hterminal id hid
        refine ⟨fun x hx => ?_, (h.unborn r hr hterminal id hid).2⟩
        obtain ⟨p, hp, hxp, -⟩ := hmoved hx
        rw [hxp]
        exact (h.unborn r hr hterminal id hid).1 p hp }

/-- **Every step keeps the invariant.** -/
theorem Sound.step (h : Sound c₀ s) (hstep : Step s s') : Sound c₀ s' := by
  obtain ⟨c, hstep⟩ := hstep
  cases hstep with
  | same => exact h
  | splitBegun d splitKey hd hinterior hsplits hmigrations hnext hsplitID =>
    exact h.withSplit hd hinterior hsplits hmigrations hnext hsplitID
  | splitMoved _ r r' hr hsame hstate =>
    exact h.setSplit (split?_some hr).1 hsame hstate
  | splitCommitted r candidate hr hstate hcandidate =>
    exact h.splitCommitted (split?_some hr).1 hstate hcandidate
  | migrationBegun d source target hd hsource htarget hnode hzero hsplits hmigrations hreplica =>
    exact h.withMigration hsplits hmigrations hreplica ‹_›
  | migrationMoved _ r r' hr hsame hstate =>
    exact h.setMigration (migration?_some hr).1 hsame hstate
  | migrationCommitted r d candidate hr hstate hd href hgeneration hsource hcandidate =>
    exact h.migrationCommitted (migration?_some hr).1 hstate hcandidate

/-- A catalog that leaves out no key is followed by catalogs that leave out no key. -/
theorem Sound.step_covers (h : Sound c₀ s) (hcovers : s.catalog.Covers) (hstep : Step s s') :
    s'.catalog.Covers := by
  obtain ⟨c, hstep⟩ := hstep
  cases hstep with
  | splitCommitted r candidate hr hstate hcandidate =>
    have hr := (split?_some hr).1
    obtain ⟨d, hd, hdiv⟩ := h.divides r hr (by rw [hstate]; rfl)
    have hranges : ∀ {x}, x ∈ candidate.ranges ↔ _ :=
      splitCandidate_mem h.catalog hd hdiv hcandidate
    intro key
    obtain ⟨p, hp, hkey⟩ := hcovers key
    by_cases hpd : p.rangeID = d.rangeID
    · rw [h.catalog.eq_of_rangeID hp hd hpd] at hkey
      obtain ⟨q, hq, hqkey⟩ := (hdiv.tiles.cover key).mp hkey
      refine ⟨q, hranges.mpr ?_, hqkey⟩
      rcases mem_pair.mp hq with rfl | rfl
      · exact .inl rfl
      · exact .inr (.inl rfl)
    · exact ⟨p, hranges.mpr (.inr (.inr ⟨hp, hpd⟩)), hkey⟩
  | migrationCommitted m d candidate hm hstate hd href hgeneration hsource hcandidate =>
    intro key
    obtain ⟨p, hp, hkey⟩ := hcovers key
    obtain ⟨x, hx, -, hstart, hend, -⟩ := migrationCandidate_image h.catalog hcandidate hp
    refine ⟨x, hx, ?_⟩
    rw [← hkey, RangeDescriptor.contains, RangeDescriptor.contains, hstart, hend]
  | _ => exact hcovers

theorem le_largest {id : ℕ} (h : id ∈ ids) : id ≤ largest ids := by
  have hle : ∀ (l : List ℕ) (n : ℕ), n ≤ l.foldl max n ∧ ∀ x ∈ l, x ≤ l.foldl max n := by
    intro l
    induction l with
    | nil => simp
    | cons y l ih =>
      intro n
      obtain ⟨hn, hl⟩ := ih (max n y)
      refine ⟨(le_max_left _ _).trans hn, fun x hx => ?_⟩
      rcases mem_cons.mp hx with rfl | hx
      · exact (le_max_right _ _).trans hn
      · exact hl x hx
  exact (hle ids 0).2 id h

theorem largest_lt (hn : 0 < n) (h : ∀ id ∈ ids, id < n) : largest ids < n := by
  have hlt : ∀ (l : List ℕ) (k : ℕ), k < n → (∀ x ∈ l, x < n) → l.foldl max k < n := by
    intro l
    induction l with
    | nil => exact fun k hk _ => hk
    | cons y l ih =>
      intro k hk hl
      exact ih _ (max_lt hk (hl y mem_cons_self)) fun x hx => hl x (mem_cons_of_mem _ hx)
  exact hlt ids 0 hn h

theorem newMetadataState_catalog (h : newMetadataState c₀ = .ok s) : s.catalog = c₀ := by
  unfold newMetadataState at h
  dsimp only at h
  split_ifs at h
  cases h
  rfl

theorem newMetadataState_empty (h : newMetadataState c₀ = .ok s) :
    s.lineage = [] ∧ s.migrations = [] := by
  unfold newMetadataState at h
  dsimp only at h
  split_ifs at h
  cases h
  exact ⟨rfl, rfl⟩

/-- The invariant holds of the first state. -/
theorem newMetadataState_sound (hc : c₀.WellFormed) (hfits : c₀.Fits)
    (h : newMetadataState c₀ = .ok s) : Sound c₀ s := by
  unfold newMetadataState at h
  dsimp only at h
  split_ifs at h with hlimit
  cases h
  have hrange : ∀ d ∈ c₀.ranges, d.rangeID ≤ largest (c₀.ranges.map rangeID) :=
    fun d hd => le_largest (mem_map_of_mem hd)
  have hlargest : largest (c₀.ranges.map rangeID) < 2 ^ 64 := by
    refine largest_lt (by norm_num) fun id hid => ?_
    obtain ⟨d, hd, rfl⟩ := mem_map.mp hid
    exact (hfits.ranges d hd).1
  have hreplica : ∀ d ∈ c₀.ranges, ∀ r ∈ d.replicas, r.replicaID ≤
      largest (c₀.ranges.flatMap fun d => d.replicas.map ReplicaDescriptor.replicaID) :=
    fun d hd r hr => le_largest (mem_flatMap.mpr ⟨d, hd, mem_map_of_mem hr⟩)
  have hlargest' : largest (c₀.ranges.flatMap fun d =>
      d.replicas.map ReplicaDescriptor.replicaID) < 2 ^ 64 := by
    refine largest_lt (by norm_num) fun id hid => ?_
    obtain ⟨d, hd, hid⟩ := mem_flatMap.mp hid
    obtain ⟨r, hr, rfl⟩ := mem_map.mp hid
    exact hfits.replicas d hd r hr
  exact
    { catalog := hc
      generation := hfits.generation
      generations := fun d hd => (hfits.ranges d hd).2
      nextRange := by
        simp only [metaRangeID] at hlimit ⊢
        omega
      ranges := fun d hd => Nat.lt_succ_of_le (hrange d hd)
      children := nodup_nil
      childrenBelow := by simp [allocatedRanges]
      childrenPos := by simp [allocatedRanges]
      origins := fun d hd =>
        ⟨Nat.lt_succ_of_le (hrange d hd), by simp [allocatedRanges]⟩
      retired := by simp
      splitIDs := ⟨nodup_nil, by simp, by norm_num⟩
      migrationIDs := ⟨nodup_nil, by simp, by norm_num⟩
      replicaIDs := ⟨nodup_nil, by simp [allocatedReplicas], Nat.mod_lt _ (by norm_num)⟩
      originReplicas := by
        intro d hd r hr
        refine ⟨(wrap64_succ hlargest').imp_right fun heq => ?_, by simp [allocatedReplicas]⟩
        exact heq.symm ▸ Nat.lt_succ_of_le (hreplica d hd r hr)
      divides := by simp
      unborn := by simp
      oneSplit := by simp
      oneMigration := by simp
      apart := by simp }

theorem Sound.run (h : Sound c₀ s) (calls : List MetadataCall) : Sound c₀ (s.run calls) :=
  run_induction h (fun _ _ => Sound.step) calls

theorem Sound.run_covers (h : Sound c₀ s) (hcovers : s.catalog.Covers)
    (calls : List MetadataCall) : (s.run calls).catalog.Covers := by
  have hboth : Sound c₀ (s.run calls) ∧ (s.run calls).catalog.Covers :=
    run_induction (P := fun s => Sound c₀ s ∧ s.catalog.Covers) ⟨h, hcovers⟩
      (fun _ _ hp hstep => ⟨hp.1.step hstep, hp.1.step_covers hp.2 hstep⟩) calls
  exact hboth.2

end RivetDB.Multiraft
