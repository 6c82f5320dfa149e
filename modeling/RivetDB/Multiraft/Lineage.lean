import RivetDB.Order.Forest
import RivetDB.Multiraft.Evolution

/-!
# The lineage of split ranges

`resolve` follows a reference through the splits of its range down to the current
ranges.  The references form a forest (`MetadataState.view`), and `resolve` searches it
breadth first.  `Traced` says where every range and every edge of the lineage comes
from: a range has the bounds it was created with, and each generation it has left behind
is on record in a migration.
-/

namespace RivetDB.Multiraft

open List MetadataState RangeDescriptor
open scoped ByteOrder
open Forest

variable {c₀ : Catalog} {s s' : MetadataState} {r : SplitRecord} {d d₀ : RangeDescriptor}

/-! ### The forest of references -/

/-- What a reference shows: a current range, or the children of a split. -/
def MetadataState.view (s : MetadataState) (ref : RangeRef) : View RangeDescriptor RangeRef :=
  match s.current? ref with
  | some d => .leaf d
  | none =>
    match s.edge? ref with
    | some edge => .fork edge.leftChild edge.rightChild
    | none => .bare

/-- The error `resolve` reports. -/
def haltError : Halt → Error
  | .depth => .resourceLimit
  | .cycle => .corruptMetadata
  | .bare => .rangeNotFound
  | .size => .resourceLimit
  | .fuel => .corruptMetadata

theorem MetadataState.resolveLoop_eq (s : MetadataState) (fuel : ℕ)
    (queue : List (RangeRef × ℕ)) (seen : List RangeRef) (result : List RangeDescriptor) :
    s.resolveLoop fuel queue seen result =
      (search s.view maxLineageDepth maxCatalogRanges fuel queue seen result).mapError
        haltError := by
  induction fuel generalizing queue seen result with
  | zero => rcases queue with - | ⟨q, queue⟩ <;> rfl
  | succ fuel ih =>
    rcases queue with - | ⟨⟨ref, depth⟩, queue⟩
    · rfl
    unfold resolveLoop search
    split
    · rfl
    split
    · rfl
    unfold view
    rcases s.current? ref with - | d
    · rcases s.edge? ref with - | edge
      · rfl
      · dsimp only
        split
        · rfl
        · exact ih _ _ _
    · exact ih _ _ _

theorem MetadataState.view_leaf {ref : RangeRef} (h : s.view ref = .leaf d) :
    d ∈ s.catalog.ranges ∧ d.rangeID = ref.rangeID ∧ ref.generation ≤ d.generation := by
  unfold view current? at h
  split at h
  · rename_i d' hcurrent
    cases h
    split at hcurrent
    · rename_i p hfind
      split_ifs at hcurrent with hge
      cases hcurrent
      exact ⟨mem_of_find?_eq_some hfind, by simpa using find?_some hfind, hge⟩
    · cases hcurrent
  · split at h <;> cases h

theorem MetadataState.view_fork {ref a b : RangeRef} (h : s.view ref = .fork a b) :
    ∃ e ∈ s.lineage, e.parent = ref ∧ e.leftChild = a ∧ e.rightChild = b := by
  unfold view at h
  split at h
  · cases h
  · split at h
    · rename_i e hedge
      cases h
      exact ⟨e, mem_of_find?_eq_some hedge, by simpa using find?_some hedge, rfl, rfl⟩
    · cases h

theorem MetadataState.edge?_eq_some (h : (s.lineage.map fun e => e.parent.rangeID).Nodup)
    {ref : RangeRef} {e : LineageRecord} :
    s.edge? ref = some e ↔ e ∈ s.lineage ∧ e.parent = ref := by
  refine Keyed.find?_eq_some_iff (Nodup.of_map RangeRef.rangeID ?_)
  rwa [map_map]

/-- A reference to a current range shows that range. -/
theorem MetadataState.view_current (hs : s.catalog.WellFormed) (hd : d ∈ s.catalog.ranges)
    {ref : RangeRef} (hid : d.rangeID = ref.rangeID) (hge : ref.generation ≤ d.generation) :
    s.view ref = .leaf d := by
  have hfind := hs.find?_rangeID.mpr ⟨hd, hid⟩
  simp only [view, current?, hfind]
  rw [if_pos hge]

theorem MetadataState.current?_retired {ref : RangeRef}
    (h : ∀ d ∈ s.catalog.ranges, d.rangeID ≠ ref.rangeID) : s.current? ref = none := by
  have hfind : s.catalog.ranges.find? (·.rangeID = ref.rangeID) = none :=
    find?_eq_none.mpr fun d hd => by simpa using h d hd
  unfold current?
  rw [hfind]

/-- A reference to a range that is gone shows what the lineage says. -/
theorem MetadataState.view_retired {ref : RangeRef}
    (h : ∀ d ∈ s.catalog.ranges, d.rangeID ≠ ref.rangeID) :
    s.view ref = match s.edge? ref with
      | some edge => .fork edge.leftChild edge.rightChild
      | none => .bare := by
  unfold view
  rw [current?_retired h]

/-! ### Where ranges come from -/

/-- The children of all splits. -/
def MetadataState.offspring (s : MetadataState) : List (RangeDescriptor × RangeDescriptor) :=
  s.splits.map fun r => (r.left, r.right)

/-- The generations that migrations set out from. -/
def MetadataState.moves (s : MetadataState) : List RangeRef :=
  s.migrations.map fun m => ⟨m.rangeID, m.rangeGeneration⟩

/-- `d₀` is the descriptor some range was created with. -/
def Origin (c₀ : Catalog) (s : MetadataState) (d₀ : RangeDescriptor) : Prop :=
  d₀ ∈ c₀.ranges ∨ ∃ p ∈ s.offspring, d₀ = p.1 ∨ d₀ = p.2

/-- `ref` is a generation of the range created with `d₀`, and a migration left each
generation in between. -/
structure Descends (s : MetadataState) (d₀ : RangeDescriptor) (ref : RangeRef) : Prop where
  rangeID : d₀.rangeID = ref.rangeID
  le : d₀.generation ≤ ref.generation
  moved : ∀ k, d₀.generation ≤ k → k < ref.generation → ⟨ref.rangeID, k⟩ ∈ s.moves

/-- The history behind a state. -/
structure Traced (c₀ : Catalog) (s : MetadataState) : Prop where
  ranges : ∀ d ∈ s.catalog.ranges, ∃ d₀, Origin c₀ s d₀ ∧ Descends s d₀ d.ref ∧
    d.startKey = d₀.startKey ∧ d.endKey = d₀.endKey
  edges : ∀ e ∈ s.lineage, ∃ d₀, Origin c₀ s d₀ ∧ Descends s d₀ e.parent ∧
    ∃ p ∈ s.offspring, e.leftChild = p.1.ref ∧ e.rightChild = p.2.ref ∧
      d₀.extent = p.1.extent ∪ p.2.extent ∧ Disjoint p.1.extent p.2.extent
  young : ∀ p ∈ s.offspring, p.1.generation = 1 ∧ p.2.generation = 1
  distinct : (s.lineage.map fun e => e.parent.rangeID).Nodup
  simple : ∀ e ∈ s.lineage, e.leftChild ≠ e.rightChild ∧ e.leftChild ≠ e.parent ∧
    e.rightChild ≠ e.parent
  grown : ∀ e ∈ s.lineage, ∃ nodes leaves, Grows s.view maxLineageDepth e.parent nodes leaves

theorem Origin.mono (h : Origin c₀ s d₀) (hsub : s.offspring ⊆ s'.offspring) :
    Origin c₀ s' d₀ := by
  refine h.imp_right ?_
  rintro ⟨p, hp, heq⟩
  exact ⟨p, hsub hp, heq⟩

theorem Descends.mono {ref : RangeRef} (h : Descends s d₀ ref) (hsub : s.moves ⊆ s'.moves) :
    Descends s' d₀ ref :=
  ⟨h.rangeID, h.le, fun k hk hlt => hsub (h.moved k hk hlt)⟩

theorem Descends.refl (s : MetadataState) (d : RangeDescriptor) : Descends s d d.ref :=
  ⟨rfl, le_refl _, fun _ hk hlt => absurd hk (not_le.mpr hlt)⟩

/-- A range was created once. -/
theorem Sound.origin_unique (h : Sound c₀ s) (hc₀ : c₀.WellFormed) {d₁ : RangeDescriptor}
    (h₀ : Origin c₀ s d₀) (h₁ : Origin c₀ s d₁) (hid : d₀.rangeID = d₁.rangeID) : d₀ = d₁ := by
  -- the descriptors of the children, in the order of their identities
  set children := s.splits.flatMap fun r => [r.left, r.right] with hchildren
  have hids : children.map rangeID = s.allocatedRanges := by
    rw [hchildren, map_flatMap]
    rfl
  have hmem : ∀ {x}, Origin c₀ s x → x ∈ c₀.ranges ∨ x ∈ children := by
    intro x hx
    refine hx.imp_right ?_
    rintro ⟨p, hp, heq⟩
    obtain ⟨r, hr, rfl⟩ := mem_map.mp hp
    exact mem_flatMap.mpr ⟨r, hr, by simpa using heq⟩
  have hfresh : ∀ {x y}, x ∈ c₀.ranges → y ∈ children → x.rangeID ≠ y.rangeID := by
    intro x y hx hy heq
    refine (h.origins x hx).2 ?_
    rw [← hids, heq]
    exact mem_map_of_mem hy
  rcases hmem h₀ with h₀ | h₀ <;> rcases hmem h₁ with h₁ | h₁
  · exact hc₀.eq_of_rangeID h₀ h₁ hid
  · exact absurd hid (hfresh h₀ h₁)
  · exact absurd hid.symm (hfresh h₁ h₀)
  · exact inj_on_of_nodup_map (hids ▸ h.children) h₀ h₁ hid

/-! ### The invariant is kept -/

theorem newMetadataState_traced (h : newMetadataState c₀ = .ok s) : Traced c₀ s := by
  unfold newMetadataState at h
  dsimp only at h
  split_ifs at h
  cases h
  refine ⟨fun d hd => ⟨d, .inl hd, Descends.refl _ d, rfl, rfl⟩, ?_, ?_, ?_, ?_, ?_⟩
  · simp
  · simp [offspring]
  · simp
  · simp
  · simp

/-- Records that only add to the history keep it. -/
theorem Traced.extend (h : Traced c₀ s) (hcatalog : s'.catalog = s.catalog)
    (hlineage : s'.lineage = s.lineage) (hoffspring : s.offspring ⊆ s'.offspring)
    (hmoves : s.moves ⊆ s'.moves)
    (hyoung : ∀ p ∈ s'.offspring, p.1.generation = 1 ∧ p.2.generation = 1) : Traced c₀ s' := by
  have hview : s'.view = s.view := by
    funext ref
    simp only [view, current?, edge?, hcatalog, hlineage]
  refine ⟨?_, ?_, hyoung, hlineage ▸ h.distinct, hlineage ▸ h.simple, ?_⟩
  · intro d hd
    obtain ⟨d₀, horigin, hdesc, hbounds⟩ := h.ranges d (hcatalog ▸ hd)
    exact ⟨d₀, horigin.mono hoffspring, hdesc.mono hmoves, hbounds⟩
  · intro e he
    obtain ⟨d₀, horigin, hdesc, p, hp, hedge⟩ := h.edges e (hlineage ▸ he)
    exact ⟨d₀, horigin.mono hoffspring, hdesc.mono hmoves, p, hoffspring hp, hedge⟩
  · intro e he
    rw [hview]
    exact h.grown e (hlineage ▸ he)

theorem MetadataState.offspring_setSplit (h : Sound c₀ s) (hr : r ∈ s.splits)
    {r' : SplitRecord} (hsame : r.SameSplit r') : (s.setSplit r').offspring = s.offspring :=
  Keyed.map_replace h.splitIDs.nodup hr hsame.splitID (by rw [hsame.left, hsame.right])

theorem MetadataState.moves_setMigration (h : Sound c₀ s) {m m' : MigrationRecord}
    (hm : m ∈ s.migrations) (hsame : m.SameMigration m') : (s.setMigration m').moves = s.moves :=
  Keyed.map_replace h.migrationIDs.nodup hm hsame.migrationID
    (by rw [hsame.rangeID, hsame.rangeGeneration])

theorem MetadataState.validateEdges_ok_iff {edges : List LineageRecord} :
    s.validateEdges edges = .ok () ↔ ∀ e ∈ edges,
      (e.leftChild ≠ e.rightChild ∧ e.leftChild ≠ e.parent ∧ e.rightChild ≠ e.parent) ∧
        ∃ ds, s.resolve e.parent = .ok ds := by
  induction edges with
  | nil => simp [validateEdges]
  | cons e rest ih =>
    unfold validateEdges
    rw [forall_mem_cons]
    split
    · rename_i hbad
      tauto
    rename_i hgood
    simp only [not_or] at hgood
    split
    · rename_i err herr
      simp [herr]
    · rename_i ds hds
      rw [ih]
      exact ⟨fun hrest => ⟨⟨hgood, ds, hds⟩, hrest⟩, fun hall => hall.2⟩

/-- A reference to a range that is gone resolves only through its tree. -/
theorem MetadataState.grows_of_resolve {ref : RangeRef} {ds : List RangeDescriptor}
    (hgone : ∀ d ∈ s.catalog.ranges, d.rangeID ≠ ref.rangeID) (h : s.resolve ref = .ok ds) :
    ∃ nodes leaves, Grows s.view maxLineageDepth ref nodes leaves := by
  have hfind : s.catalog.ranges.find? (·.rangeID = ref.rangeID) = none :=
    find?_eq_none.mpr fun d hd => by simpa using hgone d hd
  unfold resolve at h
  rw [hfind, resolveLoop_eq] at h
  rcases hsearch : search s.view maxLineageDepth maxCatalogRanges (2 * s.lineage.length + 2)
      [(ref, 0)] [] [] with err | found
  · rw [hsearch] at h
    cases h
  · exact (grows_of_search hsearch _ (mem_singleton_self _)).2

theorem Traced.splitCommitted (h : Traced c₀ s) (hs : Sound c₀ s) {candidate : Catalog}
    (hr : r ∈ s.splits) (hstate : r.state = .fenced)
    (hcandidate : newCatalog (s.splitBootstrap r) = .ok candidate)
    (hsimple : ∀ e ∈ (s.splitCommitted r candidate).lineage,
      e.leftChild ≠ e.rightChild ∧ e.leftChild ≠ e.parent ∧ e.rightChild ≠ e.parent)
    (hgrown : ∀ e ∈ (s.splitCommitted r candidate).lineage, ∃ nodes leaves,
      Grows (s.splitCommitted r candidate).view maxLineageDepth e.parent nodes leaves) :
    Traced c₀ (s.splitCommitted r candidate) := by
  have hopen : r.state.terminal = false := by rw [hstate]; rfl
  obtain ⟨d, hd, hdiv⟩ := hs.divides r hr hopen
  have hranges : ∀ {x}, x ∈ candidate.ranges ↔ _ :=
    splitCandidate_mem hs.catalog hd hdiv hcandidate
  have hsame := r.sameSplit_cutOver candidate
  have hoffspring : (s.splitCommitted r candidate).offspring = s.offspring :=
    offspring_setSplit hs hr hsame
  have hpair : (r.left, r.right) ∈ s.offspring := mem_map_of_mem hr
  have horigins : ∀ {x}, Origin c₀ s x → Origin c₀ (s.splitCommitted r candidate) x :=
    fun hx => hx.mono (hoffspring ▸ List.Subset.refl _)
  refine ⟨?_, ?_, ?_, ?_, hsimple, hgrown⟩
  · intro x hx
    rcases hranges.mp hx with rfl | rfl | ⟨hx, -⟩
    · exact ⟨r.left, horigins (.inr ⟨_, hpair, .inl rfl⟩), Descends.refl _ _, rfl, rfl⟩
    · exact ⟨r.right, horigins (.inr ⟨_, hpair, .inr rfl⟩), Descends.refl _ _, rfl, rfl⟩
    · obtain ⟨d₀, horigin, hdesc, hbounds⟩ := h.ranges x hx
      exact ⟨d₀, horigins horigin, { hdesc with }, hbounds⟩
  · intro e he
    rw [hoffspring]
    rcases mem_append.mp he with he | he
    · obtain ⟨d₀, horigin, hdesc, hedge⟩ := h.edges e he
      exact ⟨d₀, horigins horigin, { hdesc with }, hedge⟩
    · obtain rfl := mem_singleton.mp he
      obtain ⟨d₀, horigin, hdesc, hstart, hend⟩ := h.ranges d hd
      refine ⟨d₀, horigins horigin, ?_, (r.left, r.right), hpair, rfl, rfl, ?_⟩
      · show Descends _ d₀ r.parent
        rw [hdiv.parent]
        exact { hdesc with }
      · rw [← extent_congr hstart hend]
        exact hdiv.extent
  · rw [hoffspring]
    exact h.young
  · show ((s.lineage ++ [r.lineage candidate.generation]).map _).Nodup
    rw [map_append, map_singleton]
    refine nodup_append.mpr ⟨h.distinct, nodup_singleton _, fun id hid x hx => ?_⟩
    obtain ⟨e, he, rfl⟩ := mem_map.mp hid
    rw [mem_singleton.mp hx]
    show e.parent.rangeID ≠ r.parent.rangeID
    rw [hdiv.parent]
    exact ((hs.retired e he).2 d hd).symm

/-- A migration changes what a reference shows only in the leaf. -/
theorem view_migrationCommitted {m : MigrationRecord} {candidate : Catalog}
    (hs : Sound c₀ s) (hcandidate : newCatalog (s.migrationBootstrap m) = .ok candidate)
    {ref : RangeRef}
    (hold : ∀ d ∈ s.catalog.ranges, d.rangeID = ref.rangeID → ref.generation ≤ d.generation) :
    (s.migrationCommitted m candidate).view ref = (s.view ref).map fun p =>
      if p.rangeID = m.rangeID then (replaceReplica m p).sortReplicas else p := by
  have hmem : ∀ {x}, x ∈ candidate.ranges ↔ _ := migrationCandidate_mem hs.catalog hcandidate
  have hwf := newCatalog_wellFormed hcandidate
  by_cases hcurrent : ∃ d ∈ s.catalog.ranges, d.rangeID = ref.rangeID
  · obtain ⟨d, hd, hid⟩ := hcurrent
    rw [view_current hs.catalog hd hid (hold d hd hid)]
    have himage := hmem.mpr ⟨d, hd, rfl⟩
    obtain ⟨q, hq, hxq, -, -, hcase⟩ :=
      migrationCandidate_moved hs.catalog hs.generations hcandidate himage
    have hrange : (if d.rangeID = m.rangeID then (replaceReplica m d).sortReplicas
        else d).rangeID = d.rangeID := by
      split_ifs
      · exact replaceReplica_ranged.1
      · rfl
    obtain rfl := hs.catalog.eq_of_rangeID hq hd (hxq.symm.trans hrange)
    refine view_current (s := s.migrationCommitted m candidate) hwf himage (hrange.trans hid) ?_
    rcases hcase with heq | ⟨-, hgen⟩
    · rw [heq]
      exact hold q hd hid
    · rw [hgen]
      exact (hold q hd hid).trans (Nat.le_succ _)
  · simp only [not_exists, not_and] at hcurrent
    rw [view_retired hcurrent, view_retired]
    · show (match s.edge? ref with | some edge => _ | none => _) = _
      rcases s.edge? ref with - | edge <;> rfl
    · intro x hx
      obtain ⟨q, hq, hid, -⟩ :=
        migrationCandidate_moved hs.catalog hs.generations hcandidate hx
      rw [hid]
      exact hcurrent q hq

theorem Traced.migrationCommitted (h : Traced c₀ s) (hs : Sound c₀ s) {m : MigrationRecord}
    {candidate : Catalog} (hm : m ∈ s.migrations) (hd : d ∈ s.catalog.ranges)
    (hid : d.rangeID = m.rangeID) (hgeneration : d.generation = m.rangeGeneration)
    (hcandidate : newCatalog (s.migrationBootstrap m) = .ok candidate) :
    Traced c₀ (s.migrationCommitted m candidate) := by
  have hsame := m.sameMigration_committed candidate.generation
  have hmoves : (s.migrationCommitted m candidate).moves = s.moves :=
    moves_setMigration hs hm hsame
  have hmoved : ∀ {ref : RangeRef} {x}, Descends s x ref →
      Descends (s.migrationCommitted m candidate) x ref :=
    fun hdesc => hdesc.mono (hmoves ▸ List.Subset.refl _)
  refine ⟨?_, ?_, h.young, h.distinct, h.simple, ?_⟩
  · intro x hx
    obtain ⟨p, hp, hxp, hstart, hend, hcase⟩ :=
      migrationCandidate_moved hs.catalog hs.generations hcandidate hx
    obtain ⟨d₀, horigin, hdesc, hstart', hend'⟩ := h.ranges p hp
    refine ⟨d₀, horigin, ?_, hstart.trans hstart', hend.trans hend'⟩
    rcases hcase with rfl | ⟨hpm, hgen⟩
    · exact hmoved hdesc
    · -- the generation the range leaves behind is that of the migration
      refine ⟨hdesc.rangeID.trans hxp.symm, ?_, fun k hk hlt => ?_⟩
      · show d₀.generation ≤ x.generation
        rw [hgen]
        exact hdesc.le.trans (Nat.le_succ _)
      · have hlt' : k < p.generation + 1 := hgen ▸ hlt
        rw [hmoves]
        show (⟨x.rangeID, k⟩ : RangeRef) ∈ s.moves
        rw [hxp]
        rcases Nat.lt_succ_iff_lt_or_eq.mp hlt' with hk' | rfl
        · exact hdesc.moved k hk hk'
        · obtain rfl := hs.catalog.eq_of_rangeID hp hd (hpm.trans hid.symm)
          refine mem_map.mpr ⟨m, hm, ?_⟩
          rw [← hid, ← hgeneration]
  · intro e he
    obtain ⟨d₀, horigin, hdesc, hedge⟩ := h.edges e he
    exact ⟨d₀, horigin, hmoved hdesc, hedge⟩
  · intro e he
    obtain ⟨nodes, leaves, hgrows⟩ := h.grown e he
    refine ⟨nodes, _, hgrows.map fun x hx => view_migrationCommitted hs hcandidate ?_⟩
    -- a node is either retired or a child, and children are of the first generation
    rcases hgrows.child hx with rfl | ⟨y, hy, a, b, hfork, hxab⟩
    · exact fun p hp hpe => absurd hpe ((hs.retired e he).2 p hp)
    · obtain ⟨e', he', -, rfl, rfl⟩ := view_fork hfork
      obtain ⟨-, -, -, p, hp, hleft, hright, -⟩ := h.edges e' he'
      have hone : x.generation = 1 := by
        rcases hxab with rfl | rfl
        · rw [hleft]
          exact (h.young p hp).1
        · rw [hright]
          exact (h.young p hp).2
      intro q hq _
      rw [hone]
      exact Nat.one_le_iff_ne_zero.mpr (hs.catalog.valid q hq).generation

theorem Traced.step (h : Traced c₀ s) (hs : Sound c₀ s) (hstep : Step s s') : Traced c₀ s' := by
  obtain ⟨c, hstep⟩ := hstep
  cases hstep with
  | same => exact h
  | splitBegun d splitKey =>
    refine h.extend rfl rfl ?_ (List.Subset.refl _) ?_
    · simp [offspring, withSplit]
    · intro p hp
      simp only [offspring, withSplit, map_append, map_singleton] at hp
      rcases mem_append.mp hp with hp | hp
      · exact h.young p hp
      · obtain rfl := mem_singleton.mp hp
        exact ⟨rfl, rfl⟩
  | splitMoved _ r r' hr hsame =>
    have hoffspring := offspring_setSplit hs (split?_some hr).1 hsame
    exact h.extend rfl rfl (hoffspring ▸ List.Subset.refl _) (List.Subset.refl _)
      (hoffspring ▸ h.young)
  | splitCommitted r candidate hr hstate hcandidate hedge hlineage =>
    have hr := (split?_some hr).1
    have hedges := validateEdges_ok_iff.mp hlineage
    refine h.splitCommitted hs hr hstate hcandidate (fun e he => (hedges e he).1) ?_
    intro e he
    obtain ⟨ds, hds⟩ := (hedges e he).2
    exact grows_of_resolve ((hs.splitCommitted hr hstate hcandidate).retired e he).2 hds
  | migrationBegun d source target =>
    refine h.extend rfl rfl (List.Subset.refl _) ?_ h.young
    simp [moves, withMigration]
  | migrationMoved _ m m' hm hsame =>
    have hmoves :=
      moves_setMigration hs (migration?_some hm).1 hsame
    exact h.extend rfl rfl (List.Subset.refl _) (hmoves ▸ List.Subset.refl _) h.young
  | migrationCommitted m d candidate hm hstate hd hid hgeneration hsource hcandidate =>
    exact h.migrationCommitted hs (migration?_some hm).1 hd hid hgeneration hcandidate

/-- The states of a run satisfy both invariants. -/
theorem Traced.run (h : Traced c₀ s) (hs : Sound c₀ s) (calls : List MetadataCall) :
    Traced c₀ (s.run calls) := by
  have hboth : Traced c₀ (s.run calls) ∧ Sound c₀ (s.run calls) :=
    run_induction (P := fun s => Traced c₀ s ∧ Sound c₀ s) ⟨h, hs⟩
      (fun _ _ hp hstep => ⟨hp.1.step hp.2 hstep, hp.2.step hstep⟩) calls
  exact hboth.1

end RivetDB.Multiraft
