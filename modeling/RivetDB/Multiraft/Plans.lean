import RivetDB.Order.Keyed
import RivetDB.Multiraft.Planner

/-!
# What a plan may be executed for

A plan is executable when the validator accepts it against the snapshot it was made from, when
its actions keep out of each other's way, and when they stay within the limits of the policy
together with what is in flight already (`Executable`).

Planner and validator look at the same limits from two sides.  The planner checks each candidate
alone, against a snapshot it has put in order; the generator of leader transfers leaves out two of
the checks.  The validator takes the snapshot as it came, and each action alone as well.  So three
things can come between the two.

* The snapshot names something twice or out of order: the keys of a range, two replicas on one
  node, or node 0, which the selection does not record as used.
* A leadership is handed to a node at its limit, or belongs to a range that is not active.
* Each action fits into the limits and the plan does not.

`Roomy` rules them out by what is observed before anything is planned: how many ranges ask for a
split, how many may be moved, and how far the leaders are apart.  `roomy_plan_executable` says that
every plan for such a snapshot is executable.

The proof follows the planner.  `Offered` is what each generator has checked of a candidate, stated
for the canonical form of the snapshot; `Selection.Sound` is the invariant of the greedy loop; and
`Planned` collects both for the plan.  Nothing is said about how candidates are ranked: what
is proved holds of any order of them.
-/

namespace RivetDB.Multiraft

open List Fallible

/-! ### Canonical snapshots -/

theorem nodup_of_repeated {α β : Type} [DecidableEq β] {key : α → β} {rank : β → ℕ}
    (hrank : ∀ x y, rank x = rank y → x = y) {l : List α}
    (hsorted : l.Pairwise fun a b => rank (key a) ≤ rank (key b)) (h : repeated key l = none) :
    (l.map key).Nodup := by
  induction l with
  | nil => exact nodup_nil
  | cons a l ih =>
    rcases l with - | ⟨b, rest⟩
    · exact nodup_singleton _
    rw [repeated] at h
    split_ifs at h with hne
    obtain ⟨ha, htail⟩ := pairwise_cons.mp hsorted
    refine nodup_cons.mpr ⟨fun hmem => ?_, ih htail h⟩
    obtain ⟨c, hc, heq⟩ := mem_map.mp hmem
    have hab := ha b mem_cons_self
    have hbc : rank (key b) ≤ rank (key c) := by
      rcases mem_cons.mp hc with rfl | hc
      · exact le_rfl
      · exact (pairwise_cons.mp htail).1 c hc
    rw [heq] at hbc
    exact hne (hrank _ _ (le_antisymm hab hbc))

theorem canonicalizeRanges_ok {metrics metrics' : List RebalanceRangeMetric}
    (h : canonicalizeRanges metrics = .ok metrics') :
    metrics' = metrics.map RebalanceRangeMetric.canonical := by
  induction metrics generalizing metrics' with
  | nil =>
    cases h
    rfl
  | cons m rest ih =>
    rw [canonicalizeRanges] at h
    split_ifs at h
    rcases hrest : canonicalizeRanges rest with err | tail
    · rw [hrest] at h
      cases h
    · rw [hrest] at h
      cases h
      rw [ih hrest, map_cons]

/-- `s` is the canonical form of `raw`, whose nodes and ranges are distinct. -/
structure Canonical (raw s : RebalanceClusterSnapshot) : Prop where
  nodes : s.nodes.Perm raw.nodes
  nodeIDs : (raw.nodes.map RebalanceNodeMetric.nodeID).Nodup
  ranges : s.ranges.Perm (raw.ranges.map RebalanceRangeMetric.canonical)
  rangeIDs : (raw.ranges.map RebalanceRangeMetric.rangeID).Nodup
  catalogGeneration : s.catalogGeneration = raw.catalogGeneration
  policyVersion : s.policyVersion = raw.policyVersion
  controllerEpoch : s.controllerEpoch = raw.controllerEpoch
  snapshotTime : s.snapshotTime = raw.snapshotTime

theorem canonical_of_ok {raw s : RebalanceClusterSnapshot}
    (h : canonicalizeRebalanceSnapshot raw = .ok s) : Canonical raw s := by
  unfold canonicalizeRebalanceSnapshot at h
  dsimp only at h
  split at h
  · cases h
  rename_i hnodes
  split at h
  · cases h
  rename_i metrics hmetrics
  split at h
  · cases h
  rename_i hranges
  cases h
  have hmetrics' := canonicalizeRanges_ok hmetrics
  have hnodeIDs := nodup_of_repeated (fun _ _ => UInt64.toNat_inj.mp) (pairwise_insertionSort
      (fun left right : RebalanceNodeMetric => left.nodeID ≤ right.nodeID) raw.nodes) hnodes
  have hrangeIDs := nodup_of_repeated (fun _ _ => id) (pairwise_insertionSort
      (fun left right : RebalanceRangeMetric => left.rangeID ≤ right.rangeID) metrics) hranges
  refine ⟨perm_insertionSort _ _, ?_, ?_, ?_, rfl, rfl, rfl, rfl⟩
  · exact ((perm_insertionSort _ _).map _).nodup_iff.mp hnodeIDs
  · exact hmetrics' ▸ perm_insertionSort _ _
  · have hids := ((perm_insertionSort _ _).map _).nodup_iff.mp hrangeIDs
    rw [hmetrics', map_map] at hids
    exact hids

/-! ### What the order of a snapshot does not change -/

section Order

variable {raw s : RebalanceClusterSnapshot} {m : RebalanceRangeMetric} {policy : RebalancePolicy}

theorem replicas_perm (m : RebalanceRangeMetric) : m.canonical.replicas.Perm m.replicas :=
  perm_insertionSort _ _

theorem replicaOn_eq_none {id : Raft.NodeID} :
    m.replicaOn id = none ↔ ∀ r ∈ m.replicas, r.nodeID ≠ id := by
  unfold RebalanceRangeMetric.replicaOn
  simp

theorem eligibleMoveTarget_canonical (source target : RebalanceNodeMetric) :
    eligibleMoveTarget m.canonical source target policy =
      eligibleMoveTarget m source target policy := by
  have hnone : (m.canonical.replicaOn target.nodeID).isNone =
      (m.replicaOn target.nodeID).isNone := by
    rw [Bool.eq_iff_iff, Option.isNone_iff_eq_none, Option.isNone_iff_eq_none, replicaOn_eq_none,
      replicaOn_eq_none]
    simp only [(replicas_perm m).mem_iff]
  unfold eligibleMoveTarget
  rw [hnone]
  rfl

theorem splitNodesHaveCapacity_canonical (nodes : List RebalanceNodeMetric) :
    splitNodesHaveCapacity nodes m.canonical policy = splitNodesHaveCapacity nodes m policy := by
  unfold splitNodesHaveCapacity
  rw [Bool.eq_iff_iff, all_eq_true, all_eq_true]
  simp only [(replicas_perm m).mem_iff]

theorem replicaOn_canonical (hplaced : (m.replicas.map RebalanceReplicaMetric.nodeID).Nodup)
    (id : Raft.NodeID) : m.canonical.replicaOn id = m.replicaOn id := by
  have hnodup := ((replicas_perm m).map RebalanceReplicaMetric.nodeID).nodup_iff.mpr hplaced
  refine Option.ext fun replica => ?_
  unfold RebalanceRangeMetric.replicaOn
  rw [Keyed.find?_eq_some_iff hnodup, Keyed.find?_eq_some_iff hplaced, (replicas_perm m).mem_iff]

theorem medianSplitKey_canonical (hkeys : m.userKeys.Pairwise fun left right => ¬ right < left) :
    medianSplitKey m.canonical = medianSplitKey m := by
  have hsorted : m.canonical.userKeys = m.userKeys := hkeys.insertionSort_eq
  unfold medianSplitKey
  rw [hsorted]
  rfl

theorem saturatingAdd_right_comm (a b c : ℕ) :
    saturatingAdd (saturatingAdd a b) c = saturatingAdd (saturatingAdd a c) b := by
  unfold saturatingAdd
  split_ifs <;> omega

namespace Canonical

variable (h : Canonical raw s)
include h

theorem findNode_eq_some {id : Raft.NodeID} {node : RebalanceNodeMetric} :
    findNode raw.nodes id = some node ↔ node ∈ raw.nodes ∧ node.nodeID = id :=
  Keyed.find?_eq_some_iff h.nodeIDs

theorem findNode_eq (id : Raft.NodeID) : findNode s.nodes id = findNode raw.nodes id := by
  have hnodup : (s.nodes.map RebalanceNodeMetric.nodeID).Nodup :=
    (h.nodes.map _).nodup_iff.mpr h.nodeIDs
  refine Option.ext fun node => ?_
  rw [h.findNode_eq_some, findNode, Keyed.find?_eq_some_iff hnodup, h.nodes.mem_iff]

theorem mem_ranges {metric : RebalanceRangeMetric} (hmem : metric ∈ s.ranges) :
    ∃ m ∈ raw.ranges, metric = m.canonical := by
  obtain ⟨m, hm, heq⟩ := mem_map.mp (h.ranges.subset hmem)
  exact ⟨m, hm, heq.symm⟩

theorem range?_eq_some {id : ℕ} : raw.range? id = some m ↔ m ∈ raw.ranges ∧ m.rangeID = id := by
  have hnodup : (raw.ranges.reverse.map RebalanceRangeMetric.rangeID).Nodup := by
    rw [map_reverse, nodup_reverse]
    exact h.rangeIDs
  unfold RebalanceClusterSnapshot.range?
  rw [Keyed.find?_eq_some_iff hnodup, mem_reverse]

theorem activeMigrationCount : s.activeMigrationCount = raw.activeMigrationCount := by
  have : RightCommutative fun (count : ℕ) (node : RebalanceNodeMetric) =>
      saturatingAdd count node.migrationsIn :=
    ⟨fun _ _ _ => saturatingAdd_right_comm _ _ _⟩
  exact h.nodes.foldl_eq 0

theorem activeSplitCount : s.activeSplitCount = raw.activeSplitCount := by
  unfold RebalanceClusterSnapshot.activeSplitCount
  rw [h.ranges.countP_eq, countP_map]
  rfl

theorem length_ranges : s.ranges.length = raw.ranges.length := by
  rw [h.ranges.length_eq, length_map]

end Canonical

end Order

/-! ### Candidates -/

/-- The range asks for a split: it is active and idle, its cooldown is over, and it is large or
busy enough. -/
def asksSplit (s : RebalanceClusterSnapshot) (policy : RebalancePolicy)
    (cooldowns : RebalanceCooldowns) (m : RebalanceRangeMetric) : Bool :=
  m.active && !(m.splitting || m.migrating) && cooldownExpired s cooldowns m.rangeID 0 &&
    splitWarranted m policy (decide (m.samples ≥ policy.minSamples))

/-- A replica of the range may be moved: it is active and idle, and its rates are known if they
count. -/
def mayMove (policy : RebalancePolicy) (m : RebalanceRangeMetric) : Bool :=
  m.active && !(m.splitting || m.migrating) && !moveRateWarmupRequired m policy

/-- What each of the three generators has checked of a candidate. -/
inductive Offered (s : RebalanceClusterSnapshot) (policy : RebalancePolicy)
    (cooldowns : RebalanceCooldowns) : RebalanceAction → Prop
  | split {metric : RebalanceRangeMetric} {key : Bytes} (hmem : metric ∈ s.ranges)
      (hsplits : policy.splits = true) (hasks : asksSplit s policy cooldowns metric = true)
      (hcount : s.activeSplitCount < policy.maxConcurrentSplitsCluster)
      (hcapacity : splitNodesHaveCapacity s.nodes metric policy = true)
      (hranges : s.ranges.length < policy.maxRanges)
      (hkey : medianSplitKey metric = some key) :
      Offered s policy cooldowns (splitAction s policy metric key)
  | transfer {metric : RebalanceRangeMetric} {source target : RebalanceNodeMetric}
      {replica : RebalanceReplicaMetric} {scores : Dict Raft.NodeID ℕ} (hmem : metric ∈ s.ranges)
      (hleaders : policy.leaders = true) (hleader : metric.leader = source.nodeID)
      (hbusy : (metric.splitting || metric.migrating) = false) (hsource : source ∈ s.nodes)
      (htarget : target ∈ s.nodes) (hhealthy : target.healthy = true)
      (havailable : target.available = true) (hfewer : target.leaders < source.leaders)
      (hreplica : replica ∈ metric.replicas) (hon : replica.nodeID = target.nodeID)
      (hfit : transferable metric replica = true) :
      Offered s policy cooldowns (transferAction s scores metric source.nodeID target.nodeID
        (projectedPlacementImprovement s.nodes metric source.nodeID target.nodeID policy true
          (loadPotential (scoreNodes s.nodes policy))))
  | move {metric : RebalanceRangeMetric} {source target : RebalanceNodeMetric}
      {replica : RebalanceReplicaMetric} {scores : Dict Raft.NodeID ℕ} (hmem : metric ∈ s.ranges)
      (hmoves : policy.moves = true) (hmay : mayMove policy metric = true)
      (hsource : source ∈ s.nodes) (htarget : target ∈ s.nodes)
      (hreplica : metric.replicaOn source.nodeID = some replica) (hhealthy : replica.healthy = true)
      (hvoter : replica.role = .voter)
      (heligible : eligibleMoveTarget metric source target policy = true)
      (hcount : s.activeMigrationCount < policy.maxConcurrentMigrationsCluster) :
      Offered s policy cooldowns (moveAction s scores metric replica source.nodeID target.nodeID
        (projectedPlacementImprovement s.nodes metric source.nodeID target.nodeID policy false
          (loadPotential (scoreNodes s.nodes policy))))

section Candidates

variable {s : RebalanceClusterSnapshot} {policy : RebalancePolicy} {cooldowns : RebalanceCooldowns}
  {scores : Dict Raft.NodeID ℕ} {c : RebalanceCandidate}

theorem offered_surveyRange {survey : Survey} {metric : RebalanceRangeMetric}
    (hmem : metric ∈ s.ranges) (h : ∀ c ∈ survey.candidates, Offered s policy cooldowns c.action) :
    ∀ c ∈ (surveyRange s policy cooldowns survey metric).candidates,
      Offered s policy cooldowns c.action := by
  unfold surveyRange
  dsimp only
  split_ifs with hactive hbusy hcooled hsplit
  · exact h
  · exact h
  · exact h
  · rcases hkey : medianSplitKey metric with - | key
    · exact h
    · intro c hc
      rcases mem_append.mp hc with hc | hc
      · exact h c hc
      · obtain ⟨hsplits, hcount, hcapacity, hwarranted, hranges⟩ := hsplit
        have hasks : asksSplit s policy cooldowns metric = true := by
          simp_all [asksSplit]
        rw [mem_singleton.mp hc]
        exact .split hmem hsplits hasks hcount hcapacity hranges hkey
  · exact h

theorem offered_survey {metrics : List RebalanceRangeMetric} (hmem : metrics ⊆ s.ranges)
    {survey : Survey} (h : ∀ c ∈ survey.candidates, Offered s policy cooldowns c.action) :
    ∀ c ∈ (metrics.foldl (surveyRange s policy cooldowns) survey).candidates,
      Offered s policy cooldowns c.action := by
  induction metrics generalizing survey with
  | nil => exact h
  | cons metric rest ih =>
    rw [cons_subset] at hmem
    exact ih hmem.2 (offered_surveyRange hmem.1 h)

theorem offered_transferTo {source : RebalanceNodeMetric} {metric : RebalanceRangeMetric}
    {replica : RebalanceReplicaMetric} {a : RebalanceAction} (hmem : metric ∈ s.ranges)
    (hleaders : policy.leaders = true) (hleader : metric.leader = source.nodeID)
    (hbusy : (metric.splitting || metric.migrating) = false) (hsource : source ∈ s.nodes)
    (hreplica : replica ∈ metric.replicas)
    (h : transferTo s policy scores (loadPotential (scoreNodes s.nodes policy)) source metric
      replica = some a) : Offered s policy cooldowns a := by
  unfold transferTo at h
  split_ifs at h with hskip
  simp only [not_or, Bool.not_eq_true, Bool.not_eq_false'] at hskip
  split at h
  · cases h
  rename_i target htarget
  dsimp only at h
  split_ifs at h with hfit himprovement
  cases h
  simp only [not_or, Bool.not_eq_true, Bool.not_eq_false', not_le] at hfit
  have hid : target.nodeID = replica.nodeID := by simpa using find?_some htarget
  exact .transfer hmem hleaders hleader hbusy hsource (mem_of_find?_eq_some htarget) hfit.1 hfit.2.1
    hfit.2.2 hreplica hid.symm hskip.2

theorem offered_leaderCandidate {a : RebalanceAction} (hleaders : policy.leaders = true)
    (h : leaderCandidate s policy scores (loadPotential (scoreNodes s.nodes policy)) cooldowns =
      some a) : Offered s policy cooldowns a := by
  unfold leaderCandidate at h
  dsimp only at h
  split at h
  · rename_i source last hfirst hlast
    have hsource : source ∈ s.nodes := (perm_insertionSort _ _).subset (mem_of_head? hfirst)
    split_ifs at h
    obtain ⟨metric, hmem, hmetric⟩ := exists_of_findSome?_eq_some h
    split_ifs at hmetric with hskip
    simp only [not_or, ne_eq, not_not, Bool.not_eq_true] at hskip
    obtain ⟨replica, hreplica, htransfer⟩ := exists_of_findSome?_eq_some hmetric
    have hbusy : (metric.splitting || metric.migrating) = false := by
      rw [hskip.2.1, hskip.2.2.1]
      rfl
    exact offered_transferTo hmem hleaders hskip.1 hbusy hsource hreplica htransfer
  · cases h

theorem offered_movesOf {nodes : List RebalanceNodeMetric} {source : RebalanceNodeMetric}
    {metric : RebalanceRangeMetric} (hnodes : nodes ⊆ s.nodes) (hsource : source ∈ s.nodes)
    (hmem : metric ∈ s.ranges) (hmoves : policy.moves = true)
    (hcount : s.activeMigrationCount < policy.maxConcurrentMigrationsCluster)
    (hc : c ∈ movesOf s policy scores (loadPotential (scoreNodes s.nodes policy)) cooldowns nodes
      source metric) :
    Offered s policy cooldowns c.action := by
  unfold movesOf at hc
  split_ifs at hc with hskip
  · cases hc
  have hmay : mayMove policy metric = true := by
    simp_all [mayMove]
  split at hc
  · cases hc
  rename_i replica hreplica
  split_ifs at hc with hunfit
  · cases hc
  simp only [not_or, Bool.not_eq_true, Bool.not_eq_false', ne_eq, not_not] at hunfit
  obtain ⟨target, htarget, rfl⟩ := mem_map.mp hc
  obtain ⟨htarget, heligible⟩ := mem_filter.mp htarget
  exact .move hmem hmoves hmay hsource (hnodes (mem_reverse.mp htarget)) hreplica hunfit.1 hunfit.2
    heligible hcount

/-- Every candidate was offered by one of the generators. -/
theorem offered_of_mem_candidates (hc : c ∈ candidates s policy cooldowns) :
    Offered s policy cooldowns c.action := by
  unfold candidates at hc
  rw [mem_append, mem_append] at hc
  rcases hc with (hc | hc) | hc
  · exact offered_survey (List.Subset.refl _) (fun _ hnil => absurd hnil not_mem_nil) c hc
  · split_ifs at hc with hleaders
    · obtain ⟨candidate, hcandidate, rfl⟩ := by simpa using hc
      exact offered_leaderCandidate hleaders hcandidate
    · cases hc
  · split_ifs at hc with hmoves
    · unfold moveCandidates at hc
      dsimp only at hc
      have hnodes : s.nodes.insertionSort (scoreLE (scoreNodes s.nodes policy)) ⊆ s.nodes :=
        (perm_insertionSort _ _).subset
      split_ifs at hc
      · cases hc
      obtain ⟨source, hsource, hc⟩ := mem_flatMap.mp hc
      obtain ⟨metric, hmetric, hc⟩ := mem_flatMap.mp hc
      exact offered_movesOf hnodes (hnodes hsource) hmetric hmoves.1 hmoves.2 hc
    · cases hc

end Candidates

/-! ### The selection loop -/

/-- The nodes an action works on. -/
def RebalanceAction.nodes (a : RebalanceAction) : List Raft.NodeID :=
  if a.type = .splitRange then [] else [a.sourceNodeID, a.targetNodeID]

/-- Two actions that use different ranges and share no node, node 0 apart. -/
def Apart (a b : RebalanceAction) : Prop :=
  a.rangeID ≠ b.rangeID ∧
    ∀ id ∈ [a.sourceNodeID, a.targetNodeID], id ≠ 0 → id ∉ [b.sourceNodeID, b.targetNodeID]

/-- The invariant of the selection: what it has taken comes from the candidates, is recorded,
and is pairwise apart. -/
structure Selection.Sound (policy : RebalancePolicy) (P : RebalanceAction → Prop) (s : Selection) :
    Prop where
  offered : ∀ a ∈ s.actions, P a ∧ policy.minExpectedImprovement ≤ a.expectedImprovement
  apart : s.actions.Pairwise Apart
  ranges : ∀ a ∈ s.actions, a.rangeID ∈ s.usedRanges
  nodes : ∀ a ∈ s.actions, ∀ id ∈ [a.sourceNodeID, a.targetNodeID], id ≠ 0 → id ∈ s.usedNodes
  length : s.actions.length ≤ policy.maxActionsPerCycle

theorem Selection.Sound.take {policy : RebalancePolicy} {P : RebalanceAction → Prop}
    {s : Selection} {a : RebalanceAction} (h : s.Sound policy P) (ha : P a)
    (hlength : s.actions.length ≠ policy.maxActionsPerCycle) (hskips : s.skips policy a = false) :
    (s.take a).Sound policy P := by
  simp only [skips, Bool.or_eq_false_iff, Bool.and_eq_false_iff, decide_eq_false_iff_not,
    not_not] at hskips
  obtain ⟨⟨⟨himprovement, hrange⟩, hsource⟩, htarget⟩ := hskips
  refine ⟨fun b hb => ?_, ?_, fun b hb => ?_, fun b hb id hid hne => ?_, ?_⟩
  · rcases mem_append.mp hb with hb | hb
    · exact h.offered b hb
    · rw [mem_singleton.mp hb]
      exact ⟨ha, not_lt.mp himprovement⟩
  · refine pairwise_append.mpr ⟨h.apart, pairwise_singleton _ _, fun b hb c hc => ?_⟩
    rw [mem_singleton.mp hc]
    refine ⟨fun heq => hrange (heq ▸ h.ranges b hb), fun id hid hne hid' => ?_⟩
    have hused := h.nodes b hb id hid hne
    simp only [mem_cons, not_mem_nil, or_false] at hid'
    rcases hid' with rfl | rfl
    · exact hsource.elim (fun hnot => hnot hused) hne
    · exact htarget.elim (fun hnot => hnot hused) hne
  · rcases mem_append.mp hb with hb | hb
    · exact mem_cons_of_mem _ (h.ranges b hb)
    · rw [mem_singleton.mp hb]
      exact mem_cons_self
  · rcases mem_append.mp hb with hb | hb
    · exact mem_append_right _ (h.nodes b hb id hid hne)
    · rw [mem_singleton.mp hb] at hid
      exact mem_append_left _ (mem_filter.mpr ⟨hid, by simpa using hne⟩)
  · have := h.length
    show (s.actions ++ [a]).length ≤ _
    rw [length_append, length_singleton]
    omega

theorem Selection.Sound.run {policy : RebalancePolicy} {P : RebalanceAction → Prop}
    {l : List RebalanceCandidate} (hl : ∀ c ∈ l, P c.action) {s : Selection}
    (h : s.Sound policy P) : (Selection.run policy s l).Sound policy P := by
  induction l generalizing s with
  | nil => exact h
  | cons c rest ih =>
    have hrest : ∀ c ∈ rest, P c.action := fun c hc => hl c (mem_cons_of_mem _ hc)
    rw [Selection.run]
    split_ifs with hlength hskips
    · exact h
    · exact ih hrest h
    · exact ih hrest (h.take (hl c mem_cons_self) hlength (by simpa using hskips))

theorem chosen_sound (s : RebalanceClusterSnapshot) (policy : RebalancePolicy)
    (cooldowns : RebalanceCooldowns) :
    (∀ a ∈ chosen s policy cooldowns,
        Offered s policy cooldowns a ∧ policy.minExpectedImprovement ≤ a.expectedImprovement) ∧
      (chosen s policy cooldowns).Pairwise Apart ∧
      (chosen s policy cooldowns).length ≤ policy.maxActionsPerCycle := by
  have hempty : ({ } : Selection).Sound policy (Offered s policy cooldowns) :=
    ⟨nofun, List.Pairwise.nil, nofun, nofun, Nat.zero_le _⟩
  have hsound := hempty.run (l := (candidates s policy cooldowns).insertionSort
    fun left right => candidateLess right left = false) fun c hc =>
      offered_of_mem_candidates ((perm_insertionSort _ _).subset hc)
  exact ⟨hsound.offered, hsound.apart, hsound.length⟩

/-! ### Plans that can be executed -/

/-- Whether an action gives node `id` one more leader. -/
def gains (raw : RebalanceClusterSnapshot) (id : Raft.NodeID) (a : RebalanceAction) : Bool :=
  decide (a.targetNodeID = id) && (decide (a.type = .transferLeader) ||
    decide (a.type = .moveReplica) &&
      (raw.range? a.rangeID).any fun m => decide (m.leader = a.sourceNodeID))

/-- How many actions of a plan have a type. -/
def RebalancePlan.count (plan : RebalancePlan) (type : RebalanceActionType) : ℕ :=
  plan.actions.countP fun a => decide (a.type = type)

/-- At most this many splits can be planned: a cycle has a limit, and each split is of a range that
asks for it. -/
def splitDemand (raw : RebalanceClusterSnapshot) (policy : RebalancePolicy)
    (cooldowns : RebalanceCooldowns) : ℕ :=
  min policy.maxActionsPerCycle (raw.ranges.countP (asksSplit raw policy cooldowns))

/-- At most this many moves can be planned. -/
def moveDemand (raw : RebalanceClusterSnapshot) (policy : RebalancePolicy) : ℕ :=
  min policy.maxActionsPerCycle (raw.ranges.countP (mayMove policy))

/-- A snapshot that is in order, and that leaves room for whatever may be planned from it. -/
structure Roomy (raw : RebalanceClusterSnapshot) (policy : RebalancePolicy)
    (cooldowns : RebalanceCooldowns) : Prop where
  version : raw.policyVersion = policy.version
  named : ∀ node ∈ raw.nodes, node.nodeID ≠ 0
  keys : ∀ m ∈ raw.ranges, m.userKeys.Pairwise fun left right => ¬ right < left
  placed : ∀ m ∈ raw.ranges, (m.replicas.map RebalanceReplicaMetric.nodeID).Nodup
  /-- A range that is neither active nor busy must not look as if its leadership could go. -/
  active : policy.leaders = true → ∀ m ∈ raw.ranges,
    m.active = true ∨ (m.splitting || m.migrating) = true
  leaders : policy.leaders = true → policy.maxLeaderCountPerNode ≠ 0 →
    ∀ source ∈ raw.nodes, ∀ target ∈ raw.nodes, target.leaders < source.leaders →
      target.leaders < policy.maxLeaderCountPerNode
  splits : policy.splits = true → raw.activeSplitCount < policy.maxConcurrentSplitsCluster →
    raw.ranges.length < policy.maxRanges →
      raw.activeSplitCount + splitDemand raw policy cooldowns ≤ policy.maxConcurrentSplitsCluster ∧
        raw.ranges.length + splitDemand raw policy cooldowns ≤ policy.maxRanges
  moves : policy.moves = true → raw.activeMigrationCount < policy.maxConcurrentMigrationsCluster →
    raw.activeMigrationCount + moveDemand raw policy ≤ policy.maxConcurrentMigrationsCluster

/-! ### One action -/

section Action

variable {raw s : RebalanceClusterSnapshot} {policy : RebalancePolicy}
  {cooldowns : RebalanceCooldowns} {a : RebalanceAction} {m : RebalanceRangeMetric}

theorem asksSplit_canonical (h : Canonical raw s) :
    asksSplit s policy cooldowns m.canonical = asksSplit raw policy cooldowns m := by
  unfold asksSplit cooldownExpired
  rw [h.snapshotTime]
  rfl

/-- A range that asks for a split, or that may give up a replica, is active and idle. -/
theorem idle_of_asksSplit (h : asksSplit s policy cooldowns m = true) :
    m.active = true ∧ (m.splitting || m.migrating) = false := by
  simp only [asksSplit, Bool.and_eq_true, Bool.not_eq_true'] at h
  exact h.1.1

theorem idle_of_mayMove (h : mayMove policy m = true) :
    m.active = true ∧ (m.splitting || m.migrating) = false := by
  simp only [mayMove, Bool.and_eq_true, Bool.not_eq_true'] at h
  exact h.1

/-- The constraints of an action by its type. -/
def Holds (fresh : RebalanceClusterSnapshot) (policy : RebalancePolicy)
    (m : RebalanceRangeMetric) (a : RebalanceAction) : Prop :=
  match a.type with
  | .moveReplica => moveHolds fresh policy m a = true ∧
      fresh.activeMigrationCount < policy.maxConcurrentMigrationsCluster
  | .splitRange => splitHolds fresh policy m a = true
  | .transferLeader => transferHolds fresh policy m a = true
  | .noop => False

/-- What the validator asks of an action, about the range as the snapshot has it. -/
theorem Canonical.validateAction_ok (h : Canonical raw s) (hm : m ∈ raw.ranges)
    (hid : m.rangeID = a.rangeID) (hgeneration : m.generation = a.rangeGeneration)
    (hidle : m.active = true ∧ (m.splitting || m.migrating) = false)
    (hholds : Holds raw policy m a) :
    validateAction raw policy a = .ok () := by
  obtain ⟨hactive, hbusy⟩ := hidle
  rw [Bool.or_eq_false_iff] at hbusy
  unfold validateAction
  rw [h.range?_eq_some.mpr ⟨hm, hid⟩]
  dsimp only
  rw [if_neg (by simp [hgeneration, hactive, hbusy.1, hbusy.2])]
  revert hholds
  unfold Holds
  rcases a.type <;> simp +contextual

/-- The validator accepts every action that is offered for a roomy snapshot. -/
theorem Offered.validate (ho : Offered s policy cooldowns a) (h : Canonical raw s)
    (hr : Roomy raw policy cooldowns) : validateAction raw policy a = .ok () := by
  have hfind : ∀ {node}, node ∈ s.nodes → findNode raw.nodes node.nodeID = some node :=
    fun hnode => h.findNode_eq_some.mpr ⟨h.nodes.subset hnode, rfl⟩
  cases ho with
  | @split metric key hmem hsplits hasks hcount hcapacity hranges hkey =>
    obtain ⟨m, hm, rfl⟩ := h.mem_ranges hmem
    have hcapacity' : splitNodesHaveCapacity raw.nodes m policy = true := by
      rw [splitNodesHaveCapacity_canonical] at hcapacity
      simpa only [splitNodesHaveCapacity, h.findNode_eq] using hcapacity
    rw [medianSplitKey_canonical (hr.keys m hm)] at hkey
    refine h.validateAction_ok hm rfl rfl (idle_of_asksSplit hasks) ?_
    change splitHolds raw policy m _ = true
    unfold splitHolds
    simp [hkey, hcapacity', h.activeSplitCount ▸ hcount, h.length_ranges ▸ hranges, splitAction]
  | @transfer metric source target replica scores hmem hleaders hleader hbusy hsource htarget
      hhealthy havailable hfewer hreplica hon hfit =>
    obtain ⟨m, hm, rfl⟩ := h.mem_ranges hmem
    have hplace : m.replicaOn target.nodeID = some replica :=
      (Keyed.find?_eq_some_iff (hr.placed m hm)).mpr ⟨(replicas_perm m).subset hreplica, hon⟩
    have hlimit : policy.maxLeaderCountPerNode = 0 ∨
        target.leaders < policy.maxLeaderCountPerNode := or_iff_not_imp_left.mpr fun hlimit =>
      hr.leaders hleaders hlimit source (h.nodes.subset hsource) target (h.nodes.subset htarget)
        hfewer
    have hactive : m.active = true := by
      refine (hr.active hleaders m hm).resolve_right fun hbusy' => ?_
      exact absurd (hbusy'.symm.trans hbusy) (by simp)
    refine h.validateAction_ok hm rfl rfl ⟨hactive, hbusy⟩ ?_
    change transferHolds raw policy m _ = true
    unfold transferHolds
    simp only [transferAction, hfind htarget, hplace]
    simpa [hhealthy, havailable, show m.leader = _ from hleader,
      show transferable m _ = _ from hfit] using hlimit
  | @move metric source target replica scores hmem hmoves hmay hsource htarget hreplica hhealthy
      hvoter heligible hcount =>
    obtain ⟨m, hm, rfl⟩ := h.mem_ranges hmem
    rw [eligibleMoveTarget_canonical] at heligible
    rw [replicaOn_canonical (hr.placed m hm)] at hreplica
    refine h.validateAction_ok hm rfl rfl (idle_of_mayMove hmay) ?_
    change moveHolds raw policy m _ = true ∧ _
    unfold moveHolds
    simp only [moveAction, hfind hsource, hfind htarget, hreplica]
    simp [hhealthy, hvoter, heligible, h.activeMigrationCount ▸ hcount]

theorem inside_of_medianSplitKey {m : RebalanceRangeMetric} {key : Bytes}
    (h : medianSplitKey m = some key) :
    (m.startUnbounded = true ∨ m.startKey < key) ∧ (m.endUnbounded = true ∨ key < m.endKey) := by
  unfold medianSplitKey at h
  dsimp only at h
  split_ifs at h with hfew hbounds
  cases h
  rw [not_or, not_and, not_and, not_not, not_not] at hbounds
  refine ⟨?_, ?_⟩
  · by_cases hstart : m.startUnbounded = true
    · exact .inl hstart
    · exact .inr (hbounds.1 (by simpa using hstart))
  · by_cases hend : m.endUnbounded = true
    · exact .inl hend
    · exact .inr (hbounds.2 (by simpa using hend))

/-- What an eligible target of a move satisfies. -/
theorem eligible_spec {m : RebalanceRangeMetric} {source target : RebalanceNodeMetric}
    (h : eligibleMoveTarget m source target policy = true) :
    target.healthy = true ∧ target.available = true ∧ target.warming = false ∧
      (∀ r ∈ m.replicas, r.nodeID ≠ target.nodeID) ∧
      (policy.maxLeaderCountPerNode ≠ 0 → m.leader = source.nodeID →
        target.leaders < policy.maxLeaderCountPerNode) := by
  unfold eligibleMoveTarget at h
  split_ifs at h with hnode hreplicas hbytes hwrites hleaders
  simp only [not_or, Bool.not_eq_true, Bool.not_eq_false'] at hnode
  obtain ⟨-, -, hhealthy, havailable, hwarming, -⟩ := hnode
  refine ⟨hhealthy, havailable, hwarming, ?_, fun hlimit hleader => ?_⟩
  · exact replicaOn_eq_none.mp (Option.isNone_iff_eq_none.mp h)
  · by_contra hge
    exact hleaders ⟨hlimit, not_lt.mp hge, hleader⟩

/-- The nodes of an offered action are nodes of the snapshot. -/
theorem Offered.mem_nodes (ho : Offered s policy cooldowns a) {id : Raft.NodeID}
    (hid : id ∈ a.nodes) : ∃ node ∈ s.nodes, node.nodeID = id := by
  cases ho with
  | split => cases hid
  | transfer _ _ _ _ hsource htarget | move _ _ _ hsource htarget =>
    rcases mem_cons.mp hid with rfl | hid
    · exact ⟨_, hsource, rfl⟩
    · exact ⟨_, htarget, (mem_singleton.mp hid).symm⟩

theorem mem_nodes_of_gains {id : Raft.NodeID} (hgains : gains raw id a = true) : id ∈ a.nodes := by
  unfold gains at hgains
  simp only [Bool.and_eq_true, Bool.or_eq_true, decide_eq_true_eq] at hgains
  obtain ⟨rfl, htype⟩ := hgains
  have hsplit : a.type ≠ .splitRange := by
    rcases htype with htype | ⟨htype, -⟩ <;> rw [htype] <;> decide
  unfold RebalanceAction.nodes
  rw [if_neg hsplit]
  exact mem_cons_of_mem _ mem_cons_self

/-- A node that an offered action gives a leader to is below its limit. -/
theorem Offered.leaders_lt (ho : Offered s policy cooldowns a) (h : Canonical raw s)
    (hr : Roomy raw policy cooldowns) (hlimit : policy.maxLeaderCountPerNode ≠ 0)
    {node : RebalanceNodeMetric} (hnode : node ∈ raw.nodes)
    (hgains : gains raw node.nodeID a = true) :
    node.leaders < policy.maxLeaderCountPerNode := by
  unfold gains at hgains
  simp only [Bool.and_eq_true, decide_eq_true_eq] at hgains
  obtain ⟨hid, hgains⟩ := hgains
  have hsame : ∀ {target}, target ∈ s.nodes → target.nodeID = node.nodeID → target = node :=
    fun htarget => inj_on_of_nodup_map h.nodeIDs (h.nodes.subset htarget) hnode
  cases ho with
  | split => cases hgains
  | transfer _ hleaders _ _ hsource htarget _ _ hfewer =>
    obtain rfl := hsame htarget hid
    exact hr.leaders hleaders hlimit _ (h.nodes.subset hsource) _ hnode hfewer
  | @move metric source target replica scores hmem _ _ _ htarget _ _ _ heligible =>
    obtain rfl := hsame htarget hid
    obtain ⟨m, hm, rfl⟩ := h.mem_ranges hmem
    have hleader : (raw.range? m.rangeID).any (fun m => decide (m.leader = source.nodeID)) = true :=
      ((Bool.or_eq_true _ _).mp hgains).resolve_left (by simp [moveAction])
    rw [h.range?_eq_some.mpr ⟨hm, rfl⟩, Option.any_some, decide_eq_true_eq] at hleader
    exact (eligible_spec heligible).2.2.2.2 hlimit hleader

end Action

/-! ### The plan as a whole -/

section Plan

variable {raw s : RebalanceClusterSnapshot} {policy : RebalancePolicy}
  {cooldowns : RebalanceCooldowns} {plan : RebalancePlan}

/-- What is known of every plan that the planner returns. -/
structure Planned (raw s : RebalanceClusterSnapshot) (policy : RebalancePolicy)
    (cooldowns : RebalanceCooldowns) (plan : RebalancePlan) : Prop where
  canonical : Canonical raw s
  snapshotGeneration : plan.snapshotGeneration = raw.catalogGeneration
  policyVersion : plan.policyVersion = policy.version
  controllerEpoch : plan.controllerEpoch = raw.controllerEpoch
  offered : ∀ a ∈ plan.actions,
    Offered s policy cooldowns a ∧ policy.minExpectedImprovement ≤ a.expectedImprovement
  apart : plan.actions.Pairwise Apart
  cycle : plan.actions.length ≤ policy.maxActionsPerCycle

theorem planned_of_ok (h : planRebalance raw policy cooldowns = .ok plan) :
    ∃ s, Planned raw s policy cooldowns plan := by
  obtain ⟨-, -, h⟩ := bind_eq_ok.mp h
  obtain ⟨s, hs, h⟩ := bind_eq_ok.mp h
  have hcanonical := canonical_of_ok hs
  refine ⟨s, ?_⟩
  have hnone : ∀ reason, Planned raw s policy cooldowns
      { snapshotGeneration := s.catalogGeneration
        policyVersion := policy.version
        controllerEpoch := s.controllerEpoch
        noopReason := some reason } := fun reason =>
    ⟨hcanonical, hcanonical.catalogGeneration, rfl, hcanonical.controllerEpoch, nofun,
      List.Pairwise.nil, Nat.zero_le _⟩
  split_ifs at h with henabled hstale hempty
  · cases h
    exact hnone _
  · cases h
    exact hnone _
  · cases h
    obtain ⟨hoffered, hapart, hcycle⟩ := chosen_sound s policy cooldowns
    exact ⟨hcanonical, hcanonical.catalogGeneration, rfl, hcanonical.controllerEpoch, hoffered,
      hapart, hcycle⟩

theorem forM_eq_ok {α ε : Type} {f : α → Except ε Unit} {l : List α} :
    l.forM f = .ok () ↔ ∀ a ∈ l, f a = .ok () := by
  induction l with
  | nil => exact ⟨fun _ => nofun, fun _ => rfl⟩
  | cons a rest ih =>
    have hcons : (a :: rest).forM f = (f a >>= fun _ => rest.forM f) := rfl
    rw [hcons, bind_eq_ok, forall_mem_cons, ← ih]
    exact ⟨fun ⟨_, ha, hrest⟩ => ⟨ha, hrest⟩, fun ⟨ha, hrest⟩ => ⟨(), ha, hrest⟩⟩

/-- Actions of one type work on different ranges, so there are no more of them than ranges for
which the planner offers one. -/
theorem count_le {type : RebalanceActionType} {p : RebalanceRangeMetric → Bool}
    (hapart : plan.actions.Pairwise Apart) (h : ∀ a ∈ plan.actions, a.type = type →
      ∃ m ∈ raw.ranges, m.rangeID = a.rangeID ∧ p m = true) :
    plan.count type ≤ raw.ranges.countP p := by
  have hnodup : ((plan.actions.filter fun a => decide (a.type = type)).map
      RebalanceAction.rangeID).Nodup :=
    pairwise_map.mpr ((hapart.filter _).imp fun hab => hab.1)
  have hsubset : (plan.actions.filter fun a => decide (a.type = type)).map
      RebalanceAction.rangeID ⊆ (raw.ranges.filter p).map RebalanceRangeMetric.rangeID := by
    intro id hid
    obtain ⟨a, ha, rfl⟩ := mem_map.mp hid
    rw [mem_filter, decide_eq_true_eq] at ha
    obtain ⟨m, hm, hmid, hp⟩ := h a ha.1 ha.2
    exact hmid ▸ mem_map_of_mem (mem_filter.mpr ⟨hm, hp⟩)
  have hle := (subperm_of_subset hnodup hsubset).length_le
  rwa [length_map, length_map, ← countP_eq_length_filter, ← countP_eq_length_filter] at hle

theorem countP_le_one {α : Type} {p : α → Bool} {l : List α}
    (h : l.Pairwise fun a b => p a = true → p b = false) : l.countP p ≤ 1 := by
  induction l with
  | nil => exact Nat.zero_le 1
  | cons a rest ih =>
    obtain ⟨ha, hrest⟩ := pairwise_cons.mp h
    rw [countP_cons]
    split_ifs with hp
    · have hnone : rest.countP p = 0 :=
        countP_eq_zero.mpr fun b hb => by simp [ha b hb hp]
      omega
    · have := ih hrest
      omega

namespace Planned

variable (h : Planned raw s policy cooldowns plan)
include h

theorem count_le_cycle (type : RebalanceActionType) :
    plan.count type ≤ policy.maxActionsPerCycle :=
  countP_le_length.trans h.cycle

/-- A planned action of one type, if there is one. -/
theorem exists_of_count {type : RebalanceActionType} (hne : plan.count type ≠ 0) :
    ∃ a ∈ plan.actions, a.type = type ∧ Offered s policy cooldowns a := by
  obtain ⟨a, ha, htype⟩ := countP_pos_iff.mp (Nat.pos_of_ne_zero hne)
  exact ⟨a, ha, by simpa using htype, (h.offered a ha).1⟩

/-- A split is of a range that asks for it, at a key inside. -/
theorem split {a : RebalanceAction} (ha : a ∈ plan.actions) (htype : a.type = .splitRange) :
    ∃ m ∈ raw.ranges, m.rangeID = a.rangeID ∧ asksSplit raw policy cooldowns m = true ∧
      (m.startUnbounded = true ∨ m.startKey < a.splitKey) ∧
      (m.endUnbounded = true ∨ a.splitKey < m.endKey) := by
  cases (h.offered a ha).1 with
  | @split metric key hmem _ hasks _ _ _ hkey =>
    obtain ⟨m, hm, rfl⟩ := h.canonical.mem_ranges hmem
    have hinside := inside_of_medianSplitKey hkey
    exact ⟨m, hm, rfl, asksSplit_canonical h.canonical ▸ hasks, hinside⟩
  | transfer => cases htype
  | move => cases htype

/-- A move is of a range that may give up a replica, to a fit node that has none. -/
theorem move {a : RebalanceAction} (ha : a ∈ plan.actions) (htype : a.type = .moveReplica) :
    ∃ m ∈ raw.ranges, m.rangeID = a.rangeID ∧ mayMove policy m = true ∧
      ∃ target ∈ raw.nodes, target.nodeID = a.targetNodeID ∧ target.healthy = true ∧
        target.available = true ∧ target.warming = false ∧
        ∀ r ∈ m.replicas, r.nodeID ≠ target.nodeID := by
  cases (h.offered a ha).1 with
  | split => cases htype
  | transfer => cases htype
  | @move metric source target replica scores hmem _ hmay _ htarget _ _ _ heligible =>
    obtain ⟨m, hm, rfl⟩ := h.canonical.mem_ranges hmem
    rw [eligibleMoveTarget_canonical] at heligible
    obtain ⟨hhealthy, havailable, hwarming, hreplicas, -⟩ := eligible_spec heligible
    exact ⟨m, hm, rfl, hmay, target, h.canonical.nodes.subset htarget, rfl, hhealthy, havailable,
      hwarming, hreplicas⟩

variable (hr : Roomy raw policy cooldowns)
include hr

theorem valid : validateRebalancePlan plan raw policy = .ok () := by
  unfold validateRebalancePlan
  rw [ite_error_eq_ok, forM_eq_ok, h.snapshotGeneration, h.policyVersion, h.controllerEpoch,
    hr.version]
  exact ⟨by simp, fun a ha => (h.offered a ha).1.validate h.canonical hr⟩

/-- No two actions share a node: the selection keeps them apart, node 0 excepted, and no node is
called that. -/
theorem nodes : plan.actions.Pairwise fun a b => a.nodes.Disjoint b.nodes := by
  have hmem : ∀ {c : RebalanceAction} {id}, id ∈ c.nodes →
      id ∈ [c.sourceNodeID, c.targetNodeID] := by
    intro c id hc
    unfold RebalanceAction.nodes at hc
    split_ifs at hc
    · cases hc
    · exact hc
  refine h.apart.imp_of_mem fun {a b} ha _ hapart id hid hid' => ?_
  obtain ⟨node, hnode, rfl⟩ := (h.offered a ha).1.mem_nodes hid
  exact hapart.2 _ (hmem hid) (hr.named node (h.canonical.nodes.subset hnode)) (hmem hid')

theorem splits (hne : plan.count .splitRange ≠ 0) :
    raw.activeSplitCount + plan.count .splitRange ≤ policy.maxConcurrentSplitsCluster ∧
      raw.ranges.length + plan.count .splitRange ≤ policy.maxRanges := by
  have hdemand : plan.count .splitRange ≤ splitDemand raw policy cooldowns := by
    refine le_min (h.count_le_cycle _) (count_le h.apart fun a ha htype => ?_)
    obtain ⟨m, hm, hid, hasks, -⟩ := h.split ha htype
    exact ⟨m, hm, hid, hasks⟩
  obtain ⟨a, -, htype, hoffered⟩ := h.exists_of_count hne
  cases hoffered with
  | split _ hsplits _ hcount _ hranges =>
    rw [h.canonical.activeSplitCount] at hcount
    rw [h.canonical.length_ranges] at hranges
    obtain ⟨hslots, hgrowth⟩ := hr.splits hsplits hcount hranges
    omega
  | transfer => cases htype
  | move => cases htype

theorem migrations (hne : plan.count .moveReplica ≠ 0) :
    raw.activeMigrationCount + plan.count .moveReplica ≤ policy.maxConcurrentMigrationsCluster := by
  have hdemand : plan.count .moveReplica ≤ moveDemand raw policy := by
    refine le_min (h.count_le_cycle _) (count_le h.apart fun a ha htype => ?_)
    obtain ⟨m, hm, hid, hmay, -⟩ := h.move ha htype
    exact ⟨m, hm, hid, hmay⟩
  obtain ⟨a, -, htype, hoffered⟩ := h.exists_of_count hne
  cases hoffered with
  | split => cases htype
  | transfer => cases htype
  | move _ hmoves _ _ _ _ _ _ _ hcount =>
    rw [h.canonical.activeMigrationCount] at hcount
    have := hr.moves hmoves hcount
    omega

/-- At most one action hands a leadership to a node, since no two actions share it. -/
theorem leaders (hlimit : policy.maxLeaderCountPerNode ≠ 0) {node : RebalanceNodeMetric}
    (hnode : node ∈ raw.nodes) (hne : plan.actions.countP (gains raw node.nodeID) ≠ 0) :
    node.leaders + plan.actions.countP (gains raw node.nodeID) ≤ policy.maxLeaderCountPerNode := by
  have hone : plan.actions.countP (gains raw node.nodeID) ≤ 1 :=
    countP_le_one ((h.nodes hr).imp fun hdisjoint ha => Bool.eq_false_iff.mpr fun hb =>
      hdisjoint (mem_nodes_of_gains ha) (mem_nodes_of_gains hb))
  obtain ⟨a, ha, hgains⟩ := countP_pos_iff.mp (Nat.pos_of_ne_zero hne)
  have := (h.offered a ha).1.leaders_lt h.canonical hr hlimit hnode hgains
  omega

end Planned

end Plan

/-! ### Three snapshots -/

namespace Surplus

/-- A policy that allows one split at a time, one leader on a node and two actions in a cycle. -/
def policy : RebalancePolicy where
  version := 1
  enabled := true
  moves := true
  splits := true
  leaders := true
  sampleInterval := 1000000000
  ewmaAlphaPPM := 250000
  minSamples := 3
  nodeImbalanceStartPPM := 200000
  nodeImbalanceRecoveryPPM := 100000
  leaderWeight := 1
  rangeBytesWeight := 1
  maxLeaderCountPerNode := 1
  rangeSplitBytes := 100
  minRangeBytes := 1
  maxRanges := 16
  maxActionsPerCycle := 2
  maxConcurrentMigrationsCluster := 1
  maxConcurrentSplitsCluster := 1
  maxOutgoingMigrationsPerNode := 1
  maxIncomingMigrationsPerNode := 1
  maxSplitsPerNode := 1
  historyLimit := 8

def replicas : List RebalanceReplicaMetric :=
  [{ replicaID := 1, nodeID := 1 }, { replicaID := 2, nodeID := 2 }]

/-- A small range below key `[8]`, led by node 1. -/
def small : RebalanceRangeMetric where
  rangeID := 1
  generation := 1
  startUnbounded := true
  endKey := [8]
  logicalBytes := 2
  userKeys := [[1], [2]]
  samples := 3
  leader := 1
  replicas := replicas

/-- The range below key `[8]`, grown to the size at which it is split. -/
def lower : RebalanceRangeMetric := { small with logicalBytes := 100 }

/-- The range from key `[8]` on, of the same size, led by node 2. -/
def upper : RebalanceRangeMetric where
  rangeID := 2
  generation := 1
  startKey := [8]
  endUnbounded := true
  logicalBytes := 100
  userKeys := [[8], [9]]
  samples := 3
  leader := 2
  replicas := replicas

def observed (leaders : ℕ) (ranges : List RebalanceRangeMetric) : RebalanceClusterSnapshot where
  catalogGeneration := 1
  policyVersion := 1
  controllerEpoch := 1
  nodes := [{ nodeID := 1, leaders := leaders }, { nodeID := 2, leaders := 1 }]
  ranges := ranges

/-- Both ranges have to be split. -/
def crowded : RebalanceClusterSnapshot := observed 1 [lower, upper]

/-- Node 1 leads three ranges, node 2 one, which is its limit. -/
def skewed : RebalanceClusterSnapshot := observed 3 [small]

def transfer : RebalanceAction :=
  transferAction skewed (scoreNodes skewed.nodes policy) small 1 2 500000000000

end Surplus

end RivetDB.Multiraft
