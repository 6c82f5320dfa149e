import RivetDB.Multiraft.Plans

/-!
# Rebalancing converges

The planner weighs a move by the load potential before and after it.  The potential after it is
computed by a second copy of the scoring formula, which projects the nodes on the fly
(`projectedLoadPotential_eq` says that both agree).  A plan with an action therefore leads to nodes
of a lower potential, and a chain of cycles that carry out what was planned acts only as often
as the potential of its first snapshot allows.
-/

namespace RivetDB.Multiraft

open List

section Potential

variable {nodes nodes' : List RebalanceNodeMetric} {metric : RebalanceRangeMetric}
  {sourceID targetID : Raft.NodeID} {policy : RebalancePolicy} {leaderOnly : Bool}

instance : RightCommutative saturatingAdd := ⟨saturatingAdd_right_comm⟩

instance : RightCommutative PlacementTotals.add :=
  ⟨fun totals left right => by simp only [PlacementTotals.add, saturatingAdd_right_comm _ (_ : ℕ)]⟩

/-- The order in which a map is walked over does not matter. -/
theorem potential_perm {scores scores' : List ℕ} (h : scores.Perm scores') :
    potential scores = potential scores' := by
  have hsum : ∀ mean, RightCommutative fun sum score => saturatingAdd sum (deviation mean score) :=
    fun mean => ⟨fun _ _ _ => saturatingAdd_right_comm _ _ _⟩
  have hnil : scores = [] ↔ scores' = [] := by
    rw [← length_eq_zero_iff, h.length_eq, length_eq_zero_iff]
  simp only [potential, hnil, h.foldl_eq, h.length_eq]

/-- The scores of nodes with different IDs. -/
theorem scoreNodes_values (hnodup : (nodes.map RebalanceNodeMetric.nodeID).Nodup) :
    (scoreNodes nodes policy).values.Perm (nodes.map fun node =>
      placementScore node (nodes.foldl PlacementTotals.add {}) nodes.length policy) :=
  Dict.values_foldl_set _ hnodup

theorem loadPotential_perm (hnodup : (nodes.map RebalanceNodeMetric.nodeID).Nodup)
    (h : nodes.Perm nodes') :
    loadPotential (scoreNodes nodes policy) = loadPotential (scoreNodes nodes' policy) := by
  refine potential_perm ((scoreNodes_values hnodup).trans ?_)
  refine List.Perm.trans ?_ (scoreNodes_values ((h.map _).nodup_iff.mp hnodup)).symm
  rw [h.foldl_eq, h.length_eq]
  exact h.map _

theorem projectedNode_nodeID (node : RebalanceNodeMetric) :
    (projectedNode node metric sourceID targetID leaderOnly).nodeID = node.nodeID := by
  unfold projectedNode
  split_ifs <;> rfl

theorem nodup_projected (hnodup : (nodes.map RebalanceNodeMetric.nodeID).Nodup) :
    ((nodes.map fun node => projectedNode node metric sourceID targetID leaderOnly).map
      RebalanceNodeMetric.nodeID).Nodup := by
  rw [map_map]
  exact (map_congr_left fun node _ => projectedNode_nodeID node) ▸ hnodup

/-- **The two copies of the scoring formula agree.** -/
theorem projectedLoadPotential_eq (hnodup : (nodes.map RebalanceNodeMetric.nodeID).Nodup) :
    projectedLoadPotential nodes metric sourceID targetID policy leaderOnly =
      loadPotential (scoreNodes
        (nodes.map fun node => projectedNode node metric sourceID targetID leaderOnly) policy) := by
  rw [loadPotential, potential_perm (scoreNodes_values (nodup_projected hnodup))]
  simp only [projectedLoadPotential, potential, foldl_map, length_map, map_eq_nil_iff,
    length_eq_zero_iff]

end Potential

/-! ### Chains of cycles -/

/-- The node metrics once an action has been carried out. -/
def RebalanceAction.carriedOut (a : RebalanceAction) (raw : RebalanceClusterSnapshot) :
    List RebalanceNodeMetric :=
  match raw.range? a.rangeID with
  | none => raw.nodes
  | some metric => raw.nodes.map fun node =>
    projectedNode node metric a.sourceNodeID a.targetNodeID (a.type = .transferLeader)

/-- What the controller sees in one cycle. -/
structure Observation where
  snapshot : RebalanceClusterSnapshot
  cooldowns : RebalanceCooldowns

namespace Observation

variable {policy : RebalancePolicy} {o next : Observation} {rest : List Observation}
  {a : RebalanceAction} {nodes : List RebalanceNodeMetric}

/-- The actions that are planned, none if planning fails. -/
def actions (policy : RebalancePolicy) (o : Observation) : List RebalanceAction :=
  match planRebalance o.snapshot policy o.cooldowns with
  | .ok plan => plan.actions
  | .error _ => []

/-- Whether the cycle acts. -/
def acts (policy : RebalancePolicy) (o : Observation) : Bool := !(o.actions policy).isEmpty

/-- The next cycle sees the nodes, in any order, as the one planned action leaves them; ranges and
cooldowns are arbitrary. -/
def Follows (policy : RebalancePolicy) (o next : Observation) : Prop :=
  next.snapshot.nodes.Perm
    (match o.actions policy with
    | [a] => a.carriedOut o.snapshot
    | _ => o.snapshot.nodes)

/-- The measure of a chain; nothing is planned from a snapshot that names a node twice. -/
def load (policy : RebalancePolicy) (o : Observation) : ℕ :=
  if (o.snapshot.nodes.map RebalanceNodeMetric.nodeID).Nodup then
    loadPotential (scoreNodes o.snapshot.nodes policy)
  else 0

theorem load_perm (h : next.snapshot.nodes.Perm nodes) :
    next.load policy = if (nodes.map RebalanceNodeMetric.nodeID).Nodup then
      loadPotential (scoreNodes nodes policy) else 0 := by
  simp only [load, (h.map _).nodup_iff]
  split_ifs with hnodup
  · exact loadPotential_perm ((h.map _).nodup_iff.mpr hnodup) h
  · rfl

theorem planned_of_mem_actions (ha : a ∈ o.actions policy) :
    ∃ s plan, Planned o.snapshot s policy o.cooldowns plan ∧ o.actions policy = plan.actions := by
  unfold actions at ha ⊢
  split at ha
  · rename_i plan hplan
    obtain ⟨s, hs⟩ := planned_of_ok hplan
    exact ⟨s, plan, hs, rfl⟩
  · cases ha

section Chain

variable (hsplits : policy.splits = false) (hmin : 1 ≤ policy.minExpectedImprovement)
include hsplits hmin

/-- A planned action lowers the potential. -/
theorem load_carriedOut (ha : a ∈ o.actions policy)
    (h : next.snapshot.nodes.Perm (a.carriedOut o.snapshot)) :
    next.load policy < o.load policy := by
  obtain ⟨s, plan, hs, hactions⟩ := planned_of_mem_actions ha
  obtain ⟨hoffered, hgain⟩ := hs.offered a (hactions ▸ ha)
  have hnodup := (hs.canonical.nodes.map _).nodup_iff.mpr hs.canonical.nodeIDs
  obtain ⟨metric, hmem, hid, hvalue⟩ : ∃ metric ∈ s.ranges, metric.rangeID = a.rangeID ∧
      a.expectedImprovement = projectedPlacementImprovement s.nodes metric a.sourceNodeID
        a.targetNodeID policy (a.type = .transferLeader)
        (loadPotential (scoreNodes s.nodes policy)) := by
    cases hoffered with
    | split _ hsplit => simp [hsplits] at hsplit
    | transfer hmem => exact ⟨_, hmem, rfl, rfl⟩
    | move hmem => exact ⟨_, hmem, rfl, rfl⟩
  obtain ⟨m, hm, rfl⟩ := hs.canonical.mem_ranges hmem
  rw [RebalanceAction.carriedOut, hs.canonical.range?_eq_some.mpr ⟨hm, hid⟩] at h
  rw [load_perm h, if_pos (nodup_projected hs.canonical.nodeIDs), load, if_pos hs.canonical.nodeIDs,
    ← loadPotential_perm hnodup hs.canonical.nodes,
    ← loadPotential_perm (nodup_projected hnodup) (hs.canonical.nodes.map _)]
  rw [hvalue, projectedPlacementImprovement, projectedLoadPotential_eq hnodup,
    subtractClamp] at hgain
  split_ifs at hgain
  · omega
  · exact Nat.lt_of_sub_pos (hmin.trans hgain)

variable (hone : policy.maxActionsPerCycle = 1)
include hone

/-- Step lemma: from one cycle to the next the potential falls if there was an action. -/
theorem Follows.load (h : Follows policy o next) :
    next.load policy + (if o.acts policy then 1 else 0) ≤ o.load policy := by
  unfold Follows at h
  unfold acts
  rcases hactions : o.actions policy with - | ⟨a, - | ⟨b, tail⟩⟩ <;> rw [hactions] at h
  · exact (load_perm h).le
  · exact load_carriedOut hsplits hmin (hactions ▸ mem_cons_self) h
  · obtain ⟨s, plan, hs, heq⟩ := planned_of_mem_actions (hactions ▸ mem_cons_self)
    have hcycle := hs.cycle
    rw [← heq, hactions, hone] at hcycle
    simp at hcycle

/-- Run lemma: every action of a chain is paid for by the potential it starts with. -/
theorem countP_acts_le (hchain : (o :: rest).IsChain (Follows policy)) :
    (o :: rest).countP (acts policy) ≤ o.load policy := by
  induction rest generalizing o with
  | nil =>
    -- what the last cycle plans leads to a state of its own
    have hlast : Follows policy o ⟨{ o.snapshot with nodes := _ }, o.cooldowns⟩ := .refl _
    have hle := hlast.load hsplits hmin hone
    rw [countP_cons, countP_nil]
    omega
  | cons next rest ih =>
    obtain ⟨hfollows, hchain⟩ := isChain_cons_cons.mp hchain
    have hle := hfollows.load hsplits hmin hone
    have hrest := ih hchain
    rw [countP_cons]
    omega

end Chain

end Observation

open Observation in
/-- **Rebalancing converges.**  A chain of cycles acts at most as often as the load potential of
its first snapshot says, and the planner's two computations of the potential agree. -/
theorem rebalancing_converges {policy : RebalancePolicy} (hsplits : policy.splits = false)
    (hmin : 1 ≤ policy.minExpectedImprovement) (hone : policy.maxActionsPerCycle = 1)
    {first : Observation} {rest : List Observation}
    (hchain : (first :: rest).IsChain (Follows policy)) :
    (first :: rest).countP (acts policy) ≤ loadPotential (scoreNodes first.snapshot.nodes policy) ∧
      ∀ raw s metric sourceID targetID leaderOnly, canonicalizeRebalanceSnapshot raw = .ok s →
        projectedLoadPotential s.nodes metric sourceID targetID policy leaderOnly =
          loadPotential (scoreNodes
            (s.nodes.map (projectedNode · metric sourceID targetID leaderOnly)) policy) := by
  refine ⟨?_, fun raw s metric sourceID targetID leaderOnly hs => ?_⟩
  · refine (countP_acts_le hsplits hmin hone hchain).trans ?_
    unfold load
    split_ifs
    · exact le_rfl
    · exact Nat.zero_le _
  · have h := canonical_of_ok hs
    exact projectedLoadPotential_eq ((h.nodes.map _).nodup_iff.mpr h.nodeIDs)

namespace Surplus

/-- The policy without splits and with one action in a cycle. -/
def single : RebalancePolicy :=
  { policy with splits := false, maxActionsPerCycle := 1, minExpectedImprovement := 1 }

/-- The snapshot once node 1 has handed over one leadership. -/
def level : RebalanceClusterSnapshot :=
  { skewed with nodes := [{ nodeID := 1, leaders := 2 }, { nodeID := 2, leaders := 2 }] }

end Surplus

open Surplus in
/-- A chain of two cycles, of which the first one acts. -/
theorem transfer_converges :
    [⟨skewed, {}⟩, ⟨level, {}⟩].countP (Observation.acts single) = 1 ∧
      [⟨skewed, {}⟩, ⟨level, {}⟩].countP (Observation.acts single) ≤
        loadPotential (scoreNodes skewed.nodes single) := by
  have hchain : [⟨skewed, {}⟩, ⟨level, {}⟩].IsChain (Observation.Follows single) :=
    isChain_cons_cons.mpr ⟨.of_eq (by decide +kernel), .singleton _⟩
  exact ⟨by decide +kernel, (rebalancing_converges rfl le_rfl rfl hchain).1⟩

end RivetDB.Multiraft
