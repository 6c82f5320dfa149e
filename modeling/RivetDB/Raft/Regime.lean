import RivetDB.Consensus.Invariant
import RivetDB.Consensus.Majority
import RivetDB.Raft.Membership

/-!
# The membership rules of a run

What elections and commits depend on in a configuration is its version and its
two voter lists: its `Ballot`.  A `Regime` fixes how ballots are read in a run.

* A **frozen** regime never changes the voters.  Nodes may still be built with
  different versions and learners, and configuration entries may change the
  learners, so versions are ignored.
* A **changing** regime lets configuration entries replace one another, each a
  valid transition from the one before (`Regime.Chain`).

`Regime.rules` is the instance of the consensus library for either regime: along
one log, configurations at most one version apart have intersecting quorums.
-/

namespace RivetDB.Raft

open Raft.Configuration List Consensus

/-- The part of a configuration that elections and commits depend on. -/
structure Ballot where
  version : ℕ
  oldVoters : List NodeID
  newVoters : List NodeID
deriving DecidableEq

namespace Ballot

/-- A set of nodes that may decide for the ballot. -/
def Quorum (b : Ballot) (A : Set NodeID) : Prop :=
  Majority b.oldVoters A ∧ (b.newVoters ≠ [] → Majority b.newVoters A)

/-- The transitions `validateConfigurationTransition` admits. -/
def Follows (b b' : Ballot) : Prop :=
  b'.version = b.version + 1 ∧
    if b.newVoters ≠ [] then b'.oldVoters = b.newVoters else b'.oldVoters = b.oldVoters

variable {A B : Set NodeID}

theorem Quorum.meet {b : Ballot} (hA : b.Quorum A) (hB : b.Quorum B) : ∃ x, x ∈ A ∧ x ∈ B :=
  hA.1.meet hB.1

/-- Quorums on both sides of a transition meet. -/
theorem Follows.meet {b b' : Ballot} (h : b.Follows b')
    (hA : b.Quorum A) (hB : b'.Quorum B) : ∃ x, x ∈ A ∧ x ∈ B := by
  obtain ⟨-, hvoters⟩ := h
  split at hvoters
  · rename_i hjoint
    exact (hA.2 hjoint).meet (hvoters ▸ hB.1)
  · exact hA.1.meet (hvoters ▸ hB.1)

end Ballot

namespace Configuration

variable {c d : Configuration} {f g : NodeID → Bool} {voters : List NodeID}

theorem majorityAcknowledged_iff (hne : voters ≠ []) :
    majorityAcknowledged voters f = true ↔ voters.length < 2 * voters.countP f := by
  have hlen := length_pos_iff.mpr hne
  simp only [majorityAcknowledged, Raft.quorum, if_neg hlen.ne', ge_iff_le, decide_eq_true_eq]
  omega

theorem quorum_iff : c.quorum f = true ↔ majorityAcknowledged c.oldVoters f = true ∧
    (c.newVoters ≠ [] → majorityAcknowledged c.newVoters f = true) := by
  simp only [quorum, joint]
  cases majorityAcknowledged c.oldVoters f <;> simp [imp_iff_not_or]

theorem majorities_meet (hne : voters ≠ []) (hf : majorityAcknowledged voters f = true)
    (hg : majorityAcknowledged voters g = true) : ∃ x ∈ voters, f x = true ∧ g x = true := by
  rw [majorityAcknowledged_iff hne] at hf hg
  exact exists_of_length_lt (by omega)

/-- The voters a transition keeps: those that decide alone afterwards. -/
theorem kept_of_transition (h : c.validateTransition d = .ok ()) :
    d.oldVoters.Perm (if c.newVoters ≠ [] then c.newVoters else c.oldVoters) := by
  have hold : ∀ c : Configuration, c.normalize.oldVoters.Perm c.oldVoters :=
    fun c => perm_insertionSort _ _
  have hnew : c.normalize.newVoters.Perm c.newVoters := perm_insertionSort _ _
  have hjoint : c.normalize.newVoters ≠ [] ↔ c.newVoters ≠ [] := by
    rw [Ne, Ne, ← length_eq_zero_iff, hnew.length_eq, length_eq_zero_iff]
  have hvoters := (validateTransition_ok h).2.2
  simp only [hjoint] at hvoters
  split_ifs at hvoters ⊢
  · exact (hold d).symm.trans (hvoters ▸ hnew)
  · exact (hold d).symm.trans (hvoters ▸ hold c)

/-- Two quorums of a valid configuration share a voter, and so do a quorum in front of an
admitted transition and one behind it. -/
theorem quorums_share_voter (f g : NodeID → Bool) :
    (∀ c : Configuration, c.validate = .ok () → c.quorum f = true → c.quorum g = true →
      ∃ x, c.voter x = true ∧ f x = true ∧ g x = true) ∧
    (∀ c d : Configuration, c.validateTransition d = .ok () →
      c.quorum f = true → d.quorum g = true →
        ∃ x, c.voter x = true ∧ d.voter x = true ∧ f x = true ∧ g x = true) := by
  constructor
  · intro c hvalid hf hg
    obtain ⟨x, hx, hboth⟩ := majorities_meet (validate_ok hvalid).2 (quorum_iff.mp hf).1
      (quorum_iff.mp hg).1
    exact ⟨x, by simp [voter, hx], hboth⟩
  · intro c d htransition hf hg
    have hkept := kept_of_transition htransition
    have hne : d.oldVoters ≠ [] := (validateTransition_ok htransition).2.1
    -- the old quorum holds a majority of what is kept, in the order of the new list
    have hmajority : majorityAcknowledged d.oldVoters f = true ∧
        ∀ x ∈ d.oldVoters, c.voter x = true := by
      rw [majorityAcknowledged_iff hne, hkept.length_eq, hkept.countP_eq]
      split_ifs at hkept ⊢ with hjoint
      · exact ⟨(majorityAcknowledged_iff hjoint).mp ((quorum_iff.mp hf).2 hjoint),
          fun x hx => by simp [voter, hkept.mem_iff.mp hx]⟩
      · have hold : c.oldVoters ≠ [] := fun hnil => hne (hnil ▸ hkept).eq_nil
        exact ⟨(majorityAcknowledged_iff hold).mp (quorum_iff.mp hf).1,
          fun x hx => by simp [voter, hkept.mem_iff.mp hx]⟩
    obtain ⟨x, hx, hboth⟩ := majorities_meet hne hmajority.1 (quorum_iff.mp hg).1
    exact ⟨x, hmajority.2 x hx, by simp [voter, hx], hboth⟩

/-- Voters 1, 2, 3 on their way to 3, 4, 5: the joint quorum and the new one meet. -/
theorem joint_quorums_share_voter :
    ∃ x,
      ({ version := 2, oldVoters := [1, 2, 3], newVoters := [5, 4, 3] } : Configuration).voter x =
        true ∧ ({ version := 3, oldVoters := [3, 4, 5] } : Configuration).voter x = true ∧
      ([1, 3, 4] : List NodeID).contains x = true ∧ ([4, 5] : List NodeID).contains x = true :=
  (quorums_share_voter _ _).2 _ _ (by decide) (by decide) (by decide)

end Configuration

/-- How the ballots of a run are read, and which ballot it starts with. -/
structure Regime where
  frozen : Bool
  base : Ballot

namespace Regime

variable (ρ : Regime)

/-- The ballot of a configuration. -/
def view (c : Configuration) : Ballot :=
  { version := if ρ.frozen then 0 else c.version.toNat
    oldVoters := c.normalize.oldVoters
    newVoters := c.normalize.newVoters }

/-- What one entry does to the ballot in force. -/
def advance (b : Ballot) (e : Entry) : Ballot :=
  match e.kind, decode e.command with
  | .config, .ok next => ρ.view next
  | _, _ => b

/-- The ballot a log puts in force. -/
def conf (F : List Entry) : Ballot := F.foldl ρ.advance ρ.base

/-- Every configuration entry keeps the ballot before it or follows it. -/
def Chain (F : List Entry) : Prop :=
  ∀ P e, P ++ [e] <+: F → e.kind = .config →
    ρ.conf (P ++ [e]) = ρ.conf P ∨ (ρ.conf P).Follows (ρ.conf (P ++ [e]))

variable {ρ}

theorem conf_concat (P : List Entry) (e : Entry) : ρ.conf (P ++ [e]) = ρ.advance (ρ.conf P) e := by
  simp [conf]

variable {P : List Entry} {e : Entry}

theorem conf_concat_of_kind (h : e.kind ≠ .config) : ρ.conf (P ++ [e]) = ρ.conf P := by
  rw [conf_concat, advance]
  split
  · contradiction
  · rfl

variable {next : Configuration}

theorem conf_concat_of_decode (h : e.kind = .config) (hnext : decode e.command = .ok next) :
    ρ.conf (P ++ [e]) = ρ.view next := by
  rw [conf_concat, advance, h, hnext]

variable {Q : List Entry}

theorem conf_append_of_kind (h : ∀ e ∈ Q, e.kind ≠ .config) : ρ.conf (P ++ Q) = ρ.conf P := by
  induction Q using List.reverseRecOn with
  | nil => simp
  | append_singleton Q e ih =>
    rw [← append_assoc, conf_concat_of_kind (h e (by simp)), ih fun e' he' => h e' (by simp [he'])]

/-- The configuration of a log is that of a configuration entry of its end, or
that of the rest. -/
theorem conf_append_cases (ρ : Regime) (Q tail : List Entry) :
    ρ.conf (Q ++ tail) = ρ.conf Q ∨ ∃ e ∈ tail, e.kind = .config ∧
      ∃ next, decode e.command = .ok next ∧ ρ.conf (Q ++ tail) = ρ.view next := by
  induction tail using List.reverseRecOn with
  | nil => simp
  | append_singleton tail e ih =>
    rw [← append_assoc, conf_concat]
    by_cases hlast : e.kind = .config ∧ ∃ next, decode e.command = .ok next
    · obtain ⟨hkind, next, hnext⟩ := hlast
      refine .inr ⟨e, by simp, hkind, next, hnext, ?_⟩
      rw [advance, hkind, hnext]
    · have hsame : ρ.advance (ρ.conf (Q ++ tail)) e = ρ.conf (Q ++ tail) := by
        unfold advance
        split
        · rename_i next hkind hnext
          exact absurd ⟨hkind, next, hnext⟩ hlast
        · rfl
      rw [hsame]
      refine ih.imp_right ?_
      rintro ⟨e', he', hrest⟩
      exact ⟨e', by simp [he'], hrest⟩

theorem chain_nil : ρ.Chain [] := by
  intro P e h
  simp at h

theorem Chain.of_le (h : ρ.Chain P) (le : Q <+: P) : ρ.Chain Q :=
  fun P' e hP' hkind => h P' e (hP'.trans le) hkind

theorem Chain.concat (h : ρ.Chain P)
    (he : e.kind = .config →
      ρ.conf (P ++ [e]) = ρ.conf P ∨ (ρ.conf P).Follows (ρ.conf (P ++ [e]))) :
    ρ.Chain (P ++ [e]) := by
  intro P' e' hP' hkind
  rcases prefix_concat_iff.mp hP' with heq | hle
  · obtain ⟨rfl, hlast⟩ := append_inj' heq rfl
    obtain rfl := singleton_inj.mp hlast
    exact he hkind
  · exact h P' e' hle hkind

/-- Along a chain the ballot stays, moves one version on, or moves further. -/
theorem Chain.conf_cases (h : ρ.Chain P) (le : Q <+: P) :
    ρ.conf P = ρ.conf Q ∨ (ρ.conf Q).Follows (ρ.conf P) ∨
      (ρ.conf Q).version + 2 ≤ (ρ.conf P).version := by
  obtain ⟨tail, rfl⟩ := le
  induction tail using List.reverseRecOn with
  | nil => simp
  | append_singleton tail e ih =>
    rw [← append_assoc] at h ⊢
    have hprev := ih (h.of_le (prefix_append _ _))
    by_cases hkind : e.kind = .config
    · rcases h _ e prefix_rfl hkind with hsame | hstep
      · rwa [hsame]
      rcases hprev with heq | hfol | hfar
      · exact .inr (.inl (heq ▸ hstep))
      · have := hfol.1
        have := hstep.1
        exact .inr (.inr (by omega))
      · have := hstep.1
        exact .inr (.inr (by omega))
    · rw [conf_concat_of_kind hkind]
      exact hprev

variable (ρ)

/-- The consensus rules of a regime. -/
def rules : Rules NodeID Entry Ballot where
  term := Entry.term
  version := Ballot.version
  conf := ρ.conf
  Quorum := Ballot.Quorum
  Chain := ρ.Chain
  chain_prefix h le := h.of_le le
  version_mono h le := by
    rcases h.conf_cases le with heq | hfol | hfar
    · rw [heq]
    · have := hfol.1
      omega
    · omega
  conf_eq h le hver := by
    rcases h.conf_cases le with heq | hfol | hfar
    · exact heq.symm
    · have := hfol.1
      omega
    · omega
  meet h le hver hA hB := by
    rcases h.conf_cases le with heq | hfol | hfar
    · exact hA.meet (heq ▸ hB)
    · exact hfol.meet hA hB
    · omega

variable {ρ}

/-- While the voters are kept, every log puts the same ballot in force. -/
theorem Chain.conf_frozen (h : ρ.Chain P) (hfrozen : ρ.frozen = true)
    (hnext : ρ.view next = ρ.base) : ρ.conf P = ρ.base := by
  have hzero : ∀ c, (ρ.view c).version = 0 := fun c => by simp [view, hfrozen]
  have hversion : (ρ.conf P).version = ρ.base.version := by
    rw [← hnext, hzero]
    rcases conf_append_cases ρ [] P with heq | ⟨-, -, -, c, -, heq⟩ <;> rw [nil_append] at heq
    · rw [heq, show ρ.conf [] = ρ.base from rfl, ← hnext, hzero]
    · rw [heq, hzero]
  exact (ρ.rules.conf_eq h nil_prefix hversion.symm).symm

theorem view_normalize (c : Configuration) : ρ.view c.normalize = ρ.view c := by
  simp [view, Configuration.normalize]

variable {voters : List NodeID} {f : NodeID → Bool}

theorem majority_of_acknowledged (h : majorityAcknowledged voters f = true) (hne : voters ≠ []) :
    Majority (voters.insertionSort (· ≤ ·)) {x | f x = true} := by
  have hperm := perm_insertionSort (· ≤ ·) voters
  refine ⟨f, fun _ hx => hx, ?_⟩
  rw [hperm.length_eq, hperm.countP_eq]
  exact (majorityAcknowledged_iff hne).mp h

variable {c : Configuration}

/-- What the code counts as a quorum is a quorum of the ballot. -/
theorem quorum_view (hne : c.oldVoters ≠ [])
    (h : c.quorum f = true) : (ρ.view c).Quorum {x | f x = true} := by
  obtain ⟨hold, hnew⟩ := quorum_iff.mp h
  refine ⟨majority_of_acknowledged hold hne, fun hjoint => ?_⟩
  have hne' : c.newVoters ≠ [] := by
    rintro hnil
    exact hjoint (by simp [view, Configuration.normalize, hnil])
  exact majority_of_acknowledged (hnew hne') hne'

/-- An admitted transition is one step of the chain. -/
theorem follows_of_transition (hf : ρ.frozen = false)
    (h : c.validateTransition next = .ok ()) : (ρ.view c).Follows (ρ.view next) := by
  obtain ⟨hversion, -, hvoters⟩ := validateTransition_ok h
  refine ⟨?_, hvoters⟩
  simp [view, hf, hversion]

/-- Ballots of valid configurations ordered by version. -/
theorem view_version_le {c c' : Configuration} (h : ¬ c.version > c'.version) :
    (ρ.view c).version ≤ (ρ.view c').version := by
  have hle : c.version.toNat ≤ c'.version.toNat := by
    rw [gt_iff_lt, UInt64.lt_iff_toNat_lt] at h
    omega
  simp only [view]
  split
  · exact Nat.le_refl _
  · exact hle

end Regime

end RivetDB.Raft
