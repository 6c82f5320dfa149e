import Mathlib.Data.List.Infix
import Mathlib.Data.Set.Basic
import Mathlib.Tactic.Common

/-!
# Election and commit histories of a leader-based log

A leader-based replication protocol is described here by what it leaves behind:
which node won which term and with which log (`History.elect`), how far every
term's leader grew its log (`History.log`), how much of that log each node has
acknowledged in that term (`History.ack`), and which prefixes a quorum was
counted for (`History.commits`).  None of these records is ever taken back, so a
fact stated over them stays true along a run.

The membership may change along the log.  `Rules.conf` reads the configuration
in force off a log, versions number the configurations, and the only thing
assumed about quorums is that two configurations of one log whose versions
differ by at most one have intersecting quorums (`Rules.meet`).

* `Sound` collects the facts a protocol has to record about its own elections
  and commits.
* `Sound.complete` is leader completeness: a committed prefix is contained in
  the log every later leader was elected with.
* `Sound.committed_comparable` is agreement: two committed prefixes never
  diverge.

### Why versions lag by one

A node may act under a configuration that its log has already replaced.  What
`Candidacy.current` and `Sound.commit_current` ask is that the log is at most
**one** version ahead of the configuration in use; two versions ahead is where
quorums stop intersecting.
-/

namespace RivetDB.Consensus

open List

universe u v w

/-- How the entries of a log are read: the term of an entry, the configuration a
log puts in force, and what counts as a quorum of a configuration. -/
structure Rules (ν : Type u) (ε : Type v) (κ : Type w) where
  term : ε → ℕ
  version : κ → ℕ
  conf : List ε → κ
  Quorum : κ → Set ν → Prop
  /-- Logs whose configurations follow one another legally. -/
  Chain : List ε → Prop
  chain_prefix : ∀ {P Q}, Chain P → Q <+: P → Chain Q
  version_mono : ∀ {P Q}, Chain P → Q <+: P → version (conf Q) ≤ version (conf P)
  conf_eq : ∀ {P Q}, Chain P → Q <+: P →
    version (conf Q) = version (conf P) → conf Q = conf P
  meet : ∀ {P Q A B}, Chain P → Q <+: P →
    version (conf P) ≤ version (conf Q) + 1 →
    Quorum (conf Q) A → Quorum (conf P) B → ∃ x, x ∈ A ∧ x ∈ B

/-- The record of one won election. -/
structure Election (ν : Type u) (ε : Type v) (κ : Type w) where
  leader : ν
  /-- The log the candidate campaigned with. -/
  init : List ε
  /-- The configuration the votes were counted under. -/
  config : κ
  voters : Set ν

/-- The record of one commit decision: the leader of `term` counted a quorum of
`config` for the first `index` entries of its log. -/
structure Commit (ν : Type u) (κ : Type w) where
  index : ℕ
  term : ℕ
  config : κ
  acks : Set ν

/-- Everything a run of the protocol has recorded so far. -/
structure History (ν : Type u) (ε : Type v) (κ : Type w) where
  elect : ℕ → Option (Election ν ε κ)
  log : ℕ → List ε
  ack : ν → ℕ → ℕ
  commits : Set (Commit ν κ)

variable {ν : Type u} {ε : Type v} {κ : Type w}

namespace History

/-- The prefix a commit decision is about. -/
def covered (H : History ν ε κ) (k : Commit ν κ) : List ε := (H.log k.term).take k.index

/-- What a voter `x` of a term owes to the acknowledgements it gave before: a
prefix it acknowledged in an earlier term is in the log `F` it voted for, unless
a leader admitted by `bound` was itself elected without that prefix. -/
def VoteKeeps (H : History ν ε κ) (term : ε → ℕ) (x : ν) (T : ℕ)
    (bound : ℕ → Prop) (F : List ε) : Prop :=
  ∀ T₀ m, T₀ < T → m ≤ H.ack x T₀ →
    (∃ e, (H.log T₀)[m - 1]? = some e ∧ term e = T₀) →
    (H.log T₀).take m <+: F ∨
      ∃ T₁ r₁, bound T₁ ∧ T₀ < T₁ ∧ H.elect T₁ = some r₁ ∧
        ¬ (H.log T₀).take m <+: r₁.init

/-- A configuration is either the initial one or the last one of a prefix that
was committed in a term admitted by `bound`. -/
def Origin (H : History ν ε κ) (R : Rules ν ε κ) (bound : ℕ → Prop) (c : κ) : Prop :=
  c = R.conf [] ∨
    ∃ k ∈ H.commits, bound k.term ∧ R.conf (H.covered k) = c ∧
      R.version k.config + 1 = R.version c

variable {H : History ν ε κ} {R : Rules ν ε κ}

theorem Origin.mono {bound bound' : ℕ → Prop} {c : κ} (h : H.Origin R bound c)
    (le : ∀ T, bound T → bound' T) : H.Origin R bound' c := by
  rcases h with h | ⟨k, mem, hk, hc, hv⟩
  · exact .inl h
  · exact .inr ⟨k, mem, le _ hk, hc, hv⟩

end History

/-- The facts that make a candidate's log safe to lead with: it was chosen by a
quorum of voters that keep their acknowledgements, under a configuration of
known origin that the log is at most one version ahead of. -/
structure Candidacy (R : Rules ν ε κ) (H : History ν ε κ) (T : ℕ)
    (bound : ℕ → Prop) (init : List ε) (config : κ) (voters : Set ν) : Prop where
  chain : R.Chain init
  quorum : R.Quorum config voters
  keeps : ∀ x ∈ voters, H.VoteKeeps R.term x T bound init
  origin : H.Origin R (· < T) config
  current : R.version (R.conf init) ≤ R.version config + 1

/-- The facts a protocol records about its elections and commits. -/
structure Sound (R : Rules ν ε κ) (H : History ν ε κ) : Prop where
  chain : ∀ T, R.Chain (H.log T)
  split : ∀ {T r}, H.elect T = some r → ∃ tail, H.log T = r.init ++ tail ∧
    (∀ e ∈ r.init, R.term e < T) ∧ ∀ e ∈ tail, R.term e = T
  candidacy : ∀ {T r}, H.elect T = some r →
    Candidacy R H T (· < T) r.init r.config r.voters
  commit_elected : ∀ {k}, k ∈ H.commits → ∃ r, H.elect k.term = some r
  commit_term : ∀ {k}, k ∈ H.commits →
    ∃ e, (H.log k.term)[k.index - 1]? = some e ∧ R.term e = k.term
  commit_pos : ∀ {k}, k ∈ H.commits → 0 < k.index
  commit_quorum : ∀ {k}, k ∈ H.commits → R.Quorum k.config k.acks
  commit_acked : ∀ {k}, k ∈ H.commits → ∀ x ∈ k.acks, k.index ≤ H.ack x k.term
  commit_origin : ∀ {k}, k ∈ H.commits → H.Origin R (· ≤ k.term) k.config
  commit_current : ∀ {k}, k ∈ H.commits →
    R.version (R.conf (H.covered k)) ≤ R.version k.config + 1

namespace Sound

variable {R : Rules ν ε κ} {H : History ν ε κ}
  {k : Commit ν κ} {r : Election ν ε κ} {bound : ℕ → Prop}

/-- The committed prefix reaches past the log its leader was elected with. -/
theorem init_prefix_covered (S : Sound R H) (mem : k ∈ H.commits) (hr : H.elect k.term = some r) :
    r.init <+: H.covered k := by
  obtain ⟨tail, hlog, hinit, -⟩ := S.split hr
  obtain ⟨e, he, hterm⟩ := S.commit_term mem
  have hlen : r.init.length ≤ k.index := by
    by_contra hlt
    have hlt' : k.index - 1 < r.init.length := by omega
    rw [hlog, getElem?_append_left hlt'] at he
    have := hinit e (mem_of_getElem? he)
    omega
  rw [History.covered, hlog]
  exact prefix_take_iff.mpr ⟨prefix_append _ _, hlen⟩

theorem commit_index_le (S : Sound R H) (mem : k ∈ H.commits) :
    k.index ≤ (H.log k.term).length := by
  obtain ⟨e, he, -⟩ := S.commit_term mem
  have := (List.getElem?_eq_some_iff.mp he).1
  omega

theorem chain_covered (S : Sound R H) (k : Commit ν κ) : R.Chain (H.covered k) :=
  R.chain_prefix (S.chain k.term) ⟨_, take_append_drop _ _⟩

variable {k' : Commit ν κ}

/-- Two prefixes committed below a bound do not diverge, once the leaders below
that bound are known to contain the commits before them. -/
theorem comparable_of_below (S : Sound R H) (bound : ℕ → Prop)
    (below : ∀ T₁ r₁, bound T₁ → H.elect T₁ = some r₁ →
      ∀ k ∈ H.commits, k.term < T₁ → H.covered k <+: r₁.init)
    (mem : k ∈ H.commits) (mem' : k' ∈ H.commits)
    (hk : bound k.term) (hk' : bound k'.term) :
    H.covered k <+: H.covered k' ∨ H.covered k' <+: H.covered k := by
  rcases lt_trichotomy k.term k'.term with hlt | heq | hgt
  · obtain ⟨r', hr'⟩ := S.commit_elected mem'
    exact .inl ((below _ _ hk' hr' _ mem hlt).trans (S.init_prefix_covered mem' hr'))
  · unfold History.covered
    rw [heq]
    exact prefix_or_prefix_of_prefix ⟨_, take_append_drop _ _⟩ ⟨_, take_append_drop _ _⟩
  · obtain ⟨r, hr⟩ := S.commit_elected mem
    exact .inr ((below _ _ hk hr _ mem' hgt).trans (S.init_prefix_covered mem hr))

variable {c : κ}

/-- The prefix that put a configuration in force: empty for the initial
configuration, the committed one otherwise. -/
theorem exists_origin_log (S : Sound R H) (h : H.Origin R bound c) :
    ∃ Q, R.conf Q = c ∧ R.Chain Q ∧ (Q = [] ∨ ∃ k ∈ H.commits, bound k.term ∧ Q = H.covered k) := by
  rcases h with rfl | ⟨k, mem, hk, rfl, -⟩
  · exact ⟨[], rfl, R.chain_prefix (S.chain 0) nil_prefix, .inl rfl⟩
  · exact ⟨_, rfl, S.chain_covered k, .inr ⟨k, mem, hk, rfl⟩⟩

/-- Quorums of two configurations of known origin meet as soon as their versions
are at most one apart. -/
theorem quorums_meet (S : Sound R H) (below : ∀ T₁ r₁, bound T₁ → H.elect T₁ = some r₁ →
      ∀ k ∈ H.commits, k.term < T₁ → H.covered k <+: r₁.init)
    {c d : κ} (hc : H.Origin R bound c) (hd : H.Origin R bound d)
    (hcd : R.version c ≤ R.version d + 1) (hdc : R.version d ≤ R.version c + 1)
    {A B : Set ν} (hA : R.Quorum c A) (hB : R.Quorum d B) :
    ∃ x, x ∈ A ∧ x ∈ B := by
  obtain ⟨Q, rfl, chainQ, originQ⟩ := S.exists_origin_log hc
  obtain ⟨P, rfl, chainP, originP⟩ := S.exists_origin_log hd
  have hcomp : Q <+: P ∨ P <+: Q := by
    rcases originQ with rfl | ⟨k, mem, hk, rfl⟩
    · exact .inl nil_prefix
    rcases originP with rfl | ⟨k', mem', hk', rfl⟩
    · exact .inr nil_prefix
    exact S.comparable_of_below _ below mem mem' hk hk'
  rcases hcomp with h | h
  · exact R.meet chainP h hdc hA hB
  · obtain ⟨x, hxB, hxA⟩ := R.meet chainQ h hcd hB hA
    exact ⟨x, hxA, hxB⟩

theorem version_initial_le (S : Sound R H)
    (h : H.Origin R bound c) : R.version (R.conf []) ≤ R.version c := by
  obtain ⟨Q, rfl, chainQ, -⟩ := S.exists_origin_log h
  exact R.version_mono chainQ nil_prefix

variable {T : ℕ} {init : List ε} {config : κ} {voters : Set ν}

/-- **A safe candidacy contains every earlier commit.**  The bound says which
terms' leaders are already known to be complete. -/
theorem complete_of_candidacy (S : Sound R H) (hbound : ∀ T₁, T₁ < T → bound T₁)
    (below : ∀ T₁ r₁, bound T₁ → H.elect T₁ = some r₁ →
      ∀ k ∈ H.commits, k.term < T₁ → H.covered k <+: r₁.init)
    (C : Candidacy R H T bound init config voters) :
    ∀ k ∈ H.commits, k.term < T → H.covered k <+: init := by
  have originC : H.Origin R bound config := C.origin.mono hbound
  have originK : ∀ k ∈ H.commits, k.term < T → H.Origin R bound k.config :=
    fun k mem hk => (S.commit_origin mem).mono fun T₁ h₁ => hbound _ (by omega)
  -- a voter that acknowledged the commit carries it into the candidate's log
  have shared : ∀ k ∈ H.commits, k.term < T →
      (∃ x, x ∈ k.acks ∧ x ∈ voters) → H.covered k <+: init := by
    rintro k mem hk ⟨x, hack, hvote⟩
    rcases C.keeps x hvote k.term k.index hk (S.commit_acked mem x hack)
      (S.commit_term mem) with h | ⟨T₁, r₁, hT₁, hlt, hr₁, hnot⟩
    · exact h
    · exact absurd (below T₁ r₁ hT₁ hr₁ k mem hlt) hnot
  have near : ∀ k ∈ H.commits, k.term < T →
      R.version k.config ≤ R.version config + 1 →
      R.version config ≤ R.version k.config + 1 → H.covered k <+: init :=
    fun k mem hk h₁ h₂ => shared k mem hk (S.quorums_meet below (originK k mem hk) originC h₁ h₂
        (S.commit_quorum mem) C.quorum)
  -- induction on the version the commit was counted under
  suffices key : ∀ v, ∀ k ∈ H.commits, k.term < T → R.version k.config = v →
      H.covered k <+: init from fun k mem hk => key _ k mem hk rfl
  intro v
  induction v using Nat.strong_induction_on with
  | _ v ih =>
    intro k mem hk hv
    rcases Nat.lt_or_ge (R.version config + 1) (R.version k.config) with hfar | hle
    · -- the commit ran ahead of the candidate: its own configuration was
      -- committed first, so the candidate's log would be two versions ahead
      rcases S.commit_origin mem with hinit | ⟨k', mem', hk', hconf, hver⟩
      · have := S.version_initial_le originC
        rw [hinit] at hfar
        omega
      · have hin := ih (R.version k'.config) (by omega) k' mem' (by omega) rfl
        have := R.version_mono C.chain hin
        have := C.current
        rw [hconf] at *
        omega
    · rcases Nat.lt_or_ge (R.version k.config + 1) (R.version config) with hfar | hle'
      · -- the candidate ran ahead of the commit: the commit that installed its
        -- configuration already covers this one
        rcases C.origin with hinit | ⟨k', mem', hk', hconf, hver⟩
        · have := S.version_initial_le (originK k mem hk)
          rw [hinit] at hfar
          omega
        · have hin : H.covered k' <+: init :=
            near k' mem' hk' (by omega) (by omega)
          rcases S.comparable_of_below _ below mem mem' (hbound _ hk) (hbound _ hk') with h | h
          · exact h.trans hin
          · exfalso
            have h₁ := R.version_mono (S.chain_covered k) h
            have h₂ := S.commit_current mem
            rw [hconf] at h₁
            omega
      · exact near k mem hk hle hle'

/-- **Leader completeness.**  A committed prefix is contained in the log that
every leader of a later term was elected with. -/
theorem complete (S : Sound R H) (hr : H.elect T = some r) :
    ∀ k ∈ H.commits, k.term < T → H.covered k <+: r.init := by
  induction T using Nat.strong_induction_on generalizing r with
  | _ T ih =>
    exact S.complete_of_candidacy (fun _ h => h)
      (fun T₁ r₁ hlt hr₁ => ih T₁ hlt hr₁) (S.candidacy hr)

/-- Committed prefixes are contained in the log of every leader of the same or a
later term. -/
theorem covered_prefix_of_le (S : Sound R H) (hr : H.elect T = some r) (mem : k ∈ H.commits)
    (hk : k.term ≤ T) : H.covered k <+: H.log T := by
  rcases Nat.lt_or_ge k.term T with hlt | hge
  · obtain ⟨tail, hlog, -⟩ := S.split hr
    rw [hlog]
    exact (S.complete hr k mem hlt).trans (prefix_append _ _)
  · obtain rfl : k.term = T := by omega
    exact take_prefix _ _

/-- **Agreement.**  Two committed prefixes never diverge. -/
theorem committed_comparable (S : Sound R H) (mem : k ∈ H.commits) (mem' : k' ∈ H.commits) :
    H.covered k <+: H.covered k' ∨ H.covered k' <+: H.covered k :=
  S.comparable_of_below (fun _ => True) (fun _ _ _ hr₁ => S.complete hr₁) mem mem' trivial trivial

/-- **Election safety.**  A second safe candidacy for a won term shares a voter
with the first. -/
theorem shared_voter (S : Sound R H) (hr : H.elect T = some r)
    (C : Candidacy R H T (· ≤ T) init config voters) :
    ∃ x, x ∈ r.voters ∧ x ∈ voters := by
  have C' := S.candidacy hr
  have below : ∀ T₁ r₁, T₁ ≤ T → H.elect T₁ = some r₁ →
      ∀ k ∈ H.commits, k.term < T₁ → H.covered k <+: r₁.init :=
    fun T₁ r₁ _ hr₁ => S.complete hr₁
  have hin := S.complete_of_candidacy (fun _ h => Nat.le_of_lt h) below C
  have ahead : ∀ {c d F}, R.Chain F → H.Origin R (· < T) c → H.Origin R (· < T) d →
      (∀ k ∈ H.commits, k.term < T → H.covered k <+: F) →
      R.version (R.conf F) ≤ R.version d + 1 → R.version c ≤ R.version d + 1 := by
    intro c d F hF hc hd hcov hcur
    rcases hc with rfl | ⟨k, mem, hk, rfl, -⟩
    · have := S.version_initial_le hd
      omega
    · exact (R.version_mono hF (hcov k mem hk)).trans hcur
  exact S.quorums_meet below (C'.origin.mono fun _ h => Nat.le_of_lt h)
    (C.origin.mono fun _ h => Nat.le_of_lt h)
    (ahead C.chain C'.origin C.origin hin C.current)
    (ahead C'.chain C.origin C'.origin (S.complete hr) C'.current)
    C'.quorum C.quorum

/-- **Committed configurations have an origin.**  The configuration a committed
prefix ends in was itself decided under the version before it. -/
theorem origin_of_committed (S : Sound R H) (mem : k ∈ H.commits)
    {P : List ε} (hP : P <+: H.covered k) : H.Origin R (· ≤ k.term) (R.conf P) := by
  suffices key : ∀ v, ∀ k ∈ H.commits, R.version k.config = v → P <+: H.covered k →
      H.Origin R (· ≤ k.term) (R.conf P) from key _ k mem rfl hP
  intro v
  induction v using Nat.strong_induction_on with
  | _ v ih =>
    intro k mem hv hP
    have chainP : R.Chain P := R.chain_prefix (S.chain_covered k) hP
    have hmono := R.version_mono (S.chain_covered k) hP
    have hcur := S.commit_current mem
    rcases Nat.lt_or_ge (R.version k.config) (R.version (R.conf P)) with hlt | hle
    · -- the commit itself decided the configuration
      have heq := R.conf_eq (S.chain_covered k) hP (by omega)
      exact .inr ⟨k, mem, Nat.le_refl _, heq.symm, by omega⟩
    rcases S.commit_origin mem with hinit | ⟨k', mem', hk', hconf, hver⟩
    · have hzero := R.version_mono chainP nil_prefix
      rw [hinit] at hle
      exact .inl (R.conf_eq chainP nil_prefix (by omega)).symm
    have hcomp : P <+: H.covered k' ∨ H.covered k' <+: P := by
      rcases S.committed_comparable mem mem' with h | h
      · exact .inl (hP.trans h)
      · exact prefix_or_prefix_of_prefix hP h
    rcases hcomp with h | h
    · exact (ih _ (by omega) k' mem' rfl h).mono fun T hT => Nat.le_trans hT hk'
    · have hmono' := R.version_mono chainP h
      rw [hconf] at hmono'
      have heq := R.conf_eq chainP h (by rw [hconf]; omega)
      rw [← heq, hconf]
      exact S.commit_origin mem

end Sound

end RivetDB.Consensus
