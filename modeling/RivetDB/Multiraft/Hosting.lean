import RivetDB.Multiraft.Node
import RivetDB.Multiraft.Partition

/-!
# Which storage a node opens

A replica that comes back on an empty directory has forgotten its votes.  `OpenNode` therefore
reports a range whose directories are gone, once bootstrap is complete.  Here is what it
really promises for one assigned range.

The argument has two halves.  During `OpenNode` an incarnation is opened only when it is
complete, so its directories do not change and the root of a replica is the one the disk had
before (`Placed`).  And what the two loops note about a range is decided by the first
descriptor that names it: `Reported`, or `Settled` in one of the ways that are not a report.
-/

namespace RivetDB.Multiraft

open List Prog
open Range (Replica ReplicaM Directories Opening Lifecycle Driver)

variable {σ α : Type} {D : Driver σ}

/-! ### Directories and their owners -/

/-- Every directory that exists was created for the replica. -/
structure Directories.OwnedBy (s : Directories) (replicaID : ℕ) : Prop where
  data : ∀ o ∈ s.data, o = replicaID
  raft : ∀ r ∈ s.raft, r.1 = replicaID

/-- What a call of `Open` for a replica may change: directories that are missing are created
for it. -/
structure Directories.Grown (replicaID : ℕ) (s s' : Directories) : Prop where
  data : s'.data = s.data ∨ s'.data = s.data.or (some replicaID)
  raft : s'.raft = s.raft ∨ s'.raft = s.raft.or (some (replicaID, {}))

namespace Directories

variable {s s' : Directories} {r : ℕ}

theorem Grown.refl : Grown r s s := ⟨.inl rfl, .inl rfl⟩

theorem forall_of_grown {α : Type} {x y : Option α} {a : α} {P : α → Prop}
    (hgrown : y = x ∨ y = x.or (some a)) (hx : ∀ o ∈ x, P o) (ha : P a) : ∀ o ∈ y, P o := by
  rcases hgrown with rfl | rfl
  · exact hx
  · rcases x with - | o
    · simpa using ha
    · simpa using hx

theorem Grown.ownedBy (hg : Grown r s s') (h : OwnedBy s r) : OwnedBy s' r :=
  ⟨forall_of_grown hg.data h.data rfl, forall_of_grown hg.raft h.raft rfl⟩

theorem ownedBy_empty : OwnedBy {} r :=
  ⟨fun _ ho => (Option.not_mem_none _ ho).elim, fun _ ho => (Option.not_mem_none _ ho).elim⟩

theorem exists_of_complete (h : s.complete = true) :
    (∃ p, s.raft = some p) ∧ ∃ o, s.data = some o := by
  unfold Directories.complete at h
  rwa [Bool.and_eq_true, Option.isSome_iff_exists, Option.isSome_iff_exists] at h

/-- Where both directories exist there is nothing to create. -/
theorem Grown.eq_of_complete (hg : Grown r s s') (h : s.complete = true) : s' = s := by
  obtain ⟨⟨p, hp⟩, o, ho⟩ := exists_of_complete h
  obtain ⟨data, raft⟩ := s
  obtain ⟨data', raft'⟩ := s'
  have hdata := hg.data
  have hraft := hg.raft
  subst hp ho
  simp only [Option.some_or, or_self] at hdata hraft
  rw [hdata, hraft]

theorem complete_of_createdFor (h : s.createdFor r = true) : s.complete = true := by
  unfold Directories.createdFor at h
  unfold Directories.complete
  obtain ⟨hdata, hraft⟩ := by simpa using h
  obtain ⟨state, hraft⟩ := hraft
  simp [hdata, hraft]

theorem createdFor_of_ownedBy (hs : s.complete = true) (h : OwnedBy s r) :
    s.createdFor r = true := by
  obtain ⟨⟨p, hp⟩, o, ho⟩ := exists_of_complete hs
  unfold Directories.createdFor
  simp [hp, ho, h.data o ho, h.raft p hp]

/-- Directories of one replica were not created for another one. -/
theorem OwnedBy.eq_of_createdFor {r' : ℕ} (h : OwnedBy s r) (hs : s.createdFor r' = true) :
    r' = r := by
  unfold Directories.createdFor at hs
  obtain ⟨hdata, -⟩ := by simpa using hs
  exact h.data r' hdata

end Directories

namespace Disk

variable {disk : Disk} {rangeID rangeID' : ℕ} {root root' : Root} {s : Directories}

theorem directories_setDirectories :
    (disk.setDirectories rangeID root s).directories rangeID' root' =
      if rangeID' = rangeID ∧ root' = root then s else disk.directories rangeID' root' := by
  unfold directories setDirectories
  simp only [Dict.get_set, Prod.mk.injEq]
  split_ifs <;> rfl

/-- Each incarnation has the storage of its own replica. -/
def WellOwned (disk : Disk) : Prop :=
  ∀ rangeID r, Directories.OwnedBy (disk.directories rangeID (.incarnation r)) r

/-- The incarnations on the disk are those of `base`. -/
def Steady (base disk : Disk) : Prop :=
  ∀ rangeID r, disk.directories rangeID (.incarnation r) =
    base.directories rangeID (.incarnation r)

variable {base : Disk}

theorem Steady.wellOwned (h : base.Steady disk) (howned : base.WellOwned) :
    disk.WellOwned := by
  intro rangeID r
  rw [h]
  exact howned rangeID r

theorem WellOwned.setDirectories (h : disk.WellOwned)
    (hs : ∀ r, root = .incarnation r → Directories.OwnedBy s r) :
    (disk.setDirectories rangeID root s).WellOwned := by
  intro rangeID' r
  rw [directories_setDirectories]
  split_ifs with hat
  · exact hs r hat.2.symm
  · exact h rangeID' r

variable {state : Raft.PersistentState}

theorem WellOwned.save (h : disk.WellOwned) : (disk.save rangeID root state).WellOwned := by
  refine h.setDirectories fun r hroot => ?_
  have howned := hroot ▸ h rangeID r
  refine ⟨howned.data, ?_⟩
  simp only [Option.mem_map, forall_exists_index, and_imp]
  rintro _ p hp rfl
  exact howned.raft p hp

end Disk

/-! ### Opening one replica -/

variable {env : Opening σ} {replicaID : ℕ} {s : Directories}

/-- The engine and the Raft store create what is missing. -/
theorem openStorage_spec :
    (Replica.openStorage env replicaID).wp (fun _ s' => Directories.Grown replicaID s s')
      (fun _ s' => Directories.Grown replicaID s s') s := by
  have attempts : ∀ {text place} {P : Directories → Prop} {E} {s' : Directories}, P s' →
      E s' → (Replica.attempt env text place).wp (fun _ => P) (fun _ => E) s' := by
    intro text place P E s' hp he
    unfold Replica.attempt
    split
    · exact he
    · exact hp
  unfold Replica.openStorage
  simp only [wp_bind, wp_modify]
  refine attempts (attempts (attempts (attempts (attempts ?_ ?_) ?_) ?_) ?_) ?_
  · exact ⟨.inr rfl, .inr rfl⟩
  · exact ⟨.inr rfl, .inr rfl⟩
  · exact ⟨.inr rfl, .inr rfl⟩
  · exact ⟨.inr rfl, .inl rfl⟩
  · exact ⟨.inr rfl, .inl rfl⟩
  · exact .refl

theorem startNode_ok {state : Raft.PersistentState} {options : Range.Options} {replica : Replica σ}
    (h : Replica.startNode D env options state = .ok replica) :
    replica.replicaID = options.replicaID := by
  unfold Replica.startNode at h
  split at h
  · cases h
  · split at h
    · cases h
    · rename_i heq
      cases h
      obtain rfl := congrArg Prod.snd heq
      rfl

/-- `Open` creates what is missing, and returns a replica with the identity it was given. -/
theorem openReplica_spec {options : Range.Options} :
    (Replica.openReplica D env options).wp
      (fun replica s' => replica.replicaID = options.replicaID ∧
        Directories.Grown options.replicaID s s')
      (fun _ s' => Directories.Grown options.replicaID s s') s := by
  unfold Replica.openReplica
  simp only [wp_bind, wp_ite, wp_throw, wp_get, wp_lift]
  refine ⟨fun _ => .refl, fun _ => wp_imp openStorage_spec fun _ s' hg => ?_⟩
  exact ⟨fun replica hr => ⟨startNode_ok hr, hg⟩, fun _ _ => hg⟩

/-- What opening a replica below a root does to the disk. -/
def Disk.Opened (rangeID : ℕ) (root : Root) (replicaID : ℕ) (disk disk' : Disk) : Prop :=
  ∃ s, Directories.Grown replicaID (disk.directories rangeID root) s ∧
    disk' = disk.setDirectories rangeID root s

variable {rangeID : ℕ} {root : Root} {disk disk' : Disk}

theorem Disk.Opened.wellOwned
    (h : disk.Opened rangeID root replicaID disk') (howned : disk.WellOwned)
    (hroot : ∀ r, root = .incarnation r → r = replicaID) : disk'.WellOwned := by
  obtain ⟨s, hg, rfl⟩ := h
  refine howned.setDirectories fun r heq => ?_
  rw [hroot r heq]
  refine hg.ownedBy ?_
  rw [heq, hroot r heq]
  exact howned rangeID replicaID

theorem openAt_spec {options : Range.Options} {text : String} :
    (openAt D env options root text).wp
      (fun hosted disk' => hosted.root = root ∧ hosted.replica.replicaID = options.replicaID ∧
        disk.Opened options.rangeID root options.replicaID disk')
      (fun err disk' => (∃ cause, err = .wrap text cause) ∧
        disk.Opened options.rangeID root options.replicaID disk') disk := by
  unfold openAt
  simp only [wp_bind, wp_get]
  have hspec : (Replica.openReplica D env options).wp _ _ (disk.directories options.rangeID root) :=
    openReplica_spec
  unfold wp at hspec
  rcases hx : (Replica.openReplica D env options).exec (disk.directories options.rangeID root)
    with ⟨err | replica, s⟩ <;> rw [hx] at hspec
  · exact ⟨⟨_, rfl⟩, s, hspec, rfl⟩
  · exact ⟨rfl, hspec.1, s, hspec.2, rfl⟩

variable {nodeID : Raft.NodeID} {d : RangeDescriptor}

/-- The descriptor has a replica with this identity on the node. -/
def RangeDescriptor.Assigns (d : RangeDescriptor) (nodeID : Raft.NodeID) (replicaID : ℕ) : Prop :=
  (d.replicaOn nodeID).map ReplicaDescriptor.replicaID = some replicaID

/-- A replica is opened as the one its descriptor has on the node, below its incarnation when that
is complete, and below the legacy root otherwise. -/
theorem openReplicaLifecycle_spec {waiters : ℤ} {lifecycle : Lifecycle} :
    (openReplicaLifecycle D nodeID waiters d lifecycle env).wp
      (fun hosted disk' => hosted.root = disk.chosenRoot d.rangeID hosted.replica.replicaID ∧
        d.Assigns nodeID hosted.replica.replicaID ∧
        disk.Opened d.rangeID hosted.root hosted.replica.replicaID disk')
      (fun err disk' => err ≠ .missingRange ∧ (disk' = disk ∨
        ∃ r, disk.Opened d.rangeID (disk.chosenRoot d.rangeID r) r disk')) disk := by
  unfold openReplicaLifecycle
  split
  · exact ⟨by simp, .inl rfl⟩
  · rename_i r hr
    refine wp_mono openAt_spec ?_ ?_
    · rintro hosted disk' ⟨hroot, hid, hopened⟩
      rw [hroot, hid]
      exact ⟨rfl, by rw [RangeDescriptor.Assigns, hr]; rfl, hopened⟩
    · rintro err disk' ⟨⟨cause, rfl⟩, hopened⟩
      exact ⟨by simp, .inr ⟨_, hopened⟩⟩

/-! ### What the loops note about a range -/

/-- The range is listed as missing and nothing is hosted for it. -/
def Host.Reported (h : Host σ) (rangeID : ℕ) : Prop :=
  h.registry.get rangeID = none ∧ h.failures.get rangeID = some .missingRange

/-- The range is hosted, or has failed in another way than by being missing. -/
def Host.Settled (h : Host σ) (rangeID : ℕ) : Prop :=
  (h.registry.get rangeID).isSome = true ∨
    ∃ err ∈ h.failures.get rangeID, err ≠ .missingRange

variable {h : Host σ}

theorem Host.Settled.not_reported (hs : h.Settled rangeID) : ¬ h.Reported rangeID := by
  rintro ⟨hnone, hmissing⟩
  rcases hs with hsome | ⟨err, herr, hne⟩
  · rw [hnone] at hsome
    cases hsome
  · rw [hmissing] at herr
    cases herr
    exact hne rfl

theorem Host.settled_fail {err : NodeError}
    (herr : err ≠ .missingRange) : (h.fail rangeID err).Settled rangeID :=
  .inr ⟨err, Dict.get_set_self, herr⟩

/-- Every replica is hosted below the root that the disk `base` offers it, and the incarnations
on the disk are still those of `base`. -/
structure Placed (base : Disk) (nodeID : Raft.NodeID) (h : Host σ) (disk : Disk) : Prop where
  id : h.id = nodeID
  steady : base.Steady disk
  placed : ∀ rangeID hosted, h.registry.get rangeID = some hosted →
    hosted.root = base.chosenRoot rangeID hosted.replica.replicaID

/-- Nothing has happened to a range. -/
structure Untouched (rangeID : ℕ) (h : Host σ) (disk : Disk) (h' : Host σ) (disk' : Disk) :
    Prop where
  registry : h'.registry.get rangeID = h.registry.get rangeID
  failures : h'.failures.get rangeID = h.failures.get rangeID
  directories : ∀ root, disk'.directories rangeID root = disk.directories rangeID root

section Loops

variable {base disk disk' disk'' : Disk} {nodeID : Raft.NodeID} {h h' h'' : Host σ}
  {rangeID rangeID' : ℕ} {d : RangeDescriptor} {retired : List RangeDescriptor}
  {options : NodeOptions} {result : Except NodeError (Hosted σ)} {f : Host σ → Host σ}
  {complete : Bool}

theorem Untouched.refl : Untouched rangeID h disk h disk := ⟨rfl, rfl, fun _ => rfl⟩

section

variable (hu : Untouched rangeID h disk h' disk')

include hu

theorem Untouched.trans
    (hu' : Untouched rangeID h' disk' h'' disk'') : Untouched rangeID h disk h'' disk'' where
  registry := hu'.registry.trans hu.registry
  failures := hu'.failures.trans hu.failures
  directories root := (hu'.directories root).trans (hu.directories root)

theorem Untouched.settled (hs : h.Settled rangeID) :
    h'.Settled rangeID := by
  unfold Host.Settled
  rw [hu.registry, hu.failures]
  exact hs

theorem Untouched.reported (hs : h.Reported rangeID) :
    h'.Reported rangeID := by
  unfold Host.Reported
  rw [hu.registry, hu.failures]
  exact hs

theorem Untouched.exist (r : ℕ) :
    disk'.replicaDirectoriesExist rangeID r = disk.replicaDirectoriesExist rangeID r := by
  unfold Disk.replicaDirectoriesExist
  rw [hu.directories, hu.directories]

end

variable {err : NodeError}

theorem Host.failures_fail (hne : rangeID ≠ rangeID') :
    (h.fail rangeID' err).failures.get rangeID = h.failures.get rangeID := by
  unfold Host.fail
  rw [Dict.get_set, if_neg hne]

theorem untouched_fail (hne : rangeID ≠ rangeID') :
    Untouched rangeID h disk (h.fail rangeID' err) disk :=
  ⟨rfl, Host.failures_fail hne, fun _ => rfl⟩

namespace Placed

theorem chosenRoot_eq (hp : Placed base nodeID h disk) (r : ℕ) :
    disk.chosenRoot rangeID r = base.chosenRoot rangeID r := by
  unfold Disk.chosenRoot
  rw [hp.steady]

theorem fail (hp : Placed base nodeID h disk) {err : NodeError} :
    Placed base nodeID (h.fail rangeID err) disk :=
  { hp with }

/-- A replica is opened where the disk offers it; an incarnation is complete then. -/
theorem opened (hp : Placed base nodeID h disk) {r : ℕ}
    (hopened : disk.Opened rangeID (disk.chosenRoot rangeID r) r disk') :
    Placed base nodeID h disk' := by
  refine { hp with steady := fun rangeID' r' => ?_ }
  obtain ⟨s, hg, rfl⟩ := hopened
  rw [Disk.directories_setDirectories, ← hp.steady]
  split_ifs with hat
  · obtain ⟨rfl, hroot⟩ := hat
    rw [← hroot] at hg
    refine hg.eq_of_complete ?_
    unfold Disk.chosenRoot at hroot
    split_ifs at hroot with hcomplete
    · cases hroot
      exact hcomplete
  · rfl

end Placed

variable {root : Root}

/-- The directories of other ranges are not looked at. -/
theorem Disk.Opened.untouched {rangeID' r : ℕ}
    (hopened : disk.Opened rangeID' root r disk') (hne : rangeID ≠ rangeID') :
    Untouched rangeID h disk h disk' := by
  refine ⟨rfl, rfl, fun root' => ?_⟩
  obtain ⟨s, -, rfl⟩ := hopened
  rw [Disk.directories_setDirectories, if_neg fun hat => hne hat.1]

/-- What the loops may do behind a registration. -/
structure Harmless (rangeID : ℕ) (f : Host σ → Host σ) : Prop where
  registry : ∀ h, (f h).registry = h.registry
  id : ∀ h, (f h).id = h.id
  failures : ∀ h rangeID', rangeID' ≠ rangeID →
    (f h).failures.get rangeID' = h.failures.get rangeID'

variable {hook : ℕ → Option NodeError}

theorem harmless_callHook : Harmless rangeID (callHook (σ := σ) hook complete rangeID) := by
  constructor
  · intro h
    unfold callHook
    split <;> rfl
  · intro h
    unfold callHook
    split <;> rfl
  · intro h rangeID' hne
    unfold callHook
    split
    · exact Host.failures_fail hne
    · rfl

theorem harmless_installTransitionDescriptor :
    Harmless rangeID (Host.installTransitionDescriptor (σ := σ) · d) :=
  ⟨fun _ => rfl, fun _ => rfl, fun _ _ _ => rfl⟩

variable {hosted : Hosted σ}

/-- The outcome of an open is a failure of the range, of its own or of the registry, or the replica
is registered. -/
theorem note_cases (h : Host σ) (rangeID : ℕ) (f : Host σ → Host σ)
    (result : Except NodeError (Hosted σ)) :
    (∃ err, h.note rangeID f result = h.fail rangeID err ∧
      (err = .missingRange → result = .error .missingRange)) ∨
    ∃ hosted, result = .ok hosted ∧
      h.note rangeID f result = f { h with registry := h.registry.set rangeID hosted } := by
  unfold Host.note
  split
  · exact .inl ⟨_, rfl, fun herr => herr ▸ rfl⟩
  · unfold Host.register
    split_ifs
    · exact .inl ⟨_, rfl, by simp⟩
    · exact .inl ⟨_, rfl, by simp⟩
    · exact .inr ⟨_, rfl, rfl⟩

/-- Whatever the outcome of an open is, noting it settles the range and leaves the others. -/
theorem note_settled (hf : Harmless rangeID f) (hresult : result ≠ .error .missingRange) :
    (h.note rangeID f result).Settled rangeID := by
  rcases note_cases h rangeID f result with ⟨err, heq, herr⟩ | ⟨hosted, -, heq⟩ <;> rw [heq]
  · exact Host.settled_fail fun hmissing => hresult (herr hmissing)
  · refine .inl ?_
    rw [hf.registry, Dict.get_set_self]
    rfl

theorem note_untouched (hf : Harmless rangeID' f) (hne : rangeID ≠ rangeID') :
    Untouched rangeID h disk (h.note rangeID' f result) disk := by
  rcases note_cases h rangeID' f result with ⟨err, heq, -⟩ | ⟨hosted, -, heq⟩ <;> rw [heq]
  · exact untouched_fail hne
  · refine ⟨?_, hf.failures _ _ hne, fun _ => rfl⟩
    rw [hf.registry, Dict.get_set, if_neg hne]

/-- What is hosted for the range behind the round was hosted before, or has just been opened. -/
theorem note_registered (hf : Harmless rangeID f)
    (hget : (h.note rangeID f result).registry.get rangeID = some hosted) :
    h.registry.get rangeID = some hosted ∨ result = .ok hosted := by
  rcases note_cases h rangeID f result with ⟨err, heq, -⟩ | ⟨opened, hok, heq⟩ <;> rw [heq] at hget
  · exact .inl hget
  · rw [hf.registry, Dict.get_set_self] at hget
    exact .inr (hok.trans (congrArg _ (Option.some.inj hget)))

theorem note_id (hf : Harmless rangeID f) : (h.note rangeID f result).id = h.id := by
  rcases note_cases h rangeID f result with ⟨err, heq, -⟩ | ⟨hosted, -, heq⟩ <;> rw [heq]
  · rfl
  · rw [hf.id]

theorem note_placed (hf : Harmless rangeID f) (hp : Placed base nodeID h disk)
    (hroot : ∀ hosted, result = .ok hosted →
      hosted.root = base.chosenRoot rangeID hosted.replica.replicaID) :
    Placed base nodeID (h.note rangeID f result) disk := by
  refine ⟨(note_id hf).trans hp.id, hp.steady, fun id hosted' hget => ?_⟩
  by_cases hid : id = rangeID
  · subst hid
    rcases note_registered hf hget with hbefore | hok
    · exact hp.placed id hosted' hbefore
    · exact hroot hosted' hok
  · have huntouched : Untouched id h disk (h.note rangeID f result) disk := note_untouched hf hid
    exact hp.placed id hosted' (huntouched.registry ▸ hget)

/-- What is hosted for the range of a descriptor was hosted before, or is the replica that the
descriptor has on the node. -/
def Host.Adds (h h' : Host σ) (d : RangeDescriptor) (nodeID : Raft.NodeID) : Prop :=
  ∀ hosted, h'.registry.get d.rangeID = some hosted →
    h.registry.get d.rangeID = some hosted ∨ d.Assigns nodeID hosted.replica.replicaID

/-- One round of either loop: the range is settled, all others are untouched. -/
theorem hostRange_spec {lifecycle : Lifecycle}
    (hf : Harmless d.rangeID f) (hp : Placed base nodeID h disk) :
    (hostRange D d lifecycle env f h).wp
      (fun h' disk' => Placed base nodeID h' disk' ∧ h'.Settled d.rangeID ∧
        h.Adds h' d nodeID ∧ ∀ rangeID ≠ d.rangeID, Untouched rangeID h disk h' disk')
      (fun _ _ => False) disk := by
  unfold hostRange
  simp only [wp_bind, wp_get]
  have hspec : (openReplicaLifecycle D h.id h.maxProposalWaiters d lifecycle env).wp _ _ disk :=
    openReplicaLifecycle_spec
  unfold wp at hspec
  rcases hx : (openReplicaLifecycle D h.id h.maxProposalWaiters d lifecycle env).exec disk
    with ⟨err | hosted, disk'⟩ <;> rw [hx] at hspec
  · obtain ⟨herr, hdisk⟩ := hspec
    have hadds : h.Adds (h.note d.rangeID f (.error err)) d nodeID := fun hosted hget =>
      .inl ((note_registered hf hget).resolve_right (by simp))
    have hsettled : (h.note d.rangeID f (.error err)).Settled d.rangeID :=
      note_settled hf (by simpa using herr)
    rcases hdisk with rfl | ⟨r, hopened⟩
    · exact ⟨note_placed hf hp (by simp), hsettled, hadds, fun _ hne => note_untouched hf hne⟩
    · exact ⟨note_placed hf (hp.opened hopened) (by simp), hsettled, hadds,
        fun _ hne => (hopened.untouched hne).trans (note_untouched hf hne)⟩
  · obtain ⟨hroot, hassigned, hopened⟩ := hspec
    have hp' : Placed base nodeID h disk' := hp.opened (hroot ▸ hopened)
    rw [hp.chosenRoot_eq] at hroot
    refine ⟨note_placed hf hp' ?_, note_settled hf (by simp), fun hosted' hget => ?_,
      fun _ hne => (hopened.untouched hne).trans (note_untouched hf hne)⟩
    · rintro _ ⟨⟩
      exact hroot
    · refine (note_registered hf hget).imp_right fun hok => ?_
      cases hok
      exact hp.id ▸ hassigned

/-- What the first loop has decided about the range of a descriptor: it is missing, and then the
registry is as it was, or it is settled. -/
def Decided (missing : Prop) (nodeID : Raft.NodeID) (d : RangeDescriptor) (h h' : Host σ) : Prop :=
  (missing ∧ h'.registry.get d.rangeID = h.registry.get d.rangeID ∧
    h'.failures.get d.rangeID = some .missingRange) ∨
  (¬ missing ∧ h'.Settled d.rangeID ∧ h.Adds h' d nodeID)

/-- The test of the first loop. -/
def Disk.Missing (disk : Disk) (complete : Bool) (d : RangeDescriptor) (nodeID : Raft.NodeID) :
    Prop :=
  complete = true ∧ disk.replicaDirectoriesExist d.rangeID
    (((d.replicaOn nodeID).map ReplicaDescriptor.replicaID).getD 0) = false

theorem Untouched.missing (hu : Untouched d.rangeID h disk h' disk') :
    disk'.Missing complete d nodeID ↔ disk.Missing complete d nodeID := by
  unfold Disk.Missing
  rw [hu.exist]

variable {missing : Prop}

/-- Rounds of other ranges may come before. -/
theorem Untouched.decided_after (hu : Untouched d.rangeID h disk h' disk')
    (hd : Decided missing nodeID d h' h'') : Decided missing nodeID d h h'' := by
  unfold Decided Host.Adds
  rw [← hu.registry]
  exact hd

/-- Rounds of other ranges may follow. -/
theorem Untouched.decided_before (hd : Decided missing nodeID d h h')
    (hu : Untouched d.rangeID h' disk' h'' disk'') : Decided missing nodeID d h h'' := by
  rcases hd with ⟨hm, hreg, hfail⟩ | ⟨hm, hs, hadds⟩
  · exact .inl ⟨hm, hu.registry.trans hreg, hu.failures.trans hfail⟩
  · exact .inr ⟨hm, hu.settled hs, fun hosted hget => hadds hosted (hu.registry ▸ hget)⟩

variable {stored : Catalog}

theorem openAssignedRange_spec (hp : Placed base nodeID h disk) :
    (openAssignedRange D options stored complete env d h).wp
      (fun h' disk' => Placed base nodeID h' disk' ∧
        (∀ rangeID ≠ d.rangeID, Untouched rangeID h disk h' disk') ∧
        Decided (disk.Missing complete d nodeID) nodeID d h h')
      (fun _ _ => False) disk := by
  unfold openAssignedRange
  simp only [wp_bind, wp_get, wp_ite, wp_pure, hp.id]
  refine ⟨fun hmissing => ?_, fun hmissing => ?_⟩
  · exact ⟨hp.fail, fun _ hne => untouched_fail hne, .inl ⟨hmissing, rfl, Dict.get_set_self⟩⟩
  · refine wp_imp (hostRange_spec harmless_callHook hp) ?_
    rintro h' disk' ⟨hp', hsettled, hadds, hothers⟩
    exact ⟨hp', hothers, .inr ⟨hmissing, hsettled, hadds⟩⟩

variable {opening : ℕ → Opening σ} {i : ℕ} {ds : List RangeDescriptor}

/-- The first loop: assigned ranges have different identities, so each is decided by its own
round. -/
theorem openAssigned_spec
    (hp : Placed base nodeID h disk) (hnodup : (ds.map RangeDescriptor.rangeID).Nodup) :
    (openAssigned D options stored complete opening i ds h).wp
      (fun h' disk' => Placed base nodeID h' disk' ∧
        (∀ rangeID, rangeID ∉ ds.map RangeDescriptor.rangeID →
          Untouched rangeID h disk h' disk') ∧
        ∀ d ∈ ds, Decided (disk.Missing complete d nodeID) nodeID d h h')
      (fun _ _ => False) disk := by
  induction ds generalizing i h disk with
  | nil => exact ⟨hp, fun _ _ => .refl, by simp⟩
  | cons d rest ih =>
    rw [map_cons, nodup_cons] at hnodup
    obtain ⟨hnew, hnodup⟩ := hnodup
    unfold openAssigned
    rw [wp_bind]
    refine wp_imp (openAssignedRange_spec hp) ?_
    rintro h₁ disk₁ ⟨hp₁, hothers, hdecided⟩
    refine wp_imp (ih hp₁ hnodup) ?_
    rintro h₂ disk₂ ⟨hp₂, hrest, hall⟩
    refine ⟨hp₂, fun rangeID hid => ?_, fun d' hd' => ?_⟩
    · rw [map_cons, mem_cons, not_or] at hid
      exact (hothers rangeID hid.1).trans (hrest rangeID hid.2)
    · rcases mem_cons.mp hd' with rfl | hd'
      · -- the rounds behind do not touch the range again
        exact (hrest _ hnew).decided_before hdecided
      · have hne : d'.rangeID ≠ d.rangeID := fun heq =>
          hnew (heq ▸ mem_map_of_mem hd')
        have hbefore := hothers _ hne
        have hd := hall d' hd'
        rw [hbefore.missing] at hd
        exact hbefore.decided_after hd

theorem openOtherRange_spec (hp : Placed base nodeID h disk) :
    (openOtherRange D retired env d h).wp (fun h' disk' => Placed base nodeID h' disk' ∧
        (∀ rangeID, (rangeID = d.rangeID → d.replicaOn nodeID = none) →
          Untouched rangeID h disk h' disk') ∧
        (h.Settled d.rangeID ∨ d.replicaOn nodeID ≠ none → h'.Settled d.rangeID))
      (fun _ _ => False) disk := by
  unfold openOtherRange
  rw [hp.id, wp_ite, wp_pure]
  refine ⟨fun hskip => ⟨hp, fun _ _ => .refl, fun hcase => ?_⟩, fun hskip => ?_⟩
  · rcases hcase with hs | hassigned
    · exact hs
    · exact .inl (hskip.resolve_left (by simpa [Option.isNone_iff_eq_none] using hassigned))
  · refine wp_imp (hostRange_spec harmless_installTransitionDescriptor hp) ?_
    rintro h' disk' ⟨hp', hsettled, -, hothers⟩
    refine ⟨hp', fun rangeID hid => hothers rangeID fun heq => ?_, fun _ => hsettled⟩
    exact hskip (.inl (by rw [hid heq]; rfl))

/-- The second loop: a range that no descriptor assigns to this node is untouched, and a range
that one does, or that was settled before, is settled. -/
theorem openOthers_spec (hp : Placed base nodeID h disk) :
    (openOthers D retired opening i ds h).wp (fun h' disk' => Placed base nodeID h' disk' ∧
        ∀ rangeID, ((∀ d ∈ ds, d.rangeID = rangeID → d.replicaOn nodeID = none) →
            Untouched rangeID h disk h' disk') ∧
          ((h.Settled rangeID ∨ ∃ d ∈ ds, d.rangeID = rangeID ∧ d.replicaOn nodeID ≠ none) →
            h'.Settled rangeID))
      (fun _ _ => False) disk := by
  induction ds generalizing i h disk with
  | nil => exact ⟨hp, fun _ => ⟨fun _ => .refl, by simp⟩⟩
  | cons d rest ih =>
    unfold openOthers
    rw [wp_bind]
    refine wp_imp (openOtherRange_spec hp) ?_
    rintro h₁ disk₁ ⟨hp₁, hothers, hsettled⟩
    refine wp_imp (ih hp₁) ?_
    rintro h₂ disk₂ ⟨hp₂, hrest⟩
    refine ⟨hp₂, fun rangeID => ⟨fun hnone => ?_, fun hcase => ?_⟩⟩
    · rw [forall_mem_cons] at hnone
      exact (hothers rangeID fun heq => hnone.1 heq.symm).trans ((hrest rangeID).1 hnone.2)
    · refine (hrest rangeID).2 ?_
      by_cases hid : d.rangeID = rangeID
      · by_cases hassigned : d.replicaOn nodeID = none
        · -- the round skips a range that is not assigned here
          rcases hcase with hs | ⟨d', hd', hd'id, hd'on⟩
          · exact .inl (hid ▸ hsettled (.inl (hid ▸ hs)))
          · rcases mem_cons.mp hd' with rfl | hd'
            · exact absurd hassigned hd'on
            · exact .inr ⟨d', hd', hd'id, hd'on⟩
        · exact .inl (hid ▸ hsettled (.inr hassigned))
      · rcases hcase with hs | ⟨d', hd', hd'id, hd'on⟩
        · exact .inl ((hothers rangeID fun heq => absurd heq.symm hid).settled hs)
        · rcases mem_cons.mp hd' with rfl | hd'
          · exact absurd hd'id hid
          · exact .inr ⟨d', hd', hd'id, hd'on⟩

end Loops

/-! ### A node that is opened again -/

section Reopened

variable {H : Hashes} {options : NodeOptions} {start : Start σ} {disk : Disk} {how : Publication}
  {rangeID : ℕ} {nodeID : Raft.NodeID} {d : RangeDescriptor} {h : Host σ} {hosted : Hosted σ}
  {bootstrap : Option Bootstrap}

/-- Loading the catalog may publish it and changes nothing else. -/
theorem loadOrBootstrapCatalog_spec :
    (loadOrBootstrapCatalog H bootstrap how).wp
      (fun _ disk' => ∃ stored, disk' = { disk with catalog := stored })
      (fun _ disk' => ∃ stored, disk' = { disk with catalog := stored }) disk := by
  have hsame : ∃ stored, disk = { disk with catalog := stored } := ⟨disk.catalog, rfl⟩
  unfold loadOrBootstrapCatalog
  simp only [wp_bind, wp_get]
  split
  · exact hsame
  · exact hsame
  · split
    · exact hsame
    · simp only [wp_bind, wp_ite, wp_throw, wp_pure]
      exact ⟨fun _ => hsame, fun _ => hsame⟩
  · exact hsame
  · split
    · exact hsame
    · unfold publish
      simp only [wp_bind, wp_pure]
      split
      · exact ⟨_, rfl⟩
      · exact hsame
      · exact ⟨_, rfl⟩

variable {others : List RangeDescriptor}

/-- What both loops together have noted: a range is reported when its directories were missing
and nothing else in the options gave it to this node; without the latter, what is hosted is the
assigned replica. -/
theorem reported_iff {missing : Prop} {h h₁ h₂ : Host σ} {disk₁ disk₂ : Disk}
    (hnone : h.registry.get d.rangeID = none) (hdecided : Decided missing nodeID d h h₁)
    (hothers : ((∀ o ∈ others, o.rangeID = d.rangeID → o.replicaOn nodeID = none) →
        Untouched d.rangeID h₁ disk₁ h₂ disk₂) ∧
      ((h₁.Settled d.rangeID ∨ ∃ o ∈ others, o.rangeID = d.rangeID ∧ o.replicaOn nodeID ≠ none) →
        h₂.Settled d.rangeID)) :
    (h₂.Reported d.rangeID ↔
      missing ∧ ∀ o ∈ others, o.rangeID = d.rangeID → o.replicaOn nodeID = none) ∧
    ((∀ o ∈ others, o.rangeID = d.rangeID → o.replicaOn nodeID = none) → ∀ hosted,
      h₂.registry.get d.rangeID = some hosted → d.Assigns nodeID hosted.replica.replicaID) := by
  refine ⟨⟨fun hreported => ?_, ?_⟩, fun hapart hosted hget => ?_⟩
  · have hunsettled : ¬ h₂.Settled d.rangeID := fun hs => hs.not_reported hreported
    rcases hdecided with ⟨hmissing, -⟩ | ⟨-, hs, -⟩
    · refine ⟨hmissing, fun o ho hid => ?_⟩
      by_contra hon
      exact hunsettled (hothers.2 (.inr ⟨o, ho, hid, hon⟩))
    · exact absurd (hothers.2 (.inl hs)) hunsettled
  · rintro ⟨hmissing, hapart⟩
    rcases hdecided with ⟨-, hreg, hfail⟩ | ⟨hm, -⟩
    · exact (hothers.1 hapart).reported ⟨hreg.trans hnone, hfail⟩
    · exact absurd hmissing hm
  · rw [(hothers.1 hapart).registry] at hget
    rcases hdecided with ⟨-, hreg, -⟩ | ⟨-, -, hadds⟩
    · rw [hreg, hnone] at hget
      cases hget
    · refine (hadds hosted hget).resolve_left fun hbefore => ?_
      rw [hnone] at hbefore
      cases hbefore

/-- No shadow or retired descriptor of the options gives the range to this node. -/
def NodeOptions.Apart (options : NodeOptions) (rangeID : ℕ) : Prop :=
  ∀ d ∈ options.shadowRanges ++ options.retiredRanges, d.rangeID = rangeID →
    d.replicaOn options.nodeID = none

theorem assigned_nodup (c : BuiltCatalog) (nodeID : Raft.NodeID) :
    ((c.assigned nodeID).map RangeDescriptor.rangeID).Nodup := by
  obtain ⟨b, hb⟩ := c.built
  exact (filter_sublist.map _).nodup (newCatalog_wellFormed hb).ids

/-- What `OpenNode` does, under the catalog it goes by. -/
theorem openNode_spec :
    (openNode H D options start).wp (fun h disk' => Placed disk options.nodeID h disk' ∧
        ∃ c : BuiltCatalog, (∀ c' ∈ options.authoritativeCatalog, c' = c) ∧
        ∃ complete, disk.bootstrapComplete H c.toCatalog = .ok complete ∧
          ∀ d ∈ c.assigned options.nodeID, (h.Reported d.rangeID ↔
            disk.Missing complete d options.nodeID ∧ options.Apart d.rangeID) ∧
            (options.Apart d.rangeID → ∀ hosted, h.registry.get d.rangeID = some hosted →
              d.Assigns options.nodeID hosted.replica.replicaID))
      (fun _ disk' => disk.Steady disk') disk := by
  have hsame : ∀ stored, disk.Steady { disk with catalog := stored } := fun _ _ _ => rfl
  unfold openNode
  simp only [wp_bind, wp_ite, wp_throw, wp_get, wp_lift, wp_pure]
  refine ⟨fun _ => hsame _, fun _ => ⟨fun _ => hsame _, fun _ => ?_⟩⟩
  refine wp_mono loadOrBootstrapCatalog_spec ?_ ?_
  rotate_left
  · rintro _ _ ⟨stored, rfl⟩
    exact hsame stored
  rintro base _ ⟨stored, rfl⟩
  refine ⟨fun c hover => ⟨fun _ => hsame _, fun _ => ⟨fun complete hcomplete => ?_,
    fun _ _ => hsame _⟩⟩, fun _ _ => hsame _⟩
  have hc : ∀ c' ∈ options.authoritativeCatalog, c' = c := by
    intro c' hc'
    unfold NodeOptions.catalogOver at hover
    rw [Option.mem_def.mp hc'] at hover
    exact Except.ok.inj (Fallible.ite_error_eq_ok.mp hover).2
  have hp : Placed disk options.nodeID (options.host (σ := σ) c) { disk with catalog := stored } :=
    ⟨rfl, hsame _, fun _ _ hget => by cases hget⟩
  refine wp_mono (openAssigned_spec hp (assigned_nodup c _)) ?_ fun _ _ hf => hf.elim
  rintro h₁ disk₁ ⟨hp₁, -, hdecided⟩
  refine wp_mono (openOthers_spec hp₁) ?_ fun _ _ hf => hf.elim
  rintro h₂ disk₂ ⟨hp₂, hothers⟩
  have hall := fun d hd => reported_iff rfl (hdecided d hd) (hothers d.rangeID)
  refine ⟨fun _ => ⟨hp₂, c, hc, complete, hcomplete, hall⟩, fun _ => ⟨fun _ => hp₂.steady,
    fun _ => ?_⟩⟩
  unfold publishBootstrapComplete publish
  split
  · exact ⟨{ hp₂ with }, c, hc, complete, hcomplete, hall⟩
  · exact hp₂.steady
  · exact hp₂.steady

/-! ### The disk between two calls

Each incarnation on the disk has the storage of its own replica, whatever happens to the node. -/

variable {α : Type}

/-- A call that keeps the incarnations in order. -/
abbrev Tends (call : SiteM σ α) : Prop := Keeps (fun s : Site σ => s.disk.WellOwned) call

theorem tends_onHost (f : Host σ → Except NodeError (Host σ)) : Tends (Site.onHost f) := by
  intro s hs
  simp only [Site.onHost, wp_bind, wp_get, wp_lift, wp_set]
  exact ⟨fun _ _ => hs, fun _ _ => hs⟩

theorem tends_onReplica {call : Range.ReplicaM σ α} : Tends (Site.onReplica rangeID call) := by
  intro s hs
  simp only [Site.onReplica, wp_bind, wp_get, wp_ite, wp_throw]
  refine ⟨fun _ => hs, fun _ => ?_⟩
  split
  · exact hs
  · exact Disk.WellOwned.save hs

theorem tends_deliver {text : String} {call : Range.ReplicaM σ (List Raft.Message)} :
    Tends (Site.deliver H rangeID text call) := by
  refine tends_onReplica.bind fun result => ?_
  split
  · exact Keeps.throw _
  · exact Keeps.get_bind fun s hs => Keeps.lift _ s hs

/-- A call on a replica behind some checks. -/
theorem tends_checked {β : Type} {check : Site σ → Except NodeError β} {call : SiteM σ α}
    (hcall : Tends call) : Tends (get >>= fun s => Prog.lift (check s) >>= fun _ => call) :=
  Keeps.get_bind fun s hs => (Keeps.lift _).bind (fun _ => hcall) s hs

theorem tends_tryDisk {call : DiskM α} (hcall : Keeps Disk.WellOwned call) :
    Tends (Site.tryDisk (σ := σ) call) :=
  fun _ hs => hcall.state hs

theorem tends_onDisk {call : DiskM α} (hcall : Keeps Disk.WellOwned call) :
    Tends (Site.onDisk (σ := σ) call) :=
  (tends_tryDisk hcall).bind fun _ => Keeps.lift _

/-- A replica is opened below its own incarnation. -/
theorem keeps_openReplicaLifecycle {waiters : ℤ} {lifecycle : Lifecycle} :
    Keeps Disk.WellOwned (openReplicaLifecycle D nodeID waiters d lifecycle env) := by
  intro disk howned
  have hopened : ∀ {disk' : Disk} {r : ℕ},
      disk.Opened d.rangeID (disk.chosenRoot d.rangeID r) r disk' → disk'.WellOwned := by
    intro disk' r hopened
    refine hopened.wellOwned howned fun r' hroot => ?_
    unfold Disk.chosenRoot at hroot
    split_ifs at hroot
    · exact (Root.incarnation.inj hroot).symm
  refine wp_mono openReplicaLifecycle_spec ?_ ?_
  · rintro hosted disk' ⟨hroot, -, ho⟩
    exact hopened (hroot ▸ ho)
  · rintro err disk' ⟨-, rfl | ⟨r, ho⟩⟩
    · exact howned
    · exact hopened ho

theorem tends_addShadowRange : Tends (Site.addShadowRange D d env) := by
  intro s hs
  simp only [Site.addShadowRange, wp_bind, wp_get, wp_ite, wp_throw, wp_pure]
  refine ⟨fun _ => hs, fun _ => ⟨fun _ => hs, fun _ => ⟨fun _ => hs, fun _ => ?_⟩⟩⟩
  exact wp_imp (tends_onDisk keeps_openReplicaLifecycle _ hs) fun _ => tends_onHost _

/-- A learner is opened below its own incarnation. -/
theorem tends_addLearnerRange {configuration : Raft.Configuration} {target : ℕ} :
    Tends (Site.addLearnerRange D d configuration target env) := by
  intro s hs
  have hopen : Keeps Disk.WellOwned (openAt D env
      (Site.learnerOptions s.host d configuration target) (.incarnation target)
      s!"open learner range {d.rangeID}") := by
    intro disk howned
    have hown : ∀ {disk'}, disk.Opened d.rangeID (.incarnation target) target disk' →
        disk'.WellOwned := fun ho =>
      ho.wellOwned howned fun r hr => (Root.incarnation.inj hr).symm
    exact wp_mono openAt_spec (fun _ _ h => hown h.2.2) fun _ _ h => hown h.2
  simp only [Site.addLearnerRange, wp_bind, wp_get, wp_ite, wp_throw, wp_pure]
  refine ⟨fun _ => hs, fun _ => ⟨fun _ => hs, fun _ => ?_⟩⟩
  exact wp_imp (tends_onDisk hopen _ hs) fun _ => tends_onHost _

theorem keeps_publish {write : Disk → Disk} (hwrite : ∀ disk, (write disk).roots = disk.roots) :
    Keeps Disk.WellOwned (publish how write) := by
  have hkeep : ∀ disk : Disk, disk.WellOwned → (write disk).WellOwned := by
    intro disk howned rangeID r
    unfold Disk.directories
    rw [hwrite]
    exact howned rangeID r
  intro disk howned
  unfold publish
  split
  · exact hkeep disk howned
  · exact howned
  · exact hkeep disk howned

variable {replicaID : ℕ}

theorem tends_retireReplica : Tends (Site.retireReplica (σ := σ) rangeID replicaID how) := by
  intro s hs
  simp only [Site.retireReplica, wp_bind, wp_get, wp_ite, wp_throw]
  refine ⟨fun _ => hs, fun _ => wp_imp (tends_onDisk (keeps_publish ?_) s hs)
    fun _ => tends_onHost _⟩
  exact fun _ => rfl

theorem Disk.WellOwned.erase {key : ℕ × Root} (h : disk.WellOwned) :
    Disk.WellOwned { disk with roots := disk.roots.erase key } := by
  intro rangeID r
  unfold Disk.directories
  rw [Dict.get_erase]
  split_ifs
  · exact Directories.ownedBy_empty
  · exact h rangeID r

theorem keeps_deleteRetiredReplica :
    Keeps Disk.WellOwned (Site.deleteRetiredReplica rangeID replicaID) := by
  intro disk howned
  simp only [Site.deleteRetiredReplica, wp_bind, wp_get, wp_ite, wp_throw, wp_set]
  refine ⟨fun _ => howned, fun _ => ⟨fun _ => ?_, fun _ => ⟨fun _ => howned, fun _ => ?_⟩⟩⟩
  · exact howned.erase
  · exact howned.erase

theorem tends_restartRange : Tends (Site.restartRange D rangeID env) := by
  intro s hs
  simp only [Site.restartRange, wp_bind, wp_get, wp_lift, wp_ite, wp_throw]
  refine ⟨fun d _ => ⟨fun _ => hs, fun _ => ?_⟩, fun _ _ => hs⟩
  refine wp_imp (tends_onHost _ s hs) fun _ s' hs' => ?_
  refine wp_imp (tends_tryDisk keeps_openReplicaLifecycle s' hs') fun result s' hs' => ?_
  rcases result with err | hosted
  · exact hs'
  · exact ((tends_onHost _).bind fun _ => tends_onHost _) s' hs'

/-- Step lemma: every event keeps the incarnations in order. -/
theorem perform_wellOwned (event : Event σ) {w : World σ} (hw : w.disk.WellOwned) :
    (event.perform H D w).disk.WellOwned := by
  have calls : ∀ {β : Type} {call : SiteM σ β}, Tends call → (w.call call).disk.WellOwned :=
    fun hcall => World.call_invariant (P := fun w => w.disk.WellOwned) hcall hw
  cases event with
  | openNode options start =>
    simp only [Event.perform, World.openNode]
    split
    · exact hw
    · have hspec : (Multiraft.openNode H D options start).wp _ _ w.disk := openNode_spec
      unfold wp at hspec
      split <;> rename_i hx <;> rw [hx] at hspec
      · exact hspec.1.steady.wellOwned hw
      · exact hspec.wellOwned hw
  | crash => exact hw
  | lose rangeID root raft =>
    refine hw.setDirectories fun r hroot => ?_
    have howned := hroot ▸ hw rangeID r
    split
    · exact ⟨howned.data, by simp⟩
    · exact ⟨by simp, howned.raft⟩
  | tick | proposeConfiguration | proposeBarrier | transferRangeLeadership =>
    exact calls tends_deliver
  | step | propose | proposeSplit => exact calls (tends_checked tends_deliver)
  | createRaftSnapshot | machineWork => exact calls (tends_onReplica.bind fun _ => Keeps.pure _)
  | addLearnerRange => exact calls tends_addLearnerRange
  | addShadowRange => exact calls tends_addShadowRange
  | retireReplica => exact calls tends_retireReplica
  | deleteRetiredReplica => exact calls (tends_onDisk keeps_deleteRetiredReplica)
  | restartRange => exact calls tends_restartRange
  | installTransitionDescriptor | installDynamicCatalog | installRetiredRedirect | retireRange
  | close => exact calls (tends_onHost _)

/-- Run lemma: the incarnations of every disk that a history leaves are in order. -/
theorem run_wellOwned (events : List (Event σ)) : (run H D events).disk.WellOwned :=
  run_invariant (P := fun w => w.disk.WellOwned)
    (fun _ _ => Directories.ownedBy_empty) (fun event _ hw => perform_wellOwned event hw) events

/-! ### A lost replica is reported -/

/-- What a node owes to a range that is assigned to it as replica `r`, when it is opened on
`disk`: what it opens for the range is replica `r`, on storage that was created for `r`, and if
there is none the range is reported as missing. -/
structure Host.Keeps (h : Host σ) (disk : Disk) (rangeID r : ℕ) : Prop where
  own : ∀ hosted, h.registry.get rangeID = some hosted → hosted.replica.replicaID = r ∧
    (disk.directories rangeID hosted.root).createdFor r = true
  reported : (∀ root, (disk.directories rangeID root).createdFor r = false) →
    h.Reported rangeID

variable {root : Root}

/-- Only the root that `OpenNode` chooses can have storage of the replica, or its incarnation
would be complete. -/
theorem Disk.WellOwned.createdFor_chosenRoot (howned : disk.WellOwned) {rangeID r : ℕ}
    (h : (disk.directories rangeID root).createdFor r = true) :
    (disk.directories rangeID (disk.chosenRoot rangeID r)).createdFor r = true := by
  unfold Disk.chosenRoot
  by_cases hcomplete : (disk.directories rangeID (.incarnation r)).complete = true
  · rw [if_pos hcomplete]
    exact Directories.createdFor_of_ownedBy hcomplete (howned rangeID r)
  · rw [if_neg hcomplete]
    cases root with
    | legacy => exact h
    | incarnation r' =>
      obtain rfl : r = r' := (howned rangeID r').eq_of_createdFor h
      exact absurd (Directories.complete_of_createdFor h) hcomplete

variable {disk' : Disk}

/-- The duty of a node in terms of what it found, if what it hosts for the range is the assigned
replica. -/
theorem keeps_iff (howned : disk.WellOwned) (hp : Placed disk nodeID h disk') {rangeID r : ℕ}
    (hid : ∀ hosted, h.registry.get rangeID = some hosted → hosted.replica.replicaID = r) :
    h.Keeps disk rangeID r ↔
      (disk.directories rangeID (disk.chosenRoot rangeID r)).createdFor r = true ∨
        h.Reported rangeID := by
  constructor
  · intro hk
    by_cases hexists : ∃ root, (disk.directories rangeID root).createdFor r = true
    · obtain ⟨root, hroot⟩ := hexists
      exact .inl (howned.createdFor_chosenRoot hroot)
    · exact .inr (hk.reported fun root => by
        simpa using fun hroot => hexists ⟨root, hroot⟩)
  · rintro (hchosen | hreported)
    · refine ⟨fun hosted hget => ⟨hid hosted hget, ?_⟩, fun hnone => ?_⟩
      · rw [hp.placed rangeID hosted hget, hid hosted hget]
        exact hchosen
      · rw [hnone] at hchosen
        cases hchosen
    · refine ⟨fun hosted hget => ?_, fun _ => hreported⟩
      rw [hreported.1] at hget
      cases hget

/-- **Which replicas survive a restart.**  Let a node be opened under an authoritative catalog, with
no shadow or retired descriptor that gives it the range as well.  It keeps its duty to the range
exactly when the root it chooses has the replica's own storage, or when the marker has the
generation of that very catalog and both roots of the replica are incomplete. -/
theorem reopened_keeps_iff (H : Hashes) (D : Driver σ) (events : List (Event σ))
    (options : NodeOptions) (start : Start σ) {c : BuiltCatalog} {h : Host σ} {disk' : Disk}
    (hc : options.authoritativeCatalog = some c)
    (hopen : (openNode H D options start).exec (run H D events).disk = (.ok h, disk'))
    {d : RangeDescriptor} (hd : d ∈ c.assigned options.nodeID) {r : ReplicaDescriptor}
    (hr : d.replicaOn options.nodeID = some r) (hapart : options.Apart d.rangeID) :
    h.Keeps (run H D events).disk d.rangeID r.replicaID ↔
      ((run H D events).disk.directories d.rangeID
          ((run H D events).disk.chosenRoot d.rangeID r.replicaID)).createdFor r.replicaID = true ∨
        ((run H D events).disk.bootstrapComplete H c.toCatalog = .ok true ∧
          (run H D events).disk.replicaDirectoriesExist d.rangeID r.replicaID = false) := by
  have hspec : (openNode H D options start).wp _ _ (run H D events).disk := openNode_spec
  unfold wp at hspec
  rw [hopen] at hspec
  obtain ⟨hp, c', hc', complete, hcomplete, hall⟩ := hspec
  obtain rfl : c = c' := hc' c hc
  obtain ⟨hreported, hassigned⟩ := hall d hd
  have hid : ∀ hosted, h.registry.get d.rangeID = some hosted →
      hosted.replica.replicaID = r.replicaID := by
    intro hosted hget
    have hsome := hassigned hapart hosted hget
    rw [RangeDescriptor.Assigns, hr] at hsome
    exact (Option.some.inj hsome).symm
  rw [keeps_iff (run_wellOwned events) hp hid, hreported]
  unfold Disk.Missing
  rw [hr, hcomplete]
  simp [hapart]

end Reopened

/-! ### A lost replica that is not reported

Two ranges on one node; the second one is split into the ranges 3 and 4, which publishes a
catalog of generation 2.  The marker still has generation 1. -/

namespace Lost

/-- A machine that keeps nothing. -/
def driver : Driver Unit where
  machine :=
    { apply := fun s _ => (none, s)
      snapshot := fun s => (.ok [], s)
      restore := fun s _ => (none, s) }
  syncApplied _ := pure ()

/-- Stand-ins for the hash functions. -/
def hashes : Hashes where
  sha256 b := Digest.copy (1 :: b)
  crc32 _ := 0

def opening : Opening Unit where
  machine _ := ()

def start : Start Unit where
  opening _ := opening

def unbounded : KeyBound where
  unbounded := true

def bound (key : Bytes) : KeyBound where
  key := key

/-- A range with one replica, on node 1. -/
def range (rangeID replicaID : ℕ) (startKey endKey : KeyBound) : RangeDescriptor where
  rangeID := rangeID
  generation := 1
  startKey := startKey
  endKey := endKey
  replicas := [⟨replicaID, 1⟩]

def bootstrap : Bootstrap where
  generation := 1
  nodes := [1]
  replicationFactor := 1
  ranges := [range 1 1 unbounded (bound [109]), range 2 2 (bound [109]) unbounded]

/-- The catalog behind the split of range 2. -/
def split : Bootstrap where
  generation := 2
  nodes := [1]
  replicationFactor := 1
  ranges := [range 1 1 unbounded (bound [109]), range 3 3 (bound [109]) (bound [116]),
    range 4 4 (bound [116]) unbounded]

def catalog : BuiltCatalog := ⟨split.arrange, split, by decide +kernel⟩

/-- Bootstrap, the split, and then a crash. -/
def history : List (Event Unit) :=
  [.openNode { nodeID := 1, bootstrap := some bootstrap } start,
    .addShadowRange (range 3 3 (bound [109]) (bound [116])) opening,
    .addShadowRange (range 4 4 (bound [116]) unbounded) opening,
    .installDynamicCatalog catalog, .crash]

/-- The directories of range 1 are lost in the crash. -/
def events : List (Event Unit) := history ++ [.lose 1 .legacy false, .lose 1 .legacy true]

def options : NodeOptions where
  nodeID := 1
  bootstrap := some bootstrap
  authoritativeCatalog := some catalog

/-- `OpenNode` after some events. -/
def reopen (events : List (Event Unit)) : Except NodeError (Host Unit) × Disk :=
  (openNode hashes driver options start).exec (run hashes driver events).disk

end Lost

/-- While the directories are there, the duty is kept. -/
theorem reopened_keeps_intact :
    ∃ h disk', Lost.reopen Lost.history = (.ok h, disk') ∧
      h.Keeps (run Lost.hashes Lost.driver Lost.history).disk 1 1 := by
  have hok : (Lost.reopen Lost.history).1.isOk = true := by decide +kernel
  rcases hx : Lost.reopen Lost.history with ⟨err | h, disk'⟩
  · rw [hx] at hok
    cases hok
  · have hd : Lost.range 1 1 Lost.unbounded (Lost.bound [109]) ∈ Lost.catalog.assigned 1 := by
      decide +kernel
    exact ⟨h, disk', rfl, (reopened_keeps_iff Lost.hashes Lost.driver Lost.history Lost.options
      Lost.start rfl hx hd (r := ⟨1, 1⟩) (by decide) (fun d hd => by cases hd)).mpr
        (.inl (by decide +kernel))⟩

/-- The node opens range 1 on an empty directory and reports nothing. -/
theorem lost_replica_recreated :
    (run Lost.hashes Lost.driver Lost.events).disk.marker.isSome = true ∧
      (run Lost.hashes Lost.driver Lost.events).disk.replicaDirectoriesExist 1 1 = false ∧
      ∃ h disk', Lost.reopen Lost.events = (.ok h, disk') ∧ h.failures.get 1 = none ∧
        (h.registry.get 1).map (·.replica.node.persistent.entries) = some [] ∧
        ¬ h.Keeps (run Lost.hashes Lost.driver Lost.events).disk 1 1 := by
  refine ⟨by decide +kernel, by decide +kernel, ?_⟩
  have hok : (Lost.reopen Lost.events).1.toOption.any (fun h =>
      h.failures.get 1 = none && (h.registry.get 1).any fun hosted =>
        hosted.replica.replicaID = 1 && hosted.replica.node.persistent.entries = [] &&
          !((run Lost.hashes Lost.driver Lost.events).disk.directories 1
            hosted.root).createdFor 1) = true := by decide +kernel
  rcases hx : Lost.reopen Lost.events with ⟨err | h, disk'⟩
  · rw [hx] at hok
    cases hok
  · rw [hx] at hok
    refine ⟨h, disk', rfl, ?_⟩
    rcases hreg : h.registry.get 1 with - | hosted
    · simp [Except.toOption, hreg] at hok
    · simp only [Except.toOption, Option.any_some, hreg, Bool.and_eq_true, decide_eq_true_eq,
        Bool.not_eq_true'] at hok
      obtain ⟨hfail, ⟨hid, hentries⟩, hcreated⟩ := hok
      refine ⟨hfail, congrArg some hentries, fun hkeeps => ?_⟩
      have hown := (hkeeps.own hosted hreg).2
      rw [hcreated] at hown
      cases hown

end RivetDB.Multiraft
