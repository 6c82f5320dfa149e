import RivetDB.Manifest.Version
import RivetDB.Storage.LsmFlush
import Mathlib.Logic.Relation
import Mathlib.Order.Bounds.Basic

/-!
# Rewriting the manifest

`Rewrite` replaces the edits of a manifest by one that leads from the empty version to the current
one (`snapshotEdit`).  For the files that is a matter of sorting.  The replay frontier is another:
the edit claims it all at once, so the live tables have to cover every sequence up to it, while the
edits it replaces only had to cover what each of them added, with the tables of their time.

What makes it true is that flushes take up the sequences one after the other and a compaction
writes every entry it reads (`Store.Sound.solid`): whatever a table spans is stored somewhere.
-/

namespace RivetDB.Manifest

open Storage (Mode maxFileNumber maxLevels maxUint64 maxChangesPerEdit)
open scoped ByteOrder

/-- `StorageMode`, as it is stored. -/
def Mode.toByte : Mode → UInt8
  | .standalone => 1
  | .replicated => 2
  | .replicatedMVCC => 3

theorem Mode.ofByte_toByte (mode : Mode) : Mode.ofByte (Mode.toByte mode) = some mode := by
  cases mode <;> rfl

namespace Version

/-- What `snapshotEdit` writes down. -/
def snapshot (v : Version) : VersionEdit where
  comparator := some v.comparator
  nextFileNumber := some v.nextFileNumber
  lastSequence := v.lastSequence
  replayFrontier := v.frontier
  storageMode := if v.mode = .standalone then none else some (Mode.toByte v.mode)
  replicatedAppliedThrough := v.replicatedApplied
  maxAppliedMVCC := v.maxAppliedMVCC
  addedFiles := liveTables v.levels

def snapshotEdit (v : Version) : Except Error VersionEdit :=
  match initialVersion.apply v.snapshot with
  | .error err => .error (.wrap "construct Manifest snapshot" err)
  | .ok _ => .ok v.snapshot

def validateEquivalent (left right : Version) : Except Error Unit :=
  if left.comparator ≠ right.comparator ∨ left.nextFileNumber ≠ right.nextFileNumber ∨
      left.lastSequence ≠ right.lastSequence ∨ left.frontier ≠ right.frontier ∨
      left.mode ≠ right.mode ∨ left.replicatedApplied ≠ right.replicatedApplied ∨
      left.maxAppliedMVCC ≠ right.maxAppliedMVCC then .error .manifestCorrupt
  else if (List.range maxLevels).any fun level => left.levels level ≠ right.levels level then
    .error .manifestCorrupt
  else .ok ()

/-! ### The edits of a store -/

/-- The loop of `maximumContiguousFrontier`: the last sequence that is covered, if any is. -/
def sweep : UInt64 → Option UInt64 → List (UInt64 × UInt64) → Option UInt64
  | _, reached, [] => reached
  | cursor, reached, (first, last) :: rest =>
    if first > cursor then reached
    else if last < cursor then sweep cursor reached rest
    else if last = maxUint64.toUInt64 then some last
    else sweep (last + 1) (some last) rest

def maximumContiguousFrontier (v : Version) : Option UInt64 :=
  if v.frontier = some maxUint64.toUInt64 then v.frontier
  else
    let start := match v.frontier with
      | none => 0
      | some frontier => frontier + 1
    let spans := ((liveTables v.levels).filter fun t => t.largestSequence ≥ start).map
      fun t => (t.smallestSequence, t.largestSequence)
    sweep start v.frontier (spans.insertionSort spanLe)

/-- The marks that `InstallTable` adds in the replicated modes. -/
def replicatedMarks (v : Version) (edit : VersionEdit) (applied : Option (UInt64 × UInt64))
    (maxMVCCTimestamp : UInt64) : Except Error VersionEdit :=
  match applied with
  | none => .error .replicatedFrontierGap
  | some (first, last) =>
    if first ≠ v.replicatedApplied.getD 0 + 1 ∨ last < first then .error .replicatedFrontierGap
    else if v.mode = .replicatedMVCC then
      if maxMVCCTimestamp = 0 then .error .sequenceRegression
      else .ok { edit with
        replicatedAppliedThrough := some last
        maxAppliedMVCC := some (max maxMVCCTimestamp (v.maxAppliedMVCC.getD 0)) }
    else .ok { edit with replicatedAppliedThrough := some last }

/-- The edit of `InstallTable`. -/
def installTableEdit (v : Version) (t : TableMetadata) (applied : Option (UInt64 × UInt64))
    (maxMVCCTimestamp : UInt64) : Except Error VersionEdit :=
  let edit : VersionEdit :=
    { addedFiles := [t], lastSequence := some (max t.largestSequence (v.lastSequence.getD 0)) }
  if v.mode ≠ .standalone then v.replicatedMarks edit applied maxMVCCTimestamp
  else
    match v.apply edit with
    | .error err => .error err
    | .ok preliminary =>
      match preliminary.maximumContiguousFrontier with
      | none => .ok edit
      | some frontier =>
        if v.frontier.all (· < frontier) then .ok { edit with replayFrontier := some frontier }
        else .ok edit

/-- `InstallTable`. -/
def installTable (v : Version) (t : TableMetadata) (applied : Option (UInt64 × UInt64))
    (maxMVCCTimestamp : UInt64) : Except Error Version := do
  let edit ← v.installTableEdit t applied maxMVCCTimestamp
  v.apply edit

/-- `Contains`. -/
def contains (v : Version) (t : TableMetadata) : Bool :=
  t.level.toNat < maxLevels && (v.levels t.level.toNat).find? (·.fileNumber = t.fileNumber) = some t

/-- The edit of `InstallCompaction`. -/
def compactionEdit (inputs outputs : List TableMetadata) : VersionEdit where
  addedFiles := outputs
  deletedFiles := inputs.map fun t => ⟨t.level, t.fileNumber⟩

/-- `InstallCompaction`. -/
def installCompaction (v : Version) (inputs outputs : List TableMetadata) : Except Error Version :=
  if inputs = [] ∨ outputs = [] then .error .invalidOptions
  else if inputs.any (!v.contains ·) then .error .staleVersion
  else
    match v.apply (compactionEdit inputs outputs) with
    | .error err => .error (.join .staleVersion err)
    | .ok next => .ok next

end Version

/-- The edit of `Create`. -/
def createEdit (mode : Mode) : VersionEdit where
  comparator := some comparatorName
  nextFileNumber := some 1
  storageMode := if mode = .standalone then none else some (Mode.toByte mode)
  replicatedAppliedThrough := if mode = .standalone then none else some 0

/-! ### Runs of a store -/

/-- A manifest store, with the entries of the table files. -/
structure Store where
  version : Version
  files : UInt64 → List Storage.Version

namespace Store

/-- The table spans the sequences of the entries. -/
structure Spans (t : TableMetadata) (entries : List Storage.Version) : Prop where
  smallest : IsLeast {n | ∃ e ∈ entries, e.seq = n} t.smallestSequence.toNat
  largest : IsGreatest {n | ∃ e ∈ entries, e.seq = n} t.largestSequence.toNat

/-- A flushed table takes up the sequences where the tables before it ended, and stores an entry
for each of them. -/
structure Contiguous (v : Version) (t : TableMetadata) (entries : List Storage.Version) : Prop where
  stored : ∀ n, t.smallestSequence.toNat ≤ n → n ≤ t.largestSequence.toNat →
    ∃ e ∈ entries, e.seq = n
  above : ∀ u ∈ liveTables v.levels, u.largestSequence < t.smallestSequence
  adjacent : liveTables v.levels = [] ∨
    ∃ u ∈ liveTables v.levels, u.largestSequence.toNat + 1 = t.smallestSequence.toNat

/-- What a compaction reads: its inputs, merged. -/
def merged (s : Store) (inputs : List TableMetadata) : List Storage.Version :=
  (Merge.merge Storage.Candidate.le (inputs.map fun t =>
    Storage.tagged t.fileNumber.toNat (s.files t.fileNumber))).map Storage.Candidate.entry

/-- What happens to a store. -/
inductive Step : Store → Store → Prop
  /-- `AllocateFileNumber`, and the edit with which `Open` moves the authorities forward. -/
  | numbers {s : Store} {v : Version} (next last : Option UInt64)
      (h : s.version.apply { nextFileNumber := next, lastSequence := last } = .ok v) :
      Step s { s with version := v }
  /-- A flush. -/
  | flush {s : Store} {v : Version} {files : UInt64 → List Storage.Version} (t : TableMetadata)
      (applied : Option (UInt64 × UInt64)) (maxMVCCTimestamp : UInt64)
      (hlevel : t.level = 0)
      (hspans : Spans t (files t.fileNumber))
      (hcontiguous : s.version.mode = .standalone →
        Contiguous s.version t (files t.fileNumber))
      (hfiles : ∀ n ≠ t.fileNumber, files n = s.files n)
      (h : s.version.installTable t applied maxMVCCTimestamp = .ok v) : Step s ⟨v, files⟩
  /-- A compaction: the inputs are merged and the result is cut into outputs. -/
  | compact {s : Store} {v : Version} {files : UInt64 → List Storage.Version}
      (inputs outputs : List TableMetadata) (targetFileSize : ℕ)
      (hmerge : Storage.buildOutputs targetFileSize none [] 0 (s.merged inputs) =
        .ok (outputs.map (files ·.fileNumber)))
      (hspans : ∀ t ∈ outputs, Spans t (files t.fileNumber))
      (hfiles : ∀ n, (∀ t ∈ outputs, t.fileNumber ≠ n) → files n = s.files n)
      (h : s.version.installCompaction inputs outputs = .ok v) : Step s ⟨v, files⟩
  /-- The store is opened again behind a rewrite. -/
  | reload {s : Store} {v : Version} {edit : VersionEdit}
      (hsnapshot : s.version.snapshotEdit = .ok edit) (h : initialVersion.apply edit = .ok v) :
      Step s { s with version := v }

/-- The stores that an engine reaches. -/
def Reachable (s : Store) : Prop :=
  ∃ mode v files, initialVersion.apply (createEdit mode) = .ok v ∧
    Relation.ReflTransGen Step ⟨v, files⟩ s

end Store

/-! ### Coverage -/

namespace Version

theorem toNat_succ {x : UInt64} (h : x.toNat + 1 < 2 ^ 64) : (x + 1).toNat = x.toNat + 1 := by
  rw [UInt64.toNat_add, UInt64.toNat_one, Nat.mod_eq_of_lt h]

variable {spans : List (UInt64 × UInt64)}

/-- The loop of `frontierCovered` asks of sorted spans that they cover everything. -/
theorem covers_iff {target cursor : UInt64}
    (hsorted : spans.Pairwise fun p q => p.1 ≤ q.1) (hle : cursor.toNat ≤ target.toNat) :
    covers target cursor spans = true ↔ ∀ n, cursor.toNat ≤ n → n ≤ target.toNat →
      ∃ p ∈ spans, p.1.toNat ≤ n ∧ n ≤ p.2.toNat := by
  induction spans generalizing cursor with
  | nil => exact ⟨nofun, fun h => absurd (h _ le_rfl hle) (by simp)⟩
  | cons p rest ih =>
    obtain ⟨first, last⟩ := p
    obtain ⟨hfirst, hrest⟩ := List.pairwise_cons.mp hsorted
    simp only [UInt64.le_iff_toNat_le] at hfirst
    rw [covers]
    simp only [gt_iff_lt, ge_iff_le, UInt64.lt_iff_toNat_lt, UInt64.le_iff_toNat_le,
      List.mem_cons, exists_eq_or_imp]
    split_ifs with hgap hbelow hreach
    · -- the cursor itself is in no span
      refine ⟨nofun, fun h => ?_⟩
      rcases h _ le_rfl hle with hspan | ⟨q, hq, hspan⟩
      · omega
      · have := hfirst q hq
        omega
    · rw [ih hrest hle]
      refine forall_congr' fun n => forall_congr' fun hlow => forall_congr' fun _ => ?_
      exact ⟨.inr, fun h => h.resolve_left (by omega)⟩
    · exact ⟨fun _ n _ _ => .inl (by omega), fun _ => rfl⟩
    · have hnext := toNat_succ (show last.toNat + 1 < 2 ^ 64 by have := target.toNat_lt; omega)
      rw [ih hrest (by omega), hnext]
      refine ⟨fun h n hlow hhigh => ?_, fun h n hlow hhigh =>
        (h n (by omega) hhigh).resolve_left (by omega)⟩
      by_cases hn : n ≤ last.toNat
      · exact .inl (by omega)
      · exact .inr (h n (by omega) hhigh)

instance : IsTrans (UInt64 × UInt64) spanLe where
  trans p q r := by
    simp only [spanLe, UInt64.lt_iff_toNat_lt, UInt64.le_iff_toNat_le, ← UInt64.toNat_inj]
    omega

instance : Std.Total spanLe where
  total p q := by
    simp only [spanLe, UInt64.lt_iff_toNat_lt, UInt64.le_iff_toNat_le, ← UInt64.toNat_inj]
    omega

variable {v v' : Version} {edit : VersionEdit}

theorem pairwise_spans (spans : List (UInt64 × UInt64)) :
    (spans.insertionSort spanLe).Pairwise fun p q => p.1 ≤ q.1 := by
  refine (List.pairwise_insertionSort spanLe _).imp fun hle => ?_
  rcases hle with hlt | ⟨heq, -⟩
  · exact UInt64.le_of_lt hlt
  · exact heq ▸ UInt64.le_refl _

variable {target : UInt64}

theorem covered_of_frontierCovered (h : v.frontierCovered target = true) {n : ℕ}
    (hlow : ∀ f ∈ v.frontier, f.toNat < n) (hhigh : n ≤ target.toNat) :
    ∃ t ∈ liveTables v.levels, t.smallestSequence.toNat ≤ n ∧ n ≤ t.largestSequence.toNat := by
  unfold frontierCovered at h
  split_ifs at h with htarget hmax
  · exact absurd hhigh (Nat.not_le.mpr (hlow _ htarget))
  · have := hlow _ hmax
    have := target.toNat_lt
    have hvalue : maxUint64.toUInt64.toNat = 2 ^ 64 - 1 := by decide
    omega
  · have hstart : (match v.frontier with
        | none => 0
        | some frontier => frontier + 1 : UInt64).toNat ≤ n := by
      cases hfrontier : v.frontier with
      | none => exact Nat.zero_le _
      | some f =>
        have hf := hlow f hfrontier
        have := target.toNat_lt
        show (f + 1).toNat ≤ n
        rw [toNat_succ (by omega)]
        exact hf
    obtain ⟨p, hp, hspan⟩ :=
      (covers_iff (pairwise_spans _) (hstart.trans hhigh)).mp h n hstart hhigh
    rw [(List.perm_insertionSort spanLe _).mem_iff] at hp
    obtain ⟨t, ht, rfl⟩ := List.mem_map.mp hp
    exact ⟨t, (List.mem_filter.mp ht).1, hspan⟩

theorem frontierCovered_of_covered (hfrontier : v.frontier = none)
    (h : ∀ n ≤ target.toNat, ∃ t ∈ liveTables v.levels,
      t.smallestSequence.toNat ≤ n ∧ n ≤ t.largestSequence.toNat) :
    v.frontierCovered target = true := by
  unfold frontierCovered
  simp only [hfrontier, reduceCtorEq, if_false]
  refine (covers_iff (pairwise_spans _) (Nat.zero_le _)).mpr fun n _ hn => ?_
  obtain ⟨t, ht, hspan⟩ := h n hn
  refine ⟨(t.smallestSequence, t.largestSequence), ?_, hspan⟩
  rw [(List.perm_insertionSort spanLe _).mem_iff]
  refine List.mem_map_of_mem (List.mem_filter.mpr ⟨ht, ?_⟩)
  simp only [ge_iff_le, Bool.and_eq_true, decide_eq_true_eq, UInt64.le_iff_toNat_le]
  exact ⟨Nat.zero_le _, hspan.1.trans hn⟩

/-! ### What holds of every version of a store -/

variable {t : TableMetadata}

theorem mem_filed {level : ℕ} :
    t ∈ v.filed edit level ↔
      (t ∈ v.levels level ∧ ¬ ∃ d ∈ edit.deletedFiles, d.level.toNat = level ∧
        d.fileNumber = t.fileNumber) ∨ t ∈ edit.addedFiles ∧ t.level.toNat = level := by
  rw [filed, sortLevel, (List.perm_insertionSort _ _).mem_iff, extended, List.mem_append,
    remaining, List.mem_filter, List.mem_filter, decide_eq_true_eq, decide_eq_true_eq]

/-- The version is sorted and its marks fit together. -/
structure Marked (v : Version) : Prop where
  comparator : v.comparator = comparatorName
  sorted : ∀ level, (v.levels level).Pairwise (levelLe level)
  valid : ∀ t ∈ liveTables v.levels, validateTable t = .ok ()
  next : v.nextFileNumber ≠ 0 ∧ v.nextFileNumber.toNat ≤ maxFileNumber + 1
  consistent : v.Consistent
  replicated : v.mode ≠ .standalone → v.replicatedApplied.isSome
  maximum : v.maxAppliedMVCC ≠ some 0
  highest : highestFile v.levels < v.nextFileNumber

theorem Accepts.sorted (level : ℕ) : (v.filed edit level).Pairwise (levelLe level) :=
  List.pairwise_insertionSort _ _

theorem Marked.updated (h : v.Marked) (ha : v.Accepts edit) (hmode : edit.storageMode = none) :
    (v.updated edit).Marked where
  comparator := by
    cases hname : edit.comparator with
    | none => simp only [Version.updated, hname, Option.getD_none, h.comparator]
    | some name =>
      simp only [Version.updated, hname, Option.getD_some]
      exact (ha.name name hname).1
  sorted := Accepts.sorted
  valid t ht := by
    obtain ⟨level, hlevel, ht⟩ := mem_liveTables.mp ht
    rcases mem_filed.mp ht with ⟨hold, -⟩ | ⟨hnew, -⟩
    · exact h.valid t (mem_liveTables.mpr ⟨level, hlevel, hold⟩)
    · exact (shaped_of_validateEditShape ha.shape).added t hnew
  next := by
    cases hnext : edit.nextFileNumber with
    | none =>
      simp only [Version.updated, hnext, Option.getD_none]
      exact h.next
    | some n =>
      simp only [Version.updated, hnext, Option.getD_some]
      exact (ha.next n hnext).2
  consistent := ha.consistent
  replicated hne := by
    have hsame : (v.updated edit).mode = v.mode := by simp [Version.updated, hmode]
    have hsome := h.replicated (hsame ▸ hne)
    cases happlied : edit.replicatedAppliedThrough with
    | none => simpa [Version.updated, happlied] using hsome
    | some n => simp [Version.updated, happlied]
  maximum := by
    cases hmaximum : edit.maxAppliedMVCC with
    | none => simpa [Version.updated, hmaximum] using h.maximum
    | some n => simpa [Version.updated, hmaximum] using (ha.maximum n hmaximum).2.1
  highest := ha.highest

end Version

namespace Store

open Version

variable {s s' : Store}

/-- A live table stores an entry with this sequence. -/
def Stored (s : Store) (n : ℕ) : Prop :=
  ∃ t ∈ liveTables s.version.levels, ∃ e ∈ s.files t.fileNumber, e.seq = n

/-- What holds of every store. -/
structure Sound (s : Store) : Prop where
  wellFormed : s.version.WellFormed
  marked : s.version.Marked
  spans : ∀ t ∈ liveTables s.version.levels, Spans t (s.files t.fileNumber)
  solid : s.version.mode = .standalone →
    ∀ a b n, s.Stored a → s.Stored b → a ≤ n → n ≤ b → s.Stored n
  frontier : ∀ f ∈ s.version.frontier, ∀ n ≤ f.toNat, s.Stored n

/-- A sequence between those that a live table spans is stored. -/
theorem stored_of_spanned
    (hspans : ∀ t ∈ liveTables s.version.levels, Spans t (s.files t.fileNumber))
    (hsolid : ∀ a b n, s.Stored a → s.Stored b → a ≤ n → n ≤ b → s.Stored n) {n : ℕ}
    (h : ∃ t ∈ liveTables s.version.levels,
      t.smallestSequence.toNat ≤ n ∧ n ≤ t.largestSequence.toNat) : s.Stored n := by
  obtain ⟨t, ht, hlow, hhigh⟩ := h
  obtain ⟨⟨e, he, hsmallest⟩, -⟩ := (hspans t ht).smallest
  obtain ⟨⟨e', he', hlargest⟩, -⟩ := (hspans t ht).largest
  exact hsolid _ _ n ⟨t, ht, e, he, hsmallest⟩ ⟨t, ht, e', he', hlargest⟩ hlow hhigh

variable {edit : VersionEdit} {files : UInt64 → List Storage.Version} {v : Version}
  {t : TableMetadata} {applied : Option (UInt64 × UInt64)}

/-- An accepted edit keeps a store sound, if what was stored is stored still and without gaps. -/
theorem Sound.update (h : s.Sound) (ha : s.version.Accepts edit) (hmode : edit.storageMode = none)
    (hspans : ∀ t ∈ liveTables (s.version.filed edit), Spans t (files t.fileNumber))
    (hkept : ∀ n, s.Stored n → Stored ⟨s.version.updated edit, files⟩ n)
    (hsolid : s.version.mode = .standalone → ∀ a b n, Stored ⟨s.version.updated edit, files⟩ a →
      Stored ⟨s.version.updated edit, files⟩ b → a ≤ n → n ≤ b →
      Stored ⟨s.version.updated edit, files⟩ n) :
    Sound ⟨s.version.updated edit, files⟩ := by
  have hsame : (s.version.updated edit).mode = s.version.mode := by simp [updated, hmode]
  refine ⟨h.wellFormed.apply (h.wellFormed.apply_eq_ok.mpr ⟨ha, rfl⟩), h.marked.updated ha hmode,
    hspans, fun hstandalone => hsolid (hsame ▸ hstandalone), fun f hf n hn => ?_⟩
  by_cases hold : ∃ g ∈ s.version.frontier, n ≤ g.toNat
  · obtain ⟨g, hg, hle⟩ := hold
    exact hkept n (h.frontier g hg n hle)
  · push Not at hold
    cases hfrontier : edit.replayFrontier with
    | none =>
      have hf' : f ∈ s.version.frontier := by simpa [updated, hfrontier] using hf
      exact absurd hn (Nat.not_le.mpr (hold f hf'))
    | some g =>
      obtain rfl : g = f := by simpa [updated, hfrontier] using hf
      obtain ⟨hstandalone, -, -, hcovered⟩ := ha.frontier g hfrontier
      exact stored_of_spanned hspans (hsolid (hsame ▸ hstandalone))
        (covered_of_frontierCovered hcovered hold hn)

/-- In particular if the same sequences are stored. -/
theorem Sound.update_same (h : s.Sound) (ha : s.version.Accepts edit)
    (hmode : edit.storageMode = none)
    (hspans : ∀ t ∈ liveTables (s.version.filed edit), Spans t (files t.fileNumber))
    (hstored : ∀ n, Stored ⟨s.version.updated edit, files⟩ n ↔ s.Stored n) :
    Sound ⟨s.version.updated edit, files⟩ := by
  refine h.update ha hmode hspans (fun n => (hstored n).mpr) fun hmode a b n ha hb hlow hhigh => ?_
  exact (hstored n).mpr (h.solid hmode a b n ((hstored a).mp ha) ((hstored b).mp hb) hlow hhigh)

/-! ### The steps -/

theorem mem_live_filed (hv : v.WellFormed) (ha : v.Accepts edit) :
    t ∈ liveTables (v.filed edit) ↔
      (t ∈ liveTables v.levels ∧ ¬ ∃ d ∈ edit.deletedFiles, d.level.toNat = t.level.toNat ∧
        d.fileNumber = t.fileNumber) ∨ t ∈ edit.addedFiles := by
  simp only [mem_liveTables, mem_filed]
  constructor
  · rintro ⟨level, hlevel, ⟨hold, hkept⟩ | ⟨hnew, -⟩⟩
    · exact .inl ⟨⟨level, hlevel, hold⟩, (hv.placed level t hold).2 ▸ hkept⟩
    · exact .inr hnew
  · rintro (⟨⟨level, hlevel, hold⟩, hkept⟩ | hnew)
    · exact ⟨level, hlevel, .inl ⟨hold, (hv.placed level t hold).2 ▸ hkept⟩⟩
    · have hvalid := valid_of_validateTable ((shaped_of_validateEditShape ha.shape).added t hnew)
      exact ⟨t.level.toNat, hvalid.level, .inr ⟨hnew, rfl⟩⟩

/-- The live tables once some of them have been replaced; the others keep their files. -/
theorem Sound.exchange (h : s.Sound) {edit : VersionEdit} {inputs : List TableMetadata}
    {files : UInt64 → List Storage.Version} (ha : s.version.Accepts edit)
    (hdeleted : edit.deletedFiles = inputs.map fun t => ⟨t.level, t.fileNumber⟩)
    (hinputs : ∀ t ∈ inputs, t ∈ liveTables s.version.levels)
    (hfiles : ∀ n, (∀ t ∈ edit.addedFiles, t.fileNumber ≠ n) → files n = s.files n) :
    (∀ t, t ∈ liveTables (s.version.filed edit) ↔
      (t ∈ liveTables s.version.levels ∧ t ∉ inputs) ∨ t ∈ edit.addedFiles) ∧
      ∀ t ∈ liveTables s.version.levels, t ∉ inputs →
        files t.fileNumber = s.files t.fileNumber := by
  -- a live table is an input if it has the number of one
  have hdelete : ∀ t ∈ liveTables s.version.levels, (∃ d ∈ edit.deletedFiles,
      d.level.toNat = t.level.toNat ∧ d.fileNumber = t.fileNumber) ↔ t ∈ inputs := fun t ht => by
    simp only [hdeleted, List.mem_map, exists_exists_and_eq_and]
    constructor
    · rintro ⟨u, hu, -, heq⟩
      rwa [List.inj_on_of_nodup_map h.wellFormed.unique ht (hinputs u hu) heq.symm]
    · exact fun hmem => ⟨t, hmem, rfl, rfl⟩
  refine ⟨fun t => ?_, fun t ht hnot => hfiles _ fun u hu heq => ?_⟩
  · rw [mem_live_filed h.wellFormed ha]
    refine or_congr_left (and_congr_right fun ht => ?_)
    rw [hdelete t ht]
  · -- the number of a new file is not in use
    have hnew := (ha.fits.added u hu).1
    obtain ⟨level, hlevel, hmem⟩ := mem_liveTables.mp ht
    have hkept : t ∈ remaining s.version.levels edit.deletedFiles level :=
      List.mem_filter.mpr ⟨hmem, decide_eq_true fun hd => hnot ((hdelete t ht).mp (by
        rwa [← (h.wellFormed.placed level t hmem).2] at hd))⟩
    rw [hasFile_iff.mpr ⟨level, hlevel, t, hkept, heq.symm⟩] at hnew
    cases hnew

/-- An edit without files. -/
theorem Sound.relist (h : s.Sound) (ha : s.version.Accepts edit)
    (hadded : edit.addedFiles = []) (hdeleted : edit.deletedFiles = [])
    (hmode : edit.storageMode = none) : Sound ⟨s.version.updated edit, s.files⟩ := by
  obtain ⟨hlive, -⟩ := @Sound.exchange _ h _ [] s.files ha hdeleted nofun fun _ _ => rfl
  simp only [hadded, List.not_mem_nil, not_false_eq_true, and_true, or_false] at hlive
  exact h.update_same ha hmode (fun t ht => h.spans t ((hlive t).mp ht)) fun n =>
    exists_congr fun t => and_congr_left fun _ => hlive t

variable {maximum : UInt64}

/-- What `InstallTable` adds. -/
theorem installTableEdit_files (h : v.installTableEdit t applied maximum = .ok edit) :
    edit.addedFiles = [t] ∧ edit.deletedFiles = [] ∧ edit.storageMode = none := by
  unfold installTableEdit at h
  dsimp only at h
  split_ifs at h with hmode
  · unfold replicatedMarks at h
    split at h
    · cases h
    · split_ifs at h <;> cases h <;> exact ⟨rfl, rfl, rfl⟩
  · split at h
    · cases h
    · split at h
      · cases h
        exact ⟨rfl, rfl, rfl⟩
      · split_ifs at h <;> cases h <;> exact ⟨rfl, rfl, rfl⟩

variable {entries : List Storage.Version}

/-- Sequences that are taken up where the others ended leave no gap. -/
theorem solid_flush (h : s.Sound) (hmode : s.version.mode = .standalone) (hspans : Spans t entries)
    (hcontiguous : Contiguous s.version t entries) {a b n : ℕ}
    (ha : s.Stored a ∨ ∃ e ∈ entries, e.seq = a) (hb : s.Stored b ∨ ∃ e ∈ entries, e.seq = b)
    (hlow : a ≤ n) (hhigh : n ≤ b) : s.Stored n ∨ ∃ e ∈ entries, e.seq = n := by
  have hbelow : ∀ m, s.Stored m → m < t.smallestSequence.toNat := by
    rintro m ⟨u, hu, e, he, rfl⟩
    have hlt := UInt64.lt_iff_toNat_lt.mp (hcontiguous.above u hu)
    exact ((h.spans u hu).largest.2 ⟨e, he, rfl⟩).trans_lt hlt
  rcases ha with ha | ⟨e, he, rfl⟩
  · by_cases hn : n < t.smallestSequence.toNat
    · -- up to the end of the table before
      rcases hcontiguous.adjacent with hempty | ⟨u, hu, hend⟩
      · obtain ⟨u, hu, -⟩ := ha
        rw [hempty] at hu
        cases hu
      · obtain ⟨⟨e, he, hlargest⟩, -⟩ := (h.spans u hu).largest
        exact .inl (h.solid hmode a _ n ha ⟨u, hu, e, he, hlargest⟩ hlow (by omega))
    · rcases hb with hb | ⟨e, he, rfl⟩
      · exact absurd (hhigh.trans_lt (hbelow b hb)) hn
      · exact .inr (hcontiguous.stored n (by omega) (hhigh.trans (hspans.largest.2 ⟨e, he, rfl⟩)))
  · have hsmallest : t.smallestSequence.toNat ≤ e.seq := hspans.smallest.2 ⟨e, he, rfl⟩
    rcases hb with hb | ⟨e', he', rfl⟩
    · exact absurd (hbelow b hb) (by omega)
    · exact .inr (hcontiguous.stored n (by omega) (hhigh.trans (hspans.largest.2 ⟨e', he', rfl⟩)))

theorem Sound.flush (h : s.Sound) (hspans : Spans t (files t.fileNumber))
    (hcontiguous : s.version.mode = .standalone → Contiguous s.version t (files t.fileNumber))
    (hfiles : ∀ n ≠ t.fileNumber, files n = s.files n)
    (hinstall : s.version.installTable t applied maximum = .ok v) : Sound ⟨v, files⟩ := by
  obtain ⟨edit, hedit, happly⟩ := Fallible.bind_eq_ok.mp hinstall
  obtain ⟨ha, rfl⟩ := h.wellFormed.apply_eq_ok.mp happly
  obtain ⟨hadded, hdeleted, hstorage⟩ := installTableEdit_files hedit
  obtain ⟨hlive, hold⟩ := @Sound.exchange _ h _ [] files ha hdeleted nofun fun n hn =>
    hfiles n (hn t (by simp [hadded])).symm
  simp only [hadded, List.not_mem_nil, not_false_eq_true, and_true, List.mem_singleton,
    true_implies] at hlive hold
  have hstored : ∀ n, Stored ⟨s.version.updated edit, files⟩ n ↔
      s.Stored n ∨ ∃ e ∈ files t.fileNumber, e.seq = n := fun n => by
    simp only [Stored, Version.updated, hlive, or_and_right, exists_or, exists_eq_left]
    refine or_congr_left (exists_congr fun u => and_congr_right fun hu => ?_)
    rw [hold u hu]
  refine h.update ha hstorage (fun u hu => ?_) (fun n hn => (hstored n).mpr (.inl hn)) ?_
  · rcases (hlive u).mp hu with hu | rfl
    · exact hold u hu ▸ h.spans u hu
    · exact hspans
  · intro hmode a b n ha hb hlow hhigh
    exact (hstored n).mpr (solid_flush h hmode hspans (hcontiguous hmode) ((hstored a).mp ha)
      ((hstored b).mp hb) hlow hhigh)

variable {v' : Version} {inputs outputs : List TableMetadata}

theorem installCompaction_ok (h : v.installCompaction inputs outputs = .ok v') :
    (∀ t ∈ inputs, v.contains t = true) ∧ v.apply (compactionEdit inputs outputs) = .ok v' := by
  unfold installCompaction at h
  split_ifs at h with hempty hstale
  split at h
  · cases h
  · rename_i next happly
    cases h
    simp only [List.any_eq_true, Bool.not_eq_true', not_exists, not_and,
      Bool.not_eq_false] at hstale
    exact ⟨hstale, happly⟩

theorem mem_of_contains (h : v.contains t = true) : t ∈ liveTables v.levels := by
  simp only [contains, Bool.and_eq_true, decide_eq_true_eq] at h
  exact mem_liveTables.mpr ⟨_, h.1, List.mem_of_find?_eq_some h.2⟩

variable {targetFileSize : ℕ}

/-- The outputs of a compaction store what its inputs stored. -/
theorem mem_outputs (h : Storage.buildOutputs targetFileSize none [] 0 (s.merged inputs) =
      .ok (outputs.map (files ·.fileNumber))) (e : Storage.Version) :
    (∃ t ∈ outputs, e ∈ files t.fileNumber) ↔ ∃ t ∈ inputs, e ∈ s.files t.fileNumber := by
  have hflatten := Storage.buildOutputs_flatten h
  have hperm := (@Merge.merge_perm _ Storage.Candidate.le _ (inputs.map fun t =>
    Storage.tagged t.fileNumber.toNat (s.files t.fileNumber))).map Storage.Candidate.entry
  calc (∃ t ∈ outputs, e ∈ files t.fileNumber)
      ↔ e ∈ (outputs.map (files ·.fileNumber)).flatten := by simp
    _ ↔ e ∈ ((inputs.map fun t => Storage.tagged t.fileNumber.toNat
          (s.files t.fileNumber)).flatten).map Storage.Candidate.entry := by
        rw [hflatten, List.nil_append, merged, hperm.mem_iff]
    _ ↔ ∃ t ∈ inputs, e ∈ s.files t.fileNumber := by
        simp [Storage.tagged]

theorem Sound.compact (h : s.Sound) (hmerge : Storage.buildOutputs targetFileSize none [] 0
      (s.merged inputs) = .ok (outputs.map (files ·.fileNumber)))
    (hspans : ∀ t ∈ outputs, Spans t (files t.fileNumber))
    (hfiles : ∀ n, (∀ t ∈ outputs, t.fileNumber ≠ n) → files n = s.files n)
    (hinstall : s.version.installCompaction inputs outputs = .ok v) : Sound ⟨v, files⟩ := by
  obtain ⟨hcontains, happly⟩ := installCompaction_ok hinstall
  obtain ⟨ha, rfl⟩ := h.wellFormed.apply_eq_ok.mp happly
  have hinputs : ∀ t ∈ inputs, t ∈ liveTables s.version.levels := fun t ht =>
    mem_of_contains (hcontains t ht)
  obtain ⟨hlive, hold⟩ := h.exchange ha rfl hinputs hfiles
  refine h.update_same ha rfl (fun t ht => ?_) fun n => ⟨?_, ?_⟩
  · rcases (hlive t).mp ht with ⟨ht, hnot⟩ | ht
    · exact hold t ht hnot ▸ h.spans t ht
    · exact hspans t ht
  · rintro ⟨t, ht, e, he, hseq⟩
    rcases (hlive t).mp ht with ⟨ht, hnot⟩ | ht
    · exact ⟨t, ht, e, hold t ht hnot ▸ he, hseq⟩
    · obtain ⟨u, hu, hmem⟩ := (mem_outputs hmerge e).mp ⟨t, ht, he⟩
      exact ⟨u, hinputs u hu, e, hmem, hseq⟩
  · rintro ⟨t, ht, e, he, hseq⟩
    by_cases hin : t ∈ inputs
    · obtain ⟨u, hu, hmem⟩ := (mem_outputs hmerge e).mpr ⟨t, hin, he⟩
      exact ⟨u, (hlive u).mpr (.inr hu), e, hmem, hseq⟩
    · have he' : e ∈ files t.fileNumber := (hold t ht hin).symm ▸ he
      exact ⟨t, (hlive t).mpr (.inl ⟨ht, hin⟩), e, he', hseq⟩

/-! ### The snapshot -/

theorem flatMap_range_single {α : Type} (l : List α) (level n : ℕ) :
    (List.range n).flatMap (fun i => if i = level then l else []) =
      if level < n then l else [] := by
  induction n with
  | zero => rfl
  | succ n ih =>
    rw [List.range_succ, List.flatMap_append, ih]
    rcases Nat.lt_trichotomy level n with hlt | rfl | hgt
    · simp [hlt, hlt.ne', Nat.lt_succ_of_lt hlt]
    · simp
    · simp [hgt.ne, show ¬ level < n by omega, show ¬ level < n + 1 by omega]

/-- The files of a snapshot are sorted into the levels they came from. -/
theorem filed_snapshot (hv : v.WellFormed)
    (hsorted : ∀ level, (v.levels level).Pairwise (levelLe level)) :
    initialVersion.filed v.snapshot = v.levels := by
  funext level
  have hlive : (liveTables v.levels).filter (·.level.toNat = level) = v.levels level := by
    have hfilter : ∀ i, (v.levels i).filter (·.level.toNat = level) =
        if i = level then v.levels level else [] := fun i => by
      split_ifs with heq
      · subst heq
        exact List.filter_eq_self.mpr fun t ht => by simpa using (hv.placed i t ht).2
      · exact List.filter_eq_nil_iff.mpr fun t ht => by simpa [(hv.placed i t ht).2] using heq
    rw [liveTables, List.filter_flatMap]
    simp only [hfilter]
    rw [flatMap_range_single]
    split_ifs with hlevel
    · rfl
    · refine (List.eq_nil_iff_forall_not_mem.mpr fun t ht => hlevel ?_).symm
      exact (hv.placed level t ht).2 ▸ (hv.placed level t ht).1.level
  have hfiles : extended (remaining initialVersion.levels v.snapshot.deletedFiles)
      v.snapshot.addedFiles level = v.levels level := hlive
  rw [filed, hfiles]
  exact (hsorted level).insertionSort_eq

variable {tables : List TableMetadata}

theorem overlaps_eq_false (h : Leveled tables) : overlaps tables = false := by
  induction tables with
  | nil => rfl
  | cons s rest ih =>
    cases rest with
    | nil => rfl
    | cons t rest =>
      obtain ⟨hs, hrest⟩ := List.pairwise_cons.mp h
      rw [overlaps, ih hrest, Bool.or_false, decide_eq_false_iff_not]
      exact not_le.mpr (hs t List.mem_cons_self).2

theorem snapshot_shape (hv : v.WellFormed) (h : v.Marked)
    (hcount : (liveTables v.levels).length ≤ maxChangesPerEdit) :
    validateEditShape v.snapshot = .ok () := by
  unfold validateEditShape
  rw [if_neg (by simp [snapshot]), if_neg (by simpa [snapshot] using hcount), if_neg ?_, if_neg ?_]
  · refine validateEditShape_files.mpr ⟨by simp [snapshot], h.valid, ?_⟩
    simpa [snapshot] using hv.unique
  · have hlength : comparatorName.length = 23 := by decide
    simp only [snapshot, h.comparator, Option.any_some, hlength]
    decide
  · rintro (hmode | ⟨hfrontier, happlied⟩ | ⟨hmaximum, happlied⟩)
    · simp only [snapshot] at hmode
      split_ifs at hmode
      · cases hmode
      · simp [Mode.ofByte_toByte] at hmode
    · by_cases hmode : v.mode = .standalone
      · simp [snapshot, h.consistent.replicated hmode] at happlied
      · simp [snapshot, h.consistent.frontier hmode] at hfrontier
    · by_cases hmode : v.mode = .standalone
      · have hne : v.mode ≠ .replicatedMVCC := by simp [hmode]
        simp [snapshot, h.consistent.maximum hne] at hmaximum
      · have := h.replicated hmode
        simp_all [snapshot]

/-- The version of the snapshot is that of the store, but for the generation and for how the mode
came about. -/
theorem Sound.updated_snapshot (h : s.Sound) :
    initialVersion.updated s.version.snapshot =
      { s.version with
        generation := 1
        modeExplicit := s.version.snapshot.storageMode.isSome || false } := by
  have hmode : (s.version.snapshot.storageMode.bind Mode.ofByte).getD .standalone =
      s.version.mode := by
    simp only [snapshot]
    split_ifs with hmode
    · exact hmode.symm
    · simp [Mode.ofByte_toByte]
  unfold updated
  rw [filed_snapshot h.wellFormed h.marked.sorted,
    show initialVersion.mode = .standalone from rfl, hmode]
  simp [snapshot, initialVersion]

/-- The empty version accepts the snapshot. -/
theorem Sound.accepts (h : s.Sound)
    (hcount : (liveTables s.version.levels).length ≤ maxChangesPerEdit) :
    initialVersion.Accepts s.version.snapshot := by
  have hfiled := filed_snapshot h.wellFormed h.marked.sorted
  have hupdated := h.updated_snapshot
  have hmarks := h.marked.consistent
  refine {
    shape := snapshot_shape h.wellFormed h.marked hcount
    generation := by decide
    name := by simp [snapshot, initialVersion, h.marked.comparator]
    comparator := ?_
    mode := ?_
    next := ?_
    last := nofun
    fits := ⟨nofun, fun t ht => ⟨rfl, h.wellFormed.below t ht⟩, fun level _ hlevel => ?_⟩
    frontier := fun f hf => ⟨?_, nofun, hupdated ▸ h.wellFormed.frontier f hf, ?_⟩
    replicated := fun n hn => ⟨?_, nofun⟩
    maximum := fun n hn => ⟨?_, fun heq => h.marked.maximum (heq ▸ hn), nofun⟩
    consistent := hupdated ▸ { hmarks with }
    highest := hfiled ▸ h.marked.highest }
  · simp only [snapshot, Option.getD_some, h.marked.comparator]
    decide
  · intro byte hbyte
    simp only [snapshot] at hbyte
    split_ifs at hbyte
    · cases hbyte
    · cases hbyte
      simp [Mode.ofByte_toByte, initialVersion]
  · rintro n ⟨⟩
    refine ⟨?_, h.marked.next⟩
    have hne : s.version.nextFileNumber.toNat ≠ 0 := fun heq =>
      h.marked.next.1 (UInt64.toNat_inj.mp heq)
    exact UInt64.le_iff_toNat_le.mpr (Nat.one_le_iff_ne_zero.mpr hne)
  · rw [hfiled]
    exact overlaps_eq_false (h.wellFormed.leveled level hlevel)
  · rw [hupdated]
    by_contra hne
    cases (Option.mem_def.mp hf).symm.trans (hmarks.frontier hne)
  · refine frontierCovered_of_covered rfl fun n hn => ?_
    obtain ⟨t, ht, e, he, rfl⟩ := h.frontier f hf n hn
    have hspans := h.spans t ht
    show ∃ t ∈ liveTables (initialVersion.filed s.version.snapshot), _
    rw [hfiled]
    exact ⟨t, ht, hspans.smallest.2 ⟨e, he, rfl⟩, hspans.largest.2 ⟨e, he, rfl⟩⟩
  · rw [hupdated]
    intro heq
    cases (Option.mem_def.mp hn).symm.trans (hmarks.replicated heq)
  · rw [hupdated]
    by_contra hne
    cases (Option.mem_def.mp hn).symm.trans (hmarks.maximum hne)

theorem validateEquivalent_ok {generation : ℕ} {explicit : Bool} :
    validateEquivalent v { v with generation := generation, modeExplicit := explicit } =
      .ok () := by
  unfold validateEquivalent
  rw [if_neg (by simp), if_neg (by simp)]

/-- Generation and origin of the mode do not matter. -/
theorem Sound.relabel (h : s.Sound) (generation : ℕ) (explicit : Bool) :
    Sound { s with version :=
      { s.version with generation := generation, modeExplicit := explicit } } where
  wellFormed := { h.wellFormed with }
  marked := { h.marked with consistent := { h.marked.consistent with } }
  spans := h.spans
  solid := h.solid
  frontier := h.frontier

theorem sound_created {mode : Mode} (files : UInt64 → List Storage.Version)
    (h : initialVersion.apply (createEdit mode) = .ok v) : Sound ⟨v, files⟩ := by
  obtain ⟨ha, rfl⟩ := wellFormed_initialVersion.apply_eq_ok.mp h
  have hlive : ∀ t, t ∉ liveTables (initialVersion.filed (createEdit mode)) := fun t ht => by
    rw [mem_live_filed wellFormed_initialVersion ha] at ht
    simp [createEdit, initialVersion, liveTables] at ht
  have hmode : (initialVersion.updated (createEdit mode)).mode = mode := by
    cases mode <;> rfl
  refine ⟨wellFormed_initialVersion.apply h, ?_, fun t ht => absurd ht (hlive t), ?_, ?_⟩
  · refine ⟨rfl, Accepts.sorted, fun t ht => absurd ht (hlive t),
      ⟨show (1 : UInt64) ≠ 0 by decide, show (1 : UInt64).toNat ≤ _ by decide⟩,
      ha.consistent, fun hne => ?_, by simp [updated, createEdit, initialVersion], ha.highest⟩
    rw [hmode] at hne
    simp [updated, createEdit, hne]
  · rintro - a b n ⟨t, ht, -⟩
    exact absurd ht (hlive t)
  · rintro f hf
    simp [updated, createEdit, initialVersion] at hf

theorem Sound.step (h : s.Sound) (hstep : Step s s') : s'.Sound := by
  cases hstep with
  | numbers next last happly =>
    obtain ⟨ha, rfl⟩ := h.wellFormed.apply_eq_ok.mp happly
    exact h.relist ha rfl rfl rfl
  | flush t applied maximum hlevel hspans hcontiguous hfiles hinstall =>
    exact h.flush hspans hcontiguous hfiles hinstall
  | compact inputs outputs target hmerge hspans hfiles hinstall =>
    exact h.compact hmerge hspans hfiles hinstall
  | reload hsnapshot happly =>
    have hedit := hsnapshot
    unfold snapshotEdit at hedit
    split at hedit
    · cases hedit
    · cases hedit
      obtain ⟨-, rfl⟩ := wellFormed_initialVersion.apply_eq_ok.mp happly
      rw [h.updated_snapshot]
      exact h.relabel _ _

theorem Reachable.sound (h : s.Reachable) : s.Sound := by
  obtain ⟨mode, v, files, hcreate, hsteps⟩ := h
  induction hsteps with
  | refl => exact sound_created files hcreate
  | tail _ hstep ih => exact ih.step hstep

end Store

/-! ### Size -/

/-- The fields of an edit. -/
def VersionEdit.entries (edit : VersionEdit) : List (Field × Bytes) :=
  scalarFields edit ++ (edit.deletedFiles.map deletedField ++
    edit.addedFiles.map fun t => (.addFile, tableNumbers t ++ (tableKeys t).flatMap framed))

/-- How long the encoding of an edit is. -/
def VersionEdit.encodedLength (edit : VersionEdit) : ℕ :=
  editHeaderSize + ((edit.entries.map fun entry => fieldHeaderSize + entry.2.length).sum)

theorem foldlM_appendField_ok {entries : List (Field × Bytes)} {header : Bytes}
    (h : header.length + (entries.map fun entry => fieldHeaderSize + entry.2.length).sum ≤
      maxEditSize) :
    ∃ out, entries.foldlM appendField header = .ok out := by
  induction entries generalizing header with
  | nil => exact ⟨header, rfl⟩
  | cons entry rest ih =>
    have hsizes : fieldHeaderSize = 5 ∧ maxEditSize = 16777216 ∧
        Storage.maxUint32 = 4294967295 := by decide
    simp only [List.map_cons, List.sum_cons] at h
    have hfits : ¬ (entry.2.length > Storage.maxUint32 ∨
        header.length + fieldHeaderSize + entry.2.length > maxEditSize) := by omega
    rw [List.foldlM_cons, appendField, if_neg hfits, Fallible.ok_bind]
    refine ih ?_
    simp only [List.length_append, List.length_cons, framed, Codec.length_putLE]
    omega

variable {t : TableMetadata}

theorem encodeTable_ok (h : validateTable t = .ok ()) :
    encodeTable t = .ok (tableNumbers t ++ (tableKeys t).flatMap framed) := by
  have hvalid := valid_of_validateTable h
  have hkeys : ¬ ((tableKeys t).any (·.length > Storage.maxUint32) = true) := by
    have hlimit : Storage.maxUserKeySize + 9 ≤ Storage.maxUint32 := by decide
    have hsmall := hvalid.smallestUser
    have hlarge := hvalid.largestUser
    simp only [tableKeys, List.any_cons, List.any_nil, Bool.or_false, Bool.or_eq_true,
      decide_eq_true_eq, Storage.InternalKey.length_encode, hvalid.smallestInternal,
      hvalid.largestInternal, Storage.internalKeyTrailerLen]
    omega
  unfold encodeTable
  rw [h, Fallible.ok_bind]
  exact if_neg hkeys

theorem mapM_addedField_ok {ts : List TableMetadata} (h : ∀ t ∈ ts, validateTable t = .ok ()) :
    ts.mapM addedField =
      .ok (ts.map fun t => (.addFile, tableNumbers t ++ (tableKeys t).flatMap framed)) := by
  induction ts with
  | nil => rfl
  | cons t ts ih =>
    obtain ⟨hhead, htail⟩ := List.forall_mem_cons.mp h
    rw [List.mapM_cons, addedField, encodeTable_ok hhead, Fallible.ok_bind, ih htail]
    rfl

theorem length_scalarFields_le (edit : VersionEdit) : (scalarFields edit).length ≤ 7 := by
  have hone : ∀ {α : Type} (o : Option α), o.toList.length ≤ 1 := fun o => by cases o <;> simp
  have := hone edit.comparator
  have := hone edit.nextFileNumber
  have := hone edit.lastSequence
  have := hone edit.replayFrontier
  have := hone edit.storageMode
  have := hone edit.replicatedAppliedThrough
  have := hone edit.maxAppliedMVCC
  simp only [scalarFields, List.length_append, List.length_map]
  omega

variable {edit : VersionEdit}

/-- An edit of an acceptable shape is written if it is not too long. -/
theorem encodeVersionEdit_ok (hshape : validateEditShape edit = .ok ())
    (hlength : edit.encodedLength ≤ maxEditSize) :
    ∃ encoded, encodeVersionEdit edit = .ok encoded := by
  obtain ⟨hdeletions, hadditions⟩ := canonical_perm edit
  have hshaped := shaped_of_validateEditShape hshape
  have hadded := mapM_addedField_ok fun t ht =>
    hshaped.added t (hadditions.mem_iff.mp ht)
  have hentries : edit.entries.Perm (edit.canonical.entries) :=
    (((hdeletions.map deletedField).append (hadditions.map _)).append_left _).symm
  have hcount : edit.canonical.entries.length ≤ 7 + (maxChangesPerEdit + maxChangesPerEdit) := by
    rw [← hentries.length_eq]
    have := length_scalarFields_le edit
    have := hshaped.deleted_length
    have := hshaped.added_length
    simp only [VersionEdit.entries, List.length_append, List.length_map]
    omega
  have hchanges : maxChangesPerEdit = 4096 := rfl
  unfold encodeVersionEdit
  rw [hshape, Fallible.ok_bind, hadded, Fallible.ok_bind]
  dsimp only
  rw [if_neg (by change ¬ edit.canonical.entries.length > _; omega)]
  refine @foldlM_appendField_ok edit.canonical.entries _ ?_
  have hsum := (hentries.map fun entry : Field × Bytes => fieldHeaderSize + entry.2.length).sum_nat
  simp only [VersionEdit.encodedLength, editHeaderSize] at hlength
  simp only [List.length_append, Codec.length_putLE, ← hsum]
  omega

/-- The manifest can be rewritten: the edit of a reachable version leads from the empty version to
an equivalent one, also through its encoding. -/
theorem Store.rewrite_equivalent {s : Store} (h : s.Reachable)
    (hcount : (liveTables s.version.levels).length ≤ maxChangesPerEdit) :
    ∃ edit v, s.version.snapshotEdit = .ok edit ∧ initialVersion.apply edit = .ok v ∧
      s.version.validateEquivalent v = .ok () ∧
      (edit.encodedLength ≤ maxEditSize → ∃ encoded decoded v',
        encodeVersionEdit edit = .ok encoded ∧
        decodeVersionEdit encoded = .ok decoded ∧ initialVersion.apply decoded = .ok v' ∧
        s.version.validateEquivalent v' = .ok ()) := by
  have hsound := h.sound
  have happly := Version.wellFormed_initialVersion.apply_eq_ok.mpr ⟨hsound.accepts hcount, rfl⟩
  have hequivalent : s.version.validateEquivalent (initialVersion.updated s.version.snapshot) =
      .ok () := by
    rw [hsound.updated_snapshot]
    exact Store.validateEquivalent_ok
  refine ⟨s.version.snapshot, _, by rw [Version.snapshotEdit, happly], happly, hequivalent,
    fun hlength => ?_⟩
  obtain ⟨encoded, hencode⟩ := encodeVersionEdit_ok (hsound.accepts hcount).shape hlength
  obtain ⟨hdeletions, hadditions⟩ := canonical_perm s.version.snapshot
  exact ⟨encoded, _, _, hencode, decodeVersionEdit_encodeVersionEdit hencode,
    Version.apply_perm hdeletions hadditions Version.wellFormed_initialVersion happly, hequivalent⟩

def firstEntries (_ : UInt64) : List Storage.Version := [⟨[97], 0, .value, [98]⟩]

/-- A standalone store before its first flush. -/
def numbered : Version :=
  (initialVersion.attempt (createEdit .standalone)).attempt { nextFileNumber := some 3 }

theorem numbered_reachable : Relation.ReflTransGen Store.Step
    ⟨initialVersion.attempt (createEdit .standalone), firstEntries⟩ ⟨numbered, firstEntries⟩ :=
  .single (.numbers (some 3) none rfl)

theorem spans_oneEntry (level : UInt32) (fileNumber : UInt64) :
    Store.Spans (oneEntry level fileNumber) (firstEntries fileNumber) :=
  ⟨by simp [oneEntry, firstEntries, IsLeast, lowerBounds],
    by simp [oneEntry, firstEntries, IsGreatest, upperBounds]⟩

/-- The store behind its first flush and the compaction of that table. -/
theorem reachable_compacted :
    ∃ s : Store, s.Reachable ∧ liveTables s.version.levels = [oneEntry 1 2] := by
  obtain ⟨v, hv⟩ : ∃ v, numbered.installTable (oneEntry 0 1) none 0 = .ok v := ⟨_, rfl⟩
  obtain ⟨w, hw⟩ : ∃ w, v.installCompaction [oneEntry 0 1] [oneEntry 1 2] = .ok w := by
    cases hv
    exact ⟨_, rfl⟩
  have hflush : Store.Step ⟨numbered, firstEntries⟩ ⟨v, firstEntries⟩ := by
    refine .flush (oneEntry 0 1) none 0 rfl (spans_oneEntry 0 1) (fun _ => ⟨?_, ?_, ?_⟩)
      (fun _ _ => rfl) hv
    · simp [oneEntry, firstEntries]
    · intro u hu
      cases hu
    · exact .inl rfl
  have hcompact : Store.Step ⟨v, firstEntries⟩ ⟨w, firstEntries⟩ :=
    .compact [oneEntry 0 1] [oneEntry 1 2] 4194304 rfl
      (fun t ht => by rw [List.mem_singleton.mp ht]; exact spans_oneEntry 1 2) (fun _ _ => rfl) hw
  refine ⟨_, ⟨.standalone, _, firstEntries, rfl,
    (numbered_reachable.tail hflush).tail hcompact⟩, ?_⟩
  cases hv
  cases hw
  rfl

theorem Store.rewrite_equivalent_compacted :
    ∃ s : Store, s.Reachable ∧ liveTables s.version.levels = [oneEntry 1 2] ∧
      ∃ edit v, s.version.snapshotEdit = .ok edit ∧ initialVersion.apply edit = .ok v ∧
        s.version.validateEquivalent v = .ok () := by
  obtain ⟨s, hs, hlive⟩ := reachable_compacted
  obtain ⟨edit, v, hedit, hv, hequivalent, -⟩ :=
    Store.rewrite_equivalent hs (by rw [hlive]; decide)
  exact ⟨s, hs, hlive, edit, v, hedit, hv, hequivalent⟩

end RivetDB.Manifest
