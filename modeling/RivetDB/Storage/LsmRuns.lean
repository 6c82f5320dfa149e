import RivetDB.Storage.LsmLayout

/-!
# Runs of the tree

A run is a sequence of writes, applies, rotations, flush steps, compactions and openings.
Beside the engine it keeps the log of everything that was stored; opening a standalone
engine again brings back its write-ahead log, opening a replicated one brings back what
its manifest covers.

`Laid` says how the tables hold the log: a first part is in the files of the manifest,
each frozen table holds one further part, and the active table holds the rest.  The parts
share no internal key.  One lemma for each kind of step keeps this.
-/

namespace RivetDB.Storage

open List
open scoped ByteOrder

/-- A record of the write-ahead log as a batch of the history. -/
def WriteBatch.toBatch (b : WriteBatch) : Batch := ⟨b.lastSequence, b.versions⟩

namespace Lsm

/-! ### Operations -/

/-- The operations on an engine.  `ApplyCommittedMVCC` is the batch of one mutation;
`ensureActiveFile` and `reserve` are what an operation that fails later may leave. -/
inductive Op where
  | write (mutations : List Mutation)
  | writeFailing (mutations : List Mutation) (persisted : Bool)
  | applyCommitted (index term : ℕ) (command : Bytes) (mutation : Mutation)
  | applyCommittedMVCCBatch (index term timestamp : ℕ) (command : Bytes) (mutations : List Mutation)
  | applyPreparedMVCCBatch (index term timestamp : ℕ) (command : Bytes) (mutations : List Mutation)
  | resolveCommittedMVCCBatch (index term timestamp : ℕ) (command : Bytes)
      (mutations : List Mutation)
  | advanceApplied (index : ℕ)
  | ensureActiveFile
  | reserve
  | rotate
  | installTable
  | finishInstallation
  | compact (job : ℕ) (inputs : List (ℕ × ℕ))
  | reopen

namespace Op

def run : Op → Lsm → Except LsmError Lsm
  | .write mutations, s => s.write mutations
  | .writeFailing mutations persisted, s => s.writeFailing mutations persisted
  | .applyCommitted index term command mutation, s =>
    s.applyCommittedBatch index term index command [mutation] .replicated false
  | .applyCommittedMVCCBatch index term timestamp command mutations, s =>
    s.applyCommittedBatch index term timestamp command mutations .replicatedMVCC false
  | .applyPreparedMVCCBatch index term timestamp command mutations, s =>
    s.applyCommittedBatch index term timestamp command mutations .replicatedMVCC true
  | .resolveCommittedMVCCBatch index term timestamp command mutations, s =>
    s.applyCommittedBatch index term timestamp command mutations .replicatedMVCC true
  | .advanceApplied index, s => s.advanceApplied index
  | .ensureActiveFile, s => s.ensureActiveFile
  | .reserve, s =>
    match s.manifest.allocateFileNumber with
    | .error err => .error (.manifest err)
    | .ok (_, manifest) => .ok { s with manifest := manifest }
  | .rotate, s => s.rotate
  | .installTable, s => s.installTable
  | .finishInstallation, s => s.finishInstallation
  | .compact job inputs, s => s.compact job inputs
  | .reopen, s => s.reopen

/-- The batch that a successful operation stores. -/
def batch : Op → Lsm → Option Batch
  | .write mutations, s => some (WriteBatch.toBatch ⟨s.nextSequence, mutations⟩)
  | .applyCommitted index _ _ mutation, _ => some ⟨index, [mutation.stored index]⟩
  | .applyCommittedMVCCBatch index _ timestamp _ mutations, _
  | .applyPreparedMVCCBatch index _ timestamp _ mutations, _
  | .resolveCommittedMVCCBatch index _ timestamp _ mutations, _ =>
    some ⟨index, mutations.map (·.stored timestamp)⟩
  | _, _ => none

end Op

/-- What of a log is still there after the engine was opened again. -/
def survivors (s : Lsm) (log : List Batch) : List Batch :=
  if s.mode = .standalone then s.wal.map WriteBatch.toBatch
  else log.filter fun b => s.manifest.replicatedApplied.any (b.index ≤ ·)

/-- The log after a successful operation. -/
def Op.record (op : Op) (s : Lsm) (log : List Batch) : List Batch :=
  match op with
  | .reopen => s.survivors log
  | op => log ++ (op.batch s).toList

/-- One operation; one that fails changes nothing. -/
def next (state : Lsm × List Batch) (op : Op) : Lsm × List Batch :=
  match op.run state.1 with
  | .error _ => state
  | .ok s => (s, op.record state.1 state.2)

/-- A run. -/
def runFrom (state : Lsm × List Batch) (ops : List Op) : Lsm × List Batch := ops.foldl next state

/-- Entries outside the active table. -/
def older (s : Lsm) : List Version :=
  (s.immutables.flatMap fun g => g.table.entries) ++
    s.manifest.tables.flatMap fun t => t.run.entries

/-- What keeps internal keys in one file each: a prepare or a resolution stores no internal
key that a frozen table or a file holds, and a compaction leaves alone the file of a table
that is still queued. -/
def Clean (s : Lsm) : Op → Prop
  | .applyPreparedMVCCBatch _ _ timestamp _ mutations
  | .resolveCommittedMVCCBatch _ _ timestamp _ mutations =>
    ∀ m ∈ mutations, ∀ v ∈ s.older, v.internal ≠ (m.stored timestamp).internal
  | .compact _ inputs =>
    s.installing = true → ∀ g ∈ s.immutables.head?, ∀ input ∈ inputs, input.2 ≠ g.fileNumber
  | _ => True

instance (s : Lsm) : DecidablePred (Clean s)
  | .applyPreparedMVCCBatch _ _ _ _ mutations
  | .resolveCommittedMVCCBatch _ _ _ _ mutations =>
    inferInstanceAs (Decidable (∀ m ∈ mutations, ∀ v ∈ s.older, _ ≠ _))
  | .compact _ inputs =>
    inferInstanceAs (Decidable
      (_ → ∀ g ∈ s.immutables.head?, ∀ input ∈ inputs, _ ≠ _))
  | .write _ | .writeFailing _ _ | .applyCommitted _ _ _ _ | .applyCommittedMVCCBatch _ _ _ _ _
  | .advanceApplied _ | .ensureActiveFile | .reserve | .rotate | .installTable
  | .finishInstallation | .reopen => isTrue trivial

/-- Every operation of a run that the engine accepts is clean where it happens. -/
def CleanRun (state : Lsm × List Batch) : List Op → Prop
  | [] => True
  | op :: ops =>
    ((op.run state.1).isOk = true → Clean state.1 op) ∧ CleanRun (next state op) ops

instance decidableCleanRun : (state : Lsm × List Batch) → DecidablePred (CleanRun state)
  | _, [] => isTrue trivial
  | state, op :: ops =>
    haveI := decidableCleanRun (next state op) ops
    inferInstanceAs (Decidable ((_ → _) ∧ _))

/-! ### The layout of a log -/

/-- The parts of a log: in files, in frozen tables, in the active table. -/
structure Layout where
  installed : List Batch := []
  segments : List (List Batch) := []
  current : List Batch := []

namespace Layout

def parts (ℓ : Layout) : List (List Batch) := ℓ.installed :: (ℓ.segments ++ [ℓ.current])

def log (ℓ : Layout) : List Batch := ℓ.installed ++ (ℓ.segments.flatten ++ ℓ.current)

theorem flatten_parts (ℓ : Layout) : ℓ.parts.flatten = ℓ.log := by
  simp [parts, log]

end Layout

/-- The frozen tables that are not yet in the manifest. -/
def pending (s : Lsm) : List Generation :=
  if s.installing then s.immutables.tail else s.immutables

/-- How far a table reaches: its last Raft index, or its last sequence. -/
def mark (mode : Mode) (g : Generation) : ℕ :=
  if mode = .standalone then (g.span.getD (0, 0)).2 else (g.applied.getD (0, 0)).2

/-- A table holds exactly the batches of a part. -/
structure Holds (mode : Mode) (g : Generation) (part : List Batch) : Prop where
  table : g.table = history part
  span : g.span = recoveredSpan (logged part)
  reach : ∀ b ∈ part, b.index ≤ mark mode g

/-- The queue of frozen tables holds the segments, in order. -/
inductive Queued (mode : Mode) (current : List Batch) : List Generation → List (List Batch) → Prop
  | nil : Queued mode current [] []
  | cons {g : Generation} {part : List Batch} {gs : List Generation} {parts : List (List Batch)}
      (holds : Holds mode g part) (nonempty : part ≠ [])
      (below : ∀ b ∈ parts.flatten ++ current, mark mode g < b.index)
      (rest : Queued mode current gs parts) : Queued mode current (g :: gs) (part :: parts)

/-- The next index lies at or above this number. -/
def bound (s : Lsm) : ℕ :=
  if s.mode = .standalone then s.nextSequence else s.replicatedApplied + 1

/-- The marks of a replicated engine. -/
structure LaidReplicated (s : Lsm) (ℓ : Layout) (durable : ℕ) : Prop where
  frontier : s.manifest.replicatedApplied = some durable
  installed : ∀ b ∈ ℓ.installed, b.index ≤ durable
  beyond : ∀ b ∈ ℓ.segments.flatten ++ ℓ.current, durable < b.index
  applied : durable ≤ s.replicatedApplied
  positive : ∀ b ∈ ℓ.log, 0 < b.index ∧ ∀ v ∈ b.versions, 0 < v.seq
  plain : s.mode = .replicated → ∀ b ∈ ℓ.log, ∀ v ∈ b.versions, v.seq = b.index
  mvcc : ∀ v ∈ logged ℓ.installed, s.mode = .replicatedMVCC →
    ∃ n, s.manifest.maxAppliedMVCC = some n ∧ v.seq ≤ n

/-- The write-ahead log and the frontier of a standalone engine. -/
structure LaidStandalone (s : Lsm) (ℓ : Layout) (extra : List Batch) : Prop where
  wal : s.wal.map WriteBatch.toBatch = ℓ.log ++ extra
  whole : s.walFailed = false → extra = []
  contiguous : Contiguous 0 (ℓ.log ++ extra)
  next : s.walFailed = false → s.nextSequence = (logged ℓ.log).length
  room : (logged (ℓ.log ++ extra)).length ≤ s.nextSequence
  start : s.manifest.frontierStart = (logged ℓ.installed).length
  tables : ∀ t ∈ s.manifest.tables, t.largestSequence < (logged ℓ.installed).length
  last : ∀ l ∈ s.manifest.lastSequence, l < (logged (ℓ.log ++ extra)).length

/-- How the tables of an engine hold a log. -/
structure Laid (s : Lsm) (ℓ : Layout) : Prop where
  apart : ℓ.parts.Pairwise Apart
  live : (s.manifest.tables.flatMap fun t => t.run.entries).Perm (history ℓ.installed).entries
  queued : Queued s.mode ℓ.current s.pending ℓ.segments
  active : Holds s.mode s.active ℓ.current
  numbers : (s.manifest.tables.map SSTable.fileNumber).Nodup
  levels : s.LevelsOrdered
  installing : s.installing = true → ∃ g gs, s.immutables = g :: gs ∧ g.fileNumber ≠ 0 ∧
    ∃ t ∈ s.manifest.tables, t.fileNumber = g.fileNumber ∧ t.run = g.table
  below : ∀ b ∈ ℓ.log, b.index < s.bound
  marks : (∀ g ∈ s.pending, mark s.mode g < s.bound) ∧
    (ℓ.current ≠ [] → mark s.mode s.active < s.bound)
  visible : ∀ v ∈ logged ℓ.log, ∃ n, s.visible = some n ∧ v.seq ≤ n
  replicated : s.mode ≠ .standalone → ∃ durable, LaidReplicated s ℓ durable
  standalone : s.mode = .standalone → ∃ extra, LaidStandalone s ℓ extra
  mode : s.manifest.mode = s.mode

/-! ### The entries of a layout -/

variable {s s' : Lsm} {ℓ : Layout} {gs : List Generation} {parts : List (List Batch)}

theorem Queued.tables {mode : Mode} {current : List Batch} (h : Queued mode current gs parts) :
    gs.map Generation.table = parts.map history := by
  induction h with
  | nil => rfl
  | cons holds _ _ _ ih => rw [map_cons, map_cons, ih, holds.table]

/-- What is stored outside the duplicate of an installed table. -/
def settled (s : Lsm) : List Candidate :=
  tagged s.active.fileNumber s.active.table.entries ++
    ((s.pending.flatMap fun g => tagged g.fileNumber g.table.entries) ++
      s.manifest.tables.flatMap fun t => tagged t.fileNumber t.run.entries)

theorem map_entry_flatMap_tagged {β : Type*} (l : List β) (file : β → ℕ) (f : β → List Version) :
    (l.flatMap fun x => tagged (file x) (f x)).map Candidate.entry = l.flatMap f := by
  rw [map_flatMap]
  exact flatMap_congr fun x _ => map_entry_tagged _ _

/-- The settled entries are the history of the log. -/
theorem Laid.settled_perm (h : Laid s ℓ) :
    (s.settled.map Candidate.entry).Perm (history ℓ.log).entries := by
  have hpending : (s.pending.flatMap fun g => g.table.entries) =
      ℓ.segments.flatMap fun part => (history part).entries := by
    have hmapped := congrArg (List.flatMap Run.entries) h.queued.tables
    rwa [flatMap_map, flatMap_map] at hmapped
  unfold settled
  rw [map_append, map_append, map_entry_tagged,
    map_entry_flatMap_tagged s.pending Generation.fileNumber (fun g => g.table.entries),
    map_entry_flatMap_tagged s.manifest.tables SSTable.fileNumber (fun t => t.run.entries),
    hpending, h.active.table, ← ℓ.flatten_parts]
  refine List.Perm.trans ?_ (history_flatten_perm h.apart).symm
  unfold Layout.parts
  rw [flatMap_cons, flatMap_append, flatMap_singleton]
  refine perm_append_comm.trans ((perm_append_comm.append_right _).trans ?_)
  rw [append_assoc]
  exact h.live.append_right _

/-- Nothing is seen in two files, and so reads select from the history of the log. -/
theorem Laid.coherent (h : Laid s ℓ) : Coherent s.stored := by
  have hdistinct : Distinct (s.settled.map Candidate.entry) :=
    Distinct.perm (history ℓ.log).distinct h.settled_perm.symm
  have hpairwise : s.settled.Pairwise fun a b => a.entry.internal ≠ b.entry.internal := by
    unfold Distinct at hdistinct
    rwa [nodup_iff_pairwise_ne, pairwise_map, pairwise_map] at hdistinct
  have hsettled : Coherent s.settled := hpairwise.imp fun hne heq => absurd heq hne
  by_cases hinstalling : s.installing = true
  · obtain ⟨g, gs, hqueue, hnumber, t, ht, hfile, hrun⟩ := h.installing hinstalling
    have hperm : s.stored.Perm (tagged g.fileNumber g.table.entries ++ s.settled) := by
      unfold stored settled memtables pending
      rw [if_pos hinstalling, hqueue, tail_cons, flatMap_cons]
      have hreverse : ((g :: gs).reverse.flatMap fun g => tagged g.fileNumber g.table.entries).Perm
          (tagged g.fileNumber g.table.entries ++
            gs.flatMap fun g => tagged g.fileNumber g.table.entries) := by
        refine (Perm.flatMap_right _ (reverse_perm _)).trans ?_
        rw [flatMap_cons]
      rw [append_assoc]
      refine ((hreverse.append_right _).append_left _).trans ?_
      rw [append_assoc]
      refine perm_append_comm.trans ?_
      rw [append_assoc]
      refine Perm.append_left _ ?_
      exact perm_append_comm
    refine Coherent.perm ?_ hperm.symm
    refine pairwise_append.mpr ⟨?_, hsettled, fun a ha b hb heq => ?_⟩
    · unfold tagged
      rw [pairwise_map]
      exact g.table.sorted.imp fun hlt heq =>
        absurd heq (Version.internal_ne_of_precedes hlt)
    · -- the other place of the entry is the file itself
      obtain ⟨hentry, hafile⟩ := mem_tagged.mp ha
      have hcopy : (⟨a.entry, t.fileNumber⟩ : Candidate) ∈ s.settled := by
        refine mem_append_right _ (mem_append_right _ ?_)
        exact mem_flatMap.mpr ⟨t, ht, mem_tagged.mpr ⟨hrun ▸ hentry, rfl⟩⟩
      have hnodup : (s.settled.map fun c => c.entry.internal).Nodup := by
        unfold Distinct at hdistinct
        rwa [map_map] at hdistinct
      have hsame : b = ⟨a.entry, t.fileNumber⟩ :=
        inj_on_of_nodup_map hnodup hb hcopy heq.symm
      rw [hsame]
      exact ⟨rfl, by rw [hafile, hfile], by rw [hafile]; exact hnumber⟩
  · have hperm : s.stored.Perm s.settled := by
      unfold stored settled memtables pending
      rw [if_neg hinstalling, flatMap_cons, append_assoc]
      exact (Perm.flatMap_right _ (reverse_perm _)).append_right _ |>.append_left _
    exact Coherent.perm hsettled hperm.symm

/-- Reads of a laid out engine select from the history of its log. -/
theorem Laid.selects (h : Laid s ℓ) : s.Selects (history ℓ.log).entries := by
  have hentries : ∀ v, v ∈ s.versions ↔ v ∈ (history ℓ.log).entries := by
    intro v
    rw [← h.settled_perm.mem_iff]
    unfold versions stored settled memtables pending
    simp only [map_append, mem_append, flatMap_cons, mem_map]
    constructor
    · rintro ((⟨c, hc, rfl⟩ | ⟨c, hc, rfl⟩) | ⟨c, hc, rfl⟩)
      · exact .inl ⟨c, hc, rfl⟩
      · obtain ⟨g, hg, hcg⟩ := mem_flatMap.mp hc
        rw [mem_reverse] at hg
        by_cases hinstalling : s.installing = true
        · obtain ⟨head, gs, hqueue, -, t, ht, -, hrun⟩ := h.installing hinstalling
          rw [if_pos hinstalling, hqueue, tail_cons]
          rw [hqueue] at hg
          rcases mem_cons.mp hg with rfl | hg
          · exact .inr (.inr ⟨⟨c.entry, t.fileNumber⟩, mem_flatMap.mpr
              ⟨t, ht, mem_tagged.mpr ⟨hrun ▸ (mem_tagged.mp hcg).1, rfl⟩⟩, rfl⟩)
          · exact .inr (.inl ⟨c, mem_flatMap.mpr ⟨g, hg, hcg⟩, rfl⟩)
        · rw [if_neg hinstalling]
          exact .inr (.inl ⟨c, mem_flatMap.mpr ⟨g, hg, hcg⟩, rfl⟩)
      · exact .inr (.inr ⟨c, hc, rfl⟩)
    · rintro (⟨c, hc, rfl⟩ | ⟨c, hc, rfl⟩ | ⟨c, hc, rfl⟩)
      · exact .inl (.inl ⟨c, hc, rfl⟩)
      · obtain ⟨g, hg, hcg⟩ := mem_flatMap.mp hc
        refine .inl (.inr ⟨c, mem_flatMap.mpr ⟨g, mem_reverse.mpr ?_, hcg⟩, rfl⟩)
        split_ifs at hg
        · exact mem_of_mem_tail hg
        · exact hg
      · exact .inr ⟨c, hc, rfl⟩
  refine (selects_of_coherent h.levels h.coherent fun hnone => ?_).congr hentries
  refine eq_nil_iff_forall_not_mem.mpr fun v hv => ?_
  obtain ⟨n, hsome, -⟩ := h.visible v (mem_logged_of_mem_history ((hentries v).mp hv))
  rw [hnone] at hsome
  cases hsome

/-! ### Steps that store nothing -/

/-- Two manifests with the same marks. -/
structure SameMarks (m m' : Manifest) : Prop where
  mode : m'.mode = m.mode
  frontier : m'.frontier = m.frontier
  replicatedApplied : m'.replicatedApplied = m.replicatedApplied
  maxAppliedMVCC : m'.maxAppliedMVCC = m.maxAppliedMVCC
  lastSequence : m'.lastSequence = m.lastSequence

theorem SameMarks.trans {m m' m'' : Manifest} (h : SameMarks m m') (h' : SameMarks m' m'') :
    SameMarks m m'' :=
  ⟨h'.mode.trans h.mode, h'.frontier.trans h.frontier,
    h'.replicatedApplied.trans h.replicatedApplied, h'.maxAppliedMVCC.trans h.maxAppliedMVCC,
    h'.lastSequence.trans h.lastSequence⟩

/-- The manifest may reserve file numbers: its levels and marks stay. -/
structure Kept (m m' : Manifest) : Prop where
  files : ∀ level, (m'.levels level).Perm (m.levels level)
  leveled : (∀ level, 0 < level → level < maxLevels → Leveled (m.levels level)) →
    ∀ level, 0 < level → level < maxLevels → Leveled (m'.levels level)
  marks : SameMarks m m'

theorem Kept.refl (m : Manifest) : Kept m m :=
  ⟨fun _ => List.Perm.refl _, id, rfl, rfl, rfl, rfl, rfl⟩

theorem Kept.trans {m m' m'' : Manifest} (h : Kept m m') (h' : Kept m' m'') : Kept m m'' :=
  ⟨fun level => (h'.files level).trans (h.files level), h'.leveled ∘ h.leveled,
    h.marks.trans h'.marks⟩

variable {m m' : Manifest}

theorem Kept.tables (h : Kept m m') : m'.tables.Perm m.tables := Manifest.tables_perm h.files

theorem kept_allocate {number : ℕ} (h : m.allocateFileNumber = .ok (number, m')) : Kept m m' := by
  have happly := Manifest.allocateFileNumber_ok h
  obtain ⟨⟨kept, levels, hfiles⟩, hmode, hfrontier, hlast, happlied, hmvcc, -⟩ :=
    Manifest.apply_ok happly
  exact ⟨Manifest.apply_levels_of_no_files happly rfl rfl, fun _ => hfiles.leveled, hmode,
    hfrontier, happlied, hmvcc, hlast⟩

theorem SameMarks.frontierStart (h : SameMarks m m') : m'.frontierStart = m.frontierStart := by
  unfold Manifest.frontierStart
  rw [h.frontier]

/-- A layout depends on what the files hold, not on which files they are.  Only the file
of a table that is still queued has to stay. -/
theorem Laid.relist (h : Laid s ℓ) (hmarks : SameMarks s.manifest m)
    (hlive : (m.tables.flatMap fun t => t.run.entries).Perm
      (s.manifest.tables.flatMap fun t => t.run.entries))
    (hnumbers : (m.tables.map SSTable.fileNumber).Nodup)
    (hlevels : ∀ level, 0 < level → level < maxLevels → Leveled (m.levels level))
    (hqueue : s.installing = true → ∀ g ∈ s.immutables.head?, ∀ t ∈ s.manifest.tables,
      t.fileNumber = g.fileNumber → t ∈ m.tables)
    (hsequences : s.mode = .standalone → ∀ t ∈ m.tables,
      t.largestSequence < (logged ℓ.installed).length) :
    Laid { s with manifest := m } ℓ := by
  refine ⟨h.apart, hlive.trans h.live, h.queued, h.active, hnumbers, hlevels,
    fun hinstalling => ?_, h.below, h.marks, h.visible, fun hmode => ?_, fun hmode => ?_,
    hmarks.mode.trans h.mode⟩
  · obtain ⟨g, gs, hcons, hnumber, t, ht, hfile, hrun⟩ := h.installing hinstalling
    exact ⟨g, gs, hcons, hnumber, t,
      hqueue hinstalling g (by rw [hcons]; rfl) t ht hfile, hfile, hrun⟩
  · obtain ⟨durable, hr⟩ := h.replicated hmode
    exact ⟨durable, hmarks.replicatedApplied.trans hr.frontier, hr.installed, hr.beyond, hr.applied,
      hr.positive, hr.plain, fun v hv hmvcc => by
        obtain ⟨n, hn, hle⟩ := hr.mvcc v hv hmvcc
        exact ⟨n, hmarks.maxAppliedMVCC.trans hn, hle⟩⟩
  · obtain ⟨extra, hs⟩ := h.standalone hmode
    exact ⟨extra, hs.wal, hs.whole, hs.contiguous, hs.next, hs.room,
      hmarks.frontierStart.trans hs.start, hsequences hmode,
      fun l hl => hs.last l (hmarks.lastSequence ▸ hl)⟩

theorem Laid.kept (h : Laid s ℓ) (hkept : Kept s.manifest m) : Laid { s with manifest := m } ℓ := by
  refine h.relist hkept.marks (Perm.flatMap_right _ hkept.tables)
    ((hkept.tables.map _).nodup_iff.mpr h.numbers) (hkept.leveled h.levels)
    (fun _ _ _ t ht _ => hkept.tables.symm.subset ht) fun hmode t ht => ?_
  obtain ⟨extra, hs⟩ := h.standalone hmode
  exact hs.tables t (hkept.tables.subset ht)

/-- A layout does not depend on the number and the file of the active table. -/
theorem Laid.renumber (h : Laid s ℓ) {active : Generation} (htable : active.table = s.active.table)
    (hspan : active.span = s.active.span) (happlied : active.applied = s.active.applied) :
    Laid { s with active := active } ℓ := by
  have hmark : mark s.mode active = mark s.mode s.active := by
    unfold mark
    rw [hspan, happlied]
  exact { h with
    active := ⟨htable.trans h.active.table, hspan.trans h.active.span,
      fun b hb => (h.active.reach b hb).trans hmark.ge⟩
    marks := ⟨h.marks.1, fun hne => hmark ▸ h.marks.2 hne⟩
    replicated := fun hmode => (h.replicated hmode).imp fun _ hr => { hr with }
    standalone := fun hmode => (h.standalone hmode).imp fun _ hs => { hs with } }

/-- Fields that reserving a file number for the active table leaves alone. -/
structure SameButFile (s s' : Lsm) : Prop where
  mode : s'.mode = s.mode
  table : s'.active.table = s.active.table
  nextSequence : s'.nextSequence = s.nextSequence
  visible : s'.visible = s.visible
  replicatedApplied : s'.replicatedApplied = s.replicatedApplied

/-- `ensureActiveFile` only touches file numbers. -/
theorem ensureActiveFile_ok (h : s.ensureActiveFile = .ok s') :
    SameButFile s s' ∧ ∀ ℓ, Laid s ℓ → Laid s' ℓ := by
  unfold ensureActiveFile at h
  split at h
  · cases h
  split at h
  · cases h
    exact ⟨⟨rfl, rfl, rfl, rfl, rfl⟩, fun _ hlaid => hlaid⟩
  · split at h
    · cases h
    · rename_i number manifest hallocate
      cases h
      exact ⟨⟨rfl, rfl, rfl, rfl, rfl⟩,
        fun _ hlaid => (hlaid.kept (kept_allocate hallocate)).renumber rfl rfl rfl⟩

end Lsm

end RivetDB.Storage
