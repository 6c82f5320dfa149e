import RivetDB.Multiraft.ReadBack
import Mathlib.Algebra.Order.BigOperators.Group.List

/-!
# The round trip of the metadata

`decodeMetadata` of what `encodeMetadata` wrote.  The encoder checks neither the length of a
split key or of an error text nor that a counter has not wrapped, and it stores an instant as
64 bits of nanoseconds; the decoder refuses the former and cannot restore the latter.  For a
state that the methods of `MetaRange` can produce these are the only ways in which the round
trip fails.

The tables of the state are maps: they come back sorted by their keys, so equality of two
states is up to the order of their tables.
-/

namespace RivetDB.Multiraft

open List MetadataState MetadataDecoder
open Codec (putLE getLE)
open Decoder (Reads Fails)

variable {crc32 : Bytes → ℕ} {m m' : Metadata} {bytes : Bytes}

/-! ### Writing -/

/-- The state with its tables in the order in which they are written. -/
def MetadataState.stored (s : MetadataState) : MetadataState :=
  { s with
    splits := s.splits.insertionSort fun a b => a.splitID ≤ b.splitID
    migrations := s.migrations.insertionSort fun a b => a.migrationID ≤ b.migrationID
    lineage := s.lineage.insertionSort fun a b => a.parent.rangeID ≤ b.parent.rangeID }

/-- The metadata as it comes back. -/
def Metadata.stored (m : Metadata) : Metadata where
  state := m.state.stored
  control := m.control.stored

namespace MetadataState

variable (s : MetadataState)

theorem stored_splits : s.stored.splits.Perm s.splits := perm_insertionSort _ _

theorem stored_migrations : s.stored.migrations.Perm s.migrations := perm_insertionSort _ _

theorem stored_lineage : s.stored.lineage.Perm s.lineage := perm_insertionSort _ _

/-- The bytes of the counters and the catalog. -/
def bareBytes (catalog : Bytes) : Bytes :=
  putLE 2 0 ++ (putLE 8 s.nextRangeID ++ (putLE 8 s.nextSplitID ++ (putLE 8 s.nextReplicaID ++
    (putLE 8 s.nextMigrationID ++ (putLE 4 catalog.length ++ catalog)))))

end MetadataState

/-- The bytes of a table. -/
def tableBytes {α : Type} (encode : α → Bytes) (l : List α) : Bytes :=
  putLE 4 l.length ++ l.flatMap encode

theorem MetadataState.image_eq (s : MetadataState) (catalog control : Bytes) :
    s.image catalog control = (metadataMagic ++ putLE 2 3) ++ (s.bareBytes catalog ++
      (tableBytes SplitRecord.encode s.stored.splits ++
      (tableBytes MigrationRecord.encode s.stored.migrations ++
      (tableBytes LineageRecord.encode s.stored.lineage ++ control)))) := by
  simp [image, bareBytes, tableBytes, stored]

/-- When the metadata is encoded, and as what. -/
theorem Metadata.encode_ok_iff :
    m.encode crc32 = .ok bytes ↔
      m.state.splits.length ≤ maxSplitRecords ∧ m.state.migrations.length ≤ maxMigrationRecords ∧
      m.state.lineage.length ≤ maxSplitRecords ∧
      ∃ catalog control, m.state.catalog.encode crc32 = .ok catalog ∧
        m.control.encode = .ok control ∧ bytes = m.state.image catalog control ∧
        bytes.length ≤ Raft.maxCommandBytes := by
  unfold Metadata.encode encodeMetadata
  split
  · rename_i hcounts
    simp only [reduceCtorEq, false_iff]
    rintro ⟨hsplits, hmigrations, hlineage, -⟩
    omega
  rename_i hcounts
  simp only [not_or, not_lt] at hcounts
  rcases m.state.catalog.encode crc32 with err | catalog
  · simp
  rcases m.control.encode with err | control
  · simp
  dsimp only
  split_ifs with hsize
  · simp only [false_iff]
    rintro ⟨-, -, -, catalog', control', hcatalog, hcontrol, rfl, hle⟩
    cases hcatalog
    cases hcontrol
    omega
  · simp only [Except.ok.injEq]
    constructor
    · rintro rfl
      exact ⟨hcounts.1, hcounts.2.1, hcounts.2.2, catalog, control, rfl, rfl, rfl, not_lt.mp hsize⟩
    · rintro ⟨-, -, -, catalog', control', rfl, rfl, rfl, -⟩
      rfl

/-! ### Reading -/

/-- What holds of every state but for the lengths of keys and texts and the counters that have
wrapped. -/
structure Metadata.Formed (m : Metadata) : Prop where
  catalog : m.state.catalog.Writable
  counters : ∀ n ∈ [m.state.nextRangeID, m.state.nextSplitID, m.state.nextReplicaID,
    m.state.nextMigrationID], n < 2 ^ 64
  splitIDs : (m.state.splits.map SplitRecord.splitID).Nodup
  splits : ∀ r ∈ m.state.splits, r.Formed
  migrationIDs : (m.state.migrations.map MigrationRecord.migrationID).Nodup
  migrations : ∀ r ∈ m.state.migrations, r.Formed
  parents : (m.state.lineage.map LineageRecord.parent).Nodup
  lineage : ∀ e ∈ m.state.lineage, e.Formed
  control : m.control.Formed

/-- What the decoder asks of the fields beyond that. -/
structure Metadata.Bounded (m : Metadata) : Prop where
  splits : ∀ r ∈ m.state.splits, r.Readable
  migrations : ∀ r ∈ m.state.migrations, r.lastError.length ≤ maxMetadataText
  nextActionID : m.control.nextActionID ≠ 0

/-- All that the decoder asks for. -/
structure Metadata.Legible (m : Metadata) : Prop extends m.Bounded where
  counters : ∀ n ∈ [m.state.nextRangeID, m.state.nextSplitID, m.state.nextReplicaID,
    m.state.nextMigrationID], n ≠ 0

section Table

variable {α κ : Type} [DecidableEq κ] {x : MetadataDecoder α} {limit : ℕ} {key : α → κ}
  {l : List α} {encode : α → Bytes}

theorem reads_table (hlimit : limit < 2 ^ 32) (hlength : l.length ≤ limit)
    (hkeys : (l.map key).Nodup) (h : ∀ a ∈ l, Reads x (encode a) a) :
    Reads (table limit key x) (tableBytes encode l) l :=
  (reads_uint32 (hlength.trans_lt hlimit)).bind
    (Reads.ite (not_lt.mpr hlength) (Reads.distinct h hkeys fun _ _ => not_mem_nil))

theorem fails_table (hlimit : limit < 2 ^ 32) (hlength : l.length ≤ limit)
    (h : ∀ a ∈ l, Reads x (encode a) a ∨ Fails x (encode a))
    (hbad : ∃ a ∈ l, Fails x (encode a)) :
    Fails (table limit key x) (tableBytes encode l) :=
  Fails.bind (reads_uint32 (hlength.trans_lt hlimit)) (Fails.ite fun _ => Fails.distinct h hbad [])

end Table

theorem reads_header : Reads header (metadataMagic ++ putLE 2 3) 3 := by
  have hmagic : metadataMagic.length = 4 := rfl
  have hversion : getLE (putLE 2 3) = 3 := rfl
  refine (Reads.take hmagic).bind (Reads.ite (not_not.mpr rfl)
    ((Reads.take (Codec.length_putLE 2 3)).bind_last ?_))
  rw [hversion]
  exact Reads.ite (by decide) (Reads.pure 3)

namespace Metadata

theorem Formed.reads_bare (h : m.Formed) {catalog : Bytes}
    (hcatalog : m.state.catalog.encode crc32 = .ok catalog) :
    Reads (bare crc32) (m.state.bareBytes catalog)
      { m.state with splits := [], migrations := [], lineage := [] } := by
  have hcounters := h.counters
  simp only [forall_mem_cons] at hcounters
  obtain ⟨hrange, hsplit, hreplica, hmigration, -⟩ := hcounters
  have hsize : catalog.length ≤ maxMetadataCatalogBytes := by
    unfold Catalog.encode at hcatalog
    split_ifs at hcatalog with hbody
    cases hcatalog
    have hmax : maxCatalogBytes = maxMetadataCatalogBytes := rfl
    have hfour : 4 ≤ maxCatalogBytes := by decide
    rw [length_append, Codec.length_putLE]
    omega
  have hlimit : maxMetadataCatalogBytes < 2 ^ 32 := by decide
  have hreserved : (putLE 2 0 : Bytes).length = 2 := rfl
  refine (Reads.take hreserved).bind (Reads.ite (not_not.mpr rfl) ?_)
  refine (reads_uint64 hrange).bind ((reads_uint64 hsplit).bind ((reads_uint64 hreplica).bind
    ((reads_uint64 hmigration).bind ((reads_uint32 (hsize.trans_lt hlimit)).bind
    (Reads.ite (not_lt.mpr hsize) ((Reads.take rfl).bind_last ?_))))))
  rw [h.catalog.decode_encode hcatalog]
  exact Reads.pure _

/-- The lengths of the records fit into their fields, since the whole fits into a command. -/
theorem short_of_encode {catalog control : Bytes}
    (hsize : (m.state.image catalog control).length ≤ Raft.maxCommandBytes) :
    (∀ r ∈ m.state.splits, r.Short) ∧ ∀ r ∈ m.state.migrations, r.lastError.length < 2 ^ 32 := by
  have hmax : Raft.maxCommandBytes < 2 ^ 32 := by decide
  have hsplits : (m.state.stored.splits.flatMap SplitRecord.encode).length ≤
      Raft.maxCommandBytes := by
    rw [image_eq] at hsize
    simp only [tableBytes, length_append] at hsize
    omega
  have hmigrations : (m.state.stored.migrations.flatMap MigrationRecord.encode).length ≤
      Raft.maxCommandBytes := by
    rw [image_eq] at hsize
    simp only [tableBytes, length_append] at hsize
    omega
  rw [length_flatMap] at hsplits hmigrations
  constructor
  · intro r hr
    have hmem := mem_map_of_mem (f := fun r : SplitRecord => r.encode.length)
      (m.state.stored_splits.mem_iff.mpr hr)
    have hle := (single_le_sum (fun _ _ => Nat.zero_le _) _ hmem).trans hsplits
    simp only [SplitRecord.encode, length_append] at hle
    constructor <;> omega
  · intro r hr
    have hmem := mem_map_of_mem (f := fun r : MigrationRecord => r.encode.length)
      (m.state.stored_migrations.mem_iff.mpr hr)
    have hle := (single_le_sum (fun _ _ => Nat.zero_le _) _ hmem).trans hmigrations
    simp only [MigrationRecord.encode, length_append] at hle
    omega

section Tables

variable (h : m.Formed)

include h

theorem Formed.reads_splits (hcount : m.state.splits.length ≤ maxSplitRecords)
    (hlegible : ∀ r ∈ m.state.splits, r.Readable) :
    Reads (table maxSplitRecords SplitRecord.splitID splitRecord)
      (tableBytes SplitRecord.encode m.state.stored.splits) m.state.stored.splits := by
  have hperm := m.state.stored_splits
  refine reads_table (by decide) (hperm.length_eq.trans_le hcount)
    ((hperm.map _).nodup_iff.mpr h.splitIDs) fun r hr => ?_
  have hmem := hperm.mem_iff.mp hr
  exact (h.splits r hmem).reads (hlegible r hmem)

theorem Formed.reads_migrations (hcount : m.state.migrations.length ≤ maxMigrationRecords)
    (hlegible : ∀ r ∈ m.state.migrations, r.lastError.length ≤ maxMetadataText) :
    Reads (table maxMigrationRecords MigrationRecord.migrationID migrationRecord)
      (tableBytes MigrationRecord.encode m.state.stored.migrations)
      m.state.stored.migrations := by
  have hperm := m.state.stored_migrations
  refine reads_table (by decide) (hperm.length_eq.trans_le hcount)
    ((hperm.map _).nodup_iff.mpr h.migrationIDs) fun r hr => ?_
  have hmem := hperm.mem_iff.mp hr
  exact (h.migrations r hmem).reads (hlegible r hmem)

theorem Formed.reads_lineage (hcount : m.state.lineage.length ≤ maxSplitRecords) :
    Reads (MetadataDecoder.table maxSplitRecords LineageRecord.parent MetadataDecoder.lineage)
      (tableBytes LineageRecord.encode m.state.stored.lineage) m.state.stored.lineage := by
  have hperm := m.state.stored_lineage
  refine reads_table (by decide) (hperm.length_eq.trans_le hcount)
    ((hperm.map _).nodup_iff.mpr h.parents) fun e he => ?_
  exact (h.lineage e (hperm.mem_iff.mp he)).reads

theorem Formed.fails_splits (hcount : m.state.splits.length ≤ maxSplitRecords)
    (hshort : ∀ r ∈ m.state.splits, r.Short) (hbad : ∃ r ∈ m.state.splits, ¬ r.Readable) :
    Fails (table maxSplitRecords SplitRecord.splitID splitRecord)
      (tableBytes SplitRecord.encode m.state.stored.splits) := by
  have hperm := m.state.stored_splits
  refine fails_table (by decide) (hperm.length_eq.trans_le hcount) (fun r hr => ?_) ?_
  · have hmem := hperm.mem_iff.mp hr
    by_cases hread : r.Readable
    · exact .inl ((h.splits r hmem).reads hread)
    · exact .inr ((h.splits r hmem).fails (hshort r hmem) hread)
  · obtain ⟨r, hr, hread⟩ := hbad
    exact ⟨r, hperm.mem_iff.mpr hr, (h.splits r hr).fails (hshort r hr) hread⟩

theorem Formed.fails_migrations (hcount : m.state.migrations.length ≤ maxMigrationRecords)
    (hshort : ∀ r ∈ m.state.migrations, r.lastError.length < 2 ^ 32)
    (hbad : ∃ r ∈ m.state.migrations, maxMetadataText < r.lastError.length) :
    Fails (table maxMigrationRecords MigrationRecord.migrationID migrationRecord)
      (tableBytes MigrationRecord.encode m.state.stored.migrations) := by
  have hperm := m.state.stored_migrations
  refine fails_table (by decide) (hperm.length_eq.trans_le hcount) (fun r hr => ?_) ?_
  · have hmem := hperm.mem_iff.mp hr
    rcases le_or_gt r.lastError.length maxMetadataText with hle | hlt
    · exact .inl ((h.migrations r hmem).reads hle)
    · exact .inr ((h.migrations r hmem).fails (hshort r hmem) hlt)
  · obtain ⟨r, hr, hlt⟩ := hbad
    exact ⟨r, hperm.mem_iff.mpr hr, (h.migrations r hr).fails (hshort r hr) hlt⟩

end Tables

/-- All fields of a bounded state are read back. -/
theorem Formed.reads_fields (h : m.Formed) (hbounded : m.Bounded)
    (hencode : m.encode crc32 = .ok bytes) :
    Reads (MetadataDecoder.header >>= MetadataDecoder.fields crc32) bytes m.stored := by
  obtain ⟨hsplits, hmigrations, hlineage, catalog, control, hcatalog, hcontrol, rfl, -⟩ :=
    encode_ok_iff.mp hencode
  rw [image_eq]
  refine reads_header.bind ((h.reads_bare hcatalog).bind
    ((h.reads_splits hsplits hbounded.splits).bind
    ((h.reads_migrations hmigrations hbounded.migrations).bind
    ((h.reads_lineage hlineage).bind (Reads.bind_last ?_ (Reads.pure m.stored))))))
  exact h.control.reads hcontrol hbounded.nextActionID

/-- A record beyond the limits, or a control whose counter has wrapped, is refused. -/
theorem Formed.fails_fields (h : m.Formed) (hencode : m.encode crc32 = .ok bytes)
    (hbad : ¬ m.Bounded) :
    Fails (header >>= fields crc32) bytes := by
  obtain ⟨hsplits, hmigrations, hlineage, catalog, control, hcatalog, hcontrol, rfl, hsize⟩ :=
    encode_ok_iff.mp hencode
  obtain ⟨hshortSplits, hshortMigrations⟩ := short_of_encode hsize
  rw [image_eq]
  refine Fails.bind reads_header (Fails.bind (h.reads_bare hcatalog) ?_)
  by_cases hreadSplits : ∀ r ∈ m.state.splits, r.Readable
  · refine Fails.bind (h.reads_splits hsplits hreadSplits) ?_
    by_cases hreadMigrations : ∀ r ∈ m.state.migrations, r.lastError.length ≤ maxMetadataText
    · have hnext : m.control.nextActionID = 0 := by
        by_contra hne
        exact hbad ⟨hreadSplits, hreadMigrations, hne⟩
      refine Fails.bind (h.reads_migrations hmigrations hreadMigrations)
        (Fails.bind (h.reads_lineage hlineage) ?_)
      rw [← append_nil control]
      exact Fails.first (h.control.fails hcontrol hnext)
    · push Not at hreadMigrations
      exact Fails.first (h.fails_migrations hmigrations hshortMigrations hreadMigrations)
  · push Not at hreadSplits
    exact Fails.first (h.fails_splits hsplits hshortSplits hreadSplits)

/-- **What the decoder makes of the encoding of a state.** -/
theorem Formed.decode_encode (h : m.Formed) (hencode : m.encode crc32 = .ok bytes)
    (hlineage : m.state.stored.validateLineage = .ok ()) :
    (m.Legible → decodeMetadata crc32 bytes = .ok m.stored) ∧
      (¬ m.Legible → ∃ err, decodeMetadata crc32 bytes = .error err) := by
  have hlineage' : m.stored.state.validateLineage = .ok () := hlineage
  unfold decodeMetadata
  by_cases hbounded : m.Bounded
  · have hread := h.reads_fields hbounded hencode []
    rw [append_nil] at hread
    have hcounters : m.Legible ↔ ¬ (([] : Bytes) ≠ [] ∨ m.stored.state.nextRangeID = 0 ∨
        m.stored.state.nextSplitID = 0 ∨ m.stored.state.nextReplicaID = 0 ∨
        m.stored.state.nextMigrationID = 0) := by
      have hiff : m.Legible ↔ ∀ n ∈ [m.state.nextRangeID, m.state.nextSplitID,
          m.state.nextReplicaID, m.state.nextMigrationID], n ≠ 0 :=
        ⟨fun hlegible => hlegible.counters, fun hcounters => ⟨hbounded, hcounters⟩⟩
      rw [hiff]
      simp only [forall_mem_cons, stored, stored]
      tauto
    simp only [hread]
    constructor
    · intro hlegible
      rw [if_neg (hcounters.mp hlegible), hlineage']
    · intro hbad
      rw [if_pos (not_not.mp (mt hcounters.mpr hbad))]
      exact ⟨_, rfl⟩
  · obtain ⟨err, herr⟩ := h.fails_fields hencode hbounded []
    rw [append_nil] at herr
    simp only [herr]
    exact ⟨fun hlegible => absurd hlegible.toBounded hbounded, fun _ => ⟨err, rfl⟩⟩

end Metadata

end RivetDB.Multiraft
