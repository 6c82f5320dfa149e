import RivetDB.Multiraft.MetaRange

/-!
# What the metadata decoders read and refuse

For every kind of record: its encoding is read back as it was written when the record is
within the limits of the decoder, and the two records that can exceed them, splits and
migrations, are refused when they do.  Instants are stored as 64-bit nanoseconds, so a record
of the history is read back with its instants reduced to that range.
-/

namespace RivetDB.Multiraft

open List RangeDescriptor MetadataDecoder Codec
open Codec (putLE getLE slice)
open Decoder (Reads Fails)

variable {crc32 : Bytes → ℕ}

/-! ### Numbers -/

variable {err : Error} {n : ℕ}

theorem reads_uint64 (h : n < 2 ^ 64) : Reads (Decoder.uint err 8) (putLE 8 n) n :=
  Reads.uint (show n < 256 ^ 8 from h)

theorem reads_uint32 (h : n < 2 ^ 32) : Reads (Decoder.uint err 4) (putLE 4 n) n :=
  Reads.uint (show n < 256 ^ 4 from h)

theorem reads_nodeID (id : Raft.NodeID) : Reads (Decoder.uint err 8) (putLE 8 id.toNat) id.toNat :=
  reads_uint64 id.toNat_lt

/-- A list of 64-bit numbers. -/
theorem reads_words {l : List ℕ} (hlength : l.length = n) (h : ∀ v ∈ l, v < 2 ^ 64) :
    Reads (Decoder.many (Decoder.uint err 8) n) (l.flatMap (putLE 8)) l := by
  subst hlength
  exact Reads.many fun v hv => reads_uint64 (h v hv)

theorem bits64_lt (t : ℤ) : bits64 t < 2 ^ 64 := by
  unfold bits64
  omega

/-- A signed number comes back reduced to 64 bits. -/
theorem getInt64_bits64 (t : ℤ) : getInt64 (bits64 t) = t.bmod (2 ^ 64) := by
  have hnonneg : 0 ≤ t % 2 ^ 64 := Int.emod_nonneg _ (by norm_num)
  unfold getInt64 bits64
  rw [Int.toNat_of_nonneg hnonneg]
  exact Int.emod_bmod t (2 ^ 64)

/-- The instants that are stored without loss. -/
def Storable (t : ℤ) : Prop := -2 ^ 63 ≤ t ∧ t < 2 ^ 63

theorem bmod_eq_iff (t : ℤ) : t.bmod (2 ^ 64) = t ↔ Storable t := by
  have hbelow := @Int.bmod_lt t (2 ^ 64) (by norm_num)
  have habove := @Int.le_bmod t (2 ^ 64) (by norm_num)
  unfold Storable
  constructor
  · intro heq
    rw [heq] at hbelow habove
    norm_num at hbelow habove
    omega
  · rintro ⟨hlow, hhigh⟩
    exact Int.bmod_eq_of_le (by norm_num at hlow ⊢; omega) (by norm_num at hhigh ⊢; omega)

theorem bits64_bmod (t : ℤ) : bits64 (t.bmod (2 ^ 64)) = bits64 t := by
  unfold bits64
  rw [show (2 : ℤ) ^ 64 = ((2 ^ 64 : ℕ) : ℤ) by norm_num, Int.bmod_emod]

/-! ### States -/

theorem reads_byte (h : n < 256) : Reads u8 (putLE 1 n) n := Reads.uint (show n < 256 ^ 1 by omega)

theorem SplitState.ofRank_rank (s : SplitState) : ofRank s.rank = some s := by
  cases s <;> rfl

theorem SplitState.rank_lt (s : SplitState) : s.rank < 256 := by
  cases s <;> decide

theorem MigrationState.ofRank_rank (s : MigrationState) : ofRank s.rank = some s := by
  cases s <;> rfl

theorem MigrationState.rank_lt (s : MigrationState) : s.rank < 256 := by
  cases s <;> decide

theorem RebalanceActionState.ofRank_rank (s : RebalanceActionState) : ofRank s.rank = some s := by
  cases s <;> rfl

theorem RebalanceActionType.ofRank_rank {t : RebalanceActionType} (h : t ≠ .noop) :
    ofRank t.rank = some t := by
  cases t <;> first | rfl | exact absurd rfl h

/-! ### Descriptors and the catalog -/

/-- The numbers of a descriptor are machine numbers. -/
structure RangeDescriptor.Fits (d : RangeDescriptor) : Prop where
  rangeID : d.rangeID < 2 ^ 64
  generation : d.generation < 2 ^ 64
  replicas : ∀ r ∈ d.replicas, r.replicaID < 2 ^ 64

theorem reads_replica {r : ReplicaDescriptor} (h : r.replicaID < 2 ^ 64) :
    Reads (decodeReplica err) r.encode r := by
  refine (reads_uint64 h).bind ((reads_nodeID r.nodeID).bind_last ?_)
  have hnode : UInt64.ofNat r.nodeID.toNat = r.nodeID := UInt64.ofNat_toNat
  rw [hnode]
  exact Reads.pure r

theorem KeyBound.flag_toNat (start finish : KeyBound) :
    (start.flag finish).toNat ≤ 3 ∧ decide ((start.flag finish).toNat % 2 = 1) = start.unbounded ∧
      decide ((start.flag finish).toNat / 2 % 2 = 1) = finish.unbounded := by
  unfold KeyBound.flag
  cases start.unbounded <;> cases finish.unbounded <;> decide

theorem flaggedDescriptor_eq (d : RangeDescriptor) :
    flaggedDescriptor d.rangeID d.generation (d.startKey.flag d.endKey).toNat d.startKey.key
      d.endKey.key d.replicas = d := by
  obtain ⟨-, hstart, hfinish⟩ := d.startKey.flag_toNat d.endKey
  simp only [flaggedDescriptor, hstart, hfinish]

section Descriptor

variable {d : RangeDescriptor} (hfits : d.Fits) (hvalid : d.Valid)
  (hcount : d.replicas.length ≤ maxRangeReplicas)

include hfits hvalid hcount

omit hfits in
/-- The lengths that a descriptor is written with. -/
theorem descriptor_lengths : (d.startKey.key.length ≤ maxMetadataKey ∧
    d.endKey.key.length ≤ maxMetadataKey ∧ d.replicas.length ≤ maxRangeReplicas) ∧
    maxMetadataKey < 2 ^ 32 ∧ maxRangeReplicas < 2 ^ 32 :=
  ⟨⟨hvalid.startSize, hvalid.endSize, hcount⟩, by decide, by decide⟩

theorem reads_descriptor : Reads descriptor d.encode d := by
  have hlengths := descriptor_lengths hvalid hcount
  have hreserved : ([0, 0, 0] : Bytes).length = 3 := rfl
  obtain ⟨hflag, -⟩ := d.startKey.flag_toNat d.endKey
  refine (reads_uint64 hfits.rangeID).bind ((reads_uint64 hfits.generation).bind
    ((Reads.byte _).bind ((Reads.take hreserved).bind (Reads.ite (by simp; omega) ?_))))
  refine (reads_uint32 (by omega)).bind ((reads_uint32 (by omega)).bind
    ((reads_uint32 (by omega)).bind (Reads.ite (by omega) ?_)))
  refine (Reads.take rfl).bind ((Reads.take rfl).bind
    ((Reads.many fun r hr => reads_replica (hfits.replicas r hr)).bind_last ?_))
  rw [flaggedDescriptor_eq]
  dsimp only
  rw [validate_ok_iff.mpr hvalid]
  exact Reads.pure d

theorem reads_catalogDescriptor : Reads Catalog.decodeDescriptor d.encode d := by
  have hlengths := descriptor_lengths hvalid hcount
  have hreserved : ([0, 0, 0] : Bytes).length = 3 := rfl
  obtain ⟨hflag, -⟩ := d.startKey.flag_toNat d.endKey
  refine (reads_uint64 hfits.rangeID).bind ((reads_uint64 hfits.generation).bind
    ((Reads.byte _).bind ((Reads.take hreserved).bind ((reads_uint32 (by omega)).bind
    ((reads_uint32 (by omega)).bind ((reads_uint32 (by omega)).bind
    (Reads.ite (by simp; omega) ?_)))))))
  refine (Reads.take rfl).bind ((Reads.take rfl).bind
    ((Reads.many fun r hr => reads_replica (hfits.replicas r hr)).bind_last ?_))
  rw [flaggedDescriptor_eq]
  exact Reads.pure d

end Descriptor

/-- What a catalog consists of once it is accepted and its numbers are machine numbers. -/
structure Catalog.Writable (c : Catalog) : Prop where
  accepted : newCatalog c.snapshot = .ok c
  generation : c.generation < 2 ^ 64
  ranges : ∀ d ∈ c.ranges, d.Fits

namespace Catalog

variable {c : Catalog} (h : c.Writable)

include h

theorem Writable.reads_fields : Reads (decodeFields c.allowPartial) c.fieldBytes c.snapshot := by
  obtain ⟨harrange, haccept⟩ := newCatalog_ok_iff.mp h.accepted
  have hfactor : c.replicationFactor ≤ maxRangeReplicas := haccept.factor.2
  have hnodes : c.nodes.length ≤ maxCatalogNodes := haccept.nodes.2
  have hranges : c.ranges.length ≤ maxCatalogRanges := haccept.count.2
  have hlimits : maxRangeReplicas < 2 ^ 32 ∧ maxCatalogNodes < 2 ^ 32 ∧
      maxCatalogRanges < 2 ^ 32 := by decide
  refine (reads_uint64 h.generation).bind ((reads_uint32 (by omega)).bind
    (Reads.ite (by omega) ((reads_uint32 (by omega)).bind (Reads.ite (by omega)
    ((reads_uint32 (by omega)).bind (Reads.ite (by omega) ?_))))))
  refine (Reads.many_map fun id _ => reads_nodeID id).bind
    ((Reads.many fun d hd => ?_).bind_last ?_)
  · have hd' := haccept.valid d hd
    exact reads_catalogDescriptor (h.ranges d hd) hd'.1 (hd'.2.1.trans_le hfactor)
  · have hids : (c.nodes.map UInt64.toNat).map UInt64.ofNat = c.nodes := by
      rw [map_map]
      exact (map_congr_left fun id _ => UInt64.ofNat_toNat).trans (map_id _)
    rw [hids]
    exact Reads.pure c.snapshot

/-- A catalog is read back. -/
theorem Writable.decode_encode {encoded : Bytes} (hencode : c.encode crc32 = .ok encoded) :
    decode crc32 encoded = .ok c := by
  unfold encode at hencode
  split_ifs at hencode with hsize
  cases hencode
  have hheader : c.headerBytes.length = 8 := by simp [headerBytes, magic]
  have hfields : 20 ≤ c.fieldBytes.length := by
    simp only [fieldBytes, length_append, length_putLE]
    omega
  have hmax : 4 ≤ maxCatalogBytes := by decide
  have hbody : c.body.length = 8 + c.fieldBytes.length := by
    rw [body, length_append, hheader]
  set encoded := c.body ++ putLE 4 (crc32 c.body) with hencoded
  have hlength : encoded.length = c.body.length + 4 := by
    rw [hencoded, length_append, length_putLE]
  have hfront : encoded.length - 4 = c.body.length := by omega
  have hcrc : encoded.take c.body.length = c.body := by rw [hencoded, take_left]
  have hsum : encoded.drop c.body.length = putLE 4 (crc32 c.body) := by
    rw [hencoded, drop_left]
  have hslice : slice encoded 8 c.body.length = c.fieldBytes := by
    rw [hencoded, slice_append_within (le_refl _), body, slice_append_behind (by omega), hheader]
    exact slice_all (by rw [length_append, hheader]; omega)
  have hflags : getLE (slice encoded 6 8) = if c.allowPartial then 1 else 0 := by
    rw [hencoded, body]
    unfold headerBytes
    cases c.allowPartial <;> rfl
  have hversion : getLE (slice encoded 4 6) = 1 := by
    rw [hencoded, body]
    unfold headerBytes
    cases c.allowPartial <;> rfl
  have hmagic : encoded.take 4 = magic := by
    rw [hencoded, body]
    rfl
  have hflag : decide ((if c.allowPartial = true then 1 else 0) = 1) = c.allowPartial := by
    cases c.allowPartial <;> rfl
  have hread := h.reads_fields []
  rw [append_nil] at hread
  unfold decode
  rw [if_neg (by rw [hmagic]; simp; omega), if_neg (by simp [hversion]),
    if_neg (by rw [hflags]; split <;> omega), hfront, hcrc, hsum,
    if_neg (by rw [getLE_putLE]; simp), hflags, hslice]
  simp only [hflag, hread]
  rw [if_neg (by simp)]
  unfold revalidate
  simp only [h.accepted, encode, if_neg hsize]
  rw [if_neg (by simp [hencoded])]

end Catalog

/-! ### Splits -/

/-- What holds of every split record but for the lengths of its key and its error text. -/
structure SplitRecord.Formed (r : SplitRecord) : Prop where
  splitID : r.splitID ≠ 0 ∧ r.splitID < 2 ^ 64
  parent : r.parent.rangeID < 2 ^ 64 ∧ r.parent.generation < 2 ^ 64
  epoch : r.epoch ≠ 0 ∧ r.epoch < 2 ^ 64
  bootstrapIndex : r.bootstrapIndex < 2 ^ 64
  fenceIndex : r.fenceIndex < 2 ^ 64
  leftReplayThrough : r.leftReplayThrough < 2 ^ 64
  rightReplayThrough : r.rightReplayThrough < 2 ^ 64
  cutover : r.cutoverCatalogGeneration < 2 ^ 64
  children : ∀ id ∈ [r.left.rangeID, r.right.rangeID], id ≠ 0 ∧ id < 2 ^ 64
  divides : ∃ d : RangeDescriptor, d.Valid ∧ d.Fits ∧ d.replicas.length ≤ maxRangeReplicas ∧
    r.Divides d

namespace SplitRecord

variable {r : SplitRecord}

/-- The header of a split record. -/
def header (r : SplitRecord) : SplitHeader where
  id := r.splitID
  parent := r.parent
  epoch := r.epoch
  stateByte := r.state.rank
  keyN := r.splitKey.length
  bootstrap := r.bootstrapIndex
  fence := r.fenceIndex
  leftReplay := r.leftReplayThrough
  rightReplay := r.rightReplayThrough
  cutover := r.cutoverCatalogGeneration
  digest := r.imageDigest
  errN := r.lastError.length

/-- The lengths of a record fit into their fields. -/
def Short (r : SplitRecord) : Prop := r.splitKey.length < 2 ^ 32 ∧ r.lastError.length < 2 ^ 32

/-- The lengths of a record are within the limits of the decoder. -/
def Readable (r : SplitRecord) : Prop :=
  r.splitKey.length ≤ maxMetadataKey ∧ r.lastError.length ≤ maxMetadataText

theorem Readable.short (h : r.Readable) : r.Short := by
  have hlimits : maxMetadataKey < 2 ^ 32 ∧ maxMetadataText < 2 ^ 32 := by decide
  exact ⟨h.1.trans_lt hlimits.1, h.2.trans_lt hlimits.2⟩

theorem Formed.reads_header (h : r.Formed) (hshort : r.Short) :
    Reads splitHeader r.headerBytes r.header := by
  have hreserved : ([0, 0, 0] : Bytes).length = 3 := rfl
  refine (reads_uint64 h.splitID.2).bind ((reads_uint64 h.parent.1).bind
    ((reads_uint64 h.parent.2).bind ((reads_uint64 h.epoch.2).bind
    ((reads_byte r.state.rank_lt).bind ((Reads.take hreserved).bind
    (Reads.ite (not_not.mpr rfl) ?_))))))
  refine (reads_uint32 hshort.1).bind ((reads_uint64 h.bootstrapIndex).bind
    ((reads_uint64 h.fenceIndex).bind ((reads_uint64 h.leftReplayThrough).bind
    ((reads_uint64 h.rightReplayThrough).bind ((reads_uint64 h.cutover).bind
    ((Reads.take r.imageDigest.size).bind ((reads_uint32 hshort.2).bind_last ?_)))))))
  rw [Digest.copy_bytes]
  exact Reads.pure r.header

/-- The children of a split with a key of the right size are valid. -/
theorem Formed.children_valid (h : r.Formed) (hkey : r.splitKey.length ≤ maxMetadataKey) :
    (r.left.Fits ∧ r.left.Valid ∧ r.left.replicas.length ≤ maxRangeReplicas) ∧
      r.right.Fits ∧ r.right.Valid ∧ r.right.replicas.length ≤ maxRangeReplicas := by
  obtain ⟨d, hvalid, hfits, hcount, hdiv⟩ := h.divides
  have hleft := h.children r.left.rangeID (by simp)
  have hright := h.children r.right.rangeID (by simp)
  have hleftReplicas : r.left.replicas = d.replicas := by rw [hdiv.left]
  have hrightReplicas : r.right.replicas = d.replicas := by rw [hdiv.right]
  have hone : (1 : ℕ) < 2 ^ 64 := by norm_num
  refine ⟨⟨⟨hleft.2, ?_, ?_⟩, hdiv.valid_left hvalid hleft.1 hkey, ?_⟩,
    ⟨hright.2, ?_, ?_⟩, hdiv.valid_right hvalid hright.1 hkey, ?_⟩
  · rw [hdiv.left]
    exact hone
  · rw [hleftReplicas]
    exact hfits.replicas
  · rw [hleftReplicas]
    exact hcount
  · rw [hdiv.right]
    exact hone
  · rw [hrightReplicas]
    exact hfits.replicas
  · rw [hrightReplicas]
    exact hcount

theorem Formed.wellShaped (h : r.Formed) : wellShaped r = true := by
  obtain ⟨d, hvalid, -, -, hdiv⟩ := h.divides
  have hparent : r.parent.rangeID ≠ 0 ∧ r.parent.generation ≠ 0 := by
    rw [hdiv.parent]
    exact ⟨hvalid.rangeID, hvalid.generation⟩
  have hinterior := hdiv.interior
  have hleft : r.left.startKey = d.startKey ∧ r.left.endKey = { key := r.splitKey } ∧
      r.left.replicas = d.replicas := by
    rw [hdiv.left]
    exact ⟨rfl, rfl, rfl⟩
  have hright : r.right.endKey = d.endKey ∧ r.right.startKey = { key := r.splitKey } ∧
      r.right.replicas = d.replicas := by
    rw [hdiv.right]
    exact ⟨rfl, rfl, rfl⟩
  simp [MetadataDecoder.wellShaped, h.splitID.1, hparent.1, hparent.2, h.epoch.1, hleft.1,
    hright.1, hinterior, hleft.2.1, hright.2.1, hleft.2.2, hright.2.2]

theorem Formed.reads (h : r.Formed) (hread : r.Readable) :
    Reads splitRecord r.encode r := by
  obtain ⟨⟨hleftFits, hleft, hleftCount⟩, hrightFits, hright, hrightCount⟩ :=
    h.children_valid hread.1
  unfold encode
  refine (h.reads_header hread.short).bind (Reads.ite ?_ ?_)
  · exact not_or.mpr ⟨not_lt.mpr hread.1, not_lt.mpr hread.2⟩
  refine (Reads.take rfl).bind ((Reads.take rfl).bind
    ((reads_descriptor hleftFits hleft hleftCount).bind
    ((reads_descriptor hrightFits hright hrightCount).bind_last ?_)))
  have hstate : SplitState.ofRank r.header.stateByte = some r.state := r.state.ofRank_rank
  rw [hstate]
  exact Reads.ite (by simp [h.wellShaped, header]) (Reads.pure r)

/-- A split record beyond the limits is refused. -/
theorem Formed.fails (h : r.Formed) (hshort : r.Short) (hbad : ¬ r.Readable) :
    Fails splitRecord r.encode := by
  unfold encode
  refine Fails.bind (h.reads_header hshort) (Fails.ite fun hgood => absurd ?_ hbad)
  simp only [header, not_or, not_lt] at hgood
  exact hgood

end SplitRecord

/-! ### Migrations and the lineage -/

/-- What holds of every migration record but for the length of its error text. -/
structure MigrationRecord.Formed (m : MigrationRecord) : Prop where
  identities : ∀ v ∈ [m.migrationID, m.rangeID, m.rangeGeneration, m.sourceReplicaID,
    m.sourceNodeID.toNat, m.targetReplicaID, m.targetNodeID.toNat, m.epoch], v ≠ 0 ∧ v < 2 ^ 64
  evidence : ∀ v ∈ [m.bootstrapIndex, m.catchUpIndex, m.promotionBarrier, m.configVersion,
    m.catalogGeneration], v < 2 ^ 64

namespace MigrationRecord

variable {m : MigrationRecord}

theorem Formed.words_lt (h : m.Formed) : ∀ v ∈ m.words, v < 2 ^ 64 := by
  intro v hv
  have hsplit : m.words = [m.migrationID, m.rangeID, m.rangeGeneration, m.sourceReplicaID,
      m.sourceNodeID.toNat, m.targetReplicaID, m.targetNodeID.toNat, m.epoch] ++
      [m.bootstrapIndex, m.catchUpIndex, m.promotionBarrier, m.configVersion,
        m.catalogGeneration] := rfl
  rw [hsplit] at hv
  rcases mem_append.mp hv with hv | hv
  · exact (h.identities v hv).2
  · exact h.evidence v hv

theorem Formed.reads (h : m.Formed) (hread : m.lastError.length ≤ maxMetadataText) :
    Reads migrationRecord m.encode m := by
  have hreserved : ([0, 0, 0] : Bytes).length = 3 := rfl
  have hlimit : maxMetadataText < 2 ^ 32 := by decide
  unfold encode
  refine (reads_words rfl h.words_lt).bind ((reads_byte m.state.rank_lt).bind
    ((Reads.take hreserved).bind (Reads.ite (not_not.mpr rfl)
    ((Reads.take m.stateDigest.size).bind ((reads_uint32 (by omega)).bind
    (Reads.ite (by omega) ((Reads.take rfl).bind_last ?_)))))))
  rw [m.state.ofRank_rank]
  refine Reads.ite ?_ ?_
  · simp only [any_eq_true, decide_eq_true_eq, not_exists, not_and]
    exact fun v hv => (h.identities v hv).1
  · have hsource : UInt64.ofNat m.sourceNodeID.toNat = m.sourceNodeID := UInt64.ofNat_toNat
    have htarget : UInt64.ofNat m.targetNodeID.toNat = m.targetNodeID := UInt64.ofNat_toNat
    simp only [words, getD_cons_zero, getD_cons_succ, hsource, htarget, Digest.copy_bytes]
    exact Reads.pure m

/-- A migration record with a text beyond the limit is refused. -/
theorem Formed.fails (h : m.Formed) (hshort : m.lastError.length < 2 ^ 32)
    (hbad : maxMetadataText < m.lastError.length) :
    Fails migrationRecord m.encode := by
  have hreserved : ([0, 0, 0] : Bytes).length = 3 := rfl
  unfold encode
  exact Fails.bind (reads_words rfl h.words_lt) (Fails.bind (reads_byte m.state.rank_lt)
    (Fails.bind (Reads.take hreserved) (Fails.ite fun _ =>
    Fails.bind (Reads.take m.stateDigest.size) (Fails.bind (reads_uint32 hshort)
    (Fails.ite fun hgood => absurd hbad hgood)))))

end MigrationRecord

/-- What holds of every edge of the lineage. -/
structure LineageRecord.Formed (e : LineageRecord) : Prop where
  identities : ∀ v ∈ [e.splitID, e.parent.rangeID, e.leftChild.rangeID, e.rightChild.rangeID],
    v ≠ 0 ∧ v < 2 ^ 64
  generations : ∀ v ∈ [e.parent.generation, e.leftChild.generation, e.rightChild.generation,
    e.cutoverCatalogGeneration], v < 2 ^ 64
  splitKey : e.splitKey.length ≤ maxMetadataKey

theorem LineageRecord.Formed.reads {e : LineageRecord} (h : e.Formed) :
    Reads lineage e.encode e := by
  have hlimit : maxMetadataKey < 2 ^ 32 := by decide
  have hkey := h.splitKey
  have hids := h.identities
  have hgenerations := h.generations
  simp only [forall_mem_cons] at hids hgenerations
  have hwords : ∀ v ∈ [e.splitID, e.parent.rangeID, e.parent.generation, e.leftChild.rangeID,
      e.leftChild.generation, e.rightChild.rangeID, e.rightChild.generation,
      e.cutoverCatalogGeneration], v < 2 ^ 64 := by
    simp only [forall_mem_cons]
    tauto
  refine (reads_words rfl hwords).bind ((reads_uint32 (hkey.trans_lt hlimit)).bind
    (Reads.ite (not_lt.mpr hkey) ((Reads.take rfl).bind_last ?_)))
  simp only [getD_cons_zero, getD_cons_succ]
  refine Reads.ite ?_ (Reads.pure e)
  tauto

/-! ### The rebalance control -/

namespace RebalancePolicy

/-- The numbers of a policy are machine numbers of their types. -/
structure Fits (p : RebalancePolicy) : Prop where
  words : ∀ v ∈ p.words, v < 2 ^ 64
  short : ∀ v ∈ [p.minSamples, p.maxActionsPerCycle, p.maxConcurrentMigrationsCluster,
    p.maxConcurrentSplitsCluster, p.maxOutgoingMigrationsPerNode,
    p.maxIncomingMigrationsPerNode, p.maxSplitsPerNode, p.historyLimit], v < 2 ^ 32
  durations : ∀ d ∈ [p.sampleInterval, p.cooldown, p.splitCooldown, p.failureCooldown], Storable d

theorem flags_spec (p : RebalancePolicy) :
    p.flags ≤ 31 ∧ decide (p.flags % 2 = 1) = p.enabled ∧
      decide (p.flags / 2 % 2 = 1) = p.moves ∧ decide (p.flags / 4 % 2 = 1) = p.splits ∧
      decide (p.flags / 8 % 2 = 1) = p.leaders ∧
      decide (p.flags / 16 % 2 = 1) = p.emergencyCapacityOverridesCooldown := by
  unfold flags
  cases p.enabled <;> cases p.moves <;> cases p.splits <;> cases p.leaders <;>
    cases p.emergencyCapacityOverridesCooldown <;> decide

variable {p : RebalancePolicy}

/-- The values of a policy determine it. -/
theorem policyOf_words (h : p.Fits) : policyOf p.flags p.words = p := by
  obtain ⟨-, henabled, hmoves, hsplits, hleaders, hemergency⟩ := p.flags_spec
  have hdurations : ∀ d ∈ [p.sampleInterval, p.cooldown, p.splitCooldown, p.failureCooldown],
      d.bmod (2 ^ 64) = d := fun d hd => (bmod_eq_iff d).mpr (h.durations d hd)
  simp only [forall_mem_cons] at hdurations
  obtain ⟨hinterval, hcooldown, hsplitCooldown, hfailure, -⟩ := hdurations
  simp only [policyOf, words, getD_cons_zero, getD_cons_succ,
    getInt64_bits64, henabled, hmoves, hsplits, hleaders, hemergency, hinterval, hcooldown,
    hsplitCooldown, hfailure]

/-- A policy of machine numbers that is valid, or was never set, is read back. -/
theorem Fits.reads (h : p.Fits) (hvalid : p.version ≠ 0 → p.validate = .ok ()) :
    Reads policy p.encode p := by
  have hreserved : (List.replicate 7 0 : Bytes).length = 7 := length_replicate
  have hflags := p.flags_spec.1
  unfold encode
  refine (reads_byte (by omega)).bind ((Reads.take hreserved).bind
    (Reads.ite (by simp; omega) ((reads_words rfl h.words).bind_last (Reads.ite ?_ ?_))))
  · have hshort := h.short
    simp only [forall_mem_cons] at hshort
    simp only [any_cons, any_nil, ge_iff_le, Bool.or_false, Bool.or_eq_true, decide_eq_true_eq,
      not_or, not_le]
    tauto
  · rw [policyOf_words h]
    dsimp only
    rcases hresult : p.validate with err | ⟨⟩
    · have hversion : p.version = 0 := by
        by_contra hne
        rw [hvalid hne] at hresult
        cases hresult
      exact Reads.ite (not_not.mpr hversion) (Reads.pure p)
    · exact Reads.pure p

end RebalancePolicy

/-- What holds of every record of the history. -/
structure RebalanceActionRecord.Formed (r : RebalanceActionRecord) : Prop where
  identities : ∀ v ∈ [r.action.actionID, r.action.rangeID], v ≠ 0 ∧ v < 2 ^ 64
  type : r.action.type ≠ .noop
  numbers : ∀ v ∈ [r.action.rangeGeneration, r.action.catalogGeneration,
    r.action.sourceReplicaID, r.action.sourceScore, r.action.targetScore,
    r.action.estimatedCost, r.action.expectedImprovement, r.controllerEpoch, r.policyVersion,
    r.migrationID, r.splitID], v < 2 ^ 64

namespace RebalanceActionRecord

variable {r : RebalanceActionRecord}

/-- The record as it comes back: the instants are those of 64 bits. -/
def stored (r : RebalanceActionRecord) : RebalanceActionRecord :=
  { r with
    plannedAt := r.plannedAt.bmod (2 ^ 64)
    updatedAt := r.updatedAt.bmod (2 ^ 64) }

theorem encode_stored (r : RebalanceActionRecord) : r.stored.encode = r.encode := by
  have hplanned : bits64 r.stored.plannedAt = bits64 r.plannedAt := bits64_bmod _
  have hupdated : bits64 r.stored.updatedAt = bits64 r.updatedAt := bits64_bmod _
  have hwords : r.stored.words = r.words := by
    unfold words
    rw [hplanned, hupdated]
    rfl
  unfold encode
  rw [hwords]
  rfl

theorem Formed.words_lt (h : r.Formed) : ∀ v ∈ r.words, v < 2 ^ 64 := by
  have hids := h.identities
  have hnumbers := h.numbers
  have htype : r.action.type.rank < 2 ^ 64 := by cases r.action.type <;> decide
  have hstate : r.state.rank < 2 ^ 64 := by cases r.state <;> decide
  have hflag : (if r.action.emergency then 1 else 0) < 2 ^ 64 := by split <;> norm_num
  have hsource := r.action.sourceNodeID.toNat_lt
  have htarget := r.action.targetNodeID.toNat_lt
  have hplanned := bits64_lt r.plannedAt
  have hupdated := bits64_lt r.updatedAt
  simp only [forall_mem_cons] at hids hnumbers
  simp only [words, forall_mem_cons]
  tauto

theorem reads_constraint {c : Bytes} (h : c.length ≤ maxMetadataText) :
    Reads constraint (putLE 4 c.length ++ c) c := by
  have hlimit : maxMetadataText < 2 ^ 32 := by decide
  exact (reads_uint32 (h.trans_lt hlimit)).bind (Reads.ite (not_lt.mpr h) (Reads.take rfl))

/-- A record of the history within the bounds of the encoder is read back. -/
theorem Formed.reads (h : r.Formed) (hbounded : r.bounded = true) :
    Reads actionRecord r.encode r.stored := by
  have hlimits : maxMetadataKey < 2 ^ 32 ∧ maxMetadataText < 2 ^ 32 := by decide
  simp only [bounded, Bool.and_eq_true, decide_eq_true_eq, all_eq_true] at hbounded
  obtain ⟨⟨⟨⟨hkey, hreason⟩, herror⟩, hcount⟩, hconstraints⟩ := hbounded
  change r.action.splitKey.length ≤ maxMetadataKey at hkey
  change r.action.reason.length ≤ maxMetadataText at hreason
  change r.lastError.length ≤ maxMetadataText at herror
  have hids := h.identities
  simp only [forall_mem_cons] at hids
  unfold encode
  refine (reads_words rfl h.words_lt).bind ((reads_uint32 (by omega)).bind
    ((reads_uint32 (by omega)).bind ((reads_uint32 (by omega)).bind
    ((reads_uint32 (by omega)).bind (Reads.ite (by omega) ?_)))))
  refine (Reads.take rfl).bind ((Reads.take rfl).bind ((Reads.take rfl).bind
    (Reads.ite ?_ ((Reads.many fun c hc => reads_constraint (hconstraints c hc)).bind_last ?_))))
  · simp only [words, getD_cons_zero, getD_cons_succ, not_or, not_lt]
    refine ⟨?_, ?_, by split <;> omega⟩
    · have htype := h.type
      revert htype
      cases r.action.type <;> simp [RebalanceActionType.rank]
    · cases r.state <;> decide
  · have hsource : UInt64.ofNat r.action.sourceNodeID.toNat = r.action.sourceNodeID :=
      UInt64.ofNat_toNat
    have htarget : UInt64.ofNat r.action.targetNodeID.toNat = r.action.targetNodeID :=
      UInt64.ofNat_toNat
    have hemergency : decide ((if r.action.emergency = true then 1 else 0) = 1) =
        r.action.emergency := by
      cases r.action.emergency <;> rfl
    simp only [words, getD_cons_zero, getD_cons_succ,
      RebalanceActionType.ofRank_rank h.type, RebalanceActionState.ofRank_rank, hsource, htarget,
      hemergency, getInt64_bits64]
    exact Reads.ite (by tauto) (Reads.pure r.stored)

end RebalanceActionRecord

theorem reads_cooldown {id : ℕ} (hid : id ≠ 0 ∧ id < 2 ^ 64) (t : ℤ) :
    Reads cooldown (putLE 8 id ++ putInt64 t) (id, t.bmod (2 ^ 64)) := by
  unfold putInt64
  refine (reads_uint64 hid.2).bind ((reads_uint64 (bits64_lt t)).bind_last (Reads.ite hid.1 ?_))
  rw [getInt64_bits64]
  exact Reads.pure _

/-- Assignments under distinct keys leave their entries in order. -/
theorem assignAll_eq {κ ν : Type} [DecidableEq κ] {ps : List (κ × ν)}
    (h : (ps.map Prod.fst).Nodup) : assignAll ps = ps := by
  -- the entries that are already there do not have the key of a later one
  have hfold : ∀ rest done : List (κ × ν), ((done ++ rest).map Prod.fst).Nodup →
      rest.foldl (fun m p => assign m p.1 p.2) done = done ++ rest := by
    intro rest
    induction rest with
    | nil => simp
    | cons p rest ih =>
      intro done hdone
      have hfresh : ¬ done.any (fun q => decide (q.1 = p.1)) = true := by
        simp only [any_eq_true, decide_eq_true_eq, not_exists, not_and]
        intro q hq heq
        rw [map_append, nodup_append] at hdone
        exact hdone.2.2 q.1 (mem_map_of_mem hq) p.1 (by simp) heq
      have hstep : assign done p.1 p.2 = done ++ [p] := by
        unfold assign
        rw [if_neg hfresh]
      rw [foldl_cons, hstep, ih _ (by simpa using hdone), append_assoc, singleton_append]
  exact hfold ps [] h

/-- What holds of the control of every state. -/
structure RebalanceControl.Formed (c : RebalanceControl) : Prop where
  policy : c.policy.Fits
  valid : c.policy.version ≠ 0 → c.policy.validate = .ok ()
  version : c.policyVersion = c.policy.version
  controllerEpoch : c.controllerEpoch < 2 ^ 64
  nextActionID : c.nextActionID < 2 ^ 64
  history : ∀ r ∈ c.history, r.Formed
  rangeKeys : (c.rangeCooldowns.map Prod.fst).Nodup
  ranges : ∀ p ∈ c.rangeCooldowns, p.1 ≠ 0 ∧ p.1 < 2 ^ 64
  nodeKeys : (c.nodeCooldowns.map Prod.fst).Nodup
  nodes : ∀ p ∈ c.nodeCooldowns, p.1 ≠ 0

namespace RebalanceControl

variable {c : RebalanceControl} {bytes : Bytes}

theorem sortedRanges_perm (c : RebalanceControl) : c.sortedRanges.Perm c.rangeCooldowns :=
  perm_insertionSort _ _

theorem sortedNodes_perm (c : RebalanceControl) : c.sortedNodes.Perm c.nodeCooldowns :=
  perm_insertionSort _ _

/-- The control as it comes back. -/
def stored (c : RebalanceControl) : RebalanceControl :=
  { c with
    history := c.history.map RebalanceActionRecord.stored
    rangeCooldowns := c.sortedRanges.map fun p => (p.1, p.2.bmod (2 ^ 64))
    nodeCooldowns := c.sortedNodes.map fun p => (p.1, p.2.bmod (2 ^ 64)) }

/-- When the control is encoded, and as what. -/
theorem encode_ok_iff :
    c.encode = .ok bytes ↔
      (c.history.length ≤ maxRebalanceActionRecords ∧
        c.rangeCooldowns.length ≤ maxCatalogRanges ∧
        c.nodeCooldowns.length ≤ maxCatalogNodes) ∧ c.policyVersion = c.policy.version ∧
      (∀ r ∈ c.history, r.bounded = true) ∧
      bytes = c.bytes := by
  unfold encode
  split_ifs with hcounts hversion hbounded
  · simp only [false_iff]
    omega
  · simp only [false_iff]
    tauto
  · simp only [Bool.not_eq_true', all_eq_false] at hbounded
    obtain ⟨r, hr, hbad⟩ := hbounded
    simp only [false_iff]
    rintro ⟨-, -, hall, -⟩
    exact hbad (hall r hr)
  · simp only [Bool.not_eq_true', Bool.not_eq_false, all_eq_true] at hbounded
    simp only [not_or, not_lt, not_not] at hcounts hversion
    rw [Except.ok.injEq]
    exact ⟨fun h => ⟨hcounts, hversion, hbounded, h.symm⟩, fun h => h.2.2.2.symm⟩

theorem reads_counted {α β : Type} {x : MetadataDecoder α} {limit : ℕ} {g : β → α} {l : List β}
    {encode : β → Bytes} (hlimit : limit < 2 ^ 32) (hlength : l.length ≤ limit)
    (h : ∀ b ∈ l, Reads x (encode b) (g b)) :
    Reads (counted limit x) (putLE 4 l.length ++ l.flatMap encode) (l.map g) :=
  (reads_uint32 (hlength.trans_lt hlimit)).bind (Reads.ite (not_lt.mpr hlength) (Reads.many_map h))

/-- The cooldowns of ranges are read back in the order of their keys. -/
theorem Formed.reads_ranges (h : c.Formed) (hcount : c.rangeCooldowns.length ≤ maxCatalogRanges) :
    Reads (counted maxCatalogRanges cooldown) (putLE 4 c.sortedRanges.length ++
        c.sortedRanges.flatMap fun p => putLE 8 p.1 ++ putInt64 p.2)
      c.stored.rangeCooldowns := by
  refine reads_counted (by decide) (c.sortedRanges_perm.length_eq.trans_le hcount) fun p hp => ?_
  exact reads_cooldown (h.ranges p (c.sortedRanges_perm.mem_iff.mp hp)) p.2

theorem Formed.reads_nodes (h : c.Formed) (hcount : c.nodeCooldowns.length ≤ maxCatalogNodes) :
    Reads (counted maxCatalogNodes cooldown) (putLE 4 c.sortedNodes.length ++
        c.sortedNodes.flatMap fun p => putLE 8 p.1.toNat ++ putInt64 p.2)
      (c.sortedNodes.map fun p => (p.1.toNat, p.2.bmod (2 ^ 64))) := by
  refine reads_counted (by decide) (c.sortedNodes_perm.length_eq.trans_le hcount) fun p hp => ?_
  refine reads_cooldown ⟨fun hzero => ?_, p.1.toNat_lt⟩ p.2
  exact h.nodes p (c.sortedNodes_perm.mem_iff.mp hp) (UInt64.toNat_inj.mp hzero)

/-- The keys are distinct, so the maps are the lists that were written. -/
theorem Formed.assignAll_stored (h : c.Formed) :
    assignAll c.stored.rangeCooldowns = c.stored.rangeCooldowns ∧
      assignAll ((c.sortedNodes.map fun p => (p.1.toNat, p.2.bmod (2 ^ 64))).map
        fun p => (UInt64.ofNat p.1, p.2)) = c.stored.nodeCooldowns := by
  constructor
  · refine assignAll_eq ?_
    simp only [stored, map_map]
    exact (c.sortedRanges_perm.map _).nodup_iff.mpr h.rangeKeys
  · have hids : (c.sortedNodes.map fun p => (p.1.toNat, p.2.bmod (2 ^ 64))).map
        (fun p => (UInt64.ofNat p.1, p.2)) = c.stored.nodeCooldowns := by
      rw [map_map]
      exact map_congr_left fun p _ => Prod.ext UInt64.ofNat_toNat rfl
    rw [hids]
    refine assignAll_eq ?_
    simp only [stored, map_map]
    exact (c.sortedNodes_perm.map _).nodup_iff.mpr h.nodeKeys

section

variable (h : c.Formed) (hencode : c.encode = .ok bytes)

include h hencode

theorem Formed.reads_fields :
    Reads controlFields bytes c.stored := by
  obtain ⟨⟨hhistory, hranges, hnodes⟩, -, hbounded, rfl⟩ := encode_ok_iff.mp hencode
  have hread : Reads (counted maxRebalanceActionRecords actionRecord)
      (putLE 4 c.history.length ++ c.history.flatMap RebalanceActionRecord.encode)
      c.stored.history :=
    reads_counted (by decide) hhistory fun r hr => (h.history r hr).reads (hbounded r hr)
  obtain ⟨hrangeMap, hnodeMap⟩ := h.assignAll_stored
  have hreadRanges := h.reads_ranges hranges
  have hreadNodes := h.reads_nodes hnodes
  rw [RebalanceControl.bytes, ← append_assoc (putLE 4 _) (c.history.flatMap _),
    ← append_assoc (putLE 4 _) (c.sortedRanges.flatMap _)]
  refine (h.policy.reads h.valid).bind ((reads_uint64 h.controllerEpoch).bind
    ((reads_uint64 h.nextActionID).bind (hread.bind (hreadRanges.bind
    (hreadNodes.bind_last ?_)))))
  rw [hrangeMap, hnodeMap, ← h.version]
  exact Reads.pure c.stored

theorem Formed.reads (hnext : c.nextActionID ≠ 0) :
    Reads control bytes c.stored :=
  (h.reads_fields hencode).bind_last (Reads.ite hnext (Reads.pure _))

theorem Formed.fails (hnext : c.nextActionID = 0) :
    Fails control bytes := by
  rw [← append_nil bytes]
  exact Fails.bind (h.reads_fields hencode) (Fails.ite fun hne => absurd hnext hne)

end

end RebalanceControl

end RivetDB.Multiraft
