import RivetDB.Raft.Types
import RivetDB.Storage.Engine
import Mathlib.Data.List.Sort

/-!
# Range descriptors and the catalog

`descriptor.go`, `catalog.go` and the size check of `catalog_codec.go`.  A catalog is
an ordered list of ranges; `newCatalog` is the only way to build one, and it refuses
overlaps, duplicate identities and, unless partial catalogs are allowed, gaps.

Range and replica identities, generations and catalog versions are natural numbers;
where the code could leave the range of `uint64` it wraps (`wrap64`).
-/

namespace RivetDB.Multiraft

/-- The value of a `uint64` expression. -/
def wrap64 (n : ℕ) : ℕ := n % 2 ^ 64

/-- `MaxCatalogRanges`. -/
def maxCatalogRanges : ℕ := 4096

/-- `MaxCatalogNodes`. -/
def maxCatalogNodes : ℕ := 1024

/-- `MaxRangeReplicas`. -/
def maxRangeReplicas : ℕ := 31

/-- `maxCatalogBytes`. -/
def maxCatalogBytes : ℕ := 32 <<< 20

/-- The errors of the package.  `wrap` is `fmt.Errorf` around a cause, `join` is
`errors.Join`. -/
inductive Error where
  | invalidDescriptor
  | invalidCatalog
  | unsupportedCatalog
  | corruptCatalog
  | rangeNotFound
  | staleRange
  | resourceLimit
  | migrationInProgress
  | migrationConflict
  | splitInProgress
  | splitConflict
  | corruptMetadata
  | unsupportedMetadata
  | invalidRebalancePolicy
  | staleRebalancePlan
  | wrap (text : String) (cause : Error)
  | join (left right : Error)
deriving DecidableEq, Repr

/-! ### Descriptors -/

/-- An endpoint: a user key, or unbounded on its side. -/
structure KeyBound where
  unbounded : Bool := false
  key : Bytes := []
deriving DecidableEq, Repr

structure ReplicaDescriptor where
  replicaID : ℕ
  nodeID : Raft.NodeID
deriving DecidableEq, Repr

structure RangeDescriptor where
  rangeID : ℕ
  generation : ℕ
  startKey : KeyBound
  endKey : KeyBound
  replicas : List ReplicaDescriptor
deriving DecidableEq, Repr

/-- The loop of `Validate` over the replicas, behind those in `seen`. -/
def validateReplicas (seen : List ReplicaDescriptor) :
    List ReplicaDescriptor → Except Error Unit
  | [] => .ok ()
  | replica :: rest =>
    if replica.replicaID = 0 ∨ replica.nodeID = 0 then
      .error (.wrap "zero replica identity" .invalidDescriptor)
    else if replica.replicaID ∈ seen.map ReplicaDescriptor.replicaID then
      .error (.wrap s!"duplicate replica {replica.replicaID}" .invalidDescriptor)
    else if replica.nodeID ∈ seen.map ReplicaDescriptor.nodeID then
      .error (.wrap s!"duplicate node {replica.nodeID}" .invalidDescriptor)
    else validateReplicas (replica :: seen) rest

namespace RangeDescriptor

/-- `Validate`. -/
def validate (d : RangeDescriptor) : Except Error Unit :=
  if d.rangeID = 0 ∨ d.generation = 0 ∨ d.replicas = [] then .error .invalidDescriptor
  else if (d.startKey.unbounded ∧ d.startKey.key ≠ []) ∨
      (d.endKey.unbounded ∧ d.endKey.key ≠ []) then
    .error (.wrap "unbounded endpoint contains bytes" .invalidDescriptor)
  else if d.startKey.key.length > Storage.maxUserKeySize ∨
      d.endKey.key.length > Storage.maxUserKeySize then
    .error (.wrap "endpoint exceeds key bound" .invalidDescriptor)
  else if !d.startKey.unbounded ∧ !d.endKey.unbounded ∧ ¬ d.startKey.key < d.endKey.key then
    .error (.wrap "empty or reversed interval" .invalidDescriptor)
  else validateReplicas [] d.replicas

/-- `Contains`. -/
def contains (d : RangeDescriptor) (key : Bytes) : Bool :=
  (d.startKey.unbounded || ¬ key < d.startKey.key) && (d.endKey.unbounded || key < d.endKey.key)

/-- `compareStart` of two descriptors is at most zero. -/
def startLE (left right : RangeDescriptor) : Prop :=
  left.startKey.unbounded = true ∨
    (right.startKey.unbounded = false ∧ ¬ right.startKey.key < left.startKey.key)

instance : DecidableRel startLE := fun _ _ =>
  inferInstanceAs (Decidable (_ ∨ _))

/-- The order in which `NewCatalog` keeps the replicas of a range. -/
def replicaLE (left right : ReplicaDescriptor) : Prop :=
  left.replicaID < right.replicaID ∨
    (left.replicaID = right.replicaID ∧ left.nodeID ≤ right.nodeID)

instance : DecidableRel replicaLE := fun _ _ =>
  inferInstanceAs (Decidable (_ ∨ _))

/-- The descriptor with its replicas in order. -/
def sortReplicas (d : RangeDescriptor) : RangeDescriptor :=
  { d with replicas := d.replicas.insertionSort replicaLE }

end RangeDescriptor

/-! ### The catalog -/

structure Bootstrap where
  generation : ℕ
  nodes : List Raft.NodeID
  replicationFactor : ℕ
  allowPartial : Bool := false
  ranges : List RangeDescriptor
deriving DecidableEq, Repr

/-- `Catalog`.  The index `byID` is a search through the ranges; the fingerprint is a
function of the other fields. -/
structure Catalog where
  generation : ℕ
  nodes : List Raft.NodeID
  replicationFactor : ℕ
  allowPartial : Bool
  ranges : List RangeDescriptor
deriving DecidableEq, Repr

open Codec (putLE)

def KeyBound.flag (start finish : KeyBound) : UInt8 :=
  (if start.unbounded then 1 else 0) + (if finish.unbounded then 2 else 0)

def ReplicaDescriptor.encode (r : ReplicaDescriptor) : Bytes :=
  putLE 8 r.replicaID ++ putLE 8 r.nodeID.toNat

/-- The bytes of a descriptor, in the catalog and in a split record alike. -/
def RangeDescriptor.encode (d : RangeDescriptor) : Bytes :=
  putLE 8 d.rangeID ++ (putLE 8 d.generation ++ ([d.startKey.flag d.endKey, 0, 0, 0] ++
    (putLE 4 d.startKey.key.length ++ (putLE 4 d.endKey.key.length ++
    (putLE 4 d.replicas.length ++ (d.startKey.key ++ (d.endKey.key ++
    d.replicas.flatMap ReplicaDescriptor.encode)))))))

namespace Catalog

/-- `catalogMagic`: `RVCT`. -/
def magic : Bytes := [82, 86, 67, 84]

/-- What `encodeCatalog` writes behind the header. -/
def fieldBytes (c : Catalog) : Bytes :=
  putLE 8 c.generation ++ (putLE 4 c.replicationFactor ++ (putLE 4 c.nodes.length ++
    (putLE 4 c.ranges.length ++ (c.nodes.flatMap (fun id => putLE 8 id.toNat) ++
    c.ranges.flatMap RangeDescriptor.encode))))

/-- The header of the catalog. -/
def headerBytes (c : Catalog) : Bytes :=
  magic ++ (putLE 2 1 ++ putLE 2 (if c.allowPartial then 1 else 0))

/-- What `encodeCatalog` writes before the checksum. -/
def body (c : Catalog) : Bytes := c.headerBytes ++ c.fieldBytes

/-- `encodeCatalog`, with the checksum of `hash/crc32`. -/
def encode (crc32 : Bytes → ℕ) (c : Catalog) : Except Error Bytes :=
  if c.body.length > maxCatalogBytes - 4 then .error .resourceLimit
  else .ok (c.body ++ putLE 4 (crc32 c.body))

/-- `LookupByID`. -/
def lookupByID (c : Catalog) (rangeID : ℕ) : Except Error RangeDescriptor :=
  match c.ranges.find? (·.rangeID = rangeID) with
  | some d => .ok d
  | none => .error .rangeNotFound

/-- `Lookup`: `sort.Search` for the first range that ends above the key. -/
def lookup (c : Catalog) (key : Bytes) : Except Error RangeDescriptor :=
  match c.ranges.find? (fun d => d.endKey.unbounded || key < d.endKey.key) with
  | none => .error .rangeNotFound
  | some d => if d.contains key then .ok d else .error .rangeNotFound

/-- `Snapshot`. -/
def snapshot (c : Catalog) : Bootstrap where
  generation := c.generation
  nodes := c.nodes
  replicationFactor := c.replicationFactor
  allowPartial := c.allowPartial
  ranges := c.ranges

end Catalog

/-- The check of `NewCatalog` over the sorted nodes. -/
def validNodes : List Raft.NodeID → Bool
  | [] => true
  | [id] => id ≠ 0
  | id :: id' :: rest => id ≠ 0 && id ≠ id' && validNodes (id' :: rest)

/-- The first loop of `NewCatalog` over the ranges. -/
def validateDescriptors (nodes : List Raft.NodeID) (replicationFactor : ℕ) :
    List RangeDescriptor → Except Error Unit
  | [] => .ok ()
  | d :: rest =>
    match d.validate with
    | .error err => .error (.wrap s!"validate range {d.rangeID}" err)
    | .ok () =>
      if d.replicas.length ≠ replicationFactor then
        .error (.wrap s!"range {d.rangeID} replication factor" .invalidCatalog)
      else if d.replicas.any (fun r => r.nodeID ∉ nodes) then
        .error (.wrap s!"range {d.rangeID} references unknown node" .invalidCatalog)
      else validateDescriptors nodes replicationFactor rest

/-- The second loop of `NewCatalog`, over the sorted ranges behind `previous`. -/
def validateOrder (allowPartial : Bool) :
    List ℕ → Option RangeDescriptor → List RangeDescriptor → Except Error Unit
  | _, _, [] => .ok ()
  | seen, previous, d :: rest =>
    if d.rangeID ∈ seen then
      .error (.wrap s!"duplicate range {d.rangeID}" .invalidCatalog)
    else
      match previous with
      | none => validateOrder allowPartial (d.rangeID :: seen) (some d) rest
      | some p =>
        if p.endKey.unbounded ∨ d.startKey.unbounded then
          .error (.wrap "internal unbounded endpoint" .invalidCatalog)
        else if d.startKey.key < p.endKey.key ∨
            (!allowPartial ∧ p.endKey.key ≠ d.startKey.key) then
          .error (.wrap s!"overlap or gap before range {d.rangeID}" .invalidCatalog)
        else validateOrder allowPartial (d.rangeID :: seen) (some d) rest

/-- Whether the first range starts and the last one ends unbounded. -/
def fullSpan (ranges : List RangeDescriptor) : Bool :=
  ranges.head?.any (·.startKey.unbounded) && ranges.getLast?.any (·.endKey.unbounded)

/-- The catalog a bootstrap describes, before it is checked. -/
def Bootstrap.arrange (b : Bootstrap) : Catalog where
  generation := b.generation
  nodes := b.nodes.insertionSort (· ≤ ·)
  replicationFactor := b.replicationFactor
  allowPartial := b.allowPartial
  ranges := (b.ranges.map RangeDescriptor.sortReplicas).insertionSort RangeDescriptor.startLE

/-- `NewCatalog`. -/
def newCatalog (b : Bootstrap) : Except Error Catalog :=
  if b.generation = 0 ∨ b.nodes = [] ∨ b.nodes.length > maxCatalogNodes ∨
      b.replicationFactor < 1 ∨ b.replicationFactor > maxRangeReplicas ∨
      b.ranges = [] ∨ b.ranges.length > maxCatalogRanges then
    .error .invalidCatalog
  else if !validNodes b.arrange.nodes then
    .error (.wrap "invalid or duplicate node" .invalidCatalog)
  else
    match validateDescriptors b.arrange.nodes b.replicationFactor b.ranges with
    | .error err => .error err
    | .ok () =>
      match validateOrder b.allowPartial [] none b.arrange.ranges with
      | .error err => .error err
      | .ok () =>
        if !b.allowPartial ∧ !fullSpan b.arrange.ranges then
          .error (.wrap "full keyspace is not covered" .invalidCatalog)
        else if b.arrange.body.length > maxCatalogBytes - 4 then .error .resourceLimit
        else .ok b.arrange

end RivetDB.Multiraft
