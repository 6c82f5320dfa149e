import RivetDB.Codec.Decoder
import RivetDB.Range.Machine

/-!
# The logical image of a range

The codec of `state_snapshot.go`: what a snapshot of the state machine contains, as bytes.
The decoder has its own limits, on the length of a key or a value for instance; an image
within these limits is read back as it was written.
-/

namespace RivetDB.Range

open Codec (slice byteAt putLE getLE)
open Decoder (Reads Yields)

/-- `logicalStateImage`. -/
structure Image where
  rangeID : ℕ
  generation : ℕ
  applied : ℕ
  maxApplied : ℕ
  safeRead : ℕ
  hlc : ℕ
  lifecycle : Lifecycle
  versions : List Storage.Version
  records : List Txn.Record
  participants : List Txn.ParticipantRecord
deriving DecidableEq

/-- `stateSnapshotMagic`: `RVRS`. -/
def stateSnapshotMagic : Bytes := [82, 86, 82, 83]

/-- `stateSnapshotVersion`. -/
def stateSnapshotVersion : ℕ := 1

def maxImageBytes : ℕ := 16 <<< 20

def maxImageVersions : ℕ := 4000000

/-- The limit of the image on transaction records, and on participant records. -/
def maxImageRecords : ℕ := 1000000

def maxImageKey : ℕ := 1 <<< 20

def maxImageValue : ℕ := 8 <<< 20

def maxImageReason : ℕ := 1 <<< 16

def Lifecycle.toByte : Lifecycle → UInt8
  | .active => 1
  | .shadow => 2
  | .retired => 3
  | .learner => 4

def Lifecycle.ofByte : UInt8 → Option Lifecycle
  | 1 => some .active
  | 2 => some .shadow
  | 3 => some .retired
  | 4 => some .learner
  | _ => none

theorem Lifecycle.ofByte_toByte (l : Lifecycle) : ofByte l.toByte = some l := by
  cases l <;> rfl

def statusByte : Txn.Status → UInt8
  | .pending => 1
  | .committed => 2
  | .aborted => 3

def statusOfByte : UInt8 → Option Txn.Status
  | 1 => some .pending
  | 2 => some .committed
  | 3 => some .aborted
  | _ => none

theorem statusOfByte_statusByte (s : Txn.Status) : statusOfByte (statusByte s) = some s := by
  cases s <;> rfl

def participantStatusByte : Txn.ParticipantStatus → UInt8
  | .prepared => 1
  | .rejected => 2
  | .committed => 3
  | .aborted => 4

def participantStatusOfByte : UInt8 → Option Txn.ParticipantStatus
  | 1 => some .prepared
  | 2 => some .rejected
  | 3 => some .committed
  | 4 => some .aborted
  | _ => none

theorem participantStatusOfByte_byte (s : Txn.ParticipantStatus) :
    participantStatusOfByte (participantStatusByte s) = some s := by
  cases s <;> rfl

/-! ### Encoding -/

def appendBytes (value : Bytes) : Bytes := putLE 4 value.length ++ value

/-- A count of items, and the items. -/
def appendList {α : Type} (encode : α → Bytes) (l : List α) : Bytes :=
  putLE 4 l.length ++ l.flatMap encode

def encodeVersion (v : Storage.Version) : Bytes :=
  appendBytes v.key ++ (appendBytes v.value ++ (putLE 8 v.seq ++ [v.kind.toByte, 0, 0, 0]))

def encodeImageParticipant (p : Txn.Participant) : Bytes :=
  putLE 8 p.rangeID ++ putLE 8 p.generation

/-- `appendTxnRecord`. -/
def appendTxnRecord (r : Txn.Record) : Bytes :=
  (r.id.bytes ++ [statusByte r.status, 0, 0, 0]) ++ (putLE 8 r.readTime ++
    (putLE 8 r.commitTime ++ (putLE 8 r.epoch ++ (putLE 8 r.home.rangeID ++
    (putLE 8 r.home.generation ++ appendList encodeImageParticipant r.participants)))))

def encodeImageWrite (w : Txn.Write) : Bytes :=
  [if w.delete then 1 else 0] ++ (appendBytes w.key ++ appendBytes w.value)

/-- `appendParticipantRecord`. -/
def appendParticipantRecord (r : Txn.ParticipantRecord) : Bytes :=
  (r.id.bytes ++ [participantStatusByte r.status, 0, 0, 0]) ++ (putLE 8 r.readTime ++
    (putLE 8 r.commitTime ++ (putLE 8 r.epoch ++ (putLE 8 r.home.rangeID ++
    (putLE 8 r.home.generation ++ (appendBytes r.reason ++
    appendList encodeImageWrite r.writes))))))

/-- What `encodeLogicalState` writes before the checksum. -/
def Image.body (image : Image) : Bytes :=
  stateSnapshotMagic ++ (putLE 2 stateSnapshotVersion ++ ([image.lifecycle.toByte, 0] ++
    (putLE 8 image.rangeID ++ (putLE 8 image.generation ++ (putLE 8 image.applied ++
    (putLE 8 image.maxApplied ++ (putLE 8 image.safeRead ++ (putLE 8 image.hlc ++
    (appendList encodeVersion image.versions ++ (appendList appendTxnRecord image.records ++
    appendList appendParticipantRecord image.participants))))))))))

/-- `encodeLogicalState`. -/
def encodeLogicalState (crc32 : Bytes → ℕ) (image : Image) : Except Error Bytes :=
  if image.rangeID = 0 ∨ image.generation = 0 ∨ image.versions.length > maxImageVersions ∨
      image.records.length > maxImageRecords ∨ image.participants.length > maxImageRecords then
    .error .invalidOptions
  else if image.body.length + 4 > maxImageBytes then .error .invalidOptions
  else .ok (image.body ++ putLE 4 (crc32 image.body))

/-! ### Decoding -/

/-- A decoder of the image; it has one error. -/
abbrev ImageDecoder := Decoder Error

namespace ImageDecoder

def take (n : ℕ) : ImageDecoder Bytes := Decoder.take .invalidOptions n

def u32 : ImageDecoder ℕ := Decoder.uint .invalidOptions 4

def u64 : ImageDecoder ℕ := Decoder.uint .invalidOptions 8

def bytes (limit : ℕ) : ImageDecoder Bytes := Decoder.bytes .invalidOptions limit

/-- A count of items, and the items. -/
def counted {α : Type} (limit : ℕ) (x : ImageDecoder α) : ImageDecoder (List α) := do
  let n ← u32
  if n > limit then throw .invalidOptions else Decoder.many x n

/-- A version.  A kind outside the enumeration is refused later in the source, by the engine. -/
def version : ImageDecoder Storage.Version := do
  let key ← bytes maxImageKey
  let value ← bytes maxImageValue
  let timestamp ← u64
  let kind ← take 4
  if slice kind 1 4 ≠ [0, 0, 0] then throw .invalidOptions
  else
    match Storage.Kind.ofByte (byteAt kind 0) with
    | none => throw .invalidOptions
    | some k => pure { key := key, seq := timestamp, kind := k, value := value }

def participant : ImageDecoder Txn.Participant := do
  let rangeID ← u64
  let generation ← u64
  return { rangeID := rangeID, generation := generation }

/-- `decodeTxnRecord`. -/
def txnRecord : ImageDecoder Txn.Record := do
  let header ← take 20
  if slice header 17 20 ≠ [0, 0, 0] then throw .invalidOptions
  else do
    let readTime ← u64
    let commitTime ← u64
    let epoch ← u64
    let rangeID ← u64
    let generation ← u64
    let participants ← counted Txn.maxParticipants participant
    match statusOfByte (byteAt header 16) with
    | none => throw .invalidOptions
    | some status =>
      if (Txn.ID.copy (slice header 0 16)).isZero ∨ epoch = 0 then throw .invalidOptions
      else pure {
        id := Txn.ID.copy (slice header 0 16)
        status := status
        readTime := readTime
        commitTime := commitTime
        epoch := epoch
        home := { rangeID := rangeID, generation := generation }
        participants := participants }

def write : ImageDecoder Txn.Write := do
  let flag ← take 1
  if byteAt flag 0 > 1 then throw .invalidOptions
  else do
    let key ← bytes maxImageKey
    let value ← bytes maxImageValue
    return { key := key, value := value, delete := byteAt flag 0 = 1 }

/-- `decodeParticipantRecord`. -/
def participantRecord : ImageDecoder Txn.ParticipantRecord := do
  let header ← take 20
  if slice header 17 20 ≠ [0, 0, 0] then throw .invalidOptions
  else do
    let readTime ← u64
    let commitTime ← u64
    let epoch ← u64
    let rangeID ← u64
    let generation ← u64
    let reason ← bytes maxImageReason
    let writes ← counted Txn.maxWrites write
    match participantStatusOfByte (byteAt header 16) with
    | none => throw .invalidOptions
    | some status =>
      if (Txn.ID.copy (slice header 0 16)).isZero ∨ epoch = 0 then throw .invalidOptions
      else pure {
        id := Txn.ID.copy (slice header 0 16)
        status := status
        readTime := readTime
        commitTime := commitTime
        epoch := epoch
        home := { rangeID := rangeID, generation := generation }
        writes := writes
        reason := reason }

/-- The body of `decodeLogicalState`. -/
def image : ImageDecoder Image := do
  let magic ← take 4
  if magic ≠ stateSnapshotMagic then throw .invalidOptions
  else do
    let ver ← take 2
    if getLE ver ≠ stateSnapshotVersion then throw .invalidOptions
    else do
      let flags ← take 2
      if byteAt flags 1 ≠ 0 then throw .invalidOptions
      else do
        let rangeID ← u64
        let generation ← u64
        let applied ← u64
        let maxApplied ← u64
        let safeRead ← u64
        let hlc ← u64
        let versions ← counted maxImageVersions version
        let records ← counted maxImageRecords txnRecord
        let participants ← counted maxImageRecords participantRecord
        match Lifecycle.ofByte (byteAt flags 0) with
        | none => throw .invalidOptions
        | some lifecycle => pure {
            rangeID := rangeID
            generation := generation
            applied := applied
            maxApplied := maxApplied
            safeRead := safeRead
            hlc := hlc
            lifecycle := lifecycle
            versions := versions
            records := records
            participants := participants }

end ImageDecoder

/-- `decodeLogicalState`. -/
def decodeLogicalState (crc32 : Bytes → ℕ) (encoded : Bytes) : Except Error Image :=
  if encoded.length < 64 ∨ encoded.length > maxImageBytes then .error .invalidOptions
  else if crc32 (encoded.take (encoded.length - 4)) ≠
      getLE (encoded.drop (encoded.length - 4)) then .error .invalidOptions
  else
    match ImageDecoder.image.run (encoded.take (encoded.length - 4)) with
    | .error err => .error err
    | .ok (image, rest) =>
      if rest ≠ [] ∨ image.rangeID = 0 ∨ image.generation = 0 ∨ image.applied = 0 then
        .error .invalidOptions
      else .ok image

/-! ### Reading back -/

/-- A version within the limits of the image. -/
structure VersionFits (v : Storage.Version) : Prop where
  key : v.key.length ≤ maxImageKey
  value : v.value.length ≤ maxImageValue
  seq : v.seq < 2 ^ 64

/-- A transaction record within the limits of the image. -/
structure RecordFits (r : Txn.Record) : Prop where
  id : r.id.isZero = false
  readTime : r.readTime < 2 ^ 64
  commitTime : r.commitTime < 2 ^ 64
  epoch : r.epoch < 2 ^ 64
  started : r.epoch ≠ 0
  home : r.home.Fits
  count : r.participants.length ≤ Txn.maxParticipants
  participants : ∀ p ∈ r.participants, p.Fits

/-- A participant record within the limits of the image. -/
structure ParticipantFits (r : Txn.ParticipantRecord) : Prop where
  id : r.id.isZero = false
  readTime : r.readTime < 2 ^ 64
  commitTime : r.commitTime < 2 ^ 64
  epoch : r.epoch < 2 ^ 64
  started : r.epoch ≠ 0
  home : r.home.Fits
  reason : r.reason.length ≤ maxImageReason
  count : r.writes.length ≤ Txn.maxWrites
  keys : ∀ w ∈ r.writes, w.key.length ≤ maxImageKey
  values : ∀ w ∈ r.writes, w.value.length ≤ maxImageValue

/-- An image within the limits of the decoder. -/
structure Image.Fits (image : Image) : Prop where
  rangeID : image.rangeID < 2 ^ 64
  generation : image.generation < 2 ^ 64
  applied : image.applied < 2 ^ 64
  maxApplied : image.maxApplied < 2 ^ 64
  safeRead : image.safeRead < 2 ^ 64
  hlc : image.hlc < 2 ^ 64
  versions : ∀ v ∈ image.versions, VersionFits v
  records : ∀ r ∈ image.records, RecordFits r
  participants : ∀ r ∈ image.participants, ParticipantFits r

theorem reads_u64 {n : ℕ} (h : n < 2 ^ 64) : Reads ImageDecoder.u64 (putLE 8 n) n :=
  Reads.uint (show n < 256 ^ 8 from h)

theorem reads_take {b : Bytes} {n : ℕ} (h : b.length = n) : Reads (ImageDecoder.take n) b b :=
  Reads.take h

theorem reads_bytes {b : Bytes} {limit : ℕ} (hlimit : limit < 2 ^ 32) (h : b.length ≤ limit) :
    Reads (ImageDecoder.bytes limit) (appendBytes b) b :=
  Reads.bytes hlimit h

theorem reads_counted {α : Type} {limit : ℕ} {x : ImageDecoder α} {l : List α}
    {encode : α → Bytes} (hlimit : limit < 2 ^ 32) (hlength : l.length ≤ limit)
    (h : ∀ a ∈ l, Reads x (encode a) a) :
    Reads (ImageDecoder.counted limit x) (appendList encode l) l := by
  refine (Reads.uint ?_).bind (Reads.ite (by omega) (Reads.many h))
  omega

theorem reads_version {v : Storage.Version} (h : VersionFits v) :
    Reads ImageDecoder.version (encodeVersion v) v := by
  have htail : ([v.kind.toByte, 0, 0, 0] : Bytes).length = 4 := rfl
  refine (reads_bytes (by decide) h.key).bind ((reads_bytes (by decide) h.value).bind
    ((reads_u64 h.seq).bind ((reads_take htail).bind_last ?_)))
  have hkind : Storage.Kind.ofByte (byteAt [v.kind.toByte, 0, 0, 0] 0) = some v.kind :=
    Storage.Kind.ofByte_toByte v.kind
  rw [hkind]
  exact Reads.pure v

theorem reads_participant {p : Txn.Participant} (h : p.Fits) :
    Reads ImageDecoder.participant (encodeImageParticipant p) p :=
  (reads_u64 h.1).bind ((reads_u64 h.2).bind_last (Reads.pure p))

theorem slice_header {id : Txn.ID} {status : UInt8} :
    slice (id.bytes ++ [status, 0, 0, 0]) 17 20 = [0, 0, 0] ∧
      byteAt (id.bytes ++ [status, 0, 0, 0]) 16 = status ∧
      Txn.ID.copy (slice (id.bytes ++ [status, 0, 0, 0]) 0 16) = id := by
  refine ⟨?_, ?_, ?_⟩
  · rw [Codec.slice_append_behind (by rw [id.size]; omega), id.size]
    rfl
  · unfold byteAt
    rw [Codec.slice_append_behind (by rw [id.size]), id.size]
    rfl
  · rw [Codec.slice_append_front id.size, Txn.ID.copy_bytes]

theorem reads_txnRecord {r : Txn.Record} (h : RecordFits r) :
    Reads ImageDecoder.txnRecord (appendTxnRecord r) r := by
  obtain ⟨hzero, hstatus, hid⟩ := @slice_header r.id (statusByte r.status)
  refine (reads_take (by simp [r.id.size])).bind (Reads.ite (not_not.mpr hzero)
    ((reads_u64 h.readTime).bind ((reads_u64 h.commitTime).bind ((reads_u64 h.epoch).bind
    ((reads_u64 h.home.1).bind ((reads_u64 h.home.2).bind ((reads_counted (by decide) h.count
      fun p hp => reads_participant (h.participants p hp)).bind_last ?_)))))))
  rw [hstatus, statusOfByte_statusByte, hid]
  refine Reads.ite ?_ (Reads.pure r)
  simp [h.id, h.started]

theorem reads_write {w : Txn.Write} (hkey : w.key.length ≤ maxImageKey)
    (hvalue : w.value.length ≤ maxImageValue) :
    Reads ImageDecoder.write (encodeImageWrite w) w := by
  have hflag : (byteAt [if w.delete = true then 1 else 0] 0 : UInt8) =
      if w.delete = true then 1 else 0 := rfl
  have hsize : ([if w.delete = true then 1 else 0] : Bytes).length = 1 := rfl
  refine (reads_take hsize).bind (Reads.ite ?_ ?_)
  · rw [hflag]
    split <;> decide
  · have hdelete :
        decide (byteAt [if w.delete = true then 1 else 0] 0 = (1 : UInt8)) = w.delete := by
      cases w.delete <;> rfl
    rw [hdelete]
    exact (reads_bytes (by decide) hkey).bind
      ((reads_bytes (by decide) hvalue).bind_last (Reads.pure w))

theorem reads_participantRecord {r : Txn.ParticipantRecord} (h : ParticipantFits r) :
    Reads ImageDecoder.participantRecord (appendParticipantRecord r) r := by
  obtain ⟨hzero, hstatus, hid⟩ := @slice_header r.id (participantStatusByte r.status)
  refine (reads_take (by simp [r.id.size])).bind (Reads.ite (not_not.mpr hzero)
    ((reads_u64 h.readTime).bind ((reads_u64 h.commitTime).bind ((reads_u64 h.epoch).bind
    ((reads_u64 h.home.1).bind ((reads_u64 h.home.2).bind ((reads_bytes (by decide) h.reason).bind
    ((reads_counted (by decide) h.count
      fun w hw => reads_write (h.keys w hw) (h.values w hw)).bind_last ?_))))))))
  rw [hstatus, participantStatusOfByte_byte, hid]
  refine Reads.ite ?_ (Reads.pure r)
  simp [h.id, h.started]

/-- The body of an image within the limits is read back. -/
theorem reads_image {image : Image} (h : image.Fits)
    (hversions : image.versions.length ≤ maxImageVersions)
    (hrecords : image.records.length ≤ maxImageRecords)
    (hparticipants : image.participants.length ≤ maxImageRecords) :
    Reads ImageDecoder.image image.body image := by
  have hmagic : stateSnapshotMagic.length = 4 := rfl
  have hflags : ([image.lifecycle.toByte, 0] : Bytes).length = 2 := rfl
  refine (reads_take hmagic).bind (Reads.ite (not_not.mpr rfl) ?_)
  refine (reads_take (Codec.length_putLE 2 _)).bind (Reads.ite (not_not.mpr rfl) ?_)
  refine (reads_take hflags).bind (Reads.ite (not_not.mpr rfl) ?_)
  refine (reads_u64 h.rangeID).bind ((reads_u64 h.generation).bind ((reads_u64 h.applied).bind
    ((reads_u64 h.maxApplied).bind ((reads_u64 h.safeRead).bind ((reads_u64 h.hlc).bind ?_)))))
  refine (reads_counted (by decide) hversions fun v hv => reads_version (h.versions v hv)).bind ?_
  refine (reads_counted (by decide) hrecords fun r hr => reads_txnRecord (h.records r hr)).bind ?_
  refine (reads_counted (by decide) hparticipants fun r hr =>
    reads_participantRecord (h.participants r hr)).bind_last ?_
  have hlifecycle : Lifecycle.ofByte (byteAt [image.lifecycle.toByte, 0] 0) =
      some image.lifecycle := Lifecycle.ofByte_toByte image.lifecycle
  rw [hlifecycle]
  exact Reads.pure image

theorem length_body (image : Image) : 68 ≤ image.body.length := by
  simp [Image.body, appendList, stateSnapshotMagic]
  omega

/-- An encoded image within the limits is decoded to itself. -/
theorem decodeLogicalState_encode {crc32 : Bytes → ℕ} (hcrc : ∀ b, crc32 b < 2 ^ 32)
    {image : Image} {encoded : Bytes} (h : image.Fits) (happlied : image.applied ≠ 0)
    (hencode : encodeLogicalState crc32 image = .ok encoded) :
    decodeLogicalState crc32 encoded = .ok image := by
  unfold encodeLogicalState at hencode
  split_ifs at hencode with hcounts
  cases hencode
  simp only [not_or, not_lt] at hcounts
  obtain ⟨hrange, hgeneration, hversions, hrecords, hparticipants⟩ := hcounts
  have hlength : (image.body ++ putLE 4 (crc32 image.body)).length = image.body.length + 4 := by
    simp
  have hbody := length_body image
  have hread := reads_image h hversions hrecords hparticipants []
  rw [List.append_nil] at hread
  unfold decodeLogicalState
  rw [hlength, Nat.add_sub_cancel, List.take_left, List.drop_left,
    Codec.getLE_putLE_of_lt (show crc32 image.body < 256 ^ 4 from hcrc _),
    if_neg (by omega), if_neg (not_not.mpr rfl), hread]
  simp [hrange, hgeneration, happlied]

/-! ### What is accepted -/

namespace ImageDecoder

theorem yields_u64 : Yields u64 (· < 2 ^ 64) := Yields.uint 8

theorem yields_counted {α : Type} {limit : ℕ} {x : ImageDecoder α} {P : α → Prop}
    (h : Yields x P) : Yields (counted limit x) fun l => l.length ≤ limit ∧ ∀ a ∈ l, P a := by
  refine (Yields.uint 4).bind fun n _ => .ite (fun _ => .throw _) fun hn => ?_
  intro data l rest hrun
  obtain ⟨hlength, hall⟩ := h.many n data l rest hrun
  exact ⟨hlength.trans_le (not_lt.mp hn), hall⟩

theorem yields_version : Yields version VersionFits := by
  refine (Yields.bytes _).bind fun key hkey => (Yields.bytes _).bind fun value hvalue =>
    yields_u64.bind fun timestamp htimestamp => (Yields.take 4).bind fun kind _ => ?_
  refine .ite (fun _ => .throw _) fun _ => ?_
  rcases Storage.Kind.ofByte (byteAt kind 0) with - | k
  · exact .throw _
  · exact .pure ⟨hkey, hvalue, htimestamp⟩

theorem yields_participant : Yields participant Txn.Participant.Fits :=
  yields_u64.bind fun _ hrange => yields_u64.bind fun _ hgeneration => .pure ⟨hrange, hgeneration⟩

theorem yields_txnRecord : Yields txnRecord RecordFits := by
  refine (Yields.take 20).bind fun header _ => .ite (fun _ => .throw _) fun _ => ?_
  refine yields_u64.bind fun readTime hread => yields_u64.bind fun commitTime hcommit =>
    yields_u64.bind fun epoch hepoch => yields_u64.bind fun rangeID hrange =>
    yields_u64.bind fun generation hgeneration =>
    (yields_counted yields_participant).bind fun participants hparticipants => ?_
  rcases statusOfByte (byteAt header 16) with - | status
  · exact .throw _
  refine .ite (fun _ => .throw _) fun hvalid => .pure ?_
  rw [not_or] at hvalid
  exact ⟨by simpa using hvalid.1, hread, hcommit, hepoch, hvalid.2, ⟨hrange, hgeneration⟩,
    hparticipants.1, hparticipants.2⟩

theorem yields_write :
    Yields write fun w => w.key.length ≤ maxImageKey ∧ w.value.length ≤ maxImageValue :=
  (Yields.take 1).bind fun _ _ => .ite (fun _ => .throw _) fun _ =>
    (Yields.bytes _).bind fun _ hkey => (Yields.bytes _).bind fun _ hvalue => .pure ⟨hkey, hvalue⟩

theorem yields_participantRecord : Yields participantRecord ParticipantFits := by
  refine (Yields.take 20).bind fun header _ => .ite (fun _ => .throw _) fun _ => ?_
  refine yields_u64.bind fun readTime hread => yields_u64.bind fun commitTime hcommit =>
    yields_u64.bind fun epoch hepoch => yields_u64.bind fun rangeID hrange =>
    yields_u64.bind fun generation hgeneration => (Yields.bytes _).bind fun reason hreason =>
    (yields_counted yields_write).bind fun writes hwrites => ?_
  rcases participantStatusOfByte (byteAt header 16) with - | status
  · exact .throw _
  refine .ite (fun _ => .throw _) fun hvalid => .pure ?_
  rw [not_or] at hvalid
  exact ⟨by simpa using hvalid.1, hread, hcommit, hepoch, hvalid.2, ⟨hrange, hgeneration⟩,
    hreason, hwrites.1, fun w hw => (hwrites.2 w hw).1, fun w hw => (hwrites.2 w hw).2⟩

theorem yields_image : Yields image Image.Fits := by
  refine (Yields.take 4).bind fun _ _ => .ite (fun _ => .throw _) fun _ =>
    (Yields.take 2).bind fun _ _ => .ite (fun _ => .throw _) fun _ =>
    (Yields.take 2).bind fun flags _ => .ite (fun _ => .throw _) fun _ => ?_
  refine yields_u64.bind fun rangeID hrange => yields_u64.bind fun generation hgeneration =>
    yields_u64.bind fun applied happlied => yields_u64.bind fun maxApplied hmax =>
    yields_u64.bind fun safeRead hsafe => yields_u64.bind fun hlc hhlc =>
    (yields_counted yields_version).bind fun versions hversions =>
    (yields_counted yields_txnRecord).bind fun records hrecords =>
    (yields_counted yields_participantRecord).bind fun participants hparticipants => ?_
  rcases Lifecycle.ofByte (byteAt flags 0) with - | lifecycle
  · exact .throw _
  · exact .pure ⟨hrange, hgeneration, happlied, hmax, hsafe, hhlc, hversions.2, hrecords.2,
      hparticipants.2⟩

end ImageDecoder

/-- An accepted image is within the limits. -/
theorem decodeLogicalState_fits {crc32 : Bytes → ℕ} {encoded : Bytes} {image : Image}
    (h : decodeLogicalState crc32 encoded = .ok image) : image.Fits := by
  unfold decodeLogicalState at h
  split_ifs at h
  split at h
  · cases h
  rename_i result rest hrun
  split at h
  · cases h
  · cases h
    exact ImageDecoder.yields_image _ _ _ hrun

end RivetDB.Range
