import RivetDB.Codec.Decoder
import RivetDB.Storage.Manifest
import RivetDB.Wal.Log

/-!
# Version edits and their encoding

`manifest/edit.go`: the metadata of a table, the edit that leads from one version to the next,
and the format in which edits are stored.  A field of an edit is a tag, a length and a payload;
the deleted and the added files are written in the order of their level and number.  The
numbers have the widths of the source, so every edit that passes `validateEditShape` can be
written down.

What is decoded is the edit with its files in that order, which is `VersionEdit.canonical`.
-/

namespace RivetDB.Manifest

open Decoder List Fallible Codec
open Codec (slice byteAt putLE getLE putBE getBE)
open Storage (Kind Mode InternalKey compareInternal internalKeyTrailerLen maxUserKeySize
  maxFileNumber maxLevels maxChangesPerEdit maxUint32)
open scoped ByteOrder

/-- The errors of the manifest, and of internal keys. -/
inductive Error where
  | invalidEdit
  | invalidLevel
  | manifestCorrupt
  | unsupportedVersion
  | comparatorMismatch
  | modeMismatch
  | fileNumberCollision
  | sequenceRegression
  | unknownFile
  | duplicateFile
  | overlappingLevel
  | frontierRegression
  | frontierGap
  | replicatedFrontierGap
  | invalidOptions
  | staleVersion
  | internalKeyTooShort
  | invalidValueKind (kind : UInt8)
  | wal (cause : Wal.Error)
  | join (left right : Error)
  | wrap (text : String) (cause : Error)
deriving DecidableEq, Repr

/-! ### Internal keys -/

/-- `DecodeInternalKey`. -/
def decodeInternalKey (encoded : Bytes) : Except Error InternalKey :=
  if encoded.length < internalKeyTrailerLen then .error .internalKeyTooShort
  else
    let trailer := encoded.length - internalKeyTrailerLen
    match Kind.ofByte (byteAt encoded (encoded.length - 1)) with
    | none => .error (.invalidValueKind (byteAt encoded (encoded.length - 1)))
    | some kind =>
      .ok {
        userKey := slice encoded 0 trailer
        sequence := ~~~(getBE (slice encoded trailer (trailer + 8))).toUInt64
        kind := kind }

theorem decodeInternalKey_encode (k : InternalKey) : decodeInternalKey k.encode = .ok k := by
  have hkey : slice k.encode 0 k.userKey.length = k.userKey :=
    slice_append_front rfl
  have hsequence : slice k.encode k.userKey.length (k.userKey.length + 8) =
      putBE 8 (~~~k.sequence).toNat := by
    unfold InternalKey.encode
    rw [slice_append_behind le_rfl, Nat.sub_self, Nat.add_sub_cancel_left,
      slice_append_front (length_putBE 8 _)]
  have hkind : byteAt k.encode (k.userKey.length + 8) = k.kind.toByte := by
    unfold byteAt InternalKey.encode
    simp [slice, Nat.add_assoc]
  unfold decodeInternalKey
  rw [if_neg (by simp)]
  dsimp only
  rw [InternalKey.length_encode, Nat.add_sub_cancel, hkey, hsequence, Nat.add_sub_assoc (by decide),
    show internalKeyTrailerLen - 1 = 8 from rfl, hkind, Kind.ofByte_toByte,
    getBE_putBE_of_lt (show _ < 256 ^ 8 from UInt64.toNat_lt _)]
  simp only [Nat.toUInt64, UInt64.ofNat_toNat, UInt64.not_not]

/-! ### Tables -/

/-- `TableMetadata`. -/
structure TableMetadata where
  level : UInt32
  fileNumber : UInt64
  flushGeneration : UInt64
  fileSize : UInt64
  entryCount : UInt64
  deletionCount : UInt64
  rawKeyValueBytes : UInt64
  dataBlockCount : UInt32
  smallestSequence : UInt64
  largestSequence : UInt64
  smallestInternal : InternalKey := {}
  largestInternal : InternalKey := {}
  smallestUser : Bytes
  largestUser : Bytes
deriving DecidableEq, Repr

/-- `sstable.FooterSize`. -/
def footerSize : UInt64 := 80

/-- `sstable.MaxInternalKeySize`. -/
def maxInternalKeySize : ℕ := maxUserKeySize + 9

def validateTable (t : TableMetadata) : Except Error Unit :=
  if t.level.toNat ≥ maxLevels then .error (.join .invalidEdit .invalidLevel)
  else if t.fileNumber = 0 ∨ t.fileNumber.toNat > maxFileNumber ∨ t.fileSize < footerSize ∨
      t.entryCount = 0 ∨ t.dataBlockCount = 0 ∨ t.deletionCount > t.entryCount ∨
      t.smallestSequence > t.largestSequence then .error .invalidEdit
  else if t.smallestUser.length > maxUserKeySize ∨ t.largestUser.length > maxUserKeySize ∨
      t.smallestInternal.userKey ≠ t.smallestUser ∨ t.largestInternal.userKey ≠ t.largestUser ∨
      compareInternal t.smallestInternal t.largestInternal = .gt ∨
      t.largestUser < t.smallestUser then
    .error .invalidEdit
  else .ok ()

/-- A byte string behind its length. -/
def framed (part : Bytes) : Bytes := putLE 4 part.length ++ part

/-- The numbers of a table, as `encodeTable` writes them. -/
def tableNumbers (t : TableMetadata) : Bytes :=
  putLE 4 t.level.toNat ++ (putLE 8 t.fileNumber.toNat ++ (putLE 8 t.flushGeneration.toNat ++
    (putLE 8 t.fileSize.toNat ++ (putLE 8 t.entryCount.toNat ++ (putLE 8 t.deletionCount.toNat ++
    (putLE 8 t.rawKeyValueBytes.toNat ++ (putLE 4 t.dataBlockCount.toNat ++
    (putLE 8 t.smallestSequence.toNat ++ putLE 8 t.largestSequence.toNat))))))))

/-- The keys of a table, as `encodeTable` writes them. -/
def tableKeys (t : TableMetadata) : List Bytes :=
  [t.smallestInternal.encode, t.largestInternal.encode, t.smallestUser, t.largestUser]

def encodeTable (t : TableMetadata) : Except Error Bytes := do
  validateTable t
  if (tableKeys t).any (·.length > maxUint32) then .error .invalidEdit
  else return tableNumbers t ++ (tableKeys t).flatMap framed

/-- The fields of a table: everything but the internal keys, which are still encoded. -/
def tableFields : Decoder Error (TableMetadata × Bytes × Bytes) := do
  let level ← uint .invalidEdit 4
  let fileNumber ← uint .invalidEdit 8
  let flushGeneration ← uint .invalidEdit 8
  let fileSize ← uint .invalidEdit 8
  let entryCount ← uint .invalidEdit 8
  let deletionCount ← uint .invalidEdit 8
  let rawKeyValueBytes ← uint .invalidEdit 8
  let dataBlockCount ← uint .invalidEdit 4
  let smallestSequence ← uint .invalidEdit 8
  let largestSequence ← uint .invalidEdit 8
  let smallestInternal ← bytes .invalidEdit maxUint32
  let largestInternal ← bytes .invalidEdit maxUint32
  let smallestUser ← bytes .invalidEdit maxUint32
  let largestUser ← bytes .invalidEdit maxUint32
  return ({
    level := level.toUInt32
    fileNumber := fileNumber.toUInt64
    flushGeneration := flushGeneration.toUInt64
    fileSize := fileSize.toUInt64
    entryCount := entryCount.toUInt64
    deletionCount := deletionCount.toUInt64
    rawKeyValueBytes := rawKeyValueBytes.toUInt64
    dataBlockCount := dataBlockCount.toUInt32
    smallestSequence := smallestSequence.toUInt64
    largestSequence := largestSequence.toUInt64
    smallestUser := smallestUser
    largestUser := largestUser }, smallestInternal, largestInternal)

/-- The internal keys of a decoded table, and its validation. -/
def finishTable (t : TableMetadata) (smallest largest : Bytes) : Except Error TableMetadata :=
  if smallest.length > maxInternalKeySize ∨ largest.length > maxInternalKeySize ∨
      t.smallestUser.length > maxUserKeySize ∨ t.largestUser.length > maxUserKeySize then
    .error .invalidEdit
  else do
    let smallest ← (decodeInternalKey smallest).mapError (.wrap "decode smallest internal key")
    let largest ← (decodeInternalKey largest).mapError (.wrap "decode largest internal key")
    let t := { t with smallestInternal := smallest, largestInternal := largest }
    validateTable t
    return t

def decodeTable (payload : Bytes) : Except Error TableMetadata :=
  if payload.length < 4 + 6 * 8 + 4 + 2 * 8 + 4 * 4 then .error .invalidEdit
  else do
    let ((t, smallest, largest), rest) ← tableFields.run payload
    if rest ≠ [] then .error .invalidEdit else finishTable t smallest largest

/-- What `validateTable` accepts. -/
structure TableMetadata.Valid (t : TableMetadata) : Prop where
  level : t.level.toNat < maxLevels
  fileNumber : t.fileNumber ≠ 0 ∧ t.fileNumber.toNat ≤ maxFileNumber
  smallestUser : t.smallestUser.length ≤ maxUserKeySize
  largestUser : t.largestUser.length ≤ maxUserKeySize
  smallestInternal : t.smallestInternal.userKey = t.smallestUser
  largestInternal : t.largestInternal.userKey = t.largestUser
  ordered : t.smallestUser ≤ t.largestUser

variable {t : TableMetadata}

theorem valid_of_validateTable (h : validateTable t = .ok ()) : t.Valid := by
  unfold validateTable at h
  split_ifs at h with hlevel hnumbers hkeys
  push Not at hlevel hnumbers hkeys
  exact ⟨hlevel, ⟨hnumbers.1, hnumbers.2.1⟩, hkeys.1, hkeys.2.1, hkeys.2.2.1, hkeys.2.2.2.1,
    hkeys.2.2.2.2.2⟩

theorem decodeTable_encodeTable {payload : Bytes}
    (h : encodeTable t = .ok payload) : decodeTable payload = .ok t := by
  obtain ⟨⟨⟩, hvalidate, hparts⟩ := bind_eq_ok.mp h
  have hvalid := valid_of_validateTable hvalidate
  split_ifs at hparts with hlong
  cases hparts
  have hlengths : ∀ part ∈ tableKeys t, part.length ≤ maxUint32 := by
    simpa using hlong
  have hpart : ∀ part ∈ tableKeys t, Reads (bytes Error.invalidEdit maxUint32) (framed part) part :=
    fun part hmem => Reads.bytes (by decide) (hlengths part hmem)
  have hfields : Reads tableFields (tableNumbers t ++ (tableKeys t).flatMap framed)
      ({ t with smallestInternal := {}, largestInternal := {} }, t.smallestInternal.encode,
        t.largestInternal.encode) := by
    have hkeys : (tableKeys t).flatMap framed = framed t.smallestInternal.encode ++
        (framed t.largestInternal.encode ++ (framed t.smallestUser ++ framed t.largestUser)) := by
      simp [tableKeys]
    rw [hkeys]
    unfold tableNumbers
    simp only [append_assoc]
    refine .bind (.uint (UInt32.toNat_lt _)) ?_
    refine .bind (.uint (UInt64.toNat_lt _)) ?_
    refine .bind (.uint (UInt64.toNat_lt _)) ?_
    refine .bind (.uint (UInt64.toNat_lt _)) ?_
    refine .bind (.uint (UInt64.toNat_lt _)) ?_
    refine .bind (.uint (UInt64.toNat_lt _)) ?_
    refine .bind (.uint (UInt64.toNat_lt _)) ?_
    refine .bind (.uint (UInt32.toNat_lt _)) ?_
    refine .bind (.uint (UInt64.toNat_lt _)) ?_
    refine .bind (.uint (UInt64.toNat_lt _)) ?_
    refine .bind (hpart _ (by simp [tableKeys])) ?_
    refine .bind (hpart _ (by simp [tableKeys])) ?_
    refine .bind (hpart _ (by simp [tableKeys])) ?_
    refine .bind_last (hpart _ (by simp [tableKeys])) ?_
    simp only [Nat.toUInt32, Nat.toUInt64, UInt32.ofNat_toNat, UInt64.ofNat_toNat]
    exact .pure _
  have hrun := hfields []
  rw [append_nil] at hrun
  unfold decodeTable
  rw [if_neg (by simp [tableNumbers, tableKeys, framed]; omega), hrun, ok_bind]
  dsimp only
  have hsize : ∀ k : InternalKey, k.userKey.length ≤ maxUserKeySize →
      k.encode.length ≤ maxInternalKeySize := fun k hk => by
    rw [InternalKey.length_encode]
    exact Nat.add_le_add_right hk 9
  have hsmallest := hsize _ (hvalid.smallestInternal ▸ hvalid.smallestUser)
  have hlargest := hsize _ (hvalid.largestInternal ▸ hvalid.largestUser)
  unfold finishTable
  rw [if_neg (not_or.mpr ⟨not_lt.mpr hsmallest, not_or.mpr ⟨not_lt.mpr hlargest,
    not_or.mpr ⟨not_lt.mpr hvalid.smallestUser, not_lt.mpr hvalid.largestUser⟩⟩⟩)]
  rw [decodeInternalKey_encode, decodeInternalKey_encode]
  show (validateTable t >>= fun _ => pure t) = _
  rw [hvalidate]
  rfl

/-! ### Edits -/

structure DeletedFile where
  level : UInt32
  fileNumber : UInt64
deriving DecidableEq, Repr

/-- A `VersionEdit`; the storage mode is the byte of the source. -/
structure VersionEdit where
  comparator : Option Bytes := none
  nextFileNumber : Option UInt64 := none
  lastSequence : Option UInt64 := none
  replayFrontier : Option UInt64 := none
  storageMode : Option UInt8 := none
  replicatedAppliedThrough : Option UInt64 := none
  maxAppliedMVCC : Option UInt64 := none
  deletedFiles : List DeletedFile := []
  addedFiles : List TableMetadata := []
deriving DecidableEq, Repr

/-- The storage modes that have a name. -/
def Mode.ofByte : UInt8 → Option Mode
  | 1 => some .standalone
  | 2 => some .replicated
  | 3 => some .replicatedMVCC
  | _ => none

/-- The loop of `validateEditShape` over the deleted files; `seen` are the file numbers so far. -/
def checkDeleted (seen : List UInt64) : List DeletedFile → Except Error (List UInt64)
  | [] => .ok seen
  | d :: rest =>
    if d.level.toNat ≥ maxLevels ∨ d.fileNumber = 0 ∨ d.fileNumber.toNat > maxFileNumber then
      .error .invalidEdit
    else if d.fileNumber ∈ seen then .error .invalidEdit
    else checkDeleted (d.fileNumber :: seen) rest

/-- The loop of `validateEditShape` over the added files. -/
def checkAdded (seen : List UInt64) : List TableMetadata → Except Error Unit
  | [] => .ok ()
  | t :: rest => do
      validateTable t
      if t.fileNumber ∈ seen then .error .invalidEdit else checkAdded (t.fileNumber :: seen) rest

def validateEditShape (edit : VersionEdit) : Except Error Unit :=
  if edit.comparator = none ∧ edit.nextFileNumber = none ∧ edit.lastSequence = none ∧
      edit.replayFrontier = none ∧ edit.storageMode = none ∧
      edit.replicatedAppliedThrough = none ∧ edit.maxAppliedMVCC = none ∧
      edit.addedFiles = [] ∧ edit.deletedFiles = [] then .error .invalidEdit
  else if edit.addedFiles.length > maxChangesPerEdit ∨
      edit.deletedFiles.length > maxChangesPerEdit then .error .invalidEdit
  else if edit.storageMode.any (fun mode => (Mode.ofByte mode).isNone) ∨
      (edit.replayFrontier.isSome ∧ edit.replicatedAppliedThrough.isSome) ∨
      (edit.maxAppliedMVCC.isSome ∧ edit.replicatedAppliedThrough.isNone) then .error .invalidEdit
  else if edit.comparator.any (fun name => name.length = 0 || name.length > 128) then
    .error .invalidEdit
  else do
    let seen ← checkDeleted [] edit.deletedFiles
    checkAdded seen edit.addedFiles

/-- The tags of the format. -/
inductive Field where
  | comparator
  | nextFile
  | lastSequence
  | replayFrontier
  | deleteFile
  | addFile
  | storageMode
  | replicatedFrontier
  | maxAppliedMVCC
deriving DecidableEq, Repr

namespace Field

def toByte : Field → UInt8
  | comparator => 1
  | nextFile => 2
  | lastSequence => 3
  | replayFrontier => 4
  | deleteFile => 5
  | addFile => 6
  | storageMode => 7
  | replicatedFrontier => 8
  | maxAppliedMVCC => 0x81

def ofByte : UInt8 → Option Field
  | 1 => some comparator
  | 2 => some nextFile
  | 3 => some lastSequence
  | 4 => some replayFrontier
  | 5 => some deleteFile
  | 6 => some addFile
  | 7 => some storageMode
  | 8 => some replicatedFrontier
  | 0x81 => some maxAppliedMVCC
  | _ => none

end Field

/-- The order of `compareDeleted` and `compareTableIdentity`. -/
def identityLe (level level' : UInt32) (number number' : UInt64) : Prop :=
  level < level' ∨ level = level' ∧ number ≤ number'

instance (level level' : UInt32) (number number' : UInt64) :
    Decidable (identityLe level level' number number') :=
  inferInstanceAs (Decidable (_ ∨ _))

/-- The edit with its files in the order in which they are stored. -/
def VersionEdit.canonical (edit : VersionEdit) : VersionEdit :=
  { edit with
    deletedFiles := edit.deletedFiles.insertionSort
      fun d d' => identityLe d.level d'.level d.fileNumber d'.fileNumber
    addedFiles := edit.addedFiles.insertionSort
      fun t t' => identityLe t.level t'.level t.fileNumber t'.fileNumber }

/-- A field whose payload is an integer of eight bytes. -/
def uint64Field (field : Field) (value : UInt64) : Field × Bytes := (field, putLE 8 value.toNat)

def scalarFields (edit : VersionEdit) : List (Field × Bytes) :=
  edit.comparator.toList.map (fun name => (.comparator, name)) ++
    (edit.nextFileNumber.toList.map (uint64Field .nextFile) ++
    (edit.lastSequence.toList.map (uint64Field .lastSequence) ++
    (edit.replayFrontier.toList.map (uint64Field .replayFrontier) ++
    (edit.storageMode.toList.map (fun mode => (.storageMode, [mode])) ++
    (edit.replicatedAppliedThrough.toList.map (uint64Field .replicatedFrontier) ++
    edit.maxAppliedMVCC.toList.map (uint64Field .maxAppliedMVCC))))))

def deletedField (d : DeletedFile) : Field × Bytes :=
  (.deleteFile, putLE 4 d.level.toNat ++ putLE 8 d.fileNumber.toNat)

def addedField (t : TableMetadata) : Except Error (Field × Bytes) := do
  let payload ← encodeTable t
  return (.addFile, payload)

def maxEditSize : ℕ := 16 <<< 20

def editMagic : ℕ := 0x44455652

def editVersion : ℕ := 1

def editHeaderSize : ℕ := 8

def fieldHeaderSize : ℕ := 5

/-- One field behind what is already encoded. -/
def appendField (result : Bytes) (entry : Field × Bytes) : Except Error Bytes :=
  if entry.2.length > maxUint32 ∨
      result.length + fieldHeaderSize + entry.2.length > maxEditSize then
    .error .invalidEdit
  else .ok (result ++ (entry.1.toByte :: framed entry.2))

def encodeVersionEdit (edit : VersionEdit) : Except Error Bytes := do
  validateEditShape edit
  let additions ← edit.canonical.addedFiles.mapM addedField
  let fields := scalarFields edit ++ (edit.canonical.deletedFiles.map deletedField ++ additions)
  if fields.length > 2 ^ 16 - 1 then .error .invalidEdit
  else
    fields.foldlM appendField (putLE 4 editMagic ++ (putLE 2 editVersion ++ putLE 2 fields.length))

/-- The state of the loop in `DecodeVersionEdit`. -/
structure Decoding where
  edit : VersionEdit := {}
  seenScalar : List Field := []
  seenFiles : List UInt64 := []

namespace Decoding

/-- The edit with one of its integers set. -/
def setScalar (edit : VersionEdit) (value : UInt64) : Field → VersionEdit
  | .nextFile => { edit with nextFileNumber := some value }
  | .lastSequence => { edit with lastSequence := some value }
  | .replayFrontier => { edit with replayFrontier := some value }
  | .replicatedFrontier => { edit with replicatedAppliedThrough := some value }
  | .maxAppliedMVCC => { edit with maxAppliedMVCC := some value }
  | _ => edit

def acceptComparator (d : Decoding) (payload : Bytes) : Except Error Decoding :=
  if .comparator ∈ d.seenScalar ∨ payload.length = 0 ∨ payload.length > 128 then .error .invalidEdit
  else .ok { d with
    edit := { d.edit with comparator := some payload }
    seenScalar := .comparator :: d.seenScalar }

def acceptScalar (d : Decoding) (field : Field) (payload : Bytes) : Except Error Decoding :=
  if field ∈ d.seenScalar ∨ payload.length ≠ 8 then .error .invalidEdit
  else .ok { d with
    edit := setScalar d.edit (getLE payload).toUInt64 field
    seenScalar := field :: d.seenScalar }

def acceptMode (d : Decoding) (payload : Bytes) : Except Error Decoding :=
  if .storageMode ∈ d.seenScalar ∨ payload.length ≠ 1 then .error .invalidEdit
  else .ok { d with
    edit := { d.edit with storageMode := some (byteAt payload 0) }
    seenScalar := .storageMode :: d.seenScalar }

def acceptDeleted (d : Decoding) (payload : Bytes) : Except Error Decoding :=
  if payload.length ≠ 12 ∨ d.edit.deletedFiles.length ≥ maxChangesPerEdit then .error .invalidEdit
  else
    let deleted : DeletedFile :=
      ⟨(getLE (slice payload 0 4)).toUInt32, (getLE (slice payload 4 12)).toUInt64⟩
    if deleted.fileNumber ∈ d.seenFiles then .error .invalidEdit
    else .ok { d with
      edit := { d.edit with deletedFiles := d.edit.deletedFiles ++ [deleted] }
      seenFiles := deleted.fileNumber :: d.seenFiles }

def acceptAdded (d : Decoding) (payload : Bytes) : Except Error Decoding :=
  if d.edit.addedFiles.length ≥ maxChangesPerEdit then .error .invalidEdit
  else
    match decodeTable payload with
    | .error err => .error (.join .invalidEdit err)
    | .ok t =>
      if t.fileNumber ∈ d.seenFiles then .error .invalidEdit
      else .ok { d with
        edit := { d.edit with addedFiles := d.edit.addedFiles ++ [t] }
        seenFiles := t.fileNumber :: d.seenFiles }

/-- One round of the loop.  An unknown tag is skipped when its highest bit is set. -/
def acceptField (d : Decoding) (tag : UInt8) (payload : Bytes) : Except Error Decoding :=
  match Field.ofByte tag with
  | some .comparator => d.acceptComparator payload
  | some .storageMode => d.acceptMode payload
  | some .deleteFile => d.acceptDeleted payload
  | some .addFile => d.acceptAdded payload
  | some field => d.acceptScalar field payload
  | none => if tag &&& 0x80 = 0 then .error .unsupportedVersion else .ok d

/-- The loop of `DecodeVersionEdit`. -/
def fields : ℕ → Decoding → Decoder Error Decoding
  | 0, d => pure d
  | n + 1, d => do
      let tag ← take .invalidEdit 1
      let payload ← bytes .invalidEdit maxUint32
      let d ← StateT.lift (d.acceptField (byteAt tag 0) payload)
      fields n d

end Decoding

def decodeVersionEdit (encoded : Bytes) : Except Error VersionEdit :=
  if encoded.length < editHeaderSize ∨ encoded.length > maxEditSize then .error .invalidEdit
  else if getLE (slice encoded 0 4) ≠ editMagic then .error (.join .invalidEdit .manifestCorrupt)
  else if getLE (slice encoded 4 6) ≠ editVersion then .error .unsupportedVersion
  else do
    let (d, rest) ← (Decoding.fields (getLE (slice encoded 6 8)) {}).run
      (encoded.drop editHeaderSize)
    if rest ≠ [] then .error .invalidEdit
    else
      validateEditShape d.edit
      return d.edit

/-! ### What an edit may contain -/

/-- The files of an edit that passes `validateEditShape`. -/
structure VersionEdit.Shaped (edit : VersionEdit) : Prop where
  added_length : edit.addedFiles.length ≤ maxChangesPerEdit
  deleted_length : edit.deletedFiles.length ≤ maxChangesPerEdit
  comparator : ∀ name ∈ edit.comparator, name.length ≠ 0 ∧ name.length ≤ 128
  deleted : ∀ d ∈ edit.deletedFiles, d.level.toNat < maxLevels
  added : ∀ t ∈ edit.addedFiles, validateTable t = .ok ()
  numbers : (edit.deletedFiles.map (·.fileNumber) ++ edit.addedFiles.map (·.fileNumber)).Nodup

variable {ds : List DeletedFile}

theorem checkDeleted_eq_ok {seen seen' : List UInt64} :
    checkDeleted seen ds = .ok seen' ↔
      (∀ d ∈ ds, d.level.toNat < maxLevels ∧ d.fileNumber ≠ 0 ∧
        d.fileNumber.toNat ≤ maxFileNumber) ∧
        (ds.map (·.fileNumber)).Nodup ∧ (∀ d ∈ ds, d.fileNumber ∉ seen) ∧
        seen' = (ds.map (·.fileNumber)).reverse ++ seen := by
  induction ds generalizing seen with
  | nil => simp [checkDeleted, eq_comm]
  | cons d rest ih =>
    rw [checkDeleted]
    split_ifs with hbad hseen
    · refine ⟨nofun, fun h => ?_⟩
      obtain ⟨hlevel, hzero, hnumber⟩ := h.1 d mem_cons_self
      rcases hbad with hbad | hbad | hbad
      · omega
      · exact absurd hbad hzero
      · omega
    · exact ⟨nofun, fun h => absurd hseen (h.2.2.1 d mem_cons_self)⟩
    · push Not at hbad
      simp only [ih, forall_mem_cons, map_cons, nodup_cons, reverse_cons,
        append_assoc, singleton_append, mem_map, not_exists, not_and]
      simp only [mem_cons, not_or]
      constructor
      · rintro ⟨hvalid, hnodup, hfresh, rfl⟩
        exact ⟨⟨hbad, hvalid⟩, ⟨fun x hx => (hfresh x hx).1, hnodup⟩,
          ⟨hseen, fun x hx => (hfresh x hx).2⟩, rfl⟩
      · rintro ⟨⟨-, hvalid⟩, ⟨hne, hnodup⟩, ⟨-, hfresh⟩, rfl⟩
        exact ⟨hvalid, hnodup, fun x hx => ⟨hne x hx, hfresh x hx⟩, rfl⟩

variable {ts : List TableMetadata}

theorem checkAdded_eq_ok {seen : List UInt64} :
    checkAdded seen ts = .ok () ↔
      (∀ t ∈ ts, validateTable t = .ok ()) ∧ (ts.map (·.fileNumber)).Nodup ∧
        ∀ t ∈ ts, t.fileNumber ∉ seen := by
  induction ts generalizing seen with
  | nil => simp [checkAdded]
  | cons t rest ih =>
    rw [checkAdded, bind_eq_ok]
    simp only [forall_mem_cons, map_cons, nodup_cons, mem_map, not_exists, not_and]
    constructor
    · rintro ⟨⟨⟩, hvalid, hrest⟩
      split_ifs at hrest with hseen
      obtain ⟨hvalids, hnodup, hfresh⟩ := ih.mp hrest
      simp only [mem_cons, not_or] at hfresh
      exact ⟨⟨hvalid, hvalids⟩, ⟨fun x hx => (hfresh x hx).1, hnodup⟩, hseen,
        fun x hx => (hfresh x hx).2⟩
    · rintro ⟨⟨hvalid, hvalids⟩, ⟨hne, hnodup⟩, hseen, hfresh⟩
      refine ⟨(), hvalid, ?_⟩
      rw [if_neg hseen, ih]
      refine ⟨hvalids, hnodup, fun x hx => ?_⟩
      simp only [mem_cons, not_or]
      exact ⟨hne x hx, hfresh x hx⟩

theorem validateEditShape_files {edit : VersionEdit} :
    (checkDeleted [] edit.deletedFiles >>= fun seen => checkAdded seen edit.addedFiles) = .ok () ↔
      (∀ d ∈ edit.deletedFiles,
        d.level.toNat < maxLevels ∧ d.fileNumber ≠ 0 ∧ d.fileNumber.toNat ≤ maxFileNumber) ∧
      (∀ t ∈ edit.addedFiles, validateTable t = .ok ()) ∧
      (edit.deletedFiles.map (·.fileNumber) ++ edit.addedFiles.map (·.fileNumber)).Nodup := by
  rw [bind_eq_ok]
  simp only [checkDeleted_eq_ok, checkAdded_eq_ok, not_mem_nil, not_false_eq_true,
    implies_true, true_and, append_nil, nodup_append]
  constructor
  · rintro ⟨seen, ⟨hdeleted, hnodup, rfl⟩, hadded, hnodup', hfresh⟩
    refine ⟨hdeleted, hadded, hnodup, hnodup', fun n hn n' hn' heq => ?_⟩
    obtain ⟨t, ht, rfl⟩ := mem_map.mp hn'
    exact hfresh t ht (mem_reverse.mpr (heq ▸ hn))
  · rintro ⟨hdeleted, hadded, hnodup, hnodup', hdisjoint⟩
    refine ⟨_, ⟨hdeleted, hnodup, rfl⟩, hadded, hnodup', fun t ht hmem => ?_⟩
    exact hdisjoint _ (mem_reverse.mp hmem) _ (mem_map_of_mem ht) rfl

variable {edit : VersionEdit}

theorem shaped_of_validateEditShape (h : validateEditShape edit = .ok ()) :
    edit.Shaped := by
  unfold validateEditShape at h
  split_ifs at h with hempty hsizes hmodes hcomparator
  obtain ⟨hdeleted, hadded, hnumbers⟩ := validateEditShape_files.mp h
  push Not at hsizes
  refine ⟨hsizes.1, hsizes.2, fun name hname => ?_, fun d hd => (hdeleted d hd).1, hadded, hnumbers⟩
  rw [Option.mem_def.mp hname] at hcomparator
  simpa using hcomparator

theorem canonical_perm (edit : VersionEdit) :
    edit.canonical.deletedFiles.Perm edit.deletedFiles ∧
      edit.canonical.addedFiles.Perm edit.addedFiles :=
  ⟨perm_insertionSort _ _, perm_insertionSort _ _⟩

/-- The order of the files does not matter to `validateEditShape`. -/
theorem validateEditShape_perm (hdeletions : ds.Perm edit.deletedFiles)
    (hadditions : ts.Perm edit.addedFiles) (h : validateEditShape edit = .ok ()) :
    validateEditShape { edit with deletedFiles := ds, addedFiles := ts } = .ok () := by
  unfold validateEditShape at h ⊢
  split_ifs at h with hempty hsizes hmodes hcomparator
  obtain ⟨hdeleted, hadded, hnumbers⟩ := validateEditShape_files.mp h
  have hadditions_nil : ts = [] ↔ edit.addedFiles = [] :=
    ⟨fun hnil => (hnil ▸ hadditions.symm).eq_nil, fun hnil => (hnil ▸ hadditions).eq_nil⟩
  have hdeletions_nil : ds = [] ↔ edit.deletedFiles = [] :=
    ⟨fun hnil => (hnil ▸ hdeletions.symm).eq_nil, fun hnil => (hnil ▸ hdeletions).eq_nil⟩
  simp only [hadditions_nil, hdeletions_nil, hadditions.length_eq, hdeletions.length_eq]
  rw [if_neg hempty, if_neg hsizes, if_neg hmodes, if_neg hcomparator]
  refine (@validateEditShape_files { edit with deletedFiles := ds, addedFiles := ts }).mpr ?_
  exact ⟨fun d hd => hdeleted d (hdeletions.mem_iff.mp hd),
    fun t ht => hadded t (hadditions.mem_iff.mp ht),
    ((hdeletions.map _).append (hadditions.map _)).nodup_iff.mpr hnumbers⟩

/-! ### Reading an edit back -/

namespace Decoding

/-- The loop body, on a field as it is written. -/
def accept (d : Decoding) (entry : Field × Bytes) : Except Error Decoding :=
  d.acceptField entry.1.toByte entry.2

/-- A field as it is written. -/
def encodeField (entry : Field × Bytes) : Bytes := entry.1.toByte :: framed entry.2

variable {entries : List (Field × Bytes)}

/-- The decoder walks over the fields that were written. -/
theorem reads_fields {d d' : Decoding} (hlengths : ∀ entry ∈ entries, entry.2.length ≤ maxUint32)
    (h : entries.foldlM accept d = .ok d') :
    Reads (fields entries.length d) (entries.flatMap encodeField) d' := by
  induction entries generalizing d with
  | nil =>
    cases h
    exact .pure _
  | cons entry rest ih =>
    obtain ⟨d₁, haccept, hrest⟩ := bind_eq_ok.mp h
    have htag : Reads (take Error.invalidEdit 1) [entry.1.toByte] [entry.1.toByte] := .take rfl
    have hlift : Reads (StateT.lift (d.acceptField (byteAt [entry.1.toByte] 0) entry.2))
        [] d₁ := fun _ => by
      have haccept' : d.acceptField entry.1.toByte entry.2 = .ok d₁ := haccept
      show (d.acceptField entry.1.toByte entry.2 >>= _) = _
      rw [haccept']
      rfl
    rw [flatMap_cons]
    unfold encodeField
    rw [cons_append]
    refine .bind htag (.bind (.bytes (by decide) (hlengths entry mem_cons_self)) ?_)
    exact .bind hlift (ih (fun e he => hlengths e (mem_cons_of_mem _ he)) hrest)

variable {d : Decoding}

/-- An optional integer is read back.  `set` writes it into the edit. -/
theorem foldlM_uint64 {field : Field}
    (set : VersionEdit → Option UInt64 → VersionEdit) (value : Option UInt64)
    (hfield : ∀ p, d.accept (field, p) = d.acceptScalar field p)
    (hset : ∀ v, setScalar d.edit v field = set d.edit (some v)) (hnone : set d.edit none = d.edit)
    (hseen : field ∉ d.seenScalar) :
    (value.toList.map (uint64Field field)).foldlM accept d =
      .ok { d with
        edit := set d.edit value
        seenScalar := value.toList.map (fun _ => field) ++ d.seenScalar } := by
  cases value with
  | none =>
    rw [hnone]
    rfl
  | some v =>
    show (d.accept (uint64Field field v) >>= pure) = _
    rw [bind_pure, uint64Field, hfield, acceptScalar, if_neg (by simp [hseen]),
      getLE_putLE_of_lt (show v.toNat < 256 ^ 8 from v.toNat_lt), Nat.toUInt64,
      UInt64.ofNat_toNat, hset]
    rfl

theorem foldlM_deleted (ds : List DeletedFile)
    (hlength : d.edit.deletedFiles.length + ds.length ≤ maxChangesPerEdit)
    (hnodup : (ds.map (·.fileNumber)).Nodup) (hfresh : ∀ x ∈ ds, x.fileNumber ∉ d.seenFiles) :
    (ds.map deletedField).foldlM accept d =
      .ok { d with
        edit := { d.edit with deletedFiles := d.edit.deletedFiles ++ ds }
        seenFiles := (ds.map (·.fileNumber)).reverse ++ d.seenFiles } := by
  induction ds generalizing d with
  | nil => simp [pure, Except.pure]
  | cons x rest ih =>
    have hlevel : (getLE (slice (deletedField x).2 0 4)).toUInt32 = x.level := by
      unfold deletedField
      rw [slice_append_front (length_putLE 4 _),
        getLE_putLE_of_lt (show _ < 256 ^ 4 from UInt32.toNat_lt _), Nat.toUInt32,
        UInt32.ofNat_toNat]
    have hnumber : (getLE (slice (deletedField x).2 4 12)).toUInt64 = x.fileNumber := by
      unfold deletedField
      rw [slice_append_behind (by simp), length_putLE, slice_all (length_putLE 8 _),
        getLE_putLE_of_lt (show _ < 256 ^ 8 from UInt64.toNat_lt _), Nat.toUInt64,
        UInt64.ofNat_toNat]
    have hstep : d.accept (deletedField x) =
        .ok { d with
          edit := { d.edit with deletedFiles := d.edit.deletedFiles ++ [x] }
          seenFiles := x.fileNumber :: d.seenFiles } := by
      show d.acceptDeleted (deletedField x).2 = _
      rw [length_cons] at hlength
      rw [acceptDeleted, if_neg (by simp [deletedField]; omega)]
      dsimp only
      rw [hlevel, hnumber, if_neg (hfresh x mem_cons_self)]
    rw [map_cons, nodup_cons] at hnodup
    rw [map_cons, foldlM_cons, hstep, ok_bind, ih]
    · simp
    · simp only [length_append, length_singleton]
      rw [length_cons] at hlength
      omega
    · exact hnodup.2
    · intro y hy hmem
      rcases mem_cons.mp hmem with heq | hmem
      · exact hnodup.1 (heq ▸ mem_map_of_mem hy)
      · exact hfresh y (mem_cons_of_mem _ hy) hmem

theorem foldlM_added (ts : List TableMetadata) (hentries : ts.mapM addedField = .ok entries)
    (hlength : d.edit.addedFiles.length + ts.length ≤ maxChangesPerEdit)
    (hnodup : (ts.map (·.fileNumber)).Nodup) (hfresh : ∀ t ∈ ts, t.fileNumber ∉ d.seenFiles) :
    entries.foldlM accept d =
      .ok { d with
        edit := { d.edit with addedFiles := d.edit.addedFiles ++ ts }
        seenFiles := (ts.map (·.fileNumber)).reverse ++ d.seenFiles } := by
  induction ts generalizing d entries with
  | nil =>
    cases hentries
    simp [pure, Except.pure]
  | cons t rest ih =>
    rw [mapM_cons] at hentries
    obtain ⟨entry, hentry, hmore⟩ := bind_eq_ok.mp hentries
    obtain ⟨more, hmap, hcons⟩ := bind_eq_ok.mp hmore
    cases hcons
    obtain ⟨payload, hencode, hpure⟩ := bind_eq_ok.mp hentry
    cases hpure
    rw [length_cons] at hlength
    have hstep : d.accept (.addFile, payload) =
        .ok { d with
          edit := { d.edit with addedFiles := d.edit.addedFiles ++ [t] }
          seenFiles := t.fileNumber :: d.seenFiles } := by
      show d.acceptAdded payload = _
      rw [acceptAdded, if_neg (by omega), decodeTable_encodeTable hencode]
      dsimp only
      rw [if_neg (hfresh t mem_cons_self)]
    rw [map_cons, nodup_cons] at hnodup
    rw [foldlM_cons, hstep, ok_bind, ih hmap]
    · simp
    · simp only [length_append, length_singleton]
      omega
    · exact hnodup.2
    · intro y hy hmem
      rcases mem_cons.mp hmem with heq | hmem
      · exact hnodup.1 (heq ▸ mem_map_of_mem hy)
      · exact hfresh y (mem_cons_of_mem _ hy) hmem

/-- The optional fields of an edit are read back. -/
theorem foldlM_scalars (edit : VersionEdit)
    (hcomparator : ∀ name ∈ edit.comparator, name.length ≠ 0 ∧ name.length ≤ 128) :
    ∃ seen, (scalarFields edit).foldlM accept {} =
      .ok { edit := { edit with deletedFiles := [], addedFiles := [] }, seenScalar := seen } := by
  have hname : (edit.comparator.toList.map fun name => (Field.comparator, name)).foldlM accept {} =
      .ok {
        edit := { comparator := edit.comparator }
        seenScalar := edit.comparator.toList.map fun _ => .comparator } := by
    cases hc : edit.comparator with
    | none => rfl
    | some name =>
      obtain ⟨hpositive, hle⟩ := hcomparator name (by rw [hc]; rfl)
      show (acceptComparator {} name >>= pure) = _
      rw [bind_pure, acceptComparator,
        if_neg (not_or.mpr ⟨not_mem_nil, not_or.mpr ⟨hpositive, not_lt.mpr hle⟩⟩)]
      rfl
  have hmode : ∀ d : Decoding, d.edit.storageMode = none → .storageMode ∉ d.seenScalar →
      (edit.storageMode.toList.map fun mode => (Field.storageMode, [mode])).foldlM accept d =
        .ok { d with
          edit := { d.edit with storageMode := edit.storageMode }
          seenScalar := edit.storageMode.toList.map (fun _ => .storageMode) ++ d.seenScalar } := by
    intro d hnone hseen
    cases edit.storageMode with
    | none =>
      obtain ⟨e, seen, files⟩ := d
      cases e
      cases hnone
      rfl
    | some mode =>
      show (d.acceptMode [mode] >>= pure) = _
      rw [bind_pure, acceptMode, if_neg (by simp [hseen])]
      rfl
  unfold scalarFields
  rw [foldlM_append, hname, ok_bind, foldlM_append,
    foldlM_uint64 (fun e v => { e with nextFileNumber := v }) _ (fun _ => rfl) (fun _ => rfl) rfl
      (by simp),
    ok_bind, foldlM_append,
    foldlM_uint64 (fun e v => { e with lastSequence := v }) _ (fun _ => rfl) (fun _ => rfl) rfl
      (by simp),
    ok_bind, foldlM_append,
    foldlM_uint64 (fun e v => { e with replayFrontier := v }) _ (fun _ => rfl) (fun _ => rfl) rfl
      (by simp),
    ok_bind, foldlM_append, hmode _ rfl (by simp), ok_bind,
    foldlM_append,
    foldlM_uint64 (fun e v => { e with replicatedAppliedThrough := v }) _ (fun _ => rfl)
      (fun _ => rfl) rfl (by simp),
    ok_bind,
    foldlM_uint64 (fun e v => { e with maxAppliedMVCC := v }) _ (fun _ => rfl) (fun _ => rfl) rfl
      (by simp)]
  exact ⟨_, rfl⟩

end Decoding

variable {entries : List (Field × Bytes)}

/-- The fields stand behind the header one after the other. -/
theorem foldlM_appendField {header out : Bytes}
    (hheader : header.length ≤ maxEditSize) (h : entries.foldlM appendField header = .ok out) :
    out = header ++ entries.flatMap Decoding.encodeField ∧ out.length ≤ maxEditSize ∧
      ∀ entry ∈ entries, entry.2.length ≤ maxUint32 := by
  induction entries generalizing header with
  | nil =>
    cases h
    simp [hheader]
  | cons entry rest ih =>
    obtain ⟨longer, happend, hrest⟩ := bind_eq_ok.mp h
    unfold appendField at happend
    split_ifs at happend with hlong
    cases happend
    push Not at hlong
    have hlonger : (header ++ (entry.1.toByte :: framed entry.2)).length ≤ maxEditSize := by
      have hfield : fieldHeaderSize = 5 := rfl
      simp only [length_append, length_cons, framed, length_putLE]
      omega
    obtain ⟨hout, hlength, hlengths⟩ := ih hlonger hrest
    refine ⟨?_, hlength, forall_mem_cons.mpr ⟨hlong.1, hlengths⟩⟩
    rw [hout, flatMap_cons, append_assoc]
    rfl

variable {encoded : Bytes}

theorem length_encodeVersionEdit
    (h : encodeVersionEdit edit = .ok encoded) : encoded.length ≤ maxEditSize := by
  obtain ⟨⟨⟩, -, hfields⟩ := bind_eq_ok.mp h
  obtain ⟨additions, -, hfold⟩ := bind_eq_ok.mp hfields
  obtain ⟨-, hfold⟩ := ite_error_eq_ok.mp hfold
  exact (foldlM_appendField (by simp [maxEditSize]) hfold).2.1

/-- An edit that can be written is read back, with its files in canonical order. -/
theorem decodeVersionEdit_encodeVersionEdit
    (h : encodeVersionEdit edit = .ok encoded) :
    decodeVersionEdit encoded = .ok edit.canonical := by
  obtain ⟨⟨⟩, hvalidate, hfields⟩ := bind_eq_ok.mp h
  obtain ⟨additions, hadditions, hfold⟩ := bind_eq_ok.mp hfields
  dsimp only at hfold
  split_ifs at hfold with hmany
  obtain ⟨hdeletions, hadds⟩ := canonical_perm edit
  have hcanonical := validateEditShape_perm hdeletions hadds hvalidate
  have hshaped := shaped_of_validateEditShape hcanonical
  set entries := scalarFields edit ++ (edit.canonical.deletedFiles.map deletedField ++ additions)
    with hentries
  have hheader :
      (putLE 4 editMagic ++ (putLE 2 editVersion ++ putLE 2 entries.length)).length = 8 := by simp
  obtain ⟨hencoded, hlength, hlengths⟩ := foldlM_appendField (by rw [hheader]; decide) hfold
  -- what the loop makes of the fields
  have hloop : ∃ d, entries.foldlM Decoding.accept {} = .ok d ∧ d.edit = edit.canonical := by
    obtain ⟨seen, hscalars⟩ := Decoding.foldlM_scalars edit hshaped.comparator
    have hnodup := nodup_append.mp hshaped.numbers
    rw [hentries, foldlM_append, hscalars, ok_bind, foldlM_append,
      Decoding.foldlM_deleted _ (by simpa using hshaped.deleted_length) hnodup.1 (by simp),
      ok_bind,
      Decoding.foldlM_added _ hadditions (by simpa using hshaped.added_length) hnodup.2.1 ?_]
    · exact ⟨_, rfl, rfl⟩
    · intro t ht hmem
      simp only [append_nil, mem_reverse] at hmem
      exact hnodup.2.2 _ hmem _ (mem_map_of_mem ht) rfl
  obtain ⟨d, hd, hedit⟩ := hloop
  have hrun := Decoding.reads_fields hlengths hd []
  rw [append_nil] at hrun
  have hmagic : slice encoded 0 4 = putLE 4 editMagic := by
    rw [hencoded, append_assoc, slice_append_front (length_putLE 4 _)]
  have hversion : slice encoded 4 6 = putLE 2 editVersion := by
    rw [hencoded, append_assoc, slice_append_behind (by simp), length_putLE, append_assoc,
      slice_append_front (length_putLE 2 _)]
  have hcount : slice encoded 6 8 = putLE 2 entries.length := by
    rw [hencoded, append_assoc, slice_append_behind (by simp), length_putLE, append_assoc,
      slice_append_behind (by simp), length_putLE, slice_append_front (length_putLE 2 _)]
  have hbody : encoded.drop editHeaderSize = entries.flatMap Decoding.encodeField := by
    rw [hencoded]
    exact drop_left' hheader
  have hlong : ¬ encoded.length < editHeaderSize := by
    rw [hencoded, length_append, hheader]
    exact Nat.not_lt.mpr (Nat.le_add_right 8 _)
  unfold decodeVersionEdit
  rw [if_neg (not_or.mpr ⟨hlong, not_lt.mpr hlength⟩),
    hmagic, hversion, hcount, hbody, getLE_putLE_of_lt (by decide),
    getLE_putLE_of_lt (by decide), getLE_putLE_of_lt (show _ < 256 ^ 2 by omega),
    if_neg (not_not.mpr rfl), if_neg (not_not.mpr rfl), hrun, ok_bind]
  dsimp only
  rw [if_neg (not_not.mpr rfl), hedit]
  rw [show validateEditShape edit.canonical = .ok () from hcanonical]
  rfl

end RivetDB.Manifest
