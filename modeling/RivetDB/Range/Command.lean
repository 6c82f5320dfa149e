import RivetDB.Raft.Types
import RivetDB.Mvcc.Clock
import RivetDB.Storage.Engine
import RivetDB.Txn.Codec

/-!
# The commands of a replicated range

`command.go` and the codec of `split.go`: what a range puts into its Raft log.  A
command carries a user key and a value; for a transaction command the value is an
encoded transaction operation, for a split command an encoded split operation.
-/

namespace RivetDB.Range

open Codec (slice byteAt putBE getBE putLE getLE)

/-- The errors of a range.  `wrap` is `fmt.Errorf` around a cause, `join` is
`errors.Join`. -/
inductive Error where
  | invalidOptions
  | leadershipLost
  | stopped
  | tooManyWaiters
  | keyOutOfRange
  | mvccRegression
  | replicaBehind
  | snapshotBehind
  | rangeNotServing
  | splitFenced
  | splitReplayOrder
  | invalidCommand
  | unsupportedCommand
  | commandTooLarge
  | invalidValueKind
  | mvcc (err : Mvcc.Error)
  | txn (err : Txn.Error)
  | engine (err : Storage.Error)
  | raft (err : Raft.Error)
  | wrap (text : String) (cause : Error)
  | join (left right : Error)
deriving DecidableEq, Repr

inductive CommandType where
  | put
  | delete
  | txnBarrier
  | txnCreate
  | txnPrepare
  | txnCommit
  | txnAbort
  | txnTakeover
  | txnResolveCommit
  | txnResolveAbort
  | split
deriving DecidableEq, Repr

namespace CommandType

/-- The numeric value of a command type. -/
def toByte : CommandType → UInt8
  | .put => 1
  | .delete => 2
  | .txnBarrier => 3
  | .txnCreate => 4
  | .txnPrepare => 5
  | .txnCommit => 6
  | .txnAbort => 7
  | .txnTakeover => 8
  | .txnResolveCommit => 9
  | .txnResolveAbort => 10
  | .split => 11

def ofByte : UInt8 → Option CommandType
  | 1 => some .put
  | 2 => some .delete
  | 3 => some .txnBarrier
  | 4 => some .txnCreate
  | 5 => some .txnPrepare
  | 6 => some .txnCommit
  | 7 => some .txnAbort
  | 8 => some .txnTakeover
  | 9 => some .txnResolveCommit
  | 10 => some .txnResolveAbort
  | 11 => some .split
  | _ => none

theorem ofByte_toByte (t : CommandType) : ofByte t.toByte = some t := by
  cases t <;> rfl

/-- The table `want` of `validateCommand`: the operation a transaction command
carries. -/
def operation : CommandType → Option Txn.OperationType
  | .txnCreate => some .create
  | .txnPrepare => some .prepare
  | .txnCommit => some .commit
  | .txnAbort => some .abort
  | .txnTakeover => some .takeover
  | .txnResolveCommit => some .resolveCommit
  | .txnResolveAbort => some .resolveAbort
  | _ => none

/-- Whether a command belongs to the transaction protocol. -/
def transactional (t : CommandType) : Bool := t = .txnBarrier || t.operation.isSome

end CommandType

structure Command where
  type : CommandType
  key : Bytes
  value : Bytes := []
  timestamp : ℕ := 0
deriving DecidableEq, Repr

/-! ### Split operations -/

inductive SplitOperationType where
  | begin
  | bootstrapBarrier
  | bootstrapVersion
  | replayVersion
  | replayAdvance
  | finalFence
  | activate
  | retire
  | abort
deriving DecidableEq, Repr

namespace SplitOperationType

def toByte : SplitOperationType → UInt8
  | .begin => 1
  | .bootstrapBarrier => 2
  | .bootstrapVersion => 3
  | .replayVersion => 4
  | .replayAdvance => 5
  | .finalFence => 6
  | .activate => 7
  | .retire => 8
  | .abort => 9

def ofByte : UInt8 → Option SplitOperationType
  | 1 => some .begin
  | 2 => some .bootstrapBarrier
  | 3 => some .bootstrapVersion
  | 4 => some .replayVersion
  | 5 => some .replayAdvance
  | 6 => some .finalFence
  | 7 => some .activate
  | 8 => some .retire
  | 9 => some .abort
  | _ => none

/-- Whether the operation carries an MVCC version. -/
def version (t : SplitOperationType) : Bool := t = .bootstrapVersion || t = .replayVersion

end SplitOperationType

structure SplitOperation where
  type : SplitOperationType
  splitID : ℕ
  epoch : ℕ
  parentRangeID : ℕ
  parentGeneration : ℕ
  parentIndex : ℕ := 0
  timestamp : ℕ := 0
  kind : Storage.Kind := .delete
  commandDigest : Digest := .zero
  imageDigest : Digest := .zero
  value : Bytes := []
deriving DecidableEq, Repr

namespace SplitOperation

/-- `splitOperationMagic`: `RVSP`. -/
def magic : Bytes := [82, 86, 83, 80]

/-- `header` of `DecodeSplitOperation`. -/
def headerSize : ℕ := 124

/-- `validateSplitOperation`. -/
def validate (op : SplitOperation) : Except Error Unit :=
  if op.splitID = 0 ∨ op.epoch = 0 ∨ op.parentRangeID = 0 ∨ op.parentGeneration = 0 then
    .error .invalidCommand
  else if op.type.version then
    if op.timestamp = 0 then .error (.join .invalidCommand .invalidValueKind)
    else if op.type = .replayVersion ∧ (op.parentIndex = 0 ∨ op.commandDigest = .zero) then
      .error .invalidCommand
    else .ok ()
  else if op.value ≠ [] ∨ op.kind ≠ .delete ∨
      (op.timestamp ≠ 0 ∧ op.type ≠ .bootstrapBarrier ∧ op.type ≠ .replayAdvance) then
    .error (.wrap "metadata split operation contains MVCC value" .invalidCommand)
  else .ok ()

/-- The bytes of a valid split operation. -/
def toBytes (op : SplitOperation) : Bytes :=
  magic ++ ([1, op.type.toByte, op.kind.toByte, 0] ++ (putLE 8 op.splitID ++
    (putLE 8 op.epoch ++ (putLE 8 op.parentRangeID ++ (putLE 8 op.parentGeneration ++
    (putLE 8 op.parentIndex ++ (putLE 8 op.timestamp ++ (op.commandDigest.bytes ++
    (op.imageDigest.bytes ++ (putLE 4 op.value.length ++ op.value))))))))))

/-- The fields of `DecodeSplitOperation` before they are checked as a whole. -/
def assemble (data : Bytes) (type : SplitOperationType) (kind : Storage.Kind) :
    SplitOperation where
  type := type
  splitID := getLE (slice data 8 16)
  epoch := getLE (slice data 16 24)
  parentRangeID := getLE (slice data 24 32)
  parentGeneration := getLE (slice data 32 40)
  parentIndex := getLE (slice data 40 48)
  timestamp := getLE (slice data 48 56)
  kind := kind
  commandDigest := Digest.copy (slice data 56 88)
  imageDigest := Digest.copy (slice data 88 120)
  value := data.drop headerSize

/-- `DecodeSplitOperation`.  A type or a kind outside its enumeration is refused by
`validateSplitOperation` there. -/
def decode (data : Bytes) : Except Error SplitOperation :=
  if data.length < headerSize ∨ slice data 0 4 ≠ magic ∨ byteAt data 4 ≠ 1 ∨
      byteAt data 7 ≠ 0 then
    .error .invalidCommand
  else if getLE (slice data 120 124) ≠ data.length - headerSize then .error .invalidCommand
  else
    match SplitOperationType.ofByte (byteAt data 5), Storage.Kind.ofByte (byteAt data 6) with
    | some type, some kind =>
      (assemble data type kind).validate.map fun _ => assemble data type kind
    | _, _ => .error .invalidCommand

end SplitOperation

/-! ### Commands -/

namespace Command

/-- `commandMagic`: `RVCM`. -/
def magic : Bytes := [82, 86, 67, 77]

/-- `commandHeaderSize`. -/
def headerSize : ℕ := 16

/-- `mvccCommandHeaderSize`. -/
def mvccHeaderSize : ℕ := 24

/-- The header of a command with or without a timestamp. -/
def sizeOfHeader (timestamp : ℕ) : ℕ :=
  if timestamp ≠ 0 then mvccHeaderSize else headerSize

/-- The part of `validateCommand` that looks into the value. -/
def validateValue (command : Command) : Except Error Unit :=
  match command.type.operation with
  | some want =>
    match Txn.Operation.decode command.value with
    | .error err =>
      .error (.wrap "transaction operation" (.join .invalidCommand (.txn err)))
    | .ok operation =>
      if operation.type ≠ want ∨ operation.commitTime ≠ command.timestamp then
        .error (.wrap "transaction operation mismatch" .invalidCommand)
      else .ok ()
  | none =>
    if command.type = .split then
      match SplitOperation.decode command.value with
      | .error _ => .error (.wrap "split operation mismatch" .invalidCommand)
      | .ok operation =>
        if operation.timestamp ≠ command.timestamp then
          .error (.wrap "split operation mismatch" .invalidCommand)
        else .ok ()
    else .ok ()

/-- `validateCommand`. -/
def validate (command : Command) : Except Error Unit :=
  if command.key.length > Storage.maxUserKeySize ∨
      command.value.length > Storage.maxValueSize then
    .error .commandTooLarge
  else if command.key.length > Raft.maxCommandBytes - sizeOfHeader command.timestamp ∨
      command.value.length >
        Raft.maxCommandBytes - sizeOfHeader command.timestamp - command.key.length then
    .error .commandTooLarge
  else if (command.type = .delete ∨ command.type = .txnBarrier) ∧ command.value ≠ [] then
    .error (.wrap "DELETE has value" .invalidCommand)
  else if command.type.transactional ∧ command.timestamp = 0 then
    .error (.wrap "transaction command has zero timestamp" .invalidCommand)
  else command.validateValue

/-- The bytes of a valid command. -/
def toBytes (command : Command) : Bytes :=
  if command.timestamp ≠ 0 then
    magic ++ ([2, command.type.toByte, 0, 0] ++ (putBE 8 command.timestamp ++
      (putLE 4 command.key.length ++ (putLE 4 command.value.length ++
      (command.key ++ command.value)))))
  else
    magic ++ ([1, command.type.toByte, 0, 0] ++ (putLE 4 command.key.length ++
      (putLE 4 command.value.length ++ (command.key ++ command.value))))

/-- The Raft entry that carries a command. -/
def entry (command : Command) (index term : ℕ) : Raft.Entry where
  index := index
  term := term
  kind := .command
  command := command.toBytes

/-- `EncodeCommand`. -/
def encode (command : Command) : Except Error Bytes := command.validate.map fun _ => command.toBytes

/-- `DecodeCommand` behind the fixed fields: `header` bytes of header, with the two
lengths at its end. -/
def decodeBody (encoded : Bytes) (header timestamp : ℕ) : Except Error Command :=
  let keyLength := getLE (slice encoded (header - 8) (header - 4))
  let valueLength := getLE (slice encoded (header - 4) header)
  if keyLength > Storage.maxUserKeySize ∨ valueLength > Storage.maxValueSize then
    .error .commandTooLarge
  else if keyLength + valueLength > Raft.maxCommandBytes - header then .error .commandTooLarge
  else if keyLength + valueLength ≠ encoded.length - header then .error .invalidCommand
  else
    match CommandType.ofByte (byteAt encoded 5) with
    | none => .error (.wrap s!"type {byteAt encoded 5}" .invalidCommand)
    | some type =>
      let command : Command :=
        { type := type
          key := slice encoded header (header + keyLength)
          value := encoded.drop (header + keyLength)
          timestamp := timestamp }
      command.validate.map fun _ => command

/-- `DecodeCommand`. -/
def decode (encoded : Bytes) : Except Error Command :=
  if encoded.length < headerSize ∨ slice encoded 0 4 ≠ magic then .error .invalidCommand
  else if byteAt encoded 4 ≠ 1 ∧ byteAt encoded 4 ≠ 2 then .error .unsupportedCommand
  else if byteAt encoded 6 ≠ 0 ∨ byteAt encoded 7 ≠ 0 then .error .invalidCommand
  else if byteAt encoded 4 = 2 then
    if encoded.length < mvccHeaderSize ∨ getBE (slice encoded 8 16) = 0 then
      .error .invalidCommand
    else decodeBody encoded mvccHeaderSize (getBE (slice encoded 8 16))
  else decodeBody encoded headerSize 0

/-- A valid command with a timestamp survives its encoding. -/
theorem decode_toBytes {command : Command} (hvalid : command.validate = .ok ())
    (hzero : command.timestamp ≠ 0) (hlt : command.timestamp < 2 ^ 64) :
    decode command.toBytes = .ok command := by
  have hsizes := hvalid
  simp only [validate, sizeOfHeader, if_pos hzero, Fallible.ite_error_eq_ok] at hsizes
  obtain ⟨hlimits, hlengths, -⟩ := hsizes
  have hbounds : Storage.maxUserKeySize < 256 ^ 4 ∧ Storage.maxValueSize < 256 ^ 4 := by decide
  simp only [not_or, not_lt] at hlimits hlengths
  have hkey : getLE (putLE 4 command.key.length) = command.key.length :=
    Codec.getLE_putLE_of_lt (hlimits.1.trans_lt hbounds.1)
  have hvalue : getLE (putLE 4 command.value.length) = command.value.length :=
    Codec.getLE_putLE_of_lt (hlimits.2.trans_lt hbounds.2)
  have htime : getBE (putBE 8 command.timestamp) = command.timestamp :=
    Codec.getBE_putBE_of_lt hlt
  -- the fields of the header stand at fixed places
  obtain ⟨b, hb⟩ : ∃ b, b = command.toBytes := ⟨_, rfl⟩
  rw [← hb]
  rw [toBytes, if_pos hzero] at hb
  have hlength : b.length = command.key.length + command.value.length + 24 := by
    rw [hb]
    simp [magic]
    omega
  have hmagic : slice b 0 4 = magic := hb ▸ rfl
  have hversion : byteAt b 4 = 2 := hb ▸ rfl
  have htype : byteAt b 5 = command.type.toByte := hb ▸ rfl
  have hreserved : byteAt b 6 = 0 ∧ byteAt b 7 = 0 := hb ▸ ⟨rfl, rfl⟩
  have hstamp : slice b 8 16 = putBE 8 command.timestamp := hb ▸ rfl
  have hkeyLength : slice b 16 20 = putLE 4 command.key.length := hb ▸ rfl
  have hvalueLength : slice b 20 24 = putLE 4 command.value.length := hb ▸ rfl
  have hrest : b.drop 24 = command.key ++ command.value := hb ▸ rfl
  have hslice : slice b 24 (24 + command.key.length) = command.key := by
    rw [slice, hrest, Nat.add_sub_cancel_left, List.take_left]
  have hdrop : b.drop (24 + command.key.length) = command.value := by
    rw [← List.drop_drop, hrest, List.drop_left]
  have hbody : decodeBody b 24 command.timestamp = .ok command := by
    have hroom : ¬ command.key.length + command.value.length > Raft.maxCommandBytes - 24 := by
      have : mvccHeaderSize = 24 := rfl
      omega
    simp only [decodeBody, hkeyLength, hvalueLength, hkey, hvalue, htype, CommandType.ofByte_toByte,
      hslice, hdrop]
    rw [if_neg (by omega), if_neg hroom, if_neg (by omega), hvalid]
    rfl
  unfold decode
  rw [hmagic, hversion, hreserved.1, hreserved.2, hstamp, htime,
    if_neg (by simp [hlength, headerSize]), if_neg (by simp), if_neg (by simp), if_pos rfl,
    if_neg (by simp [hlength, mvccHeaderSize, hzero])]
  exact hbody

end Command

end RivetDB.Range
