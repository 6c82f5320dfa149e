import RivetDB.Txn.Types

/-!
# The binary form of transaction operations and intents

`txn/codec.go`.  An operation is a header of 72 bytes followed by its
participants and its writes; an intent is a header of 64 bytes followed by its
value.
-/

namespace RivetDB.Txn

open Codec (slice byteAt putBE getBE)

/-- `operationMagic`: `RVTX`. -/
def operationMagic : Bytes := [82, 86, 84, 88]

/-- `intentMagic`: `RVIN`. -/
def intentMagic : Bytes := [82, 86, 73, 78]

/-- `codecVersion`. -/
def codecVersion : UInt8 := 1

/-- `opHeaderSize`. -/
def opHeaderSize : ℕ := 72

def OperationType.toByte : OperationType → UInt8
  | .create => 1
  | .prepare => 2
  | .commit => 3
  | .abort => 4
  | .takeover => 5
  | .resolveCommit => 6
  | .resolveAbort => 7

def OperationType.ofByte : UInt8 → Option OperationType
  | 1 => some .create
  | 2 => some .prepare
  | 3 => some .commit
  | 4 => some .abort
  | 5 => some .takeover
  | 6 => some .resolveCommit
  | 7 => some .resolveAbort
  | _ => none

/-! ### Encoding -/

def Participant.encode (p : Participant) : Bytes := putBE 8 p.rangeID ++ putBE 8 p.generation

def Write.encode (w : Write) : Bytes :=
  [if w.delete then 1 else 0] ++ (putBE 4 w.key.length ++ (putBE 4 w.value.length ++
    (w.key ++ w.value)))

/-- The bytes of a valid operation. -/
def Operation.toBytes (op : Operation) : Bytes :=
  operationMagic ++ ([codecVersion, op.type.toByte, 0, 0] ++ (op.id.bytes ++
    (putBE 8 op.readTime ++ (putBE 8 op.commitTime ++ (putBE 8 op.epoch ++
    (putBE 8 op.home.rangeID ++ (putBE 8 op.home.generation ++
    (putBE 4 op.participants.length ++ (putBE 4 op.writes.length ++
    (op.participants.flatMap Participant.encode ++ op.writes.flatMap Write.encode))))))))))

/-- `EncodeIntent`. -/
def Intent.encode (intent : Intent) : Except Error Bytes :=
  if !intent.valid || intent.value.length > maxWriteBytes then
    .error .invalid
  else
    .ok (intentMagic ++ ([codecVersion, if intent.delete then 1 else 0, 0, 0] ++
      (intent.id.bytes ++ (putBE 8 intent.readTime ++ (putBE 8 intent.commitTime ++
      (putBE 8 intent.epoch ++ (putBE 8 intent.home.rangeID ++
      (putBE 8 intent.home.generation ++ intent.value))))))))

/-! ### Decoding -/

/-- The loop of `DecodeOperation` over the participants; the length was checked. -/
def decodeParticipants : ℕ → Bytes → List Participant
  | 0, _ => []
  | count + 1, encoded =>
    { rangeID := getBE (slice encoded 0 8), generation := getBE (slice encoded 8 16) } ::
      decodeParticipants count (encoded.drop 16)

/-- The loop of `DecodeOperation` over the writes; returns what follows them. -/
def decodeWrites : ℕ → Bytes → Except Error (List Write × Bytes)
  | 0, encoded => .ok ([], encoded)
  | count + 1, encoded =>
    if encoded.length < 9 ∨ byteAt encoded 0 > 1 then
      .error .invalid
    else
      let keyLength := getBE (slice encoded 1 5)
      let valueLength := getBE (slice encoded 5 9)
      let rest := encoded.drop 9
      if keyLength > rest.length ∨ valueLength > rest.length - keyLength then
        .error .invalid
      else
        let write : Write :=
          { key := rest.take keyLength
            value := slice rest keyLength (keyLength + valueLength)
            delete := byteAt encoded 0 = 1 }
        match decodeWrites count (rest.drop (keyLength + valueLength)) with
        | .error err => .error err
        | .ok (writes, tail) => .ok (write :: writes, tail)

/-- The fields of `DecodeOperation` behind the counts, checked as a whole. -/
def Operation.assemble (encoded : Bytes) (participants : List Participant)
    (writes : List Write) : Except Error Operation :=
  match OperationType.ofByte (byteAt encoded 5) with
  | none => .error .invalid
  | some type =>
    let op : Operation :=
      { type := type
        id := ID.copy (slice encoded 8 24)
        readTime := getBE (slice encoded 24 32)
        commitTime := getBE (slice encoded 32 40)
        epoch := getBE (slice encoded 40 48)
        home := { rangeID := getBE (slice encoded 48 56)
                  generation := getBE (slice encoded 56 64) }
        participants := participants
        writes := writes }
    op.validate.map fun _ => op

/-- `DecodeOperation`. -/
def Operation.decode (encoded : Bytes) : Except Error Operation :=
  let participantCount := getBE (slice encoded 64 68)
  let writeCount := getBE (slice encoded 68 72)
  let rest := encoded.drop opHeaderSize
  if encoded.length < opHeaderSize ∨ encoded.length > maxWriteBytes ∨
      slice encoded 0 4 ≠ operationMagic ∨ byteAt encoded 4 ≠ codecVersion ∨
      byteAt encoded 6 ≠ 0 ∨ byteAt encoded 7 ≠ 0 then
    .error .invalid
  else if participantCount > maxParticipants ∨ writeCount > maxWrites then
    .error .tooLarge
  else if participantCount > rest.length / 16 then
    .error .invalid
  else
    match decodeWrites writeCount (rest.drop (16 * participantCount)) with
    | .error err => .error err
    | .ok (writes, tail) =>
      if tail ≠ [] then .error .invalid
      else Operation.assemble encoded (decodeParticipants participantCount rest) writes

end RivetDB.Txn
