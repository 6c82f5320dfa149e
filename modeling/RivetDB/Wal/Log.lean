import RivetDB.Codec.Bytes
import RivetDB.Program.Prog

/-!
# The record log

`storage/wal`: a file of blocks into which payloads are written as checksummed fragments.  A
fragment never crosses a block boundary; a block that has no room for a header is padded with
zeros.  The same format carries the write-ahead log of the engine and the manifest.

The writer only appends, so its offset is the length of the file.  The reader walks over the
fragments and puts payloads together; `step` is one round of the loop in `Next`.  The checksum
is `crc32.Update`, a parameter: the layout and the scan are the same for every checksum.
-/

namespace RivetDB.Wal

open Codec (slice byteAt putLE getLE)

/-- `BlockSize`. -/
def blockSize : ℕ := 32 <<< 10

/-- `HeaderSize`. -/
def headerSize : ℕ := 11

/-- `MaxRecordSize`. -/
def maxRecordSize : ℕ := 64 <<< 20

/-- `crc32.Update` with the Castagnoli table. -/
abbrev Update := UInt32 → Bytes → UInt32

inductive FragmentKind where
  | full
  | first
  | middle
  | last
deriving DecidableEq, Repr

namespace FragmentKind

def toByte : FragmentKind → UInt8
  | full => 1
  | first => 2
  | middle => 3
  | last => 4

def ofByte : UInt8 → Option FragmentKind
  | 1 => some full
  | 2 => some first
  | 3 => some middle
  | 4 => some last
  | _ => none

/-- `chooseFragmentKind`. -/
def choose : Bool → Bool → FragmentKind
  | true, true => full
  | true, false => first
  | false, true => last
  | false, false => middle

end FragmentKind

/-- The part of a header that its own checksum covers.  The version in the upper half of the
last byte is 0. -/
def headerTail (length : ℕ) (kind : FragmentKind) : Bytes := putLE 2 length ++ [kind.toByte]

/-- `makeHeader`. -/
def makeHeader (update : Update) (payload : Bytes) (kind : FragmentKind) : Bytes :=
  putLE 4 (update (update 0 (headerTail payload.length kind)) payload).toNat ++
    (putLE 4 (update 0 (headerTail payload.length kind)).toNat ++ headerTail payload.length kind)

/-! ### Writing -/

def blockRemaining (offset : ℕ) : ℕ := blockSize - offset % blockSize

/-- The zeros in front of the next fragment. -/
def padding (offset : ℕ) : ℕ :=
  if blockRemaining offset < headerSize then blockRemaining offset else 0

/-- What the next fragment can hold. -/
def room (offset : ℕ) : ℕ := blockRemaining (offset + padding offset) - headerSize

theorem blockRemaining_spec (offset : ℕ) :
    0 < blockRemaining offset ∧ (offset + blockRemaining offset) % blockSize = 0 := by
  have hlt : offset % blockSize < blockSize := Nat.mod_lt _ (by decide)
  refine ⟨Nat.sub_pos_of_lt hlt, ?_⟩
  unfold blockRemaining
  have hsplit : offset + (blockSize - offset % blockSize) =
      blockSize * (offset / blockSize + 1) := by
    have := Nat.div_add_mod offset blockSize
    rw [Nat.mul_add, Nat.mul_one]
    omega
  rw [hsplit, Nat.mul_mod_right]

theorem padding_spec (offset : ℕ) :
    padding (offset + padding offset) = 0 ∧
      headerSize ≤ blockRemaining (offset + padding offset) := by
  have hblock := blockRemaining_spec offset
  have hmod : ∀ o, o % blockSize = 0 → blockRemaining o = blockSize := fun o ho => by
    rw [blockRemaining, ho, Nat.sub_zero]
  by_cases hlow : blockRemaining offset < headerSize
  · have hpad : padding offset = blockRemaining offset := if_pos hlow
    have hnext := hmod _ hblock.2
    rw [hpad]
    refine ⟨?_, ?_⟩
    · rw [padding, hnext]
      decide
    · rw [hnext]
      decide
  · have hpad : padding offset = 0 := if_neg hlow
    rw [hpad, Nat.add_zero]
    exact ⟨hpad, not_lt.mp hlow⟩

/-- A fragment that does not end its record fills its block. -/
theorem next_block (offset : ℕ) :
    (offset + padding offset + headerSize + room offset) % blockSize = 0 := by
  have hroom : headerSize + room offset = blockRemaining (offset + padding offset) := by
    exact Nat.add_sub_of_le (padding_spec offset).2
  rw [Nat.add_assoc, hroom]
  exact (blockRemaining_spec _).2

theorem room_of_block {offset : ℕ} (h : offset % blockSize = 0) :
    padding offset = 0 ∧ 0 < room offset := by
  have hremaining : blockRemaining offset = blockSize := by
    rw [blockRemaining, h, Nat.sub_zero]
  have hpad : padding offset = 0 := by
    rw [padding, hremaining]
    decide
  rw [room, hpad, Nat.add_zero, hremaining]
  decide

/-- The loop of `Append`: the bytes it writes at `offset` for the rest of a payload. -/
def fragments (update : Update) (first : Bool) (offset : ℕ) (rest : Bytes) : Bytes :=
  List.replicate (padding offset) 0 ++ if rest.length ≤ room offset then
      makeHeader update rest (.choose first true) ++ rest
    else
      makeHeader update (rest.take (room offset)) (.choose first false) ++
        (rest.take (room offset) ++
          fragments update false (offset + padding offset + headerSize + room offset)
            (rest.drop (room offset)))
termination_by 2 * rest.length + if room offset = 0 then 1 else 0
decreasing_by
  have hnext := (room_of_block (next_block offset)).2
  rw [List.length_drop, if_neg hnext.ne']
  split_ifs with hzero <;> omega

/-- `Position`. -/
structure Position where
  start : ℕ
  stop : ℕ
deriving DecidableEq, Repr

/-- The causes of a `CorruptionError`, and the other errors of the log. -/
inductive Error where
  | headerChecksumMismatch
  | unsupportedVersion
  | invalidFragmentType
  | invalidLength
  | checksumMismatch
  | invalidPadding
  | recordTooLarge
  | truncatedTail
  | noTruncatedTail
  | recoveryStateChanged
  | corruption (offset : ℕ) (cause : Error)
  | wrap (text : String) (cause : Error)
deriving DecidableEq, Repr

/-- `Append`: the file afterwards, and where the record is. -/
def append (update : Update) (file payload : Bytes) : Except Error (Bytes × Position) :=
  if payload.length > maxRecordSize then .error .recordTooLarge
  else
    let written := file ++ fragments update true file.length payload
    .ok (written, ⟨file.length + padding file.length, written.length⟩)

/-! ### Reading -/

/-- A complete record. -/
structure Record where
  payload : Bytes
  position : Position
  number : ℕ
deriving DecidableEq, Repr

/-- A `Reader`, over a file that is an argument of its methods. -/
structure Reader where
  offset : ℕ := 0
  validEnd : ℕ := 0
  number : ℕ := 0
  assembly : Bytes := []
  assembling : Bool := false
  recordAt : ℕ := 0
  tail : Option Position := none
  err : Option Error := none
deriving DecidableEq, Repr

/-- What one round of `Next` does: it goes on, it delivers a record, or it ends the scan. -/
inductive Round where
  | more (r : Reader)
  | record (record : Record) (r : Reader)
  | stop (r : Reader)

namespace Reader

/-- `incompleteStart`. -/
def incompleteStart (r : Reader) : ℕ :=
  if r.assembling then r.recordAt else r.validEnd

/-- `markTail`. -/
def markTail (r : Reader) (start size : ℕ) : Reader := { r with tail := some ⟨start, size⟩ }

/-- The reader stops with a corruption at `offset`. -/
def fail (r : Reader) (offset : ℕ) (cause : Error) : Round :=
  .stop { r with err := some (.corruption offset cause) }

/-- `consumePadding`. -/
def consumePadding (r : Reader) (data : Bytes) : Round :=
  let available := min (blockRemaining r.offset) (data.length - r.offset)
  if slice data r.offset (r.offset + available) ≠ List.replicate available 0 then
    r.fail r.offset .invalidPadding
  else if available < blockRemaining r.offset then
    .stop ({ r with offset := r.offset + available }.markTail r.incompleteStart data.length)
  else .more { r with offset := r.offset + available }

/-- `finishRecord`. -/
def finishRecord (r : Reader) (payload : Bytes) (start : ℕ) : Round :=
  if payload.length > maxRecordSize then r.fail start .recordTooLarge
  else
    .record { payload := payload, position := ⟨start, r.offset⟩, number := r.number }
      { r with number := r.number + 1, validEnd := r.offset }

/-- `acceptFragment`. -/
def acceptFragment (r : Reader) (kind : FragmentKind) (payload : Bytes) (fragmentAt : ℕ) : Round :=
  match kind with
  | .full =>
    if r.assembling then r.fail fragmentAt .invalidFragmentType
    else r.finishRecord payload fragmentAt
  | .first =>
    if r.assembling then r.fail fragmentAt .invalidFragmentType
    else .more { r with assembly := payload, assembling := true, recordAt := fragmentAt }
  | .middle =>
    if !r.assembling then r.fail fragmentAt .invalidFragmentType
    else if payload.length > maxRecordSize - r.assembly.length then
      r.fail fragmentAt .recordTooLarge
    else .more { r with assembly := r.assembly ++ payload }
  | .last =>
    if !r.assembling then r.fail fragmentAt .invalidFragmentType
    else if payload.length > maxRecordSize - r.assembly.length then
      r.fail fragmentAt .recordTooLarge
    else
      { r with assembly := [], assembling := false }.finishRecord (r.assembly ++ payload) r.recordAt

/-- The part of `Next` behind a complete header. -/
def readFragment (update : Update) (r : Reader) (data : Bytes) : Round :=
  let header := slice data r.offset (r.offset + headerSize)
  let headerCRC := update 0 (slice header 8 11)
  let length := getLE (slice header 8 10)
  if getLE (slice header 4 8) ≠ headerCRC.toNat then r.fail r.offset .headerChecksumMismatch
  else if (byteAt header 10).toNat / 16 ≠ 0 then r.fail r.offset .unsupportedVersion
  else
    match FragmentKind.ofByte (byteAt header 10) with
    | none => r.fail r.offset .invalidFragmentType
    | some kind =>
      if length > blockRemaining r.offset - headerSize then r.fail r.offset .invalidLength
      else if data.length - (r.offset + headerSize) < length then
        .stop (r.markTail r.incompleteStart data.length)
      else
        let payload := slice data (r.offset + headerSize) (r.offset + headerSize + length)
        if getLE (slice header 0 4) ≠ (update headerCRC payload).toNat then
          r.fail r.offset .checksumMismatch
        else
          { r with offset := r.offset + headerSize + length }.acceptFragment kind payload r.offset

/-- One round of the loop in `Next`. -/
def step (update : Update) (data : Bytes) (r : Reader) : Round :=
  if r.offset = data.length then
    if r.assembling then .stop (r.markTail r.recordAt data.length) else .stop r
  else if blockRemaining r.offset < headerSize then r.consumePadding data
  else if data.length - r.offset < headerSize then
    .stop (r.markTail r.incompleteStart data.length)
  else r.readFragment update data

/-! ### Progress -/

/-- The reader with which the scan goes on. -/
def following : Round → Option Reader
  | .more r => some r
  | .record _ r => some r
  | .stop _ => none

variable {r r' : Reader} {kind : FragmentKind}

theorem acceptFragment_offset {payload : Bytes}
    {fragmentAt : ℕ} (h : following (r.acceptFragment kind payload fragmentAt) = some r') :
    r'.offset = r.offset := by
  have hfinish : ∀ {s : Reader} {payload : Bytes} {start : ℕ},
      following (s.finishRecord payload start) = some r' → r'.offset = s.offset := by
    intro s payload start hs
    unfold finishRecord at hs
    split at hs
    · cases hs
    · cases hs
      rfl
  cases kind with
  | full =>
    unfold acceptFragment at h
    dsimp only at h
    split at h
    · cases h
    · exact hfinish h
  | first =>
    unfold acceptFragment at h
    dsimp only at h
    split at h
    · cases h
    · cases h
      rfl
  | middle =>
    unfold acceptFragment at h
    dsimp only at h
    split at h
    · cases h
    split at h
    · cases h
    · cases h
      rfl
  | last =>
    unfold acceptFragment at h
    dsimp only at h
    split at h
    · cases h
    split at h
    · cases h
    · exact (hfinish h :)

variable {data : Bytes}

theorem consumePadding_advances (h : following (r.consumePadding data) = some r') :
    r.offset < r'.offset ∧ r'.offset ≤ data.length := by
  have hpositive := (blockRemaining_spec r.offset).1
  unfold consumePadding at h
  dsimp only at h
  split at h
  · cases h
  split at h
  · cases h
  · cases h
    show r.offset < r.offset + _ ∧ r.offset + _ ≤ data.length
    omega

variable {update : Update}

theorem readFragment_advances (hheader : headerSize ≤ data.length - r.offset)
    (h : following (r.readFragment update data) = some r') :
    r.offset < r'.offset ∧ r'.offset ≤ data.length := by
  have hsize : headerSize = 11 := rfl
  unfold readFragment at h
  dsimp only at h
  split at h
  · cases h
  split at h
  · cases h
  split at h
  · cases h
  split at h
  · cases h
  split at h
  · cases h
  split at h
  · cases h
  · have hoffset := acceptFragment_offset h
    dsimp only at hoffset
    omega

/-- Whenever a round lets the scan go on, the reader has moved, and not past the end. -/
theorem step_advances (h : following (r.step update data) = some r') :
    r.offset < r'.offset ∧ r'.offset ≤ data.length := by
  unfold step at h
  split at h
  · split at h <;> cases h
  split at h
  · exact consumePadding_advances h
  split at h
  · cases h
  · exact readFragment_advances (not_lt.mp ‹_›) h

/-- `Next`: the next record, if there is one, and the reader afterwards. -/
def next (update : Update) (data : Bytes) (r : Reader) : Option Record × Reader :=
  match _hround : r.step update data with
  | .more r' => next update data r'
  | .record record r' => (some record, r')
  | .stop r' => (none, r')
termination_by data.length - r.offset
decreasing_by
  obtain ⟨hlt, hle⟩ := step_advances (congrArg following _hround)
  omega

theorem next_eq (update : Update) (data : Bytes) (r : Reader) :
    r.next update data =
      match r.step update data with
      | .more r' => r'.next update data
      | .record record r' => (some record, r')
      | .stop r' => (none, r') := by
  rw [next]
  split <;> rename_i hround <;> rw [hround]

theorem next_advances (update : Update) (data : Bytes) (r : Reader) {record : Record}
    (h : r.next update data = (some record, r')) :
    r.offset < r'.offset ∧ r'.offset ≤ data.length := by
  rw [next_eq] at h
  rcases hround : r.step update data with r₁ | ⟨record', r₁⟩ | r₁
  · obtain ⟨hlt, hle⟩ := step_advances (congrArg following hround)
    rw [hround] at h
    have hrest := next_advances update data r₁ h
    exact ⟨hlt.trans hrest.1, hrest.2⟩
  · rw [hround] at h
    cases h
    exact step_advances (congrArg following hround)
  · rw [hround] at h
    cases h
termination_by data.length - r.offset

/-- The loop of `recoverFromReader`: all records that `Next` delivers, and the reader at the
end. -/
def scan (update : Update) (data : Bytes) (r : Reader) : List Record × Reader :=
  match _hnext : r.next update data with
  | (some record, r') => (record :: (scan update data r').1, (scan update data r').2)
  | (none, r') => ([], r')
termination_by data.length - r.offset
decreasing_by
  all_goals
    obtain ⟨hlt, hle⟩ := next_advances update data r _hnext
    omega

theorem scan_next (update : Update) (data : Bytes) (r : Reader) :
    r.scan update data =
      match r.next update data with
      | (some record, r') => (record :: (r'.scan update data).1, (r'.scan update data).2)
      | (none, r') => ([], r') := by
  rw [scan]
  split <;> rename_i hnext <;> rw [hnext]

/-- A scan follows the rounds of the reader. -/
theorem scan_eq (update : Update) (data : Bytes) (r : Reader) :
    r.scan update data =
      match r.step update data with
      | .more r' => r'.scan update data
      | .record record r' => (record :: (r'.scan update data).1, (r'.scan update data).2)
      | .stop r' => ([], r') := by
  rw [scan_next, next_eq]
  rcases r.step update data with r' | ⟨record, r'⟩ | r'
  · exact (scan_next update data r').symm
  · rfl
  · rfl

end Reader

/-- `RecoveryResult`. -/
structure RecoveryResult where
  validEnd : ℕ
  fileEnd : ℕ
  records : ℕ
  tailTruncated : Bool
deriving DecidableEq, Repr

/-- `Recover`: the records, the result and the error of a scan of the file. -/
def recover (update : Update) (data : Bytes) : List Record × RecoveryResult × Option Error :=
  let (records, r) := Reader.scan update data {}
  (records,
    { validEnd := r.validEnd
      fileEnd := data.length
      records := records.length
      tailTruncated := r.tail.isSome },
    r.err)

/-- `RepairTail`: the file afterwards. -/
def repairTail (update : Update) (data : Bytes) (recovered : RecoveryResult) :
    Except Error Bytes :=
  if !recovered.tailTruncated then .error .noTruncatedTail
  else
    match recover update data with
    | (_, _, some err) => .error (.wrap "rescan WAL before tail repair" err)
    | (_, actual, none) =>
      if actual ≠ recovered ∨ !actual.tailTruncated then .error .recoveryStateChanged
      else .ok (data.take recovered.validEnd)

/-- `OpenWriter`: the file that the writer continues. -/
def openWriter (update : Update) (data : Bytes) : Except Error Bytes :=
  match recover update data with
  | (_, _, some err) => .error (.wrap "inspect WAL" err)
  | (_, result, none) =>
    if result.tailTruncated then .error (.wrap "open WAL" .truncatedTail) else .ok data

end RivetDB.Wal
