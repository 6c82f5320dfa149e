import RivetDB.Program.Prog
import RivetDB.Codec.Bytes

/-!
# Values of the transaction protocol

`txn/types.go` and the validation of `txn/codec.go`: the records that the home
range and the participants of a transaction keep, and the operations that are
replicated to change them.  Timestamps, epochs and range numbers are natural
numbers; `Fits` says that they are values of `uint64`.
-/

namespace RivetDB.Txn

open List Fallible

/-- `MaxWrites`. -/
def maxWrites : ℕ := 1024

/-- `MaxParticipants`. -/
def maxParticipants : ℕ := 64

/-- `MaxWriteBytes`. -/
def maxWriteBytes : ℕ := 8 <<< 20

/-- The sentinel errors of the package. -/
inductive Error where
  | invalid
  | tooLarge
  | protocolConflict
  | writeConflict
  | intentConflict
  | alreadyCommitted
  | alreadyAborted
  | closed
deriving DecidableEq, Repr

/-- The identity of a transaction: an array of sixteen bytes. -/
structure ID where
  bytes : Bytes
  size : bytes.length = 16
deriving DecidableEq, Repr

namespace ID

/-- `copy(id[:], source)` into a zero array. -/
def copy (source : Bytes) : ID := ⟨(source ++ List.replicate 16 0).take 16, by simp⟩

/-- `IsZero`. -/
def isZero (id : ID) : Bool := id.bytes = List.replicate 16 0

theorem copy_bytes (id : ID) : copy id.bytes = id := by
  obtain ⟨bytes, size⟩ := id
  simp [copy, take_append_of_le_length size.ge, take_of_length_le size.le]

end ID

/-- `Status` of a transaction record. -/
inductive Status where
  | pending
  | committed
  | aborted
deriving DecidableEq, Repr

/-- `Terminal`. -/
def Status.terminal (s : Status) : Bool := s = .committed || s = .aborted

/-- `ParticipantStatus`. -/
inductive ParticipantStatus where
  | prepared
  | rejected
  | committed
  | aborted
deriving DecidableEq, Repr

/-- A range that takes part in a transaction, under one of its generations. -/
structure Participant where
  rangeID : ℕ
  generation : ℕ
deriving DecidableEq, Repr

structure Write where
  key : Bytes
  value : Bytes := []
  delete : Bool := false
deriving DecidableEq, Repr

/-- What the home range keeps about a transaction. -/
structure Record where
  id : ID
  status : Status
  readTime : ℕ
  commitTime : ℕ
  epoch : ℕ
  home : Participant
  participants : List Participant
deriving DecidableEq, Repr

/-- What a participant keeps about a transaction. -/
structure ParticipantRecord where
  id : ID
  status : ParticipantStatus
  readTime : ℕ
  commitTime : ℕ
  epoch : ℕ
  home : Participant
  writes : List Write := []
  reason : Bytes := []
deriving DecidableEq, Repr

inductive OperationType where
  | create
  | prepare
  | commit
  | abort
  | takeover
  | resolveCommit
  | resolveAbort
deriving DecidableEq, Repr

/-- One replicated step of the protocol. -/
structure Operation where
  type : OperationType
  id : ID
  readTime : ℕ
  commitTime : ℕ
  epoch : ℕ
  home : Participant
  participants : List Participant := []
  writes : List Write := []
deriving DecidableEq, Repr

/-- A provisional value, as it is stored under its key. -/
structure Intent where
  id : ID
  readTime : ℕ
  commitTime : ℕ
  epoch : ℕ
  home : Participant
  delete : Bool
  value : Bytes
deriving DecidableEq, Repr

/-! ### Validation -/

/-- The switch of `ValidateOperation`: which operations carry participants or
writes. -/
def Operation.validateShape (op : Operation) : Except Error Unit :=
  match op.type with
  | .create => if op.participants = [] ∨ op.writes ≠ [] then throw .invalid else pure ()
  | .prepare => if op.participants ≠ [] ∨ op.writes = [] then throw .invalid else pure ()
  | _ => if op.participants ≠ [] ∨ op.writes ≠ [] then throw .invalid else pure ()

/-- The loop of `ValidateOperation` over the participants, after one of range
`previous`. -/
def validateParticipants : Option ℕ → List Participant → Except Error Unit
  | _, [] => .ok ()
  | previous, participant :: rest =>
    if participant.rangeID = 0 ∨ participant.generation = 0 ∨
        previous.any (· ≥ participant.rangeID) then
      .error .invalid
    else validateParticipants (some participant.rangeID) rest

/-- The loop of `ValidateOperation` over the writes, after one of key `previous`
and `total` bytes. -/
def validateWrites : Option Bytes → ℕ → List Write → Except Error Unit
  | _, _, [] => .ok ()
  | previous, total, write :: rest =>
    if (write.delete ∧ write.value ≠ []) ∨ previous.any (fun key => ¬ key < write.key) then
      .error .invalid
    else if total + (write.key.length + write.value.length) > maxWriteBytes then
      .error .tooLarge
    else validateWrites (some write.key) (total + (write.key.length + write.value.length)) rest

/-- `ValidateOperation`. -/
def Operation.validate (op : Operation) : Except Error Unit := do
  if op.id.isZero ∨ op.epoch = 0 ∨ op.home.rangeID = 0 ∨ op.home.generation = 0 ∨
      op.readTime = 0 ∨ op.commitTime ≤ op.readTime then
    throw .invalid
  op.validateShape
  if op.participants.length > maxParticipants ∨ op.writes.length > maxWrites then
    throw .tooLarge
  validateParticipants none op.participants
  validateWrites none 0 op.writes

/-- The check that `EncodeIntent` and `DecodeIntent` share. -/
def Intent.valid (intent : Intent) : Bool :=
  !(intent.id.isZero || intent.readTime = 0 || intent.commitTime ≤ intent.readTime ||
    intent.epoch = 0 || intent.home.rangeID = 0 || intent.home.generation = 0 ||
    intent.delete && intent.value ≠ [])

/-! ### What validation guarantees -/

/-- The numbers of a participant are values of `uint64`. -/
def Participant.Fits (p : Participant) : Prop := p.rangeID < 2 ^ 64 ∧ p.generation < 2 ^ 64

/-- The numbers of an operation are values of `uint64`. -/
structure Operation.Fits (op : Operation) : Prop where
  readTime : op.readTime < 2 ^ 64
  commitTime : op.commitTime < 2 ^ 64
  epoch : op.epoch < 2 ^ 64
  home : op.home.Fits
  participants : ∀ p ∈ op.participants, p.Fits

/-- What a validated operation satisfies. -/
structure Operation.Valid (op : Operation) : Prop where
  id : op.id.isZero = false
  epoch : 0 < op.epoch
  home : 0 < op.home.rangeID ∧ 0 < op.home.generation
  readTime : 0 < op.readTime
  commitTime : op.readTime < op.commitTime
  participants : op.type = .create ↔ op.participants ≠ []
  writes : op.type = .prepare ↔ op.writes ≠ []
  keys : (op.writes.map Write.key).Pairwise (· < ·)
  deletes : ∀ w ∈ op.writes, w.delete = true → w.value = []

theorem validateWrites_ok {previous : Option Bytes} {total : ℕ} {writes : List Write}
    (h : validateWrites previous total writes = .ok ()) :
    (∀ key ∈ previous, ∀ w ∈ writes, key < w.key) ∧
      (writes.map Write.key).Pairwise (· < ·) ∧
      (∀ w ∈ writes, w.delete = true → w.value = []) ∧
      ∀ w ∈ writes, w.key.length + w.value.length ≤ maxWriteBytes := by
  induction writes generalizing previous total with
  | nil => simp
  | cons write rest ih =>
    unfold validateWrites at h
    split at h
    · cases h
    split at h
    · cases h
    rename_i hbad hsize
    obtain ⟨hrest, hpairwise, hdeletes, hsizes⟩ := ih h
    have hhead := hrest write.key rfl
    simp only [not_or, not_and, Option.any_eq_true, decide_eq_true_eq, not_exists, not_not] at hbad
    refine ⟨fun key hkey w hw => ?_, ?_, ?_, ?_⟩
    · have hlt := hbad.2 key hkey
      rcases mem_cons.mp hw with rfl | hw
      · exact hlt
      · exact List.lt_trans hlt (hhead w hw)
    · rw [map_cons, pairwise_cons]
      refine ⟨fun key hkey => ?_, hpairwise⟩
      obtain ⟨w, hw, rfl⟩ := mem_map.mp hkey
      exact hhead w hw
    · rintro w hw hdelete
      rcases mem_cons.mp hw with rfl | hw
      · exact hbad.1 hdelete
      · exact hdeletes w hw hdelete
    · rintro w hw
      rcases mem_cons.mp hw with rfl | hw
      · omega
      · exact hsizes w hw

theorem Operation.valid_of_validate {op : Operation} (h : op.validate = .ok ()) : op.Valid := by
  simp only [Operation.validate, throw_bind, ite_throw_eq_ok, bind_eq_ok] at h
  obtain ⟨hfields, _, hshape, -, _, -, hwrites⟩ := h
  simp only [not_or, Bool.not_eq_true] at hfields
  obtain ⟨hid, hepoch, hrange, hgen, hread, hcommit⟩ := hfields
  obtain ⟨-, hkeys, hdeletes, -⟩ := validateWrites_ok hwrites
  have hshape' : (op.type = .create ↔ op.participants ≠ []) ∧
      (op.type = .prepare ↔ op.writes ≠ []) := by
    unfold Operation.validateShape at hshape
    split at hshape <;> simp_all [ite_throw_eq_ok]
  exact ⟨hid, by omega, ⟨by omega, by omega⟩, by omega, by omega, hshape'.1, hshape'.2, hkeys,
    hdeletes⟩

end RivetDB.Txn
