import Mathlib.Data.List.Sort
import RivetDB.Program.Prog
import RivetDB.Raft.Types

/-!
# Membership configurations

`membership.go`: the canonical form of a configuration, its validity, the
quorums it asks for, its binary encoding inside log entries and the transitions
between configurations.  A change of voters goes from a stable configuration to
a joint one and from there to the new stable one.
-/

namespace RivetDB.Raft

open List Fallible Codec

namespace Configuration

/-- `normalizeConfiguration`: every identifier list sorted. -/
def normalize (value : Configuration) : Configuration :=
  { value with
    oldVoters := value.oldVoters.insertionSort (· ≤ ·)
    newVoters := value.newVoters.insertionSort (· ≤ ·)
    learners := value.learners.insertionSort (· ≤ ·) }

/-- The loop of the `check` closure of `validateConfiguration`: identifiers are
non-zero, differ from their predecessor and, unless voters may overlap, were not
seen before.  Returns the identifiers seen so far. -/
def check (overlapVoters : Bool) :
    Option NodeID → List NodeID → List NodeID → Bool × List NodeID
  | _, [], seen => (true, seen)
  | previous, id :: ids, seen =>
    if id = 0 ∨ previous = some id then (false, seen)
    else if id ∈ seen ∧ !overlapVoters then (false, seen)
    else check overlapVoters (some id) ids (id :: seen)

/-- The loop over the learners: they are also disjoint from both voter sets. -/
def checkLearners (value : Configuration) : Option NodeID → List NodeID → Bool
  | _, [] => true
  | previous, id :: ids =>
    if id = 0 ∨ previous = some id ∨ id ∈ value.oldVoters ∨ id ∈ value.newVoters
    then false
    else checkLearners value (some id) ids

/-- `validateConfiguration`. -/
def validate (value : Configuration) : Except Error Unit := do
  if value.version = 0 ∨ value.oldVoters = [] then
    throw .invalidConfig
  let value := value.normalize
  let (ok, seen) := check false none value.oldVoters []
  if !ok then
    throw .invalidConfig
  -- old and new voter sets intentionally overlap in joint consensus
  if !(check true none value.newVoters seen).1 then
    throw .invalidConfig
  if !checkLearners value none value.learners then
    throw .invalidConfig

def joint (c : Configuration) : Bool := c.newVoters ≠ []

def voter (c : Configuration) (id : NodeID) : Bool := id ∈ c.oldVoters || id ∈ c.newVoters

def learner (c : Configuration) (id : NodeID) : Bool := id ∈ c.learners

/-- `slices.Compact`: runs of equal elements become one. -/
def compact : List NodeID → List NodeID
  | [] => []
  | [id] => [id]
  | id :: id' :: ids =>
    if id = id' then compact (id' :: ids) else id :: compact (id' :: ids)

def members (c : Configuration) : List NodeID :=
  compact ((c.oldVoters ++ c.newVoters ++ c.learners).insertionSort (· ≤ ·))

/-- `majorityAcknowledged`. -/
def majorityAcknowledged (voters : List NodeID) (acknowledged : NodeID → Bool) : Bool :=
  voters.countP acknowledged ≥ Raft.quorum voters.length

/-- `Quorum`: a majority of the old voters and, while joint, of the new ones. -/
def quorum (c : Configuration) (acknowledged : NodeID → Bool) : Bool :=
  if !majorityAcknowledged c.oldVoters acknowledged then false
  else !c.joint || majorityAcknowledged c.newVoters acknowledged

/-- `EncodeConfiguration`. -/
def encode (value : Configuration) : Except Error Bytes := do
  let value := value.normalize
  value.validate
  if value.oldVoters.length > 255 ∨ value.newVoters.length > 255 ∨
      value.learners.length > 255 then
    throw .resourceLimit
  return [1, UInt8.ofNat value.oldVoters.length, UInt8.ofNat value.newVoters.length,
      UInt8.ofNat value.learners.length] ++
    putLE 8 value.version.toNat ++
    (value.oldVoters ++ value.newVoters ++ value.learners).flatMap fun id => putLE 8 id.toNat

/-- The inner loop of `DecodeConfiguration`: `count` identifiers of eight bytes. -/
def decodeIDs : ℕ → Bytes → List NodeID
  | 0, _ => []
  | count + 1, encoded =>
    UInt64.ofNat (getLE (encoded.take 8)) :: decodeIDs count (encoded.drop 8)

/-- `DecodeConfiguration`. -/
def decode (encoded : Bytes) : Except Error Configuration :=
  match encoded with
  | layout :: old :: new :: learners :: rest => do
      if rest.length < 8 ∨ layout ≠ 1 then
        throw .invalidConfig
      if rest.length ≠ 8 + 8 * (old.toNat + new.toNat + learners.toNat) then
        throw .invalidConfig
      let ids := rest.drop 8
      let result : Configuration :=
        { version := UInt64.ofNat (getLE (rest.take 8))
          oldVoters := decodeIDs old.toNat ids
          newVoters := decodeIDs new.toNat (ids.drop (8 * old.toNat))
          learners :=
            decodeIDs learners.toNat (ids.drop (8 * (old.toNat + new.toNat))) }
      result.validate
      return result.normalize
  | _ => throw .invalidConfig

/-- `validateConfigurationTransition`. -/
def validateTransition (source target : Configuration) : Except Error Unit := do
  let source := source.normalize
  let target := target.normalize
  source.validate
  target.validate
  if target.version ≠ source.version + 1 then
    throw .configTransition
  if source.joint then
    if target.joint ∨ target.oldVoters ≠ source.newVoters then
      throw .configTransition
    return
  if target.joint then
    if target.oldVoters ≠ source.oldVoters then
      throw .configTransition
    return
  -- stable-to-stable is learner-only: voters cannot change
  if target.oldVoters ≠ source.oldVoters then
    throw .configTransition

/-! ### Facts about configurations -/

theorem pairwise_sort (ids : List NodeID) : (ids.insertionSort (· ≤ ·)).Pairwise (· ≤ ·) :=
  have : Std.Total (α := NodeID) (· ≤ ·) := ⟨UInt64.le_total⟩
  have : IsTrans NodeID (· ≤ ·) := ⟨fun _ _ _ => UInt64.le_trans⟩
  pairwise_insertionSort _ _

@[simp] theorem sort_sort (ids : List NodeID) :
    (ids.insertionSort (· ≤ ·)).insertionSort (· ≤ ·) = ids.insertionSort (· ≤ ·) :=
  (pairwise_sort ids).insertionSort_eq

@[simp] theorem normalize_normalize (c : Configuration) : c.normalize.normalize = c.normalize := by
  simp [normalize]

variable {c : Configuration}

theorem validate_ok (h : c.validate = .ok ()) : c.version ≠ 0 ∧ c.oldVoters ≠ [] := by
  unfold validate at h
  by_contra hc
  rw [if_pos (by tauto)] at h
  cases h

theorem decodeIDs_flatMap (ids : List NodeID) (rest : Bytes) :
    decodeIDs ids.length ((ids.flatMap fun id => putLE 8 id.toNat) ++ rest) = ids := by
  induction ids with
  | nil => rfl
  | cons id ids ih =>
    have hid : UInt64.ofNat (getLE (putLE 8 id.toNat)) = id := by
      rw [getLE_putLE_of_lt (by have := id.toNat_lt; omega), UInt64.ofNat_toNat]
    simp only [length_cons, decodeIDs, flatMap_cons, append_assoc]
    rw [take_append_of_le_length (by simp), take_of_length_le (by simp), hid,
      drop_append_of_le_length (by simp), drop_of_length_le (by simp),
      nil_append, ih]

theorem length_flatMap_putLE (ids : List NodeID) :
    (ids.flatMap fun id => putLE 8 id.toNat).length = 8 * ids.length := by
  simp [length_flatMap, length_putLE, mul_comm]

variable {encoded : Bytes}

/-- A configuration survives its encoding, in canonical form. -/
theorem decode_encode (h : c.encode = .ok encoded) : decode encoded = .ok c.normalize := by
  simp only [encode, bind_eq_ok, throw_bind, ite_throw_eq_ok] at h
  obtain ⟨u, hvalid, hlen, hbytes⟩ := h
  cases hbytes
  set d := c.normalize with hd
  have hdd : d.normalize = d := normalize_normalize c
  simp only [not_or, Nat.not_lt] at hlen
  obtain ⟨hold, hnew, hlearn⟩ := hlen
  have hcount : ∀ {ids : List NodeID}, ids.length ≤ 255 →
      (UInt8.ofNat ids.length).toNat = ids.length := fun hle => by
    rw [UInt8.toNat_ofNat']
    omega
  have hversion : UInt64.ofNat (getLE (putLE 8 d.version.toNat)) = d.version := by
    rw [getLE_putLE_of_lt (by have := d.version.toNat_lt; omega), UInt64.ofNat_toNat]
  have htake : ∀ rest : Bytes, (putLE 8 d.version.toNat ++ rest).take 8 =
      putLE 8 d.version.toNat := fun rest => by
    rw [take_append_of_le_length (by simp), take_of_length_le (by simp)]
  have hdrop : ∀ rest : Bytes, (putLE 8 d.version.toNat ++ rest).drop 8 = rest :=
    fun rest => by
      rw [drop_append_of_le_length (by simp), drop_of_length_le (by simp), nil_append]
  have hskip : ∀ (ids : List NodeID) (rest : Bytes),
      ((ids.flatMap fun id => putLE 8 id.toNat) ++ rest).drop (8 * ids.length) = rest :=
    fun ids rest => drop_left' (length_flatMap_putLE ids)
  simp only [cons_append, nil_append, decode, length_append,
    length_putLE, length_flatMap_putLE, hcount hold, hcount hnew, hcount hlearn,
    flatMap_append, htake, hdrop, hversion, append_assoc, hskip]
  rw [if_neg (by simp), if_neg (by omega), Nat.mul_add, ← drop_drop, hskip, hskip,
    decodeIDs_flatMap, decodeIDs_flatMap]
  have hlast := decodeIDs_flatMap d.learners []
  rw [append_nil] at hlast
  rw [hlast, hvalid]
  exact congrArg Except.ok hdd

@[simp] theorem normalize_oldVoters_eq_nil : c.normalize.oldVoters = [] ↔ c.oldVoters = [] := by
  have h := length_insertionSort (r := (· ≤ ·)) c.oldVoters
  rw [← length_eq_zero_iff, ← length_eq_zero_iff]
  exact ⟨fun h' => h ▸ h', fun h' => h.trans h'⟩

theorem decode_oldVoters (h : decode encoded = .ok c) : c.oldVoters ≠ [] := by
  unfold decode at h
  split at h
  · simp only [throw_bind, ite_throw_eq_ok, bind_eq_ok] at h
    obtain ⟨-, -, u, hvalid, hc⟩ := h
    cases hc
    exact fun hnil => (validate_ok hvalid).2 (normalize_oldVoters_eq_nil.mp hnil)
  · cases h

/-- Whether a configuration is valid does not depend on the order of its lists. -/
theorem validate_normalize : c.normalize.validate = .ok () ↔ c.validate = .ok () := by
  by_cases hset : c.version = 0 ∨ c.oldVoters = []
  · refine ⟨fun h => absurd (validate_ok h) ?_, fun h => absurd (validate_ok h) (by tauto)⟩
    rw [show c.normalize.version = c.version from rfl, Ne, Ne, normalize_oldVoters_eq_nil]
    tauto
  · unfold validate
    rw [normalize_normalize, if_neg hset, if_neg]
    rwa [show c.normalize.version = c.version from rfl, normalize_oldVoters_eq_nil]

variable {source target : Configuration}

theorem validate_of_transition
    (h : source.validateTransition target = .ok ()) : target.validate = .ok () := by
  simp only [validateTransition, throw_bind, bind_eq_ok] at h
  obtain ⟨_, -, _, htarget, -⟩ := h
  exact validate_normalize.mp htarget

/-- What an admitted transition looks like. -/
theorem validateTransition_ok (h : source.validateTransition target = .ok ()) :
    target.version.toNat = source.version.toNat + 1 ∧ target.oldVoters ≠ [] ∧
      (if source.normalize.newVoters ≠ [] then
        target.normalize.oldVoters = source.normalize.newVoters
      else target.normalize.oldVoters = source.normalize.oldVoters) := by
  simp only [validateTransition, throw_bind, ite_throw_eq_ok, bind_eq_ok] at h
  obtain ⟨_, -, _, htarget, hversion, hvoters⟩ := h
  have hvalid := validate_ok htarget
  have hver : target.version = source.version + 1 := by simpa [normalize] using hversion
  refine ⟨?_, fun hnil => hvalid.2 (normalize_oldVoters_eq_nil.mpr hnil), ?_⟩
  · have hne : target.version.toNat ≠ 0 := by
      intro h0
      exact hvalid.1 (UInt64.toNat_inj.mp h0)
    have := source.version.toNat_lt
    rw [hver, UInt64.toNat_add] at hne ⊢
    simp only [UInt64.reduceToNat] at hne ⊢
    omega
  · simp only [joint, decide_eq_true_eq] at hvoters
    split at hvoters
    · rename_i hjoint
      rw [ite_throw_eq_ok] at hvoters
      rw [if_pos hjoint]
      tauto
    · rename_i hjoint
      rw [if_neg hjoint]
      split at hvoters <;> rw [ite_throw_eq_ok] at hvoters <;> tauto

end Configuration

end RivetDB.Raft
