import RivetDB.Raft.Node

/-!
# The file store of a Raft node

`file_store.go`: the whole durable state of a node as one file, a header, a
payload and a checksum.  `Save` validates the state, encodes it and replaces the
file; the limits of the format are checked while encoding, so a valid state can
still be one the store does not take.

`Fits` says which valid states it takes, in terms of their sizes alone
(`refuse_eq`): at most `fileStoreMaxEntries` entries, configurations whose lists
can be counted in one byte, and a payload that leaves room for header and
checksum in `fileStoreMaxBytes`.
-/

namespace RivetDB.Raft

open List Fallible Codec

def fileStoreVersion : ℕ := 2

def fileStoreHeaderSize : ℕ := 16

def fileStoreMaxBytes : ℕ := 256 <<< 20

def fileStoreMaxCommand : ℕ := 16 <<< 20

def fileStoreMaxEntries : ℕ := 4000000

/-- `fileStoreMagic`: the bytes of "RIVRAFT" and a zero byte. -/
def fileStoreMagic : Bytes := [82, 73, 86, 82, 65, 70, 84, 0]

/-! ### Encoding -/

/-- The byte that stands for an entry type. -/
def EntryType.code : EntryType → UInt8
  | .noOp => 1
  | .command => 2
  | .config => 3

/-- One entry of the payload. -/
def Entry.encode (entry : Entry) : Bytes :=
  putLE 8 entry.index ++ putLE 8 entry.term ++ [entry.kind.code, 0, 0, 0] ++
    putLE 4 entry.command.length ++ entry.command

/-- A configuration field of the payload: empty while no configuration is set. -/
def Configuration.encodeSet (c : Configuration) : Except Error Bytes :=
  if c.version ≠ 0 then c.encode else .ok []

/-- The loop of `encodeStatePayload` that adds up the size of the payload. -/
def payloadSize : ℕ → List Entry → Except Error ℕ
  | size, [] => .ok size
  | size, entry :: rest =>
    if entry.command.length > fileStoreMaxCommand then .error .resourceLimit
    else if size + (24 + entry.command.length) > fileStoreMaxBytes then .error .resourceLimit
    else payloadSize (size + (24 + entry.command.length)) rest

/-- `encodeStatePayload`. -/
def encodeStatePayload (state : PersistentState) : Except Error Bytes := do
  if state.snapshot.data.length > fileStoreMaxCommand ∨
      state.entries.length > fileStoreMaxEntries then
    throw .resourceLimit
  let configuration ← state.config.encodeSet
  let snapshotConfiguration ← state.snapshot.config.encodeSet
  let _ ← payloadSize (8 * 4 + 4 + state.snapshot.data.length + 4 + 4 +
    snapshotConfiguration.length + 4 + configuration.length) state.entries
  return putLE 8 state.hardState.term ++ putLE 8 state.hardState.votedFor.toNat ++
    putLE 8 state.snapshot.index ++ putLE 8 state.snapshot.term ++
    putLE 4 state.snapshot.data.length ++ state.snapshot.data ++
    putLE 4 state.entries.length ++ state.entries.flatMap Entry.encode ++
    putLE 4 snapshotConfiguration.length ++ snapshotConfiguration ++
    putLE 4 configuration.length ++ configuration

/-- `encodeFileState`. -/
def encodeFileState (crc32 : Bytes → ℕ) (state : PersistentState) : Except Error Bytes := do
  let payload ← encodeStatePayload state
  if payload.length + fileStoreHeaderSize + 4 > fileStoreMaxBytes then
    throw .resourceLimit
  let covered := fileStoreMagic ++ putLE 2 fileStoreVersion ++ [0, 0] ++
    putLE 4 payload.length ++ payload
  return covered ++ putLE 4 (crc32 covered)

/-- The states `FileStore.Save` does not take, once they are valid. -/
def FileStore.refuse (crc32 : Bytes → ℕ) (state : PersistentState) : Option Error :=
  match encodeFileState crc32 state with
  | .error err => some err
  | .ok _ => none

/-- The store is a file store whose file operations never fail. -/
structure Store.OnFile (crc32 : Bytes → ℕ) (s : Store) : Prop where
  refuse : s.refuse = FileStore.refuse crc32
  saveErr : s.saveErr = fun _ => none

/-! ### Sizes -/

namespace Configuration

/-- Every list of the configuration can be counted in one byte. -/
def Countable (c : Configuration) : Prop :=
  c.oldVoters.length ≤ 255 ∧ c.newVoters.length ≤ 255 ∧ c.learners.length ≤ 255

instance (c : Configuration) : Decidable c.Countable := inferInstanceAs (Decidable (_ ∧ _ ∧ _))

/-- The length of a configuration field. -/
def fieldLength (c : Configuration) : ℕ :=
  if c.version ≠ 0 then
    12 + 8 * (c.oldVoters.length + c.newVoters.length + c.learners.length)
  else 0

variable {c : Configuration}

/-- A valid configuration is encoded exactly when its lists can be counted. -/
theorem encodeSet_eq (h : c.version ≠ 0 → c.validate = .ok ()) :
    (c.version ≠ 0 → c.Countable) ∧
        (∃ encoded, c.encodeSet = .ok encoded ∧ encoded.length = c.fieldLength) ∨
      ¬ (c.version ≠ 0 → c.Countable) ∧ c.encodeSet = .error .resourceLimit := by
  by_cases hversion : c.version ≠ 0
  · have hcounts : c.normalize.oldVoters.length = c.oldVoters.length ∧
        c.normalize.newVoters.length = c.newVoters.length ∧
        c.normalize.learners.length = c.learners.length :=
      ⟨length_insertionSort _ _, length_insertionSort _ _, length_insertionSort _ _⟩
    simp only [encodeSet, if_pos hversion, encode, validate_normalize.mpr (h hversion),
      ok_bind, fieldLength, hcounts]
    by_cases hcount : c.Countable
    · refine .inl ⟨fun _ => hcount, ?_⟩
      rw [if_neg (by unfold Countable at hcount; omega)]
      refine ⟨_, rfl, ?_⟩
      simp only [length_append, length_cons, length_nil, length_putLE,
        length_flatMap_putLE, hcounts]
    · refine .inr ⟨fun hall => hcount (hall hversion), ?_⟩
      rw [if_pos (by unfold Countable at hcount; omega)]
      rfl
  · exact .inl ⟨fun hv => absurd hv hversion, [], by simp [encodeSet, hversion],
      by simp [fieldLength, hversion]⟩

end Configuration

/-- What the entries of a log take up in the payload. -/
def entriesLength (entries : List Entry) : ℕ :=
  (entries.map fun entry => 24 + entry.command.length).sum

theorem Entry.length_encode (entry : Entry) : entry.encode.length = 24 + entry.command.length := by
  simp only [Entry.encode, length_append, length_putLE, length_cons, length_nil]

theorem length_flatMap_encode (entries : List Entry) :
    (entries.flatMap Entry.encode).length = entriesLength entries := by
  rw [length_flatMap, entriesLength]
  simp only [Entry.length_encode]

variable {entries : List Entry}

/-- The loop over the sizes stops at the first excess: with small commands it succeeds exactly
when the total is within the limit. -/
theorem payloadSize_eq {size : ℕ}
    (hsmall : ∀ entry ∈ entries, entry.command.length ≤ fileStoreMaxCommand) :
    payloadSize size entries =
      if entries = [] ∨ size + entriesLength entries ≤ fileStoreMaxBytes
      then .ok (size + entriesLength entries) else .error .resourceLimit := by
  induction entries generalizing size with
  | nil => simp [payloadSize, entriesLength]
  | cons entry rest ih =>
    have hlength : entriesLength (entry :: rest) =
        24 + entry.command.length + entriesLength rest := rfl
    have hentry := hsmall entry mem_cons_self
    rw [payloadSize, if_neg (by omega), hlength]
    by_cases hover : size + (24 + entry.command.length) > fileStoreMaxBytes
    · rw [if_pos hover, if_neg (by simp; omega)]
    · rw [if_neg hover, ih fun e he => hsmall e (mem_cons_of_mem _ he)]
      by_cases hrest : rest = []
      · subst hrest
        simp only [entriesLength, map_nil, sum_nil, true_or, if_true]
        rw [if_pos (by simp; omega)]
        simp
      · simp only [hrest, false_or, reduceCtorEq, Nat.add_assoc]

/-- The length of the payload a state is encoded to. -/
def PersistentState.payloadLength (d : PersistentState) : ℕ :=
  8 * 4 + 4 + d.snapshot.data.length + 4 + 4 + d.snapshot.config.fieldLength + 4 +
    d.config.fieldLength + entriesLength d.entries

/-- The file store takes the state, if it is valid. -/
structure PersistentState.Fits (d : PersistentState) : Prop where
  entries : d.entries.length ≤ fileStoreMaxEntries
  config : d.config.version ≠ 0 → d.config.Countable
  snapshotConfig : d.snapshot.config.version ≠ 0 → d.snapshot.config.Countable
  payload : d.payloadLength + fileStoreHeaderSize + 4 ≤ fileStoreMaxBytes

instance (d : PersistentState) : Decidable d.Fits :=
  decidable_of_iff (d.entries.length ≤ fileStoreMaxEntries ∧
      (d.config.version ≠ 0 → d.config.Countable) ∧
      (d.snapshot.config.version ≠ 0 → d.snapshot.config.Countable) ∧
      d.payloadLength + fileStoreHeaderSize + 4 ≤ fileStoreMaxBytes)
    ⟨fun ⟨he, hc, hs, hp⟩ => ⟨he, hc, hs, hp⟩,
      fun h => ⟨h.entries, h.config, h.snapshotConfig, h.payload⟩⟩

/-! ### Which states the store takes -/

theorem validateEntries_small {hardTerm offset want lastTerm last : ℕ}
    (h : validateEntries hardTerm offset want lastTerm entries = .ok last) :
    ∀ entry ∈ entries, entry.command.length ≤ maxCommandBytes := by
  induction entries generalizing offset want lastTerm with
  | nil => exact fun _ he => absurd he not_mem_nil
  | cons entry rest ih =>
    simp only [validateEntries, ite_error_eq_ok] at h
    obtain ⟨hentry, -, hrest⟩ := h
    intro e he
    rcases mem_cons.mp he with rfl | he
    · omega
    · exact ih hrest e he

variable {d : PersistentState}

/-- What a valid state says about sizes and configurations. -/
theorem validatePersistent_sizes (h : validatePersistent d = .ok ()) :
    (d.config.version ≠ 0 → d.config.validate = .ok ()) ∧
      (d.snapshot.config.version ≠ 0 → d.snapshot.config.validate = .ok ()) ∧
      d.snapshot.data.length ≤ fileStoreMaxCommand ∧
      ∀ entry ∈ d.entries, entry.command.length ≤ fileStoreMaxCommand := by
  simp only [validatePersistent, throw_bind, ite_throw_eq_ok, bind_eq_ok] at h
  obtain ⟨hconfig, -, -, hdata, hsnapshot, -, last, hentries, -⟩ := h
  have hvalid : ∀ {c : Configuration}, ¬ (c.version ≠ 0 ∧ ¬ c.validate.isOk = true) →
      c.version ≠ 0 → c.validate = .ok () := fun hc hv => by
    obtain ⟨_, hok⟩ := isOk_iff.mp (not_not.mp (not_and.mp hc hv))
    exact hok
  exact ⟨hvalid hconfig, hvalid hsnapshot, Nat.not_lt.mp hdata, validateEntries_small hentries⟩

/-- The payload of a valid state: it has the length its parts say, or the state does not fit. -/
theorem encodeStatePayload_eq (h : validatePersistent d = .ok ()) :
    (d.entries.length ≤ fileStoreMaxEntries ∧
        (d.config.version ≠ 0 → d.config.Countable) ∧
        (d.snapshot.config.version ≠ 0 → d.snapshot.config.Countable) ∧
        ∃ payload, encodeStatePayload d = .ok payload ∧ payload.length = d.payloadLength) ∨
      ¬ d.Fits ∧ encodeStatePayload d = .error .resourceLimit := by
  obtain ⟨hconfig, hsnapshot, hdata, hentries⟩ := validatePersistent_sizes h
  unfold encodeStatePayload
  by_cases hmany : d.entries.length > fileStoreMaxEntries
  · refine .inr ⟨fun hfits => absurd hfits.entries (by omega), ?_⟩
    rw [if_pos (.inr hmany)]
    rfl
  rw [if_neg (by omega)]
  rcases Configuration.encodeSet_eq hconfig with ⟨hcount, encoded, hok, hlen⟩ | ⟨hcount, hbad⟩
  swap
  · rw [hbad]
    exact .inr ⟨fun hfits => hcount hfits.config, rfl⟩
  rcases Configuration.encodeSet_eq hsnapshot with
    ⟨hcount', encoded', hok', hlen'⟩ | ⟨hcount', hbad⟩
  swap
  · rw [hok, hbad]
    exact .inr ⟨fun hfits => hcount' hfits.snapshotConfig, rfl⟩
  have hsize : 8 * 4 + 4 + d.snapshot.data.length + 4 + 4 + encoded'.length + 4 +
      encoded.length + entriesLength d.entries = d.payloadLength := by
    rw [hlen, hlen', PersistentState.payloadLength]
  simp only [hok, hok', ok_bind, payloadSize_eq hentries, hsize]
  by_cases hloop : d.entries = [] ∨ d.payloadLength ≤ fileStoreMaxBytes
  · rw [if_pos hloop]
    refine .inl ⟨by omega, hcount, hcount', _, rfl, ?_⟩
    simp only [length_append, length_putLE, length_flatMap_encode]
    omega
  · rw [if_neg hloop]
    refine .inr ⟨fun hfits => hloop (.inr ?_), rfl⟩
    have := hfits.payload
    omega

/-- A valid state is refused exactly when it does not fit, and then for its size. -/
theorem FileStore.refuse_eq (crc32 : Bytes → ℕ) (h : validatePersistent d = .ok ()) :
    FileStore.refuse crc32 d = if d.Fits then none else some .resourceLimit := by
  unfold FileStore.refuse encodeFileState
  rcases encodeStatePayload_eq h with ⟨hmany, hcount, hcount', payload, hok, hlen⟩ | ⟨hfits, hbad⟩
  · simp only [hok, ok_bind, hlen]
    by_cases hover : d.payloadLength + fileStoreHeaderSize + 4 > fileStoreMaxBytes
    · rw [if_pos hover, if_neg fun hfits => absurd hfits.payload (by omega)]
      rfl
    · rw [if_neg hover, if_pos ⟨hmany, hcount, hcount', Nat.not_lt.mp hover⟩]
      rfl
  · rw [hbad, if_neg hfits]
    rfl

end RivetDB.Raft
