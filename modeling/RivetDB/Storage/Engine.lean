import RivetDB.Program.Prog
import RivetDB.Storage.Versions
import Mathlib.Data.List.Perm.Basic
import Mathlib.Data.List.Nodup

/-!
# The storage engine of a replicated range

The part of `storage/engine` that a replicated range drives: committed batches go
into the active table at one version, reads select over all tables.  A table is a
MemTable or an SSTable; both are sorted maps from internal keys to values, so a
table carries that no internal key occurs twice in it.  Two tables may still hold
the same internal key, which a read reports as corruption.

Rotation, flushing and compaction run in the background; `Background` says what
they may change.
-/

namespace RivetDB.Storage

/-- `sstable.MaxUserKeySize`. -/
def maxUserKeySize : ℕ := 1 <<< 20

/-- `sstable.MaxValueSize`. -/
def maxValueSize : ℕ := 64 <<< 20

/-- The errors of the engine and of the write pipeline below it. -/
inductive Error where
  | invalidOptions
  | wrongMode
  | notFound
  | corruption
  | duplicateEntry
  | alreadyApplied
  | conflictingApply
  | applyOrder
  | applyRegression
  | emptyBatch
  | keyTooLarge
  | valueTooLarge
  | deleteHasValue
  | wrap (text : String) (cause : Error)
  | join (left right : Error)
deriving DecidableEq, Repr

/-- One change of a write batch. -/
structure Mutation where
  kind : Kind
  key : Bytes
  value : Bytes := []
deriving DecidableEq, Repr

/-- The version a mutation installs. -/
def Mutation.stored (m : Mutation) (seq : ℕ) : Version :=
  { key := m.key, seq := seq, kind := m.kind, value := m.value }

/-! ### Tables -/

/-- A MemTable or an SSTable. -/
structure Table where
  entries : List Version
  distinct : Distinct entries

namespace Table

def empty : Table := ⟨[], List.nodup_nil⟩

/-- `insertLocked`: an equal internal key has its value replaced. -/
def insert (t : Table) (v : Version) : Table where
  entries := v :: t.entries.filter (·.internal ≠ v.internal)
  distinct := by
    unfold Distinct
    rw [List.map_cons, List.nodup_cons]
    refine ⟨?_, List.Sublist.nodup (List.filter_sublist.map _) t.distinct⟩
    rintro hmem
    obtain ⟨w, hw, heq⟩ := List.mem_map.mp hmem
    simp [heq] at hw

/-- `ApplyVersion`. -/
def applyVersion (t : Table) (version : ℕ) (mutations : List Mutation) : Table :=
  mutations.foldl (fun t m => t.insert (m.stored version)) t

end Table

/-- The first version of `key` at or below `target` in the order of a table. -/
def candidate (key : Bytes) (target : ℕ) : List Version → Option Version
  | [] => none
  | v :: rest =>
    match candidate key target rest with
    | none => if v.key = key ∧ v.seq ≤ target then some v else none
    | some w => if v.key = key ∧ v.seq ≤ target ∧ v.before w then some v else some w

/-- `GetCandidate`. -/
def Table.getCandidate (t : Table) (key : Bytes) (target : ℕ) : Option Version :=
  candidate key target t.entries

/-! ### The engine -/

/-- The engine in one of its two replicated modes.  `applied` is the applied index of
the write pipeline, `durable` the frontier of the manifest, `visible` the latest
visible sequence, and `identities` holds term and digest of the commands applied
since the engine was opened. -/
structure Engine where
  mvcc : Bool
  sha256 : Bytes → Digest
  active : Table := .empty
  older : List Table := []
  visible : Option ℕ := none
  applied : ℕ := 0
  durable : ℕ := 0
  identities : ℕ → Option (ℕ × Digest) := fun _ => none

namespace Engine

def tables (e : Engine) : List Table := e.active :: e.older

/-- Everything stored, wherever it is. -/
def versions (e : Engine) : List Version := e.tables.flatMap Table.entries

/-- The closure `consider` of `getMVCCAt`.  Every table is asked once, so two equal
internal keys come from different files. -/
def consider (best : Option Version) (value : Version) : Except Error (Option Version) :=
  match best with
  | none => .ok (some value)
  | some winner =>
    if value.seq > winner.seq then .ok (some value)
    else if value.seq < winner.seq then .ok best
    else if value.kind ≠ winner.kind then
      .ok (if value.kind.rank < winner.kind.rank then some value else best)
    else .error (.join .corruption .duplicateEntry)

/-- One pass of `getMVCCAt` over the tables. -/
def select (key : Bytes) (target : ℕ) :
    Option Version → List Table → Except Error (Option Version)
  | best, [] => .ok best
  | best, t :: ts =>
    match t.getCandidate key target with
    | none => select key target best ts
    | some value =>
      match consider best value with
      | .error err => .error err
      | .ok best => select key target best ts

/-- The loop of `getMVCCAt`: an abort marker continues in older history. -/
def getLoop (tables : List Table) (key : Bytes) : ℕ → ℕ → Except Error Version
  | 0, _ => .error .notFound
  | fuel + 1, target =>
    match select key target none tables with
    | .error err => .error err
    | .ok none => .error .notFound
    | .ok (some best) =>
      if best.kind = .txnAbort then
        if best.seq = 0 then .error .notFound
        else getLoop tables key fuel (best.seq - 1)
      else .ok best

/-- `GetMVCCAt`.  Every round of the loop leaves at least one version behind, so the
number of versions bounds the rounds. -/
def getMVCCAt (e : Engine) (key : Bytes) (requested : ℕ) : Except Error Version :=
  if key.length > maxUserKeySize then .error .invalidOptions
  else
    match e.visible with
    | none => .error .notFound
    | some latest => getLoop e.tables key (e.versions.length + 1) (min requested latest)

/-- The loop of `validateMutations`. -/
def validateMutationsFrom : ℕ → List Mutation → Except Error Unit
  | _, [] => .ok ()
  | index, mutation :: rest =>
    if mutation.key.length > maxUserKeySize then
      .error (.wrap s!"mutation {index}" .keyTooLarge)
    else if mutation.value.length > maxValueSize then
      .error (.wrap s!"mutation {index}" .valueTooLarge)
    else if !mutation.kind.carriesValue && mutation.value ≠ [] then
      .error (.wrap s!"mutation {index}" .deleteHasValue)
    else validateMutationsFrom (index + 1) rest

/-- `validateMutations`. -/
def validateMutations (mutations : List Mutation) : Except Error Unit :=
  if mutations = [] then .error .emptyBatch else validateMutationsFrom 0 mutations

/-- `ApplyReplicatedVersionBatch` of the write pipeline. -/
def applyReplicatedVersionBatch (e : Engine) (index version : ℕ) (mutations : List Mutation)
    (allowExistingVersion : Bool) : Except Error Engine :=
  if index = 0 ∨ version = 0 ∨ (!e.mvcc ∧ version ≠ index) then .error .invalidOptions
  else
    match validateMutations mutations with
    | .error err => .error err
    | .ok () =>
      if index ≤ e.applied then .error .applyRegression
      else if e.mvcc ∧ e.visible.any (version ≤ ·) ∧ !allowExistingVersion then
        .error .applyRegression
      else
        .ok { e with
          active := e.active.applyVersion version mutations
          applied := index
          visible := some (max (e.visible.getD 0) version) }

/-- `applyCommittedBatch`; `required` is the mode of the caller. -/
def applyCommittedBatch (e : Engine) (index term version : ℕ) (command : Bytes)
    (mutations : List Mutation) (required allowExistingVersion : Bool) : Except Error Engine :=
  if index = 0 ∨ term = 0 ∨ version = 0 ∨ command = [] then .error .invalidOptions
  else if e.mvcc ≠ required then .error .wrongMode
  else
    match e.identities index with
    | some identity =>
      if identity ≠ (term, e.sha256 command) then .error .conflictingApply
      else .error .alreadyApplied
    | none =>
      if index ≤ e.durable then .error .alreadyApplied
      else if index ≤ e.applied then .error .applyOrder
      else
        match e.applyReplicatedVersionBatch index version mutations allowExistingVersion with
        | .error err => .error (.wrap "materialize committed Raft mutation" err)
        | .ok e' => .ok { e' with
            identities := Function.update e'.identities index (some (term, e.sha256 command)) }

/-- `ApplyCommitted`: the Raft index is the version. -/
def applyCommitted (e : Engine) (index term : ℕ) (command : Bytes) (mutation : Mutation) :
    Except Error Engine :=
  e.applyCommittedBatch index term index command [mutation] false false

/-- `ApplyCommittedMVCC`. -/
def applyCommittedMVCC (e : Engine) (index term timestamp : ℕ) (command : Bytes)
    (mutation : Mutation) : Except Error Engine :=
  e.applyCommittedBatch index term timestamp command [mutation] true false

/-- `ApplyPreparedMVCCBatch`; the version may lie below the visible sequence. -/
def applyPreparedMVCCBatch (e : Engine) (index term timestamp : ℕ) (command : Bytes)
    (mutations : List Mutation) : Except Error Engine :=
  e.applyCommittedBatch index term timestamp command mutations true true

/-- `ResolveCommittedMVCCBatch`. -/
def resolveCommittedMVCCBatch (e : Engine) (index term timestamp : ℕ) (command : Bytes)
    (mutations : List Mutation) : Except Error Engine :=
  e.applyCommittedBatch index term timestamp command mutations true true

/-- `AdvanceApplied`. -/
def advanceApplied (e : Engine) (index : ℕ) : Except Error Engine :=
  if index < e.applied then
    .error (.wrap "advance replicated applied progress" .applyRegression)
  else if index = e.applied then .ok e
  else .ok { e with applied := index, visible := if e.mvcc then e.visible else some index }

/-- What the engine does on its own: it freezes the active table, installs tables in
the manifest, which moves the durable frontier up to an applied index, and merges
older tables that share no internal key. -/
inductive Background : Engine → Engine → Prop
  | rotate (e : Engine) : Background e { e with active := .empty, older := e.active :: e.older }
  | install (e : Engine) (frontier : ℕ) (hlow : e.durable ≤ frontier)
      (hhigh : frontier ≤ e.applied) : Background e { e with durable := frontier }
  | compact (e : Engine) (before after inputs : List Table) (output : Table)
      (holder : e.older.Perm (before ++ inputs ++ after))
      (hentries : output.entries.Perm (inputs.flatMap Table.entries)) :
      Background e { e with older := before ++ output :: after }

end Engine

end RivetDB.Storage
