import RivetDB.Storage.Memtable

/-!
# Reading and writing a MemTable

The calls of `memtable.go`, and what the table is for: a finite map from internal keys to values
that is read in the order of the keys.  `Contents` is that map, with the flag that `Freeze` sets;
`Call.apply` says what a call does to it, and `Refines` what the reads of a table return.  The heap,
the levels and the drawn heights do not appear in any of them.
-/

namespace RivetDB.Memtable

open List
open Storage (Kind InternalKey compareInternal compareInternal_eq)

inductive Error where
  | frozen
  | deleteHasValue
  | invalidRange
  | emptyBatch
  | sequenceOverflow
  | invalidValueKind (kind : UInt8)
  | wrap (text : String) (cause : Error)
deriving DecidableEq, Repr

abbrev Entry := InternalKey × Bytes

/-! ### The iterator -/

/-- `Iterator`. -/
structure Iterator where
  entries : List Entry
  index : ℤ := -1
  valid : Bool := false
deriving DecidableEq, Repr

namespace Iterator

/-- `Next`. -/
def next (it : Iterator) : Bool × Iterator :=
  if it.index ≥ it.entries.length then (false, it)
  else
    let valid := it.index + 1 < it.entries.length
    (valid, { it with index := it.index + 1, valid := valid })

/-- `Entry`. -/
def entry (it : Iterator) : Option Entry :=
  if it.valid then it.entries[it.index.toNat]? else none

/-- The entries read until `Next` returns false, at most `fuel` of them. -/
def drain : ℕ → Iterator → List Entry
  | 0, _ => []
  | fuel + 1, it =>
    if it.next.1 then it.next.2.entry.toList ++ drain fuel it.next.2 else []

/-- Everything the iterator returns. -/
def collect (it : Iterator) : List Entry := it.drain (it.entries.length + 1)

theorem drain_eq {entries : List Entry} {valid : Bool} {i fuel : ℕ} (hi : i ≤ entries.length)
    (hfuel : entries.length < i + fuel) :
    drain fuel { entries := entries, index := (i : ℤ) - 1, valid := valid } = entries.drop i := by
  induction fuel generalizing i valid with
  | zero => omega
  | succ fuel ih =>
    have hindex : ¬ ((i : ℤ) - 1 ≥ entries.length) := by omega
    rw [drain, next, if_neg hindex]
    by_cases hlt : i < entries.length
    · have hvalid : (i : ℤ) - 1 + 1 < entries.length := by omega
      have hposition : (i : ℤ) - 1 + 1 = ((i + 1 : ℕ) : ℤ) - 1 := by omega
      rw [if_pos (by simpa using hvalid), entry, if_pos (by simpa using hvalid), hposition,
        ih (by omega) (by omega)]
      have hnat : (((i + 1 : ℕ) : ℤ) - 1).toNat = i := by omega
      rw [hnat, getElem?_eq_getElem hlt, Option.toList_some, singleton_append,
        ← drop_eq_getElem_cons hlt]
    · have hinvalid : ¬ ((i : ℤ) - 1 + 1 < entries.length) := by omega
      rw [if_neg (by simpa using hinvalid), drop_of_length_le (by omega)]

/-- An iterator returns its snapshot. -/
@[simp] theorem collect_mk (entries : List Entry) : collect { entries := entries } = entries :=
  drain_eq (i := 0) (Nat.zero_le _) (by rw [Nat.zero_add]; exact Nat.lt_succ_self _)

end Iterator

/-! ### Reads -/

/-- `snapshotLocked`. -/
def snapshotLocked (nodes : List Node) (finish : Option Bytes) : ℕ → Option ℕ → List Entry
  | 0, _ => []
  | _, none => []
  | fuel + 1, some current =>
    if finish.any fun bound => ¬ (node nodes current).key.userKey < bound then []
    else ((node nodes current).key, (node nodes current).value) ::
      snapshotLocked nodes finish fuel (link nodes 0 current)

namespace MemTable

/-- `Get`. -/
def get (m : MemTable) (key : InternalKey) : Option Entry :=
  (m.lowerBoundLocked key).1.bind fun n =>
    if compareInternal (node m.nodes n).key key ≠ .eq then none
    else some ((node m.nodes n).key, (node m.nodes n).value)

/-- `Seek`. -/
def seek (m : MemTable) (key : InternalKey) : Option Entry :=
  (m.lowerBoundLocked key).1.map fun n => ((node m.nodes n).key, (node m.nodes n).value)

/-- `GetCandidate`. -/
def getCandidate (m : MemTable) (userKey : Bytes) (target : UInt64) : Option Entry :=
  (m.lowerBoundLocked ⟨userKey, target, .delete⟩).1.bind fun n =>
    if (node m.nodes n).key.userKey ≠ userKey then none
    else some ((node m.nodes n).key, (node m.nodes n).value)

/-- `Iterator`. -/
def iterator (m : MemTable) : Iterator where
  entries := snapshotLocked m.nodes none m.nodes.length (link m.nodes 0 0)

/-- `IteratorFrom`. -/
def iteratorFrom (m : MemTable) (key : InternalKey) : Iterator where
  entries := snapshotLocked m.nodes none m.nodes.length (m.lowerBoundLocked key).1

/-- `math.MaxUint64`. -/
def maxUint64 : UInt64 := 18446744073709551615

/-- `Range`.  A missing bound is a nil slice. -/
def range (m : MemTable) (start finish : Option Bytes) : Except Error Iterator :=
  if start.any fun low => finish.any fun high => high < low then .error .invalidRange
  else
    let first :=
      match start with
      | none => link m.nodes 0 0
      | some low => (m.lowerBoundLocked ⟨low, maxUint64, .delete⟩).1
    .ok { entries := snapshotLocked m.nodes finish m.nodes.length first }

/-- `Len`. -/
def len (m : MemTable) : ℕ := m.count

/-- The addresses linked on a level. -/
def level (m : MemTable) (level : ℕ) : List ℕ := Links.follow (link m.nodes level) m.nodes.length 0

end MemTable

/-! ### Writes -/

/-- `Mutation`; the kind is the number the caller gives. -/
structure Mutation where
  key : Bytes
  kind : UInt8
  value : Bytes := []
deriving DecidableEq, Repr

/-- `NewInternalKey`. -/
def newInternalKey (userKey : Bytes) (sequence : UInt64) (kind : UInt8) :
    Except Error InternalKey :=
  match Kind.ofByte kind with
  | none => .error (.invalidValueKind kind)
  | some kind => .ok ⟨userKey, sequence, kind⟩

/-- The loop that stages the entries of a batch; the sequence may depend on the index. -/
def stage (sequence : ℕ → UInt64) : ℕ → List Mutation → Except Error (List Entry)
  | _, [] => .ok []
  | index, mutation :: rest =>
    match newInternalKey mutation.key (sequence index) mutation.kind with
    | .error err => .error (.wrap s!"mutation {index} key" err)
    | .ok key =>
      if !key.kind.carriesValue ∧ mutation.value ≠ [] then
        .error (.wrap s!"mutation {index}" .deleteHasValue)
      else
        match stage sequence (index + 1) rest with
        | .error err => .error err
        | .ok staged => .ok ((key, mutation.value) :: staged)

namespace MemTable

def insertAll (m : MemTable) (staged : List Entry) : MemTable :=
  staged.foldl (fun m entry => m.insertLocked entry.1 entry.2) m

/-- `Insert`, with the error it returns, if any, and the table it leaves. -/
def insert (m : MemTable) (key : InternalKey) (value : Bytes) : Option Error × MemTable :=
  if m.frozen then (some .frozen, m)
  else if !key.kind.carriesValue ∧ value ≠ [] then (some .deleteHasValue, m)
  else (none, m.insertLocked key value)

/-- What `ApplyBatch` and `ApplyVersion` do with the staged entries. -/
def applyStaged (m : MemTable) : Except Error (List Entry) → Option Error × MemTable
  | .error err => (some err, m)
  | .ok staged => if m.frozen then (some .frozen, m) else (none, m.insertAll staged)

/-- `ApplyBatch`. -/
def applyBatch (m : MemTable) (firstSequence : UInt64) (mutations : List Mutation) :
    Option Error × MemTable :=
  if mutations = [] then (some .emptyBatch, m)
  else if firstSequence.toNat + (mutations.length - 1) > 2 ^ 64 - 1 then
    (some .sequenceOverflow, m)
  else m.applyStaged (stage (fun index => firstSequence + UInt64.ofNat index) 0 mutations)

/-- `ApplyVersion`. -/
def applyVersion (m : MemTable) (version : UInt64) (mutations : List Mutation) :
    Option Error × MemTable :=
  if mutations = [] then (some .emptyBatch, m)
  else m.applyStaged (stage (fun _ => version) 0 mutations)

/-- `Freeze`. -/
def freeze (m : MemTable) : MemTable := { m with frozen := true }

end MemTable

inductive Call where
  | insert (key : InternalKey) (value : Bytes)
  | applyBatch (firstSequence : UInt64) (mutations : List Mutation)
  | applyVersion (version : UInt64) (mutations : List Mutation)
  | freeze
deriving DecidableEq, Repr

/-- A call, with the error it returns, if any, and the table it leaves. -/
def Call.run (m : MemTable) : Call → Option Error × MemTable
  | .insert key value => m.insert key value
  | .applyBatch firstSequence mutations => m.applyBatch firstSequence mutations
  | .applyVersion version mutations => m.applyVersion version mutations
  | .freeze => (none, m.freeze)

/-- The table after a sequence of calls. -/
def MemTable.runAll (m : MemTable) (calls : List Call) : MemTable :=
  calls.foldl (fun m call => (call.run m).2) m

/-! ### The map behind the table -/

/-- What a MemTable holds. -/
structure Contents where
  map : InternalKey → Option Bytes
  frozen : Bool

namespace Contents

def empty : Contents where
  map _ := none
  frozen := false

/-- Later writes replace earlier ones. -/
def write (c : Contents) (entries : List Entry) : Contents :=
  { c with
    map := entries.foldl (fun map entry => Function.update map entry.1 (some entry.2)) c.map }

end Contents

/-- The entry of a mutation at a sequence, if the mutation is valid. -/
def Mutation.entry (mutation : Mutation) (sequence : UInt64) : Option Entry :=
  (Kind.ofByte mutation.kind).bind fun kind =>
    if kind.carriesValue ∨ mutation.value = [] then
      some (⟨mutation.key, sequence, kind⟩, mutation.value)
    else none

/-- The entries a call writes, if it is valid. -/
def Call.entries : Call → Option (List Entry)
  | .insert key value => if key.kind.carriesValue ∨ value = [] then some [(key, value)] else none
  | .applyBatch firstSequence mutations =>
    if mutations ≠ [] ∧ firstSequence.toNat + mutations.length ≤ 2 ^ 64 then
      (mutations.zipIdx).mapM fun m => m.1.entry (firstSequence + UInt64.ofNat m.2)
    else none
  | .applyVersion version mutations =>
    if mutations ≠ [] then mutations.mapM fun m => m.entry version else none
  | .freeze => some []

/-- What a call does to the contents: nothing if it is not valid or comes too late. -/
def Contents.apply (c : Contents) (call : Call) : Contents :=
  match call with
  | .freeze => { c with frozen := true }
  | call => if c.frozen then c else call.entries.elim c c.write

/-- The call returns no error. -/
def Contents.accepts (c : Contents) : Call → Bool
  | .freeze => true
  | call => !c.frozen && call.entries.isSome

/-- What a table with these contents returns. -/
structure Refines (m : MemTable) (c : Contents) : Prop where
  frozen : m.frozen = c.frozen
  sorted : m.iterator.collect.Pairwise fun a b => a.1 < b.1
  contents : ∀ k v, (k, v) ∈ m.iterator.collect ↔ c.map k = some v
  len : m.len = {k | (c.map k).isSome}.ncard
  get : ∀ k, m.get k = (c.map k).map (k, ·)
  seek : ∀ k, m.seek k = m.iterator.collect.find? (k ≤ ·.1)
  getCandidate : ∀ user target, m.getCandidate user target =
    m.iterator.collect.find? fun e => e.1.userKey = user ∧ e.1.sequence ≤ target
  iteratorFrom : ∀ k, (m.iteratorFrom k).collect = m.iterator.collect.filter (k ≤ ·.1)
  range : ∀ start finish, (m.range start finish).map Iterator.collect =
    if start.any fun low => finish.any fun high => high < low then .error .invalidRange
    else .ok (m.iterator.collect.filter fun e =>
      start.all (¬ e.1.userKey < ·) && finish.all (e.1.userKey < ·))
  level : (m.level 0).map (fun a => ((node m.nodes a).key, (node m.nodes a).value)) =
    m.iterator.collect
  levels : ∀ level, level + 1 < maxHeight → (m.level (level + 1)).Sublist (m.level level)

/-! ### What the reads return -/

section Reads

open scoped ByteOrder

variable {m : MemTable} {base : List ℕ}

theorem bindings_cons (nodes : List Node) (a : ℕ) (rest : List ℕ) :
    bindings nodes (a :: rest) =
      ((node nodes a).key, (node nodes a).value) :: bindings nodes rest := rfl

/-- The snapshot from an address on, up to the bound. -/
theorem snapshotLocked_eq (h : Woven m.nodes base) (finish : Option Bytes) {front rest : List ℕ}
    (hbase : base = front ++ rest) {fuel : ℕ} (hfuel : rest.length ≤ fuel) :
    snapshotLocked m.nodes finish fuel rest.head? =
      (bindings m.nodes rest).takeWhile fun e => finish.all (e.1.userKey < ·) := by
  induction rest generalizing front fuel with
  | nil => cases fuel <;> rfl
  | cons a rest ih =>
    obtain ⟨fuel, rfl⟩ : ∃ k, fuel = k + 1 := ⟨fuel - 1, by simp at hfuel; omega⟩
    have hchain := h.chains 0 (by decide)
    rw [h.filter_zero (List.Subset.refl _), hbase, append_cons] at hchain
    have hlink : link m.nodes 0 a = rest.head? := by
      simpa using hchain.next_getLastD
    have hsplit : base = (front ++ [a]) ++ rest := by simp [hbase]
    have hrest := ih hsplit (Nat.le_of_succ_le_succ hfuel)
    rw [head?_cons, snapshotLocked, hlink, hrest, bindings_cons, takeWhile_cons]
    by_cases hend : finish.all ((node m.nodes a).key.userKey < ·) = true
    · rw [if_pos hend, if_neg (by cases finish <;> simp_all)]
    · rw [if_neg hend, if_pos (by cases finish <;> simp_all)]

theorem Woven.sorted_bindings (h : Woven m.nodes base) : SortedMap.Sorted (bindings m.nodes base) :=
  pairwise_map.mpr h.sorted

theorem bindings_above (nodes : List Node) (base : List ℕ) (key : InternalKey) :
    bindings nodes (Woven.above nodes key base) = (bindings nodes base).dropWhile (·.1 < key) := by
  rw [bindings, bindings, dropWhile_map]
  rfl

/-- The user keys of a table do not decrease. -/
theorem cuts_userKey {l : List Entry} (h : SortedMap.Sorted l) (finish : Option Bytes) :
    SortedMap.Cuts (fun e => finish.all (e.1.userKey < ·)) l :=
  h.imp fun hab hb => by
    cases finish with
    | none => rfl
    | some bound =>
      simp only [Option.all_some, decide_eq_true_eq] at hb ⊢
      exact (InternalKey.userKey_le hab).trans_lt hb

theorem not_lt_eq_le (k : InternalKey) :
    (fun e : Entry => !decide (e.1 < k)) = fun e => decide (k ≤ e.1) := by
  simp [← not_lt]

namespace MemTable.Sound

variable (h : m.Sound base)

include h

theorem dropWhile_lt (k : InternalKey) :
    (bindings m.nodes base).dropWhile (·.1 < k) = (bindings m.nodes base).filter (k ≤ ·.1) := by
  rw [SortedMap.dropWhile_eq_filter (SortedMap.cuts_lt h.woven.sorted_bindings k), not_lt_eq_le]

/-- The snapshot from the first node on. -/
theorem snapshot_all (finish : Option Bytes) :
    snapshotLocked m.nodes finish m.nodes.length (link m.nodes 0 0) =
      (bindings m.nodes base).filter fun e => finish.all (e.1.userKey < ·) := by
  have hchain : Links.Chain (link m.nodes 0) 0 ([] ++ base) := by
    have := h.woven.chains 0 (by decide)
    rwa [h.woven.filter_zero (List.Subset.refl _)] at this
  have hfirst : link m.nodes 0 0 = base.head? := hchain.next_getLastD
  rw [hfirst, snapshotLocked_eq h.woven finish (nil_append base).symm h.woven.length_le,
    SortedMap.takeWhile_eq_filter (cuts_userKey h.woven.sorted_bindings finish)]

theorem iterator_collect : m.iterator.collect = bindings m.nodes base := by
  rw [iterator, Iterator.collect_mk, h.snapshot_all none]
  exact filter_eq_self.mpr fun _ _ => rfl

theorem lowerBound_bindings (k : InternalKey) :
    (m.lowerBoundLocked k).1.map (fun n => ((node m.nodes n).key, (node m.nodes n).value)) =
      (bindings m.nodes base).find? (k ≤ ·.1) := by
  rw [h.lowerBoundLocked_eq, ← head?_map]
  show (bindings m.nodes (Woven.above m.nodes k base)).head? = _
  rw [bindings_above, h.dropWhile_lt, head?_filter]

theorem snapshot_above (k : InternalKey) (finish : Option Bytes) :
    snapshotLocked m.nodes finish m.nodes.length (m.lowerBoundLocked k).1 =
      (bindings m.nodes base).filter fun e =>
        decide (k ≤ e.1) && finish.all (e.1.userKey < ·) := by
  have hlength : (Woven.above m.nodes k base).length ≤ m.nodes.length :=
    (dropWhile_sublist _).length_le.trans h.woven.length_le
  rw [h.lowerBoundLocked_eq,
    snapshotLocked_eq h.woven finish Woven.below_append_above.symm hlength, bindings_above,
    h.dropWhile_lt, SortedMap.takeWhile_eq_filter
      (cuts_userKey (h.woven.sorted_bindings.filter _) finish), filter_filter]
  simp only [Bool.and_comm]

theorem iteratorFrom_collect (k : InternalKey) :
    (m.iteratorFrom k).collect = (bindings m.nodes base).filter (k ≤ ·.1) := by
  rw [iteratorFrom, Iterator.collect_mk, h.snapshot_above k none]
  simp only [Option.all_none, Bool.and_true]

theorem seek_eq (k : InternalKey) : m.seek k = (bindings m.nodes base).find? (k ≤ ·.1) :=
  h.lowerBound_bindings k

variable {map : InternalKey → Option Bytes}

theorem get_eq (henumerates : SortedMap.Enumerates (bindings m.nodes base) map) (k : InternalKey) :
    m.get k = (map k).map (k, ·) := by
  have hfound := h.lowerBound_bindings k
  rw [← head?_filter, ← h.dropWhile_lt] at hfound
  rw [← henumerates.head?_dropWhile k, ← hfound, get]
  rcases (m.lowerBoundLocked k).1 with - | n
  · rfl
  · by_cases hk : (node m.nodes n).key = k
    · simp [Option.filter, compareInternal_eq, hk]
    · simp [Option.filter, compareInternal_eq, hk]

theorem getCandidate_eq (user : Bytes) (target : UInt64) :
    m.getCandidate user target =
      (bindings m.nodes base).find? fun e => e.1.userKey = user ∧ e.1.sequence ≤ target := by
  have hbind : m.getCandidate user target =
      ((bindings m.nodes base).find? ((⟨user, target, .delete⟩ : InternalKey) ≤ ·.1)).filter
        (·.1.userKey = user) := by
    rw [← h.lowerBound_bindings, getCandidate]
    rcases (m.lowerBoundLocked ⟨user, target, .delete⟩).1 with - | n
    · rfl
    · by_cases huser : (node m.nodes n).key.userKey = user
      · simp [Option.filter, huser]
      · simp [Option.filter, huser]
  rw [hbind]
  have hsorted := h.woven.sorted_bindings
  generalize bindings m.nodes base = entries at hsorted
  induction entries with
  | nil => rfl
  | cons e rest ih =>
    obtain ⟨he, hrest⟩ := pairwise_cons.mp hsorted
    by_cases hle : (⟨user, target, .delete⟩ : InternalKey) ≤ e.1
    · rw [find?_cons_of_pos (by simpa using hle)]
      rcases InternalKey.seek_le.mp hle with hlt | ⟨huser, hsequence⟩
      · -- no later entry has the user key
        have hnone : ∀ x ∈ e :: rest, x.1.userKey ≠ user := fun x hx => by
          rcases mem_cons.mp hx with rfl | hx
          · exact ne_of_gt hlt
          · exact ne_of_gt (hlt.trans_le (InternalKey.userKey_le (he x hx)))
        rw [find?_eq_none.mpr fun x hx => by simp [hnone x hx]]
        simp [Option.filter, hnone e mem_cons_self]
      · rw [find?_cons_of_pos (by simp [huser.symm, hsequence])]
        simp [Option.filter, huser.symm]
    · have hskip : ¬ (e.1.userKey = user ∧ e.1.sequence ≤ target) := fun hmatch =>
        hle (InternalKey.seek_le.mpr (.inr ⟨hmatch.1.symm, hmatch.2⟩))
      rw [find?_cons_of_neg (by simpa using hle),
        find?_cons_of_neg (by simpa using hskip), ih hrest]

theorem range_eq (start finish : Option Bytes) :
    (m.range start finish).map Iterator.collect =
      if start.any fun low => finish.any fun high => high < low then .error .invalidRange
      else .ok ((bindings m.nodes base).filter fun e =>
        start.all (¬ e.1.userKey < ·) && finish.all (e.1.userKey < ·)) := by
  unfold MemTable.range
  split_ifs with hinvalid
  · rfl
  cases start with
  | none =>
    dsimp only
    rw [h.snapshot_all finish, Except.map, Iterator.collect_mk]
    simp only [Option.all_none, Bool.true_and]
  | some low =>
    have hlow : ∀ k : InternalKey,
        (⟨low, maxUint64, .delete⟩ : InternalKey) ≤ k ↔ ¬ k.userKey < low := fun k => by
      have hmax : k.sequence ≤ maxUint64 :=
        UInt64.le_iff_toNat_le.mpr (Nat.le_of_lt_succ k.sequence.toNat_lt)
      rw [InternalKey.seek_le, not_lt, le_iff_lt_or_eq]
      simp only [hmax, and_true]
    dsimp only
    rw [h.snapshot_above _ finish, Except.map, Iterator.collect_mk]
    simp only [hlow, Option.all_some]

theorem level_eq {L : ℕ} (hL : L < maxHeight) : m.level L = base.filter (L < tower m.nodes ·) :=
  (h.woven.chains L hL).follow_eq
    ((filter_sublist (p := fun a => decide (L < tower m.nodes a))).length_le.trans
      h.woven.length_le)

end MemTable.Sound

end Reads

/-! ### What the writes do -/

/-- The table holds the contents. -/
structure Holds (m : MemTable) (c : Contents) : Prop where
  frozen : m.frozen = c.frozen
  bound : ∃ base, m.Sound base ∧ SortedMap.Enumerates (bindings m.nodes base) c.map

variable {m : MemTable} {c : Contents}

theorem Holds.refines (h : Holds m c) : Refines m c := by
  obtain ⟨base, hsound, henumerates⟩ := h.bound
  have hcollect := hsound.iterator_collect
  refine ⟨h.frozen, ?_, ?_, ?_, ?_, ?_, ?_, ?_, ?_, ?_, ?_⟩
  · rw [hcollect]
    exact henumerates.sorted
  · rw [hcollect]
    exact henumerates.mem_iff
  · rw [henumerates.ncard_eq, bindings, length_map]
    exact hsound.count
  · intro k
    exact hsound.get_eq henumerates k
  · rw [hcollect]
    exact hsound.seek_eq
  · rw [hcollect]
    exact hsound.getCandidate_eq
  · rw [hcollect]
    exact hsound.iteratorFrom_collect
  · rw [hcollect]
    exact hsound.range_eq
  · rw [hcollect, hsound.level_eq (by decide), hsound.woven.filter_zero (List.Subset.refl _)]
    rfl
  · intro L hL
    rw [hsound.level_eq hL, hsound.level_eq (by omega)]
    -- a node that reaches a level reaches the one below
    have hfilter : base.filter (L + 1 < tower m.nodes ·) =
        (base.filter (L < tower m.nodes ·)).filter (L + 1 < tower m.nodes ·) := by
      rw [filter_filter]
      refine filter_congr fun a _ => ?_
      rw [Bool.eq_iff_iff]
      simp only [Bool.and_eq_true, decide_eq_true_eq]
      omega
    rw [hfilter]
    exact filter_sublist

theorem Holds.insertLocked (h : Holds m c) (key : InternalKey) (value : Bytes) :
    Holds (m.insertLocked key value) (c.write [(key, value)]) := by
  obtain ⟨base, hsound, henumerates⟩ := h.bound
  obtain ⟨base', hsound', hbindings⟩ := hsound.insertLocked key value
  refine ⟨(m.insertLocked_frozen key value).trans h.frozen, base', hsound', ?_⟩
  rw [hbindings]
  exact henumerates.put key value

theorem Holds.insertAll (h : Holds m c) (staged : List Entry) :
    Holds (m.insertAll staged) (c.write staged) := by
  induction staged generalizing m c with
  | nil => exact h
  | cons entry rest ih => exact ih (h.insertLocked entry.1 entry.2)

/-- Staging succeeds on valid mutations, and stages their entries. -/
theorem stage_toOption (sequence : ℕ → UInt64) (index : ℕ) (mutations : List Mutation) :
    (stage sequence index mutations).toOption =
      (mutations.zipIdx index).mapM fun m => m.1.entry (sequence m.2) := by
  induction mutations generalizing index with
  | nil => rfl
  | cons mutation rest ih =>
    rw [zipIdx_cons, mapM_cons, ← ih (index + 1), stage, newInternalKey, Mutation.entry]
    rcases Kind.ofByte mutation.kind with - | kind
    · rfl
    · by_cases hvalid : kind.carriesValue = true ∨ mutation.value = []
      · have hcheck : ¬ ((!kind.carriesValue) = true ∧ mutation.value ≠ []) := by
          rcases hvalid with hvalid | hvalid <;> simp [hvalid]
        simp only [Option.bind_some, if_pos hvalid, if_neg hcheck]
        rcases stage sequence (index + 1) rest <;> rfl
      · have hcheck : (!kind.carriesValue) = true ∧ mutation.value ≠ [] := by
          simpa using hvalid
        simp only [Option.bind_some, if_neg hvalid, if_pos hcheck]
        rfl

/-- What a call does to a table with these contents. -/
structure Performs (m : MemTable) (c : Contents) (call : Call) : Prop where
  holds : Holds (call.run m).2 (c.apply call)
  accepted : (call.run m).1 = none ↔ c.accepts call = true
  unchanged : (call.run m).1 ≠ none → (call.run m).2 = m

variable {call : Call} {err : Error}

theorem Holds.fails (h : Holds m c) (hrun : call.run m = (some err, m)) (happly : c.apply call = c)
    (haccepts : c.accepts call = false) : Performs m c call where
  holds := by rwa [hrun, happly]
  accepted := by simp [hrun, haccepts]
  unchanged _ := by rw [hrun]

theorem Holds.succeeds {m' : MemTable} (hrun : call.run m = (none, m'))
    (h : Holds m' (c.apply call)) (haccepts : c.accepts call = true) : Performs m c call where
  holds := by rwa [hrun]
  accepted := by simp [hrun, haccepts]
  unchanged hne := absurd (by rw [hrun]) hne

/-- A batch that has been staged. -/
theorem Holds.applyStaged {staged : Except Error (List Entry)} (h : Holds m c)
    (hrun : call.run m = m.applyStaged staged) (hentries : call.entries = staged.toOption)
    (happly : c.apply call = if c.frozen then c else call.entries.elim c c.write)
    (haccepts : c.accepts call = (!c.frozen && call.entries.isSome)) : Performs m c call := by
  rw [hentries] at happly haccepts
  rcases staged with err | staged
  · refine h.fails hrun ?_ (by simpa [Except.toOption] using haccepts)
    rw [happly]
    exact ite_self c
  · rw [MemTable.applyStaged, h.frozen] at hrun
    rcases hfrozen : c.frozen with - | -
    · simp only [hfrozen, Bool.false_eq_true, if_false] at hrun happly haccepts
      refine Holds.succeeds hrun ?_ haccepts
      rw [happly]
      exact h.insertAll staged
    · simp only [hfrozen, if_true] at hrun happly haccepts
      exact h.fails hrun happly haccepts

/-- A call that is not valid. -/
theorem Holds.invalid (h : Holds m c)
    (hrun : call.run m = (some err, m)) (hentries : call.entries = none)
    (happly : c.apply call = if c.frozen then c else call.entries.elim c c.write)
    (haccepts : c.accepts call = (!c.frozen && call.entries.isSome)) : Performs m c call := by
  rw [hentries] at happly haccepts
  exact h.fails hrun (happly.trans (ite_self c)) (haccepts.trans (Bool.and_false _))

theorem Holds.insert (h : Holds m c) (key : InternalKey) (value : Bytes) :
    Performs m c (.insert key value) := by
  rcases hfrozen : c.frozen with - | -
  · by_cases hvalid : key.kind.carriesValue = true ∨ value = []
    · have hcheck : ¬ ((!key.kind.carriesValue) = true ∧ value ≠ []) := by
        rcases hvalid with hvalid | hvalid <;> simp [hvalid]
      have hrun : Call.run m (.insert key value) = (none, m.insertLocked key value) := by
        simp only [Call.run, MemTable.insert, h.frozen, hfrozen, Bool.false_eq_true, if_false,
          if_neg hcheck]
      have hentries : (Call.insert key value).entries = some [(key, value)] := if_pos hvalid
      refine Holds.succeeds hrun ?_ ?_
      · simp only [Contents.apply, hfrozen, Bool.false_eq_true, if_false, hentries,
          Option.elim_some]
        exact h.insertLocked key value
      · simp only [Contents.accepts, hfrozen, hentries, Option.isSome_some, Bool.not_false,
          Bool.and_self]
    · have hcheck : (!key.kind.carriesValue) = true ∧ value ≠ [] := by simpa using hvalid
      have hrun : Call.run m (.insert key value) = (some .deleteHasValue, m) := by
        simp only [Call.run, MemTable.insert, h.frozen, hfrozen, Bool.false_eq_true, if_false,
          if_pos hcheck]
      exact h.invalid hrun (if_neg hvalid) rfl rfl
  · have hrun : Call.run m (.insert key value) = (some .frozen, m) := by
      simp only [Call.run, MemTable.insert, h.frozen, hfrozen, if_true]
    exact h.fails hrun (by simp only [Contents.apply, hfrozen, if_true])
      (by simp only [Contents.accepts, hfrozen, Bool.not_true, Bool.false_and])

theorem Holds.applyBatch (h : Holds m c) (firstSequence : UInt64) (mutations : List Mutation) :
    Performs m c (.applyBatch firstSequence mutations) := by
  by_cases hempty : mutations = []
  · exact h.invalid (if_pos hempty) (if_neg fun hvalid => hvalid.1 hempty) rfl rfl
  have hpos := length_pos_iff.mpr hempty
  by_cases hoverflow : firstSequence.toNat + (mutations.length - 1) > 2 ^ 64 - 1
  · exact h.invalid ((if_neg hempty).trans (if_pos hoverflow))
      (if_neg fun hvalid => by have := hvalid.2; omega) rfl rfl
  · refine h.applyStaged ((if_neg hempty).trans (if_neg hoverflow)) ?_ rfl rfl
    rw [stage_toOption]
    exact if_pos ⟨hempty, by omega⟩

theorem Holds.applyVersion (h : Holds m c) (version : UInt64) (mutations : List Mutation) :
    Performs m c (.applyVersion version mutations) := by
  by_cases hempty : mutations = []
  · exact h.invalid (if_pos hempty) (if_neg fun hvalid => hvalid hempty) rfl rfl
  · refine h.applyStaged (if_neg hempty) ?_ rfl rfl
    rw [stage_toOption]
    have hmap : (mutations.zipIdx 0).mapM (fun m => m.1.entry version) =
        mutations.mapM fun m => m.entry version := by
      conv_rhs => rw [← zipIdx_map_fst 0 mutations, mapM_map]
      rfl
    rw [hmap]
    exact if_pos hempty

theorem Holds.performs (h : Holds m c) (call : Call) : Performs m c call := by
  cases call with
  | freeze =>
    obtain ⟨base, hsound, henumerates⟩ := h.bound
    exact Holds.succeeds rfl
      ⟨rfl, base, { hsound with }, henumerates⟩ rfl
  | insert key value => exact h.insert key value
  | applyBatch firstSequence mutations => exact h.applyBatch firstSequence mutations
  | applyVersion version mutations => exact h.applyVersion version mutations

theorem holds_new (random : ℕ → UInt64) : Holds (.newWithRandom random) .empty where
  frozen := rfl
  bound := ⟨[], MemTable.sound_new random, SortedMap.enumerates_nil⟩

theorem Holds.runAll (h : Holds m c) (calls : List Call) :
    Holds (m.runAll calls) (calls.foldl Contents.apply c) := by
  induction calls generalizing m c with
  | nil => exact h
  | cons call rest ih => exact ih (h.performs call).holds

/-- A MemTable is the map of what was last written to it, whatever heights are drawn: after any
calls its reads are those of the map, the next call succeeds when the map says so, and a call that
fails leaves the table as it was. -/
theorem memtable_refines_map (random : ℕ → UInt64) (calls : List Call) :
    Refines ((MemTable.newWithRandom random).runAll calls) (calls.foldl .apply .empty) ∧
      ∀ call : Call, ((call.run ((MemTable.newWithRandom random).runAll calls)).1 = none ↔
          (calls.foldl Contents.apply .empty).accepts call = true) ∧
        ((call.run ((MemTable.newWithRandom random).runAll calls)).1 ≠ none →
          (call.run ((MemTable.newWithRandom random).runAll calls)).2 =
            (MemTable.newWithRandom random).runAll calls) := by
  have hholds := (holds_new random).runAll calls
  refine ⟨hholds.refines, fun call => ?_⟩
  exact ⟨(hholds.performs call).accepted, (hholds.performs call).unchanged⟩

end RivetDB.Memtable
