import RivetDB.Storage.Lsm
import RivetDB.Storage.Reads

/-!
# Exports, and engines that cannot be told apart

`ExportMVCCVersions` lists everything an engine stores, whatever table it is in.  Reads,
scans, exports and replicated applies only look at the stored versions, the visible sequence
and the applied index, as long as no internal key is in two tables; `Alike` says that two
engines agree on these.
-/

namespace RivetDB.Storage

open Table List
open scoped ByteOrder

/-! ### Sorted versions -/

/-- The order of a merge over tables. -/
def Version.le (v w : Version) : Prop := v.precedes w ∨ v.internal = w.internal

instance : DecidableRel Version.le := fun _ _ =>
  inferInstanceAs (Decidable (_ ∨ _))

instance : Std.Total Version.le where
  total v w := by
    by_cases heq : v.internal = w.internal
    · exact .inl (.inr heq)
    · exact (Version.precedes_total heq).imp .inl .inl

instance : IsTrans Version Version.le where
  trans u v w huv hvw := by
    rcases huv with huv | huv
    · rcases hvw with hvw | hvw
      · exact .inl (Version.precedes_trans huv hvw)
      · exact .inl ((Version.precedes_congr rfl hvw).mp huv)
    · rcases hvw with hvw | hvw
      · exact .inl ((Version.precedes_congr huv rfl).mpr hvw)
      · exact .inr (huv.trans hvw)

/-- The versions in the order in which a merge yields them. -/
def inOrder (V : List Version) : List Version := V.insertionSort Version.le

variable {V W : List Version}

theorem inOrder_perm (V : List Version) : (inOrder V).Perm V := perm_insertionSort _ _

theorem pairwise_inOrder (h : Distinct V) : (inOrder V).Pairwise Version.precedes := by
  have hdistinct : Distinct (inOrder V) := h.perm (inOrder_perm V).symm
  unfold Distinct at hdistinct
  rw [nodup_iff_pairwise_ne, pairwise_map] at hdistinct
  have hsorted : (inOrder V).Pairwise Version.le := pairwise_insertionSort _ _
  exact (hsorted.and hdistinct).imp fun hvw => hvw.1.resolve_right hvw.2

/-- Versions without a repeated internal key have one order. -/
theorem inOrder_congr (hV : Distinct V) (hW : Distinct W) (h : ∀ v, v ∈ V ↔ v ∈ W) :
    inOrder V = inOrder W := by
  have hruns : (⟨inOrder V, pairwise_inOrder hV⟩ : Run) = ⟨inOrder W, pairwise_inOrder hW⟩ :=
    Run.ext_mem fun v => by
      rw [(inOrder_perm V).mem_iff, (inOrder_perm W).mem_iff, h]
  exact congrArg Run.entries hruns

/-! ### Exports and scans -/

namespace Engine

/-- The loop of `ExportMVCCVersions`, behind the entry `previous`. -/
def exportLoop : Option Version → List Version → Except Error (List Version)
  | _, [] => .ok []
  | previous, v :: rest =>
    match previous with
    | none => (exportLoop (some v) rest).map (v :: ·)
    | some p =>
      if p.internal = v.internal then
        if p.value ≠ v.value then .error (.join .corruption .duplicateEntry)
        else exportLoop previous rest
      else (exportLoop (some v) rest).map (v :: ·)

/-- `ExportMVCCVersions`, over all keys. -/
def exportMVCCVersions (e : Engine) : Except Error (List Version) :=
  if !e.mvcc then .error .invalidOptions else exportLoop none (inOrder e.versions)

/-- `ScanMVCCAt`.  Every table is read once, so two equal internal keys are from different
files. -/
def scanMVCCAt (e : Engine) (start stop : Option Bytes) (requested : ℕ) :
    Except LsmError (List Version) :=
  if start.any (·.length > maxUserKeySize) ∨ stop.any (·.length > maxUserKeySize) then
    .error (.storage .invalidOptions)
  else if start.any fun a => stop.any (· < a) then .error .invalidRange
  else if start.isSome ∧ start = stop then .ok []
  else
    match e.visible with
    | none => .ok []
    | some latest =>
      Lsm.scanLoop (min requested latest) none none (tagged 0 ((inOrder e.versions).filter fun v =>
          start.all (· ≤ v.key) && stop.all (v.key < ·)))

/-- `Flush`: the active table becomes a file that covers the applied index. -/
def flush (e : Engine) : Engine :=
  if e.active.entries = [] then e
  else { e with active := .empty, older := e.active :: e.older, durable := e.applied }

variable {previous : Option Version} {l : List Version}

/-- An export invents nothing. -/
theorem exportLoop_subset {l out : List Version}
    (h : exportLoop previous l = .ok out) : out ⊆ l := by
  induction l generalizing previous out with
  | nil =>
    cases h
    exact List.Subset.refl _
  | cons v l ih =>
    have hcons : ∀ {rest}, (exportLoop (some v) l).map (v :: ·) = .ok rest → rest ⊆ v :: l := by
      intro rest hrest
      rcases htail : exportLoop (some v) l with err | tail
      · rw [htail] at hrest
        cases hrest
      · rw [htail] at hrest
        cases hrest
        exact cons_subset_cons v (ih htail)
    rcases previous with - | p
    · exact hcons h
    · unfold exportLoop at h
      dsimp only at h
      split_ifs at h
      · exact subset_cons_of_subset v (ih h)
      · exact hcons h

variable {e : Engine}

variable {e e' f f' : Engine} {index term version : ℕ} {command : Bytes}
  {mutations : List Mutation} {required allow : Bool}

/-- The engine after a batch. -/
def stored (e : Engine) (index term version : ℕ) (command : Bytes) (mutations : List Mutation) :
    Engine :=
  { e with
    active := e.active.applyVersion version mutations
    applied := index
    visible := some (max (e.visible.getD 0) version)
    identities := Function.update e.identities index (some (term, e.sha256 command)) }

/-- The checks of an apply above the applied index.  They look at the mode and the visible
sequence only. -/
def refusal (mvcc : Bool) (visible : Option ℕ) (index term version : ℕ) (command : Bytes)
    (mutations : List Mutation) (required allow : Bool) : Option Error :=
  if index = 0 ∨ term = 0 ∨ version = 0 ∨ command = [] then some .invalidOptions
  else if mvcc ≠ required then some .wrongMode
  else if !mvcc ∧ version ≠ index then
    some (.wrap "materialize committed Raft mutation" .invalidOptions)
  else
    match validateMutations mutations with
    | .error err => some (.wrap "materialize committed Raft mutation" err)
    | .ok () =>
      if mvcc ∧ visible.any (version ≤ ·) ∧ !allow then
        some (.wrap "materialize committed Raft mutation" .applyRegression)
      else none

/-- Above the applied index an apply is refused by its checks or stores the batch. -/
theorem applyCommittedBatch_eq (h : e.Ordered) (hindex : e.applied < index) :
    e.applyCommittedBatch index term version command mutations required allow =
      match refusal e.mvcc e.visible index term version command mutations required allow with
      | some err => .error err
      | none => .ok (e.stored index term version command mutations) := by
  have hdurable := h.durable
  unfold applyCommittedBatch refusal
  by_cases hargs : index = 0 ∨ term = 0 ∨ version = 0 ∨ command = []
  · rw [if_pos hargs, if_pos hargs]
  rw [if_neg hargs, if_neg hargs]
  by_cases hmode : e.mvcc ≠ required
  · rw [if_pos hmode, if_pos hmode]
  rw [if_neg hmode, if_neg hmode, h.identities index hindex]
  simp only [if_neg (show ¬ index ≤ e.durable by omega), if_neg (show ¬ index ≤ e.applied by omega)]
  unfold applyReplicatedVersionBatch
  simp only [not_or] at hargs
  by_cases hplain : !e.mvcc ∧ version ≠ index
  · rw [if_pos (.inr (.inr hplain)), if_pos hplain]
  rw [if_neg (by simp only [not_or]; exact ⟨hargs.1, hargs.2.2.1, hplain⟩), if_neg hplain]
  rcases validateMutations mutations with err | -
  · rfl
  simp only [if_neg (show ¬ index ≤ e.applied by omega)]
  split_ifs with hregression
  · rfl
  · rfl

variable {v : Version}

/-- What a table holds after a batch: the last version of each internal key of the batch, and
what the batch does not overwrite. -/
theorem mem_applyVersion_iff {t : Table} :
    v ∈ (t.applyVersion version mutations).entries ↔
      v ∈ (empty.applyVersion version mutations).entries ∨
        v ∈ t.entries ∧ ∀ m ∈ mutations, v.internal ≠ (m.stored version).internal := by
  induction mutations generalizing t with
  | nil => simp [applyVersion, empty]
  | cons m rest ih =>
    have hstep : ∀ t : Table,
        t.applyVersion version (m :: rest) =
          (t.insert (m.stored version)).applyVersion version rest :=
      fun _ => rfl
    rw [hstep, hstep, ih, @ih (empty.insert (m.stored version)), mem_insert, mem_insert]
    simp only [mem_cons, forall_eq_or_imp, empty, not_mem_nil, false_and, or_false]
    tauto

theorem mem_of_mem_applyVersion_empty (h : v ∈ (empty.applyVersion version mutations).entries) :
    ∃ m ∈ mutations, v = m.stored version := by
  induction mutations with
  | nil => cases h
  | cons m rest ih =>
    have hstep : empty.applyVersion version (m :: rest) =
        (empty.insert (m.stored version)).applyVersion version rest := rfl
    rw [hstep, mem_applyVersion_iff] at h
    rcases h with h | ⟨h, -⟩
    · obtain ⟨m', hm', heq⟩ := ih h
      exact ⟨m', mem_cons_of_mem _ hm', heq⟩
    · rw [mem_insert] at h
      rcases h with rfl | ⟨h, -⟩
      · exact ⟨m, mem_cons_self, rfl⟩
      · cases h

/-- Every internal key of a batch is stored. -/
theorem exists_internal_applyVersion {t : Table} {m : Mutation} (h : m ∈ mutations) :
    ∃ v ∈ (t.applyVersion version mutations).entries, v.internal = (m.stored version).internal := by
  induction mutations generalizing t m with
  | nil => cases h
  | cons x rest ih =>
    have hstep : t.applyVersion version (x :: rest) =
        (t.insert (x.stored version)).applyVersion version rest := rfl
    rw [hstep]
    by_cases hrest : ∃ y ∈ rest, (m.stored version).internal = (y.stored version).internal
    · obtain ⟨y, hy, heq⟩ := hrest
      obtain ⟨v, hv, hvy⟩ := @ih (t.insert (x.stored version)) y hy
      exact ⟨v, hv, hvy.trans heq.symm⟩
    · obtain rfl : m = x := (mem_cons.mp h).resolve_right fun hm => hrest ⟨m, hm, rfl⟩
      refine ⟨m.stored version, mem_applyVersion_iff.mpr (.inr ⟨?_, fun y hy heq => ?_⟩), rfl⟩
      · exact mem_insert.mpr (.inl rfl)
      · exact hrest ⟨y, hy, heq⟩

theorem versions_stored :
    (e.stored index term version command mutations).versions =
      (e.active.applyVersion version mutations).entries ++ e.older.flatMap entries := by
  simp [versions, tables, stored]

theorem versions_eq (e : Engine) : e.versions = e.active.entries ++ e.older.flatMap entries := by
  simp [versions, tables]

/-- What is stored after a batch that repeats no internal key of an older table. -/
theorem mem_versions_stored
    (h : Distinct (e.stored index term version command mutations).versions) :
    v ∈ (e.stored index term version command mutations).versions ↔
      v ∈ (empty.applyVersion version mutations).entries ∨
        v ∈ e.versions ∧ ∀ m ∈ mutations, v.internal ≠ (m.stored version).internal := by
  rw [versions_stored] at h ⊢
  rw [versions_eq, mem_append, mem_append, mem_applyVersion_iff]
  constructor
  · rintro ((hv | ⟨hv, hne⟩) | hv)
    · exact .inl hv
    · exact .inr ⟨.inl hv, hne⟩
    · refine .inr ⟨.inr hv, fun m hm heq => ?_⟩
      -- the batch stored this internal key in the active table
      obtain ⟨w, hw, hwm⟩ := @exists_internal_applyVersion version mutations e.active m hm
      unfold Distinct at h
      rw [map_append, nodup_append] at h
      exact h.2.2 _ (mem_map_of_mem hw) _ (mem_map_of_mem hv) (hwm.trans heq.symm)
  · rintro (hv | ⟨hv | hv, hne⟩)
    · exact .inl (.inl hv)
    · exact .inl (.inr ⟨hv, hne⟩)
    · exact .inr hv

theorem Ordered.stored (h : e.Ordered) (hindex : e.applied < index) :
    (e.stored index term version command mutations).Ordered := by
  refine ⟨fun v hv => ?_, fun hnone => ?_, ?_, fun i hi => ?_⟩
  · show v.seq ≤ max (e.visible.getD 0) version
    rw [versions_stored, mem_append, mem_applyVersion_iff] at hv
    rcases hv with (hv | ⟨hv, -⟩) | hv
    · obtain ⟨m, -, rfl⟩ := mem_of_mem_applyVersion_empty hv
      exact Nat.le_max_right _ _
    · exact (h.visible v (by rw [versions_eq]; exact mem_append_left _ hv)).trans
        (Nat.le_max_left _ _)
    · exact (h.visible v (by rw [versions_eq]; exact mem_append_right _ hv)).trans
        (Nat.le_max_left _ _)
  · cases hnone
  · exact h.durable.trans hindex.le
  · have hi' : index < i := hi
    show Function.update e.identities index _ i = none
    rw [Function.update_of_ne (by omega)]
    exact h.identities i (by omega)

theorem advanceApplied_ok (hmode : e.mvcc = true) (hindex : e.applied ≤ index) :
    e.advanceApplied index = .ok { e with applied := index } := by
  unfold advanceApplied
  rw [if_neg (by omega)]
  split_ifs with heq
  · rw [heq]
  · simp [hmode]

theorem advanceApplied_spec (hmode : e.mvcc = true) (hok : e.advanceApplied index = .ok e') :
    e.applied ≤ index ∧ e' = { e with applied := index } := by
  have hindex : e.applied ≤ index := by
    by_contra hlt
    unfold advanceApplied at hok
    rw [if_pos (not_le.mp hlt)] at hok
    cases hok
  rw [advanceApplied_ok hmode hindex] at hok
  exact ⟨hindex, (Except.ok.inj hok).symm⟩

theorem Ordered.advance (h : e.Ordered) (hindex : e.applied ≤ index) :
    ({ e with applied := index } : Engine).Ordered :=
  ⟨h.visible, h.shown, h.durable.trans hindex, fun i hi => h.identities i (hindex.trans_lt hi)⟩

/-! ### Engines that applies have filled -/

/-- What an engine does on its own: the versions stay, in other tables. -/
theorem Background.layout (h : Background e f) :
    f.versions.Perm e.versions ∧ f.mvcc = e.mvcc ∧ f.sha256 = e.sha256 ∧ f.visible = e.visible ∧
      f.applied = e.applied ∧ f.identities = e.identities ∧
      (e.durable ≤ e.applied → f.durable ≤ f.applied) := by
  cases h with
  | rotate =>
    simp [versions, tables, empty]
  | install frontier hlow hhigh =>
    exact ⟨List.Perm.refl _, rfl, rfl, rfl, rfl, rfl, fun _ => hhigh⟩
  | compact before after inputs output holder hentries =>
    refine ⟨?_, rfl, rfl, rfl, rfl, rfl, id⟩
    rw [versions_eq, versions_eq]
    refine Perm.append_left _ (List.Perm.symm ?_)
    refine (Perm.flatMap_right entries holder).trans ?_
    rw [flatMap_append, flatMap_append, flatMap_append, flatMap_cons, append_assoc]
    exact Perm.append_left _ (hentries.symm.append_right _)

theorem Background.ordered (h : Background e f) (ho : e.Ordered) : f.Ordered := by
  obtain ⟨hversions, -, -, hvisible, happlied, hidentities, hdurable⟩ := h.layout
  refine ⟨fun v hv => ?_, fun hnone => ?_, hdurable ho.durable, fun i hi => ?_⟩
  · rw [hvisible]
    exact ho.visible v (hversions.subset hv)
  · rw [ho.shown (hvisible ▸ hnone)] at hversions
    exact hversions.eq_nil
  · rw [hidentities]
    exact ho.identities i (happlied ▸ hi)

/-- A version that an apply may have stored. -/
structure Storable (v : Version) : Prop where
  positive : v.seq ≠ 0
  bounded : v.seq < 2 ^ 64
  key : v.key.length ≤ maxUserKeySize
  value : v.value.length ≤ maxValueSize
  bare : v.kind.carriesValue = false → v.value = []

theorem validateMutationsFrom_ok {i : ℕ} :
    validateMutationsFrom i mutations = .ok () ↔
      ∀ m ∈ mutations, m.key.length ≤ maxUserKeySize ∧ m.value.length ≤ maxValueSize ∧
        (m.kind.carriesValue = false → m.value = []) := by
  induction mutations generalizing i with
  | nil => simp [validateMutationsFrom]
  | cons m rest ih =>
    rw [forall_mem_cons, ← @ih (i + 1), validateMutationsFrom]
    by_cases hkey : m.key.length > maxUserKeySize
    · rw [if_pos hkey]
      exact ⟨nofun, fun h => absurd h.1.1 (not_le.mpr hkey)⟩
    by_cases hvalue : m.value.length > maxValueSize
    · rw [if_neg hkey, if_pos hvalue]
      exact ⟨nofun, fun h => absurd h.1.2.1 (not_le.mpr hvalue)⟩
    by_cases hbare : (!m.kind.carriesValue && m.value ≠ []) = true
    · rw [if_neg hkey, if_neg hvalue, if_pos hbare]
      simp only [Bool.and_eq_true, Bool.not_eq_true', decide_eq_true_eq] at hbare
      exact ⟨nofun, fun h => absurd (h.1.2.2 hbare.1) hbare.2⟩
    · rw [if_neg hkey, if_neg hvalue, if_neg hbare]
      simp only [Bool.and_eq_true, Bool.not_eq_true', decide_eq_true_eq, not_and, not_not] at hbare
      exact ⟨fun h => ⟨⟨not_lt.mp hkey, not_lt.mp hvalue, hbare⟩, h⟩, fun h => h.2⟩

/-- A batch is accepted in MVCC mode exactly when its arguments are present, its mutations are
within the limits and its version may be used. -/
theorem refusal_none {visible : Option ℕ} :
    refusal true visible index term version command mutations true allow = none ↔
      (index ≠ 0 ∧ term ≠ 0 ∧ version ≠ 0 ∧ command ≠ []) ∧
        (mutations ≠ [] ∧ ∀ m ∈ mutations, m.key.length ≤ maxUserKeySize ∧
          m.value.length ≤ maxValueSize ∧ (m.kind.carriesValue = false → m.value = [])) ∧
        (visible.any (version ≤ ·) = true → allow = true) := by
  unfold refusal
  by_cases hargs : index = 0 ∨ term = 0 ∨ version = 0 ∨ command = []
  · rw [if_pos hargs]
    tauto
  rw [if_neg hargs]
  rw [← @validateMutationsFrom_ok mutations 0]
  unfold validateMutations
  by_cases hempty : mutations = []
  · simp [hempty]
  simp only [if_neg hempty]
  rcases validateMutationsFrom 0 mutations with err | -
  · simp
  simp only [not_or] at hargs
  cases allow <;> simp [hargs, hempty]

/-- An apply that succeeds lies above the applied index and stores its batch. -/
theorem applyCommittedBatch_ok (h : e.Ordered)
    (hok : e.applyCommittedBatch index term version command mutations required allow = .ok e') :
    e.applied < index ∧
      refusal e.mvcc e.visible index term version command mutations required allow = none ∧
      e' = e.stored index term version command mutations := by
  have hindex : e.applied < index := by
    by_contra hle
    unfold applyCommittedBatch at hok
    split at hok
    · cases hok
    split at hok
    · cases hok
    split at hok
    · split at hok <;> cases hok
    split at hok
    · cases hok
    · rw [if_pos (not_lt.mp hle)] at hok
      cases hok
  rw [applyCommittedBatch_eq h hindex] at hok
  split at hok
  · cases hok
  · exact ⟨hindex, ‹_›, (Except.ok.inj hok).symm⟩

/-- What is true of an engine in MVCC mode that has only seen applies: the visible sequence is
that of a stored version, and there are no more sequences than applied indexes. -/
structure Filled (e : Engine) : Prop where
  mvcc : e.mvcc = true
  ordered : e.Ordered
  attained : ∀ x ∈ e.visible, ∃ v ∈ e.versions, v.seq = x
  spread : ∃ seqs : List ℕ, seqs.length ≤ e.applied ∧ ∀ v ∈ e.versions, v.seq ∈ seqs
  storable : ∀ v ∈ e.versions, Storable v

variable {sha256 : Bytes → Digest}

theorem Filled.opened : Filled { mvcc := true, sha256 := sha256 } where
  mvcc := rfl
  ordered := ⟨by simp [versions, tables, empty], fun _ => rfl, le_rfl, fun _ _ => rfl⟩
  attained := nofun
  spread := ⟨[], le_rfl, by simp [versions, tables, empty]⟩
  storable := by simp [versions, tables, empty]

/-- The members of an engine after a batch, whether or not an internal key is repeated. -/
theorem seq_of_mem_stored (h : v ∈ (e.stored index term version command mutations).versions) :
    (∃ m ∈ mutations, v = m.stored version) ∨ v ∈ e.versions := by
  rw [versions_stored, mem_append, mem_applyVersion_iff] at h
  rw [versions_eq, mem_append]
  rcases h with (h | ⟨h, -⟩) | h
  · exact .inl (mem_of_mem_applyVersion_empty h)
  · exact .inr (.inl h)
  · exact .inr (.inr h)

theorem Filled.stored (h : e.Filled) (hindex : e.applied < index) (hversion : version < 2 ^ 64)
    (hrefusal : refusal e.mvcc e.visible index term version command mutations required allow =
      none) :
    (e.stored index term version command mutations).Filled := by
  have hmode : required = true := by
    rw [h.mvcc] at hrefusal
    cases required with
    | true => rfl
    | false =>
      unfold refusal at hrefusal
      split at hrefusal <;> simp at hrefusal
  rw [h.mvcc, hmode, refusal_none] at hrefusal
  obtain ⟨⟨-, -, hpositive, -⟩, ⟨hnonempty, hlimits⟩, -⟩ := hrefusal
  refine ⟨h.mvcc, h.ordered.stored hindex, fun x hx => ?_, ?_, fun v hv => ?_⟩
  · have hx' : max (e.visible.getD 0) version = x := by simpa [Engine.stored] using hx
    rw [versions_stored]
    by_cases hnew : x = version
    · obtain ⟨m, hm⟩ := exists_mem_of_ne_nil mutations hnonempty
      obtain ⟨w, hw, hwm⟩ := @exists_internal_applyVersion version mutations e.active m hm
      exact ⟨w, mem_append_left _ hw, (congrArg (fun i => i.2.1) hwm).trans hnew.symm⟩
    · -- the version that was visible before is not overwritten
      have hold : x ∈ e.visible := by
        rcases hvisible : e.visible with - | y
        · rw [hvisible] at hx'
          exact absurd (by simpa using hx'.symm) hnew
        · rw [hvisible] at hx'
          exact congrArg some ((max_choice y version).resolve_right
            (fun heq => hnew (hx'.symm.trans heq)) ▸ hx')
      obtain ⟨v, hv, hseq⟩ := h.attained x hold
      refine ⟨v, ?_, hseq⟩
      rw [versions_eq, mem_append] at hv
      rw [mem_append, mem_applyVersion_iff]
      refine hv.imp (fun hactive => .inr ⟨hactive, fun m _ heq => ?_⟩) id
      exact hnew (hseq.symm.trans (congrArg (fun i => i.2.1) heq))
  · obtain ⟨seqs, hlength, hseqs⟩ := h.spread
    refine ⟨version :: seqs, ?_, fun v hv => ?_⟩
    · show seqs.length + 1 ≤ index
      omega
    · rcases seq_of_mem_stored hv with ⟨m, -, rfl⟩ | hv
      · exact mem_cons_self
      · exact mem_cons_of_mem _ (hseqs v hv)
  · rcases seq_of_mem_stored hv with ⟨m, hm, rfl⟩ | hv
    · obtain ⟨hkey, hvalue, hbare⟩ := hlimits m hm
      exact ⟨hpositive, hversion, hkey, hvalue, hbare⟩
    · exact h.storable v hv

theorem Filled.advance (h : e.Filled) (hindex : e.applied ≤ index) :
    ({ e with applied := index } : Engine).Filled where
  mvcc := h.mvcc
  ordered := h.ordered.advance hindex
  attained := h.attained
  spread := h.spread.imp fun _ hseqs => ⟨hseqs.1.trans hindex, hseqs.2⟩
  storable := h.storable

/-- An engine with the same versions and marks, in other tables. -/
theorem Filled.relayout (h : e.Filled) (ho : f.Ordered) (hversions : f.versions.Perm e.versions)
    (hmvcc : f.mvcc = e.mvcc) (hvisible : f.visible = e.visible)
    (happlied : f.applied = e.applied) : f.Filled where
  mvcc := hmvcc.trans h.mvcc
  ordered := ho
  attained := fun x hx => by
    obtain ⟨v, hv, hseq⟩ := h.attained x (hvisible ▸ hx)
    exact ⟨v, hversions.symm.subset hv, hseq⟩
  spread := by
    obtain ⟨seqs, hlength, hseqs⟩ := h.spread
    exact ⟨seqs, happlied ▸ hlength, fun v hv => hseqs v (hversions.subset hv)⟩
  storable := fun v hv => h.storable v (hversions.subset hv)

theorem Filled.background (h : e.Filled) (hstep : Background e f) : f.Filled := by
  obtain ⟨hversions, hmvcc, -, hvisible, happlied, -⟩ := hstep.layout
  exact h.relayout (hstep.ordered h.ordered) hversions hmvcc hvisible happlied

theorem versions_flush (e : Engine) : e.flush.versions = e.versions := by
  unfold flush
  split_ifs
  · rfl
  · simp [versions, tables, empty]

theorem Ordered.flush (h : e.Ordered) : e.flush.Ordered := by
  have hversions := versions_flush e
  unfold Engine.flush at hversions ⊢
  split_ifs at hversions ⊢ with hempty
  · exact h
  · refine ⟨?_, ?_, le_rfl, h.identities⟩
    · rw [hversions]
      exact h.visible
    · rw [hversions]
      exact h.shown

theorem flush_marks (e : Engine) : e.flush.mvcc = e.mvcc ∧ e.flush.sha256 = e.sha256 ∧
    e.flush.visible = e.visible ∧ e.flush.applied = e.applied := by
  unfold flush
  split_ifs <;> exact ⟨rfl, rfl, rfl, rfl⟩

theorem Filled.flush (h : e.Filled) : e.flush.Filled := by
  obtain ⟨hmvcc, -, hvisible, happlied⟩ := flush_marks e
  exact h.relayout h.ordered.flush (versions_flush e ▸ List.Perm.refl _) hmvcc hvisible happlied

/-! ### Engines that agree -/

/-- Two engines that store the same versions and are at the same index, in whatever tables.
Where an internal key is in two tables, nothing is said about the versions. -/
structure Alike (e e' : Engine) : Prop where
  mvcc : e'.mvcc = e.mvcc
  sha256 : e'.sha256 = e.sha256
  visible : e'.visible = e.visible
  applied : e'.applied = e.applied
  members : Distinct e.versions → Distinct e'.versions → ∀ v, v ∈ e.versions ↔ v ∈ e'.versions

namespace Alike

theorem getMVCCAt (h : Alike e e') (he : e.Ordered) (he' : e'.Ordered)
    (hdistinct : Distinct e.versions) (hdistinct' : Distinct e'.versions) (key : Bytes)
    (target : ℕ) : e.getMVCCAt key target = e'.getMVCCAt key target := by
  have hexposes : ∀ v, Exposes e.versions key target v ↔ Exposes e'.versions key target v :=
    fun v => ⟨Exposes.congr (h.members hdistinct hdistinct'),
      Exposes.congr fun u => (h.members hdistinct hdistinct' u).symm⟩
  by_cases hkey : key.length ≤ maxUserKeySize
  · have hread := @getMVCCAt_spec key target e he hdistinct hkey
    have hread' := @getMVCCAt_spec key target e' he' hdistinct' hkey
    rcases hget : e.getMVCCAt key target with err | v
    · rw [hget] at hread
      rcases hget' : e'.getMVCCAt key target with err' | v'
      · rw [hget'] at hread'
        rw [hread.1, hread'.1]
      · rw [hget'] at hread'
        exact absurd ((hexposes v').mpr hread') (hread.2 v')
    · rw [hget] at hread
      exact ((getMVCCAt_ok_iff he' hdistinct' hkey).mpr ((hexposes v).mp hread)).symm
  · unfold Engine.getMVCCAt
    rw [if_pos (not_le.mp hkey), if_pos (not_le.mp hkey)]

section

variable (h : Alike e e') (hdistinct : Distinct e.versions) (hdistinct' : Distinct e'.versions)

include h hdistinct hdistinct'

theorem exportMVCCVersions : e.exportMVCCVersions = e'.exportMVCCVersions := by
  unfold Engine.exportMVCCVersions
  rw [h.mvcc, inOrder_congr hdistinct hdistinct' (h.members hdistinct hdistinct')]

theorem scanMVCCAt (start stop : Option Bytes) (requested : ℕ) :
    e.scanMVCCAt start stop requested = e'.scanMVCCAt start stop requested := by
  unfold Engine.scanMVCCAt
  rw [h.visible, inOrder_congr hdistinct hdistinct' (h.members hdistinct hdistinct')]

theorem stored :
    Alike (e.stored index term version command mutations)
      (e'.stored index term version command mutations) := by
  refine ⟨h.mvcc, h.sha256, ?_, rfl, fun hpost hpost' v => ?_⟩
  · show some (max (e'.visible.getD 0) version) = some (max (e.visible.getD 0) version)
    rw [h.visible]
  · rw [mem_versions_stored hpost, mem_versions_stored hpost', h.members hdistinct hdistinct']

end

/-- Above the applied index, an apply does the same to both. -/
theorem applyCommittedBatch (h : Alike e e') (he : e.Ordered) (he' : e'.Ordered)
    (hdistinct : Distinct e.versions) (hdistinct' : Distinct e'.versions)
    (hindex : e.applied < index) :
    (∃ err, e.applyCommittedBatch index term version command mutations required allow = .error err ∧
        e'.applyCommittedBatch index term version command mutations required allow = .error err) ∨
      ∃ f f', e.applyCommittedBatch index term version command mutations required allow = .ok f ∧
        e'.applyCommittedBatch index term version command mutations required allow = .ok f' ∧
        Alike f f' ∧ f.Ordered ∧ f'.Ordered := by
  have hindex' : e'.applied < index := h.applied ▸ hindex
  rw [applyCommittedBatch_eq he hindex, applyCommittedBatch_eq he' hindex', h.mvcc, h.visible]
  rcases refusal e.mvcc e.visible index term version command mutations required allow with - | err
  · exact .inr ⟨_, _, rfl, rfl, h.stored hdistinct hdistinct', he.stored hindex, he'.stored hindex'⟩
  · exact .inl ⟨err, rfl, rfl⟩

/-- What an engine does on its own cannot be seen. -/
theorem background (h : Alike e e') (hstep : Background e' f) : Alike e f := by
  obtain ⟨hversions, hmvcc, hsha, hvisible, happlied, -⟩ := hstep.layout
  refine ⟨hmvcc.trans h.mvcc, hsha.trans h.sha256, hvisible.trans h.visible,
    happlied.trans h.applied, fun hd hd' v => ?_⟩
  rw [h.members hd (hd'.perm hversions), hversions.mem_iff]

theorem symm (h : Alike e e') : Alike e' e :=
  ⟨h.mvcc.symm, h.sha256.symm, h.visible.symm, h.applied.symm,
    fun hd hd' v => (h.members hd' hd v).symm⟩

end Alike

end Engine

end RivetDB.Storage
