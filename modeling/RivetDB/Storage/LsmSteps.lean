import RivetDB.Storage.LsmRuns

/-!
# Steps that store

A write and a replicated apply add one batch to the part of the active table.  The batch
is new: a write takes sequences that were never used, an ordinary apply takes a version
above everything visible, and a prepare or a resolution is clean by assumption.  Rotation
turns the part of the active table into the last segment of the queue.
-/

namespace RivetDB.Storage

open List
open scoped ByteOrder

namespace Lsm

variable {s s' : Lsm} {ℓ : Layout} {b : Batch}

/-! ### One more batch -/

/-- The layout with a batch in the active table. -/
def Layout.push (ℓ : Layout) (b : Batch) : Layout := { ℓ with current := ℓ.current ++ [b] }

theorem Layout.log_push (ℓ : Layout) (b : Batch) : (ℓ.push b).log = ℓ.log ++ [b] := by
  simp [Layout.push, Layout.log]

theorem Layout.apart_push (h : ℓ.parts.Pairwise Apart)
    (hb : ∀ part ∈ ℓ.installed :: ℓ.segments, Apart part [b]) :
    (ℓ.push b).parts.Pairwise Apart := by
  have hsplit : ∀ current : List Batch, (ℓ.installed :: (ℓ.segments ++ [current])).Pairwise Apart ↔
        (ℓ.installed :: ℓ.segments).Pairwise Apart ∧
          ∀ part ∈ ℓ.installed :: ℓ.segments, Apart part current := by
    intro current
    rw [← cons_append, pairwise_append]
    simp
  obtain ⟨hparts, hcurrent⟩ := (hsplit ℓ.current).mp h
  exact (hsplit (ℓ.current ++ [b])).mpr
    ⟨hparts, fun part hpart => (hcurrent part hpart).append_right (hb part hpart)⟩

variable {mode : Mode} {current : List Batch} {gs : List Generation} {parts : List (List Batch)}

theorem Queued.push (h : Queued mode current gs parts)
    (hb : ∀ g ∈ gs, mark mode g < b.index) : Queued mode (current ++ [b]) gs parts := by
  induction h with
  | nil => exact Queued.nil
  | cons holds nonempty below rest ih =>
    refine Queued.cons holds nonempty (fun c hc => ?_) (ih fun g hg => hb g (mem_cons_of_mem _ hg))
    rw [← append_assoc, mem_append] at hc
    rcases hc with hc | hc
    · exact below c hc
    · rw [mem_singleton.mp hc]
      exact hb _ mem_cons_self

variable {part : List Batch}

theorem Holds.push {g g' : Generation} (h : Holds mode g part)
    (htable : g'.table = g.table.insertAll b.versions)
    (hspan : g'.span = recoveredSpan (logged part ++ b.versions))
    (hmark : ∀ c ∈ part, c.index ≤ mark mode g') (hb : b.index ≤ mark mode g') :
    Holds mode g' (part ++ [b]) := by
  refine ⟨?_, ?_, fun c hc => ?_⟩
  · rw [htable, h.table, history_append, logged_singleton]
  · rw [hspan, logged_append, logged_singleton]
  · rcases mem_append.mp hc with hc | hc
    · exact hmark c hc
    · rw [mem_singleton.mp hc]
      exact hb

variable {v : Version}

/-- What the parts of a layout hold is in its log. -/
theorem Layout.mem_logged (hpart : part ∈ ℓ.parts) (hv : v ∈ logged part) : v ∈ logged ℓ.log := by
  rw [← ℓ.flatten_parts]
  obtain ⟨c, hc, hvc⟩ := mem_flatMap.mp hv
  exact mem_flatMap.mpr ⟨c, mem_flatten.mpr ⟨part, hpart, hc⟩, hvc⟩

theorem Layout.mem_parts (hpart : part ∈ ℓ.installed :: ℓ.segments) : part ∈ ℓ.parts := by
  rcases mem_cons.mp hpart with rfl | hpart
  · exact mem_cons_self
  · exact mem_cons_of_mem _ (mem_append_left _ hpart)

/-- A batch whose sequences lie above those of the log is new. -/
theorem apart_of_seq_lt (h : ∀ v ∈ logged ℓ.log, ∀ w ∈ b.versions, v.seq < w.seq) :
    ∀ part ∈ ℓ.installed :: ℓ.segments, Apart part [b] := by
  intro part hpart v hv w hw heq
  rw [logged_singleton] at hw
  have hlt := h v (Layout.mem_logged (Layout.mem_parts hpart) hv) w hw
  have hseq : v.seq = w.seq := congrArg (fun i => i.2.1) heq
  omega

/-- What is outside the active table is in an older table. -/
theorem Laid.mem_older (h : Laid s ℓ) (hpart : part ∈ ℓ.installed :: ℓ.segments)
    (hv : v ∈ (history part).entries) : v ∈ s.older := by
  rcases mem_cons.mp hpart with rfl | hpart
  · exact mem_append_right _ (h.live.symm.subset hv)
  · have hmem : history part ∈ s.pending.map Generation.table := by
      rw [h.queued.tables]
      exact mem_map_of_mem hpart
    obtain ⟨g, hg, hgpart⟩ := mem_map.mp hmem
    refine mem_append_left _ (mem_flatMap.mpr ⟨g, ?_, hgpart ▸ hv⟩)
    unfold pending at hg
    split_ifs at hg
    · exact mem_of_mem_tail hg
    · exact hg

/-! ### Standalone writes -/

theorem map_seq_numbered (first : ℕ) (mutations : List Mutation) :
    (WriteBatch.numbered first mutations).map Version.seq =
      List.range' first (WriteBatch.numbered first mutations).length := by
  induction mutations generalizing first with
  | nil => rfl
  | cons m rest ih =>
    rw [WriteBatch.numbered, map_cons, ih, length_cons, range'_succ]
    rfl

theorem length_numbered (first : ℕ) (mutations : List Mutation) :
    (WriteBatch.numbered first mutations).length = mutations.length := by
  induction mutations generalizing first with
  | nil => rfl
  | cons m rest ih => rw [WriteBatch.numbered, length_cons, ih, length_cons]

variable {mutations : List Mutation}

/-- A batch takes the sequences from its first one on. -/
theorem contiguous_toBatch (h : mutations ≠ []) (first : ℕ) :
    Contiguous first [WriteBatch.toBatch ⟨first, mutations⟩] := by
  have hlength := length_numbered first mutations
  have hpos := length_pos_iff.mpr h
  refine ⟨fun hnil => ?_, map_seq_numbered first mutations, ?_, trivial⟩
  · have : (WriteBatch.numbered first mutations).length = 0 := by
      rw [show WriteBatch.numbered first mutations = [] from hnil]
      rfl
    omega
  · show first + mutations.length - 1 + 1 = first + (WriteBatch.numbered first mutations).length
    omega

theorem validateMutations_ne_nil
    (h : Engine.validateMutations mutations = .ok ()) : mutations ≠ [] := by
  rintro rfl
  cases h

theorem assign_ok {batch : WriteBatch} (h : s.assign mutations = .ok (s', batch)) :
    ∃ s₁, SameButFile s s₁ ∧ (∀ ℓ, Laid s ℓ → Laid s₁ ℓ) ∧ s₁.mode = .standalone ∧ mutations ≠ [] ∧
      batch = ⟨s₁.nextSequence, mutations⟩ ∧
      s' = { s₁ with nextSequence := s₁.nextSequence + mutations.length } := by
  unfold assign at h
  split at h
  · cases h
  rename_i hmode
  split at h
  · cases h
  rename_i hvalid
  split_ifs at h
  split at h
  · cases h
  rename_i s₁ hensure
  dsimp only at h
  split at h
  · cases h
  cases h
  obtain ⟨hsame, hlaid⟩ := ensureActiveFile_ok hensure
  refine ⟨s₁, hsame, hlaid, hsame.mode.trans (not_not.mp hmode), validateMutations_ne_nil hvalid,
    ?_, ?_⟩
  · rw [hsame.nextSequence]
  · rw [hsame.nextSequence]

section

variable (h : Laid s ℓ) (hmode : s.mode = .standalone) (hwal : s.walFailed = false)
  (hne : mutations ≠ [])

include h hmode hwal hne

/-- A batch behind the log of a standalone engine. -/
theorem contiguous_push :
    Contiguous 0 (ℓ.log ++ [WriteBatch.toBatch ⟨s.nextSequence, mutations⟩]) ∧
      s.nextSequence = (logged ℓ.log).length := by
  obtain ⟨extra, hs⟩ := h.standalone hmode
  obtain rfl := hs.whole hwal
  have hcontiguous := hs.contiguous
  rw [append_nil] at hcontiguous
  rw [contiguous_append, Nat.zero_add, ← hs.next hwal]
  exact ⟨⟨hcontiguous, contiguous_toBatch hne _⟩, rfl⟩

/-- The span of the active table after a write. -/
theorem span_push :
    recoveredSpan (logged ℓ.current ++ (WriteBatch.toBatch ⟨s.nextSequence, mutations⟩).versions) =
      some ((s.active.span.map Prod.fst).getD s.nextSequence,
        (WriteBatch.toBatch ⟨s.nextSequence, mutations⟩).index) := by
  obtain ⟨hcontiguous, hnext⟩ := contiguous_push h hmode hwal hne
  have hone := contiguous_toBatch hne s.nextSequence
  generalize WriteBatch.toBatch ⟨s.nextSequence, mutations⟩ = b at hcontiguous hone ⊢
  rw [Layout.log, ← append_assoc, append_assoc, contiguous_append, Nat.zero_add] at hcontiguous
  generalize hn : (logged (ℓ.installed ++ ℓ.segments.flatten)).length = n at hcontiguous
  have hsize : s.nextSequence = n + (logged ℓ.current).length := by
    rw [hnext, Layout.log, ← append_assoc, logged_append, length_append, hn]
  have hspan := hcontiguous.2.span (by simp)
  rw [logged_append, logged_singleton] at hspan
  have hlast : n + (logged ℓ.current ++ b.versions).length - 1 = b.index := by
    have := hone.2.2.1
    rw [length_append]
    omega
  rw [hspan, hlast, h.active.span]
  by_cases hempty : ℓ.current = []
  · rw [hempty] at hsize ⊢
    rw [hsize]
    rfl
  · rw [(contiguous_append.mp hcontiguous.2).1.span hempty]
    rfl

end

/-- A step that puts one batch into the active table keeps the layout. -/
theorem Laid.store (h : Laid s ℓ) (hmode : s'.mode = s.mode) (hmanifest : s'.manifest = s.manifest)
    (himmutables : s'.immutables = s.immutables) (hinstalling : s'.installing = s.installing)
    (hactive : Holds s.mode s'.active (ℓ.current ++ [b]))
    (hapart : ∀ part ∈ ℓ.installed :: ℓ.segments, Apart part [b])
    (hbelow : s.bound ≤ b.index) (hbound : b.index < s'.bound)
    (hmark : mark s.mode s'.active < s'.bound)
    (hvisible : ∀ v ∈ logged (ℓ.log ++ [b]), ∃ n, s'.visible = some n ∧ v.seq ≤ n)
    (hreplicated : s.mode ≠ .standalone → ∃ durable, LaidReplicated s' (ℓ.push b) durable)
    (hstandalone : s.mode = .standalone → ∃ extra, LaidStandalone s' (ℓ.push b) extra) :
    Laid s' (ℓ.push b) := by
  have hpending : s'.pending = s.pending := by
    unfold pending
    rw [himmutables, hinstalling]
  refine ⟨Layout.apart_push h.apart hapart, ?_, ?_, ?_, ?_, ?_, ?_, ?_, ⟨?_, fun _ => ?_⟩, ?_, ?_,
    ?_, ?_⟩
  · rw [hmanifest]
    exact h.live
  · rw [hmode, hpending]
    exact h.queued.push fun g hg => (h.marks.1 g hg).trans_le hbelow
  · rw [hmode]
    exact hactive
  · rw [hmanifest]
    exact h.numbers
  · unfold LevelsOrdered
    rw [hmanifest]
    exact h.levels
  · rw [hinstalling, himmutables, hmanifest]
    exact h.installing
  · intro c hc
    rw [Layout.log_push] at hc
    rcases mem_append.mp hc with hc | hc
    · exact (h.below c hc).trans_le (hbelow.trans hbound.le)
    · rw [mem_singleton.mp hc]
      exact hbound
  · rw [hpending, hmode]
    exact fun g hg => (h.marks.1 g hg).trans_le (hbelow.trans hbound.le)
  · rw [hmode]
    exact hmark
  · rw [Layout.log_push]
    exact hvisible
  · rw [hmode]
    exact hreplicated
  · rw [hmode]
    exact hstandalone
  · rw [hmanifest, hmode]
    exact h.mode

/-- A write adds its batch. -/
theorem write_laid (h : Laid s ℓ) (hrun : s.write mutations = .ok s') :
    Laid s' (ℓ.push (WriteBatch.toBatch ⟨s.nextSequence, mutations⟩)) := by
  unfold write at hrun
  split at hrun
  · cases hrun
  rename_i s₂ batch hassign
  obtain ⟨s₁, hsame, hlaid, hmode, hne, rfl, rfl⟩ := assign_ok hassign
  replace h := hlaid ℓ h
  rw [← hsame.nextSequence]
  split at hrun
  · cases hrun
  rename_i hwal
  replace hwal : s₁.walFailed = false := by simpa using hwal
  have hs' := Except.ok.inj hrun
  obtain ⟨extra, hs⟩ := h.standalone hmode
  obtain rfl := hs.whole hwal
  obtain ⟨hcontiguous, hnext⟩ := contiguous_push h hmode hwal hne
  have hspan := span_push h hmode hwal hne
  have hone := contiguous_toBatch hne s₁.nextSequence
  have hlength : (WriteBatch.toBatch ⟨s₁.nextSequence, mutations⟩).versions.length =
      mutations.length := length_numbered _ _
  have hpos := length_pos_iff.mpr hne
  have hindex : (WriteBatch.toBatch ⟨s₁.nextSequence, mutations⟩).index + 1 =
      s₁.nextSequence + mutations.length := by
    rw [hone.2.2.1, hlength]
  have hmark : mark s₁.mode s'.active =
      (WriteBatch.toBatch ⟨s₁.nextSequence, mutations⟩).index := by
    simp [← hs', mark, hmode, publish, WriteBatch.toBatch]
  have hbound : s'.bound = s₁.nextSequence + mutations.length := by
    simp [← hs', bound, hmode, publish]
  have hold : s₁.bound = s₁.nextSequence := by simp [bound, hmode]
  have hlogs : (logged (ℓ.log ++ [WriteBatch.toBatch ⟨s₁.nextSequence, mutations⟩])).length =
      s₁.nextSequence + mutations.length := by
    rw [logged_append, logged_singleton, length_append, hlength, ← hnext]
  subst hs'
  refine h.store rfl rfl rfl rfl ?_ (apart_of_seq_lt ?_) ?_ ?_ ?_ ?_ (absurd hmode) fun _ => ?_
  · refine h.active.push rfl ?_ (fun c hc => ?_) hmark.ge
    · rw [hspan]
      rfl
    · have := h.below c (by simp [Layout.log, hc])
      omega
  · intro v hv w hw
    have hlow := ((contiguous_append.mp hcontiguous).1.seq_bounds v hv).2
    have hhigh := (hone.seq_bounds w (by simpa using hw)).1
    omega
  · omega
  · omega
  · omega
  · intro v hv
    have hseq := (hcontiguous.seq_bounds v hv).2
    exact ⟨(WriteBatch.toBatch ⟨s₁.nextSequence, mutations⟩).index, rfl, by omega⟩
  · refine ⟨[], ?_, fun _ => rfl, ?_, fun _ => ?_, ?_, hs.start, hs.tables, fun l hl => ?_⟩
    · have hwalmap := hs.wal
      rw [append_nil] at hwalmap
      rw [Layout.log_push, append_nil]
      show (s₁.wal ++ [_]).map WriteBatch.toBatch = _
      rw [map_append, hwalmap]
      rfl
    · rwa [Layout.log_push, append_nil]
    · rw [Layout.log_push, hlogs]
      rfl
    · rw [Layout.log_push, append_nil, hlogs]
      exact le_rfl
    · have := hs.last l hl
      rw [append_nil, ← hnext] at this
      rw [Layout.log_push, append_nil, hlogs]
      omega

/-- A write that fails in the log stores nothing; the log may keep the record. -/
theorem writeFailing_laid (h : Laid s ℓ) {persisted : Bool}
    (hrun : s.writeFailing mutations persisted = .ok s') : Laid s' ℓ := by
  unfold writeFailing at hrun
  split at hrun
  · cases hrun
  rename_i s₂ batch hassign
  obtain ⟨s₁, hsame, hlaid, hmode, hne, rfl, rfl⟩ := assign_ok hassign
  replace h := hlaid ℓ h
  split at hrun
  · cases hrun
  rename_i hwal
  replace hwal : s₁.walFailed = false := by simpa using hwal
  cases hrun
  obtain ⟨extra, hs⟩ := h.standalone hmode
  obtain rfl := hs.whole hwal
  obtain ⟨hcontiguous, hnext⟩ := contiguous_push h hmode hwal hne
  have hlength : (WriteBatch.toBatch ⟨s₁.nextSequence, mutations⟩).versions.length =
      mutations.length := length_numbered _ _
  have hold : s₁.bound = s₁.nextSequence := by simp [bound, hmode]
  have hroom := hs.room
  refine ⟨h.apart, h.live, h.queued, h.active, h.numbers, h.levels, h.installing, ?_, ⟨?_, ?_⟩,
    h.visible, absurd hmode, fun _ => ?_, h.mode⟩
  · intro c hc
    simp only [bound, hmode, if_true]
    have := h.below c hc
    omega
  · intro g hg
    simp only [bound, hmode, if_true]
    have hg' := h.marks.1 g hg
    rw [hmode] at hg'
    omega
  · intro hcurrent
    simp only [bound, hmode, if_true]
    have hg' := h.marks.2 hcurrent
    rw [hmode] at hg'
    omega
  · cases persisted with
    | false =>
      refine ⟨[], hs.wal, fun _ => rfl, hs.contiguous, fun hfailed => ?_, ?_, hs.start,
        hs.tables, hs.last⟩
      · cases hfailed
      · rw [append_nil]
        show _ ≤ s₁.nextSequence + mutations.length
        omega
    | true =>
      refine ⟨[WriteBatch.toBatch ⟨s₁.nextSequence, mutations⟩], ?_, fun hfailed => ?_,
        hcontiguous, fun hfailed => ?_, ?_, hs.start, hs.tables, fun l hl => ?_⟩
      · have hwalmap := hs.wal
        rw [append_nil] at hwalmap
        show (s₁.wal ++ [_]).map WriteBatch.toBatch = _
        rw [map_append, hwalmap]
        rfl
      · cases hfailed
      · cases hfailed
      · rw [logged_append, logged_singleton, length_append, hlength, ← hnext]
      · have := hs.last l hl
        rw [append_nil] at this
        rw [logged_append, length_append]
        omega

/-! ### Replicated applies -/

variable {index version : ℕ} {allow : Bool}

/-- What a committed batch does to the engine. -/
theorem applyReplicatedVersionBatch_ok
    (h : s.applyReplicatedVersionBatch index version mutations allow = .ok s') :
    ∃ s₁, SameButFile s s₁ ∧ (∀ ℓ, Laid s ℓ → Laid s₁ ℓ) ∧ s₁.mode ≠ .standalone ∧
      index ≠ 0 ∧ version ≠ 0 ∧ (s₁.mode ≠ .replicatedMVCC → version = index) ∧ mutations ≠ [] ∧
      s₁.replicatedApplied < index ∧
      (s₁.mode = .replicatedMVCC → allow = false → ∀ n ∈ s₁.visible, n < version) ∧
      s' = { s₁ with
        active := { s₁.active with
          table := s₁.active.table.insertAll (mutations.map (·.stored version))
          span := some (match s₁.active.span with
            | none => (version, version)
            | some (least, largest) => (min least version, max largest version))
          applied := some (match s₁.active.applied with
            | none => (s₁.coveredApplied + 1, index)
            | some (first, _) => (first, index)) }
        coveredApplied := index
        replicatedApplied := index
        visible := some (max (s₁.visible.getD 0) version) } := by
  unfold applyReplicatedVersionBatch at h
  split at h
  · cases h
  rename_i hmode
  split at h
  · cases h
  rename_i hoptions
  simp only [not_or, not_and, not_not] at hoptions
  split at h
  · cases h
  rename_i hvalid
  split_ifs at h with _ _ happlied hregression
  split at h
  · cases h
  rename_i s₁ hensure
  obtain ⟨hsame, hlaid⟩ := ensureActiveFile_ok hensure
  refine ⟨s₁, hsame, hlaid, hsame.mode ▸ hmode, hoptions.1, hoptions.2.1,
    fun hne => hoptions.2.2 (hsame.mode ▸ hne), validateMutations_ne_nil hvalid, ?_,
    fun hmvcc hallow n hn => ?_, (Except.ok.inj h).symm⟩
  · rw [hsame.replicatedApplied]
    exact not_le.mp happlied
  · rw [hsame.visible] at hn
    rw [hsame.mode] at hmvcc
    simp only [hmvcc, hallow, Bool.not_false, and_true, true_and] at hregression
    rw [show s.visible = some n from hn] at hregression
    simpa using hregression

/-- The span of the active table after an apply at one version. -/
theorem span_apply {V : List Version} (hne : mutations ≠ []) :
    recoveredSpan (V ++ mutations.map (·.stored version)) = some (match recoveredSpan V with
      | none => (version, version)
      | some (least, largest) => (min least version, max largest version)) := by
  obtain ⟨m, hm⟩ := exists_mem_of_ne_nil mutations hne
  have hnew : m.stored version ∈ mutations.map (·.stored version) := mem_map_of_mem hm
  have hseq : ∀ v ∈ mutations.map (·.stored version), v.seq = version := by
    intro v hv
    obtain ⟨m', -, rfl⟩ := mem_map.mp hv
    rfl
  rcases hspan : recoveredSpan V with - | ⟨least, largest⟩
  · rw [recoveredSpan_eq_none_iff] at hspan
    subst hspan
    rw [nil_append, recoveredSpan_eq_some_iff]
    exact ⟨⟨_, hnew, rfl⟩, ⟨_, hnew, rfl⟩, fun v hv => by rw [hseq v hv]; exact ⟨le_rfl, le_rfl⟩⟩
  · rw [recoveredSpan_eq_some_iff] at hspan ⊢
    obtain ⟨⟨u, hu, rfl⟩, ⟨w, hw, rfl⟩, hall⟩ := hspan
    refine ⟨?_, ?_, fun v hv => ?_⟩
    · rcases Nat.le_total u.seq version with hle | hle
      · exact ⟨u, mem_append_left _ hu, (Nat.min_eq_left hle).symm⟩
      · exact ⟨_, mem_append_right _ hnew, (Nat.min_eq_right hle).symm⟩
    · rcases Nat.le_total w.seq version with hle | hle
      · exact ⟨_, mem_append_right _ hnew, (Nat.max_eq_right hle).symm⟩
      · exact ⟨w, mem_append_left _ hw, (Nat.max_eq_left hle).symm⟩
    · rcases mem_append.mp hv with hv | hv
      · have := hall v hv
        omega
      · rw [hseq v hv]
        omega

/-- An apply adds its batch, when that is new to the older tables. -/
theorem apply_laid (h : Laid s ℓ) (hclean : allow = true → ∀ m ∈ mutations, ∀ v ∈ s.older,
      v.internal ≠ (m.stored version).internal)
    (hrun : s.applyReplicatedVersionBatch index version mutations allow = .ok s') :
    Laid s' (ℓ.push ⟨index, mutations.map (·.stored version)⟩) := by
  -- freshness is about the engine before a file number was reserved
  have hnew : allow = true → ∀ part ∈ ℓ.installed :: ℓ.segments,
      Apart part [⟨index, mutations.map (·.stored version)⟩] := by
    intro hallow part hpart
    refine apart_singleton fun v hv w hw => ?_
    obtain ⟨m, hm, rfl⟩ := mem_map.mp hw
    exact hclean hallow m hm v (h.mem_older hpart hv)
  obtain ⟨s₁, -, hlaid, hmode, hindex, hversion, hplain, hne, happlied, hregression, hs'⟩ :=
    applyReplicatedVersionBatch_ok hrun
  replace h := hlaid ℓ h
  obtain ⟨durable, hr⟩ := h.replicated hmode
  have hseq : ∀ w ∈ mutations.map (·.stored version), w.seq = version := by
    intro w hw
    obtain ⟨m, -, rfl⟩ := mem_map.mp hw
    rfl
  have hapart : ∀ part ∈ ℓ.installed :: ℓ.segments,
      Apart part [⟨index, mutations.map (·.stored version)⟩] := by
    cases allow with
    | true => exact hnew rfl
    | false =>
      refine apart_of_seq_lt fun v hv w hw => ?_
      rw [hseq w hw]
      by_cases hmvcc : s₁.mode = .replicatedMVCC
      · obtain ⟨n, hn, hle⟩ := h.visible v hv
        exact hle.trans_lt (hregression hmvcc rfl n hn)
      · have hreplicated : s₁.mode = .replicated := by
          rcases hm : s₁.mode with - | - | - <;> simp_all
        obtain ⟨c, hc, hvc⟩ := mem_flatMap.mp hv
        have hcbound := h.below c hc
        rw [hr.plain hreplicated c hc v hvc, hplain hmvcc]
        simp only [bound, hmode, if_false] at hcbound
        omega
  have hbound : s'.bound = index + 1 := by simp [hs', bound, hmode]
  have hold : s₁.bound = s₁.replicatedApplied + 1 := by simp [bound, hmode]
  have hmark : mark s₁.mode s'.active = index := by
    simp only [hs', mark, hmode, if_false, Option.getD_some]
    split <;> rfl
  subst hs'
  refine h.store rfl rfl rfl rfl ?_ hapart ?_ ?_ ?_ ?_ (fun _ => ?_) (absurd · hmode)
  · refine h.active.push rfl ?_ (fun c hc => ?_) hmark.ge
    · rw [span_apply hne, ← h.active.span]
    · have := h.below c (by simp [Layout.log, hc])
      omega
  · show s₁.bound ≤ index
    omega
  · rw [hbound]
    exact Nat.lt_succ_self index
  · omega
  · intro v hv
    refine ⟨max (s₁.visible.getD 0) version, rfl, ?_⟩
    rw [logged_append, logged_singleton, mem_append] at hv
    rcases hv with hv | hv
    · obtain ⟨n, hn, hle⟩ := h.visible v hv
      rw [hn, Option.getD_some]
      exact hle.trans (Nat.le_max_left _ _)
    · rw [hseq v hv]
      exact Nat.le_max_right _ _
  · refine ⟨durable, hr.frontier, hr.installed, ?_, hr.applied.trans happlied.le, ?_, ?_, hr.mvcc⟩
    · intro c hc
      simp only [Layout.push, ← append_assoc] at hc
      rcases mem_append.mp hc with hc | hc
      · exact hr.beyond c hc
      · rw [mem_singleton.mp hc]
        exact hr.applied.trans_lt happlied
    · rw [Layout.log_push]
      intro c hc
      rcases mem_append.mp hc with hc | hc
      · exact hr.positive c hc
      · rw [mem_singleton.mp hc]
        exact ⟨Nat.pos_of_ne_zero hindex, fun v hv => by
          rw [hseq v hv]
          exact Nat.pos_of_ne_zero hversion⟩
    · rw [Layout.log_push]
      intro hreplicated c hc v hv
      rcases mem_append.mp hc with hc | hc
      · exact hr.plain hreplicated c hc v hv
      · rw [mem_singleton.mp hc] at hv ⊢
        rw [hseq v hv]
        exact hplain (by rw [show s₁.mode = _ from hreplicated]; decide)

/-- The engine's own checks stand in front of an apply. -/
theorem applyCommittedBatch_laid (h : Laid s ℓ) {index term version : ℕ} {command : Bytes}
    {required : Mode}
    (hclean : allow = true → ∀ m ∈ mutations, ∀ v ∈ s.older,
      v.internal ≠ (m.stored version).internal)
    (hrun : s.applyCommittedBatch index term version command mutations required allow = .ok s') :
    Laid s' (ℓ.push ⟨index, mutations.map (·.stored version)⟩) := by
  unfold applyCommittedBatch at hrun
  split at hrun
  · cases hrun
  split at hrun
  · cases hrun
  split at hrun
  · split at hrun <;> cases hrun
  split_ifs at hrun
  split at hrun
  · cases hrun
  rename_i s₂ happly
  cases hrun
  have hlaid := apply_laid h hclean happly
  exact { hlaid with
    replicated := fun hmode => (hlaid.replicated hmode).imp fun _ hr => { hr with }
    standalone := fun hmode => (hlaid.standalone hmode).imp fun _ hs => { hs with } }

/-- Progress without a mutation. -/
theorem advanceApplied_laid (h : Laid s ℓ) (hrun : s.advanceApplied index = .ok s') :
    Laid s' ℓ := by
  unfold advanceApplied at hrun
  split at hrun
  · cases hrun
  rename_i hmode
  split at hrun
  · cases hrun
  rename_i hlow
  split at hrun
  · cases hrun
    exact h
  rename_i hne
  have hs' := Except.ok.inj hrun
  have hadvance : s.replicatedApplied < index := lt_of_le_of_ne (not_lt.mp hlow) (Ne.symm hne)
  have hold : s.bound = s.replicatedApplied + 1 := by simp [bound, hmode]
  have hbound : s'.bound = index + 1 := by simp [← hs', bound, hmode]
  -- a table that covers indexes now reaches `index`
  have hmark : mark s.mode s'.active = mark s.mode s.active ∨ mark s.mode s'.active = index := by
    rw [← hs']
    rcases happlied : s.active.applied with - | ⟨first, last⟩
    · left
      simp [mark, hmode, happlied]
    · right
      simp [mark, hmode]
  obtain ⟨durable, hr⟩ := h.replicated hmode
  subst hs'
  refine ⟨h.apart, h.live, h.queued, ⟨h.active.table, h.active.span, fun c hc => ?_⟩, h.numbers,
    h.levels, h.installing, fun c hc => ?_, ⟨fun g hg => ?_, fun hcurrent => ?_⟩, fun v hv => ?_,
    fun _ => ⟨durable, hr.frontier, hr.installed, hr.beyond, hr.applied.trans hadvance.le,
      hr.positive, hr.plain, hr.mvcc⟩, (absurd · hmode), h.mode⟩
  · have hreach := h.active.reach c hc
    have hbelow := h.below c (by simp [Layout.log, hc])
    change c.index ≤ mark s.mode _
    rcases hmark with hmark | hmark <;> omega
  · have := h.below c hc
    omega
  · have := h.marks.1 g hg
    change mark s.mode g < _
    omega
  · have := h.marks.2 hcurrent
    change mark s.mode _ < _
    rcases hmark with hmark | hmark <;> omega
  · by_cases hmvcc : s.mode = .replicatedMVCC
    · simpa [hmvcc] using h.visible v hv
    · have hreplicated : s.mode = .replicated := by
        rcases hm : s.mode with - | - | - <;> simp_all
      obtain ⟨c, hc, hvc⟩ := mem_flatMap.mp hv
      have hbelow := h.below c hc
      refine ⟨index, by simp [hmvcc], ?_⟩
      rw [hr.plain hreplicated c hc v hvc]
      omega

/-! ### Rotation -/

/-- The layout once the active table is frozen. -/
def Layout.freeze (ℓ : Layout) : Layout := ⟨ℓ.installed, ℓ.segments ++ [ℓ.current], []⟩

theorem Layout.log_freeze (ℓ : Layout) : ℓ.freeze.log = ℓ.log := by
  simp [Layout.freeze, Layout.log]

theorem Queued.freeze (h : Queued mode current gs parts) {g : Generation}
    (hholds : Holds mode g current) (hne : current ≠ []) :
    Queued mode [] (gs ++ [g]) (parts ++ [current]) := by
  induction h with
  | nil => exact Queued.cons hholds hne (by simp) Queued.nil
  | cons holds nonempty below rest ih =>
    exact Queued.cons holds nonempty (by simpa using below) ih

/-- Rotation freezes the part of the active table. -/
theorem rotate_laid (h : Laid s ℓ) (hrun : s.rotate = .ok s') :
    ∃ ℓ', Laid s' ℓ' ∧ ℓ'.log = ℓ.log := by
  unfold rotate at hrun
  split at hrun
  · cases hrun
    exact ⟨ℓ, h, rfl⟩
  rename_i hentries
  split at hrun
  · cases hrun
  split at hrun
  · cases hrun
  rename_i s₁ hensure
  obtain ⟨hsame, hlaid⟩ := ensureActiveFile_ok hensure
  replace h := hlaid ℓ h
  have hcurrent : ℓ.current ≠ [] := by
    rintro hnil
    refine hentries ?_
    rw [← hsame.table, h.active.table, hnil]
    rfl
  have hs' := Except.ok.inj hrun
  have hpending : s'.pending = s₁.pending ++ [s₁.active] := by
    rw [← hs']
    unfold pending
    split_ifs with hinstalling
    · obtain ⟨g, gs, hqueue, -⟩ := h.installing hinstalling
      rw [hqueue]
      rfl
    · rfl
  subst hs'
  refine ⟨ℓ.freeze, ⟨?_, h.live, ?_, ⟨rfl, rfl, nofun⟩, h.numbers, h.levels, fun hinstalling => ?_,
    ?_, ⟨fun g hg => ?_, fun hcurrent => absurd rfl hcurrent⟩, ?_, fun hreplicated => ?_,
    fun hstandalone => ?_, h.mode⟩, ℓ.log_freeze⟩
  · show ((ℓ.installed :: ((ℓ.segments ++ [ℓ.current]) ++ [[]])) : List (List Batch)).Pairwise Apart
    rw [← cons_append, pairwise_append]
    refine ⟨h.apart, pairwise_singleton _ _, fun part _ other hother => ?_⟩
    rw [mem_singleton.mp hother]
    exact apart_nil part
  · rw [hpending]
    exact h.queued.freeze h.active hcurrent
  · obtain ⟨g, gs, hqueue, hrest⟩ := h.installing hinstalling
    refine ⟨g, gs ++ [s₁.active], ?_, hrest⟩
    rw [hqueue]
    rfl
  · rw [ℓ.log_freeze]
    exact h.below
  · rw [hpending] at hg
    rcases mem_append.mp hg with hg | hg
    · exact h.marks.1 g hg
    · rw [mem_singleton.mp hg]
      exact h.marks.2 hcurrent
  · rw [ℓ.log_freeze]
    exact h.visible
  · obtain ⟨durable, hr⟩ := h.replicated hreplicated
    refine ⟨durable, hr.frontier, hr.installed, ?_, hr.applied, ?_, ?_, hr.mvcc⟩
    · simpa [Layout.freeze] using hr.beyond
    · rw [ℓ.log_freeze]
      exact hr.positive
    · rw [ℓ.log_freeze]
      exact hr.plain
  · obtain ⟨extra, hs⟩ := h.standalone hstandalone
    refine ⟨extra, ?_, hs.whole, ?_, ?_, ?_, hs.start, hs.tables, ?_⟩
    all_goals rw [ℓ.log_freeze]
    · exact hs.wal
    · exact hs.contiguous
    · exact hs.next
    · exact hs.room
    · exact hs.last

end Lsm

end RivetDB.Storage
