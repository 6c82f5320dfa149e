import RivetDB.Storage.LsmFlush

/-!
# Opening again, and whole runs

Opening a replicated engine again keeps what is in files; the caller applies the rest once
more.  Opening a standalone engine replays the records of its log that lie behind the
frontier, so the whole log is back: the part in files and one table with everything else.

With that, every kind of operation keeps some layout of the log, and along a clean run
reads select from the history of what was stored.
-/

namespace RivetDB.Storage

open List
open scoped ByteOrder

namespace Lsm

variable {s s' : Lsm} {ℓ : Layout}

/-! ### Replay -/

variable {frontier : Option ℕ} {table : Run}

/-- Records below the frontier are skipped. -/
theorem replayWAL_skip {wal rest : List WriteBatch}
    (h : ∀ b ∈ wal, frontier.any (b.lastSequence ≤ ·) = true) :
    replayWAL frontier table (wal ++ rest) = replayWAL frontier table rest := by
  induction wal with
  | nil => rfl
  | cons b wal ih =>
    rw [cons_append, replayWAL, if_pos (h b mem_cons_self)]
    exact ih fun c hc => h c (mem_cons_of_mem _ hc)

variable {wal : List WriteBatch}

/-- Records behind the frontier are applied, in order. -/
theorem replayWAL_apply (h : ∀ b ∈ wal, ∀ n ∈ frontier, n < b.firstSequence ∧ n < b.lastSequence) :
    replayWAL frontier table wal = .ok (table.insertAll (logged (wal.map WriteBatch.toBatch))) := by
  induction wal generalizing table with
  | nil => rfl
  | cons b wal ih =>
    have hbehind : frontier.any (b.lastSequence ≤ ·) = false ∧
        frontier.any (b.firstSequence ≤ ·) = false := by
      rcases frontier with - | n
      · exact ⟨rfl, rfl⟩
      · have := h b mem_cons_self n rfl
        simp only [Option.any_some, decide_eq_false_iff_not, not_le]
        exact ⟨this.2, this.1⟩
    rw [replayWAL, hbehind.1, hbehind.2]
    simp only [Bool.false_eq_true, if_false]
    rw [ih fun c hc => h c (mem_cons_of_mem _ hc)]
    congr 1
    exact (foldl_append).symm

/-- A record without a gap before it starts at its place. -/
theorem contiguous_firstSequence {n : ℕ}
    (h : Contiguous n (wal.map WriteBatch.toBatch)) : ∀ b ∈ wal, n ≤ b.firstSequence := by
  induction wal generalizing n with
  | nil => simp
  | cons c wal ih =>
    obtain ⟨hne, hseqs, -, hrest⟩ := h
    intro b hb
    rcases mem_cons.mp hb with rfl | hb
    · have hmutations : b.mutations ≠ [] := by
        intro hnil
        refine hne ?_
        show WriteBatch.numbered b.firstSequence b.mutations = []
        rw [hnil]
        rfl
      obtain ⟨m, rest, hcons⟩ := exists_cons_of_ne_nil hmutations
      have hmem : b.firstSequence ∈ (WriteBatch.toBatch b).versions.map Version.seq := by
        refine mem_map.mpr ⟨m.stored b.firstSequence, ?_, rfl⟩
        show _ ∈ WriteBatch.numbered b.firstSequence b.mutations
        rw [hcons]
        exact mem_cons_self
      rw [hseqs, mem_range'_1] at hmem
      exact hmem.1
    · exact (Nat.le_add_right _ _).trans (ih hrest b hb)

variable {extra : List Batch} {m : Manifest}

/-- The write-ahead log of a standalone engine, replayed from its frontier. -/
theorem LaidStandalone.replay (hs : LaidStandalone s ℓ extra)
    (hfrontier : m.frontier = s.manifest.frontier) :
    replayWAL m.frontier .empty s.wal =
      .ok (history (ℓ.segments.flatten ++ ℓ.current ++ extra)) := by
  have hwal := hs.wal
  rw [Layout.log, append_assoc] at hwal
  obtain ⟨covered, rest, hsplit, hcovered, hrest⟩ := map_eq_append_iff.mp hwal
  have hcontiguous := hs.contiguous
  rw [Layout.log, append_assoc, contiguous_append, Nat.zero_add, ← hcovered, ← hrest] at hcontiguous
  have hstart := hs.start
  rw [← hcovered] at hstart
  -- the frontier is the last sequence in files
  have hvalue : ∀ n, n ∈ m.frontier → n + 1 = (logged (covered.map WriteBatch.toBatch)).length := by
    intro n hn
    have hsome : s.manifest.frontier = some n := hfrontier ▸ hn
    unfold Manifest.frontierStart at hstart
    rw [hsome] at hstart
    exact hstart
  rw [hsplit, replayWAL_skip, replayWAL_apply, hrest]
  · rfl
  · intro b hb n hn
    have hlast := (hcontiguous.2.index_bounds _ (mem_map_of_mem hb)).1
    have hfirst := contiguous_firstSequence hcontiguous.2 b hb
    have := hvalue n hn
    have hindex : (WriteBatch.toBatch b).index = b.lastSequence := rfl
    omega
  · intro b hb
    have hindex := (hcontiguous.1.index_bounds _ (mem_map_of_mem hb)).2
    rcases hm : m.frontier with - | n
    · have hnone : s.manifest.frontier = none := hfrontier ▸ hm
      unfold Manifest.frontierStart at hstart
      rw [hnone] at hstart
      simp only at hstart
      omega
    · have := hvalue n hm
      simp only [Option.any_some, decide_eq_true_eq]
      have hlast : (WriteBatch.toBatch b).index = b.lastSequence := rfl
      omega

/-- The largest sequence that a standalone engine finds when it opens. -/
theorem LaidStandalone.maximumSequence (hs : LaidStandalone s ℓ extra) :
    s.maximumSequence = if (logged (ℓ.log ++ extra)).length = 0 then none
      else some ((logged (ℓ.log ++ extra)).length - 1) := by
  have hle : ∀ n ∈ s.manifest.tables.map SSTable.largestSequence ++
      s.wal.map WriteBatch.lastSequence ++ s.manifest.lastSequence.toList,
      n < (logged (ℓ.log ++ extra)).length := by
    intro n hn
    rcases mem_append.mp hn with hn | hn
    · rcases mem_append.mp hn with hn | hn
      · obtain ⟨t, ht, rfl⟩ := mem_map.mp hn
        refine (hs.tables t ht).trans_le ?_
        simp only [Layout.log, logged_append, length_append]
        omega
      · obtain ⟨b, hb, rfl⟩ := mem_map.mp hn
        have hmem : WriteBatch.toBatch b ∈ ℓ.log ++ extra := hs.wal ▸ mem_map_of_mem hb
        have := (hs.contiguous.index_bounds _ hmem).2
        rwa [Nat.zero_add] at this
    · exact hs.last n (by simpa using hn)
  rcases Nat.eq_zero_or_pos (logged (ℓ.log ++ extra)).length with hzero | hpos
  · have hnil : s.manifest.tables.map SSTable.largestSequence ++
        s.wal.map WriteBatch.lastSequence ++ s.manifest.lastSequence.toList = [] := by
      refine eq_nil_iff_forall_not_mem.mpr fun n hn => ?_
      have := hle n hn
      omega
    rw [if_pos hzero]
    unfold Lsm.maximumSequence
    rw [hnil]
    rfl
  · -- the last record of the log ends at the largest sequence
    have hne : ℓ.log ++ extra ≠ [] := by
      intro hnil
      rw [hnil] at hpos
      exact absurd hpos (lt_irrefl _)
    have hlast : ∃ b ∈ ℓ.log ++ extra, b.index + 1 = (logged (ℓ.log ++ extra)).length := by
      have hcontiguous := hs.contiguous
      rw [← dropLast_append_getLast hne, contiguous_append, Nat.zero_add] at hcontiguous
      refine ⟨_, getLast_mem hne, ?_⟩
      rw [hcontiguous.2.2.2.1, ← length_append]
      conv_rhs => rw [← dropLast_append_getLast hne, logged_append, logged_singleton]
    obtain ⟨b, hb, hindex⟩ := hlast
    rw [← hs.wal] at hb
    obtain ⟨w, hw, rfl⟩ := mem_map.mp hb
    rw [if_neg (by omega), ← hindex, Nat.add_sub_cancel]
    refine max?_eq_some_iff.mpr ⟨?_, fun n hn => ?_⟩
    · exact mem_append_left _ (mem_append_right _ (mem_map_of_mem hw))
    · have := hle n hn
      omega

/-- What recovery keeps of a manifest: it may move the last sequence and nothing else. -/
structure Recovered (s : Lsm) (m : Manifest) : Prop where
  levels : ∀ level, (m.levels level).Perm (s.manifest.levels level)
  leveled : s.LevelsOrdered → ∀ level, 0 < level → level < maxLevels → Leveled (m.levels level)
  mode : m.mode = s.manifest.mode
  frontier : m.frontier = s.manifest.frontier
  applied : m.replicatedApplied = s.manifest.replicatedApplied
  mvcc : m.maxAppliedMVCC = s.manifest.maxAppliedMVCC
  last : m.lastSequence = s.manifest.lastSequence ∨
    (s.mode = .standalone → m.lastSequence = s.maximumSequence)

theorem recoverManifest_ok (h : s.recoverManifest = .ok m) : Recovered s m := by
  unfold recoverManifest at h
  have hsame : ∀ m, s.manifest = m → Recovered s m := by
    rintro m rfl
    exact ⟨fun _ => List.Perm.refl _, id, rfl, rfl, rfl, rfl, .inl rfl⟩
  split at h
  · exact hsame m (Except.ok.inj h)
  rename_i maximum hmaximum
  split at h
  · split at h
    · cases h
    rename_i m₁ happly
    cases h
    obtain ⟨⟨kept, levels, hfiles⟩, hmode, hfrontier, hlast, happlied, hmvcc, -⟩ :=
      Manifest.apply_ok happly
    refine ⟨Manifest.apply_levels_of_no_files happly rfl rfl, fun _ => hfiles.leveled, hmode,
      hfrontier, happlied, hmvcc, .inr fun hstandalone => ?_⟩
    rw [if_pos hstandalone] at hmaximum
    rw [hlast, hmaximum]
    rfl
  · exact hsame m (Except.ok.inj h)

/-! ### Opening again -/

theorem LaidReplicated.survivors {durable : ℕ} (hr : LaidReplicated s ℓ durable)
    (hmode : s.mode ≠ .standalone) : s.survivors ℓ.log = ℓ.installed := by
  unfold Lsm.survivors
  rw [if_neg hmode, Layout.log, filter_append, hr.frontier]
  have hinstalled : ℓ.installed.filter (fun b => (some durable).any (b.index ≤ ·)) = ℓ.installed :=
    filter_eq_self.mpr fun b hb => by simpa using hr.installed b hb
  have hrest : (ℓ.segments.flatten ++ ℓ.current).filter
      (fun b => (some durable).any (b.index ≤ ·)) = [] :=
    filter_eq_nil_iff.mpr fun b hb => by simpa using hr.beyond b hb
  rw [hinstalled, hrest, append_nil]

/-- Opening a replicated engine again keeps the installed part of its log. -/
theorem reopen_replicated (h : Laid s ℓ) (hmode : s.mode ≠ .standalone)
    (hrun : s.reopen = .ok s') : Laid s' ⟨ℓ.installed, [], []⟩ := by
  unfold reopen at hrun
  split at hrun
  · cases hrun
  rename_i m hm
  obtain ⟨hfiles, hleveled, hmanifestMode, -, happlied, hmvcc, -⟩ := recoverManifest_ok hm
  have htables : m.tables.Perm s.manifest.tables := Manifest.tables_perm hfiles
  obtain ⟨durable, hr⟩ := h.replicated hmode
  simp only [if_neg hmode] at hrun
  obtain rfl := Except.ok.inj hrun
  have hlog : (Layout.log ⟨ℓ.installed, [], []⟩) = ℓ.installed := by simp [Layout.log]
  have hpart : ∀ b ∈ ℓ.installed, b ∈ ℓ.log := fun b hb => mem_append_left _ hb
  have hdurable : m.replicatedApplied.getD 0 = durable := by
    rw [happlied, hr.frontier]
    rfl
  refine ⟨List.pairwise_pair.mpr (apart_nil _), (List.Perm.flatMap_right _ htables).trans h.live,
    Queued.nil, ⟨rfl, rfl, by simp⟩, (htables.map _).nodup_iff.mpr h.numbers, hleveled h.levels,
    (fun hin => by cases hin), fun b hb => ?_,
    ⟨(fun g hg => by cases hg), fun hne => absurd rfl hne⟩, fun v hv => ?_, fun _ => ?_,
    fun hs => absurd hs hmode, hmanifestMode.trans h.mode⟩
  · rw [hlog] at hb
    simp only [bound, hmode, if_false, hdurable]
    exact Nat.lt_succ_of_le (hr.installed b hb)
  · -- everything in files is visible at once
    rw [hlog] at hv
    obtain ⟨b, hb, hvb⟩ := mem_flatMap.mp hv
    obtain ⟨hindex, hseq⟩ := hr.positive b (hpart b hb)
    simp only [hdurable, hmode, ne_eq, not_false_eq_true, true_and, not_true_eq_false, if_false]
    by_cases hkind : s.mode = .replicatedMVCC
    · obtain ⟨n, hn, hle⟩ := hr.mvcc v hv hkind
      have hn0 : n ≠ 0 := by
        have := hseq v hvb
        omega
      refine ⟨n, ?_, hle⟩
      rw [hmvcc, hn, if_pos ⟨hkind, by simpa using hn0⟩]
    · have hplain : s.mode = .replicated := by
        rcases hm : s.mode with - | - | - <;> simp_all
      have hle := hr.installed b hb
      refine ⟨durable, ?_, ?_⟩
      · rw [if_neg (fun hand => hkind hand.1), if_pos (by omega)]
      · rw [hr.plain hplain b (hpart b hb) v hvb]
        exact hle
  · refine ⟨durable, happlied.trans hr.frontier, hr.installed, by simp, hdurable.ge, ?_, ?_, ?_⟩
    · rw [hlog]
      exact fun b hb => hr.positive b (hpart b hb)
    · rw [hlog]
      exact fun hplain b hb => hr.plain hplain b (hpart b hb)
    · rw [hmvcc]
      exact hr.mvcc

/-- A standalone engine after it was opened again: the part `rest` of its log, which no file
holds, is in the active table, and the log has `n` entries. -/
structure Reopened (s s' : Lsm) (rest : List Batch) (n : ℕ) : Prop where
  manifest : Recovered s s'.manifest
  mode : s'.mode = .standalone
  wal : s'.wal = s.wal
  idle : s'.immutables = [] ∧ s'.installing = false
  active : s'.active.table = history rest ∧ s'.active.span = recoveredSpan (logged rest)
  next : s'.nextSequence = n
  visible : n ≠ 0 → s'.visible = some (n - 1)

variable (hs : LaidStandalone s ℓ extra)

include hs

theorem LaidStandalone.reopened (hmode : s.mode = .standalone) (hrun : s.reopen = .ok s') :
    Reopened s s' (ℓ.segments.flatten ++ ℓ.current ++ extra) (logged (ℓ.log ++ extra)).length := by
  unfold reopen at hrun
  split at hrun
  · cases hrun
  rename_i m hm
  have hrecovered := recoverManifest_ok hm
  simp only [if_pos hmode, hs.replay hrecovered.frontier] at hrun
  have hs' := Except.ok.inj hrun
  have hnext : s'.nextSequence = (logged (ℓ.log ++ extra)).length := by
    rw [← hs']
    simp only [hs.maximumSequence]
    split_ifs with hzero
    · exact hzero.symm
    · show (logged (ℓ.log ++ extra)).length - 1 + 1 = _
      omega
  have hvisible : (logged (ℓ.log ++ extra)).length ≠ 0 →
      s'.visible = some ((logged (ℓ.log ++ extra)).length - 1) := by
    intro hne
    rw [← hnext] at hne ⊢
    rw [← hs'] at hne ⊢
    simp only [hmode] at hne ⊢
    simp [hne]
  subst hs'
  exact ⟨hrecovered, hmode, rfl, ⟨rfl, rfl⟩, ⟨rfl, recoveredSpan_history _⟩, hnext, hvisible⟩

/-- The log goes on where its installed part ends. -/
theorem LaidStandalone.parts : Contiguous 0 ℓ.installed ∧
    Contiguous (logged ℓ.installed).length (ℓ.segments.flatten ++ ℓ.current ++ extra) := by
  have hcontiguous := hs.contiguous
  simp only [Layout.log, append_assoc] at hcontiguous ⊢
  rwa [contiguous_append, Nat.zero_add] at hcontiguous

/-- Opening a standalone engine again brings back its write-ahead log. -/
theorem reopen_standalone (h : Laid s ℓ) (hmode : s.mode = .standalone)
    (hrun : s.reopen = .ok s') :
    Laid s' ⟨ℓ.installed, [], ℓ.segments.flatten ++ ℓ.current ++ extra⟩ := by
  have hparts := hs.parts
  have hr := hs.reopened hmode hrun
  generalize hrest : ℓ.segments.flatten ++ ℓ.current ++ extra = rest at hparts hr ⊢
  have hlog : Layout.log ⟨ℓ.installed, [], rest⟩ = ℓ.log ++ extra := by simp [Layout.log, ← hrest]
  have hlength : (logged (ℓ.log ++ extra)).length =
      (logged ℓ.installed).length + (logged rest).length := by
    rw [← hlog]
    simp [Layout.log, logged_append]
  have hbound : s'.bound = (logged (ℓ.log ++ extra)).length := by
    unfold bound
    rw [if_pos hr.mode, hr.next]
  have hmark : rest ≠ [] → mark s'.mode s'.active + 1 = (logged (ℓ.log ++ extra)).length := by
    intro hne
    have hpos : 0 < (logged rest).length := by
      obtain ⟨b, hb⟩ := exists_mem_of_ne_nil rest hne
      have := hparts.2.index_bounds b hb
      omega
    unfold mark
    rw [if_pos hr.mode, hr.active.2, hparts.2.span hne, Option.getD_some]
    omega
  have htables := Manifest.tables_perm hr.manifest.levels
  have hpending : s'.pending = [] := by simp [pending, hr.idle]
  refine ⟨?_, (List.Perm.flatMap_right _ htables).trans h.live, hpending ▸ Queued.nil,
    ⟨hr.active.1, hr.active.2, fun b hb => ?_⟩, (htables.map _).nodup_iff.mpr h.numbers,
    hr.manifest.leveled h.levels, fun hin => ?_, fun b hb => ?_, ⟨fun g hg => ?_, fun hne => ?_⟩,
    fun v hv => ?_, (absurd hr.mode ·), fun _ => ⟨[], ?_⟩,
    hr.manifest.mode.trans (h.mode.trans (hmode.trans hr.mode.symm))⟩
  · refine List.pairwise_pair.mpr fun v hv w hw heq => ?_
    have hlow := (hparts.1.seq_bounds v hv).2
    have hhigh := (hparts.2.seq_bounds w hw).1
    have hseq : v.seq = w.seq := congrArg (fun i => i.2.1) heq
    omega
  · have := hmark (ne_nil_of_mem hb)
    have := (hparts.2.index_bounds b hb).2
    omega
  · rw [hr.idle.2] at hin
    cases hin
  · rw [hlog] at hb
    have := (hs.contiguous.index_bounds b hb).2
    omega
  · rw [hpending] at hg
    cases hg
  · have := hmark hne
    omega
  · rw [hlog] at hv
    have hseq := (hs.contiguous.seq_bounds v hv).2
    exact ⟨_, hr.visible (by omega), by omega⟩
  · refine ⟨?_, fun _ => rfl, ?_, fun _ => ?_, ?_, ?_, fun t ht => ?_, fun l hl => ?_⟩
    all_goals try rw [hlog, append_nil]
    · rw [hr.wal]
      exact hs.wal
    · exact hs.contiguous
    · rw [hlog]
      exact hr.next
    · rw [hr.next]
    · unfold Manifest.frontierStart
      rw [hr.manifest.frontier]
      exact hs.start
    · exact hs.tables t (htables.subset ht)
    · rcases hr.manifest.last with hlast | hlast
      · exact hs.last l (hlast ▸ hl)
      · have hmaximum := hs.maximumSequence
        rw [← hlast hmode, show s'.manifest.lastSequence = some l from hl] at hmaximum
        split_ifs at hmaximum with hzero
        rw [Option.some.inj hmaximum]
        omega

omit hs

/-- Opening again keeps a layout of what survives. -/
theorem reopen_laid (h : Laid s ℓ) (hrun : s.reopen = .ok s') :
    ∃ ℓ', Laid s' ℓ' ∧ ℓ'.log = s.survivors ℓ.log := by
  by_cases hmode : s.mode = .standalone
  · obtain ⟨extra, hs⟩ := h.standalone hmode
    refine ⟨_, reopen_standalone hs h hmode hrun, ?_⟩
    unfold survivors
    rw [if_pos hmode, hs.wal]
    simp [Layout.log]
  · obtain ⟨durable, hr⟩ := h.replicated hmode
    refine ⟨_, reopen_replicated h hmode hrun, ?_⟩
    rw [hr.survivors hmode]
    simp [Layout.log]

/-! ### Runs -/

/-- A new engine holds the empty log. -/
theorem create_laid (mode : Mode) (enableBloom : Bool) (maxImmutables targetFileSize : ℕ)
    (sha256 : Bytes → Digest) :
    Laid (create mode enableBloom maxImmutables targetFileSize sha256) {} := by
  have htables :
      (create mode enableBloom maxImmutables targetFileSize sha256).manifest.tables = [] := rfl
  refine ⟨pairwise_pair.mpr (apart_nil _), ?_, Queued.nil, ⟨rfl, rfl, by simp⟩, ?_, ?_,
    fun hinstalling => ?_, fun b hb => ?_, ⟨by simp [pending, create], fun hne => absurd rfl hne⟩,
    fun v hv => ?_, fun hmode => ⟨0, ?_⟩, fun _ => ⟨[], ?_⟩, rfl⟩
  · rw [htables]
    exact List.Perm.refl _
  · rw [htables]
    exact nodup_nil
  · exact fun level _ _ => List.Pairwise.nil
  · cases hinstalling
  · cases hb
  · cases hv
  · exact ⟨if_neg hmode, by simp, by simp, Nat.le_refl _, by simp [Layout.log],
      by simp [Layout.log], by simp⟩
  · refine ⟨rfl, fun _ => rfl, trivial, fun _ => rfl, Nat.le_refl _, rfl, fun t ht => ?_,
      fun l hl => ?_⟩
    · rw [htables] at ht
      cases ht
    · cases hl

/-- Every clean operation keeps a layout of the log. -/
theorem Laid.next (h : Laid s ℓ) {op : Op} (hclean : (op.run s).isOk = true → s.Clean op) :
    ∃ ℓ', Laid (next (s, ℓ.log) op).1 ℓ' ∧ ℓ'.log = (next (s, ℓ.log) op).2 := by
  unfold Lsm.next
  rcases hrun : op.run s with err | s'
  · exact ⟨ℓ, h, rfl⟩
  replace hclean := hclean (by rw [hrun]; rfl)
  -- operations that store nothing keep the log as it is
  have hsilent : (∃ ℓ', Laid s' ℓ' ∧ ℓ'.log = ℓ.log) → op.batch s = none → op ≠ .reopen →
      ∃ ℓ', Laid s' ℓ' ∧ ℓ'.log = op.record s ℓ.log := by
    rintro ⟨ℓ', hlaid, hlog⟩ hbatch hreopen
    refine ⟨ℓ', hlaid, ?_⟩
    unfold Op.record
    split
    · exact absurd rfl hreopen
    · rw [hlog, hbatch]
      exact (append_nil _).symm
  cases op with
  | write mutations => exact ⟨_, write_laid h hrun, Layout.log_push _ _⟩
  | writeFailing mutations persisted => exact hsilent ⟨ℓ, writeFailing_laid h hrun, rfl⟩ rfl nofun
  | applyCommitted index term command mutation =>
    exact ⟨_, applyCommittedBatch_laid h (by simp) hrun, Layout.log_push _ _⟩
  | applyCommittedMVCCBatch index term timestamp command mutations =>
    exact ⟨_, applyCommittedBatch_laid h (by simp) hrun, Layout.log_push _ _⟩
  | applyPreparedMVCCBatch index term timestamp command mutations =>
    exact ⟨_, applyCommittedBatch_laid h (fun _ => hclean) hrun, Layout.log_push _ _⟩
  | resolveCommittedMVCCBatch index term timestamp command mutations =>
    exact ⟨_, applyCommittedBatch_laid h (fun _ => hclean) hrun, Layout.log_push _ _⟩
  | advanceApplied index => exact hsilent ⟨ℓ, advanceApplied_laid h hrun, rfl⟩ rfl nofun
  | ensureActiveFile => exact hsilent ⟨ℓ, (ensureActiveFile_ok hrun).2 ℓ h, rfl⟩ rfl nofun
  | reserve =>
    refine hsilent ⟨ℓ, ?_, rfl⟩ rfl nofun
    simp only [Op.run] at hrun
    split at hrun
    · cases hrun
    · rename_i hallocate
      cases hrun
      exact h.kept (kept_allocate hallocate)
  | rotate => exact hsilent (rotate_laid h hrun) rfl nofun
  | installTable => exact hsilent (installTable_laid h hrun) rfl nofun
  | finishInstallation => exact hsilent ⟨ℓ, finishInstallation_laid h hrun, rfl⟩ rfl nofun
  | compact job inputs => exact hsilent ⟨ℓ, compact_laid h hclean hrun, rfl⟩ rfl nofun
  | reopen => exact reopen_laid h hrun

/-- Along a clean run the tables hold the log. -/
theorem Laid.runFrom (h : Laid s ℓ) {ops : List Op} (hclean : CleanRun (s, ℓ.log) ops) :
    ∃ ℓ', Laid (runFrom (s, ℓ.log) ops).1 ℓ' ∧ ℓ'.log = (runFrom (s, ℓ.log) ops).2 := by
  induction ops generalizing s ℓ with
  | nil => exact ⟨ℓ, h, rfl⟩
  | cons op ops ih =>
    obtain ⟨hop, hrest⟩ := hclean
    obtain ⟨ℓ', hlaid, hlog⟩ := h.next hop
    have hstate : Lsm.next (s, ℓ.log) op = ((Lsm.next (s, ℓ.log) op).1, ℓ'.log) := by
      rw [hlog]
    rw [hstate] at hrest
    unfold Lsm.runFrom
    rw [foldl_cons, hstate]
    exact ih hlaid hrest

/-! ### What callers read -/

/-- `scanAt` fails at an intent, and otherwise drops the tombstones. -/
theorem interpret_eq {entries : List Version} (h : ∀ v ∈ entries, v.kind ≠ .txnAbort) :
    interpret entries =
      if ∃ v ∈ entries, v.kind = .intent then .error .unresolvedIntent
      else .ok ((entries.filter (·.kind = .value)).map fun v => (v.key, v.value)) := by
  induction entries with
  | nil => simp [interpret]
  | cons v rest ih =>
    have hrest := ih fun w hw => h w (mem_cons_of_mem _ hw)
    have hv := h v mem_cons_self
    rw [interpret, hrest]
    rcases hkind : v.kind with - | - | - | -
    · simp [hkind]
    · by_cases hintent : ∃ w ∈ rest, w.kind = .intent
      · simp [hkind, hintent]
      · simp [hkind, hintent]
    · exact absurd hkind hv
    · simp [hkind]

/-- Every read returns what the rule selects from `V`: the point reads, the scans, the agreement
of both, and the reads that interpret the entry they find. -/
structure Reads (s : Lsm) (V : List Version) : Prop extends Selects s V where
  agree : ∀ start stop requested key v values, ValidBounds start stop →
    key.length ≤ maxUserKeySize → Run.Within start stop key →
    s.scanMVCCAt start stop requested = .ok values →
    (s.getMVCCAt key requested = .ok v ↔ v ∈ values ∧ v.key = key)
  getAt : ∀ key requested value, key.length ≤ maxUserKeySize →
    (s.getAt key requested = .ok value ↔
      ∃ v, Exposes V key (s.limit requested) v ∧ v.kind = .value ∧ v.value = value)
  scanAt : ∀ start stop requested values, ValidBounds start stop →
    s.scanMVCCAt start stop requested = .ok values →
    s.scanAt start stop requested =
      if ∃ v ∈ values, v.kind = .intent then .error .unresolvedIntent
      else .ok ((values.filter (·.kind = .value)).map fun v => (v.key, v.value))

theorem Selects.reads {V : List Version} (h : s.Selects V) : s.Reads V where
  toSelects := h
  agree _ _ _ _ _ _ hbounds hkey hwithin hscan := h.get_iff_scan hbounds hkey hwithin hscan
  getAt key requested value hkey := by
    unfold Lsm.getAt
    constructor
    · intro hget
      split at hget
      · cases hget
      rename_i v hv
      split at hget
      · rename_i hkind
        cases hget
        exact ⟨v, (h.getMVCCAt_ok_iff hkey).mp hv, hkind, rfl⟩
      · cases hget
      · cases hget
      · cases hget
    · rintro ⟨v, hv, hkind, rfl⟩
      rw [(h.getMVCCAt_ok_iff hkey).mpr hv]
      simp only [hkind]
  scanAt start stop requested values hbounds hscan := by
    obtain ⟨values', hok, -, hmem⟩ := h.scanMVCCAt start stop requested hbounds
    rw [hscan] at hok
    cases hok
    unfold Lsm.scanAt
    rw [hscan]
    exact interpret_eq fun v hv => ((hmem v).mp hv).2.kind

/-- In every clean run, from a new engine on, reads select from the history of what was
stored. -/
theorem run_reads (mode : Mode) (enableBloom : Bool) (maxImmutables targetFileSize : ℕ)
    (sha256 : Bytes → Digest) (ops : List Op)
    (hclean : CleanRun (create mode enableBloom maxImmutables targetFileSize sha256, []) ops) :
    Reads (runFrom (create mode enableBloom maxImmutables targetFileSize sha256, []) ops).1 (history
        (runFrom (create mode enableBloom maxImmutables targetFileSize sha256, [])
          ops).2).entries := by
  obtain ⟨ℓ, hlaid, hlog⟩ :=
    (create_laid mode enableBloom maxImmutables targetFileSize sha256).runFrom hclean
  have hselects := hlaid.selects
  rw [hlog] at hselects
  exact hselects.reads

/-- An intent is flushed, resolved and compacted together with the value that replaces it. -/
def resolvedIntent : List Op :=
  [.applyPreparedMVCCBatch 1 1 5 [1] [⟨.intent, [107], [1]⟩], .rotate, .installTable,
    .finishInstallation, .resolveCommittedMVCCBatch 2 1 5 [2] [⟨.value, [107], [1]⟩], .rotate,
    .installTable, .finishInstallation, .compact 1 [(0, 1), (0, 2)]]

theorem resolvedIntent_reads :
    CleanRun (create .replicatedMVCC true 4 4194304 fun _ => .zero, []) resolvedIntent ∧
      (runFrom (create .replicatedMVCC true 4 4194304 fun _ => .zero, [])
        resolvedIntent).1.getMVCCAt [107] none = .ok ⟨[107], 5, .value, [1]⟩ ∧
      Reads (runFrom (create .replicatedMVCC true 4 4194304 fun _ => .zero, []) resolvedIntent).1
        (history (runFrom (create .replicatedMVCC true 4 4194304 fun _ => .zero, [])
          resolvedIntent).2).entries :=
  ⟨by decide +kernel, by decide +kernel, run_reads _ _ _ _ _ _ (by decide +kernel)⟩

/-- An intent is prepared, flushed, and prepared again. -/
def preparedTwice : List Op :=
  [.applyPreparedMVCCBatch 1 1 5 [1] [⟨.intent, [107], [1]⟩], .rotate, .installTable,
    .finishInstallation, .applyPreparedMVCCBatch 2 1 5 [2] [⟨.intent, [107], [1]⟩]]

/-- A compaction takes the file of a table that is still queued. -/
def compactedEarly : List Op :=
  [.applyCommittedMVCCBatch 1 1 5 [1] [⟨.value, [107], [1]⟩], .rotate, .installTable,
    .compact 1 [(0, 1)]]

/-- An internal key in two files makes its user key unreadable, although the rule selects
an entry. -/
theorem copies_unreadable :
    ((runFrom (create .replicatedMVCC true 4 4194304 fun _ => .zero, []) preparedTwice).1.getMVCCAt
        [107] (some 5) = .error (.storage (.join .corruption .duplicateEntry)) ∧
      (runFrom (create .replicatedMVCC true 4 4194304 fun _ => .zero, [])
        preparedTwice).1.scanMVCCAt none none (some 5) =
          .error (.storage (.join .corruption .duplicateEntry)) ∧
      Exposes (history (runFrom (create .replicatedMVCC true 4 4194304 fun _ => .zero, [])
        preparedTwice).2).entries [107] 5 ⟨[107], 5, .intent, [1]⟩) ∧
    (runFrom (create .replicatedMVCC true 4 4194304 fun _ => .zero, []) compactedEarly).1.getMVCCAt
        [107] (some 5) = .error (.storage (.join .corruption .duplicateEntry)) ∧
      (runFrom (create .replicatedMVCC true 4 4194304 fun _ => .zero, [])
        compactedEarly).1.scanMVCCAt none none (some 5) =
          .error (.storage (.join .corruption .duplicateEntry)) ∧
      Exposes (history (runFrom (create .replicatedMVCC true 4 4194304 fun _ => .zero, [])
        compactedEarly).2).entries [107] 5 ⟨[107], 5, .value, [1]⟩ := by
  have htwice : (history (runFrom (create .replicatedMVCC true 4 4194304 fun _ => .zero, [])
      preparedTwice).2).entries = [⟨[107], 5, .intent, [1]⟩] := by decide +kernel
  have hearly : (history (runFrom (create .replicatedMVCC true 4 4194304 fun _ => .zero, [])
      compactedEarly).2).entries = [⟨[107], 5, .value, [1]⟩] := by decide +kernel
  refine ⟨⟨by decide +kernel, by decide +kernel, ?_⟩, by decide +kernel, by decide +kernel, ?_⟩
  · rw [htwice]
    exact ⟨⟨by simp, rfl, le_rfl, by simp⟩, le_rfl, by simp, by simp⟩
  · rw [hearly]
    exact ⟨⟨by simp, rfl, le_rfl, by simp⟩, le_rfl, by simp, by simp⟩

/-- **The durable frontier is exact.**  Along a clean run the live tables of a replicated engine
hold the history of the batches up to the frontier of the manifest, all of it and nothing else. -/
theorem files_hold_frontier {mode : Mode} {enableBloom : Bool} {maxImmutables targetFileSize : ℕ}
    {sha256 : Bytes → Digest} {ops : List Op} {run : Lsm × List Batch}
    (hclean : CleanRun (create mode enableBloom maxImmutables targetFileSize sha256, []) ops)
    (hrun : runFrom (create mode enableBloom maxImmutables targetFileSize sha256, []) ops = run)
    (hmode : run.1.mode ≠ .standalone) :
    ∃ frontier, run.1.manifest.replicatedApplied = some frontier ∧
      (run.1.manifest.tables.flatMap fun t => t.run.entries).Perm
        (history (run.2.filter (·.index ≤ frontier))).entries := by
  obtain ⟨ℓ, hlaid, hlog⟩ : ∃ ℓ, Laid run.1 ℓ ∧ ℓ.log = run.2 :=
    hrun ▸ (create_laid ..).runFrom hclean
  obtain ⟨frontier, hr⟩ := hlaid.replicated hmode
  have hfilter : run.2.filter (·.index ≤ frontier) = ℓ.installed := by
    rw [← hlog, Layout.log, filter_append, filter_eq_self.mpr, filter_eq_nil_iff.mpr, append_nil]
    · exact fun b hb => by simpa using hr.beyond b hb
    · exact fun b hb => by simpa using hr.installed b hb
  exact ⟨frontier, hr.frontier, hfilter ▸ hlaid.live⟩

theorem resolvedIntent_frontier : ∃ run, runFrom (create .replicatedMVCC true 4 4194304
      fun _ => .zero, []) resolvedIntent = run ∧
    ∃ frontier, run.1.manifest.replicatedApplied = some frontier ∧
      (run.1.manifest.tables.flatMap fun t => t.run.entries).Perm
        (history (run.2.filter (·.index ≤ frontier))).entries := by
  have hclean : CleanRun (create .replicatedMVCC true 4 4194304 fun _ => .zero, [])
    resolvedIntent := by decide +kernel
  exact ⟨_, rfl, files_hold_frontier hclean rfl (by decide +kernel)⟩

end Lsm

end RivetDB.Storage
