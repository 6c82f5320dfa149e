import RivetDB.Storage.LsmSteps

/-!
# Flushes and compactions

The head of the queue becomes a level-0 file.  In standalone mode the installed log then
ends one sequence before the next segment, so the contiguous frontier that the manifest
computes from its tables is the last sequence of the new file.  In the replicated modes
the file carries the Raft indexes of its generation, which start right behind the durable
ones.

A compaction writes the entries of its inputs, in order, to new files.  The manifest
replaces the inputs by these files, so the entries in files stay the same.
-/

namespace RivetDB.Storage

open List
open scoped ByteOrder

variable {entries : List Version} {t : SSTable}

theorem writeTable_ok {number generation smallest largest : ℕ} {bloom : Bool}
    (h : writeTable number generation smallest largest bloom entries = .ok t) :
    t.fileNumber = number ∧ t.smallestSequence = smallest ∧ t.largestSequence = largest ∧
      t.run.entries = entries := by
  unfold writeTable at h
  split at h
  · cases h
  split at h
  · split at h
    · cases h
      exact ⟨rfl, rfl, rfl, rfl⟩
    · cases h
  · cases h

namespace Manifest

variable {v next : Manifest} {t : SSTable}

/-- When only one table reaches beyond the frontier, its span is the only one. -/
theorem spans_singleton {start : ℕ} (htables : next.tables.Perm (v.tables ++ [t]))
    (hbehind : ∀ u ∈ v.tables, u.largestSequence < start) (hreach : start ≤ t.largestSequence) :
    next.spans start = [(t.smallestSequence, t.largestSequence)] := by
  unfold spans
  have hnone : (v.tables.map fun u => (u.smallestSequence, u.largestSequence)).filter
      (fun span => decide (start ≤ span.2)) = [] := by
    rw [filter_eq_nil_iff]
    intro span hspan
    obtain ⟨u, hu, rfl⟩ := mem_map.mp hspan
    have := hbehind u hu
    simp only [decide_eq_true_eq]
    omega
  have hperm := (htables.map fun u => (u.smallestSequence, u.largestSequence)).filter
    fun span => decide (start ≤ span.2)
  rw [map_append, filter_append, hnone, nil_append, map_singleton,
    filter_cons_of_pos (by simpa using hreach), filter_nil, perm_singleton] at hperm
  rw [hperm]
  rfl

/-- The frontier then moves to the last sequence of that table. -/
theorem maximumContiguousFrontier_singleton
    (hspans : next.spans next.frontierStart = [(t.smallestSequence, t.largestSequence)])
    (hfirst : t.smallestSequence = next.frontierStart)
    (hlast : next.frontierStart ≤ t.largestSequence) :
    next.maximumContiguousFrontier = some t.largestSequence := by
  have hsweep : sweep next.frontierStart (next.spans next.frontierStart) =
      t.largestSequence + 1 := by
    rw [hspans, sweep, if_neg (by omega), if_neg (by omega), sweep]
  unfold maximumContiguousFrontier
  simp only [hsweep]
  rw [if_neg (by omega), Nat.add_sub_cancel]

/-- What installing a flushed table does to the manifest. -/
structure Installed (v : Manifest) (t : SSTable) (next : Manifest) : Prop where
  tables : next.tables.Perm (v.tables ++ [t])
  number : t.fileNumber ≠ 0
  nodup : (v.tables.map SSTable.fileNumber).Nodup → (next.tables.map SSTable.fileNumber).Nodup
  leveled : ∀ level, 0 < level → level < maxLevels → Leveled (next.levels level)
  mode : next.mode = v.mode
  last : next.lastSequence = some (max (v.lastSequence.getD 0) t.largestSequence)

theorem installed_of_apply {edit : VersionEdit} (h : v.apply edit = .ok next)
    (hdeleted : edit.deletedFiles = []) (hadded : edit.addedFiles = [(0, t)])
    (hlast : edit.lastSequence = some (max (v.lastSequence.getD 0) t.largestSequence)) :
    Installed v t next := by
  obtain ⟨⟨kept, levels, hfiles⟩, hmode, -, hlast', -, -, hshape⟩ := apply_ok h
  obtain ⟨removed, htables, hremoved, -⟩ := apply_tables h
  rw [hdeleted, map_nil, map_eq_nil_iff] at hremoved
  subst hremoved
  rw [hadded, append_nil] at htables
  refine ⟨htables, ?_, apply_nodup h, hfiles.leveled, hmode, ?_⟩
  · exact ((validateEditShape_ok hshape).2 (0, t) (by rw [hadded]; exact mem_cons_self)).2
  · rw [hlast', hlast]
    rfl

variable {applied : Option (ℕ × ℕ)}

/-- Installing in standalone mode, when the table starts at the frontier. -/
theorem installTable_standalone (hmode : v.mode = .standalone)
    (hbehind : ∀ u ∈ v.tables, u.largestSequence < v.frontierStart)
    (hfirst : t.smallestSequence = v.frontierStart) (hlast : v.frontierStart ≤ t.largestSequence)
    (h : v.installTable t applied = .ok next) :
    Installed v t next ∧ next.frontierStart = t.largestSequence + 1 := by
  unfold installTable at h
  simp only [hmode, if_true] at h
  obtain ⟨preliminary, hpreliminary, h⟩ := Fallible.bind_eq_ok.mp h
  have hinstalled := installed_of_apply hpreliminary rfl rfl rfl
  have hsame : preliminary.frontierStart = v.frontierStart := by
    obtain ⟨-, -, hfrontier, -⟩ := apply_ok hpreliminary
    unfold frontierStart
    rw [hfrontier]
    rfl
  have hfrontier : preliminary.maximumContiguousFrontier = some t.largestSequence := by
    refine maximumContiguousFrontier_singleton ?_ (hsame ▸ hfirst) (hsame ▸ hlast)
    rw [hsame]
    exact spans_singleton hinstalled.tables hbehind hlast
  have hforward : v.frontier.all (fun n => decide (n < t.largestSequence)) = true := by
    rcases hcurrent : v.frontier with - | n
    · rfl
    · have hstart : v.frontierStart = n + 1 := by
        unfold frontierStart
        rw [hcurrent]
      simp only [Option.all_some, decide_eq_true_eq]
      omega
  rw [hfrontier] at h
  simp only [Option.any_some, hforward, if_true] at h
  refine ⟨installed_of_apply h rfl rfl rfl, ?_⟩
  obtain ⟨-, -, hmoved, -⟩ := apply_ok h
  unfold frontierStart
  rw [hmoved]
  rfl

/-- Installing in a replicated mode. -/
theorem installTable_replicated (hmode : v.mode ≠ .standalone)
    (h : v.installTable t applied = .ok next) :
    Installed v t next ∧ ∃ through, applied = some (v.replicatedApplied.getD 0 + 1, through) ∧
      v.replicatedApplied.getD 0 < through ∧ next.replicatedApplied = some through ∧
      (v.mode = .replicatedMVCC →
        next.maxAppliedMVCC = some (max t.largestSequence (v.maxAppliedMVCC.getD 0))) := by
  unfold installTable at h
  simp only [hmode, if_false] at h
  split at h
  · cases h
  rename_i first through
  split at h
  · cases h
  rename_i hcontiguous
  simp only [not_or, not_not, not_lt] at hcontiguous
  obtain ⟨rfl, hthrough⟩ := hcontiguous
  split at h
  · split at h
    · cases h
    obtain ⟨-, -, -, -, happlied, hmvcc, -⟩ := apply_ok h
    exact ⟨installed_of_apply h rfl rfl rfl, through, rfl, hthrough, happlied, fun _ => hmvcc⟩
  · rename_i hplain
    obtain ⟨-, -, -, -, happlied, -⟩ := apply_ok h
    exact ⟨installed_of_apply h rfl rfl rfl, through, rfl, hthrough, happlied,
      fun hmvcc => absurd hmvcc hplain⟩

end Manifest

namespace Lsm

variable {s s' : Lsm} {ℓ : Layout}

/-- The layout once its first segment is in a file. -/
def Layout.install (ℓ : Layout) (part : List Batch) (parts : List (List Batch)) : Layout :=
  ⟨ℓ.installed ++ part, parts, ℓ.current⟩

variable {part : List Batch} {parts : List (List Batch)}

theorem Layout.log_install
    (h : ℓ.segments = part :: parts) : (ℓ.install part parts).log = ℓ.log := by
  simp [Layout.install, Layout.log, h]

theorem Layout.apart_install (hsegments : ℓ.segments = part :: parts) (h : ℓ.parts.Pairwise Apart) :
    Apart ℓ.installed part ∧ (ℓ.install part parts).parts.Pairwise Apart := by
  unfold Layout.parts at h
  rw [hsegments, cons_append] at h
  obtain ⟨hinstalled, hrest⟩ := pairwise_cons.mp h
  obtain ⟨hpart, hrest⟩ := pairwise_cons.mp hrest
  refine ⟨hinstalled part mem_cons_self, pairwise_cons.mpr ⟨fun other hother => ?_, hrest⟩⟩
  exact (hinstalled other (mem_cons_of_mem _ hother)).append_left (hpart other hother)

/-- The sequences of the first segment in standalone mode. -/
theorem LaidStandalone.segment {extra part : List Batch}
    (hs : LaidStandalone s ℓ extra) (hsegments : ℓ.segments = part :: parts) :
    Contiguous (logged ℓ.installed).length part := by
  have hcontiguous := hs.contiguous
  rw [Layout.log, hsegments, flatten_cons, append_assoc, append_assoc,
    append_assoc, contiguous_append, contiguous_append, Nat.zero_add] at hcontiguous
  exact hcontiguous.2.1

variable {gs : List Generation} {t : SSTable}

/-- A step that puts the first segment into a file keeps the layout. -/
theorem Laid.install (h : Laid s ℓ) {g : Generation} (hsegments : ℓ.segments = part :: parts)
    (hqueue : s.immutables = g :: gs) (hpending : s.installing = false)
    (hfile : t.fileNumber = g.fileNumber) (hrun : t.run = g.table)
    {m : Manifest} (hm : Manifest.Installed s.manifest t m)
    (hreplicated : s.mode ≠ .standalone →
      ∃ durable, LaidReplicated { s with manifest := m, installing := true }
        (ℓ.install part parts) durable)
    (hstandalone : s.mode = .standalone →
      ∃ extra, LaidStandalone { s with manifest := m, installing := true }
        (ℓ.install part parts) extra) :
    Laid { s with manifest := m, installing := true } (ℓ.install part parts) := by
  have hold : s.pending = g :: gs := by simp [pending, hpending, hqueue]
  have hnew : pending { s with manifest := m, installing := true } = gs := by
    simp [pending, hqueue]
  have hqueued := h.queued
  rw [hold, hsegments] at hqueued
  obtain ⟨hbetween, hapart⟩ := Layout.apart_install hsegments h.apart
  cases hqueued with
  | cons holds nonempty below rest =>
    refine ⟨hapart, ?_, ?_, h.active, hm.nodup h.numbers, hm.leveled, fun _ => ?_, ?_,
      ⟨?_, h.marks.2⟩, ?_, hreplicated, hstandalone, hm.mode.trans h.mode⟩
    · refine (Perm.flatMap_right _ hm.tables).trans ?_
      rw [flatMap_append, flatMap_singleton, hrun, holds.table]
      exact (h.live.append_right _).trans (history_append_perm hbetween).symm
    · rw [hnew]
      exact rest
    · refine ⟨g, gs, hqueue, hfile ▸ hm.number, t, ?_, hfile, hrun⟩
      exact hm.tables.symm.subset (mem_append_right _ mem_cons_self)
    · rw [Layout.log_install hsegments]
      exact h.below
    · rw [hnew]
      intro g' hg'
      exact h.marks.1 g' (by rw [hold]; exact mem_cons_of_mem _ hg')
    · rw [Layout.log_install hsegments]
      exact h.visible

variable {g : Generation} {m : Manifest}

/-- The first segment starts where the installed log ends, so its file moves the frontier to
the end of the segment. -/
theorem LaidStandalone.install {extra : List Batch} {applied : Option (ℕ × ℕ)}
    (hs : LaidStandalone s ℓ extra) (hmode : s.manifest.mode = .standalone)
    (hsegments : ℓ.segments = part :: parts) (nonempty : part ≠ [])
    (hsmallest : t.smallestSequence = ((recoveredSpan (logged part)).getD (0, 0)).1)
    (hlargest : t.largestSequence = ((recoveredSpan (logged part)).getD (0, 0)).2)
    (hinstall : s.manifest.installTable t applied = .ok m) :
    Manifest.Installed s.manifest t m ∧
      LaidStandalone { s with manifest := m, installing := true } (ℓ.install part parts) extra := by
  have hsegment := hs.segment hsegments
  rw [hsegment.span nonempty] at hsmallest hlargest
  simp only [Option.getD_some] at hsmallest hlargest
  have hbounds : 0 < (logged part).length := by
    obtain ⟨b, hb⟩ := exists_mem_of_ne_nil part nonempty
    have := hsegment.index_bounds b hb
    omega
  have hstart := hs.start
  obtain ⟨hinstalled, hfrontier⟩ := Manifest.installTable_standalone hmode
    (fun u hu => by rw [hstart]; exact hs.tables u hu) (by rw [hstart, hsmallest])
    (by rw [hstart, hlargest]; omega) hinstall
  have hlog := Layout.log_install hsegments
  have hlength : (logged (ℓ.installed ++ part)).length =
      (logged ℓ.installed).length + (logged part).length := by
    rw [logged_append, length_append]
  refine ⟨hinstalled, hlog ▸ hs.wal, hs.whole, hlog ▸ hs.contiguous, hlog ▸ hs.next,
    hlog ▸ hs.room, ?_, fun u hu => ?_, fun l hl => ?_⟩
  · show m.frontierStart = (logged (ℓ.installed ++ part)).length
    omega
  · show u.largestSequence < (logged (ℓ.installed ++ part)).length
    rcases mem_append.mp (hinstalled.tables.subset hu) with hu | hu
    · have := hs.tables u hu
      omega
    · rw [mem_singleton.mp hu]
      omega
  · rw [hlog]
    have hle : (logged (ℓ.installed ++ part)).length ≤ (logged (ℓ.log ++ extra)).length := by
      rw [Layout.log, hsegments]
      simp only [flatten_cons, logged_append, length_append]
      omega
    have hl' : max (s.manifest.lastSequence.getD 0) t.largestSequence = l :=
      Option.some.inj (hinstalled.last.symm.trans hl)
    rcases hlast : s.manifest.lastSequence with - | old
    · rw [hlast, Option.getD_none] at hl'
      omega
    · have := hs.last old hlast
      rw [hlast, Option.getD_some] at hl'
      omega

/-- The file covers the indexes up to the mark of its generation. -/
theorem LaidReplicated.install {durable : ℕ} (hr : LaidReplicated s ℓ durable)
    (hmode : s.mode ≠ .standalone) (hmanifest : s.manifest.mode = s.mode)
    (hsegments : ℓ.segments = part :: parts) (holds : Holds s.mode g part)
    (below : ∀ b ∈ parts.flatten ++ ℓ.current, mark s.mode g < b.index)
    (hbound : mark s.mode g < s.bound)
    (hlargest : t.largestSequence = ((recoveredSpan (logged part)).getD (0, 0)).2)
    (hinstall : s.manifest.installTable t g.applied = .ok m) :
    Manifest.Installed s.manifest t m ∧ ∃ through,
      LaidReplicated { s with manifest := m, installing := true } (ℓ.install part parts)
        through := by
  obtain ⟨hinstalled, through, happlied, hforward, hthrough, hmvcc⟩ :=
    Manifest.installTable_replicated (hmanifest ▸ hmode) hinstall
  rw [hr.frontier, Option.getD_some] at happlied hforward
  have hmark : mark s.mode g = through := by simp [mark, hmode, happlied]
  have hlog := Layout.log_install hsegments
  refine ⟨hinstalled, through, hthrough, fun b hb => ?_, fun b hb => hmark ▸ below b hb, ?_,
    hlog ▸ hr.positive, hlog ▸ hr.plain, fun v hv hmode' => ⟨_, hmvcc (hmanifest.trans hmode'), ?_⟩⟩
  · rcases mem_append.mp hb with hb | hb
    · exact (hr.installed b hb).trans hforward.le
    · exact hmark ▸ holds.reach b hb
  · rw [hmark, show s.bound = s.replicatedApplied + 1 by simp [bound, hmode]] at hbound
    exact Nat.le_of_lt_succ hbound
  · rw [show (ℓ.install part parts).installed = ℓ.installed ++ part from rfl, logged_append] at hv
    rcases mem_append.mp hv with hv | hv
    · obtain ⟨n, hn, hle⟩ := hr.mvcc v hv hmode'
      rw [hn, Option.getD_some]
      exact hle.trans (Nat.le_max_right _ _)
    · refine le_trans ?_ (Nat.le_max_left _ _)
      rcases hspan : recoveredSpan (logged part) with - | ⟨least, largest⟩
      · rw [recoveredSpan_eq_none_iff.mp hspan] at hv
        cases hv
      · rw [hlargest, hspan]
        exact ((recoveredSpan_eq_some_iff.mp hspan).2.2 v hv).2

/-- A flush moves the first segment into a file. -/
theorem installTable_laid (h : Laid s ℓ) (hrun : s.installTable = .ok s') :
    ∃ ℓ', Laid s' ℓ' ∧ ℓ'.log = ℓ.log := by
  unfold installTable at hrun
  split at hrun
  swap
  · cases hrun
  rename_i g gs hqueue hpending
  dsimp only at hrun
  split at hrun
  · cases hrun
  rename_i t hwrite
  split at hrun
  · cases hrun
  rename_i m hinstall
  cases hrun
  obtain ⟨hfile, hsmallest, hlargest, hentries⟩ := writeTable_ok hwrite
  have hrun' : t.run = g.table := by
    cases ht : t.run
    simp_all
  have hold : s.pending = g :: gs := by simp [pending, hpending, hqueue]
  have hqueued := h.queued
  rw [hold] at hqueued
  rcases hsegments : ℓ.segments with - | ⟨part, parts⟩
  · rw [hsegments] at hqueued
    cases hqueued
  rw [hsegments] at hqueued
  obtain ⟨holds, nonempty, below⟩ : Holds s.mode g part ∧ part ≠ [] ∧
      ∀ b ∈ parts.flatten ++ ℓ.current, mark s.mode g < b.index := by
    cases hqueued with
    | cons holds nonempty below rest => exact ⟨holds, nonempty, below⟩
  rw [holds.span] at hsmallest hlargest
  refine ⟨ℓ.install part parts, ?_, Layout.log_install hsegments⟩
  by_cases hmode : s.mode = .standalone
  · obtain ⟨extra, hs⟩ := h.standalone hmode
    obtain ⟨hinstalled, hs'⟩ :=
      hs.install (h.mode.trans hmode) hsegments nonempty hsmallest hlargest hinstall
    exact h.install hsegments hqueue hpending hfile hrun' hinstalled (absurd hmode)
      fun _ => ⟨extra, hs'⟩
  · obtain ⟨durable, hr⟩ := h.replicated hmode
    obtain ⟨hinstalled, hr'⟩ := hr.install hmode h.mode hsegments holds below
      (h.marks.1 g (by rw [hold]; exact mem_cons_self)) hlargest hinstall
    exact h.install hsegments hqueue hpending hfile hrun' hinstalled (fun _ => hr')
      (absurd · hmode)

/-- The installed table leaves the queue. -/
theorem finishInstallation_laid (h : Laid s ℓ) (hrun : s.finishInstallation = .ok s') :
    Laid s' ℓ := by
  unfold finishInstallation at hrun
  split at hrun
  swap
  · cases hrun
  rename_i hinstalling
  cases hrun
  have hpending : pending { s with immutables := s.immutables.tail, installing := false } =
      s.pending := by
    simp [pending, hinstalling]
  exact { h with
    queued := hpending ▸ h.queued
    installing := nofun
    marks := ⟨hpending ▸ h.marks.1, h.marks.2⟩
    replicated := fun hmode => (h.replicated hmode).imp fun _ hr => { hr with }
    standalone := fun hmode => (h.standalone hmode).imp fun _ hs => { hs with } }

end Lsm

/-! ### Compactions -/

variable {previous : Option Version} {chunks : List (List Version)}

/-- The outputs hold the merged entries, in order. -/
theorem buildOutputs_flatten {target logical : ℕ} {chunk rest : List Version}
    (h : buildOutputs target previous chunk logical rest = .ok chunks) :
    chunks.flatten = chunk ++ rest := by
  induction rest generalizing previous chunk logical chunks with
  | nil =>
    cases h
    split_ifs with hchunk
    · rw [hchunk]
      rfl
    · simp
  | cons v rest ih =>
    rw [buildOutputs] at h
    split at h
    · cases h
    split at h
    · split at h
      · cases h
      · rename_i outputs houtputs
        cases h
        rw [flatten_cons, ih houtputs]
        rfl
    · rw [ih h, append_assoc]
      rfl

theorem foldl_max_le {l : List ℕ} {a bound : ℕ} (ha : a ≤ bound) (h : ∀ n ∈ l, n ≤ bound) :
    l.foldl max a ≤ bound := by
  induction l generalizing a with
  | nil => exact ha
  | cons n l ih =>
    exact ih (Nat.max_le.mpr ⟨ha, h n mem_cons_self⟩) fun m hm => h m (mem_cons_of_mem _ hm)

namespace Lsm

variable {s s' : Lsm} {ℓ : Layout} {job : ℕ} {chunks : List (List Version)} {outputs : List SSTable}

/-- What `writeOutputs` writes, and that it only reserves file numbers. -/
theorem writeOutputs_ok {bloom : Bool} {m m' : Manifest}
    (h : writeOutputs bloom job m chunks = .ok (m', outputs)) :
    Kept m m' ∧ outputs.map (fun t => t.run.entries) = chunks ∧
      ∀ t ∈ outputs, ∀ bound, (∀ v ∈ t.run.entries, v.seq ≤ bound) → t.largestSequence ≤ bound := by
  induction chunks generalizing m m' outputs with
  | nil =>
    cases h
    exact ⟨Kept.refl m, rfl, by simp⟩
  | cons chunk rest ih =>
    rw [writeOutputs] at h
    split at h
    · cases h
    rename_i number m₁ hallocate
    dsimp only at h
    split at h
    · cases h
    rename_i t hwrite
    split at h
    · cases h
    rename_i m₂ tables hrest
    cases h
    obtain ⟨hkept, hentries, hlargest⟩ := ih hrest
    obtain ⟨-, -, hlast, hchunk⟩ := writeTable_ok hwrite
    refine ⟨(kept_allocate hallocate).trans hkept, ?_, fun u hu bound hbound => ?_⟩
    · rw [map_cons, hentries, hchunk]
    · rcases mem_cons.mp hu with rfl | hu
      · rw [hlast]
        refine foldl_max_le (Nat.zero_le _) fun n hn => ?_
        obtain ⟨v, hv, rfl⟩ := mem_map.mp hn
        exact hbound v (hchunk ▸ hv)
      · exact hlargest u hu bound hbound

/-- Two lists of live tables with the same file numbers are the same. -/
theorem eq_of_fileNumbers {live A B : List SSTable} (hnodup : (live.map SSTable.fileNumber).Nodup)
    (hA : A ⊆ live) (hB : B ⊆ live)
    (h : A.map SSTable.fileNumber = B.map SSTable.fileNumber) : A = B := by
  induction A generalizing B with
  | nil =>
    rw [map_nil, eq_comm, map_eq_nil_iff] at h
    exact h.symm
  | cons t A ih =>
    rcases B with - | ⟨u, B⟩
    · cases h
    rw [map_cons, map_cons, List.cons.injEq] at h
    rw [cons_subset] at hA hB
    rw [inj_on_of_nodup_map hnodup hA.1 hB.1 h.1, ih hA.2 hB.2 h.2]

variable {inputs : List (ℕ × ℕ)}

/-- The inputs that a compaction reads are the files it later deletes. -/
theorem inputTables_spec {m : Manifest} (hkept : Kept s.manifest m)
    (h : inputs.all (fun input => m.contains input.1 input.2) = true) :
    s.inputTables inputs ⊆ s.manifest.tables ∧
      (s.inputTables inputs).map SSTable.fileNumber = inputs.map Prod.snd := by
  induction inputs with
  | nil => exact ⟨nil_subset _, rfl⟩
  | cons input rest ih =>
    rw [all_cons, Bool.and_eq_true] at h
    obtain ⟨hinput, hrest⟩ := h
    unfold Manifest.contains at hinput
    rw [Bool.and_eq_true, decide_eq_true_eq] at hinput
    obtain ⟨hlevel, hany⟩ := hinput
    obtain ⟨u, hu, hnumber⟩ := any_eq_true.mp hany
    obtain ⟨t, hfind⟩ : ∃ t, (s.manifest.levels input.1).find? (·.fileNumber = input.2) = some t :=
      Option.isSome_iff_exists.mp (find?_isSome.mpr ⟨u, (hkept.files input.1).subset hu, hnumber⟩)
    have hcons : s.inputTables (input :: rest) = t :: s.inputTables rest := by
      unfold inputTables
      rw [filterMap_cons]
      simp only [hfind]
    rw [hcons]
    refine ⟨cons_subset.mpr ⟨?_, (ih hrest).1⟩, ?_⟩
    · exact mem_flatMap.mpr ⟨input.1, mem_range.mpr hlevel, mem_of_find?_eq_some hfind⟩
    · rw [map_cons, map_cons, (ih hrest).2]
      simpa using find?_some hfind

/-- A compaction leaves what is in files alone. -/
theorem compact_laid (h : Laid s ℓ)
    (hclean : s.Clean (.compact job inputs)) (hrun : s.compact job inputs = .ok s') :
    Laid s' ℓ := by
  unfold compact at hrun
  dsimp only at hrun
  split at hrun
  · cases hrun
  rename_i chunks hchunks
  split at hrun
  · cases hrun
  rename_i m outputs hwrite
  split at hrun
  · cases hrun
  rename_i m' hinstall
  cases hrun
  obtain ⟨hkept, hentries, hlargest⟩ := writeOutputs_ok hwrite
  -- the outputs hold the entries of the inputs
  have houtputs : (outputs.flatMap fun t => t.run.entries).Perm
      ((s.inputTables inputs).flatMap fun t => t.run.entries) := by
    have hmerged := (@Merge.merge_perm _ Candidate.le _
      ((s.inputTables inputs).map fun t => tagged t.fileNumber t.run.entries)).map Candidate.entry
    rw [← flatMap_def,
      map_entry_flatMap_tagged (s.inputTables inputs) SSTable.fileNumber (fun t => t.run.entries)]
      at hmerged
    rw [flatMap_def, hentries, buildOutputs_flatten hchunks, nil_append]
    exact hmerged
  unfold Manifest.installCompaction at hinstall
  split_ifs at hinstall with _ hcontains
  rw [Bool.not_eq_true, Bool.not_eq_false'] at hcontains
  split at hinstall
  · cases hinstall
  rename_i m₁ happly
  cases hinstall
  obtain ⟨⟨kept, levels, hfiles⟩, hmode, hfrontier, hlast, happlied, hmvcc, -⟩ :=
    Manifest.apply_ok happly
  obtain ⟨removed, htables, hnumbers, hremoved⟩ := Manifest.apply_tables happly
  obtain ⟨hinputs, hinputNumbers⟩ := inputTables_spec hkept hcontains
  have hnodup : (m.tables.map SSTable.fileNumber).Nodup :=
    (hkept.tables.map _).nodup_iff.mpr h.numbers
  obtain rfl : removed = s.inputTables inputs :=
    eq_of_fileNumbers hnodup hremoved (fun t ht => hkept.tables.symm.subset (hinputs ht))
      (hnumbers.trans hinputNumbers.symm)
  have hsnd : (outputs.map ((1, ·) : SSTable → ℕ × SSTable)).map Prod.snd = outputs := by
    rw [map_map]
    exact map_id outputs
  rw [hsnd] at htables
  refine h.relist (hkept.marks.trans ⟨hmode, hfrontier, happlied, hmvcc, hlast⟩) ?_
    (Manifest.apply_nodup happly hnodup) hfiles.leveled (fun hinstalling g hg t ht hfile => ?_)
    fun hstandalone t ht => ?_
  · have hall := Perm.flatMap_right (fun t : SSTable => t.run.entries) htables
    rw [flatMap_append, flatMap_append] at hall
    refine ((perm_append_right_iff _).mp (hall.trans (houtputs.append_left _))).trans ?_
    exact Perm.flatMap_right _ hkept.tables
  · have hmem := htables.symm.subset (mem_append_left outputs (hkept.tables.symm.subset ht))
    refine (mem_append.mp hmem).resolve_right fun hinput => ?_
    -- the file of a queued table is not an input
    have hnumber : t.fileNumber ∈ inputs.map Prod.snd := by
      rw [← hinputNumbers]
      exact mem_map_of_mem hinput
    obtain ⟨input, hin, heq⟩ := mem_map.mp hnumber
    exact hclean hinstalling g hg input hin (heq.trans hfile)
  · obtain ⟨extra, hs⟩ := h.standalone hstandalone
    rcases mem_append.mp (htables.subset (mem_append_left _ ht)) with ht | ht
    · exact hs.tables t (hkept.tables.subset ht)
    · -- an output reaches no further than the installed log
      have hbelow : ∀ v ∈ t.run.entries, v.seq < (logged ℓ.installed).length := by
        intro v hv
        have hmem : v ∈ (s.inputTables inputs).flatMap fun t => t.run.entries :=
          houtputs.subset (mem_flatMap.mpr ⟨t, ht, hv⟩)
        obtain ⟨u, hu, hvu⟩ := mem_flatMap.mp hmem
        have hlogged : v ∈ logged ℓ.installed := mem_logged_of_mem_history
          (h.live.subset (mem_flatMap.mpr ⟨u, hinputs hu, hvu⟩))
        have hcontiguous := hs.contiguous
        rw [Layout.log, append_assoc, contiguous_append] at hcontiguous
        have := (hcontiguous.1.seq_bounds v hlogged).2
        omega
      have hpos : 0 < (logged ℓ.installed).length := by
        obtain ⟨v, hv⟩ := exists_mem_of_ne_nil _ t.nonempty
        exact (Nat.zero_le _).trans_lt (hbelow v hv)
      have := hlargest t ht ((logged ℓ.installed).length - 1) fun v hv => by
        have := hbelow v hv
        omega
      omega

end Lsm

end RivetDB.Storage
