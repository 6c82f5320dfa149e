import RivetDB.Storage.LsmReads

/-!
# What a scan of the tree returns

A scan merges all sources and picks while it walks: the entries of one user key come
newest first, and at one sequence by kind, so the first entry at or below the target is
the selected one, unless it is an abort marker.  `Picked` is what holds in the middle of
a user key.

`Selects` puts point reads and scans together: both return what the rule selects, so
they agree.
-/

namespace RivetDB.Storage

open Candidate List
open scoped ByteOrder

variable {V W : List Version} {key : Bytes} {target : ℕ} {u v w : Version}

namespace Lsm

variable {s : Lsm}

/-! ### One user key -/

/-- The state of a scan after the entries `P` of one user key, in their order: `selected`
is the first entry at its sequence, what is newer is hidden, and an abort marker is only
kept while nothing older has come. -/
def Picked (P : List Candidate) (key : Bytes) (target : ℕ) : Option Candidate → Prop
  | none => ∀ c ∈ P, ¬ c.entry.seq ≤ target
  | some w => w ∈ P ∧ w.entry.seq ≤ target ∧
      Top (P.map entry) key w.entry.seq w.entry ∧
      (∀ c ∈ P, w.entry.seq < c.entry.seq → c.entry.seq ≤ target →
        Hidden (P.map entry) key c.entry.seq) ∧
      (w.entry.kind = .txnAbort → ∀ c ∈ P, c.entry.seq ≤ target → w.entry.seq ≤ c.entry.seq)

variable {P : List Candidate} {c : Candidate} {q : ℕ}

/-- An entry that comes later in the order does not displace the first version. -/
theorem Top.snoc (h : Top (P.map entry) key q v) (hkey : c.entry.key = key)
    (hle : ∀ p ∈ P, p.le c) (hagree : ∀ p ∈ P, p.Agree c) :
    Top ((P ++ [c]).map entry) key q v := by
  rw [map_append]
  refine ⟨mem_append_left _ h.mem, h.keyed, h.le, fun u hu hk hule => ?_⟩
  rcases mem_append.mp hu with hu | hu
  · exact h.first u hu hk hule
  · obtain rfl : u = c.entry := by simpa using hu
    obtain ⟨p, hp, rfl⟩ := mem_map.mp h.mem
    rcases hle p hp with (hlt | ⟨-, hbefore⟩) | ⟨heq, -⟩
    · exact absurd (h.keyed.trans hkey.symm) hlt.ne
    · exact .inr hbefore
    · exact .inl (hagree p hp heq).1.symm

theorem Hidden.snoc (h : Hidden (P.map entry) key q) (hkey : c.entry.key = key)
    (hle : ∀ p ∈ P, p.le c) (hagree : ∀ p ∈ P, p.Agree c) :
    Hidden ((P ++ [c]).map entry) key q := by
  obtain ⟨v, htop, hseq, hkind⟩ := h
  exact ⟨v, Top.snoc htop hkey hle hagree, hseq, hkind⟩

/-- Later in the order of one user key means not newer, and at one sequence not of a
smaller kind. -/
theorem seq_le_of_le {a b : Candidate} (hkey : a.entry.key = b.entry.key) (h : a.le b) :
    b.entry.seq ≤ a.entry.seq ∧
      (b.entry.seq = a.entry.seq → a.entry.kind.rank ≤ b.entry.kind.rank) := by
  rcases h with (hlt | ⟨-, hbefore⟩) | ⟨heq, -⟩
  · exact absurd hkey hlt.ne
  · rw [Version.before_iff] at hbefore
    omega
  · simp only [Version.internal, Prod.mk.injEq] at heq
    rw [heq.2.1, heq.2.2]
    exact ⟨Nat.le_refl _, fun _ => Nat.le_refl _⟩

variable {p : Candidate → Prop}

theorem forall_mem_snoc : (∀ x ∈ P ++ [c], p x) ↔ (∀ x ∈ P, p x) ∧ p c := by
  rw [forall_mem_append, forall_mem_singleton]

/-- One step of a scan within a user key. -/
theorem scanEntry_picked {P : List Candidate} {selected : Option Candidate} {c : Candidate}
    (h : Picked P key target selected) (hP : ∀ p ∈ P, p.entry.key = key)
    (hkey : c.entry.key = key) (hle : ∀ p ∈ P, p.le c) (hagree : ∀ p ∈ P, p.Agree c) :
    ∃ selected', scanEntry target selected c = .ok selected' ∧
      Picked (P ++ [c]) key target selected' := by
  have hseq : ∀ p ∈ P, c.entry.seq ≤ p.entry.seq := fun p hp =>
    (seq_le_of_le ((hP p hp).trans hkey.symm) (hle p hp)).1
  have hrank : ∀ p ∈ P, c.entry.seq = p.entry.seq → p.entry.kind.rank ≤ c.entry.kind.rank :=
    fun p hp => (seq_le_of_le ((hP p hp).trans hkey.symm) (hle p hp)).2
  -- `c` becomes the selected entry when nothing older than its sequence has come
  have htakes : c.entry.seq ≤ target → (∀ p ∈ P, p.entry.seq ≤ target → c.entry.seq < p.entry.seq) →
      (∀ p ∈ P, c.entry.seq < p.entry.seq → p.entry.seq ≤ target →
        Hidden (P.map entry) key p.entry.seq) →
      Picked (P ++ [c]) key target (some c) := by
    intro hc hnewer hhidden
    refine ⟨by simp, hc, ?_, ?_, ?_⟩
    · rw [map_append]
      refine ⟨by simp, hkey, Nat.le_refl _, fun u hu hk hule => ?_⟩
      rcases mem_append.mp hu with hu | hu
      · obtain ⟨p, hp, rfl⟩ := mem_map.mp hu
        have := hnewer p hp (hule.trans hc)
        omega
      · exact .inl (by simpa using hu)
    · exact forall_mem_snoc.mpr ⟨fun p hp hlt hple =>
        Hidden.snoc (hhidden p hp hlt hple) hkey hle hagree, fun hlt => absurd hlt (lt_irrefl _)⟩
    · exact fun _ => forall_mem_snoc.mpr
        ⟨fun p hp hple => (hnewer p hp hple).le, fun _ => Nat.le_refl _⟩
  unfold scanEntry
  rcases selected with - | w
  · split_ifs with hgt
    · exact ⟨none, rfl, forall_mem_snoc.mpr ⟨h, not_le.mpr hgt⟩⟩
    · exact ⟨some c, rfl, htakes (not_lt.mp hgt) (fun p hp hple => absurd hple (h p hp))
        (fun p hp _ hple => absurd hple (h p hp))⟩
  obtain ⟨hw, hwle, htop, hhidden, habort⟩ := h
  have hcw := hseq w hw
  rw [if_neg (by omega)]
  -- the selected entry stays
  have hstays : (w.entry.kind = .txnAbort → w.entry.seq ≤ c.entry.seq) →
      Picked (P ++ [c]) key target (some w) := by
    intro hold
    refine ⟨mem_append_left _ hw, hwle, Top.snoc htop hkey hle hagree, ?_, ?_⟩
    · exact forall_mem_snoc.mpr ⟨fun p hp hlt hple =>
        Hidden.snoc (hhidden p hp hlt hple) hkey hle hagree, fun hlt => absurd hlt (not_lt.mpr hcw)⟩
    · exact fun hkind => forall_mem_snoc.mpr ⟨habort hkind, fun _ => hold hkind⟩
  dsimp only
  split_ifs with heq hkind hlower hdiffer hmarker
  · exact absurd (hrank w hw heq) (by omega)
  · exact ⟨some w, rfl, hstays fun _ => heq.ge⟩
  · have hinternal : w.entry.internal = c.entry.internal := by
      simp only [not_not] at hkind
      simp [Version.internal, hP w hw, hkey, heq, hkind]
    obtain ⟨hentry, hfile, hne⟩ := hagree w hw hinternal
    rw [hentry] at hdiffer
    rcases hdiffer with hvalue | hzero | hother
    · exact absurd rfl hvalue
    · exact absurd (hfile.trans hzero) hne
    · exact absurd hfile.symm hother
  · exact ⟨some w, rfl, hstays fun _ => heq.ge⟩
  · refine ⟨some c, rfl, htakes (by omega) (fun p hp hple => ?_) (fun p hp hlt hple => ?_)⟩
    · have := habort hmarker p hp hple
      omega
    · rcases Nat.eq_or_lt_of_le (habort hmarker p hp hple) with hsame | hnewer
      · exact ⟨w.entry, hsame ▸ htop, hsame, hmarker⟩
      · exact hhidden p hp hnewer hple
  · exact ⟨some w, rfl, hstays fun hkind' => absurd hkind' hmarker⟩

theorem emit_pairwise (selected : Option Candidate) :
    (emit selected).Pairwise fun v w => v.key < w.key := by
  unfold emit
  rcases selected with - | w
  · exact List.Pairwise.nil
  · dsimp only
    split_ifs
    · exact List.Pairwise.nil
    · exact pairwise_singleton _ _

variable {selected : Option Candidate}

/-- What a scan emits for a user key is what the rule selects. -/
theorem mem_emit (h : Picked P key target selected) :
    v ∈ emit selected ↔ Exposes (P.map entry) key target v := by
  rcases selected with - | w
  · refine iff_of_false not_mem_nil fun hv => ?_
    obtain ⟨c, hc, hcv⟩ := mem_map.mp hv.top.mem
    exact h c hc (hcv ▸ hv.le)
  obtain ⟨hw, hwle, htop, hhidden, habort⟩ := h
  unfold emit
  dsimp only
  split_ifs with hkind
  · refine iff_of_false not_mem_nil fun hv => ?_
    obtain ⟨c, hc, hcv⟩ := mem_map.mp hv.top.mem
    subst hcv
    have hhid : Hidden (P.map entry) key c.entry.seq := by
      rcases Nat.eq_or_lt_of_le (habort hkind c hc hv.le) with hsame | hnewer
      · exact ⟨w.entry, hsame ▸ htop, hsame, hkind⟩
      · exact hhidden c hc hnewer hv.le
    obtain ⟨a, hatop, -, hakind⟩ := hhid
    rw [hatop.unique hv.top] at hakind
    exact hv.kind hakind
  · have hexposes : Exposes (P.map entry) key target w.entry := by
      refine ⟨htop, hwle, hkind, fun u hu hk hlt hle => ?_⟩
      obtain ⟨c, hc, rfl⟩ := mem_map.mp hu
      exact hhidden c hc hlt hle
    rw [mem_singleton]
    exact ⟨fun heq => heq ▸ hexposes, fun hv => hv.unique hexposes⟩

/-- The loop of a scan, from the entries `P` of the current user key on. -/
theorem scanLoop_spec {P rest : List Candidate} {selected : Option Candidate} {user : Option Bytes}
    (huser : user = P.head?.map fun p => p.entry.key)
    (hP : ∀ p ∈ P, user = some p.entry.key)
    (hpicked : Picked P (user.getD []) target selected)
    (hsorted : (P ++ rest).Pairwise le) (hcoherent : Coherent (P ++ rest)) :
    ∃ values, scanLoop target user selected rest = .ok values ∧
      values.Pairwise (fun v w => v.key < w.key) ∧
      ∀ v, v ∈ values ↔ Exposes ((P ++ rest).map entry) v.key target v := by
  induction rest generalizing P selected user with
  | nil =>
    refine ⟨emit selected, rfl, emit_pairwise selected, fun v => ?_⟩
    rw [mem_emit hpicked, append_nil]
    constructor
    · intro hv
      exact hv.top.keyed ▸ hv
    · intro hv
      obtain ⟨p, hp, hpv⟩ := mem_map.mp hv.top.mem
      rw [hP p hp, hpv]
      exact hv
  | cons c rest ih =>
    have hsplit := pairwise_append.mp hsorted
    have hagree := pairwise_append.mp hcoherent
    have hle : ∀ p ∈ P, p.le c := fun p hp => hsplit.2.2 p hp c mem_cons_self
    unfold scanLoop
    by_cases hsame : user = some c.entry.key
    · -- the same user key goes on
      have hPc : ∀ p ∈ P, p.entry.key = c.entry.key := fun p hp =>
        Option.some.inj ((hP p hp).symm.trans hsame)
      obtain ⟨selected', hok, hpicked'⟩ := @scanEntry_picked c.entry.key target P selected c
        (by simpa [hsame] using hpicked) hPc rfl hle
        (fun p hp => hagree.2.2 p hp c mem_cons_self)
      have hhead : some c.entry.key = (P ++ [c]).head?.map fun p => p.entry.key := by
        rcases P with - | ⟨p, P⟩
        · rfl
        · simp [hPc p mem_cons_self]
      obtain ⟨values, hvalues, hsorted', hmem⟩ := @ih (P ++ [c]) selected' (some c.entry.key)
        hhead (fun p hp => by
          rcases mem_append.mp hp with hp | hp
          · rw [hPc p hp]
          · rw [mem_singleton.mp hp])
        hpicked' (by simpa using hsorted) (by simpa using hcoherent)
      refine ⟨values, ?_, hsorted', by simpa using hmem⟩
      simp [hsame, hok, hvalues]
    · -- a new user key begins: emit what was selected for the old one
      obtain ⟨selected', hok, hpicked'⟩ := @scanEntry_picked c.entry.key target [] none c
        (by simp [Picked]) (by simp) rfl (by simp) (by simp)
      obtain ⟨values, hvalues, hsorted', hmem⟩ := @ih [c] selected' (some c.entry.key)
        rfl (by simp) hpicked' hsplit.2.1 hagree.2.1
      have hless : ∀ p ∈ P, ∀ d ∈ c :: rest, p.entry.key < d.entry.key := by
        intro p hp d hd
        have hpc : p.entry.key < c.entry.key :=
          lt_of_le_of_ne (key_le_of_le (hle p hp)) fun heq =>
            hsame (heq ▸ hP p hp)
        rcases mem_cons.mp hd with rfl | hd
        · exact hpc
        · exact hpc.trans_le (key_le_of_le ((pairwise_cons.mp hsplit.2.1).1 d hd))
      have hkeys : ∀ v ∈ emit selected, ∃ p ∈ P, p.entry = v := fun v hv =>
        mem_map.mp ((mem_emit hpicked).mp hv).top.mem
      refine ⟨emit selected ++ values, by simp [hsame, hok, hvalues], ?_, fun v => ?_⟩
      · refine pairwise_append.mpr ⟨emit_pairwise selected, hsorted', fun v hv w hw => ?_⟩
        obtain ⟨p, hp, rfl⟩ := hkeys v hv
        obtain ⟨d, hd, hdw⟩ := mem_map.mp ((hmem w).mp hw).top.mem
        exact hdw ▸ hless p hp d (by simpa using hd)
      · -- the versions of one user key lie on one side
        rw [mem_append, mem_emit hpicked, hmem, singleton_append, map_append]
        by_cases hold : user = some v.key
        · have hright : ∀ w ∈ (c :: rest).map entry, w.key ≠ v.key := by
            intro w hw
            obtain ⟨d, hd, rfl⟩ := mem_map.mp hw
            rw [huser] at hold
            obtain ⟨p, hp, hpv⟩ := Option.map_eq_some_iff.mp hold
            exact hpv ▸ (hless p (mem_of_head? hp) d hd).ne'
          rw [exposes_append_left hright, hold, Option.getD_some, or_iff_left]
          exact fun hv => hright v hv.top.mem rfl
        · have hleft : ∀ w ∈ P.map entry, w.key ≠ v.key := by
            intro w hw heq
            obtain ⟨p, hp, rfl⟩ := mem_map.mp hw
            exact hold (heq ▸ hP p hp)
          rw [exposes_append_right hleft, or_iff_right]
          exact fun hv => hleft v hv.top.mem rfl

/-- The inputs of a scan are a part of what is stored. -/
theorem scanInputs_sublist (start stop : Option Bytes) :
    (s.scanInputs start stop).flatten.Sublist s.stored := by
  unfold scanInputs stored
  rw [flatten_append, ← flatMap_def, ← flatMap_def]
  refine List.Sublist.append ?_ ?_
  · exact Sublist.flatMap_right _ fun g _ => tagged_sublist (Run.range_sublist start stop)
  · exact (Sublist.flatMap_right _ fun t _ =>
      tagged_sublist (Run.range_sublist start stop)).trans (List.Sublist.flatMap filter_sublist _)

theorem mem_scanInputs {start stop : Option Bytes} :
    c ∈ (s.scanInputs start stop).flatten ↔ c ∈ s.stored ∧ Run.Within start stop c.entry.key := by
  refine ⟨fun hc => ⟨(scanInputs_sublist start stop).subset hc, ?_⟩, fun ⟨hc, hwithin⟩ => ?_⟩
  · obtain ⟨l, hl, hcl⟩ := mem_flatten.mp hc
    rcases mem_append.mp hl with hl | hl
    · obtain ⟨g, -, rfl⟩ := mem_map.mp hl
      exact (Run.mem_range.mp (mem_tagged.mp hcl).1).2
    · obtain ⟨t, -, rfl⟩ := mem_map.mp hl
      exact (Run.mem_range.mp (mem_tagged.mp hcl).1).2
  · rw [mem_flatten]
    rcases mem_append.mp hc with hc | hc
    · obtain ⟨g, hg, hcg⟩ := mem_flatMap.mp hc
      obtain ⟨hentry, hfile⟩ := mem_tagged.mp hcg
      exact ⟨_, mem_append_left _ (mem_map_of_mem hg),
        mem_tagged.mpr ⟨Run.mem_range.mpr ⟨hentry, hwithin⟩, hfile⟩⟩
    · obtain ⟨t, ht, hct⟩ := mem_flatMap.mp hc
      obtain ⟨hentry, hfile⟩ := mem_tagged.mp hct
      -- a table with an entry between the bounds overlaps them
      have hoverlap : (start.all (· ≤ t.largestUser) && stop.all (t.smallestUser < ·)) = true := by
        rw [Bool.and_eq_true]
        constructor
        · cases start with
          | none => rfl
          | some a =>
            simpa using (hwithin.1 a rfl).trans (SSTable.le_largestUser hentry)
        · cases stop with
          | none => rfl
          | some b =>
            simpa using (SSTable.smallestUser_le hentry).trans_lt (hwithin.2 b rfl)
      exact ⟨_, mem_append_right _ (mem_map_of_mem (mem_filter.mpr ⟨ht, hoverlap⟩)),
        mem_tagged.mpr ⟨Run.mem_range.mpr ⟨hentry, hwithin⟩, hfile⟩⟩

theorem scanInputs_sorted (start stop : Option Bytes) :
    ∀ l ∈ s.scanInputs start stop, l.Pairwise le := by
  have hrun : ∀ (file : ℕ) (r : Run), (tagged file (r.range start stop)).Pairwise le := by
    intro file r
    unfold tagged
    rw [pairwise_map]
    exact (r.sorted.sublist (Run.range_sublist start stop)).imp .inl
  intro l hl
  rcases mem_append.mp hl with hl | hl
  · obtain ⟨g, -, rfl⟩ := mem_map.mp hl
    exact hrun _ _
  · obtain ⟨t, -, rfl⟩ := mem_map.mp hl
    exact hrun _ _

/-- A scan lists what the rule selects between the bounds. -/
theorem scan_spec (hcoherent : Coherent s.stored) (start stop : Option Bytes) (target : ℕ) :
    ∃ values, scanLoop target none none (Merge.merge le (s.scanInputs start stop)) =
        .ok values ∧
      values.Pairwise (fun v w => v.key < w.key) ∧
      ∀ v, v ∈ values ↔ Run.Within start stop v.key ∧ Exposes s.versions v.key target v := by
  have hperm : (Merge.merge le (s.scanInputs start stop)).Perm
      (s.scanInputs start stop).flatten := Merge.merge_perm _
  obtain ⟨values, hok, hsorted, hmem⟩ := @scanLoop_spec target []
    (Merge.merge le (s.scanInputs start stop)) none none rfl (by simp) (by simp [Picked])
    (Merge.merge_pairwise (scanInputs_sorted start stop))
    (Coherent.perm (hcoherent.sublist (scanInputs_sublist start stop)) hperm.symm)
  refine ⟨values, hok, hsorted, fun v => ?_⟩
  rw [hmem, nil_append]
  have hentries : ∀ u, u ∈ (Merge.merge le (s.scanInputs start stop)).map entry ↔
      u ∈ s.versions ∧ Run.Within start stop u.key := by
    intro u
    unfold versions
    rw [mem_map, mem_map]
    constructor
    · rintro ⟨c, hc, rfl⟩
      obtain ⟨hstored, hwithin⟩ := mem_scanInputs.mp (hperm.subset hc)
      exact ⟨⟨c, hstored, rfl⟩, hwithin⟩
    · rintro ⟨⟨c, hstored, rfl⟩, hwithin⟩
      exact ⟨c, hperm.symm.subset (mem_scanInputs.mpr ⟨hstored, hwithin⟩), rfl⟩
  constructor
  · intro hv
    have hwithin := ((hentries v).mp hv.top.mem).2
    refine ⟨hwithin, (Exposes.congr_key fun u hu => ?_).mp hv⟩
    rw [hentries]
    exact ⟨And.left, fun h => ⟨h, hu ▸ hwithin⟩⟩
  · rintro ⟨hwithin, hv⟩
    refine (Exposes.congr_key fun u hu => ?_).mpr hv
    rw [hentries]
    exact ⟨And.left, fun h => ⟨h, hu ▸ hwithin⟩⟩

/-! ### Reads select -/

/-- The largest sequence a read looks at: the requested one, or the latest visible one when
that is smaller. -/
def limit (s : Lsm) (requested : Option ℕ) : ℕ :=
  match s.visible with
  | none => 0
  | some latest => min (requested.getD latest) latest

/-- The bounds of a scan are keys, in order. -/
structure ValidBounds (start stop : Option Bytes) : Prop where
  low : ∀ a ∈ start, a.length ≤ maxUserKeySize
  high : ∀ b ∈ stop, b.length ≤ maxUserKeySize
  ordered : ∀ a ∈ start, ∀ b ∈ stop, a ≤ b

/-- Reads of `s` return what the rule selects from `V`, and the two kinds of reads agree. -/
structure Selects (s : Lsm) (V : List Version) : Prop where
  getMVCCAt : ∀ key requested, key.length ≤ maxUserKeySize →
    match s.getMVCCAt key requested with
    | .ok v => Exposes V key (s.limit requested) v
    | .error err => err = .storage .notFound ∧ ∀ v, ¬ Exposes V key (s.limit requested) v
  scanMVCCAt : ∀ start stop requested, ValidBounds start stop →
    ∃ values, s.scanMVCCAt start stop requested = .ok values ∧
      values.Pairwise (fun v w => v.key < w.key) ∧
      ∀ v, v ∈ values ↔ Run.Within start stop v.key ∧ Exposes V v.key (s.limit requested) v

/-- Coherent sources and ordered levels are enough for every read. -/
theorem selects_of_coherent (hlevels : s.LevelsOrdered) (hcoherent : Coherent s.stored)
    (hshown : s.visible = none → s.versions = []) : s.Selects s.versions where
  getMVCCAt key requested hkey := by
    unfold Lsm.getMVCCAt limit
    rw [if_neg (not_lt.mpr hkey)]
    rcases hvisible : s.visible with - | latest
    · rw [hshown hvisible]
      exact ⟨rfl, fun _ => not_exposes_nil⟩
    · exact getLoop_spec hlevels hcoherent _
  scanMVCCAt start stop requested hbounds := by
    unfold Lsm.scanMVCCAt limit
    rw [if_neg, if_neg]
    · split_ifs with hempty
      · -- equal bounds leave no key
        obtain ⟨hsome, heq⟩ := hempty
        obtain ⟨a, ha⟩ := Option.isSome_iff_exists.mp hsome
        refine ⟨[], rfl, List.Pairwise.nil, fun v => iff_of_false not_mem_nil ?_⟩
        rintro ⟨hwithin, -⟩
        exact absurd (hwithin.1 a (by simp [ha])) (not_le.mpr (hwithin.2 a (by simp [← heq, ha])))
      · rcases hvisible : s.visible with - | latest
        · rw [hshown hvisible]
          exact ⟨[], rfl, List.Pairwise.nil, fun v =>
            iff_of_false not_mem_nil fun hv => not_exposes_nil hv.2⟩
        · exact scan_spec hcoherent start stop _
    · cases start with
      | none => simp
      | some a =>
        cases stop with
        | none => simp
        | some b => simpa using hbounds.ordered a rfl b rfl
    · rintro (hlong | hlong)
      · cases start with
        | none => simp at hlong
        | some a => exact absurd (hbounds.low a rfl) (not_le.mpr (by simpa using hlong))
      · cases stop with
        | none => simp at hlong
        | some b => exact absurd (hbounds.high b rfl) (not_le.mpr (by simpa using hlong))

namespace Selects

variable {V : List Version} {V' : List Version}

theorem congr (h : s.Selects V) (hV : ∀ u, u ∈ V ↔ u ∈ V') :
    s.Selects V' := by
  have hexposes : ∀ {key target v}, Exposes V key target v ↔ Exposes V' key target v :=
    Exposes.congr_key fun u _ => hV u
  refine ⟨fun key requested hkey => ?_, fun start stop requested hbounds => ?_⟩
  · have hread := h.getMVCCAt key requested hkey
    split
    · rename_i v hv
      rw [hv] at hread
      exact hexposes.mp hread
    · rename_i err herr
      rw [herr] at hread
      exact ⟨hread.1, fun v hv => hread.2 v (hexposes.mpr hv)⟩
  · obtain ⟨values, hok, hsorted, hmem⟩ := h.scanMVCCAt start stop requested hbounds
    exact ⟨values, hok, hsorted, fun v => (hmem v).trans (and_congr_right fun _ => hexposes)⟩

variable {requested : Option ℕ}

theorem getMVCCAt_ok_iff (h : s.Selects V) (hkey : key.length ≤ maxUserKeySize) :
    s.getMVCCAt key requested = .ok v ↔ Exposes V key (s.limit requested) v := by
  have hspec := h.getMVCCAt key requested hkey
  rcases hread : s.getMVCCAt key requested with err | w
  all_goals rw [hread] at hspec
  · exact iff_of_false (by simp) (hspec.2 v)
  · exact ⟨fun hw => Except.ok.inj hw ▸ hspec, fun hv => by rw [hspec.unique hv]⟩

/-- A point read finds what a scan over its key lists. -/
theorem get_iff_scan {values : List Version} (h : s.Selects V) {start stop : Option Bytes}
    (hbounds : ValidBounds start stop) (hkey : key.length ≤ maxUserKeySize)
    (hwithin : Run.Within start stop key)
    (hscan : s.scanMVCCAt start stop requested = .ok values) :
    s.getMVCCAt key requested = .ok v ↔ v ∈ values ∧ v.key = key := by
  obtain ⟨values', hok, -, hmem⟩ := h.scanMVCCAt start stop requested hbounds
  rw [hscan] at hok
  cases hok
  rw [h.getMVCCAt_ok_iff hkey, hmem]
  constructor
  · intro hv
    have hkeyed := hv.top.keyed
    exact ⟨⟨hkeyed ▸ hwithin, hkeyed ▸ hv⟩, hkeyed⟩
  · rintro ⟨⟨-, hv⟩, rfl⟩
    exact hv

end Selects

end Lsm

end RivetDB.Storage
