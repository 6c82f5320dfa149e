import RivetDB.Storage.Lsm

/-!
# What a point read of the tree returns

A point read asks every table for its first candidate and compares the answers.  It
computes the selection rule `Exposes` as soon as one internal key never stands in two
files (`Coherent`) and the levels above 0 do not overlap (`Leveled`), so that the one
table it takes of a level is the only one that can hold the key.

A table that is listed in the manifest and not yet out of the queue is seen twice, under
one file number; `Coherent` allows that.
-/

namespace RivetDB.Storage

open Candidate List
open scoped ByteOrder

variable {V W : List Version} {key : Bytes} {target : ℕ} {u v w : Version}

/-- Versions of other keys change nothing. -/
theorem exposes_append_left (h : ∀ w ∈ W, w.key ≠ key) :
    Exposes (V ++ W) key target v ↔ Exposes V key target v :=
  Exposes.congr_key fun u hu => by
    rw [mem_append]
    exact ⟨fun hmem => hmem.resolve_right fun hw => h u hw hu, .inl⟩

theorem exposes_append_right (h : ∀ w ∈ V, w.key ≠ key) :
    Exposes (V ++ W) key target v ↔ Exposes W key target v :=
  Exposes.congr_key fun u hu => by
    rw [mem_append]
    exact ⟨fun hmem => hmem.resolve_left fun hw => h u hw hu, .inr⟩

/-! ### Coherent sources -/

namespace Candidate

/-- Two places that hold one internal key are the same file, and hold the same entry. -/
def Agree (a b : Candidate) : Prop :=
  a.entry.internal = b.entry.internal → a.entry = b.entry ∧ a.file = b.file ∧ a.file ≠ 0

variable {a b : Candidate}

theorem Agree.symm (h : a.Agree b) : b.Agree a := fun heq => by
  obtain ⟨hentry, hfile, hne⟩ := h heq.symm
  exact ⟨hentry.symm, hfile.symm, hfile ▸ hne⟩

instance : Std.Symm Agree := ⟨fun _ _ => Agree.symm⟩

instance : Std.Total le where
  total a b := by
    by_cases heq : a.entry.internal = b.entry.internal
    · rcases Nat.le_total a.file b.file with hle | hle
      · exact .inl (.inr ⟨heq, hle⟩)
      · exact .inr (.inr ⟨heq.symm, hle⟩)
    · exact (Version.precedes_total heq).imp .inl .inl

instance : IsTrans Candidate le where
  trans a b c := by
    rintro (hab | ⟨hab, hfile⟩) (hbc | ⟨hbc, hfile'⟩)
    · exact .inl (Version.precedes_trans hab hbc)
    · exact .inl ((Version.precedes_congr rfl hbc).mp hab)
    · exact .inl ((Version.precedes_congr hab rfl).mpr hbc)
    · exact .inr ⟨hab.trans hbc, hfile.trans hfile'⟩

theorem key_le_of_le (h : a.le b) : a.entry.key ≤ b.entry.key := by
  rcases h with h | ⟨heq, -⟩
  · exact Version.key_le_of_precedes h
  · exact (congrArg Prod.fst heq).le

end Candidate

/-- No internal key stands in two files. -/
def Coherent (C : List Candidate) : Prop := C.Pairwise Agree

theorem Coherent.perm {C D : List Candidate} (h : Coherent C) (hperm : C.Perm D) : Coherent D :=
  (hperm.pairwise_iff Agree.symm).mp h

variable {file : ℕ}

theorem tagged_sublist {l l' : List Version} (h : l.Sublist l') :
    (tagged file l).Sublist (tagged file l') :=
  h.map _

@[simp] theorem map_entry_tagged (file : ℕ) (l : List Version) : (tagged file l).map entry = l := by
  simp [tagged, Function.comp_def]

variable {l : List Version}

theorem mem_tagged {c : Candidate} : c ∈ tagged file l ↔ c.entry ∈ l ∧ c.file = file := by
  unfold tagged
  rw [mem_map]
  constructor
  · rintro ⟨v, hv, rfl⟩
    exact ⟨hv, rfl⟩
  · rintro ⟨hv, rfl⟩
    exact ⟨c.entry, hv, rfl⟩

/-! ### The candidates of a point read -/

namespace SSTable

/-- A table whose bounds exclude a key has no candidate for it. -/
theorem candidate_eq_none {t : SSTable} (h : key < t.smallestUser ∨ t.largestUser < key) :
    t.candidate key target = none := by
  rw [candidate_eq]
  have hleads := t.run.getCandidate_leads key target
  rcases hc : t.run.getCandidate key target with - | v
  · rfl
  · rw [hc] at hleads
    have htop : Top t.run.entries key target v := hleads
    rcases h with hlt | hlt
    · exact absurd (htop.keyed ▸ smallestUser_le htop.mem) (not_le.mpr hlt)
    · exact absurd (htop.keyed ▸ le_largestUser htop.mem) (not_le.mpr hlt)

end SSTable

/-- The tables of a level above 0 are sorted and do not overlap. -/
def Leveled (tables : List SSTable) : Prop :=
  tables.Pairwise fun s t => s.largestUser < t.smallestUser

variable {tables : List SSTable}

/-- The table that `tablesForPoint` takes of one level. -/
theorem level_candidates (hlevel : Leveled tables) {β : Type*} {f : SSTable → Option β}
    (hf : ∀ t, key < t.smallestUser ∨ t.largestUser < key → f t = none) :
    (Manifest.levelForPoint tables key).filterMap f = tables.filterMap f := by
  have hmono : ∀ i j : ℕ, i ≤ j → (tables[i]?.all fun t => key < t.smallestUser) = true →
      (tables[j]?.all fun t => key < t.smallestUser) = true := by
    intro i j hij hi
    rcases Nat.lt_or_ge j tables.length with hj | hj
    · rw [getElem?_eq_getElem hj, Option.all_some, decide_eq_true_eq]
      rw [getElem?_eq_getElem (by omega), Option.all_some, decide_eq_true_eq] at hi
      rcases Nat.eq_or_lt_of_le hij with rfl | hlt
      · exact hi
      · have hsep := pairwise_iff_getElem.mp hlevel i j (by omega) hj hlt
        exact hi.trans ((tables[i].smallestUser_le_largestUser).trans_lt hsep)
    · rw [getElem?_eq_none hj]
      rfl
  obtain ⟨hbelow, habove, hle⟩ := @Search.search_spec _ tables.length hmono
  unfold Manifest.levelForPoint
  dsimp only
  generalize Search.search (fun index => tables[index]?.all fun t => key < t.smallestUser)
    tables.length = position at hbelow habove hle ⊢
  have hbeyond : ∀ t ∈ tables.drop position, f t = none := by
    intro t ht
    obtain ⟨i, hi, rfl⟩ := getElem_of_mem ht
    rw [getElem_drop]
    rw [length_drop] at hi
    have h := habove (position + i) (by omega) (by omega)
    rw [getElem?_eq_getElem (by omega), Option.all_some, decide_eq_true_eq] at h
    exact hf _ (.inl h)
  split_ifs with hzero
  · subst hzero
    exact (filterMap_eq_nil_iff.mpr hbeyond).symm
  · have hlt : position - 1 < tables.length := by omega
    have hstart : tables[position - 1].smallestUser ≤ key := by
      have h := hbelow (position - 1) (by omega)
      rw [getElem?_eq_getElem hlt, Option.all_some, decide_eq_false_iff_not] at h
      exact not_lt.mp h
    -- everything in front of the table found ends below its start
    have hfront : ∀ t ∈ tables.take (position - 1), f t = none := by
      intro t ht
      obtain ⟨i, hi, rfl⟩ := getElem_of_mem ht
      rw [getElem_take]
      rw [length_take] at hi
      have hsep := pairwise_iff_getElem.mp hlevel i (position - 1) (by omega) hlt (by omega)
      exact hf _ (.inr (hsep.trans_le hstart))
    have hsplit : tables =
        tables.take (position - 1) ++ tables[position - 1] :: tables.drop position := by
      have hdrop := drop_eq_getElem_cons hlt
      rw [show position - 1 + 1 = position by omega] at hdrop
      rw [← hdrop, take_append_drop]
    have hall : tables.filterMap f = [tables[position - 1]].filterMap f := by
      have hmapped := congrArg (List.filterMap f) hsplit
      rw [filterMap_append, filterMap_eq_nil_iff.mpr hfront, nil_append,
        ← singleton_append, filterMap_append, filterMap_eq_nil_iff.mpr hbeyond,
        append_nil] at hmapped
      exact hmapped
    rw [hall, getElem?_eq_getElem hlt, Option.toList_some]
    by_cases hend : key ≤ tables[position - 1].largestUser
    · simp [hend]
    · simp [hend, hf _ (.inr (not_le.mp hend))]

/-- Tables that cannot hold the key may as well be asked. -/
theorem tablesForPoint_candidates {m : Manifest}
    (hlevels : ∀ level, 0 < level → level < maxLevels → Leveled (m.levels level)) {β : Type*}
    {f : SSTable → Option β}
    (hf : ∀ t, key < t.smallestUser ∨ t.largestUser < key → f t = none) :
    (m.tablesForPoint key).filterMap f = m.tables.filterMap f := by
  have hrange : List.range maxLevels = 0 :: (List.range (maxLevels - 1)).map (· + 1) :=
    range_succ_eq_map
  unfold Manifest.tablesForPoint Manifest.tables liveTables
  rw [hrange, flatMap_cons, filterMap_append, filterMap_append]
  congr 1
  · rw [filterMap_filter]
    refine filterMap_congr fun t _ => ?_
    split_ifs with hbounds
    · rfl
    · refine (hf t ?_).symm
      simp only [Bool.and_eq_true, decide_eq_true_eq, not_and_or, not_le] at hbounds
      exact hbounds
  · rw [filterMap_flatMap, flatMap_map, filterMap_flatMap]
    refine flatMap_congr fun offset hoffset => ?_
    have hlt := mem_range.mp hoffset
    exact level_candidates (hlevels (offset + 1) (Nat.succ_pos _) (by unfold maxLevels at *; omega))
      hf

namespace Lsm

variable {s : Lsm}

/-- The sources of a read: files and their sorted entries. -/
def sources (s : Lsm) : List (ℕ × Run) :=
  (s.memtables.map fun g => (g.fileNumber, g.table)) ++
    s.manifest.tables.map fun t => (t.fileNumber, t.run)

theorem stored_eq : s.stored = s.sources.flatMap fun src => tagged src.1 src.2.entries := by
  unfold stored sources
  rw [flatMap_append, flatMap_map, flatMap_map]

/-- What every open engine satisfies about its levels. -/
def LevelsOrdered (s : Lsm) : Prop :=
  ∀ level, 0 < level → level < maxLevels → Leveled (s.manifest.levels level)

/-- A point read considers the candidates of all sources. -/
theorem pointCandidates_eq (h : s.LevelsOrdered) :
    s.pointCandidates key target =
      s.sources.filterMap fun src => (src.2.getCandidate key target).map (⟨·, src.1⟩) := by
  unfold pointCandidates sources
  rw [filterMap_append, filterMap_map, filterMap_map,
    tablesForPoint_candidates h fun t ht => by rw [SSTable.candidate_eq_none ht]; rfl]
  congr 1
  refine filterMap_congr fun t _ => ?_
  rw [SSTable.candidate_eq]
  rfl

/-! ### Point reads -/

/-- The best candidate so far is the first version of what was looked at. -/
def Best (C : List Candidate) (key : Bytes) (target : ℕ) : Option Candidate → Prop
  | none => ∀ c ∈ C, c.entry.key = key → ¬ c.entry.seq ≤ target
  | some b => b ∈ C ∧ Top (C.map entry) key target b.entry

variable {C : List Candidate} {best : Option Candidate}

theorem Best.leads (h : Best C key target best) :
    Leads (C.map entry) key target (best.map entry) := by
  rcases best with - | b
  · intro v hv
    obtain ⟨c, hc, rfl⟩ := mem_map.mp hv
    exact h c hc
  · exact h.2

/-- Nothing of the new source is visible: the best candidate stays. -/
theorem Best.append_none {C D : List Candidate} {best : Option Candidate}
    (h : Best C key target best)
    (hD : ∀ d ∈ D, d.entry.key = key → ¬ d.entry.seq ≤ target) : Best (C ++ D) key target best := by
  rcases best with - | b
  · exact forall_mem_append.mpr ⟨h, hD⟩
  · obtain ⟨hmem, htop⟩ := h
    refine ⟨mem_append_left _ hmem, ?_⟩
    rw [map_append]
    exact @Leads.append_none _ _ _ _ (some b.entry) htop (forall_mem_map.mpr hD)

/-- One comparison of `getMVCCAt`. -/
theorem consider_best {C D : List Candidate} (hcoherent : Coherent (C ++ D))
    {best : Option Candidate} (hbest : Best C key target best) {value : Candidate}
    (hmem : value ∈ D) (htop : Top (D.map entry) key target value.entry) :
    ∃ best', consider target best value = .ok best' ∧ Best (C ++ D) key target best' := by
  have hle : ¬ value.entry.seq > target := not_lt.mpr htop.le
  rcases best with - | b
  · refine ⟨some value, by simp [consider, hle], mem_append_right _ hmem, ?_⟩
    rw [map_append]
    exact Top.append_comm
      (@Leads.append_none _ _ _ _ (some value.entry) htop (forall_mem_map.mpr hbest))
  obtain ⟨hb, hbtop⟩ := hbest
  have hagree : b.Agree value := (pairwise_append.mp hcoherent).2.2 b hb value hmem
  have hwins : value.entry.before b.entry = true → Best (C ++ D) key target (some value) :=
    fun h => ⟨mem_append_right _ hmem, by
      rw [map_append]
      exact (Top.append_of_before htop hbtop (.inr h)).append_comm⟩
  have hstays : b.entry = value.entry ∨ b.entry.before value.entry = true →
      Best (C ++ D) key target (some b) := fun h =>
    ⟨mem_append_left _ hb, by
      rw [map_append]
      exact Top.append_of_before hbtop htop h⟩
  unfold consider
  dsimp only
  split_ifs with hgt hlt hkind hrank hvalue hfile
  · exact ⟨_, rfl, hwins (Version.before_iff.mpr (by omega))⟩
  · exact ⟨_, rfl, hstays (.inr (Version.before_iff.mpr (by omega)))⟩
  · exact ⟨_, rfl, hwins (Version.before_iff.mpr (by omega))⟩
  · refine ⟨_, rfl, hstays (.inr ?_)⟩
    have hne : value.entry.kind.rank ≠ b.entry.kind.rank := fun h => hkind (Kind.rank_inj h)
    rw [Version.before_iff]
    omega
  -- one internal key in two places: the places agree, so neither error is reached
  all_goals
    have hinternal : b.entry.internal = value.entry.internal := by
      have hseq : value.entry.seq = b.entry.seq := by omega
      simp only [not_not] at hkind
      simp [Version.internal, hbtop.keyed, htop.keyed, hseq, hkind]
    obtain ⟨hentry, hsame, hne⟩ := hagree hinternal
  · exact absurd (congrArg Version.value hentry.symm) hvalue
  · rcases hfile with hzero | hdiffer
    · exact absurd (hsame.trans hzero) hne
    · exact absurd hsame.symm hdiffer
  · exact ⟨_, rfl, hstays (.inl hentry)⟩

/-- One pass of a point read over the sources. -/
theorem foldlM_consider {sources : List (ℕ × Run)}
    (hcoherent : Coherent (C ++ sources.flatMap fun src => tagged src.1 src.2.entries))
    (hbest : Best C key target best) :
    ∃ best', (sources.filterMap fun src =>
        (src.2.getCandidate key target).map (⟨·, src.1⟩)).foldlM (consider target) best =
          .ok best' ∧
      Best (C ++ sources.flatMap fun src => tagged src.1 src.2.entries) key target best' := by
  induction sources generalizing C best with
  | nil => exact ⟨best, rfl, by simpa using hbest⟩
  | cons src rest ih =>
    rw [flatMap_cons, ← append_assoc] at hcoherent ⊢
    have hleads := src.2.getCandidate_leads key target
    rcases hc : src.2.getCandidate key target with - | v
    · rw [filterMap_cons_none (by rw [hc]; rfl)]
      rw [hc] at hleads
      refine ih hcoherent (hbest.append_none fun d hd hk => ?_)
      exact hleads d.entry (mem_tagged.mp hd).1 hk
    · rw [filterMap_cons_some (by rw [hc]; rfl), foldlM_cons]
      rw [hc] at hleads
      have htop : Top src.2.entries key target v := hleads
      obtain ⟨best', hok, hbest'⟩ := @consider_best key target C (tagged src.1 src.2.entries)
        (pairwise_append.mp hcoherent).1 best hbest ⟨v, src.1⟩
        (mem_tagged.mpr ⟨htop.mem, rfl⟩) (by rw [map_entry_tagged]; exact htop)
      rw [hok]
      exact ih hcoherent hbest'

/-- Everything stored, without the files. -/
def versions (s : Lsm) : List Version := s.stored.map entry

/-- The loop of a point read computes the selection rule. -/
theorem getLoop_spec (hlevels : s.LevelsOrdered) (hcoherent : Coherent s.stored) :
    ∀ target, match s.getLoop key (s.stored.length + 1) target with
      | .ok v => Exposes s.versions key target v
      | .error err => err = .storage .notFound ∧ ∀ v, ¬ Exposes s.versions key target v := by
  have hpass : ∀ t, ∃ best, (s.pointCandidates key t).foldlM (consider t) none = .ok best ∧
      Best s.stored key t best := fun t => by
    rw [pointCandidates_eq hlevels, stored_eq]
    rw [stored_eq] at hcoherent
    have hstart : Best [] key t none := by simp [Best]
    simpa using foldlM_consider (C := []) (by simpa using hcoherent) hstart
  choose pass hok hbest using hpass
  have hloop : ∀ fuel target, s.getLoop key fuel target =
      (descend (fun t => (pass t).map entry) fuel target).elim
        (.error (.storage .notFound)) .ok := by
    intro fuel
    induction fuel with
    | zero => exact fun _ => rfl
    | succ fuel ih =>
      intro target
      rw [getLoop, descend, hok target]
      rcases pass target with - | best
      · rfl
      · dsimp only [Option.map_some]
        split_ifs
        · rfl
        · exact ih _
        · rfl
  intro target
  have hspec := @descend_spec s.versions key target _ (fun t => (hbest t).leads)
    (s.stored.length + 1) (Nat.lt_succ_of_le (by
      have := length_filter_le (fun v : Version => v.seq ≤ target) s.versions
      simpa [versions] using this))
  rw [hloop]
  generalize descend (fun t => (pass t).map entry) (s.stored.length + 1) target = read at hspec ⊢
  rcases read with - | v
  · exact ⟨rfl, hspec⟩
  · exact hspec

end Lsm

end RivetDB.Storage
