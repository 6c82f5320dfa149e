import RivetDB.Storage.Engine

/-!
# What the engine returns and what a batch changes

`getMVCCAt` computes the selection rule `Exposes` when no internal key is stored
twice, and a batch at a fresh version adds exactly its own versions.
-/

namespace RivetDB.Storage

open Table List

variable {V W : List Version} {key : Bytes} {target : ℕ} {v w : Version}

/-! ### Distinct collections -/

theorem Distinct.perm (h : Distinct V) (hperm : V.Perm W) : Distinct W :=
  (hperm.map _).nodup_iff.mp h

theorem Distinct.left (h : Distinct (V ++ W)) : Distinct V := by
  unfold Distinct at h
  rw [map_append] at h
  exact h.of_append_left

/-! ### The candidate of one table -/

/-- The candidate found so far is the first version of what was looked at. -/
def Leads (V : List Version) (key : Bytes) (target : ℕ) : Option Version → Prop
  | none => ∀ v ∈ V, v.key = key → ¬ v.seq ≤ target
  | some v => Top V key target v

theorem candidate_leads (h : Distinct V) : Leads V key target (candidate key target V) := by
  induction V with
  | nil => simp [candidate, Leads]
  | cons v rest ih =>
    have hrest : Distinct rest := (nodup_cons.mp h).2
    have hnew : ∀ w ∈ rest, v.internal ≠ w.internal := fun w hw heq =>
      (nodup_cons.mp h).1 (heq ▸ mem_map_of_mem hw)
    have hbest := ih hrest
    unfold candidate
    rcases hc : candidate key target rest with - | w
    · rw [hc] at hbest
      by_cases hv : v.key = key ∧ v.seq ≤ target
      · simp only [hv, and_self, if_true]
        refine ⟨mem_cons_self, hv.1, hv.2, fun w hw hk hle => ?_⟩
        rcases mem_cons.mp hw with rfl | hw
        · exact .inl rfl
        · exact absurd hle (hbest w hw hk)
      · simp only [hv, if_false]
        intro w hw hk
        rcases mem_cons.mp hw with rfl | hw
        · exact fun hle => hv ⟨hk, hle⟩
        · exact hbest w hw hk
    · rw [hc] at hbest
      have hw : Top rest key target w := hbest
      by_cases hv : v.key = key ∧ v.seq ≤ target ∧ v.before w
      · simp only [hv, and_self, if_true]
        refine ⟨mem_cons_self, hv.1, hv.2.1, fun u hu hk hle => ?_⟩
        rcases mem_cons.mp hu with rfl | hu
        · exact .inl rfl
        · rcases hw.first u hu hk hle with rfl | hbefore
          · exact .inr hv.2.2
          · exact .inr (Version.before_trans hv.2.2 hbefore)
      · simp only [hv, if_false]
        refine ⟨mem_cons_of_mem _ hw.mem, hw.keyed, hw.le, fun u hu hk hle => ?_⟩
        rcases mem_cons.mp hu with rfl | hu
        · rcases Version.before_total (hk.trans hw.keyed.symm) (hnew w hw.mem) with h' | h'
          · exact absurd ⟨hk, hle, h'⟩ hv
          · exact .inr h'
        · exact hw.first u hu hk hle

theorem Table.getCandidate_leads (t : Table) :
    Leads t.entries key target (t.getCandidate key target) :=
  candidate_leads t.distinct

/-- Of two first versions the smaller one is the first of both collections. -/
theorem Top.append_of_before (hv : Top V key target v)
    (hw : Top W key target w) (h : v = w ∨ v.before w = true) : Top (V ++ W) key target v := by
  refine ⟨mem_append_left _ hv.mem, hv.keyed, hv.le, fun u hu hk hle => ?_⟩
  rcases mem_append.mp hu with hu | hu
  · exact hv.first u hu hk hle
  · rcases hw.first u hu hk hle with rfl | hbefore
    · exact h.imp Eq.symm id
    · rcases h with rfl | h
      · exact .inr hbefore
      · exact .inr (Version.before_trans h hbefore)

theorem Top.append_comm (h : Top (V ++ W) key target v) : Top (W ++ V) key target v :=
  h.congr fun _ => by rw [mem_append, mem_append, or_comm]

/-- What holds no version of the key leaves the candidate as it is. -/
theorem Leads.append_none {best : Option Version} (hV : Leads V key target best)
    (hW : Leads W key target none) : Leads (V ++ W) key target best := by
  rcases best with - | b
  · exact forall_mem_append.mpr ⟨hV, hW⟩
  · have hb : Top V key target b := hV
    exact ⟨mem_append_left _ hb.mem, hb.keyed, hb.le, forall_mem_append.mpr
      ⟨hb.first, fun u hu hk hle => absurd hle (hW u hu hk)⟩⟩

/-! ### Stepping over abort markers -/

/-- Read again below the sequence of an abort marker; `pass` is one look at a target. -/
def descend (pass : ℕ → Option Version) : ℕ → ℕ → Option Version
  | 0, _ => none
  | fuel + 1, target =>
    match pass target with
    | none => none
    | some best =>
      if best.kind = .txnAbort then
        if best.seq = 0 then none else descend pass fuel (best.seq - 1)
      else some best

/-- Every round leaves a version behind, so enough rounds reach the selected one. -/
theorem descend_spec {pass : ℕ → Option Version} (hpass : ∀ t, Leads V key t (pass t)) {fuel : ℕ}
    (hfuel : (V.filter (·.seq ≤ target)).length < fuel) :
    match descend pass fuel target with
    | some v => Exposes V key target v
    | none => ∀ v, ¬ Exposes V key target v := by
  induction fuel generalizing target with
  | zero => omega
  | succ fuel ih =>
    have hbest := hpass target
    unfold descend
    generalize pass target = best at hbest ⊢
    rcases best with - | b
    · exact fun v hv => hbest v hv.top.mem hv.top.keyed hv.le
    have htop : Top V key target b := hbest
    by_cases hkind : b.kind = .txnAbort
    · by_cases hzero : b.seq = 0
      · simp only [hkind, hzero, if_true]
        intro v hv
        have := ((htop.exposes_below hkind).mp hv).1
        omega
      · simp only [hkind, hzero, if_true, if_false]
        have hshorter : (V.filter (·.seq ≤ b.seq - 1)).length < fuel := by
          refine Nat.lt_of_lt_of_le ?_ (Nat.lt_succ_iff.mp hfuel)
          have hsub : (V.filter (·.seq ≤ b.seq - 1)).Sublist (V.filter (·.seq ≤ target)) := by
            refine monotone_filter_right _ fun u hu => ?_
            have := htop.le
            simp only [decide_eq_true_eq] at hu ⊢
            omega
          refine Nat.lt_of_le_of_ne hsub.length_le fun hlength => ?_
          have hmem : b ∈ V.filter (·.seq ≤ target) :=
            mem_filter.mpr ⟨htop.mem, by simpa using htop.le⟩
          rw [← hsub.eq_of_length hlength] at hmem
          have := (mem_filter.mp hmem).2
          simp only [decide_eq_true_eq] at this
          omega
        have hrec := ih hshorter
        split at hrec
        · exact (htop.exposes_below hkind).mpr ⟨by have := hrec.le; omega, hrec⟩
        · exact fun v hv => hrec v ((htop.exposes_below hkind).mp hv).2
    · simp only [hkind, if_false]
      exact htop.exposes hkind

namespace Engine

/-! ### The selection over all tables -/

variable {best : Option Version}

theorem consider_leads (hdistinct : Distinct (V ++ W))
    (hbest : Leads V key target best) (hw : Top W key target w) :
    ∃ best', consider best w = .ok best' ∧ Leads (V ++ W) key target best' := by
  rcases best with - | b
  · have htop : Top (W ++ V) key target w := @Leads.append_none _ _ _ _ (some w) hw hbest
    exact ⟨some w, rfl, htop.append_comm⟩
  have hb : Top V key target b := hbest
  have hne : w.internal ≠ b.internal := by
    intro heq
    have hdisjoint := disjoint_of_nodup_append
      (by have h := hdistinct; unfold Distinct at h; rwa [map_append] at h)
    exact hdisjoint (mem_map_of_mem hb.mem) (heq ▸ mem_map_of_mem hw.mem)
  have hwins : w.before b → Leads (V ++ W) key target (some w) := fun h =>
    (hw.append_of_before hb (.inr h)).append_comm
  have hloses : b.before w → Leads (V ++ W) key target (some b) := fun h =>
    hb.append_of_before hw (.inr h)
  unfold consider
  dsimp only
  split_ifs with hgt hlt hkind hrank
  · exact ⟨_, rfl, hwins (Version.before_iff.mpr (by omega))⟩
  · exact ⟨_, rfl, hloses (Version.before_iff.mpr (by omega))⟩
  · exact ⟨_, rfl, hwins (Version.before_iff.mpr (by omega))⟩
  · refine ⟨_, rfl, hloses ?_⟩
    have hne' : w.kind.rank ≠ b.kind.rank := fun h => hkind (Kind.rank_inj h)
    rw [Version.before_iff]
    omega
  · refine absurd ?_ hne
    have hseq : w.seq = b.seq := by omega
    simp only [not_not] at hkind
    simp [Version.internal, hw.keyed, hb.keyed, hseq, hkind]

/-- One pass finds the first version of everything stored. -/
theorem select_leads {tables : List Table} (hdistinct : Distinct (V ++ tables.flatMap entries))
    (hbest : Leads V key target best) :
    ∃ best', select key target best tables = .ok best' ∧
      Leads (V ++ tables.flatMap entries) key target best' := by
  induction tables generalizing V best with
  | nil => exact ⟨best, rfl, by simpa using hbest⟩
  | cons t ts ih =>
    rw [flatMap_cons, ← append_assoc] at hdistinct ⊢
    have hcandidate : Leads t.entries key target (t.getCandidate key target) :=
      t.getCandidate_leads
    unfold select
    rcases hc : t.getCandidate key target with - | value
    · rw [hc] at hcandidate
      exact ih hdistinct (hbest.append_none hcandidate)
    · rw [hc] at hcandidate
      obtain ⟨best', hok, hleads⟩ := consider_leads hdistinct.left hbest hcandidate
      dsimp only
      rw [hok]
      exact ih hdistinct hleads

/-- The loop follows `descend` over its passes. -/
theorem getLoop_eq {tables : List Table} (hdistinct : Distinct (tables.flatMap entries)) :
    ∃ pass : ℕ → Option Version, (∀ t, Leads (tables.flatMap entries) key t (pass t)) ∧
        ∀ fuel target, getLoop tables key fuel target =
          (descend pass fuel target).elim (.error .notFound) .ok := by
  have hselect : ∀ t, ∃ best, select key t none tables = .ok best ∧
      Leads (tables.flatMap entries) key t best := fun t => by
    have hstart : Leads [] key t none := by simp [Leads]
    simpa using select_leads (V := []) (by simpa using hdistinct) hstart
  choose pass hpass hleads using hselect
  refine ⟨pass, hleads, fun fuel => ?_⟩
  induction fuel with
  | zero => exact fun _ => rfl
  | succ fuel ih =>
    intro target
    rw [getLoop, descend, hpass target]
    rcases pass target with - | best
    · rfl
    · dsimp only
      split_ifs
      · rfl
      · exact ih _
      · rfl

/-- The loop computes the selection rule. -/
theorem getLoop_spec {tables : List Table} (hdistinct : Distinct (tables.flatMap entries))
    {fuel : ℕ}
    (hfuel : ((tables.flatMap entries).filter (·.seq ≤ target)).length < fuel) :
    match getLoop tables key fuel target with
    | .ok v => Exposes (tables.flatMap entries) key target v
    | .error err => err = .notFound ∧
        ∀ v, ¬ Exposes (tables.flatMap entries) key target v := by
  obtain ⟨pass, hleads, heq⟩ := @getLoop_eq key tables hdistinct
  have hspec := descend_spec hleads hfuel
  rw [heq]
  generalize descend pass fuel target = read at hspec ⊢
  rcases read with - | v
  · exact ⟨rfl, hspec⟩
  · exact hspec

/-- What every reachable engine satisfies: nothing stored lies above the visible
sequence, and nothing above the applied index was applied. -/
structure Ordered (e : Engine) : Prop where
  visible : ∀ v ∈ e.versions, v.seq ≤ e.visible.getD 0
  shown : e.visible = none → e.versions = []
  durable : e.durable ≤ e.applied
  identities : ∀ i, e.applied < i → e.identities i = none

variable {e : Engine}

/-- A read above the visible sequence selects like a read at it. -/
theorem Ordered.exposes_min (h : e.Ordered) {latest : ℕ} (hlatest : e.visible = some latest) :
    Exposes e.versions key (min target latest) v ↔ Exposes e.versions key target v := by
  have hle : ∀ u ∈ e.versions, u.seq ≤ latest := fun u hu => by
    simpa [hlatest] using h.visible u hu
  constructor
  · intro hv
    refine ⟨hv.top, by have := hv.le; omega, hv.kind, fun u hu hk hlt hle' => ?_⟩
    exact hv.newer u hu hk hlt (by have := hle u hu; omega)
  · intro hv
    refine ⟨hv.top, by have := hv.le; have := hle v hv.top.mem; omega, hv.kind,
      fun u hu hk hlt hle' => ?_⟩
    exact hv.newer u hu hk hlt (by omega)

/-- `GetMVCCAt` returns the version that is exposed at the target, and finds nothing
exactly when none is. -/
theorem getMVCCAt_spec {e : Engine} (h : e.Ordered) (hdistinct : Distinct e.versions)
    (hkey : key.length ≤ maxUserKeySize) :
    match e.getMVCCAt key target with
    | .ok v => Exposes e.versions key target v
    | .error err => err = .notFound ∧ ∀ v, ¬ Exposes e.versions key target v := by
  unfold getMVCCAt
  rw [if_neg (by omega)]
  rcases hlatest : e.visible with - | latest
  · rw [h.shown hlatest]
    exact ⟨rfl, fun _ => not_exposes_nil⟩
  · have hspec := @getLoop_spec key (min target latest) e.tables hdistinct
      (e.versions.length + 1) (Nat.lt_succ_of_le (length_filter_le _ _))
    dsimp only
    split
    · rename_i w hw
      rw [hw] at hspec
      exact (h.exposes_min hlatest).mp hspec
    · rename_i err herr
      rw [herr] at hspec
      exact ⟨hspec.1, fun u hu => hspec.2 u ((h.exposes_min hlatest).mpr hu)⟩

theorem getMVCCAt_ok_iff (h : e.Ordered) (hdistinct : Distinct e.versions)
    (hkey : key.length ≤ maxUserKeySize) :
    e.getMVCCAt key target = .ok v ↔ Exposes e.versions key target v := by
  have hspec := @getMVCCAt_spec key target e h hdistinct hkey
  rcases hread : e.getMVCCAt key target with err | w
  all_goals rw [hread] at hspec
  · exact iff_of_false (by simp) (hspec.2 v)
  · exact ⟨fun hw => Except.ok.inj hw ▸ hspec, fun hv => by rw [hspec.unique hv]⟩

end Engine

/-! ### Batches -/

theorem Table.mem_insert {t : Table} :
    w ∈ (t.insert v).entries ↔ w = v ∨ w ∈ t.entries ∧ w.internal ≠ v.internal := by
  simp [insert]

end RivetDB.Storage
