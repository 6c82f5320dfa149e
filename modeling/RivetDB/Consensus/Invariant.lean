import RivetDB.Consensus.Record

/-!
# Every move keeps a record sane

One theorem per move, each with the guard the protocol has to establish, and the
two facts a node uses to establish them: logs match (`Rooted.take_eq_of_term_eq`),
and a node that keeps `Retain` may vote for every candidate whose log is at
least as up to date as its own (`voteKeeps_of_upToDate`).
-/

namespace RivetDB.Consensus.Record

open List

universe u v w

variable {ν : Type u} {ε : Type v} {κ : Type w}
variable {R : Rules ν ε κ} {g g' : Record ν ε κ} {i : ν} {T : ℕ} {F F' : List ε}

/-! ### Logs -/

/-- **Log matching.**  Two logs with entries of the same term at one position
agree up to and including it. -/
theorem Rooted.take_eq_of_term_eq {term : ε → ℕ} (hF : g.Rooted term F)
    (hF' : g.Rooted term F') {j : ℕ} {e e' : ε} (he : F[j]? = some e)
    (he' : F'[j]? = some e') (hterm : term e = term e') : F.take (j + 1) = F'.take (j + 1) := by
  have h := hF j e he
  have h' := hF' j e' he'
  rw [hterm] at h
  have hlen := (List.getElem?_eq_some_iff.mp he).1
  have hlen' := (List.getElem?_eq_some_iff.mp he').1
  refine IsPrefix.eq_of_length (prefix_of_prefix_length_le h h' ?_) ?_ <;>
    simp only [length_take] <;> omega

namespace Sane

/-- A rooted log is a prefix of the log of the term of its last entry. -/
theorem prefix_log_lastTerm (hF : g.Rooted R.term F) (hne : F ≠ []) :
    F <+: g.log (lastTerm R.term F) := by
  obtain ⟨P, e, rfl⟩ := (eq_nil_or_concat' F).resolve_left hne
  have h := hF P.length e (by simp)
  rw [take_of_length_le (by simp)] at h
  simpa [lastTerm] using h

variable {e : ε}

/-- Terms do not decrease along a term's log. -/
theorem term_le_of_mem_log (S : Sane R g) (he : e ∈ g.log T) : R.term e ≤ T := by
  rcases hr : g.elect T with - | r
  · simp [S.unelected hr] at he
  · obtain ⟨tail, hlog, hinit, htail⟩ := S.sound.split hr
    rw [hlog, mem_append] at he
    rcases he with he | he
    · exact Nat.le_of_lt (hinit e he)
    · exact Nat.le_of_eq (htail e he)

/-- Terms do not decrease along a rooted log. -/
theorem term_le_lastTerm (S : Sane R g) (hF : g.Rooted R.term F) (he : e ∈ F) :
    R.term e ≤ lastTerm R.term F :=
  S.term_le_of_mem_log ((prefix_log_lastTerm hF (ne_nil_of_mem he)).subset he)

variable {r : Election ν ε κ}

/-- A log that reaches into a term contains what that term's leader started
with. -/
theorem init_prefix_of_term (S : Sane R g)
    (hr : g.elect T = some r) (hF : F <+: g.log T) (he : e ∈ F)
    (hterm : R.term e = T) : r.init <+: F := by
  obtain ⟨tail, hlog, hinit, -⟩ := S.sound.split hr
  have hpre : r.init <+: g.log T := ⟨tail, hlog.symm⟩
  rcases prefix_or_prefix_of_prefix hpre hF with h | h
  · exact h
  · have := hinit e (h.subset he)
    omega

theorem rooted_of_le (hF : g.Rooted R.term F) (h : F' <+: F) :
    g.Rooted R.term F' := by
  intro j e he
  obtain ⟨tail, rfl⟩ := h
  have hlt := (List.getElem?_eq_some_iff.mp he).1
  have := hF j e (by rw [getElem?_append_left hlt, he])
  rwa [take_append_of_le_length (by omega)] at this

theorem rooted_take_log (S : Sane R g) (m : ℕ) : g.Rooted R.term ((g.log T).take m) :=
  rooted_of_le (S.rooted T) ⟨_, take_append_drop _ _⟩

/-! ### What a node promises -/

end Sane

/-- Node `i`, in term `t` with log `F`, still has everything it acknowledged,
except what a leader up to its term was elected without. -/
def Retain (g : Record ν ε κ) (i : ν) (t : ℕ) (F : List ε) : Prop :=
  ∀ T₀ m, m ≤ g.ack i T₀ → (g.log T₀).take m <+: F ∨
    ∃ T₁ r₁, T₀ < T₁ ∧ T₁ ≤ t ∧ g.elect T₁ = some r₁ ∧
      ¬ (g.log T₀).take m <+: r₁.init

namespace Retain

theorem mono_term {t t' : ℕ} (h : g.Retain i t F) (le : t ≤ t') : g.Retain i t' F := by
  intro T₀ m hm
  rcases h T₀ m hm with hin | ⟨T₁, r₁, hlt, hle, hr₁, hnot⟩
  · exact .inl hin
  · exact .inr ⟨T₁, r₁, hlt, hle.trans le, hr₁, hnot⟩

variable {t : ℕ}

theorem mono_log (h : g.Retain i t F) (le : F <+: F') : g.Retain i t F' :=
  fun T₀ m hm => (h T₀ m hm).imp_left fun hin => hin.trans le

/-- The promise survives every move that leaves the node's acknowledgements. -/
theorem grow {j : ν} (h : g.Retain i t F) (S : Sane R g) (G : Grows j g g')
    (hack : ∀ T₀, g'.ack i T₀ = g.ack i T₀) : g'.Retain i t F := by
  intro T₀ m hm
  rw [hack] at hm
  rw [G.take_log (hm.trans (S.ack_le i T₀))]
  rcases h T₀ m hm with hin | ⟨T₁, r₁, hlt, hle, hr₁, hnot⟩
  · exact .inl hin
  · exact .inr ⟨T₁, r₁, hlt, hle, G.elect hr₁, hnot⟩

variable {m : ℕ}

theorem acknowledge [DecidableEq ν] (h : g.Retain i t F)
    (hin : (g.log T).take m <+: F) : (g.acknowledge i T m).Retain i t F := by
  intro T₀ m' hm'
  by_cases hT : T₀ = T
  · subst hT
    rcases Nat.lt_or_ge (g.ack i T₀) m' with hlt | hle
    swap
    · exact h T₀ m' hle
    · have hm : m' ≤ m := by
        have hmax : m' ≤ max (g.ack i T₀) m := by simpa using hm'
        omega
      exact .inl ((take_prefix_take_left hm).trans hin)
  · exact h T₀ m' (by rwa [acknowledge_ack, put_of_ne _ _ fun hc => hT hc.2] at hm')

variable {r : Election ν ε κ}

/-- Replacing the log by a prefix of the current leader's log keeps the promise,
provided the old log did not contain that prefix already. -/
theorem replace (S : Sane R g) (h : g.Retain i T F)
    (hr : g.elect T = some r) (hnot : ¬ (g.log T).take m <+: F)
    (hlate : ∀ T₀, T < T₀ → g.ack i T₀ = 0) :
    g.Retain i T ((g.log T).take m) := by
  intro T₀ m' hm'
  rcases h T₀ m' hm' with hin | hright
  · by_cases hlog : (g.log T₀).take m' <+: g.log T
    · rcases prefix_or_prefix_of_prefix hlog ⟨_, take_append_drop m (g.log T)⟩ with h₁ | h₁
      · exact .inl h₁
      · exact absurd (h₁.trans hin) hnot
    · have hne : T₀ ≠ T := by
        rintro rfl
        exact hlog ⟨_, take_append_drop _ _⟩
      rcases Nat.lt_or_ge T T₀ with hgt | hle
      · have : m' = 0 := by
          have := hlate T₀ hgt
          omega
        exact .inl (by simp [this])
      · refine .inr ⟨T, r, by omega, Nat.le_refl _, hr, fun hc => hlog ?_⟩
        exact hc.trans (S.elected hr).init_le
  · exact .inr hright

/-- A candidate may vote for itself in the next term. -/
theorem voteKeeps_self (h : g.Retain i t F) (ht : t < T) : g.VoteKeeps R.term i T (· < T) F := by
  intro T₀ m _ hm _
  rcases h T₀ m hm with hin | ⟨T₁, r₁, hlt, hle, hr₁, hnot⟩
  · exact .inl hin
  · exact .inr ⟨T₁, r₁, Nat.lt_of_le_of_lt hle ht, hlt, hr₁, hnot⟩

/-- **Voting is safe.**  A node that keeps its promise may vote for a candidate
whose log is at least as up to date as its own. -/
theorem voteKeeps_of_upToDate (S : Sane R g) (h : g.Retain i T F)
    (hF : g.Rooted R.term F) (hF' : g.Rooted R.term F')
    (hlt : ∀ e ∈ F', R.term e < T)
    (hup : lastTerm R.term F < lastTerm R.term F' ∨
      lastTerm R.term F = lastTerm R.term F' ∧ F.length ≤ F'.length) :
    g.VoteKeeps R.term i T (· ≤ T) F' := by
  rintro T₀ m hT₀ hm ⟨e, he, hterm⟩
  rcases h T₀ m hm with hin | ⟨T₁, r₁, h₁, hle, hr₁, hnot⟩
  swap
  · exact .inr ⟨T₁, r₁, hle, h₁, hr₁, hnot⟩
  rcases Nat.eq_zero_or_pos m with rfl | hpos
  · exact .inl (by simp)
  -- the acknowledged entry is in the voter's log, so its last term is no older
  have hmem : e ∈ F := by
    refine hin.subset (mem_of_getElem? (i := m - 1) ?_)
    rw [getElem?_take_of_lt (by omega), he]
  have hlast : T₀ ≤ lastTerm R.term F := hterm ▸ S.term_le_lastTerm hF hmem
  rcases hup with hnewer | ⟨hsame, hlen⟩
  · have hne' : F' ≠ [] := by
      rintro rfl
      simp [lastTerm] at hnewer
    obtain ⟨P, e', rfl⟩ := (eq_nil_or_concat' F').resolve_left hne'
    have hterm' : lastTerm R.term (P ++ [e']) = R.term e' := by simp [lastTerm]
    have hpre := Sane.prefix_log_lastTerm hF' hne'
    rw [hterm'] at hpre hnewer
    rcases hr' : g.elect (R.term e') with - | r'
    · rw [S.unelected hr', prefix_nil] at hpre
      exact absurd hpre hne'
    · have hinit := S.init_prefix_of_term hr' hpre (e := e') (by simp) rfl
      by_cases hc : (g.log T₀).take m <+: r'.init
      · exact .inl (hc.trans hinit)
      · exact .inr ⟨R.term e', r', Nat.le_of_lt (hlt e' (by simp)), by omega, hr', hc⟩
  · have hne : F ≠ [] := ne_nil_of_mem hmem
    have hne' : F' ≠ [] := by
      rintro rfl
      exact hne (length_eq_zero_iff.mp (Nat.le_zero.mp hlen))
    have hpre := Sane.prefix_log_lastTerm hF hne
    rw [hsame] at hpre
    exact .inl (hin.trans (prefix_of_prefix_length_le hpre
      (Sane.prefix_log_lastTerm hF' hne') hlen))

end Retain

/-! ### One theorem per move -/

namespace Sane

variable {b : κ}

theorem campaign [DecidableEq ν] (S : Sane R g) (hv : g.vote i T = none)
    (hc : g.cand i T = none) (C : Campaigned R g T F b)
    (hk : g.VoteKeeps R.term i T (· < T) F) : Sane R (g.campaign i T F b) := by
  refine S.grow (campaign_grows (F := F) (b := b) hv hc) S.chain S.rooted S.unelected
    S.tail S.ack_le .inl (fun {x T' c} hvote => ?_) (fun {c T' F' b'} hcand => ?_) .inl
  · rcases put_cases hvote with hold | ⟨rfl, rfl, rfl⟩
    · exact .inl hold
    · refine .inr ⟨F, b, put_same _ _ _ _, fun T₀ m hT hm he => ?_⟩
      rcases hk T₀ m hT hm he with hin | ⟨T₁, r₁, hlt, hrest⟩
      · exact .inl hin
      · exact .inr ⟨T₁, r₁, Nat.le_of_lt hlt, hrest⟩
  · rcases put_cases hcand with hold | ⟨rfl, rfl, hpair⟩
    · exact .inl hold
    · obtain ⟨rfl, rfl⟩ := Prod.mk.inj hpair
      exact .inr ⟨C.rooted, C.lt, C.origin, C.current⟩

theorem castVote [DecidableEq ν] {c : ν} (S : Sane R g)
    (hv : g.vote i T = none) (hc : g.cand c T = some (F, b))
    (hk : g.VoteKeeps R.term i T (· ≤ T) F) : Sane R (g.castVote i T c) := by
  refine S.grow (castVote_grows (c := c) hv) S.chain S.rooted S.unelected
    S.tail S.ack_le .inl (fun {x T' c'} hvote => ?_) .inl .inl
  rcases put_cases hvote with hold | ⟨rfl, rfl, rfl⟩
  · exact .inl hold
  · exact .inr ⟨F, b, hc, hk⟩

theorem acknowledge [DecidableEq ν] {m : ℕ} (S : Sane R g)
    (hv : ∀ T', T < T' → g.vote i T' = none) (hm : m ≤ (g.log T).length) :
    Sane R (g.acknowledge i T m) := by
  refine S.grow (acknowledge_grows hv) S.chain S.rooted S.unelected S.tail
    (fun x T' => ?_) .inl .inl .inl .inl
  by_cases h : x = i ∧ T' = T
  · obtain ⟨rfl, rfl⟩ := h
    rw [acknowledge_ack, put_same]
    exact Nat.max_le.mpr ⟨S.ack_le x T', hm⟩
  · rw [acknowledge_ack, put_of_ne _ _ h]
    exact S.ack_le x T'

theorem decide {k : Commit ν κ} (S : Sane R g) (D : Decided R g k) : Sane R (g.decide k) := by
  obtain ⟨r, -⟩ := D.elected
  have G : Grows r.leader g (g.decide k) := decide_grows
  refine S.grow G S.chain S.rooted S.unelected S.tail S.ack_le .inl .inl .inl (fun {k'} mem => ?_)
  rcases Set.mem_insert_iff.mp mem with rfl | hold
  · exact .inr ⟨D.elected, D.pos, D.term, D.quorum, D.acked, S.origin_mono G D.origin, D.current⟩
  · exact .inl hold

variable {r : Election ν ε κ}

section

variable (S : Sane R g) (hcand : g.cand r.leader T = some (r.init, r.config))
  (hvotes : ∀ x ∈ r.voters, g.vote x T = some r.leader) (hquorum : R.Quorum r.config r.voters)
  (hself : ∀ r', g.elect T = some r' → r'.leader ≠ r.leader)

include S hcand hvotes hquorum hself

/-- **Election safety.**  A candidate with a quorum of votes finds its term not
yet won, unless it won it itself. -/
theorem unwon : g.elect T = none := by
  rcases hr' : g.elect T with - | r'
  · rfl
  exfalso
  have C := S.campaigned hcand
  have cand : Candidacy R g.toHistory T (· ≤ T) r.init r.config r.voters :=
    { chain := S.chain_of_rooted C.rooted
      quorum := hquorum
      keeps := fun x hx => by
        obtain ⟨F, b, hF, hkeeps⟩ := S.voted (hvotes x hx)
        rw [hcand, Option.some.injEq, Prod.mk.injEq] at hF
        rwa [hF.1]
      origin := C.origin
      current := C.current }
  obtain ⟨x, hx', hx⟩ := S.sound.shared_voter hr' cand
  have h' := (S.elected hr').votes x hx'
  rw [hvotes x hx, Option.some.injEq] at h'
  exact hself r' hr' h'.symm

theorem win : Sane R (g.win T r) := by
  have hnone := S.unwon hcand hvotes hquorum hself
  have hlog := S.unelected hnone
  have C := S.campaigned hcand
  have G : Grows r.leader g (g.win T r) := win_grows hnone hlog
  have log_self : (g.win T r).log T = r.init := by simp [Record.win]
  have log_ne : ∀ {T'}, T' ≠ T → (g.win T r).log T' = g.log T' := fun h => by
    simp [Record.win, h]
  have elect_ne : ∀ {T'}, T' ≠ T → (g.win T r).elect T' = g.elect T' := fun h => by
    simp [Record.win, h]
  have elect_self : (g.win T r).elect T = some r := by simp [Record.win]
  refine S.grow G (fun T' => ?_) (fun T' => ?_) (fun {T'} hn => ?_) (fun {T' r'} hr' => ?_)
    (fun x T' => (S.ack_le x T').trans (G.log T').length_le) (fun {T' r'} hr' => ?_)
    .inl .inl .inl
  · by_cases h : T' = T
    · rw [h, log_self]
      exact S.chain_of_rooted C.rooted
    · rw [log_ne h]
      exact S.chain T'
  · by_cases h : T' = T
    · rw [h, log_self]
      exact G.rooted C.rooted
    · rw [log_ne h]
      exact G.rooted (S.rooted T')
  · by_cases h : T' = T
    · rw [h, elect_self] at hn
      cases hn
    · rw [log_ne h]
      exact S.unelected (by rwa [elect_ne h] at hn)
  · by_cases h : T' = T
    · subst h
      rw [elect_self, Option.some.injEq] at hr'
      simp [← hr', log_self]
    · rw [log_ne h]
      exact S.tail (by rwa [elect_ne h] at hr')
  · by_cases h : T' = T
    · subst h
      rw [elect_self, Option.some.injEq] at hr'
      subst hr'
      refine .inr ⟨by rw [log_self], hquorum, hvotes, hcand, fun x hx => ?_⟩
      obtain ⟨F, b, hF, hkeeps⟩ := S.voted (hvotes x hx)
      rw [hcand, Option.some.injEq, Prod.mk.injEq] at hF
      refine G.voteKeeps (by simp [hvotes x hx]) S.ack_le fun T₀ m hT hm he => ?_
      -- nobody led this term when the votes were cast
      rcases hkeeps T₀ m hT hm he with hin | ⟨T₁, r₁, hle, hlt, hr₁, hnot⟩
      · exact .inl (by rwa [← hF.1] at hin)
      · have hne : T₁ ≠ T' := by
          rintro rfl
          rw [hnone] at hr₁
          cases hr₁
        exact .inr ⟨T₁, r₁, lt_of_le_of_ne hle hne, hlt, hr₁, hnot⟩
    · exact .inl (by rwa [elect_ne h] at hr')

end

theorem append {e : ε} (S : Sane R g) (hr : g.elect T = some r)
    (hterm : R.term e = T) (hchain : R.Chain (g.log T ++ [e])) :
    Sane R (g.append T e) := by
  have G : Grows r.leader g (g.append T e) := append_grows hr
  have log_self : (g.append T e).log T = g.log T ++ [e] := by simp [Record.append]
  have log_ne : ∀ {T'}, T' ≠ T → (g.append T e).log T' = g.log T' := fun h => by
    simp [Record.append, h]
  refine S.grow G (fun T' => ?_) (fun T' => ?_) (fun {T'} hn => ?_) (fun {T' r'} hr' => ?_)
    (fun x T' => (S.ack_le x T').trans (G.log T').length_le) .inl .inl .inl .inl
  · by_cases h : T' = T
    · rwa [h, log_self]
    · rw [log_ne h]
      exact S.chain T'
  · by_cases h : T' = T
    · subst h
      rw [log_self]
      intro j e' he'
      rcases Nat.lt_or_ge j (g.log T').length with hlt | hge
      · rw [getElem?_append_left hlt] at he'
        rw [take_append_of_le_length (by omega)]
        exact (S.rooted T' j e' he').trans (G.log _)
      · rw [getElem?_append_right hge] at he'
        have hj : j = (g.log T').length := by
          have := (List.getElem?_eq_some_iff.mp he').1
          simp at this
          omega
        subst hj
        simp only [Nat.sub_self, getElem?_cons_zero, Option.some.injEq] at he'
        rw [← he', hterm, log_self, take_of_length_le (by simp)]
    · rw [log_ne h]
      exact G.rooted (S.rooted T')
  · have h : T' ≠ T := by
      rintro rfl
      exact absurd (hn.symm.trans hr) (by simp)
    rw [log_ne h]
    exact S.unelected hn
  · by_cases h : T' = T
    · subst h
      have hlen := (S.elected hr').init_le.length_le
      rw [log_self, drop_append_of_le_length hlen]
      intro e' he'
      rcases mem_append.mp he' with hold | hnew
      · exact S.tail hr' e' hold
      · rw [mem_singleton.mp hnew, hterm]
    · rw [log_ne h]
      exact S.tail hr'

end Sane

end RivetDB.Consensus.Record
