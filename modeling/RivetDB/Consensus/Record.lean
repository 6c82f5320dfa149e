import Mathlib.Data.Set.Insert
import RivetDB.Consensus.History

/-!
# The moves of a leader-based protocol

`Record` adds to a history who voted for whom and what every candidate
campaigned with.  A protocol extends its record by six moves — campaigning,
voting, winning a term, appending, acknowledging and deciding a commit — and
every move is owned by one node.

`Sane` is the invariant of a record.  Each move has its guard and one theorem
that keeps the record sane under it (`Sane.campaign`, `Sane.castVote`,
`Sane.win`, `Sane.append`, `Sane.acknowledge`, `Sane.decide`).  `Grows i` is what
all moves of node `i` have in common and what every other node may rely on.

A node refines this model when it can name, for each of its own steps, the moves
it makes; `Retain` is the promise that lets it vote.
-/

namespace RivetDB.Consensus

open List

universe u v w

variable {ν : Type u} {ε : Type v} {κ : Type w}

/-- The term of the last entry, zero for the empty log. -/
def lastTerm (term : ε → ℕ) (F : List ε) : ℕ := (F.getLast?.map term).getD 0

structure Record (ν : Type u) (ε : Type v) (κ : Type w) extends History ν ε κ where
  vote : ν → ℕ → Option ν
  /-- The log and the configuration a node campaigned with in a term. -/
  cand : ν → ℕ → Option (List ε × κ)

namespace Record

/-- Every prefix of the log is a prefix of the log of its last entry's term. -/
def Rooted (g : Record ν ε κ) (term : ε → ℕ) (F : List ε) : Prop :=
  ∀ i e, F[i]? = some e → F.take (i + 1) <+: g.log (term e)

/-- What the moves of node `i` have in common: nothing recorded is taken back,
and only what `i` owns is added to. -/
structure Grows (i : ν) (g g' : Record ν ε κ) : Prop where
  log : ∀ T, g.log T <+: g'.log T
  log_eq : ∀ {T r}, g.elect T = some r → r.leader ≠ i → g'.log T = g.log T
  elect : ∀ {T r}, g.elect T = some r → g'.elect T = some r
  elect_new : ∀ {T r}, g'.elect T = some r → g.elect T = some r ∨ r.leader = i
  ack : ∀ x T, g.ack x T ≤ g'.ack x T
  ack_eq : ∀ {x} T, x ≠ i → g'.ack x T = g.ack x T
  /-- A node that voted in a term acknowledges nothing for earlier terms. -/
  ack_frozen : ∀ {x T₀ T}, T₀ < T → g.vote x T ≠ none → g'.ack x T₀ = g.ack x T₀
  vote : ∀ {x T c}, g.vote x T = some c → g'.vote x T = some c
  vote_eq : ∀ {x} T, x ≠ i → g'.vote x T = g.vote x T
  cand : ∀ {c T p}, g.cand c T = some p → g'.cand c T = some p
  cand_eq : ∀ {c} T, c ≠ i → g'.cand c T = g.cand c T
  commits : g.commits ⊆ g'.commits

namespace Grows

variable {i : ν} {g g' g'' : Record ν ε κ}

theorem refl (g : Record ν ε κ) : Grows i g g where
  log _ := prefix_rfl
  log_eq _ _ := rfl
  elect h := h
  elect_new h := .inl h
  ack _ _ := Nat.le_refl _
  ack_eq _ _ := rfl
  ack_frozen _ _ := rfl
  vote h := h
  vote_eq _ _ := rfl
  cand h := h
  cand_eq _ _ := rfl
  commits := Set.Subset.rfl

theorem trans (h : Grows i g g') (h' : Grows i g' g'') : Grows i g g'' where
  log T := (h.log T).trans (h'.log T)
  log_eq hr hi := (h'.log_eq (h.elect hr) hi).trans (h.log_eq hr hi)
  elect hr := h'.elect (h.elect hr)
  elect_new hr := by
    rcases h'.elect_new hr with hr' | hi
    · exact h.elect_new hr'
    · exact .inr hi
  ack x T := (h.ack x T).trans (h'.ack x T)
  ack_eq T hx := (h'.ack_eq T hx).trans (h.ack_eq T hx)
  ack_frozen {x T₀ T} hT hv := by
    have hv' : g'.vote x T ≠ none := by
      obtain ⟨c, hc⟩ := Option.ne_none_iff_exists'.mp hv
      simp [h.vote hc]
    exact (h'.ack_frozen hT hv').trans (h.ack_frozen hT hv)
  vote hc := h'.vote (h.vote hc)
  vote_eq T hx := (h'.vote_eq T hx).trans (h.vote_eq T hx)
  cand hp := h'.cand (h.cand hp)
  cand_eq T hc := (h'.cand_eq T hc).trans (h.cand_eq T hc)
  commits := h.commits.trans h'.commits

variable {term : ε → ℕ} {F : List ε}

theorem rooted (h : Grows i g g') (hF : g.Rooted term F) : g'.Rooted term F :=
  fun j e he => (hF j e he).trans (h.log _)

theorem take_log (h : Grows i g g') {T m : ℕ} (hm : m ≤ (g.log T).length) :
    (g'.log T).take m = (g.log T).take m := by
  obtain ⟨tail, hlog⟩ := h.log T
  rw [← hlog, take_append_of_le_length hm]

theorem getElem?_log (h : Grows i g g') {T j : ℕ} {e : ε}
    (he : (g.log T)[j]? = some e) : (g'.log T)[j]? = some e := by
  obtain ⟨tail, hlog⟩ := h.log T
  rw [← hlog, List.getElem?_append_left (List.getElem?_eq_some_iff.mp he).1, he]

variable {T : ℕ} {bound : ℕ → Prop}

/-- What voters owe to their earlier acknowledgements survives every move. -/
theorem voteKeeps (h : Grows i g g') {x : ν}
    (hv : g.vote x T ≠ none) (hle : ∀ x T, g.ack x T ≤ (g.log T).length)
    (hk : g.VoteKeeps term x T bound F) : g'.VoteKeeps term x T bound F := by
  rintro T₀ m hT hm ⟨e, he, hterm⟩
  rw [h.ack_frozen hT hv] at hm
  have hlen := hm.trans (hle x T₀)
  rw [h.take_log hlen]
  rcases Nat.eq_zero_or_pos m with rfl | hpos
  · exact .inl (by simp)
  have he' : (g.log T₀)[m - 1]? = some e := by
    have hlt : m - 1 < (g.log T₀).length := by omega
    obtain ⟨tail, hlog⟩ := h.log T₀
    rwa [← hlog, getElem?_append_left hlt] at he
  rcases hk T₀ m hT hm ⟨e, he', hterm⟩ with hin | ⟨T₁, r₁, hb, hlt, hr₁, hnot⟩
  · exact .inl hin
  · exact .inr ⟨T₁, r₁, hb, hlt, h.elect hr₁, hnot⟩

end Grows

/-! ### The invariant of a record -/

/-- What a won election has recorded. -/
structure Elected (R : Rules ν ε κ) (g : Record ν ε κ) (T : ℕ)
    (r : Election ν ε κ) : Prop where
  init_le : r.init <+: g.log T
  quorum : R.Quorum r.config r.voters
  votes : ∀ x ∈ r.voters, g.vote x T = some r.leader
  cand : g.cand r.leader T = some (r.init, r.config)
  keeps : ∀ x ∈ r.voters, g.VoteKeeps R.term x T (· < T) r.init

/-- What a candidate has recorded. -/
structure Campaigned (R : Rules ν ε κ) (g : Record ν ε κ) (T : ℕ)
    (F : List ε) (b : κ) : Prop where
  rooted : g.Rooted R.term F
  lt : ∀ e ∈ F, R.term e < T
  origin : g.Origin R (· < T) b
  current : R.version (R.conf F) ≤ R.version b + 1

/-- What a commit decision has recorded. -/
structure Decided (R : Rules ν ε κ) (g : Record ν ε κ) (k : Commit ν κ) : Prop where
  elected : ∃ r, g.elect k.term = some r
  pos : 0 < k.index
  term : ∃ e, (g.log k.term)[k.index - 1]? = some e ∧ R.term e = k.term
  quorum : R.Quorum k.config k.acks
  acked : ∀ x ∈ k.acks, k.index ≤ g.ack x k.term
  origin : g.Origin R (· ≤ k.term) k.config
  current : R.version (R.conf (g.covered k)) ≤ R.version k.config + 1

/-- The invariant of a record. -/
structure Sane (R : Rules ν ε κ) (g : Record ν ε κ) : Prop where
  chain : ∀ T, R.Chain (g.log T)
  rooted : ∀ T, g.Rooted R.term (g.log T)
  unelected : ∀ {T}, g.elect T = none → g.log T = []
  tail : ∀ {T r}, g.elect T = some r →
    ∀ e ∈ (g.log T).drop r.init.length, R.term e = T
  ack_le : ∀ x T, g.ack x T ≤ (g.log T).length
  elected : ∀ {T r}, g.elect T = some r → Elected R g T r
  voted : ∀ {x T c}, g.vote x T = some c →
    ∃ F b, g.cand c T = some (F, b) ∧ g.VoteKeeps R.term x T (· ≤ T) F
  campaigned : ∀ {c T F b}, g.cand c T = some (F, b) → Campaigned R g T F b
  decided : ∀ {k}, k ∈ g.commits → Decided R g k

namespace Sane

variable {R : Rules ν ε κ} {g g' : Record ν ε κ} {i : ν}

theorem chain_of_rooted (S : Sane R g) {F : List ε} (hF : g.Rooted R.term F) :
    R.Chain F := by
  rcases eq_nil_or_concat' F with rfl | ⟨P, e, rfl⟩
  · exact R.chain_prefix (S.chain 0) nil_prefix
  · have h := hF P.length e (by simp)
    rw [take_of_length_le (by simp)] at h
    exact R.chain_prefix (S.chain _) h

/-- The facts the history library asks for. -/
theorem sound (S : Sane R g) : Sound R g.toHistory where
  chain := S.chain
  split {T r} hr := by
    obtain ⟨tail, hlog⟩ := (S.elected hr).init_le
    refine ⟨tail, hlog.symm, (S.campaigned (S.elected hr).cand).lt, ?_⟩
    have htail := S.tail hr
    rwa [← hlog, drop_left] at htail
  candidacy {T r} hr :=
    let E := S.elected hr
    let C := S.campaigned E.cand
    { chain := S.chain_of_rooted C.rooted
      quorum := E.quorum
      keeps := E.keeps
      origin := C.origin
      current := C.current }
  commit_elected mem := (S.decided mem).elected
  commit_term mem := (S.decided mem).term
  commit_pos mem := (S.decided mem).pos
  commit_quorum mem := (S.decided mem).quorum
  commit_acked mem := (S.decided mem).acked
  commit_origin mem := (S.decided mem).origin
  commit_current mem := (S.decided mem).current

variable {k : Commit ν κ}

theorem covered_eq (S : Sane R g) (h : Grows i g g')
    (mem : k ∈ g.commits) : g'.covered k = g.covered k :=
  h.take_log (S.sound.commit_index_le mem)

theorem origin_mono {bound : ℕ → Prop} (S : Sane R g) (h : Grows i g g') {c : κ}
    (hc : g.Origin R bound c) : g'.Origin R bound c := by
  rcases hc with rfl | ⟨k, mem, hk, hconf, hver⟩
  · exact .inl rfl
  · exact .inr ⟨k, h.commits mem, hk, by rw [S.covered_eq h mem, hconf], hver⟩

/-- The records a move does not touch stay as they are; only what it adds has to
be justified. -/
theorem grow (S : Sane R g) (h : Grows i g g') (chain : ∀ T, R.Chain (g'.log T))
    (rooted : ∀ T, g'.Rooted R.term (g'.log T))
    (unelected : ∀ {T}, g'.elect T = none → g'.log T = [])
    (tail : ∀ {T r}, g'.elect T = some r →
      ∀ e ∈ (g'.log T).drop r.init.length, R.term e = T)
    (ack_le : ∀ x T, g'.ack x T ≤ (g'.log T).length)
    (elected : ∀ {T r}, g'.elect T = some r → g.elect T = some r ∨ Elected R g' T r)
    (voted : ∀ {x T c}, g'.vote x T = some c → g.vote x T = some c ∨
      ∃ F b, g'.cand c T = some (F, b) ∧ g'.VoteKeeps R.term x T (· ≤ T) F)
    (campaigned : ∀ {c T F b}, g'.cand c T = some (F, b) →
      g.cand c T = some (F, b) ∨ Campaigned R g' T F b)
    (decided : ∀ {k}, k ∈ g'.commits → k ∈ g.commits ∨ Decided R g' k) :
    Sane R g' where
  chain := chain
  rooted := rooted
  unelected := unelected
  tail := tail
  ack_le := ack_le
  elected {T r} hr := by
    rcases elected hr with hold | hnew
    · have E := S.elected hold
      refine ⟨E.init_le.trans (h.log T), E.quorum, fun x hx => h.vote (E.votes x hx),
        h.cand E.cand, fun x hx => ?_⟩
      exact h.voteKeeps (by simp [E.votes x hx]) S.ack_le (E.keeps x hx)
    · exact hnew
  voted {x T c} hc := by
    rcases voted hc with hold | hnew
    · obtain ⟨F, b, hcand, hkeeps⟩ := S.voted hold
      exact ⟨F, b, h.cand hcand, h.voteKeeps (by simp [hold]) S.ack_le hkeeps⟩
    · exact hnew
  campaigned {c T F b} hc := by
    rcases campaigned hc with hold | hnew
    · have C := S.campaigned hold
      exact ⟨h.rooted C.rooted, C.lt, S.origin_mono h C.origin, C.current⟩
    · exact hnew
  decided {k} mem := by
    rcases decided mem with hold | hnew
    · have D := S.decided hold
      obtain ⟨r, hr⟩ := D.elected
      obtain ⟨e, he, hterm⟩ := D.term
      exact ⟨⟨r, h.elect hr⟩, D.pos, ⟨e, h.getElem?_log he, hterm⟩, D.quorum,
        fun x hx => (D.acked x hx).trans (h.ack _ _), S.origin_mono h D.origin,
        by rw [S.covered_eq h hold]; exact D.current⟩
    · exact hnew

end Sane

/-! ### The moves -/

/-- A candidate wins term `T`. -/
def win (g : Record ν ε κ) (T : ℕ) (r : Election ν ε κ) : Record ν ε κ :=
  { g with
    elect := Function.update g.elect T (some r)
    log := Function.update g.log T r.init }

/-- The leader of term `T` appends an entry. -/
def append (g : Record ν ε κ) (T : ℕ) (e : ε) : Record ν ε κ :=
  { g with log := Function.update g.log T (g.log T ++ [e]) }

/-- The leader of `k.term` decides a commit. -/
def decide (g : Record ν ε κ) (k : Commit ν κ) : Record ν ε κ :=
  { g with commits := insert k g.commits }

variable {g : Record ν ε κ} {i : ν} {T : ℕ} {r : Election ν ε κ}

theorem win_grows (hnone : g.elect T = none) (hlog : g.log T = []) : Grows r.leader g (g.win T r) :=
  { Grows.refl g with
    log := fun S => by
      by_cases h : S = T
      · subst h
        simp [win, hlog]
      · simp [win, h]
    log_eq := fun {S r'} hr _ => by
      have h : S ≠ T := by
        rintro rfl
        simp [hnone] at hr
      simp [win, h]
    elect := fun {S r'} hr => by
      have h : S ≠ T := by
        rintro rfl
        simp [hnone] at hr
      simp [win, h, hr]
    elect_new := fun {S r'} hr => by
      by_cases h : S = T
      · subst h
        simp only [win, Function.update_self, Option.some.injEq] at hr
        exact .inr (by rw [← hr])
      · simp only [win, Function.update_of_ne h] at hr
        exact .inl hr }

theorem append_grows {e : ε} (hr : g.elect T = some r) : Grows r.leader g (g.append T e) :=
  { Grows.refl g with
    log := fun S => by
      by_cases h : S = T
      · subst h
        simp [append]
      · simp [append, h]
    log_eq := fun {S r'} hr' hne => by
      have h : S ≠ T := by
        rintro rfl
        rw [hr, Option.some.injEq] at hr'
        exact hne (by rw [hr'])
      simp [append, h] }

theorem decide_grows {k : Commit ν κ} : Grows i g (g.decide k) :=
  { Grows.refl g with
    commits := Set.subset_insert _ _ }

section Moves

variable [DecidableEq ν]

/-- Overwrite one cell of a table indexed by node and term. -/
def put {β : Type*} (f : ν → ℕ → β) (i : ν) (T : ℕ) (value : β) : ν → ℕ → β :=
  fun x S => if x = i ∧ S = T then value else f x S

@[simp] theorem put_same {β : Type*} (f : ν → ℕ → β) (i : ν) (T : ℕ) (value : β) :
    put f i T value i T = value := by
  simp [put]

variable {x : ν} {S : ℕ}

theorem put_of_ne {β : Type*} (f : ν → ℕ → β) (value : β)
    (h : ¬ (x = i ∧ S = T)) : put f i T value x S = f x S := by
  simp only [put, if_neg h]

/-- Filling an empty cell keeps every full one. -/
theorem put_of_some {β : Type*} {f : ν → ℕ → Option β}
    {value : Option β} {b : β} (hnone : f i T = none) (hb : f x S = some b) :
    put f i T value x S = some b := by
  rw [put_of_ne, hb]
  rintro ⟨rfl, rfl⟩
  simp [hnone] at hb

theorem put_cases {β : Type*} {f : ν → ℕ → Option β}
    {value b : β} (h : put f i T (some value) x S = some b) :
    f x S = some b ∨ x = i ∧ S = T ∧ value = b := by
  by_cases hc : x = i ∧ S = T
  · obtain ⟨rfl, rfl⟩ := hc
    exact .inr ⟨rfl, rfl, by simpa using h⟩
  · exact .inl (by rwa [put_of_ne _ _ hc] at h)

/-- Node `i` campaigns in term `T` with log `F` under configuration `b`. -/
def campaign (g : Record ν ε κ) (i : ν) (T : ℕ) (F : List ε) (b : κ) : Record ν ε κ :=
  { g with
    vote := put g.vote i T (some i)
    cand := put g.cand i T (some (F, b)) }

/-- Node `i` votes for `c` in term `T`. -/
def castVote (g : Record ν ε κ) (i : ν) (T : ℕ) (c : ν) : Record ν ε κ :=
  { g with vote := put g.vote i T (some c) }

/-- Node `i` acknowledges the first `m` entries of the log of term `T`. -/
def acknowledge (g : Record ν ε κ) (i : ν) (T m : ℕ) : Record ν ε κ :=
  { g with ack := put g.ack i T (max (g.ack i T) m) }

@[simp] theorem acknowledge_ack (g : Record ν ε κ) (i : ν) (T m : ℕ) :
    (g.acknowledge i T m).ack = put g.ack i T (max (g.ack i T) m) := rfl

theorem campaign_grows {F : List ε} {b : κ} (hv : g.vote i T = none)
    (hc : g.cand i T = none) : Grows i g (g.campaign i T F b) :=
  { Grows.refl g with
    vote := fun h => put_of_some hv h
    vote_eq := fun _ hx => put_of_ne _ _ fun h => hx h.1
    cand := fun h => put_of_some hc h
    cand_eq := fun _ hx => put_of_ne _ _ fun h => hx h.1 }

theorem castVote_grows {c : ν} (hv : g.vote i T = none) : Grows i g (g.castVote i T c) :=
  { Grows.refl g with
    vote := fun h => put_of_some hv h
    vote_eq := fun _ hx => put_of_ne _ _ fun h => hx h.1 }

theorem acknowledge_grows {m : ℕ} (hv : ∀ T', T < T' → g.vote i T' = none) :
    Grows i g (g.acknowledge i T m) :=
  { Grows.refl g with
    ack := fun x S => by
      by_cases h : x = i ∧ S = T
      · obtain ⟨rfl, rfl⟩ := h
        simp [acknowledge]
      · exact Nat.le_of_eq (put_of_ne _ _ h).symm
    ack_eq := fun _ hx => put_of_ne _ _ fun h => hx h.1
    ack_frozen := fun {x T₀ T'} hT hvote => by
      refine put_of_ne _ _ ?_
      rintro ⟨rfl, rfl⟩
      exact hvote (hv T' hT) }

end Moves

end Record

end RivetDB.Consensus
