import RivetDB.Raft.Commitment

/-!
# Replication

What a leader sends is true of the record, what it admits is appended to the log
of its term, and what a follower accepts is a prefix of that log.  The messages
of a leader carry its whole remaining log, so the commit index they announce
never runs ahead of the entries they bring.
-/

namespace RivetDB.Raft

open List Prog Consensus

variable {σ : Type} {Γ : Setting σ} {g : Ghost} {i : NodeID} {F : List Entry} {n : Node σ}

/-! ### What a leader sends -/

section

variable (h : Running Γ g i F n) (hl : Leads g i n.term F)

include h hl

theorem replicationMessage_spec (peer : NodeID) :
    (Node.replicationMessage peer).wp
      (fun m n' => n' = n ∧ MsgOK Γ g m) (fun _ n' => Dead Γ g i n') n := by
  obtain ⟨⟨r, hr, hri⟩, hlog⟩ := hl
  simp only [Node.replicationMessage, wp_bind, wp_get, wp_ite, wp_pure]
  refine ⟨fun _ => ⟨trivial, ⟨r, hr, hri.trans h.id.symm⟩, ?_⟩, fun hgt => ?_⟩
  · dsimp only
    rw [hlog]
    exact h.holds.snapshot
  split
  · rename_i previousTerm entries hterm hentries
    obtain ⟨-, hle, rfl⟩ := h.holds.views.termAt_ok hterm
    obtain ⟨-, -, rfl⟩ := h.holds.views.entriesFrom_ok hentries
    refine ⟨rfl, ⟨r, hr, hri.trans h.id.symm⟩, ?_⟩
    dsimp only
    have hlen : (F.drop ((n.nextIndex peer).getD 0 - 1)).length =
        F.length - ((n.nextIndex peer).getD 0 - 1) := length_drop
    have hcommit := h.progress.commit_le
    rw [hlog]
    refine ⟨by omega, rfl, (take_length).symm, by omega, h.progress.committed⟩
  · exact Node.wp_fail.mpr (h.fail _)

theorem replicateTo_spec (peers : List NodeID) :
    (Node.replicateTo peers).wp
      (fun out n' => n' = n ∧ ∀ m ∈ out, MsgOK Γ g m) (fun _ n' => Dead Γ g i n') n := by
  induction peers with
  | nil => exact ⟨rfl, by simp⟩
  | cons peer peers ih =>
    simp only [Node.replicateTo, wp_bind, wp_get, wp_ite, wp_pure]
    refine ⟨fun _ => ?_, fun _ => ih⟩
    refine wp_imp (replicationMessage_spec h hl peer) ?_
    rintro m n' ⟨rfl, hm⟩
    refine wp_imp ih ?_
    rintro out n'' ⟨rfl, hout⟩
    exact ⟨rfl, by simpa using ⟨hm, hout⟩⟩

theorem replicationMessages_spec :
    Node.replicationMessages.wp
      (fun out n' => n' = n ∧ ∀ m ∈ out, MsgOK Γ g m) (fun _ n' => Dead Γ g i n') n := by
  exact replicateTo_spec h hl n.peers

end

/-- What a call leaves behind: a node in order and truthful messages. -/
def Done (Γ : Setting σ) (g : Ghost) (i : NodeID) (out : List Message) (n : Node σ) : Prop :=
  Outcome Γ g i fun g' => NodeOK Γ g' i n ∧ ∀ m ∈ out, MsgOK Γ g' m

/-- However the call ends, it ends well. -/
abbrev Ends (Γ : Setting σ) (g : Ghost) (i : NodeID) (x : NodeM σ (List Message)) (n : Node σ) :
    Prop :=
  x.wp (fun out n' => Done Γ g i out n') (fun _ n' => Done Γ g i [] n') n

variable {out : List Message}

theorem Done.trans {g' : Ghost} (G : Record.Grows i g g')
    (h : Done Γ g' i out n) : Done Γ g i out n :=
  Outcome.trans G h

theorem Done.dead (S : Record.Sane Γ.regime.rules g) (h : Dead Γ g i n) : Done Γ g i [] n :=
  Outcome.refl S ⟨.inl h, by simp⟩

theorem Done.running (S : Record.Sane Γ.regime.rules g)
    (h : Running Γ g i F n) (hdone : n.lastApplied = n.commitIndex)
    (hout : ∀ m ∈ out, MsgOK Γ g m) : Done Γ g i out n :=
  Outcome.refl S ⟨.inr ⟨F, h, hdone⟩, hout⟩

theorem NodeOK.running_of_usable (h : NodeOK Γ g i n) {u : Unit} (hu : n.usable = .ok u) :
    ∃ F, Running Γ g i F n ∧ n.lastApplied = n.commitIndex := by
  rcases h with hdead | hrun
  · exact absurd hdead.stopped (by simp [Node.usable_ok hu])
  · exact hrun

/-- A call that changes nothing. -/
theorem NodeOK.refused (S : Record.Sane Γ.regime.rules g) (h : NodeOK Γ g i n) : Done Γ g i [] n :=
  Outcome.refl S ⟨h, by simp⟩

/-- Advancing the commit index and telling the peers. -/
theorem advance_and_replicate (S : Record.Sane Γ.regime.rules g) (h : Running Γ g i F n)
    (hrole : n.role = .leader) (hdone : n.lastApplied = n.commitIndex) :
    (Node.advanceCommit Γ.machine).wp (fun _ n' => Node.replicationMessages.wp
        (fun out n'' => Done Γ g i out n'') (fun _ n'' => Done Γ g i [] n'') n')
      (fun _ n' => Done Γ g i [] n') n := by
  refine wp_mono (advanceCommit_spec S h hrole hdone) ?_ ?_
  · rintro - n' ⟨g', G, S', hlead, hrun, hdone', hterm⟩
    rw [← hterm] at hlead
    refine wp_mono (replicationMessages_spec hrun hlead) ?_ ?_
    · rintro out n'' ⟨rfl, hout⟩
      exact Done.trans G (Done.running S' hrun hdone' hout)
    · exact fun _ n'' hdead => Done.trans G (Done.dead S' hdead)
  · rintro - n' ⟨g', G, S', hdead⟩
    exact Done.trans G (Done.dead S' hdead)

/-! ### What a leader admits -/

variable {e : Entry}

theorem Indexed.concat (h : Indexed F) (he : e.index = F.length + 1) : Indexed (F ++ [e]) := by
  intro j e' he'
  rcases Nat.lt_or_ge j F.length with hlt | hge
  · rw [getElem?_append_left hlt] at he'
    exact h j e' he'
  · rw [getElem?_append_right hge] at he'
    have hj := (List.getElem?_eq_some_iff.mp he').1
    simp only [length_singleton] at hj
    obtain rfl : j = F.length := by omega
    simp only [Nat.sub_self, getElem?_cons_zero, Option.some.injEq] at he'
    rw [← he', he]

variable {store : Store}

/-- A leader that has saved a new entry of its term leads with the longer log. -/
theorem Running.append (S : Record.Sane Γ.regime.rules g) (h : Running Γ g i F n)
    (hrole : n.role = .leader) (hterm : e.term = n.term)
    (hindex : e.index = F.length + 1) (hchain : Γ.regime.Chain (F ++ [e]))
    (hcur : (Γ.regime.conf (F ++ [e])).version ≤ (Γ.regime.view n.configuration).version + 1)
    (nextIndex : NodeID → Option ℕ)
    (hstore : store.state =
      { n.persistent with entries := n.persistent.entries ++ [e] }) :
    Outcome Γ g i fun g' => Running Γ g' i (F ++ [e])
      { n with
        persistent := { n.persistent with entries := n.persistent.entries ++ [e] }
        store := store
        matchIndex := Function.update n.matchIndex n.id (some e.index)
        nextIndex := nextIndex } := by
  have hlead := h.role
  rw [hrole] at hlead
  obtain ⟨⟨⟨r, hr, rfl⟩, hlog⟩, -, hmatch⟩ := hlead
  have hlater := h.holds.later
  set t := n.persistent.hardState.term with ht
  have S₁ : Record.Sane Γ.regime.rules (g.append t e) :=
    S.append hr hterm (by rw [hlog]; exact hchain)
  have G₁ : Record.Grows r.leader g (g.append t e) := Record.append_grows hr
  have hlog₁ : (g.append t e).log t = F ++ [e] := by simp [Record.append, hlog]
  have hvotes : ∀ T', t < T' → (g.append t e).vote r.leader T' = none :=
    fun T' hT' => (hlater T' hT').1
  have S₂ := S₁.acknowledge (i := r.leader) (m := (F ++ [e]).length) hvotes (by rw [hlog₁])
  have G₂ := Record.acknowledge_grows (m := (F ++ [e]).length) hvotes
  have G := G₁.trans G₂
  refine ⟨_, G, S₂, ?_⟩
  have hsnap : SnapshotOK Γ _ _ (F ++ [e]) _ := (h.holds.snapshot.grow S G).of_take_le
    (.trans ⟨_, take_append_drop _ _⟩ (prefix_append _ _))
  have hretain : (g.append t e).Retain r.leader t (F ++ [e]) :=
    (h.holds.retain.grow S G₁ fun _ => rfl).mono_log (prefix_append _ _)
  have hrooted := S₁.rooted t
  rw [hlog₁] at hrooted
  have hholds : Holds Γ ((g.append t e).acknowledge r.leader t (F ++ [e]).length) r.leader
      { n.persistent with entries := n.persistent.entries ++ [e] } (F ++ [e]) :=
    { snapshot := hsnap
      entries := by
        rw [drop_append_of_le_length h.holds.snapshot.le, ← h.holds.entries]
      indexed := h.holds.indexed.concat hindex
      rooted := G₂.rooted hrooted
      terms := fun e' he' => by
        rcases mem_append.mp he' with hold | hnew
        · exact h.holds.terms e' hold
        · rw [mem_singleton.mp hnew]
          exact Nat.le_of_eq hterm
      retain := hretain.acknowledge (by rw [hlog₁, take_length])
      vote := h.holds.vote
      later := fun T (hT : t < T) => by
        refine ⟨(hlater T hT).1, (hlater T hT).2.1, ?_⟩
        rw [Record.acknowledge_ack, Record.put_of_ne _ _ (by rintro ⟨-, rfl⟩; omega)]
        exact (hlater T hT).2.2
      config := fun h0 => (h.holds.config h0).grow S G
      config_behind := h.holds.config_behind }
  refine
    { h with
      holds := hholds
      synced := ⟨n.persistent.config, hstore, .inl rfl⟩
      progress := (h.progress.grow S G).of_le (.trans ⟨_, take_append_drop _ _⟩ (prefix_append _ _))
      role := ?_ }
  dsimp only
  rw [hrole]
  refine ⟨⟨⟨r, hr, rfl⟩, hlog₁⟩, hcur, fun x => ?_⟩
  by_cases hx : x = r.leader
  · subst hx
    refine .inr ?_
    rw [h.id, Function.update_self, Record.acknowledge_ack, Record.put_same]
    simp [hindex]
  · rw [h.id, Function.update_of_ne hx, Record.acknowledge_ack,
      Record.put_of_ne _ _ fun hc => hx hc.1]
    exact hmatch x

theorem appendEntry_spec (S : Record.Sane Γ.regime.rules g) (h : Running Γ g i F n)
    (hrole : n.role = .leader) (hdone : n.lastApplied = n.commitIndex)
    (hterm : e.term = n.term) (hchain : Γ.regime.Chain (F ++ [e]))
    (hcur : (Γ.regime.conf (F ++ [e])).version ≤ (Γ.regime.view n.configuration).version + 1) :
    (Node.appendEntry Γ.machine e).wp
      (fun out n' => Done Γ g i out.2 n') (fun _ n' => Done Γ g i [] n') n := by
  simp only [Node.appendEntry, wp_bind, wp_modify, wp_pure]
  refine Node.wp_persist (fun hvalid store hstore => ?_) (fun err store hstore => ?_)
  · have hlen : n.persistent.entries.length = F.length - n.persistent.snapshot.index := by
      rw [h.holds.entries, length_drop]
    have hindex : e.index = F.length + 1 := by
      have := (validatePersistent_index hvalid n.persistent.entries.length e (by simp)).1
      have := h.holds.snapshot.le
      dsimp only at *
      omega
    obtain ⟨g', G, S', hrun⟩ := h.append S hrole hterm hindex hchain hcur
      (Function.update n.nextIndex n.id (some (e.index + 1))) hstore
    refine wp_mono (advance_and_replicate S' hrun hrole hdone) ?_ ?_
    · exact fun _ n' hn' => wp_mono hn' (fun _ _ hd => Done.trans G hd)
        (fun _ _ hd => Done.trans G hd)
    · exact fun _ n' hd => Done.trans G hd
  · exact Done.dead S (h.dead rfl hstore rfl h.led)

/-! ### What a follower accepts -/

variable {entries : List Entry}

theorem validateAppendLoop_index {messageTerm want previousTerm : ℕ}
    (h : Node.validateAppendLoop messageTerm want previousTerm entries = .ok ()) :
    ∀ j e, entries[j]? = some e → e.index = want + j := by
  induction entries generalizing want previousTerm with
  | nil => simp
  | cons entry rest ih =>
    unfold Node.validateAppendLoop at h
    split at h
    · cases h
    intro j e he
    cases j with
    | zero =>
      simp only [getElem?_cons_zero, Option.some.injEq] at he
      subst he
      omega
    | succ j =>
      have := ih h j e (by simpa using he)
      omega

variable {message : Message} {r : Election NodeID Entry Ballot}

theorem validateAppend_index (h : Node.validateAppend message = .ok ()) :
    ∀ j e, message.entries[j]? = some e → e.index = message.prevLogIndex + 1 + j := by
  unfold Node.validateAppend at h
  split at h
  · cases h
  · exact validateAppendLoop_index h

variable {L : List Entry}

/-- A stretch of a log, cut at `j` and read from `s` on. -/
theorem drop_take_append {s j len : ℕ} (hs : s ≤ j) (hlen : j + len ≤ L.length) :
    (L.take j).drop s ++ (L.drop j).take len = (L.take (j + len)).drop s := by
  rw [take_add, drop_append_of_le_length (by simp; omega)]

/-- The loop of `handleAppendEntries` against the log of the leader's term: either
the node's log already contains what was sent, or its held entries become those
of the leader up to the end of the message. -/
theorem appendLoop_spec (S : Record.Sane Γ.regime.rules g) (h : Running Γ g i F n) (T : ℕ)
    (entries : List Entry) (j : ℕ)
    (hpre : (g.log T).take j <+: F) (hj : n.persistent.snapshot.index ≤ j)
    (hentries : entries = ((g.log T).drop j).take entries.length)
    (hlen : j + entries.length ≤ (g.log T).length)
    (hindex : ∀ k e, entries[k]? = some e → e.index = j + 1 + k) :
    (Node.appendLoop entries).wp (fun changed n' =>
        if changed then ¬ (g.log T).take (j + entries.length) <+: F ∧
          n' = { n with persistent := { n.persistent with
            entries := ((g.log T).take (j + entries.length)).drop n.persistent.snapshot.index } }
        else (g.log T).take (j + entries.length) <+: F ∧ n' = n)
      (fun _ n' => Dead Γ g i n') n := by
  induction entries generalizing j with
  | nil => exact ⟨by simpa using hpre, rfl⟩
  | cons incoming rest ih =>
    set L := g.log T with hL
    have hLj : L[j]? = some incoming := by
      have := congrArg (fun l => l[0]?) hentries
      simpa [getElem?_take_of_lt] using this.symm
    have hidx : incoming.index = j + 1 := by simpa using hindex 0 incoming (by simp)
    have hprelen := hpre.length_le
    simp only [length_cons, length_take] at hlen hprelen
    have hjF : j ≤ F.length := by omega
    have hFj : F.take j = L.take j := by
      have := prefix_iff_eq_take.mp hpre
      rw [this, length_take, Nat.min_eq_left (by omega)]
    have hsplice : (F.take j).drop n.persistent.snapshot.index ++ (incoming :: rest) =
        (L.take (j + (rest.length + 1))).drop n.persistent.snapshot.index := by
      rw [hFj, hentries]
      exact drop_take_append hj (by simpa using hlen)
    have hLrest : L.take (j + 1) <+: L.take (j + (rest.length + 1)) :=
      take_prefix_take_left (by omega)
    simp only [Node.appendLoop, wp_bind, wp_get, hidx]
    rcases Nat.lt_or_ge j F.length with hlt | hge
    · obtain ⟨e, he⟩ := Views.exists_entry F (show 0 < j + 1 by omega) hlt
      rw [h.holds.views.entryAt_eq (by omega) he]
      simp only [Nat.add_sub_cancel] at he
      simp only [wp_ite, wp_bind, Node.wp_assert]
      refine ⟨fun hterm => ⟨fun _ => ?_, fun _ => h.fail _⟩, fun hterm => ?_⟩
      · -- same term: by log matching the logs agree one entry further
        have htake := (S.rooted T).take_eq_of_term_eq h.holds.rooted hLj he hterm.symm
        have := ih (j + 1) (htake ▸ take_prefix _ _) (by omega) ?_ (by omega) ?_
        · rwa [show j + 1 + rest.length = j + (rest.length + 1) by omega] at this
        · have := congrArg (List.drop 1) hentries
          simpa [drop_take, drop_drop] using this
        · intro k e' he'
          have := hindex (k + 1) e' (by simpa using he')
          omega
      · simp only [Node.truncateSuffix, Node.extendLog, wp_bind, wp_get,
          Node.wp_assert, wp_modify, wp_pure, Node.wp_fail, if_true]
        refine ⟨fun _ => h.fail _, fun _ => ⟨fun _ => ⟨fun hc => hterm ?_, ?_⟩, fun _ => h.fail _⟩⟩
        · have hLj' : (L.take (j + 1))[j]? = some incoming := by
            rw [getElem?_take_of_lt (by omega), hLj]
          have := he.symm.trans (getElem?_of_le (hLrest.trans hc) hLj')
          rw [Option.some.inj this]
        · have hcut : n.persistent.entries.take (j + 1 - n.persistent.snapshot.index - 1) =
              (F.take j).drop n.persistent.snapshot.index := by
            rw [h.holds.entries, drop_take]
            congr 1
            omega
          rw [hcut, hsplice]
          rfl
    · have hun : n.entryAt (j + 1) = .error .unavailable := by
        unfold Node.entryAt
        rw [if_neg (by omega), h.holds.views.lastIndex_eq, if_pos (by omega)]
      have hFL : F.take j = F := take_of_length_le hge
      rw [hun]
      simp only [Error.is, BEq.rfl, Bool.not_true, Bool.false_eq_true, if_false,
        Node.extendLog, wp_bind, wp_modify, wp_pure, if_true]
      refine ⟨fun hc => ?_, ?_⟩
      · have := (hLrest.trans hc).length_le
        simp only [length_take] at this
        omega
      · rw [hFL] at hsplice
        rw [h.holds.entries, hsplice]
        rfl

/-- What is committed survives when the log is replaced by the leader's. -/
theorem Committed.prefix_take_log {R : Rules NodeID Entry Ballot} (S : Record.Sane R g)
    {t m : ℕ} {P : List Entry} (h : Committed g t P)
    (hr : g.elect t = some r) (hP : P <+: F) (hnot : ¬ (g.log t).take m <+: F) :
    P <+: (g.log t).take m := by
  rcases prefix_or_prefix_of_prefix (h.prefix_log S hr) ⟨_, take_append_drop m (g.log t)⟩ with
    hle | hle
  · exact hle
  · exact absurd (hle.trans hP) hnot

variable {m : ℕ}

/-- A follower whose log did not contain the leader's prefix takes it over. -/
theorem Running.replace (S : Record.Sane Γ.regime.rules g) (h : Running Γ g i F n)
    (hrole : n.role = .follower)
    (hr : g.elect n.term = some r) (hnot : ¬ (g.log n.term).take m <+: F)
    (hindexed : Indexed ((g.log n.term).take m))
    (hstore : store.state = { n.persistent with
      entries := ((g.log n.term).take m).drop n.persistent.snapshot.index }) :
    Running Γ g i ((g.log n.term).take m)
      { n with
        persistent := { n.persistent with
          entries := ((g.log n.term).take m).drop n.persistent.snapshot.index }
        store := store } := by
  have hlater := h.holds.later
  have hsnap := h.holds.snapshot.of_take_le
    (h.holds.snapshot.committed.prefix_take_log S hr ⟨_, take_append_drop _ _⟩ hnot)
  have hcommit := h.progress.of_le
    (h.progress.committed.prefix_take_log S hr ⟨_, take_append_drop _ _⟩ hnot)
  have hholds : Holds Γ g i { n.persistent with
      entries := ((g.log n.term).take m).drop n.persistent.snapshot.index }
      ((g.log n.term).take m) :=
    { h.holds with
      snapshot := hsnap
      entries := rfl
      indexed := hindexed
      rooted := S.rooted_take_log m
      terms := fun e he => S.term_le_of_mem_log (mem_of_mem_take he)
      retain := h.holds.retain.replace S hr hnot fun T hT => (hlater T hT).2.2 }
  refine
    { h with
      holds := hholds
      synced := ⟨n.persistent.config, hstore, .inl rfl⟩
      progress := hcommit
      role := ?_ }
  dsimp only
  rw [hrole]
  trivial

/-- A node may acknowledge every prefix of the leader's log that it holds. -/
theorem Running.acknowledge (S : Record.Sane Γ.regime.rules g) (h : Running Γ g i F n)
    (hin : (g.log n.term).take m <+: F) (hm : m ≤ (g.log n.term).length) :
    Outcome Γ g i fun g' => Running Γ g' i F n ∧ m ≤ g'.ack i n.term := by
  have hlater := h.holds.later
  have hvotes : ∀ T', n.term < T' → g.vote i T' = none := fun T' hT' => (hlater T' hT').1
  have G := Record.acknowledge_grows (m := m) hvotes
  have hack : m ≤ (g.acknowledge i n.term m).ack i n.term := by simp
  refine ⟨_, G, S.acknowledge hvotes hm, ?_, hack⟩
  have hholds : Holds Γ (g.acknowledge i n.term m) i n.persistent F :=
    { h.holds with
      snapshot := h.holds.snapshot.grow S G
      rooted := G.rooted h.holds.rooted
      retain := h.holds.retain.acknowledge hin
      later := fun T hT => by
        refine ⟨(hlater T hT).1, (hlater T hT).2.1, ?_⟩
        rw [Record.acknowledge_ack, Record.put_of_ne]
        · exact (hlater T hT).2.2
        · rintro ⟨-, rfl⟩
          exact absurd hT (Nat.lt_irrefl _)
      config := fun h0 => (h.holds.config h0).grow S G }
  refine { h with holds := hholds, progress := h.progress.grow S G, role := ?_ }
  have hrole := h.role
  revert hrole
  cases n.role with
  | follower => exact fun _ => trivial
  | candidate => exact fun hrole => hrole
  | leader =>
    rintro ⟨hlead, hcur, hmatch⟩
    exact ⟨hlead, hcur, fun x => (hmatch x).imp_right fun hx => hx.trans (G.ack _ _)⟩

/-- A follower that holds the leader's prefix may take over its commit index. -/
theorem Running.follow (h : Running Γ g i F n) (hrole : n.role = .follower) {m c : ℕ}
    (hin : (g.log n.term).take m <+: F) (hm : m ≤ (g.log n.term).length) (hc : c ≤ m)
    (hgt : n.commitIndex < c) (hcommitted : Committed g n.term ((g.log n.term).take c)) :
    Running Γ g i F { n with commitIndex := c } := by
  have hlen := hin.length_le
  rw [length_take, Nat.min_eq_left hm] at hlen
  have htake : F.take c = (g.log n.term).take c := by
    have := prefix_iff_eq_take.mp ((take_prefix_take_left hc).trans hin)
    rw [this, length_take, Nat.min_eq_left (by omega)]
  refine
    { h with
      progress :=
        { h.progress with
          applied_le := h.progress.applied_le.trans (Nat.le_of_lt hgt)
          commit_le := hc.trans hlen
          committed := by rw [htake]; exact hcommitted }
      role := ?_ }
  rw [hrole]
  trivial

/-- After accepting the entries of the current leader, a follower takes over the
commit index, applies, and acknowledges. -/
theorem followCommit_spec (S : Record.Sane Γ.regime.rules g) (h : Running Γ g i F n)
    (hrole : n.role = .follower) (hdone : n.lastApplied = n.commitIndex)
    (hin : (g.log n.term).take m <+: F)
    (hm : m ≤ (g.log n.term).length) (hc : message.leaderCommit ≤ m)
    (hcommitted : Committed g n.term ((g.log n.term).take message.leaderCommit)) :
    Ends Γ g i (Node.followCommit Γ.machine message m) n := by
  have finish : ∀ {n' : Node σ}, Running Γ g i F n' → n'.lastApplied = n'.commitIndex →
      n'.term = n.term →
      Done Γ g i [n'.appendResponse message.fromID true m 0] n' := by
    intro n' hrun hdone' hterm'
    rw [← hterm'] at hin hm
    obtain ⟨g', G, S', hrun', hack⟩ := hrun.acknowledge S hin hm
    refine Done.trans G (Done.running S' hrun' hdone' ?_)
    simp only [mem_singleton, forall_eq]
    intro _
    rw [show (n'.appendResponse message.fromID true m 0).fromID = i from hrun.id]
    exact hack
  simp only [Node.followCommit, wp_bind, wp_get, wp_ite, wp_modify, wp_adapt, wp_pure]
  refine ⟨fun hgt => ?_, fun _ => finish h hdone rfl⟩
  rw [Nat.min_eq_left hc]
  refine wp_mono (applyCommitted_spec S (h.follow hrole hin hm hc hgt hcommitted)
    (by simp [hrole])) ?_ ?_
  · rintro - n' ⟨hrun, hdone', hterm', -⟩
    exact finish hrun hdone' hterm'
  · exact fun _ n' hdead => Done.dead S hdead

/-- A refusal promises nothing. -/
theorem msgOK_refusal (peer : NodeID) (hint : ℕ) :
    ∀ m ∈ [n.appendResponse peer false 0 hint], MsgOK Γ g m := by
  simp only [mem_singleton, forall_eq]
  intro hs
  cases hs

/-- Equal terms at an index the node holds make the leader's prefix its own. -/
theorem take_prefix_of_termOf_eq (S : Record.Sane Γ.regime.rules g)
    (hF : g.Rooted Entry.term F) {t index : ℕ} (hle : index ≤ F.length)
    (hle' : index ≤ (g.log t).length) (hterm : termOf F index = termOf (g.log t) index) :
    (g.log t).take index <+: F := by
  rcases Nat.eq_zero_or_pos index with rfl | hpos
  · simp
  obtain ⟨e, he⟩ := Views.exists_entry F hpos hle
  obtain ⟨e', he'⟩ := Views.exists_entry _ hpos hle'
  rw [termOf_eq hpos he, termOf_eq hpos he'] at hterm
  have htake := hF.take_eq_of_term_eq (S.rooted t) he he' hterm
  rw [Nat.sub_add_cancel hpos] at htake
  rw [← htake]
  exact take_prefix _ _

theorem indexed_take {j : ℕ} (hF : Indexed F) (hpre : L.take j <+: F)
    (hentries : entries = (L.drop j).take entries.length)
    (hlen : j + entries.length ≤ L.length)
    (hindex : ∀ k e, entries[k]? = some e → e.index = j + 1 + k) :
    Indexed (L.take (j + entries.length)) := by
  intro k e he
  rcases Nat.lt_or_ge k j with hlt | hge
  · refine hF k e (getElem?_of_le hpre ?_)
    rw [getElem?_take_of_lt hlt]
    exact getElem?_of_le ⟨_, take_append_drop _ _⟩ he
  · have hk := (List.getElem?_eq_some_iff.mp he).1
    rw [length_take] at hk
    have hget : entries[k - j]? = some e := by
      rw [hentries, getElem?_take_of_lt (by omega), getElem?_drop, Nat.add_sub_cancel' hge]
      exact getElem?_of_le ⟨_, take_append_drop _ _⟩ he
    have := hindex _ _ hget
    omega

theorem followLeader_spec (S : Record.Sane Γ.regime.rules g) (h : Running Γ g i F n)
    (hrole : n.role = .follower) (hdone : n.lastApplied = n.commitIndex)
    (hkind : message.kind = .appendEntries)
    (hmsg : MsgOK Γ g message) (hterm : message.term = n.term) :
    Ends Γ g i (Node.followLeader Γ.machine message) n := by
  unfold MsgOK at hmsg
  rw [hkind, hterm] at hmsg
  obtain ⟨⟨r, hr, -⟩, hlen, hprev, hentries, hc, hcommitted⟩ := hmsg
  have stay : ∀ {out : List Message}, (∀ m ∈ out, MsgOK Γ g m) → Done Γ g i out n :=
    fun hout => Done.running S h hdone hout
  simp only [Node.followLeader, wp_bind, wp_lift, wp_get, wp_ite, wp_pure]
  refine ⟨fun _ hvalid => ⟨fun _ => stay (msgOK_refusal _ _), fun hsnap => ?_⟩,
    fun _ _ => stay (by simp)⟩
  have hindex := validateAppend_index hvalid
  split
  · rename_i err herr
    simp only [wp_ite, wp_pure, wp_throw]
    exact ⟨fun _ => stay (msgOK_refusal _ _), fun _ => stay (by simp)⟩
  · rename_i previousTerm hprevTerm
    obtain ⟨hle, hprevLen, rfl⟩ := h.holds.views.termAt_ok hprevTerm
    simp only [wp_ite, wp_bind, wp_pure]
    refine ⟨fun _ => stay (msgOK_refusal _ _), fun hmatch => ?_⟩
    have hpre := take_prefix_of_termOf_eq S h.holds.rooted hprevLen (by omega)
      ((not_not.mp hmatch).trans hprev)
    refine wp_mono (appendLoop_spec S h n.term message.entries message.prevLogIndex hpre
      (by omega) hentries hlen hindex) ?_ (fun _ _ hdead => Done.dead S hdead)
    intro changed n' hn'
    cases changed with
    | false =>
      obtain ⟨hin, rfl⟩ := hn'
      exact ⟨fun hf => absurd hf (by simp), fun _ =>
        followCommit_spec S h hrole hdone hin hlen hc hcommitted⟩
    | true =>
      obtain ⟨hnot, rfl⟩ := hn'
      refine ⟨fun _ => ?_, fun hf => absurd rfl hf⟩
      refine Node.wp_persist (fun _ store hstore => ?_)
        (fun err store hstore => Done.dead S (h.dead rfl hstore rfl h.led))
      have hrun := h.replace S hrole hr hnot
        (indexed_take h.holds.indexed hpre hentries hlen hindex) hstore
      exact followCommit_spec S hrun hrole hdone prefix_rfl hlen hc hcommitted

/-- `handleAppendEntries` keeps the node in order. -/
theorem handleAppendEntries_spec (S : Record.Sane Γ.regime.rules g) (h : Running Γ g i F n)
    (hdone : n.lastApplied = n.commitIndex)
    (hkind : message.kind = .appendEntries) (hmsg : MsgOK Γ g message)
    (hle : message.term ≤ n.term) :
    Ends Γ g i (Node.handleAppendEntries Γ.machine message) n := by
  simp only [Node.handleAppendEntries, wp_bind, wp_get, wp_ite, wp_pure, wp_modify, Node.wp_fail]
  refine ⟨fun _ => Done.running S h hdone (msgOK_refusal _ _), fun hge =>
    ⟨fun _ => Done.dead S (h.fail _), fun _ => ⟨fun _ => ?_, fun hfollower => ?_⟩⟩⟩
  · obtain ⟨hcore, hrole, -⟩ := n.sameCore_becomeFollower message.fromID
    refine followLeader_spec S (h.becomeFollower _) hrole ?_ hkind hmsg ?_
    · rw [hcore.lastApplied, hcore.commitIndex, hdone]
    · rw [show (n.becomeFollower message.fromID).term = n.term by
        simp only [Node.term, hcore.persistent]]
      omega
  · obtain ⟨timeout, draws, heq⟩ := n.exists_resetElectionTimer
    have hrun := h.resetElectionTimer
    rw [heq] at hrun ⊢
    simp only [not_or, not_not] at hfollower
    exact followLeader_spec S hrun hfollower.1 hdone hkind hmsg (by
      change message.term = n.term
      omega)

/-! ### What a leader is told -/

theorem Running.setNext (h : Running Γ g i F n) (nextIndex : NodeID → Option ℕ) :
    Running Γ g i F { n with nextIndex := nextIndex } :=
  { h with }

/-- A leader may record what a peer has acknowledged. -/
theorem Running.matched (h : Running Γ g i F n) (hrole : n.role = .leader) {peer : NodeID}
    (hm : m ≤ n.commitIndex ∨ m ≤ g.ack peer n.term)
    (nextIndex : NodeID → Option ℕ) :
    Running Γ g i F
      { n with
        matchIndex := Function.update n.matchIndex peer (some m)
        nextIndex := nextIndex } := by
  refine { h with role := ?_ }
  have hlead := h.role
  rw [hrole] at hlead
  obtain ⟨hleads, hcur, hmatch⟩ := hlead
  dsimp only
  rw [hrole]
  refine ⟨hleads, hcur, fun x => ?_⟩
  by_cases hx : x = peer
  · subst hx
    rwa [Function.update_self]
  · rw [Function.update_of_ne hx]
    exact hmatch x

theorem Running.leads (h : Running Γ g i F n) (hrole : n.role = .leader) :
    Leads g i n.term F := by
  have := h.role
  rw [hrole] at this
  exact this.1

section

variable (S : Record.Sane Γ.regime.rules g) (h : Running Γ g i F n)

include S h

/-- Sending one replication message. -/
theorem replicate_one
    (hrole : n.role = .leader) (hdone : n.lastApplied = n.commitIndex) (peer : NodeID) :
    (Node.replicationMessage peer).wp
      (fun m n' => Done Γ g i [m] n') (fun _ n' => Done Γ g i [] n') n := by
  refine wp_mono (replicationMessage_spec h (h.leads hrole) peer) ?_
    (fun _ _ hdead => Done.dead S hdead)
  rintro m n' ⟨rfl, hm⟩
  exact Done.running S h hdone (by simpa using hm)

theorem handleAppendResponse_spec (hdone : n.lastApplied = n.commitIndex)
    (hkind : message.kind = .appendEntriesResponse) (hmsg : MsgOK Γ g message) :
    Ends Γ g i (Node.handleAppendResponse Γ.machine message) n := by
  unfold MsgOK at hmsg
  rw [hkind] at hmsg
  simp only [Node.handleAppendResponse, wp_bind, wp_get, wp_ite, wp_pure, wp_modify, wp_throw]
  refine ⟨fun _ => Done.running S h hdone (by simp), fun hcase => ⟨fun hs =>
    ⟨fun _ => Done.running S h hdone (by simp), fun _ => ?_⟩, fun _ => ?_⟩⟩
  · simp only [not_or, not_not] at hcase
    obtain ⟨-, hrole, hterm⟩ := hcase
    have go : ∀ {n' : Node σ}, Running Γ g i F n' → n'.role = .leader →
        n'.lastApplied = n'.commitIndex →
        (Node.advanceCommit Γ.machine).wp (fun _ n'' => (n''.commitIndex ≠ n.commitIndex →
              Node.replicationMessages.wp (fun out n''' => Done Γ g i out n''')
                (fun _ n''' => Done Γ g i [] n''') n'') ∧
            (¬ n''.commitIndex ≠ n.commitIndex → Done Γ g i [] n''))
          (fun _ n'' => Done Γ g i [] n'') n' := by
      intro n' hrun hrole' hdone'
      refine wp_mono (advanceCommit_spec S hrun hrole' hdone') ?_ ?_
      · rintro - n'' ⟨g', G, S', hlead, hrun', hdone'', hterm'⟩
        rw [← hterm'] at hlead
        refine ⟨fun _ => wp_mono (replicationMessages_spec hrun' hlead) ?_ ?_, fun _ =>
          Done.trans G (Done.running S' hrun' hdone'' (by simp))⟩
        · rintro out n''' ⟨rfl, hout⟩
          exact Done.trans G (Done.running S' hrun' hdone'' hout)
        · exact fun _ _ hdead => Done.trans G (Done.dead S' hdead)
      · rintro - n'' ⟨g', G, S', hdead⟩
        exact Done.trans G (Done.dead S' hdead)
    refine ⟨fun _ => go (h.matched hrole (.inr ?_) _) hrole hdone, fun _ => go h hrole hdone⟩
    rw [← hterm]
    exact hmsg hs
  · simp only [not_or, not_not] at hcase
    refine replicate_one S (h.setNext _) ?_ ?_ message.fromID
    · exact hcase.2.1
    · exact hdone

theorem handleSnapshotResponse_spec (hdone : n.lastApplied = n.commitIndex)
    (hkind : message.kind = .installSnapshotResponse) (hmsg : MsgOK Γ g message) :
    Ends Γ g i (Node.handleSnapshotResponse message) n := by
  unfold MsgOK at hmsg
  rw [hkind] at hmsg
  simp only [Node.handleSnapshotResponse, wp_bind, wp_get, wp_ite, wp_pure, wp_modify, wp_throw]
  refine ⟨fun _ => Done.running S h hdone (by simp), fun hcase => ⟨fun _ =>
    Done.running S h hdone (by simp), fun hs => ⟨fun _ => Done.running S h hdone (by simp),
    fun _ => ?_⟩⟩⟩
  simp only [not_or, not_not] at hcase
  obtain ⟨-, hrole, hterm⟩ := hcase
  have hack : message.matchIndex ≤ g.ack message.fromID n.term := by
    rw [← hterm]
    exact hmsg (by simpa using hs)
  refine replicate_one S (h.matched hrole ?_ _) hrole hdone message.fromID
  have hlead := h.role
  rw [hrole] at hlead
  have := hlead.2.2 message.fromID
  change _ ∨ _ ≤ g.ack message.fromID n.persistent.hardState.term
  change _ ≤ g.ack message.fromID n.persistent.hardState.term at hack
  omega

end

end RivetDB.Raft
