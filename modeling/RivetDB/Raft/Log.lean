import RivetDB.Raft.Invariant

/-!
# Reading and saving a node's log

A node sees the log through its snapshot and the entries after it.  `Views` says
that a durable state shows the full log `F` that way; under it every accessor of
the node (`lastIndex`, `termAt`, `entryAt`, `entriesFrom`) reads `F`.

`Node.wp_save` is the one rule about the store: either it refuses and the node
is stopped with the stored state unchanged, or the state passed
`validatePersistent` and is what a restart will see.
-/

namespace RivetDB.Raft

open List Prog Consensus

variable {σ : Type}

/-- The durable state shows the full log `F` from its snapshot on. -/
structure Views (d : PersistentState) (F : List Entry) : Prop where
  le : d.snapshot.index ≤ F.length
  term : d.snapshot.term = termOf F d.snapshot.index
  entries : d.entries = F.drop d.snapshot.index
  indexed : Indexed F

variable {Γ : Setting σ} {d : PersistentState} {F : List Entry}

theorem Holds.views {g : Ghost} {i : NodeID} (h : Holds Γ g i d F) : Views d F :=
  ⟨h.snapshot.le, h.snapshot.term, h.entries, h.indexed⟩

variable {index : ℕ}

theorem termOf_eq {e : Entry} (hpos : 0 < index)
    (he : F[index - 1]? = some e) : termOf F index = e.term := by
  rw [termOf, if_neg (by omega), he]
  rfl

theorem termOf_length (F : List Entry) : termOf F F.length = lastTerm Entry.term F := by
  rcases eq_nil_or_concat' F with rfl | ⟨P, e, rfl⟩
  · rfl
  · rw [termOf_eq (e := e) (by simp) (by simp)]
    simp [lastTerm]

namespace Views

variable {n : Node σ} {F : List Entry} {index : ℕ}

theorem lastIndex_eq (v : Views n.persistent F) : n.lastIndex = F.length := by
  unfold Node.lastIndex
  rw [v.entries]
  rcases Nat.lt_or_ge n.persistent.snapshot.index F.length with hlt | hge
  · obtain ⟨P, e, rfl⟩ := (eq_nil_or_concat' F).resolve_left (by rintro rfl; simp at hlt)
    have hget := v.indexed P.length e (by simp)
    rw [drop_append_of_le_length (by simp at hlt; omega)]
    simp [hget]
  · rw [drop_of_length_le hge]
    have := v.le
    simp only [getLast?_nil]
    omega

theorem lastTerm_eq (v : Views n.persistent F) : n.lastTerm = lastTerm Entry.term F := by
  unfold Node.lastTerm
  rw [v.entries]
  rcases Nat.lt_or_ge n.persistent.snapshot.index F.length with hlt | hge
  · obtain ⟨P, e, rfl⟩ := (eq_nil_or_concat' F).resolve_left (by rintro rfl; simp at hlt)
    rw [drop_append_of_le_length (by simp at hlt; omega)]
    simp [lastTerm]
  · rw [drop_of_length_le hge]
    have hlen : n.persistent.snapshot.index = F.length := by
      have := v.le
      omega
    simp only [getLast?_nil]
    rw [v.term, hlen, termOf_length]

variable {e : Entry}

section

variable (v : Views n.persistent F) (hlt : n.persistent.snapshot.index < index)
  (he : F[index - 1]? = some e)

include v hlt he

theorem entryOffset_eq : n.entryOffset index = .ok e := by
  unfold Node.entryOffset
  have hget : n.persistent.entries[index - n.persistent.snapshot.index - 1]? = some e := by
    rw [v.entries, getElem?_drop, ← he]
    congr 1
    omega
  rw [hget]

/-- The entry at an index the node still holds. -/
theorem entryAt_eq : n.entryAt index = .ok e := by
  have hlen := (List.getElem?_eq_some_iff.mp he).1
  unfold Node.entryAt
  rw [if_neg (by omega), v.lastIndex_eq, if_neg (by omega), v.entryOffset_eq hlt he]

end

theorem exists_entry (F : List Entry) (hpos : 0 < index) (hle : index ≤ F.length) :
    ∃ e, F[index - 1]? = some e := by
  have hlt : index - 1 < F.length := by omega
  exact ⟨_, getElem?_eq_getElem hlt⟩

theorem termAt_eq (v : Views n.persistent F)
    (hle : n.persistent.snapshot.index ≤ index) (hlen : index ≤ F.length) :
    n.termAt index = .ok (termOf F index) := by
  unfold Node.termAt
  split
  · rename_i heq
    rw [v.term, heq]
  · rename_i hne
    obtain ⟨e, he⟩ := exists_entry F (show 0 < index by omega) hlen
    rw [if_neg (by omega), v.lastIndex_eq, if_neg (by omega),
      v.entryOffset_eq (by omega) he, termOf_eq (by omega) he]
    rfl

theorem termAt_ok (v : Views n.persistent F) {t : ℕ} (h : n.termAt index = .ok t) :
    n.persistent.snapshot.index ≤ index ∧ index ≤ F.length ∧ t = termOf F index := by
  have hbounds : n.persistent.snapshot.index ≤ index ∧ index ≤ F.length := by
    unfold Node.termAt at h
    split at h
    · rename_i heq
      have := v.le
      omega
    split_ifs at h with _ hle
    rw [v.lastIndex_eq] at hle
    omega
  rw [v.termAt_eq hbounds.1 hbounds.2] at h
  cases h
  exact ⟨hbounds.1, hbounds.2, rfl⟩

theorem entriesFrom_ok (v : Views n.persistent F) {es : List Entry}
    (h : n.entriesFrom index = .ok es) :
    n.persistent.snapshot.index < index ∧ index ≤ F.length + 1 ∧ es = F.drop (index - 1) := by
  unfold Node.entriesFrom at h
  rw [v.lastIndex_eq] at h
  split at h
  · cases h
  split at h
  · cases h
  split at h
  · cases h
    refine ⟨by omega, by omega, ?_⟩
    rw [drop_of_length_le (by omega)]
  · cases h
    refine ⟨by omega, by omega, ?_⟩
    rw [v.entries, drop_drop]
    congr 1
    omega

end Views

/-! ### Saving -/

theorem validateEntries_index {hardTerm offset want lastTerm last : ℕ} {entries : List Entry}
    (h : validateEntries hardTerm offset want lastTerm entries = .ok last) :
    ∀ j e, entries[j]? = some e → e.index = want + j ∧ e.term ≤ hardTerm := by
  induction entries generalizing offset want lastTerm with
  | nil => simp
  | cons entry rest ih =>
    unfold validateEntries at h
    split_ifs at h
    intro j e he
    cases j with
    | zero =>
      simp only [getElem?_cons_zero, Option.some.injEq] at he
      subst he
      omega
    | succ j =>
      have := ih h j e (by simpa using he)
      omega

/-- What a store has checked about a state it accepted. -/
theorem validatePersistent_index (h : validatePersistent d = .ok ()) :
    ∀ j e, d.entries[j]? = some e →
      e.index = d.snapshot.index + 1 + j ∧ e.term ≤ d.hardState.term := by
  simp only [validatePersistent, Fallible.throw_bind, Fallible.ite_throw_eq_ok,
    Fallible.bind_eq_ok] at h
  obtain ⟨-, -, -, -, -, -, last, hentries, -⟩ := h
  exact validateEntries_index hentries

namespace Node

variable {Q : Unit → Node σ → Prop} {E : Error → Node σ → Prop} {n : Node σ} {d : PersistentState}

/-- Saving either succeeds with a validated state, or stops the node and leaves
the stored state as it was. -/
theorem wp_save (hok : validatePersistent d = .ok () → ∀ store : Store, store.state = d →
      Q () { n with store := store })
    (herr : ∀ (err : Error) (store : Store), store.state = n.store.state →
      E err { n with store := store, fatal := some err, stopped := true }) :
    (save d).wp Q E n := by
  simp only [save, Store.save, wp_bind, wp_get]
  rcases hv : validatePersistent d with err | u
  · simp only [wp_set, fail, wp_bind, wp_modify, wp_throw]
    exact herr _ _ rfl
  · rcases hr : n.store.refuse d with - | err
    · rcases hs : n.store.saveErr n.store.saves with - | err
      · simp only [wp_set, wp_pure]
        exact hok hv _ rfl
      · simp only [wp_set, fail, wp_bind, wp_modify, wp_throw]
        exact herr _ _ rfl
    · simp only [wp_set, fail, wp_bind, wp_modify, wp_throw]
      exact herr _ _ rfl

theorem wp_persist (hok : validatePersistent n.persistent = .ok () → ∀ store : Store,
      store.state = n.persistent → Q () { n with store := store })
    (herr : ∀ (err : Error) (store : Store), store.state = n.store.state →
      E err { n with store := store, fatal := some err, stopped := true }) :
    persist.wp Q E n := by
  simp only [persist, wp_bind, wp_get]
  exact wp_save hok herr

@[simp] theorem wp_fail {α : Type} {err : Error} {Q : α → Node σ → Prop} :
    (fail err : NodeM σ α).wp Q E n ↔ E err { n with fatal := some err, stopped := true } := by
  simp [fail]

@[simp] theorem wp_assert {condition : Bool} {name : String} :
    (assert condition name).wp Q E n ↔
      (condition = true → Q () n) ∧ (condition = false →
        E (.violation name) { n with fatal := some (.violation name), stopped := true }) := by
  cases condition <;> simp [assert]

theorem usable_ok (h : n.usable = .ok ()) : n.stopped = false := by
  unfold usable at h
  split at h
  · cases h
  split at h
  · cases h
  · simpa using ‹¬ n.stopped = true›

end Node

end RivetDB.Raft
