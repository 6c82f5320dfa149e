import Mathlib.Algebra.Order.BigOperators.Group.List
import RivetDB.Raft.FileStore
import RivetDB.Raft.Footprint
import RivetDB.Raft.Safety

/-!
# A log that outgrows its file

A node with a file store checks the size of one command when it is proposed or received, and its
store checks the size of the whole state when it is saved.  Between two snapshots the state only
grows, so sooner or later a save is refused, and by then the entry is in the log: the node stops for
good (`OutOfRoom`).

## When growth is refused

A call has `RoomFor` what it may save if the log, what the call may add to it, the larger of the two
snapshots and the largest configurations together are within the limits of the file.  All of this is
read from the node before the call and from its arguments.

* `Attempt.Sized`: how much a call can add to the state of its node.  The bound comes from the
  relation of `RivetDB.Raft.Conduct`: a call touches its log once.
* `growth_refused`: a node whose calls all have room never stops for lack of it, and a proposal that
  is too large by itself (`Oversized`) is turned down without harm, whatever else the log holds.
* `sixteen_commands_stop_follower`: without room, a message that is in order stops the node.
-/

namespace RivetDB.Raft

open List Prog Fallible

variable {σ : Type} {M : StateMachine σ} {n n' : Node σ} {crc32 : Bytes → ℕ}

/-- A valid state beyond the limits of the file store. -/
def PersistentState.Excess (d : PersistentState) : Prop := validatePersistent d = .ok () ∧ ¬ d.Fits

/-- The node failed because its state did not fit the store. -/
def Node.OutOfRoom (n : Node σ) : Prop := n.fatal = some (saveError .resourceLimit)

/-! ### The store decides -/

variable {s : Store}

/-- What a file store answers. -/
theorem Store.OnFile.save_err (h : s.OnFile crc32) (d : PersistentState) :
    (s.save d).1 =
      match validatePersistent d with
      | .error err => some err
      | .ok () => if d.Fits then none else some .resourceLimit := by
  unfold Store.save
  dsimp only
  rcases hvalid : validatePersistent d with err | u
  · rfl
  · dsimp only
    rw [h.refuse, FileStore.refuse_eq crc32 hvalid]
    split_ifs with hfits
    · simp [h.saveErr]
    · rfl

variable {err : Error}

/-- A state that is not valid is refused for that reason and no other. -/
theorem validateEntries_error {hardTerm offset want lastTerm : ℕ} {entries : List Entry}
    (h : validateEntries hardTerm offset want lastTerm entries = .error err) :
    ∃ text, err = .wrap text .invalidState := by
  induction entries generalizing offset want lastTerm with
  | nil => cases h
  | cons entry rest ih =>
    rw [validateEntries] at h
    split_ifs at h
    · cases h
      exact ⟨_, rfl⟩
    · cases h
      exact ⟨_, rfl⟩
    · exact ih h

variable {d : PersistentState}

theorem validatePersistent_error
    (h : validatePersistent d = .error err) : ∃ text, err = .wrap text .invalidState := by
  unfold validatePersistent at h
  simp only [throw_bind] at h
  split_ifs at h
  case neg =>
    rcases hentries : validateEntries d.hardState.term 0 (d.snapshot.index + 1) d.snapshot.term
      d.entries with err' | lastTerm
    · rw [hentries] at h
      cases h
      exact validateEntries_error hentries
    · rw [hentries, ok_bind] at h
      split_ifs at h
      · cases h
        exact ⟨_, rfl⟩
      · cases h
  all_goals
    cases h
    exact ⟨_, rfl⟩

/-- What was saved is valid. -/
theorem Store.valid_of_save (h : (s.save d).1 = none) : validatePersistent d = .ok () := by
  unfold Store.save at h
  dsimp only at h
  split at h
  · cases h
  · assumption

/-! ### Configurations that can be counted -/

namespace Configuration

variable {c : Configuration} {encoded : Bytes}

theorem Countable.normalize (h : c.Countable) : c.normalize.Countable := by
  unfold Countable Configuration.normalize
  simp only [length_insertionSort]
  exact h

theorem length_decodeIDs (count : ℕ) (encoded : Bytes) :
    (decodeIDs count encoded).length = count := by
  induction count generalizing encoded with
  | zero => rfl
  | succ count ih => rw [decodeIDs, length_cons, ih]

/-- The lists of an encoded configuration are counted in one byte each. -/
theorem countable_of_decode (h : decode encoded = .ok c) : c.Countable := by
  unfold decode at h
  split at h
  · rename_i layout old new learners rest
    simp only [throw_bind, ite_throw_eq_ok, bind_eq_ok] at h
    obtain ⟨-, -, _, -, hc⟩ := h
    cases hc
    refine Countable.normalize ?_
    unfold Countable
    simp only [length_decodeIDs]
    exact ⟨Nat.le_of_lt_succ old.toNat_lt, Nat.le_of_lt_succ new.toNat_lt,
      Nat.le_of_lt_succ learners.toNat_lt⟩
  · cases h

/-- Only what can be counted is encoded, to the length of its field. -/
theorem encode_ok (h : c.encode = .ok encoded) :
    c.Countable ∧ encoded.length = c.fieldLength := by
  have hvalid : c.validate = .ok () := by
    simp only [encode, bind_eq_ok] at h
    obtain ⟨_, hvalid, -⟩ := h
    exact validate_normalize.mp hvalid
  have hversion := (validate_ok hvalid).1
  rcases encodeSet_eq (c := c) fun _ => hvalid with ⟨hcount, encoded', hok, hlength⟩ | ⟨-, herr⟩
  · rw [encodeSet, if_pos hversion, h] at hok
    cases hok
    exact ⟨hcount hversion, hlength⟩
  · rw [encodeSet, if_pos hversion, h] at herr
    cases herr

/-- The largest field of a configuration whose lists can be counted. -/
def maxFieldLength : ℕ := 12 + 8 * (3 * 255)

theorem fieldLength_le (h : c.version ≠ 0 → c.Countable) : c.fieldLength ≤ maxFieldLength := by
  unfold fieldLength maxFieldLength
  split
  · rename_i hversion
    obtain ⟨hold, hnew, hlearners⟩ := h hversion
    omega
  · omega

end Configuration

/-! ### What a call may add -/

namespace Call

/-- How many entries a call may add; one is the no-op of a new leader. -/
def count : Call → ℕ
  | step message => 1 + message.entries.length
  | _ => 1

/-- What the entries that a call may add take up in the file. -/
def growth : Call → ℕ
  | step message => 24 + entriesLength message.entries
  | propose command => 24 + command.length
  | proposeConfiguration next => 24 + next.fieldLength
  | _ => 24

/-- The size of the largest snapshot that the node may have after a call. -/
def data (n : Node σ) : Call → ℕ
  | step message => max n.persistent.snapshot.data.length message.snapshot.data.length
  | createSnapshot => max n.persistent.snapshot.data.length maxCommandBytes
  | _ => n.persistent.snapshot.data.length

/-- What a file takes up besides its entries and the data of its snapshot, at most. -/
def overhead : ℕ :=
  8 * 4 + 4 + 4 + 4 + 4 + 2 * Configuration.maxFieldLength + fileStoreHeaderSize + 4

/-- The configuration in the arguments of a call can be saved. -/
def Counted : Call → Prop
  | step message => message.snapshot.config.version ≠ 0 → message.snapshot.config.Countable
  | proposeConfiguration next => next.Countable
  | _ => True

/-- The file has room for whatever the call may save. -/
structure RoomFor (call : Call) (n : Node σ) : Prop where
  entries : n.persistent.entries.length + call.count ≤ fileStoreMaxEntries
  bytes : entriesLength n.persistent.entries + call.growth + call.data n + overhead ≤
    fileStoreMaxBytes
  config : call.Counted

/-- The proposals that are too large by themselves. -/
def Oversized : Call → Prop
  | propose command => maxCommandBytes < command.length
  | proposeConfiguration next => ¬ next.Countable
  | _ => False

instance : (call : Call) → Decidable call.Counted
  | step _ => inferInstanceAs (Decidable (_ → _))
  | proposeConfiguration next => inferInstanceAs (Decidable next.Countable)
  | tick | propose _ | proposeNoOp | transferLeadership _ | createSnapshot | stop => .isTrue trivial

instance (call : Call) (n : Node σ) : Decidable (call.RoomFor n) :=
  decidable_of_iff (n.persistent.entries.length + call.count ≤ fileStoreMaxEntries ∧
      entriesLength n.persistent.entries + call.growth + call.data n + overhead ≤
        fileStoreMaxBytes ∧ call.Counted)
    ⟨fun ⟨he, hb, hc⟩ => ⟨he, hb, hc⟩, fun h => ⟨h.entries, h.bytes, h.config⟩⟩

instance : (call : Call) → Decidable call.Oversized
  | propose command => inferInstanceAs (Decidable (maxCommandBytes < command.length))
  | proposeConfiguration next => inferInstanceAs (Decidable (¬ next.Countable))
  | tick | step _ | proposeNoOp | transferLeadership _ | createSnapshot | stop => .isFalse id

theorem Counted.brings {call : Call} (h : call.Counted) :
    ∀ c, call.Brings c → c.Countable := by
  intro c hc
  cases call with
  | step message =>
    rcases hc with ⟨-, e, -, -, hdecode⟩ | ⟨-, rfl, hvalid⟩
    · exact Configuration.countable_of_decode hdecode
    · exact h (Configuration.validate_ok hvalid).1
  | proposeConfiguration next =>
    obtain ⟨rfl, -⟩ := hc
    exact h
  | _ => cases hc

theorem le_growth (call : Call) : 24 ≤ call.growth := by
  unfold growth
  split <;> omega

theorem one_le_count (call : Call) : 1 ≤ call.count := by
  unfold count
  split <;> omega

theorem le_data (call : Call) (n : Node σ) :
    n.persistent.snapshot.data.length ≤ call.data n := by
  unfold data
  split <;> omega

end Call

theorem entriesLength_append (es es' : List Entry) :
    entriesLength (es ++ es') = entriesLength es + entriesLength es' := by
  simp [entriesLength]

theorem entriesLength_le {es es' : List Entry} (h : es <+ es') :
    entriesLength es ≤ entriesLength es' :=
  (h.map _).sum_le_sum fun _ _ => Nat.zero_le _

namespace Attempt

variable {A : Attempt σ} {stage : Stage}

/-- The sizes that a call may reach. -/
structure Sized (A : Attempt σ) (d : PersistentState) : Prop where
  entries : d.entries.length ≤ A.before.persistent.entries.length + A.call.count
  bytes : entriesLength d.entries ≤ entriesLength A.before.persistent.entries + A.call.growth
  data : d.snapshot.data.length ≤ A.call.data A.before
  snapshotConfig : d.snapshot.config.version ≠ 0 → d.snapshot.config.Countable

/-- Nothing is added, and the snapshot is one that was allowed for. -/
theorem Sized.shrink {d d' : PersistentState} (h : A.Sized d) (hentries : d'.entries <+ d.entries)
    (hdata : d'.snapshot.data.length ≤ A.call.data A.before)
    (hconfig : d'.snapshot.config.version ≠ 0 → d'.snapshot.config.Countable) : A.Sized d' :=
  ⟨hentries.length_le.trans h.entries, (entriesLength_le hentries).trans h.bytes, hdata, hconfig⟩

theorem entriesFrom_sublist {index : ℕ} {es : List Entry} (h : n.entriesFrom index = .ok es) :
    es <+ n.persistent.entries := by
  unfold Node.entriesFrom at h
  split_ifs at h
  · cases h
    exact nil_sublist _
  · cases h
    exact drop_sublist _ _

/-- An entry that a leader adds is one that was allowed for. -/
theorem adds_size {entry : Entry} (h : A.call.Adds n entry) :
    24 + entry.command.length ≤ A.call.growth := by
  cases h with
  | noOp => exact A.call.le_growth
  | command hcall =>
    rw [hcall]
    exact le_rfl
  | config hcall _ hencode =>
    rw [hcall]
    exact Nat.add_le_add_left (Configuration.encode_ok hencode).2.le _

variable (hcounted : ∀ c, A.before.Knows c → c.Countable)
  (hbrings : ∀ c, A.call.Brings c → c.Countable)

include hbrings in
theorem Installs.sized (hn : A.Sized n.persistent) (hd : A.Installs n d) : A.Sized d := by
  obtain ⟨hcall, hkind, hchecked, -, -, hsuffix⟩ := hd
  refine hn.shrink ?_ ?_ fun hversion => hbrings _ ?_
  · rcases hsuffix with rfl | ⟨-, hfrom⟩
    · exact nil_sublist _
    · exact entriesFrom_sublist hfrom
  · rw [hcall]
    exact le_max_right _ _
  · rw [hcall]
    exact .inr ⟨hkind, rfl, valid_of_checked hchecked hversion⟩

theorem Compacts.sized (hn : A.Sized n.persistent) (hconfiguration : n.configuration.Countable)
    (hd : A.Compacts n d) (hvalid : validatePersistent d = .ok ()) : A.Sized d := by
  have hdata := (validatePersistent_sizes hvalid).2.2.1
  obtain ⟨hcall, -, -, -, hfrom⟩ := hd
  refine hn.shrink (entriesFrom_sublist hfrom) ?_ fun _ => hconfiguration
  rw [hcall]
  exact hdata.trans (le_max_right _ _)

include hcounted hbrings

theorem Reaches.sized (hbefore : A.before.persistent.snapshot.config.version ≠ 0 →
    A.before.persistent.snapshot.config.Countable) (h : A.Reaches stage n) :
    A.Sized n.persistent := by
  induction h with
  | start => exact ⟨Nat.le_add_right _ _, Nat.le_add_right _ _, A.call.le_data _, hbefore⟩
  | same _ hsame ih => exact hsame.persistent ▸ ih
  | append h _ hentry ih =>
    refine ⟨?_, ?_, ih.data, ih.snapshotConfig⟩
    · have hone := A.call.one_le_count
      simp only [Node.withLog, h.unread.entries, length_append, length_singleton]
      omega
    · have hsize := adds_size hentry
      rw [Node.withLog, h.unread.entries, entriesLength_append]
      simpa [entriesLength] using hsize
  | merge h hcall _ _ hlog ih =>
    obtain ⟨index, previous, kept, rest, rfl, hrest, -, -, -, hkept⟩ := hlog
    have hsub : kept <+ A.before.persistent.entries := by
      rcases hkept with rfl | ⟨rfl, -⟩
      · exact h.unread.entries ▸ take_sublist _ _
      · exact h.unread.entries ▸ Sublist.refl _
    refine ⟨?_, ?_, ih.data, ih.snapshotConfig⟩
    · have hlen := hsub.length_le
      have hlen' := hrest.length_le
      simp only [Node.withLog, length_append, hcall, Call.count]
      omega
    · have hlen := entriesLength_le hsub
      have hlen' := entriesLength_le hrest.sublist
      simp only [Node.withLog, entriesLength_append, hcall, Call.growth]
      omega
  | install _ hd _ ih =>
    have hsized := Installs.sized hbrings ih hd
    unfold Node.taking
    split <;> exact hsized
  | compact h hd hsave ih =>
    have hknows := h.knows (fun _ hc => hc.normalize) hcounted hbrings
    exact Compacts.sized ih (hknows _ (.inl rfl)) hd (Store.valid_of_save hsave)
  | configure _ _ _ _ _ ih => exact { ih with }
  | late _ ih | term _ _ _ ih | campaign _ _ _ ih | vote _ _ _ _ _ ih | save _ _ ih =>
    exact { ih with }

/-- Whatever a call with room hands to the store fits, if it is valid. -/
theorem Offers.fits (hbefore : A.before.persistent.snapshot.config.version ≠ 0 →
    A.before.persistent.snapshot.config.Countable) (hroom : A.call.RoomFor A.before)
    (h : A.Offers n d) (hvalid : validatePersistent d = .ok ()) : d.Fits := by
  have hconfig := h.knows (fun _ hc => hc.normalize) hcounted hbrings d.config
    (.inl rfl)
  have hsized : A.Sized d := by
    cases h with
    | own h => exact h.sized hcounted hbrings hbefore
    | install h hd => exact Installs.sized hbrings (h.sized hcounted hbrings hbefore) hd
    | compact h hd =>
      have hknows := h.knows (fun _ hc => hc.normalize) hcounted hbrings
      exact Compacts.sized (h.sized hcounted hbrings hbefore) (hknows _ (.inl rfl)) hd hvalid
  refine ⟨hsized.entries.trans hroom.entries, fun _ => hconfig, hsized.snapshotConfig, ?_⟩
  have hbytes := hroom.bytes
  have hfield := Configuration.fieldLength_le fun _ => hconfig
  have hfield' := Configuration.fieldLength_le hsized.snapshotConfig
  have h₁ := hsized.bytes
  have h₂ := hsized.data
  unfold Call.overhead at hbytes
  unfold PersistentState.payloadLength
  omega

end Attempt

/-! ### Sequences of calls -/

/-- A node on a file store that has not run out of room, and whose configurations can be saved. -/
structure Node.Roomy (crc32 : Bytes → ℕ) (n : Node σ) : Prop where
  file : n.store.OnFile crc32
  room : ¬ n.OutOfRoom
  counted : ∀ c, n.Knows c → c.Countable
  snapshotConfig : n.persistent.snapshot.config.version ≠ 0 →
    n.persistent.snapshot.config.Countable

/-- A call that would take the node beyond the limits is refused: it returns an error, the node
remains usable and its stored state is what it was.  No call stops the node for lack of room. -/
def Call.Refused (M : StateMachine σ) (call : Call) (n : Node σ) : Prop :=
  ¬ ((call.run M).state n).OutOfRoom ∧
    (call.Oversized ∨ (∃ d ∈ ((call.run M).state n).store.offered.drop n.store.offered.length,
        d.Excess) →
      (∃ err, (call.run M).result n = .error err) ∧
        (n.usable = .ok () → ((call.run M).state n).usable = .ok ()) ∧
        ((call.run M).state n).store.state = n.store.state)

variable {call : Call}

/-- A proposal that is too large by itself fails before it has changed anything. -/
theorem Call.oversized_spec (h : call.Oversized) :
    (call.run M).wp (fun _ _ => False) (fun _ n' => n' = n) n := by
  cases call with
  | propose command =>
    simp only [Call.run, wp_map, Node.propose, Node.mayPropose, wp_bind, wp_get, wp_lift, wp_ite,
      wp_throw, wp_pure]
    exact ⟨fun _ _ => ⟨fun _ => trivial, fun _ => ⟨fun _ => trivial, fun _ =>
      ⟨fun _ => trivial, fun hsmall => absurd h hsmall⟩⟩⟩, fun _ _ => trivial⟩
  | proposeConfiguration next =>
    simp only [Call.run, wp_map, Node.proposeConfiguration, Node.mayPropose, wp_bind, wp_get,
      wp_lift, wp_ite, wp_throw, wp_pure]
    exact ⟨fun _ _ => ⟨fun _ => trivial, fun _ => ⟨fun _ => trivial, fun _ =>
      ⟨fun _ _ => ⟨fun _ => trivial, fun _ => ⟨fun _ hencode =>
        absurd (Configuration.encode_ok hencode).1 h, fun _ _ => trivial⟩⟩, fun _ _ => trivial⟩⟩⟩,
      fun _ _ => trivial⟩
  | _ => cases h

theorem Call.oversized_unchanged (h : call.Oversized) :
    (∃ err, (call.run M).result n = .error err) ∧ (call.run M).state n = n := by
  have hspec := oversized_spec (M := M) (n := n) h
  refine ⟨?_, state_of_wp (P := (· = n)) (wp_imp hspec fun _ _ hfalse => hfalse.elim)⟩
  rcases hresult : (call.run M).result n with err | out
  · exact ⟨err, rfl⟩
  · exact (of_wp_ok hspec hresult).elim

/-- The file store runs out of room on valid states only. -/
theorem Store.OnFile.excess_of_save (h : s.OnFile crc32)
    (hsave : (s.save d).1 = some .resourceLimit) : d.Excess := by
  rw [h.save_err] at hsave
  rcases hvalid : validatePersistent d with err | u
  · -- a state that is not valid is refused with another error
    rw [hvalid] at hsave
    obtain ⟨text, rfl⟩ := validatePersistent_error hvalid
    cases hsave
  · rw [hvalid] at hsave
    exact ⟨hvalid, fun hfits => by simp [hfits] at hsave⟩

namespace Node.Roomy

variable (hn : n.Roomy crc32)
include hn

/-- A call with room offers nothing that does not fit. -/
theorem no_excess (hroom : call.RoomFor n) {n' : Node σ} (h : Attempt.Offers ⟨M, call, n⟩ n' d) :
    ¬ d.Excess := fun hexcess =>
  hexcess.2 (h.fits hn.counted hroom.config.brings hn.snapshotConfig hroom hexcess.1)

/-- Step lemma: a call with room leaves room. -/
theorem step (hroom : call.RoomFor n) : ((call.run M).state n).Roomy crc32 := by
  have hleaves := Attempt.leaves_run ⟨M, call, n⟩
  have hkept := hleaves.kept
  refine ⟨⟨hkept.refuse.trans hn.file.refuse, hkept.saveErr.trans hn.file.saveErr⟩, ?_,
    hleaves.knows (fun _ hc => hc.normalize) hn.counted hroom.config.brings, ?_⟩
  · dsimp only at hleaves
    intro hout
    generalize (call.run M).state n = n' at hleaves hout
    cases hleaves with
    | returned h => exact hn.room (h.fatal.symm.trans hout)
    | failed _ herr | unrestored _ _ herr =>
      cases hout
      cases herr
    | refused hd hsave =>
      cases hout
      obtain ⟨stage, h⟩ := hd.reaches
      have hfile : (Node.store _).OnFile crc32 :=
        ⟨h.kept.refuse.trans hn.file.refuse, h.kept.saveErr.trans hn.file.saveErr⟩
      exact hn.no_excess hroom hd (hfile.excess_of_save hsave)
  · refine hleaves.of_reaches (fun h =>
      (h.sized hn.counted hroom.config.brings hn.snapshotConfig).snapshotConfig) ?_ ?_ ?_
    · exact fun h => h
    · exact fun _ h => h
    · exact fun h => h

theorem refused (hcall : call.Oversized ∨ call.RoomFor n) :
    call.Refused M n ∧ ((call.run M).state n).Roomy crc32 := by
  rcases hcall with hlarge | hroom
  · obtain ⟨herr, hsame⟩ := Call.oversized_unchanged (M := M) (n := n) hlarge
    unfold Call.Refused
    rw [hsame]
    exact ⟨⟨hn.room, fun _ => ⟨herr, fun husable => husable, rfl⟩⟩, hn⟩
  · have hafter := hn.step (M := M) hroom
    refine ⟨⟨hafter.room, ?_⟩, hafter⟩
    rintro (hlarge | ⟨d, hd, hexcess⟩)
    · obtain ⟨herr, hsame⟩ := Call.oversized_unchanged (M := M) (n := n) hlarge
      rw [hsame]
      exact ⟨herr, fun husable => husable, rfl⟩
    · obtain ⟨ds, hoffered, hds⟩ := (Attempt.leaves_run ⟨M, call, n⟩).kept.offered
      dsimp only at hoffered
      rw [hoffered, drop_left] at hd
      obtain ⟨n', hoffers⟩ := hds d hd
      exact absurd hexcess (hn.no_excess hroom hoffers)

end Node.Roomy

/-- Every call of a sequence is made in a state with the property. -/
def Call.Along (M : StateMachine σ) (P : Call → Node σ → Prop) : Node σ → List Call → Prop
  | _, [] => True
  | n, call :: calls => P call n ∧ Along M P ((call.run M).state n) calls

instance Call.decidableAlong (M : StateMachine σ) (P : Call → Node σ → Prop)
    [∀ call n, Decidable (P call n)] : ∀ n calls, Decidable (Call.Along M P n calls)
  | _, [] => inferInstanceAs (Decidable True)
  | n, call :: calls =>
    haveI := decidableAlong M P ((call.run M).state n) calls
    inferInstanceAs (Decidable (_ ∧ _))

/-- The node that is opened on a file store which holds something it has taken. -/
theorem roomy_newNode {config : Config σ} (hopen : newNode M config = .ok n)
    (hfile : config.store.OnFile crc32) (hstored : config.store.state.Fits)
    (hinitial : config.initial.Countable) : n.Roomy crc32 := by
  obtain ⟨machine, -, hsame⟩ := newNode_same hopen
  have heffective : config.effective.Countable := by
    unfold Config.effective
    split
    · rename_i hversion
      exact (hstored.config hversion).normalize
    · exact hinitial.normalize
  refine ⟨hsame.store ▸ hfile, fun hout => ?_, ?_, ?_⟩
  · rw [Node.OutOfRoom, hsame.fatal] at hout
    cases hout
  · intro c hc
    rw [Node.Knows, hsame.configuration, hsame.persistent] at hc
    rcases hc with rfl | rfl | ⟨e, -, -, hdecode⟩
    · exact heffective
    · exact heffective
    · exact Configuration.countable_of_decode hdecode
  · rw [hsame.persistent]
    exact hstored.snapshotConfig

/-- **Growth is refused as long as there is room.**  Take a node on a file store whose file
operations never fail, and any sequence of calls, each of which is either a proposal that is too
large by itself or has room, in the state it is made in, for whatever it may save.  Then no call
stops the node for lack of room, and each one that asks for too much returns an error and leaves the
node usable and its stored state as it was. -/
theorem growth_refused (crc32 : Bytes → ℕ) (M : StateMachine σ) (config : Config σ)
    (n₀ : Node σ) (hopen : newNode M config = .ok n₀) (hfile : config.store.OnFile crc32)
    (hstored : config.store.state.Fits) (hinitial : config.initial.Countable) (calls : List Call)
    (hroom : Call.Along M (fun call n => call.Oversized ∨ call.RoomFor n) n₀ calls) :
    Call.Along M (fun call n => call.Refused M n) n₀ calls := by
  have hroomy := roomy_newNode hopen hfile hstored hinitial
  clear hopen hstored hinitial
  induction calls generalizing n₀ with
  | nil => trivial
  | cons call calls ih =>
    obtain ⟨hrefused, hafter⟩ := hroomy.refused (M := M) hroom.1
    exact ⟨hrefused, ih _ hroom.2 hafter⟩

/-! ### Accepted entries that do not fit -/

namespace Node

variable {d : PersistentState}

/-- A save of a state beyond the limits. -/
theorem wp_save_excess (crc32 : Bytes → ℕ) (hfile : n.store.OnFile crc32) (hd : d.Excess) :
    (save d).wp (fun _ _ => False) (fun _ n' => n'.OutOfRoom) n := by
  simp only [save, wp_bind, wp_get, wp_set]
  rw [hfile.save_err, hd.1, if_neg hd.2, wp_fail]
  rfl

variable {message : Message}

/-- Entries that continue the log of a follower but do not fit its store. -/
theorem followLeader_excess (hfile : n.store.OnFile crc32)
    (hvalid : validateAppend message = .ok ()) (hentries : message.entries ≠ [])
    (hprev : message.prevLogIndex = n.lastIndex)
    (hterm : n.termAt message.prevLogIndex = .ok message.prevLogTerm)
    (hd : PersistentState.Excess
      { n.persistent with entries := n.persistent.entries ++ message.entries }) :
    (followLeader M message).wp (fun _ _ => False) (fun _ n' => n'.OutOfRoom) n := by
  have hsnapshot : ¬ message.prevLogIndex < n.persistent.snapshot.index := fun hlt => by
    rw [termAt, if_neg (by omega), if_pos hlt] at hterm
    cases hterm
  obtain ⟨first, rest, hfirst⟩ := exists_cons_of_ne_nil hentries
  -- the first entry lies just behind the log
  have hindex : first.index = n.lastIndex + 1 := by
    unfold validateAppend at hvalid
    rw [hfirst] at hvalid
    simp only [ite_error_eq_ok, validateAppendLoop, not_or, not_not] at hvalid
    omega
  have hbeyond : n.entryAt first.index = .error .unavailable := by
    rw [entryAt, if_neg (by omega), if_pos (by omega)]
  simp only [followLeader, hvalid, wp_bind, wp_lift_ok, wp_get, hterm,
    wp_ite, hsnapshot, false_implies, not_false_eq_true, true_implies, true_and, ne_eq,
    not_true_eq_false, hfirst, appendLoop, hbeyond, wp_throw, extendLog, wp_modify,
    wp_pure]
  refine ⟨fun hother => absurd hother (by decide), fun _ => ⟨?_, trivial⟩⟩
  rw [← hfirst]
  simp only [persist, wp_bind, wp_get]
  refine wp_mono (wp_save_excess crc32 ?_ ?_) (fun _ _ h => h.elim) fun _ _ h => h
  · exact hfile
  · exact hd

/-- A follower stops when its leader sends what its store cannot hold, though the message is in
order. -/
theorem step_excess (hfile : n.store.OnFile crc32)
    (husable : n.usable = .ok ()) (hto : message.toID = n.id)
    (hfrom : message.fromID ≠ 0 ∧ message.fromID ∈ n.peers)
    (hkind : message.kind = .appendEntries) (hcurrent : message.term = n.term)
    (hrole : n.role ≠ .leader) (hvalid : validateAppend message = .ok ())
    (hentries : message.entries ≠ []) (hprev : message.prevLogIndex = n.lastIndex)
    (hterm : n.termAt message.prevLogIndex = .ok message.prevLogTerm)
    (hd : PersistentState.Excess
      { n.persistent with entries := n.persistent.entries ++ message.entries }) :
    ((step M message).state n).OutOfRoom := by
  -- following the sender changes neither the log nor the store
  have hfollow : ∀ n' : Node σ, n.Same n' →
      (followLeader M message).wp (fun _ _ => False) (fun _ n' => n'.OutOfRoom) n' := by
    intro n' hsame
    have hlast : n'.lastIndex = n.lastIndex := by unfold lastIndex; rw [hsame.persistent]
    have hat : n'.termAt message.prevLogIndex = n.termAt message.prevLogIndex := by
      unfold termAt entryOffset
      rw [hsame.persistent, hlast]
    exact followLeader_excess (hsame.store ▸ hfile) hvalid hentries (hprev.trans hlast.symm)
      (hat.trans hterm) (hsame.persistent ▸ hd)
  have hwp : (step M message).wp (fun _ _ => False) (fun _ n' => n'.OutOfRoom) n := by
    simp only [step, wp_bind, wp_get, husable, wp_lift_ok, wp_ite, hto,
      hfrom.1, hfrom.2, hcurrent, dispatch, hkind, handleAppendEntries, wp_modify, hrole]
    have hreset := same_resetElectionTimer n
    have hfollower := same_becomeFollower (n := n) message.fromID rfl rfl
    simpa using ⟨fun _ => hfollow _ hfollower, fun _ _ => hfollow _ hreset⟩
  exact state_of_wp (wp_mono hwp (fun _ _ h => h.elim) fun _ _ h => h)

end Node

/-- `k` commands of the same content, as the first entries of a log. -/
def batch (command : Bytes) (k : ℕ) : List Entry :=
  (List.range' 1 k).map fun index =>
    { index := index, term := 1, kind := .command, command := command }

section Batch

variable {command : Bytes} (hsize : command.length ≤ maxCommandBytes)

include hsize in
theorem validateEntries_batch (k offset want lastTerm : ℕ) (hterm : lastTerm ≤ 1) :
    (validateEntries 1 offset want lastTerm ((List.range' want k).map fun index =>
      { index := index, term := 1, kind := .command, command := command })).toOption =
        some (if k = 0 then lastTerm else 1) := by
  induction k generalizing offset want lastTerm with
  | zero => rfl
  | succ k ih =>
    simp only [range'_succ, map_cons, validateEntries]
    rw [if_neg (by simp; omega), if_neg (by simp), ih _ _ _ le_rfl]
    simp

include hsize in
theorem validateAppendLoop_batch (k want previousTerm : ℕ) (hterm : previousTerm ≤ 1) :
    Node.validateAppendLoop 1 want previousTerm ((List.range' want k).map fun index =>
      { index := index, term := 1, kind := .command, command := command }) = .ok () := by
  induction k generalizing want previousTerm with
  | zero => rfl
  | succ k ih =>
    simp only [range'_succ, map_cons, Node.validateAppendLoop]
    rw [if_neg (by simp; omega), ih _ _ le_rfl]

theorem entriesLength_batch (command : Bytes) (k : ℕ) :
    entriesLength (batch command k) = k * (24 + command.length) := by
  simp [entriesLength, batch, map_map, Function.comp_def]

variable {c : Configuration}

/-- Sixteen commands of the largest size a proposal may have are valid, and beyond the limits. -/
theorem excess_batch (hfull : command.length = maxCommandBytes) (hc : c.validate = .ok ()) :
    PersistentState.Excess
      { hardState := { term := 1 }, config := c, entries := batch command 16 } := by
  refine ⟨?_, fun hfits => ?_⟩
  · have hentries := validateEntries_batch hfull.le 16 0 1 0 (by omega)
    rcases hloop : validateEntries 1 0 1 0 (batch command 16) with err | last
    · rw [batch] at hloop
      rw [hloop] at hentries
      cases hentries
    · rw [← batch, hloop] at hentries
      simp only [Except.toOption, Option.some.injEq, OfNat.ofNat_ne_zero, if_false] at hentries
      subst hentries
      have hlength : (batch command 16).length = 16 := by simp [batch]
      simp [validatePersistent, hc, Except.isOk, Except.toBool, hloop, hlength, maxUint64,
        maxCommandBytes]
      rfl
  · have hpayload := hfits.payload
    rw [PersistentState.payloadLength, entriesLength_batch, hfull] at hpayload
    simp only [maxCommandBytes, fileStoreMaxBytes, fileStoreHeaderSize] at hpayload
    omega

end Batch

/-- Node `id` of a group of three, on a file store. -/
def trioOnFile (id : NodeID) : Config Unit :=
  { trio id with store := { refuse := FileStore.refuse fun _ => 0 } }

theorem trioOnFile_onFile (id : NodeID) : (trioOnFile id).store.OnFile fun _ => 0 := ⟨rfl, rfl⟩

/-- The leader of term 1 makes itself known. -/
def firstHeartbeat : Message := { kind := .appendEntries, fromID := 2, toID := 1, term := 1 }

/-- A configuration with more voters than its encoding can count. -/
def crowded : Configuration := { version := 2, oldVoters := List.replicate 256 1 }

/-- Node 1 hears of a leader, times out and asks for votes, is elected and gets two proposals, the
second of which is too large. -/
def electAndPropose : List Call :=
  [.step firstHeartbeat, .tick, .tick, .tick,
    .step { kind := .requestVoteResponse, fromID := 3, toID := 1, term := 2, voteGranted := true },
    .propose [1, 2, 3], .proposeConfiguration crowded]

theorem growth_refused_trio :
    ∃ n₀, newNode idle (trioOnFile 1) = .ok n₀ ∧
      (Call.runAll idle n₀ electAndPropose).store.state.entries.length = 2 ∧
      Call.Along idle (fun call n => call.Refused idle n) n₀ electAndPropose := by
  have hrun : (newNode idle (trioOnFile 1)).toOption.map (fun n =>
      ((Call.runAll idle n electAndPropose).store.state.entries.length,
        decide (Call.Along idle (fun call n => call.Oversized ∨ call.RoomFor n) n
          electAndPropose))) = some (2, true) := by decide +kernel
  obtain ⟨n₀, hopen, hshow⟩ := Option.map_eq_some_iff.mp hrun
  obtain ⟨hcount, hroom⟩ := Prod.mk.inj hshow
  exact ⟨n₀, eq_ok_of_toOption hopen, hcount, growth_refused (fun _ => 0) idle (trioOnFile 1) n₀
    (eq_ok_of_toOption hopen) (trioOnFile_onFile 1) (by decide +kernel) (by decide)
    electAndPropose (of_decide_eq_true hroom)⟩

/-- Sixteen equal commands in one message. -/
def sixteenCommands (command : Bytes) : Message :=
  { firstHeartbeat with entries := batch command 16 }

/-- A follower with an empty log accepts sixteen commands of the permitted size and stops. -/
theorem sixteen_commands_stop_follower :
    ∃ n₀ command, newNode idle (trioOnFile 1) = .ok n₀ ∧ command.length = 16 <<< 20 ∧
      Node.validateAppend (sixteenCommands command) = .ok () ∧
      (Call.runAll idle n₀ [.step firstHeartbeat, .step (sixteenCommands command)]).OutOfRoom ∧
      ¬ Call.Refused idle (.step (sixteenCommands command))
        (Call.runAll idle n₀ [.step firstHeartbeat]) := by
  have hrun : (newNode idle (trioOnFile 1)).toOption.map (fun n₀ =>
      let n := Call.runAll idle n₀ [.step firstHeartbeat]
      ((n.usable, n.role), (n.id, n.peers), n.persistent)) =
      some ((.ok (), .follower), (1, [1, 2, 3]),
        { hardState := { term := 1 }, config := { version := 1, oldVoters := [1, 2, 3] } }) := by
    decide +kernel
  obtain ⟨n₀, hopen, hshow⟩ := Option.map_eq_some_iff.mp hrun
  have hopen := eq_ok_of_toOption hopen
  obtain ⟨command, hlength⟩ : ∃ command : Bytes, command.length = maxCommandBytes :=
    ⟨List.replicate _ 0, length_replicate⟩
  have hstep : Call.runAll idle n₀ [.step firstHeartbeat, .step (sixteenCommands command)] =
      (Node.step idle (sixteenCommands command)).state
        (Call.runAll idle n₀ [.step firstHeartbeat]) := rfl
  have hfile : (Call.runAll idle n₀ [.step firstHeartbeat]).store.OnFile fun _ => 0 := by
    have hroomy := roomy_newNode hopen (trioOnFile_onFile 1) (by decide +kernel) (by decide)
    have hkept := (Attempt.leaves_run ⟨idle, .step firstHeartbeat, n₀⟩).kept
    exact ⟨hkept.refuse.trans hroomy.file.refuse, hkept.saveErr.trans hroomy.file.saveErr⟩
  refine ⟨n₀, command, hopen, hlength, ?_⟩
  rw [hstep]
  unfold Call.Refused Call.run
  generalize Call.runAll idle n₀ [.step firstHeartbeat] = n at hshow hfile ⊢
  simp only [Prod.mk.injEq] at hshow
  obtain ⟨⟨husable, hrole⟩, ⟨hid, hpeers⟩, hpersistent⟩ := hshow
  have hvalid : Node.validateAppend (sixteenCommands command) = .ok () := by
    rw [Node.validateAppend, if_neg (by simp [sixteenCommands, firstHeartbeat, batch, maxUint64])]
    exact validateAppendLoop_batch hlength.le 16 1 0 (by omega)
  have hout : ((Node.step idle (sixteenCommands command)).state n).OutOfRoom := by
    refine Node.step_excess hfile husable hid.symm ?_ rfl ?_ ?_ hvalid ?_ ?_ ?_ ?_
    · rw [hpeers]
      exact ⟨(by decide : (2 : NodeID) ≠ 0), (by decide : (2 : NodeID) ∈ [1, 2, 3])⟩
    · rw [Node.term, hpersistent]
      rfl
    · rw [hrole]
      decide
    · simp [sixteenCommands, batch]
    · simp [Node.lastIndex, hpersistent, sixteenCommands, firstHeartbeat]
    · simp [Node.termAt, hpersistent, sixteenCommands, firstHeartbeat]
    · rw [hpersistent]
      exact excess_batch hlength (by decide +kernel)
  exact ⟨hvalid, hout, fun hrefused => hrefused.1 hout⟩

end RivetDB.Raft
