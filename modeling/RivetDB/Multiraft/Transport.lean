import RivetDB.Multiraft.Node

/-!
# The shared transport

`transport.go`: one bounded queue for the messages of all ranges.  `Take` serves the first envelope
of another range than the one it served last, and the first envelope of all if there is no such
one.  It may therefore pass over a whole front of the queue, but then that front is of one range
and the next envelope served is of another; so of any two envelopes served, one comes from the
front.

Envelopes are values here, so the copies that `cloneEnvelope` makes are the envelopes themselves.
-/

namespace RivetDB.Multiraft

open List

inductive TransportError where
  | envelope (cause : NodeError)
  | transportStopped
  | resourceLimit
deriving DecidableEq, Repr

/-- `transportStats`. -/
structure TransportStats where
  sent : UInt64 := 0
  delivered : UInt64 := 0
  dropped : UInt64 := 0
deriving DecidableEq, Repr

/-- `Transport`.  A link that is not in its map is not blocked. -/
structure Transport where
  pending : List Envelope := []
  maximum : ℕ
  lastRange : ℕ := 0
  nodeLinks : Raft.NodeID × Raft.NodeID → Bool := fun _ => false
  rangeLinks : ℕ × Raft.NodeID × Raft.NodeID → Bool := fun _ => false
  stopped : Bool := false
  stats : TransportStats := {}

namespace Transport

def drop (t : Transport) : Transport :=
  { t with stats := { t.stats with dropped := t.stats.dropped + 1 } }

/-- `Send`. -/
def send (t : Transport) (e : Envelope) : Except TransportError Unit × Transport :=
  match validateEnvelope e with
  | .error err => (.error (.envelope err), t)
  | .ok () =>
    if t.stopped then (.error .transportStopped, t)
    else if t.nodeLinks (e.message.fromID, e.message.toID) then (.ok (), t.drop)
    else if t.rangeLinks (e.rangeID, e.message.fromID, e.message.toID) then (.ok (), t.drop)
    else if t.pending.length ≥ t.maximum then (.error .resourceLimit, t)
    else (.ok (), { t with
      pending := t.pending ++ [e]
      stats := { t.stats with sent := t.stats.sent + 1 } })

/-- The loop of `Take`. -/
def position (t : Transport) : ℕ := (t.pending.findIdx? (·.rangeID ≠ t.lastRange)).getD 0

/-- `Take`. -/
def take (t : Transport) : Option Envelope × Transport :=
  if t.stopped then (none, t)
  else
    match t.pending[t.position]? with
    | none => (none, t)
    | some result => (some result, { t with
        pending := t.pending.eraseIdx t.position
        lastRange := result.rangeID
        stats := { t.stats with delivered := t.stats.delivered + 1 } })

/-! ### Runs -/

inductive Call where
  | send (e : Envelope)
  | take

/-- What calls have accepted and taken, and the transport they leave. -/
structure Outcome where
  accepted : List Envelope
  taken : List Envelope
  final : Transport

def run : Transport → List Call → Outcome
  | t, [] => ⟨[], [], t⟩
  | t, .send e :: rest =>
    let outcome := (t.send e).2.run rest
    { outcome with accepted := (if (t.send e).1 = .ok () then [e] else []) ++ outcome.accepted }
  | t, .take :: rest =>
    let outcome := t.take.2.run rest
    { outcome with taken := t.take.1.toList ++ outcome.taken }

/-- The transport is not stopped and none of its links is blocked. -/
structure Open (t : Transport) : Prop where
  running : t.stopped = false
  nodes : ∀ link, t.nodeLinks link = false
  ranges : ∀ link, t.rangeLinks link = false

variable {t : Transport} {e : Envelope}

/-- What is sent is put at the end of the queue, or nothing happens. -/
theorem send_cases (h : t.Open) (e : Envelope) :
    (t.send e).2.Open ∧ (t.send e).2.lastRange = t.lastRange ∧
      ((t.send e).1 = .ok () ∧ (t.send e).2.pending = t.pending ++ [e] ∨
        (t.send e).1 ≠ .ok () ∧ (t.send e).2.pending = t.pending) := by
  unfold send
  rcases validateEnvelope e with err | ⟨⟩
  · exact ⟨h, rfl, .inr ⟨nofun, rfl⟩⟩
  · simp only [h.running, h.nodes, h.ranges, Bool.false_eq_true, if_false]
    split_ifs
    · exact ⟨h, rfl, .inr ⟨nofun, rfl⟩⟩
    · exact ⟨⟨rfl, h.nodes, h.ranges⟩, rfl, .inl ⟨rfl, rfl⟩⟩

/-- What is taken has only envelopes of the last range in front of it; it is itself of that
range only if the whole queue is. -/
theorem take_cases (h : t.Open) : t.take.2.Open ∧
    (t.pending = [] ∧ t.take = (none, t) ∨
      ∃ front x back, t.pending = front ++ x :: back ∧ t.take.1 = some x ∧
        t.take.2.pending = front ++ back ∧ t.take.2.lastRange = x.rangeID ∧
        (∀ y ∈ front, y.rangeID = t.lastRange) ∧
        (x.rangeID = t.lastRange → front = [])) := by
  have hposition : t.pending = [] ∧ t.pending[t.position]? = none ∨
      ∃ front x back, t.pending = front ++ x :: back ∧ t.position = front.length ∧
        (∀ y ∈ front, y.rangeID = t.lastRange) ∧ (x.rangeID = t.lastRange → front = []) := by
    unfold position
    cases hfind : t.pending.findIdx? (·.rangeID ≠ t.lastRange) with
    | none =>
      cases hpending : t.pending with
      | nil => exact .inl ⟨rfl, rfl⟩
      | cons x back => exact .inr ⟨[], x, back, rfl, rfl, nofun, fun _ => rfl⟩
    | some i =>
      obtain ⟨hi, hother, hfront⟩ := findIdx?_eq_some_iff_getElem.mp hfind
      refine .inr ⟨t.pending.take i, t.pending[i], t.pending.drop (i + 1), ?_, ?_, ?_, ?_⟩
      · rw [cons_getElem_drop_succ, take_append_drop]
      · rw [length_take_of_le hi.le]
        rfl
      · intro y hy
        obtain ⟨j, hj, rfl⟩ := getElem_of_mem hy
        rw [getElem_take]
        rw [length_take] at hj
        simpa using hfront j (by omega)
      · exact fun heq => absurd heq (by simpa using hother)
  unfold take
  rw [if_neg (by simp [h.running])]
  rcases hposition with ⟨hempty, hnone⟩ | ⟨front, x, back, hpending, hlength, hfront, hx⟩
  · rw [hnone]
    exact ⟨h, .inl ⟨hempty, rfl⟩⟩
  · have hget : t.pending[t.position]? = some x := by
      rw [hpending, hlength, getElem?_append_right (Nat.le_refl _), Nat.sub_self]
      rfl
    rw [hget]
    refine ⟨{ h with },
      .inr ⟨front, x, back, hpending, rfl, ?_, rfl, hfront, hx⟩⟩
    show t.pending.eraseIdx t.position = _
    rw [hpending, hlength, eraseIdx_append_of_length_le (Nat.le_refl _), Nat.sub_self]
    rfl

section Taken

variable {front : List Envelope} {x : Envelope} {last : ℕ}
  (hfront : ∀ y ∈ front, y.rangeID = last) (hx : x.rangeID = last → front = [])

include hfront hx

/-- Nothing of the range of an envelope that is taken was in front of it. -/
theorem filter_front : front.filter (·.rangeID = x.rangeID) = [] := by
  refine filter_eq_nil_iff.mpr fun y hy => ?_
  rw [decide_eq_true_eq, hfront y hy]
  intro heq
  rw [hx heq.symm] at hy
  cases hy

theorem filter_taken (back : List Envelope) (r : ℕ) :
    (front ++ x :: back).filter (·.rangeID = r) =
      [x].filter (·.rangeID = r) ++ (front ++ back).filter (·.rangeID = r) := by
  by_cases hr : x.rangeID = r
  · subst hr
    simp [filter_append, filter_front hfront hx]
  · simp [filter_append, hr]

end Taken

/-- Range by range, what was taken and what is left are what was there and what was accepted. -/
theorem run_ordered (h : t.Open) (calls : List Call) :
    (t.run calls).final.Open ∧ ∀ r,
      ((t.run calls).taken ++ (t.run calls).final.pending).filter (·.rangeID = r) =
        (t.pending ++ (t.run calls).accepted).filter (·.rangeID = r) := by
  induction calls generalizing t with
  | nil => exact ⟨h, fun r => by simp [run]⟩
  | cons call rest ih =>
    cases call with
    | send e =>
      obtain ⟨hopen, -, ⟨hok, hpending⟩ | ⟨hrefused, hpending⟩⟩ := send_cases h e
      · refine ⟨(ih hopen).1, fun r => ((ih hopen).2 r).trans ?_⟩
        simp [run, hok, hpending]
      · refine ⟨(ih hopen).1, fun r => ((ih hopen).2 r).trans ?_⟩
        simp [run, hrefused, hpending]
    | take =>
      obtain ⟨hopen, ⟨-, htake⟩ | ⟨front, x, back, hpending, htaken, hleft, -, hfront, hx⟩⟩ :=
        take_cases h
      · rw [run, htake]
        exact ih h
      · refine ⟨(ih hopen).1, fun r => ?_⟩
        have hrest := (ih hopen).2 r
        rw [hleft] at hrest
        simp only [run, htaken, Option.toList_some]
        rw [append_assoc, filter_append, hrest, hpending, append_assoc,
          append_assoc, cons_append, filter_taken hfront hx]

/-- How many envelopes may be taken until `e` is, with `front` in front of it. -/
def patience (front : List Envelope) (e : Envelope) (lastRange : ℕ) : ℕ :=
  if ∀ y ∈ front ++ [e], y.rangeID = lastRange then 2 * (front.length + 1)
  else 2 * front.length + 1

/-- An envelope is taken before the patience is used up, behind those of its range that were in
front of it. -/
theorem taken_of_patience {front back : List Envelope} (h : t.Open)
    (hpending : t.pending = front ++ e :: back) {calls : List Call}
    (hcalls : patience front e t.lastRange ≤ (t.run calls).taken.length) :
    (front ++ [e]).filter (·.rangeID = e.rangeID) <+:
      (t.run calls).taken.filter (·.rangeID = e.rangeID) := by
  induction calls generalizing t front back with
  | nil =>
    simp only [run, patience, length_nil] at hcalls
    split_ifs at hcalls <;> omega
  | cons call rest ih =>
    cases call with
    | send e' =>
      obtain ⟨hopen, hlast, ⟨-, hsent⟩ | ⟨-, hsent⟩⟩ := send_cases h e'
      · exact ih hopen (by rw [hsent, hpending, append_assoc, cons_append]) (hlast ▸ hcalls)
      · exact ih hopen (hsent.trans hpending) (hlast ▸ hcalls)
    | take =>
      obtain ⟨hopen, ⟨hempty, -⟩ | ⟨f, x, b, hqueue, htaken, hleft, hlast, hfront, hx⟩⟩ :=
        take_cases h
      · rw [hempty] at hpending
        exact absurd hpending (by simp)
      simp only [run, htaken, Option.toList_some, length_append, length_singleton] at hcalls ⊢
      rw [hqueue] at hpending
      rw [filter_append [x]]
      have hself : f = front → x = e →
          (front ++ [e]).filter (·.rangeID = e.rangeID) <+: [x].filter (·.rangeID = e.rangeID) ++
            (t.take.2.run rest).taken.filter (·.rangeID = e.rangeID) := by
        rintro rfl rfl
        rw [filter_append, filter_front hfront hx, nil_append]
        exact prefix_append _ _
      rcases append_eq_append_iff.mp hpending with ⟨m, hf, hm⟩ | ⟨m, hf, hm⟩
      · cases m with
        | nil => exact hself (by simpa using hf.symm) (List.cons.inj hm).1
        | cons y m =>
          -- an envelope in front of `e` is taken
          obtain ⟨rfl, rfl⟩ := List.cons.inj hm
          subst hf
          have hle : patience (f ++ m) e t.take.2.lastRange ≤ (t.take.2.run rest).taken.length := by
            unfold patience at hcalls ⊢
            simp only [length_append, length_cons] at hcalls ⊢
            split_ifs at hcalls ⊢ <;> omega
          have := ih hopen (hleft.trans (append_assoc f m _).symm) hle
          rw [append_assoc, cons_append, filter_taken hfront hx, ← append_assoc]
          exact (prefix_append_right_inj _).mpr this
      · cases m with
        | nil => exact hself (by simpa using hf) (List.cons.inj hm).1.symm
        | cons y m =>
          -- `e` is passed over, which it is not next time
          obtain ⟨rfl, rfl⟩ := List.cons.inj hm
          subst hf
          have hother : e.rangeID ≠ x.rangeID := fun heq => by
            simpa using hx (heq ▸ hfront e (by simp))
          have hle : patience front e t.take.2.lastRange ≤ (t.take.2.run rest).taken.length := by
            unfold patience at hcalls ⊢
            rw [if_pos fun y hy => hfront y (by simp at hy ⊢; tauto)] at hcalls
            rw [hlast, if_neg fun hall => hother (hall e (by simp))]
            omega
          have := ih hopen (by rw [hleft, append_assoc, cons_append]) hle
          simpa [hother.symm] using this

/-- An open transport stays open, and passes on what it accepts unchanged, once, and in order range
by range; and an envelope sent behind `k` others is taken, after all of its range that were in the
queue before it, when `2 (k + 1)` more envelopes are. -/
theorem open_transport_in_order_and_fair (h : t.Open) (calls : List Call) :
    (t.run calls).final.Open ∧
    (∀ r, ((t.run calls).taken ++ (t.run calls).final.pending).filter (·.rangeID = r) =
      (t.pending ++ (t.run calls).accepted).filter (·.rangeID = r)) ∧
    ∀ e, (t.send e).1 = .ok () →
      2 * (t.pending.length + 1) ≤ ((t.send e).2.run calls).taken.length →
      (t.pending ++ [e]).filter (·.rangeID = e.rangeID) <+:
        ((t.send e).2.run calls).taken.filter (·.rangeID = e.rangeID) := by
  obtain ⟨hfinal, hordered⟩ := run_ordered h calls
  refine ⟨hfinal, hordered, fun e hok hlong => ?_⟩
  obtain ⟨hopen, -, ⟨-, hpending⟩ | ⟨hrefused, -⟩⟩ := send_cases h e
  · refine taken_of_patience hopen hpending (le_trans ?_ hlong)
    unfold patience
    split_ifs <;> omega
  · exact absurd hok hrefused

/-- A message of a range, in one of its generations. -/
def hello (r generation : ℕ) : Envelope :=
  { rangeID := r, messageRangeID := r, generation := generation
    descriptorFingerprint := Digest.copy [1], fromReplica := 1, toReplica := 2
    message := { kind := .appendEntries, fromID := 1, toID := 2, term := 1 } }

/-- A queue of two ranges, of which range 1 was served last. -/
def busy : Transport :=
  { maximum := 4, pending := [hello 1 1, hello 2 1, hello 1 2], lastRange := 1 }

/-- Range 2 sends an envelope after each one that is taken. -/
def traffic : List Call := (List.range 8).flatMap fun k => [.take, .send (hello 2 (k + 2))]

theorem hello_taken : [hello 1 1, hello 1 2, hello 1 3] <+:
    ((busy.send (hello 1 3)).2.run traffic).taken.filter (·.rangeID = 1) :=
  (open_transport_in_order_and_fair (t := busy) ⟨rfl, fun _ => rfl, fun _ => rfl⟩
    traffic).2.2 (hello 1 3) (by decide) (by decide +kernel)

end Transport

end RivetDB.Multiraft
