import RivetDB.Codec.Bytes
import Mathlib.Data.List.Nodup
import Mathlib.Tactic.Common

/-!
# Versions of keys and which one a read selects

A stored entry is a version of a user key: a sequence number, a kind and a value.
The internal key is the triple of user key, sequence and kind; it orders the
versions of one key newest first and, at one sequence, by kind.

A read at a target takes the newest version at or below it, the smallest kind
first, and steps over a sequence that an abort marker hides.  `Exposes` is that
rule, stated for any collection of versions.
-/

namespace RivetDB.Storage

/-- `ValueKind`, in the order of its numeric values. -/
inductive Kind where
  | delete
  | value
  | txnAbort
  | intent
deriving DecidableEq, Repr

namespace Kind

/-- The numeric value of a kind. -/
def rank : Kind → ℕ
  | .delete => 0
  | .value => 1
  | .txnAbort => 2
  | .intent => 3

def toByte (kind : Kind) : UInt8 := kind.rank.toUInt8

/-- The kinds that are `valid`. -/
def ofByte : UInt8 → Option Kind
  | 0 => some .delete
  | 1 => some .value
  | 2 => some .txnAbort
  | 3 => some .intent
  | _ => none

theorem ofByte_toByte (kind : Kind) : ofByte kind.toByte = some kind := by
  cases kind <;> decide

/-- `CarriesValue`. -/
def carriesValue (k : Kind) : Bool := k = .value || k = .intent

theorem rank_inj {k k' : Kind} (h : k.rank = k'.rank) : k = k' := by
  cases k <;> cases k' <;> first | rfl | (simp [rank] at h)

end Kind

/-- `CompareInternal` behind the user keys: the sequence descending, then the kind ascending. -/
def compareTrailers {α : Type} [LT α] [DecidableLT α] (a : α × Kind) (b : α × Kind) : Ordering :=
  if b.1 < a.1 then .lt
  else if a.1 < b.1 then .gt
  else if a.2.rank < b.2.rank then .lt
  else if b.2.rank < a.2.rank then .gt
  else .eq

/-- `InternalKey`. -/
structure InternalKey where
  userKey : Bytes := []
  sequence : UInt64 := 0
  kind : Kind := .delete
deriving DecidableEq, Repr

/-- `CompareInternal`. -/
def compareInternal (a b : InternalKey) : Ordering :=
  if a.userKey < b.userKey then .lt
  else if b.userKey < a.userKey then .gt
  else compareTrailers (a.sequence, a.kind) (b.sequence, b.kind)

def internalKeyTrailerLen : ℕ := 9

/-- `Encode`. -/
def InternalKey.encode (k : InternalKey) : Bytes :=
  k.userKey ++ (Codec.putBE 8 (~~~k.sequence).toNat ++ [k.kind.toByte])

@[simp] theorem InternalKey.length_encode (k : InternalKey) :
    k.encode.length = k.userKey.length + internalKeyTrailerLen := by
  simp [encode, internalKeyTrailerLen]

/-- One stored entry. -/
structure Version where
  key : Bytes
  seq : ℕ
  kind : Kind
  value : Bytes := []
deriving DecidableEq, Repr

namespace Version

/-- The internal key: what makes an entry unique in a table. -/
def internal (v : Version) : Bytes × ℕ × Kind := (v.key, v.seq, v.kind)

/-- The order of versions of one user key. -/
def before (v w : Version) : Bool := compareTrailers (v.seq, v.kind) (w.seq, w.kind) = .lt

variable {v w : Version}

theorem before_iff : v.before w ↔ w.seq < v.seq ∨ v.seq = w.seq ∧ v.kind.rank < w.kind.rank := by
  simp only [before, decide_eq_true_eq, compareTrailers]
  split_ifs <;> simp <;> omega

theorem before_total (hkey : v.key = w.key) (hne : v.internal ≠ w.internal) :
    v.before w ∨ w.before v := by
  rw [before_iff, before_iff]
  have hrank : v.seq = w.seq → v.kind.rank ≠ w.kind.rank := fun heq hr =>
    hne (by simp [internal, hkey, heq, Kind.rank_inj hr])
  omega

theorem before_trans {u v w : Version} (h : u.before v) (h' : v.before w) : u.before w := by
  rw [before_iff] at h h' ⊢
  omega

theorem not_before_self (v : Version) : v.before v = false := by
  rw [← Bool.not_eq_true, before_iff]
  omega

theorem before_asymm (h : v.before w) : w.before v = false := by
  rw [← Bool.not_eq_true, before_iff]
  rw [before_iff] at h
  omega

end Version

/-! ### The selected version -/

/-- No internal key occurs twice. -/
def Distinct (V : List Version) : Prop := (V.map Version.internal).Nodup

instance (V : List Version) : Decidable (Distinct V) := List.nodupDecidable _

/-- `v` is the first version of `key` at or below `target`. -/
structure Top (V : List Version) (key : Bytes) (target : ℕ) (v : Version) : Prop where
  mem : v ∈ V
  keyed : v.key = key
  le : v.seq ≤ target
  first : ∀ w ∈ V, w.key = key → w.seq ≤ target → w = v ∨ v.before w

/-- An abort marker hides the versions of `key` at `seq`. -/
def Hidden (V : List Version) (key : Bytes) (seq : ℕ) : Prop :=
  ∃ v, Top V key seq v ∧ v.seq = seq ∧ v.kind = .txnAbort

/-- A read of `key` at `target` selects `v`. -/
structure Exposes (V : List Version) (key : Bytes) (target : ℕ) (v : Version) : Prop where
  top : Top V key v.seq v
  le : v.seq ≤ target
  kind : v.kind ≠ .txnAbort
  newer : ∀ w ∈ V, w.key = key → v.seq < w.seq → w.seq ≤ target → Hidden V key w.seq

variable {V W : List Version} {key : Bytes} {target : ℕ} {v w : Version}

theorem Top.unique (h : Top V key target v) (h' : Top V key target w) : v = w := by
  rcases h.first w h'.mem h'.keyed h'.le with heq | hlt
  · exact heq.symm
  rcases h'.first v h.mem h.keyed h.le with heq | hlt'
  · exact heq
  · rw [Version.before_asymm hlt] at hlt'
    cases hlt'

/-- The first version below a target is the first one at its own sequence. -/
theorem Top.own (h : Top V key target v) : Top V key v.seq v :=
  ⟨h.mem, h.keyed, Nat.le_refl _, fun w hw hk hle => h.first w hw hk (hle.trans h.le)⟩

theorem Exposes.unique (h : Exposes V key target v) (h' : Exposes V key target w) : v = w := by
  have absurd_newer : ∀ {v w : Version}, Exposes V key target v → Exposes V key target w →
      ¬ v.seq < w.seq := by
    intro v w h h' hlt
    obtain ⟨a, htop, -, hkind⟩ := h.newer w h'.top.mem h'.top.keyed hlt h'.le
    rw [htop.unique h'.top] at hkind
    exact h'.kind hkind
  rcases Nat.lt_trichotomy v.seq w.seq with hlt | heq | hgt
  · exact absurd hlt (absurd_newer h h')
  · have htop := h'.top
    rw [← heq] at htop
    exact h.top.unique htop
  · exact absurd hgt (absurd_newer h' h)

/-- A read steps over the sequence of an abort marker. -/
theorem Top.exposes_below (h : Top V key target v) (hkind : v.kind = .txnAbort) :
    Exposes V key target w ↔ w.seq < v.seq ∧ Exposes V key (v.seq - 1) w := by
  constructor
  · intro hw
    have hlt : w.seq < v.seq := by
      have hle : w.seq ≤ v.seq := by
        rcases h.first w hw.top.mem hw.top.keyed hw.le with rfl | hbefore
        · exact Nat.le_refl _
        · rw [Version.before_iff] at hbefore
          omega
      refine Nat.lt_of_le_of_ne hle fun heq => hw.kind ?_
      have htop := hw.top
      rw [heq] at htop
      rw [htop.unique h.own, hkind]
    refine ⟨hlt, hw.top, by omega, hw.kind, fun u hu hk hlt' hle => ?_⟩
    exact hw.newer u hu hk hlt' (by have := h.le; omega)
  · rintro ⟨hlt, hw⟩
    refine ⟨hw.top, by have := h.le; omega, hw.kind, fun u hu hk hlt' hle => ?_⟩
    rcases h.first u hu hk hle with rfl | hbefore
    · exact ⟨u, h.own, rfl, hkind⟩
    · rw [Version.before_iff] at hbefore
      by_cases hseq : u.seq = v.seq
      · exact ⟨v, hseq ▸ h.own, hseq.symm, hkind⟩
      · exact hw.newer u hu hk hlt' (by omega)

/-- The first version below a target is selected, unless it is an abort marker. -/
theorem Top.exposes (h : Top V key target v) (hkind : v.kind ≠ .txnAbort) :
    Exposes V key target v := by
  refine ⟨h.own, h.le, hkind, fun w hw hk hlt hle => ?_⟩
  rcases h.first w hw hk hle with rfl | hbefore
  · omega
  · rw [Version.before_iff] at hbefore
    omega

/-- Selection looks at the versions of one key only. -/
theorem Top.congr_key (h : ∀ u, u.key = key → (u ∈ V ↔ u ∈ W)) (hv : Top V key target v) :
    Top W key target v :=
  ⟨(h v hv.keyed).mp hv.mem, hv.keyed, hv.le,
    fun w hw hk hle => hv.first w ((h w hk).mpr hw) hk hle⟩

theorem Exposes.congr_key (h : ∀ u, u.key = key → (u ∈ V ↔ u ∈ W)) :
    Exposes V key target v ↔ Exposes W key target v := by
  have one : ∀ {V W : List Version}, (∀ u, u.key = key → (u ∈ V ↔ u ∈ W)) →
      Exposes V key target v → Exposes W key target v := by
    intro V W h hv
    refine ⟨hv.top.congr_key h, hv.le, hv.kind, fun w hw hk hlt hle => ?_⟩
    obtain ⟨a, htop, hseq, hkind⟩ := hv.newer w ((h w hk).mpr hw) hk hlt hle
    exact ⟨a, htop.congr_key h, hseq, hkind⟩
  exact ⟨one h, one fun u hu => (h u hu).symm⟩

/-- Nor does it look at how they are arranged. -/
theorem Top.congr (hVW : ∀ u, u ∈ V ↔ u ∈ W) (h : Top V key target v) : Top W key target v :=
  h.congr_key fun u _ => hVW u

theorem Exposes.congr (hVW : ∀ u, u ∈ V ↔ u ∈ W) (h : Exposes V key target v) :
    Exposes W key target v :=
  (Exposes.congr_key fun u _ => hVW u).mp h

theorem not_exposes_nil : ¬ Exposes [] key target v := fun h => by simpa using h.top.mem

end RivetDB.Storage
