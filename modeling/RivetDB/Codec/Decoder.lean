import RivetDB.Codec.Bytes
import RivetDB.Program.Prog

/-!
# Decoders that walk over a byte string

A decoder takes fields from the front of a byte string and leaves the rest.  `Reads x e a`
says that `x` turns the encoding `e`, whatever follows it, into `a`; a format is read back by
joining the facts about its fields.  `Yields x P` says the opposite of a decoder that is given
arbitrary bytes: whatever it accepts satisfies `P`.
-/

namespace RivetDB

open List
open Codec (putLE getLE)

/-- A reader of a prefix of its input. -/
abbrev Decoder (ε α : Type) := StateT Bytes (Except ε) α

namespace Decoder

variable {ε α β : Type}

/-- The next `n` bytes. -/
def take (err : ε) (n : ℕ) : Decoder ε Bytes := fun data =>
  if data.length < n then .error err else .ok (data.take n, data.drop n)

/-- A little-endian integer of `k` bytes. -/
def uint (err : ε) (k : ℕ) : Decoder ε ℕ := do
  let field ← take err k
  return getLE field

/-- A byte string behind its length, which may not exceed `limit`. -/
def bytes (err : ε) (limit : ℕ) : Decoder ε Bytes := do
  let n ← uint err 4
  if n > limit then throw err else take err n

/-- As many items as a count says. -/
def many (x : Decoder ε α) : ℕ → Decoder ε (List α)
  | 0 => pure []
  | n + 1 => do
      let a ← x
      let rest ← many x n
      return a :: rest

/-- As many items as a count says, none under a key in `seen` or under one taken before. -/
def distinct {κ : Type} [DecidableEq κ] (err : ε) (key : α → κ) (x : Decoder ε α) :
    ℕ → List κ → Decoder ε (List α)
  | 0, _ => pure []
  | n + 1, seen => do
      let a ← x
      if key a ∈ seen then throw err
      else do
        let rest ← distinct err key x n (key a :: seen)
        return a :: rest

/-- Whatever follows it, the encoding is read as `a`. -/
def Reads (x : Decoder ε α) (encoding : Bytes) (a : α) : Prop :=
  ∀ rest, x.run (encoding ++ rest) = .ok (a, rest)

namespace Reads

variable {x : Decoder ε α} {f : α → Decoder ε β} {e e' : Bytes} {a : α} {b : β} {err : ε}

theorem pure (a : α) : Reads (Pure.pure a : Decoder ε α) [] a := fun _ => rfl

/-- A sequence reads the encodings one after the other. -/
theorem bind (hx : Reads x e a) (hf : Reads (f a) e' b) : Reads (x >>= f) (e ++ e') b := by
  intro rest
  rw [StateT.run_bind, append_assoc, hx]
  exact hf rest

/-- The last step of a decoder reads nothing. -/
theorem bind_last (hx : Reads x e a) (hf : Reads (f a) [] b) : Reads (x >>= f) e b := by
  intro rest
  rw [StateT.run_bind, hx]
  exact hf rest

variable {y : Decoder ε α}

theorem ite {c : Prop} [Decidable c] (hc : ¬ c) (h : Reads y e a) :
    Reads (if c then throw err else y) e a := by
  rwa [if_neg hc]

theorem take {b : Bytes} {n : ℕ} (h : b.length = n) : Reads (Decoder.take err n) b b := by
  intro rest
  subst h
  show (if (b ++ rest).length < b.length then Except.error err
    else Except.ok ((b ++ rest).take b.length, (b ++ rest).drop b.length)) = _
  rw [if_neg (by simp), take_left, drop_left]

theorem uint {k n : ℕ} (h : n < 256 ^ k) : Reads (Decoder.uint err k) (putLE k n) n := by
  intro rest
  have hread : Reads (Decoder.uint err k) (putLE k n) (getLE (putLE k n)) :=
    (take (Codec.length_putLE k n)).bind_last (pure _)
  rw [hread, Codec.getLE_putLE_of_lt h]

theorem bytes {b : Bytes} {limit : ℕ} (hlimit : limit < 2 ^ 32) (h : b.length ≤ limit) :
    Reads (Decoder.bytes err limit) (putLE 4 b.length ++ b) b := by
  refine bind (uint ?_) (ite (by omega) (take rfl))
  omega

/-- A list of items that are each read back as their image under `g`. -/
theorem many_map {g : β → α} {l : List β} {encode : β → Bytes}
    (h : ∀ b ∈ l, Reads x (encode b) (g b)) :
    Reads (Decoder.many x l.length) (l.flatMap encode) (l.map g) := by
  induction l with
  | nil => exact pure []
  | cons b l ih =>
    refine bind (h b mem_cons_self) ?_
    exact (ih fun c hc => h c (mem_cons_of_mem _ hc)).bind_last (pure _)

variable {l : List α} {encode : α → Bytes}

/-- A list of items that are each read back. -/
theorem many (h : ∀ a ∈ l, Reads x (encode a) a) :
    Reads (Decoder.many x l.length) (l.flatMap encode) l := by
  have hmany := many_map (g := id) h
  rwa [map_id] at hmany

/-- A single byte. -/
theorem byte (b : UInt8) : Reads (Decoder.uint err 1) [b] b.toNat := by
  have hsize : ([b] : Bytes).length = 1 := rfl
  have hbyte : getLE [b] = b.toNat := by simp [getLE]
  refine (take hsize).bind_last ?_
  exact pure _

/-- A list of items under distinct keys, each of them read back. -/
theorem distinct {κ : Type} [DecidableEq κ] {key : α → κ}
    (h : ∀ a ∈ l, Reads x (encode a) a) {seen : List κ} (hkeys : (l.map key).Nodup)
    (hfresh : ∀ a ∈ l, key a ∉ seen) :
    Reads (Decoder.distinct err key x l.length seen) (l.flatMap encode) l := by
  induction l generalizing seen with
  | nil => exact pure []
  | cons a l ih =>
    rw [map_cons, nodup_cons] at hkeys
    refine bind (h a mem_cons_self) (ite (hfresh a mem_cons_self) ?_)
    refine (ih (fun b hb => h b (mem_cons_of_mem _ hb)) hkeys.2 fun b hb hmem => ?_).bind_last
      (pure _)
    rcases mem_cons.mp hmem with heq | hmem
    · exact hkeys.1 (heq ▸ mem_map_of_mem hb)
    · exact hfresh b (mem_cons_of_mem _ hb) hmem

end Reads

/-- Whatever follows it, the encoding is refused. -/
def Fails (x : Decoder ε α) (encoding : Bytes) : Prop :=
  ∀ rest, ∃ err, x.run (encoding ++ rest) = .error err

namespace Fails

variable {x : Decoder ε α} {f : α → Decoder ε β} {e e' : Bytes} {a : α} {err : ε}

theorem throw (err : ε) : Fails (MonadExcept.throw err : Decoder ε α) e := fun _ => ⟨err, rfl⟩

/-- The first decoder of a sequence fails. -/
theorem first (hx : Fails x e) : Fails (x >>= f) (e ++ e') := by
  intro rest
  obtain ⟨err, herr⟩ := hx (e' ++ rest)
  refine ⟨err, ?_⟩
  rw [StateT.run_bind, append_assoc, herr]
  rfl

/-- The first decoder of a sequence succeeds, and what follows fails. -/
theorem bind (hx : Reads x e a) (hf : Fails (f a) e') : Fails (x >>= f) (e ++ e') := by
  intro rest
  obtain ⟨err, herr⟩ := hf rest
  refine ⟨err, ?_⟩
  rw [StateT.run_bind, append_assoc, hx]
  exact herr

variable {y : Decoder ε α}

theorem ite {c : Prop} [Decidable c] (h : ¬ c → Fails y e) :
    Fails (if c then MonadExcept.throw err else y) e := by
  by_cases hc : c
  · rw [if_pos hc]
    exact throw err
  · rw [if_neg hc]
    exact h hc

/-- One item of a list is refused, and those before it are read back. -/
theorem distinct {encode : α → Bytes} {κ : Type} [DecidableEq κ] {key : α → κ} {l : List α}
    (h : ∀ a ∈ l, Reads x (encode a) a ∨ Fails x (encode a)) (hbad : ∃ a ∈ l, Fails x (encode a))
    (seen : List κ) : Fails (Decoder.distinct err key x l.length seen) (l.flatMap encode) := by
  induction l generalizing seen with
  | nil => simp at hbad
  | cons a l ih =>
    rw [flatMap_cons]
    rcases h a mem_cons_self with hread | hfail
    · refine bind hread (ite fun _ => ?_)
      by_cases hlater : ∃ b ∈ l, Fails x (encode b)
      · rw [← append_nil (l.flatMap encode)]
        exact first (ih (fun b hb => h b (mem_cons_of_mem _ hb)) hlater (key a :: seen))
      · obtain ⟨b, hb, hfail⟩ := hbad
        rcases mem_cons.mp hb with rfl | hb
        · obtain ⟨err, herr⟩ := hfail []
          rw [hread] at herr
          cases herr
        · exact absurd ⟨b, hb, hfail⟩ hlater
    · exact first hfail

end Fails

/-- Everything `x` can return satisfies `P`. -/
def Yields (x : Decoder ε α) (P : α → Prop) : Prop :=
  ∀ data a rest, x.run data = .ok (a, rest) → P a

namespace Yields

variable {x y : Decoder ε α} {f : α → Decoder ε β} {P : α → Prop} {Q : β → Prop} {a : α} {err : ε}

theorem pure (h : P a) : Yields (Pure.pure a : Decoder ε α) P := by
  intro data b rest hrun
  cases hrun
  exact h

theorem throw (err : ε) : Yields (MonadExcept.throw err : Decoder ε α) P := by
  intro data b rest hrun
  cases hrun

theorem bind (hx : Yields x P) (hf : ∀ a, P a → Yields (f a) Q) : Yields (x >>= f) Q := by
  intro data b rest hrun
  obtain ⟨⟨a, between⟩, ha, hb⟩ := Fallible.bind_eq_ok.mp hrun
  exact hf a (hx data a between ha) between b rest hb

theorem ite {c : Prop} [Decidable c] (hx : c → Yields x P) (hy : ¬ c → Yields y P) :
    Yields (if c then x else y) P := by
  by_cases h : c
  · rw [if_pos h]
    exact hx h
  · rw [if_neg h]
    exact hy h

theorem take (n : ℕ) : Yields (Decoder.take err n) (·.length = n) := by
  intro data b rest hrun
  have hrun' : (if data.length < n then Except.error err
      else Except.ok (data.take n, data.drop n)) = .ok (b, rest) := hrun
  split_ifs at hrun' with hlength
  cases hrun'
  rw [length_take]
  exact Nat.min_eq_left (not_lt.mp hlength)

theorem uint (k : ℕ) : Yields (Decoder.uint err k) (· < 256 ^ k) :=
  (take k).bind fun _ hfield => pure (hfield ▸ Codec.getLE_lt _)

theorem bytes (limit : ℕ) : Yields (Decoder.bytes err limit) (·.length ≤ limit) := by
  refine (uint 4).bind fun n _ => ite (fun _ => throw err) fun hn => ?_
  intro data b rest hrun
  exact (take n data b rest hrun).trans_le (not_lt.mp hn)

theorem many (h : Yields x P) (n : ℕ) :
    Yields (Decoder.many x n) fun l => l.length = n ∧ ∀ a ∈ l, P a := by
  induction n with
  | zero => exact pure ⟨rfl, by simp⟩
  | succ n ih =>
    refine h.bind fun a ha => ih.bind fun l hl => pure ⟨by simp [hl.1], fun b hb => ?_⟩
    rcases mem_cons.mp hb with rfl | hb
    · exact ha
    · exact hl.2 b hb

end Yields

end Decoder

end RivetDB
