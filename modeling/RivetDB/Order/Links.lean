import Mathlib.Data.List.Basic
import Mathlib.Logic.Function.Basic
import Mathlib.Tactic.Common

/-!
# Linked chains

A singly linked chain is a function `next` on addresses together with the list of addresses that
following it visits.  Three things are said about it: how to walk along it while a test holds, how
to put a new address into it behind a given one, and that it is not disturbed by changes elsewhere.
Several chains may run through the same addresses, each with its own `next`.
-/

namespace RivetDB.Links

open List

variable {α : Type*} {next next' : α → Option α} {a b : α} {l pre post : List α}

/-- Following `next` from `a` visits `l` and ends there. -/
def Chain (next : α → Option α) : α → List α → Prop
  | a, [] => next a = none
  | a, b :: rest => next a = some b ∧ Chain next b rest

@[simp] theorem chain_nil : Chain next a [] ↔ next a = none := Iff.rfl

/-- A chain depends on the links of its own addresses only. -/
theorem Chain.congr (h : Chain next a l) (heq : ∀ x ∈ a :: l, next' x = next x) :
    Chain next' a l := by
  induction l generalizing a with
  | nil => exact (heq a mem_cons_self).trans h
  | cons b rest ih =>
    exact ⟨(heq a mem_cons_self).trans h.1, ih h.2 fun x hx => heq x (mem_cons_of_mem _ hx)⟩

/-- The rest of a chain, from any of its addresses. -/
theorem Chain.suffix (h : Chain next a l) {front : List α} (hsplit : a :: l = front ++ b :: post) :
    Chain next b post := by
  induction front generalizing a l with
  | nil =>
    obtain ⟨rfl, rfl⟩ := List.cons.inj hsplit
    exact h
  | cons x front ih =>
    obtain ⟨rfl, hrest⟩ := List.cons.inj hsplit
    rcases l with - | ⟨c, rest⟩
    · cases front <;> cases hrest
    · exact ih h.2 hrest

/-- The addresses visited from `a`, at most `fuel` of them. -/
def follow (next : α → Option α) : ℕ → α → List α
  | 0, _ => []
  | fuel + 1, a =>
    match next a with
    | none => []
    | some b => b :: follow next fuel b

variable {fuel : ℕ}

theorem Chain.follow_eq (h : Chain next a l) (hfuel : l.length ≤ fuel) :
    follow next fuel a = l := by
  induction l generalizing a fuel with
  | nil =>
    cases fuel with
    | zero => rfl
    | succ fuel => rw [follow, chain_nil.mp h]
  | cons b rest ih =>
    obtain ⟨fuel, rfl⟩ : ∃ k, fuel = k + 1 := ⟨fuel - 1, by simp at hfuel; omega⟩
    rw [follow, h.1]
    exact congrArg (b :: ·) (ih h.2 (by simpa using hfuel))

/-- Walk on while the next address passes the test. -/
def walk (next : α → Option α) (test : α → Bool) : ℕ → α → α
  | 0, a => a
  | fuel + 1, a =>
    match next a with
    | none => a
    | some b => if test b then walk next test fuel b else a

variable {test : α → Bool}

/-- A walk ends at the last of the addresses that pass the test, if those that pass come first. -/
theorem Chain.walk_eq (h : Chain next a (pre ++ post))
    (hpre : ∀ x ∈ pre, test x = true) (hpost : ∀ x ∈ post.head?, test x = false)
    (hfuel : pre.length ≤ fuel) : walk next test fuel a = pre.getLastD a := by
  induction pre generalizing a fuel with
  | nil =>
    cases fuel with
    | zero => rfl
    | succ fuel =>
      cases post with
      | nil => rw [walk, chain_nil.mp h, getLastD_nil]
      | cons x rest =>
        have hx : test x = false := hpost x rfl
        have hnext : next a = some x := h.1
        simp only [walk, hnext, hx, Bool.false_eq_true, if_false, getLastD_nil]
  | cons b rest ih =>
    obtain ⟨fuel, rfl⟩ : ∃ k, fuel = k + 1 := ⟨fuel - 1, by simp at hfuel; omega⟩
    have hnext : next a = some b := h.1
    have hb : test b = true := hpre b mem_cons_self
    simp only [walk, hnext, hb, if_true, getLastD_cons]
    exact ih h.2 (fun x hx => hpre x (mem_cons_of_mem _ hx)) (by simpa using hfuel)

theorem getLastD_append_cons (front rest : List α) (x : α) :
    (front ++ b :: rest).getLastD x = rest.getLastD b := by
  induction front generalizing x with
  | nil => exact getLastD_cons
  | cons c front ih => rw [cons_append, getLastD_cons, ih]

/-- The walk ends in the same place from wherever on the way it starts. -/
theorem Chain.walk_from (h : Chain next a (pre ++ post))
    (hpre : ∀ x ∈ pre, test x = true) (hpost : ∀ x ∈ post.head?, test x = false)
    (hfuel : pre.length ≤ fuel) (hb : b ∈ a :: pre) :
    walk next test fuel b = pre.getLastD a := by
  obtain ⟨front, rest, hsplit⟩ := append_of_mem hb
  have hsuffix : Chain next b (rest ++ post) := by
    refine h.suffix (?_ : _ = front ++ b :: _)
    rw [← cons_append, hsplit, append_assoc, cons_append]
  have hmem : ∀ x ∈ rest, x ∈ pre := by
    intro x hx
    cases front with
    | nil => exact (List.cons.inj hsplit).2 ▸ hx
    | cons c front => simp [(List.cons.inj hsplit).2, hx]
  have hlength := congrArg List.length hsplit
  simp only [length_cons, length_append] at hlength
  rw [hsuffix.walk_eq (fun x hx => hpre x (hmem x hx)) hpost (by omega),
    ← getLastD_append_cons front rest a, ← hsplit, getLastD_cons]

/-- The link of the last address before a cut is the first behind it. -/
theorem Chain.next_getLastD (h : Chain next a (pre ++ post)) :
    next (pre.getLastD a) = post.head? := by
  induction pre generalizing a with
  | nil =>
    cases post with
    | nil => exact h
    | cons b rest => exact h.1
  | cons b rest ih =>
    rw [getLastD_cons]
    exact ih h.2

section Splice

variable [DecidableEq α] {n : α}

/-- The links after the new address `n` has been put behind `p`. -/
def splice (next : α → Option α) (n p : α) : α → Option α :=
  Function.update (Function.update next n (next p)) p (some n)

theorem splice_at (n p : α) : splice next n p p = some n := Function.update_self ..

theorem splice_new {p : α} (h : n ≠ p) : splice next n p n = next p := by
  rw [splice, Function.update_of_ne h, Function.update_self]

theorem splice_other {p x : α} (hn : x ≠ n) (hp : x ≠ p) : splice next n p x = next x := by
  rw [splice, Function.update_of_ne hp, Function.update_of_ne hn]

/-- A new address stands where it was put. -/
theorem Chain.splice (h : Chain next a (pre ++ post)) (hnodup : (a :: (pre ++ post)).Nodup)
    (hn : n ∉ a :: (pre ++ post)) :
    Chain (Links.splice next n (pre.getLastD a)) a (pre ++ n :: post) := by
  induction pre generalizing a with
  | nil =>
    have hna : n ≠ a := fun heq => hn (heq ▸ mem_cons_self)
    refine ⟨splice_at n a, ?_⟩
    -- behind the new address the chain goes on as it did behind `a`
    cases post with
    | nil => exact (splice_new hna).trans h
    | cons b rest =>
      refine ⟨(splice_new hna).trans h.1, h.2.congr fun x hx => splice_other ?_ ?_⟩
      · rintro rfl
        exact hn (mem_cons_of_mem _ hx)
      · rintro rfl
        exact (nodup_cons.mp hnodup).1 hx
  | cons b rest ih =>
    have hlast : rest.getLastD b ∈ b :: (rest ++ post) :=
      mem_append_left post getLastD_mem_cons
    have hna : a ≠ n := fun heq => hn (heq ▸ mem_cons_self)
    have hne : a ≠ rest.getLastD b := fun heq => (nodup_cons.mp hnodup).1 (heq ▸ hlast)
    rw [getLastD_cons]
    exact ⟨(splice_other hna hne).trans h.1, ih h.2 (nodup_cons.mp hnodup).2
      fun hmem => hn (mem_cons_of_mem _ hmem)⟩

end Splice

end RivetDB.Links
