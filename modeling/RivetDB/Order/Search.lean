import Mathlib.Tactic.Common

/-!
# Binary search

`sort.Search(n, f)` returns the least index below `n` at which `f` holds, or `n`,
for a predicate that stays true once it holds.  The loop halves the interval
`[low, high)`; outside it the predicate is known.
-/

namespace RivetDB.Search

variable (f : ℕ → Bool)

/-- The loop of `sort.Search`; the interval shrinks in every round. -/
def loop : ℕ → ℕ → ℕ → ℕ
  | 0, low, _ => low
  | fuel + 1, low, high =>
    if low < high then
      let middle := (low + high) / 2
      if f middle then loop fuel low middle else loop fuel (middle + 1) high
    else low

/-- `sort.Search`. -/
def search (n : ℕ) : ℕ := loop f n 0 n

variable {f} {n : ℕ}

theorem loop_spec (hmono : ∀ i j, i ≤ j → f i = true → f j = true) {fuel low high : ℕ}
    (hfuel : high ≤ low + fuel) (hle : low ≤ high) (hbelow : ∀ i < low, f i = false)
    (habove : ∀ i, high ≤ i → i < n → f i = true) (hn : high ≤ n) :
    (∀ i < loop f fuel low high, f i = false) ∧
      (∀ i, loop f fuel low high ≤ i → i < n → f i = true) ∧ loop f fuel low high ≤ n := by
  induction fuel generalizing low high with
  | zero =>
    have heq : low = high := by omega
    exact ⟨hbelow, fun i hi => habove i (heq ▸ hi), Nat.le_trans hle hn⟩
  | succ fuel ih =>
    rw [loop]
    split
    · dsimp only
      split
      · rename_i hmiddle
        exact ih (by omega) (by omega) hbelow (fun i hi _ => hmono _ _ hi hmiddle) (by omega)
      · rename_i hmiddle
        refine ih (by omega) (by omega) (fun i hi => ?_) habove hn
        by_contra htrue
        exact hmiddle (hmono i _ (by omega) (by simpa using htrue))
    · have heq : low = high := by omega
      exact ⟨hbelow, fun i hi => habove i (heq ▸ hi), Nat.le_trans hle hn⟩

/-- The predicate is false below the result and true from it on. -/
theorem search_spec (hmono : ∀ i j, i ≤ j → f i = true → f j = true) :
    (∀ i < search f n, f i = false) ∧ (∀ i, search f n ≤ i → i < n → f i = true) ∧ search f n ≤ n :=
  loop_spec hmono (by omega) (Nat.zero_le _) (fun i hi => absurd hi (Nat.not_lt_zero i))
    (fun i hi hlt => absurd hi (by omega)) (Nat.le_refl n)

end RivetDB.Search
