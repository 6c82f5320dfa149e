import RivetDB.Program.Prog

/-!
# Two runs side by side

`Prog.Sim R x m y r` compares a run of `x` from `m` with a run of `y` from `r`: both return
the same result, and the states they leave are related by `R`.  The rules follow the
constructs of a program, so that a program which only looks at what related states share is
compared with itself step by step.
-/

namespace RivetDB.Prog

variable {s ε α β : Type} {R : s → s → Prop} {m r : s}

/-- The two runs return the same and end in related states. -/
def Sim (R : s → s → Prop) (x : Prog s ε α) (m : s) (y : Prog s ε α) (r : s) : Prop :=
  (x.exec m).1 = (y.exec r).1 ∧ R (x.exec m).2 (y.exec r).2

theorem sim_pure (a : α) (h : R m r) : Sim R (pure a : Prog s ε α) m (pure a) r := ⟨rfl, h⟩

theorem sim_throw (e : ε) (h : R m r) : Sim R (throw e : Prog s ε α) m (throw e) r := ⟨rfl, h⟩

theorem sim_set {m' r' : s} (h : R m' r') :
    Sim R (set m' : Prog s ε PUnit) m (set r') r := ⟨rfl, h⟩

theorem sim_modify {f g : s → s} (h : R (f m) (g r)) :
    Sim R (modify f : Prog s ε PUnit) m (modify g) r := ⟨rfl, h⟩

theorem sim_lift (a : Except ε α) (h : R m r) : Sim R (lift a : Prog s ε α) m (lift a) r := ⟨rfl, h⟩

/-- The rule of sequence: the first parts may be related more closely than the whole. -/
theorem sim_bind {Q : s → s → Prop} {x y : Prog s ε α} {f g : α → Prog s ε β} (h : Sim Q x m y r)
    (hQ : ∀ m' r', Q m' r' → R m' r') (hf : ∀ a m' r', Q m' r' → Sim R (f a) m' (g a) r') :
    Sim R (x >>= f) m (y >>= g) r := by
  obtain ⟨hresult, hstate⟩ := h
  unfold Sim
  rw [exec_bind, exec_bind]
  rcases hx : x.exec m with ⟨a, m'⟩
  rcases hy : y.exec r with ⟨b, r'⟩
  rw [hx, hy] at hresult hstate
  subst hresult
  rcases a with e | a
  · exact ⟨rfl, hQ _ _ hstate⟩
  · exact hf a m' r' hstate

/-- Each run reads its own state. -/
theorem sim_get_bind {f g : s → Prog s ε β} (h : Sim R (f m) m (g r) r) :
    Sim R (get >>= f) m (get >>= g) r := by
  unfold Sim
  exact h

theorem sim_ite {c c' : Prop} [Decidable c] [Decidable c'] {x x' y y' : Prog s ε α} (hc : c ↔ c')
    (hx : c → Sim R x m x' r) (hy : ¬ c → Sim R y m y' r) :
    Sim R (if c then x else y) m (if c' then x' else y') r := by
  by_cases h : c
  · rw [if_pos h, if_pos (hc.mp h)]
    exact hx h
  · rw [if_neg h, if_neg (fun h' => h (hc.mpr h'))]
    exact hy h

end RivetDB.Prog
