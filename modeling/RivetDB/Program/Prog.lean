import Mathlib.Tactic.Common

/-!
# Programs that keep their state when they fail

A Go method with a pointer receiver reads and writes the receiver and returns a
result or an error.  What it wrote before it returned an error stays written.
`Prog s ε α` is that shape: a state transformer whose failure still carries the
state, so `Prog s ε α` unfolds to `s → Except ε α × s`.

`Prog.wp x Q E` is the weakest precondition of `x` for a postcondition `Q` on
normal return and `E` on failure.  The `wp_*` equations run a program
symbolically; `wp_mono` is the rule of consequence, and `wp_bind` together with
`wp_mono` is how a caller uses the specification of a callee.
-/

namespace RivetDB

/-- A program over the receiver state `s` that returns an `α` or fails with an
`ε`; a failure keeps the state reached so far. -/
abbrev Prog (s ε α : Type) := ExceptT ε (StateM s) α

/-! ### Pure fallible functions -/

namespace Fallible

variable {ε α β : Type}

@[simp] theorem throw_bind (e : ε) (f : α → Except ε β) :
    ((throw e : Except ε α) >>= f) = throw e := rfl

@[simp] theorem ok_bind (a : α) (f : α → Except ε β) :
    ((Except.ok a : Except ε α) >>= f) = f a := rfl

variable {b : β}

/-- A sequence succeeds exactly when its parts do. -/
theorem bind_eq_ok {x : Except ε α} {f : α → Except ε β} :
    (x >>= f) = .ok b ↔ ∃ a, x = .ok a ∧ f a = .ok b := by
  rcases x with e | a
  · simp [bind, Except.bind]
  · simp [bind, Except.bind]

variable {c : Prop} {e : ε} {a : α}

/-- A guard that fails early lets the rest run exactly when it does not hold. -/
theorem ite_throw_eq_ok [Decidable c] {x : Except ε α} :
    (if c then throw e else x) = .ok a ↔ ¬ c ∧ x = .ok a := by
  by_cases hc : c
  · simp [hc, throw, throwThe, MonadExceptOf.throw]
  · simp [hc]

theorem ite_error_eq_ok [Decidable c] {x : Except ε α} :
    (if c then .error e else x) = .ok a ↔ ¬ c ∧ x = .ok a :=
  ite_throw_eq_ok

theorem isOk_iff {x : Except ε α} : x.isOk = true ↔ ∃ a, x = .ok a := by
  rcases x with e | a <;> simp [Except.isOk, Except.toBool]

theorem eq_ok_of_toOption {x : Except ε α} (h : x.toOption = some a) : x = .ok a := by
  rcases x with e | b
  · cases h
  · cases h
    rfl

/-- What a loop has collected comes from its input. -/
theorem mem_of_mapM {f : α → Except ε β} {l : List α} {l' : List β}
    (h : l.mapM f = .ok l') (hb : b ∈ l') : ∃ a ∈ l, f a = .ok b := by
  induction l generalizing l' with
  | nil =>
    cases h
    cases hb
  | cons a rest ih =>
    rw [List.mapM_cons] at h
    obtain ⟨c, hc, h⟩ := bind_eq_ok.mp h
    obtain ⟨more, hmore, h⟩ := bind_eq_ok.mp h
    cases h
    rcases List.mem_cons.mp hb with rfl | hb
    · exact ⟨a, List.mem_cons_self, hc⟩
    · obtain ⟨a', ha', heq⟩ := ih hmore hb
      exact ⟨a', List.mem_cons_of_mem _ ha', heq⟩

end Fallible

/-! ### Programs -/

namespace Prog

variable {s ε α β : Type}

/-- Run a program from a receiver state. -/
def exec (x : Prog s ε α) (n : s) : Except ε α × s := x.run.run n

/-- The receiver state a program leaves behind, whether it fails or not. -/
def state (x : Prog s ε α) (n : s) : s := (x.exec n).2

/-- What a program returns. -/
def result (x : Prog s ε α) (n : s) : Except ε α := (x.exec n).1

/-- The weakest precondition for `Q` on return and `E` on failure. -/
def wp (x : Prog s ε α) (Q : α → s → Prop) (E : ε → s → Prop) (n : s) : Prop :=
  match x.exec n with
  | (.ok a, n') => Q a n'
  | (.error e, n') => E e n'

variable {Q : α → s → Prop} {E : ε → s → Prop} {n : s}

@[simp] theorem wp_pure (a : α) :
    (pure a : Prog s ε α).wp Q E n ↔ Q a n := Iff.rfl

@[simp] theorem wp_throw (e : ε) :
    (throw e : Prog s ε α).wp Q E n ↔ E e n := Iff.rfl

theorem exec_bind (x : Prog s ε α) (f : α → Prog s ε β) (n : s) :
    (x >>= f).exec n =
      match x.exec n with
      | (.ok a, n') => (f a).exec n'
      | (.error e, n') => (.error e, n') := by
  change (ExceptT.bindCont f (x.run.run n).1 : StateM s (Except ε β)).run (x.run.run n).2 = _
  unfold exec
  rcases x.run.run n with ⟨_ | a, n'⟩ <;> rfl

@[simp] theorem wp_bind (x : Prog s ε α) (f : α → Prog s ε β) {Q : β → s → Prop} :
    (x >>= f).wp Q E n ↔ x.wp (fun a n' => (f a).wp Q E n') E n := by
  unfold wp
  rw [exec_bind]
  rcases x.exec n with ⟨_ | a, n'⟩ <;> rfl

@[simp] theorem wp_get {Q : s → s → Prop} :
    (get : Prog s ε s).wp Q E n ↔ Q n n := Iff.rfl

@[simp] theorem wp_set {Q : PUnit → s → Prop} (n' : s) :
    (set n' : Prog s ε PUnit).wp Q E n ↔ Q ⟨⟩ n' := Iff.rfl

@[simp] theorem wp_modify {Q : PUnit → s → Prop} (f : s → s) :
    (modify f : Prog s ε PUnit).wp Q E n ↔ Q ⟨⟩ (f n) := Iff.rfl

@[simp] theorem wp_ite (c : Prop) [Decidable c] (x y : Prog s ε α) :
    (if c then x else y).wp Q E n ↔ (c → x.wp Q E n) ∧ (¬ c → y.wp Q E n) := by
  split <;> simp_all

/-- A pure fallible computation, as a program. -/
def lift (r : Except ε α) : Prog s ε α := ExceptT.mk (pure r)

@[simp] theorem wp_lift (r : Except ε α) :
    (lift r : Prog s ε α).wp Q E n ↔ (∀ a, r = .ok a → Q a n) ∧ (∀ e, r = .error e → E e n) := by
  rcases r with e | a
  · change E e n ↔ _
    simp
  · change Q a n ↔ _
    simp

@[simp] theorem wp_lift_ok (a : α) :
    (lift (.ok a) : Prog s ε α).wp Q E n ↔ Q a n := Iff.rfl

/-- Rewriting the error of a failed program. -/
@[simp] theorem wp_adapt (f : ε → ε) (x : Prog s ε α) :
    Prog.wp (ExceptT.adapt f x) Q E n ↔ x.wp Q (fun e n' => E (f e) n') n := by
  unfold wp
  have hx : Prog.exec (ExceptT.adapt f x) n = ((x.exec n).1.mapError f, (x.exec n).2) := rfl
  rw [hx]
  rcases x.exec n with ⟨_ | a, n'⟩ <;> rfl

@[simp] theorem wp_map (f : α → β) (x : Prog s ε α) {Q : β → s → Prop} :
    Prog.wp (f <$> x) Q E n ↔ x.wp (fun a n' => Q (f a) n') E n := by
  rw [← bind_pure_comp, wp_bind]
  rfl

variable {x : Prog s ε α} {Q' : α → s → Prop} {E' : ε → s → Prop}

/-- The rule of consequence. -/
theorem wp_mono (h : x.wp Q E n) (hQ : ∀ a n', Q a n' → Q' a n')
    (hE : ∀ e n', E e n' → E' e n') : x.wp Q' E' n := by
  unfold wp at h ⊢
  rcases hx : x.exec n with ⟨_ | a, n'⟩ <;> rw [hx] at h
  · exact hE _ _ h
  · exact hQ _ _ h

/-- The rule of consequence, for the results alone. -/
theorem wp_imp (h : x.wp Q E n) (hQ : ∀ a n', Q a n' → Q' a n') : x.wp Q' E n :=
  wp_mono h hQ fun _ _ he => he

variable {P : s → Prop}

/-- A postcondition that does not look at the result holds of the final state. -/
theorem state_of_wp (h : x.wp (fun _ => P) (fun _ => P) n) : P (x.state n) := by
  unfold wp at h
  unfold state
  rcases hx : x.exec n with ⟨_ | a, n'⟩ <;> rw [hx] at h <;> exact h

/-- What holds on return, of a program that has returned. -/
theorem of_wp_ok (h : x.wp Q E n) {a : α} (hok : x.result n = .ok a) : Q a (x.state n) := by
  unfold wp at h
  unfold result at hok
  unfold state
  rcases hx : x.exec n with ⟨_ | a', n'⟩ <;> rw [hx] at h hok
  · cases hok
  · cases hok
    exact h

/-! ### Invariants -/

/-- The program keeps `P`, whether it fails or not. -/
def Keeps (P : s → Prop) (x : Prog s ε α) : Prop := ∀ n, P n → x.wp (fun _ => P) (fun _ => P) n

namespace Keeps

variable {P : s → Prop} {x : Prog s ε α} {f : α → Prog s ε β}

theorem pure (a : α) : Keeps P (Pure.pure a : Prog s ε α) := fun _ h => h

theorem throw (e : ε) : Keeps P (MonadExcept.throw e : Prog s ε α) := fun _ h => h

theorem lift (r : Except ε α) : Keeps P (Prog.lift r) := by
  rcases r with e | a
  · exact fun _ h => h
  · exact fun _ h => h

theorem modify {g : s → s} (hg : ∀ n, P n → P (g n)) : Keeps P (modify g : Prog s ε PUnit) := hg

theorem bind (hx : Keeps P x) (hf : ∀ a, Keeps P (f a)) : Keeps P (x >>= f) := by
  intro n hn
  rw [wp_bind]
  exact wp_imp (hx n hn) fun a n' hn' => hf a n' hn'

/-- What is read satisfies the invariant too. -/
theorem get_bind {f : s → Prog s ε β}
    (hf : ∀ n, P n → (f n).wp (fun _ => P) (fun _ => P) n) : Keeps P (get >>= f) := by
  intro n hn
  exact hf n hn

theorem state (hx : Keeps P x) (hn : P n) : P (x.state n) := state_of_wp (hx n hn)

end Keeps

end Prog

end RivetDB
