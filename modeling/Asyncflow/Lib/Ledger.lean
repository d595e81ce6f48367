import Asyncflow.Lib.Run

/-!
# Accounts

An event can be bounded in a run without knowing when it happens: every occurrence has to be
paid for, and what it can be paid with is earned by other events. An account is such a pair of
numbers read off a state, what has been spent and what has been earned; it is *balanced*
between two states if no more was spent than earned.

* `Asyncflow.Account.Balanced.trans` and `Asyncflow.Account.balanced_foldl` compose;
* `Asyncflow.Account.balanced_of_steps` is the rule for runs.
-/

namespace Asyncflow

/-- What has been spent in a state, and what has been earned. -/
structure Account (σ : Type) where
  /-- What has been spent. -/
  spent : σ → ℕ
  /-- What has been earned. -/
  earned : σ → ℕ

namespace Account

variable {σ α : Type} {A : Account σ} {s t u : σ}

variable (A) in
/-- **Between the two states no more is spent than earned.** -/
def Balanced (s t : σ) : Prop := A.spent t + A.earned s ≤ A.spent s + A.earned t

theorem Balanced.refl (s : σ) : A.Balanced s s := Nat.le_refl _

theorem Balanced.trans (h : A.Balanced s t) (h' : A.Balanced t u) : A.Balanced s u := by
  unfold Balanced at h h' ⊢
  omega

/-- If nothing is spent, earning something is in order. -/
theorem balanced_of_le (hs : A.spent t ≤ A.spent s) (he : A.earned s ≤ A.earned t) :
    A.Balanced s t := Nat.add_le_add hs he

/-- A loop is balanced if its rounds are. -/
theorem balanced_foldl {β : Type} {f : σ → β → σ} {bs : List β}
    (hf : ∀ s, ∀ b ∈ bs, A.Balanced s (f s b)) (s : σ) : A.Balanced s (bs.foldl f s) := by
  induction bs generalizing s with
  | nil => exact .refl s
  | cons b bs ih =>
    have hb : A.Balanced s (f s b) := hf s b (List.mem_cons_self ..)
    exact hb.trans (ih (fun s b hb => hf s b (List.mem_cons_of_mem _ hb)) _)

variable {step : σ → α → Option σ} {K : σ → α → Prop} {I : σ → Prop}

/-- **The rule for runs**: a run is balanced if its steps are. -/
theorem balanced_of_steps (h : Run.Steps step K s t) (h0 : I s)
    (hI : ∀ u a v, I u → K u a → step u a = some v → I v)
    (hstep : ∀ u a v, I u → K u a → step u a = some v → A.Balanced u v) : A.Balanced s t :=
  h.relation (I := I) (R := A.Balanced) .refl .trans h0 hI hstep

end Account

end Asyncflow
