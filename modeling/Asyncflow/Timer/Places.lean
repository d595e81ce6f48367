import Asyncflow.Timer.Wheel
import Mathlib.Algebra.Order.Ring.Nat
import Mathlib.Tactic.Common

/-!
# Where the events of the timer wheel are

`Asyncflow.TimerWheel.Placed` relates the slot of an event to the time of the event and the time
now. Seen from the wheel at level `l`, the event is ahead: its time is in a later tick of this
wheel, though less than one round later. The exception are the events in the current slot of a
wheel, after the clock came to the beginning of the slot and before the slot is processed; the
first parameter says below which level this may be.
-/

namespace Asyncflow

open Agenda (Note Call Answers)

namespace TimerWheel

variable {ι : Type} [DecidableEq ι]

/-- **The slot `p` is right for the time `T`**, when it is `N`. -/
structure Placed (o N : ℕ) (p : ℕ × ℕ) (T : ℕ) : Prop where
  level : p.1 ≤ 7
  index : p.2 = T / 256 ^ p.1 % 256
  near : T / 256 ^ p.1 < N / 256 ^ p.1 + 256
  bound : T < 2 ^ 64
  ahead : N / 256 ^ p.1 < T / 256 ^ p.1 ∨
    (p.1 < o ∧ 256 ^ p.1 ∣ N ∧ N / 256 ^ p.1 = T / 256 ^ p.1)

/-- The current slot of a wheel. -/
def current (N l : ℕ) : ℕ × ℕ := (l, N / 256 ^ l % 256)

variable {o o' N T l : ℕ} {p : ℕ × ℕ}

theorem Placed.mono (h : Placed o N p T) (ho : o ≤ o') : Placed o' N p T :=
  { h with ahead := h.ahead.imp_right fun ⟨hl, hr⟩ => ⟨hl.trans_le ho, hr⟩ }

/-- Nothing is overdue. -/
theorem Placed.le (h : Placed o N p T) : N ≤ T := by
  rcases h.ahead with hlt | ⟨-, hdvd, heq⟩
  · exact (Nat.lt_of_div_lt_div hlt).le
  · calc N = N / 256 ^ p.1 * 256 ^ p.1 := (Nat.div_mul_cancel hdvd).symm
      _ = T / 256 ^ p.1 * 256 ^ p.1 := by rw [heq]
      _ ≤ T := Nat.div_mul_le_self _ _

theorem Placed.lt (h : Placed 0 N p T) : N < T := by
  rcases h.ahead with hlt | ⟨hl, -⟩
  · exact Nat.lt_of_div_lt_div hlt
  · exact absurd hl (Nat.not_lt_zero _)

/-- When the clock moves on, some slots become current. -/
theorem Placed.succ (h : Placed 0 N p T) : Placed 8 (N + 1) p T := by
  have hlt : N / 256 ^ p.1 < T / 256 ^ p.1 := by
    rcases h.ahead with hlt | ⟨hl, -⟩
    · exact hlt
    · exact absurd hl (Nat.not_lt_zero _)
  have hsucc := Nat.succ_div (a := N) (b := 256 ^ p.1)
  have hnear := h.near
  have hlevel := h.level
  refine ⟨h.level, h.index, ?_, h.bound, ?_⟩
  · split at hsucc <;> omega
  · split at hsucc
    · rename_i hdvd
      rcases eq_or_ne ((N + 1) / 256 ^ p.1) (T / 256 ^ p.1) with heq | hne
      · exact Or.inr ⟨by omega, hdvd, heq⟩
      · exact Or.inl (by omega)
    · exact Or.inl (by omega)

/-- Only wheels whose slot begins now have current events. -/
theorem Placed.of_not_dvd (h : Placed o N p T) (hl : ¬ 256 ^ (l + 1) ∣ N) :
    Placed (l + 1) N p T := by
  refine { h with ahead := h.ahead.imp_right fun ⟨_, hdvd, heq⟩ => ⟨?_, hdvd, heq⟩ }
  by_contra hge
  exact hl ((Nat.pow_dvd_pow 256 (Nat.not_lt.mp hge)).trans hdvd)

/-- An event that is ahead on its wheel is in no current slot. -/
theorem Placed.ne_current (h : Placed 0 N p T) (l : ℕ) : p ≠ current N l := by
  rintro rfl
  have hi : N / 256 ^ l % 256 = T / 256 ^ l % 256 := h.index
  have hnear : T / 256 ^ l < N / 256 ^ l + 256 := h.near
  have hlt : N / 256 ^ l < T / 256 ^ l := by
    rcases h.ahead with hlt | ⟨hl, -⟩
    · exact hlt
    · exact absurd hl (Nat.not_lt_zero _)
  generalize N / 256 ^ l = a at *
  generalize T / 256 ^ l = b at *
  omega

/-- An event in the current slot of a wheel is due within this tick of the wheel. -/
theorem Placed.of_current (h : Placed o N (current N l) T) :
    N / 256 ^ l = T / 256 ^ l := by
  rcases h.ahead with hlt | ⟨-, -, heq⟩
  · exact absurd rfl (({ h with ahead := Or.inl hlt } : Placed 0 N (current N l) T).ne_current l)
  · exact heq

/-- The slots that may hold current events get fewer when one is empty. -/
theorem Placed.of_ne_current (h : Placed (l + 1) N p T) (hp : p ≠ current N l) :
    Placed l N p T := by
  refine { h with ahead := h.ahead.imp_right fun ⟨hl, hdvd, heq⟩ => ⟨?_, hdvd, heq⟩ }
  refine (Nat.le_of_lt_succ hl).lt_of_ne ?_
  rintro rfl
  refine hp (Prod.ext rfl ?_)
  show p.2 = N / 256 ^ p.1 % 256
  rw [heq, h.index]

/-! ### The loop of `schedule` -/

/-- The clocks of the wheels agree. -/
def Clocked (now : ℕ → ℕ) : Prop := ∀ l ≤ 7, now l = now 0 / 256 ^ l

theorem div_pow_succ (N l : ℕ) : N / 256 ^ (l + 1) = N / 256 ^ l / 256 := by
  rw [Nat.pow_succ, Nat.div_div_eq_div_mul]

/-- From any level at which the time is ahead, the loop finds a slot that is right for it. -/
theorem place_spec {now : ℕ → ℕ} (hc : Clocked now) (hT : T < 2 ^ 64) :
    ∀ wheels l, wheels + l = 8 → now 0 / 256 ^ l < T / 256 ^ l →
      ∃ p, place now wheels l (T / 256 ^ l - now 0 / 256 ^ l) = some p ∧
        Placed 0 (now 0) p T := by
  intro wheels
  induction wheels with
  | zero =>
    intro l hl hlt
    obtain rfl : l = 8 := by omega
    have hzero : T / 256 ^ 8 = 0 := Nat.div_eq_of_lt hT
    omega
  | succ wheels ih =>
    intro l hl hlt
    have hnow : now l = now 0 / 256 ^ l := hc l (by omega)
    rw [place]
    simp only [numSlots, wordSize]
    split
    · rename_i hge
      have hT' : T / 256 ^ l ≤ T := Nat.div_le_self _ _
      have hnext : (T / 256 ^ l - now 0 / 256 ^ l + now l % 256) % 2 ^ 64 / 256 =
          T / 256 ^ (l + 1) - now 0 / 256 ^ (l + 1) := by
        rw [div_pow_succ, div_pow_succ, hnow]
        generalize now 0 / 256 ^ l = a at *
        generalize T / 256 ^ l = b at *
        have hmod : (b - a + a % 256) % 2 ^ 64 = b - a + a % 256 :=
          Nat.mod_eq_of_lt (by omega)
        rw [hmod]
        omega
      rw [hnext]
      refine ih (l + 1) (by omega) ?_
      rw [div_pow_succ, div_pow_succ]
      generalize now 0 / 256 ^ l = a at *
      generalize T / 256 ^ l = b at *
      omega
    · rename_i hlt'
      refine ⟨_, rfl, ⟨by show l ≤ 7; omega, ?_, ?_, hT, Or.inl hlt⟩⟩
      · show (now l + (T / 256 ^ l - now 0 / 256 ^ l)) % 2 ^ 64 % 256 =
          T / 256 ^ l % 256
        rw [hnow, Nat.add_sub_cancel' hlt.le]
        have hT' : T / 256 ^ l ≤ T := Nat.div_le_self _ _
        rw [Nat.mod_eq_of_lt (hT'.trans_lt hT)]
      · show T / 256 ^ l < now 0 / 256 ^ l + 256
        omega

end TimerWheel

end Asyncflow
