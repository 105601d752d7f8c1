import Mathlib

/-!
# Search by bisection

A search for the least number from `bot` on that has a property, where every greater number has it
too. The search keeps two bounds and the number that it has found last. All numbers below the lower
bound fail; the number that was found last, if there is one, is the one above the upper bound
(`Candcpp.Bracket`).

Any number between the bounds may be tried next: if it has the property it becomes the one that was
found last (`Candcpp.Bracket.lower`), and if not, everything up to it fails
(`Candcpp.Bracket.raise`). When nothing is left between the bounds, **the number that was found last
is the least one** (`Candcpp.Bracket.isLeast`).
-/

namespace Candcpp

/-- **The state of a search** among the numbers from `bot` to `top`. -/
structure Bracket (ok : ℤ → Prop) (bot top lo hi : ℤ) (found : Option ℤ) : Prop where
  bot_le : bot ≤ lo
  le_succ : lo ≤ hi + 1
  le_top : hi ≤ top
  below : ∀ y, bot ≤ y → y < lo → ¬ ok y
  above : ∀ y ∈ found, y = hi + 1 ∧ y ≤ top ∧ ok y
  untouched : found = none → hi = top

namespace Bracket

variable {ok : ℤ → Prop} {bot top lo hi y : ℤ} {found : Option ℤ}

/-- At the start everything is between the bounds. -/
theorem init (ok : ℤ → Prop) (h : bot ≤ top + 1) : Bracket ok bot top bot top none where
  bot_le := le_rfl
  le_succ := h
  le_top := le_rfl
  below := fun _ hy hlt => absurd hlt (not_lt.mpr hy)
  above := fun _ hy => nomatch hy
  untouched := fun _ => rfl

/-- **A number that has the property** is found. -/
theorem lower (h : Bracket ok bot top lo hi found) (hlo : lo ≤ y) (hhi : y ≤ hi) (hok : ok y) :
    Bracket ok bot top lo (y - 1) (some y) where
  bot_le := h.bot_le
  le_succ := by omega
  le_top := by
    have := h.le_top
    omega
  below := h.below
  above := by
    rintro z ⟨rfl⟩
    exact ⟨by omega, hhi.trans h.le_top, hok⟩
  untouched := fun hnone => nomatch hnone

/-- **A number that fails** is below the least one, and so are all that are less. -/
theorem raise (h : Bracket ok bot top lo hi found) (hlo : lo ≤ y) (hhi : y ≤ hi) (hfail : ¬ ok y)
    (hup : ∀ a b, bot ≤ a → a ≤ b → ok a → ok b) : Bracket ok bot top (y + 1) hi found where
  bot_le := by
    have := h.bot_le
    omega
  le_succ := by omega
  le_top := h.le_top
  below := fun z hz hlt hok => hfail (hup z y hz (by omega) hok)
  above := h.above
  untouched := h.untouched

/-- **What has been found is the least**, when nothing is left between the bounds. -/
theorem isLeast (h : Bracket ok bot top lo hi (some y)) (hdone : hi < lo) :
    IsLeast {z | bot ≤ z ∧ ok z} y := by
  obtain ⟨hy, -, hok⟩ := h.above y rfl
  have hle := h.le_succ
  have hbot := h.bot_le
  refine ⟨⟨by omega, hok⟩, fun z hz => ?_⟩
  by_contra hlt
  exact h.below z hz.1 (by omega) hz.2

/-- What has been found is one of the numbers that have been tried. -/
theorem found_le (h : Bracket ok bot top lo hi (some y)) : y ≤ top := (h.above y rfl).2.1

/-- Where nothing has been found there is nothing up to `top`. -/
theorem not_ok (h : Bracket ok bot top lo hi none) (hdone : hi < lo) (hbot : bot ≤ y)
    (htop : y ≤ top) : ¬ ok y := by
  have hhi := h.untouched rfl
  exact h.below y hbot (by omega)

end Bracket

end Candcpp
