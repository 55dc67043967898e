import Mathlib.Algebra.Order.Field.Basic
import Mathlib.Tactic.Linarith
import Mathlib.Tactic.Ring

/-!
Token buckets over an ordered field. A bucket fills at a rate, up to one unit
of time's worth, and is spent from freely, also below zero. What was spent is
bounded by the time that has passed once the bucket is out of debt. A bucket
that is filled twice is as full as one filled once, unless credit was lost at
its cap and something spent before the second filling.
-/

/-- A bucket: what it fills at, what is in it, and when it was last filled. -/
@[ext] structure TokenBucket (K : Type) where
  rate : K
  level : K
  last : K

namespace TokenBucket

variable {K : Type} [Field K] {b c : TokenBucket K} {now later : K}

def spend (amount : K) (b : TokenBucket K) : TokenBucket K := { b with level := b.level - amount }

/-- How long the debt takes to fill. -/
def debtTime (b : TokenBucket K) : K := -b.level / b.rate

section Spending

variable (amount : K) (b : TokenBucket K)

@[simp] theorem spend_rate : (b.spend amount).rate = b.rate := rfl
@[simp] theorem spend_last : (b.spend amount).last = b.last := rfl
@[simp] theorem spend_level : (b.spend amount).level = b.level - amount := rfl

/-- Nothing spent is no difference. -/
theorem spend_zero : b.spend 0 = b := by
  ext <;> simp

end Spending

/-- The one is the other with all that came in since and nothing lost. -/
def Ahead (b c : TokenBucket K) : Prop :=
  b.rate = c.rate ∧ b.level = c.level + (b.last - c.last) * c.rate

theorem Ahead.refl (b : TokenBucket K) : Ahead b b := ⟨rfl, by ring⟩

theorem Ahead.spend (h : Ahead b c) (amount : K) : Ahead (b.spend amount) (c.spend amount) := by
  refine ⟨h.1, ?_⟩
  rw [spend_level, spend_level, spend_last, spend_last, spend_rate, h.2]
  ring

/-! ### Filling -/

variable [LinearOrder K]

/-- Fill up to the time, and to the rate at most. -/
def refill (now : K) (b : TokenBucket K) : TokenBucket K :=
  { b with level := min (b.level + (now - b.last) * b.rate) b.rate, last := now }

/-- Filling up to the time loses nothing at the cap. -/
def Holds (now : K) (b : TokenBucket K) : Prop := b.level + (now - b.last) * b.rate ≤ b.rate

instance (now : K) (b : TokenBucket K) : Decidable (b.Holds now) :=
  inferInstanceAs (Decidable (_ ≤ _))

section Filling

variable (now : K) (b : TokenBucket K)

@[simp] theorem refill_rate : (b.refill now).rate = b.rate := rfl
@[simp] theorem refill_last : (b.refill now).last = now := rfl
@[simp] theorem refill_level :
    (b.refill now).level = min (b.level + (now - b.last) * b.rate) b.rate := rfl

theorem refill_level_le : (b.refill now).level ≤ b.rate := min_le_right _ _

end Filling

/-- The level with what was spent is at most what can have come in. -/
def Covers (start spent : K) (b : TokenBucket K) : Prop :=
  b.level + spent ≤ b.rate * (b.last - start)

/-- The two are filled alike from now on. -/
def Alike (b c : TokenBucket K) : Prop :=
  b.rate = c.rate ∧ ∀ now, b.last ≤ now → b.refill now = c.refill now

theorem Alike.refl (b : TokenBucket K) : Alike b b := ⟨rfl, fun _ _ => rfl⟩

theorem Ahead.alike (h : Ahead b c) : Alike b c := by
  refine ⟨h.1, fun now hnow => ?_⟩
  have hsum : b.level + (now - b.last) * b.rate = c.level + (now - c.last) * c.rate := by
    rw [h.2, h.1]
    ring
  ext
  · exact h.1
  · rw [refill_level, refill_level, hsum, h.1]
  · rfl

/-- One more filling at the side, which loses nothing. -/
theorem Ahead.refill (h : Ahead b c) (hholds : b.Holds now) : Ahead (b.refill now) c := by
  refine ⟨h.1, ?_⟩
  rw [refill_level, min_eq_left hholds, refill_last, h.2, h.1]
  ring

variable [IsStrictOrderedRing K]

/-! ### One bucket -/

theorem covers_refill {start spent : K} (h : b.Covers start spent) (now : K) :
    (b.refill now).Covers start spent := by
  have hlevel : (b.refill now).level ≤ b.level + (now - b.last) * b.rate := min_le_left _ _
  unfold Covers at h ⊢
  rw [refill_rate, refill_last]
  calc (b.refill now).level + spent ≤ b.level + (now - b.last) * b.rate + spent := by linarith
    _ ≤ b.rate * (b.last - start) + (now - b.last) * b.rate := by linarith
    _ = b.rate * (now - start) := by ring

theorem covers_spend {start spent amount : K} (h : b.Covers start spent) :
    (b.spend amount).Covers start (spent + amount) := by
  unfold Covers at h ⊢
  rw [spend_level, spend_rate, spend_last]
  linarith

/-- Out of debt, no more was spent than has come in. -/
theorem spent_le {start spent : K} (h : b.Covers start spent) (hlevel : 0 ≤ b.level) :
    spent ≤ b.rate * (b.last - start) := by
  unfold Covers at h
  linarith

/-- A bucket that is filled after its debt's time is out of debt. -/
theorem refill_level_nonneg (hrate : 0 < b.rate) (hwait : b.last + b.debtTime ≤ now) :
    0 ≤ (b.refill now).level := by
  have hdebt : b.debtTime * b.rate = -b.level := div_mul_cancel₀ _ hrate.ne'
  have hfilled : b.debtTime * b.rate ≤ (now - b.last) * b.rate :=
    mul_le_mul_of_nonneg_right (by linarith) hrate.le
  refine le_min ?_ hrate.le
  linarith

theorem debtTime_nonneg (hrate : 0 ≤ b.rate) (hlevel : b.level ≤ 0) : 0 ≤ b.debtTime :=
  div_nonneg (by linarith) hrate

/-! ### Two buckets that are filled at different times -/

/-- Filling in between changes nothing. -/
theorem refill_refill (hrate : 0 ≤ b.rate) (hle : now ≤ later) :
    (b.refill now).refill later = b.refill later := by
  have hgrow : 0 ≤ (later - now) * b.rate := mul_nonneg (by linarith) hrate
  have hsum : b.level + (now - b.last) * b.rate + (later - now) * b.rate =
      b.level + (later - b.last) * b.rate := by ring
  ext
  · rfl
  · rw [refill_level, refill_level, refill_level, refill_rate, refill_last, ← min_add_add_right,
      hsum, min_assoc, min_eq_right (by linarith : b.rate ≤ b.rate + (later - now) * b.rate)]
  · rfl

/-- One more filling at the side. -/
theorem Alike.refill (h : Alike b c) (hrate : 0 ≤ b.rate) (hnow : b.last ≤ now) :
    Alike (b.refill now) c := by
  refine ⟨h.1, fun later hlater => ?_⟩
  have hlater' : now ≤ later := hlater
  rw [refill_refill hrate hlater']
  exact h.2 later (hnow.trans hlater')

end TokenBucket
