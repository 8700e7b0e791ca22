import Mathlib.Algebra.Order.Floor.Div
import Mathlib.Order.Interval.Finset.Nat
import DelayInjection.Plan.Basic

-- Numbers drawn below a bound. Every number below the bound stands for equally many words, so
-- that no delay is preferred; the words left over are passed by.

namespace DelayInjection

namespace RandomSource

-- The word that would be drawn after some others.
def wordAfter (source : RandomSource) (others : Nat) : Nat :=
  (source.stream (source.drawn + others)).toNat

def advanced (source : RandomSource) (words : Nat) : RandomSource :=
  { source with drawn := source.drawn + words }

-- The first word that a bound accepts comes after so many that it does not.
structure FirstAccepted (source : RandomSource) (bound rejected : Nat) : Prop where
  accepted : accepts bound (source.wordAfter rejected) = true
  earlier : ∀ i < rejected, accepts bound (source.wordAfter i) = false

-- The words that are accepted for a bound and give one number.
def wordsFor (bound number : Nat) : Finset Nat :=
  (Finset.range (2 ^ 64)).filter fun word =>
    accepts bound word = true ∧ scaled bound word = number

section

variable {source : RandomSource} {bound : Nat}

theorem below?_eq_some {fuel rejected : Nat} (h : source.FirstAccepted bound rejected)
    (hfuel : rejected < fuel) :
    below? fuel bound source =
      some (scaled bound (source.wordAfter rejected), source.advanced (rejected + 1)) := by
  induction rejected generalizing source fuel with
  | zero =>
      obtain ⟨fuel, rfl⟩ := Nat.exists_eq_succ_of_ne_zero (Nat.ne_of_gt hfuel)
      have hnext : accepts bound source.next.1.toNat = true := h.accepted
      rw [below?]
      simp only [hnext, if_true]
      rfl
  | succ rejected ih =>
      obtain ⟨fuel, rfl⟩ := Nat.exists_eq_succ_of_ne_zero (Nat.ne_of_gt (Nat.zero_lt_of_lt hfuel))
      have hnext : accepts bound source.next.1.toNat = false := h.earlier 0 (Nat.succ_pos _)
      -- the first word is passed by, and the others follow from there
      have hword : ∀ i, source.next.2.wordAfter i = source.wordAfter (i + 1) := fun i => by
        simp only [wordAfter, next]
        rw [Nat.add_assoc, Nat.add_comm 1 i]
      have hlater : source.next.2.FirstAccepted bound rejected :=
        ⟨by rw [hword]; exact h.accepted,
          fun i hi => by rw [hword]; exact h.earlier (i + 1) (Nat.succ_lt_succ hi)⟩
      rw [below?]
      simp only [hnext, Bool.false_eq_true, if_false]
      rw [ih hlater (Nat.lt_of_succ_lt_succ hfuel), hword]
      simp only [advanced, next]
      rw [Nat.add_assoc, Nat.add_comm 1 (rejected + 1)]

-- Whatever is drawn is the number of some word.
theorem scaled_of_below? {fuel number : Nat} {later : RandomSource}
    (h : below? fuel bound source = some (number, later)) :
    ∃ word : UInt64, number = scaled bound word.toNat := by
  induction fuel generalizing source with
  | zero => cases h
  | succ fuel ih =>
      rw [below?] at h
      dsimp only at h
      split at h
      · exact ⟨source.next.1, (Prod.mk.inj (Option.some.inj h)).1.symm⟩
      · exact ih h

end

section

variable {bound : Nat}

-- The accepted part of a word's range is a multiple of the bound, and at most the whole range.
theorem zone_bounds (hpos : 0 < bound) (hlt : bound < 2 ^ 64) :
    0 < bound * 2 ^ leadingZeros bound ∧ bound * 2 ^ leadingZeros bound ≤ 2 ^ 64 := by
  have hlog : bound.log2 < 64 := (Nat.log2_lt (Nat.ne_of_gt hpos)).mpr hlt
  refine ⟨Nat.mul_pos hpos (Nat.two_pow_pos _), ?_⟩
  calc
    bound * 2 ^ leadingZeros bound ≤ 2 ^ (bound.log2 + 1) * 2 ^ leadingZeros bound :=
      Nat.mul_le_mul_right _ (Nat.le_of_lt Nat.lt_log2_self)
    _ = 2 ^ 64 := by
      rw [← Nat.pow_add]
      congr 1
      rw [leadingZeros]
      omega

theorem zone_eq (bound : Nat) : zone bound = bound * 2 ^ leadingZeros bound - 1 := by
  rw [zone, Nat.shiftLeft_eq]

-- A word gives a number if its product with the bound lies in the accepted part of the range
-- that begins at the number.
theorem gives_iff (hpos : 0 < bound) (hlt : bound < 2 ^ 64) (word number : Nat) :
    (accepts bound word = true ∧ scaled bound word = number) ↔
      number * 2 ^ 64 ≤ bound * word ∧
        bound * word < number * 2 ^ 64 + bound * 2 ^ leadingZeros bound := by
  obtain ⟨hzone, hwhole⟩ := zone_bounds hpos hlt
  rw [accepts, decide_eq_true_eq, scaled, zone_eq, Nat.mul_comm word bound]
  generalize bound * word = product
  generalize bound * 2 ^ leadingZeros bound = part at hzone hwhole
  simp only [Nat.pow_eq] at *
  omega

-- The first multiple of the bound from a number on, when the number is moved by multiples.
theorem ceilDiv_add_mul (hpos : 0 < bound) (start count : Nat) :
    (start + bound * count) ⌈/⌉ bound = start ⌈/⌉ bound + count := by
  have hshift : start + bound * count + bound - 1 = start + bound - 1 + bound * count := by
    omega
  rw [Nat.ceilDiv_eq_add_pred_div, Nat.ceilDiv_eq_add_pred_div, hshift,
    Nat.add_mul_div_left _ _ hpos]

-- The words for a number are as many consecutive ones, wherever the accepted part of the range
-- begins, and none of them is out of range.
theorem wordsFor_eq (hpos : 0 < bound) (hlt : bound < 2 ^ 64) {number : Nat}
    (hnumber : number < bound) :
    wordsFor bound number =
      Finset.Ico ((number * 2 ^ 64) ⌈/⌉ bound)
        ((number * 2 ^ 64) ⌈/⌉ bound + 2 ^ leadingZeros bound) := by
  obtain ⟨-, hwhole⟩ := zone_bounds hpos hlt
  ext word
  rw [wordsFor, Finset.mem_filter, Finset.mem_range, gives_iff hpos hlt, Finset.mem_Ico,
    ← ceilDiv_add_mul hpos, ceilDiv_le_iff_le_mul hpos,
    lt_iff_lt_of_le_iff_le (ceilDiv_le_iff_le_mul hpos)]
  refine and_iff_right_of_imp fun ⟨_, hbehind⟩ => ?_
  -- the product is below that of the bound with the number of all words
  have hrange : number * 2 ^ 64 + bound * 2 ^ leadingZeros bound ≤ bound * 2 ^ 64 :=
    calc
      number * 2 ^ 64 + bound * 2 ^ leadingZeros bound ≤ number * 2 ^ 64 + 2 ^ 64 :=
        Nat.add_le_add_left hwhole _
      _ = (number + 1) * 2 ^ 64 := (Nat.succ_mul number (2 ^ 64)).symm
      _ ≤ bound * 2 ^ 64 := Nat.mul_le_mul_right (2 ^ 64) hnumber
  exact Nat.lt_of_mul_lt_mul_left (Nat.lt_of_lt_of_le hbehind hrange)

theorem card_wordsFor (hpos : 0 < bound) (hlt : bound < 2 ^ 64) {number : Nat}
    (hnumber : number < bound) : (wordsFor bound number).card = 2 ^ leadingZeros bound := by
  rw [wordsFor_eq hpos hlt hnumber, Nat.card_Ico, Nat.add_sub_cancel_left]

theorem scaled_lt {word : Nat} (hpos : 0 < bound) (hword : word < 2 ^ 64) :
    scaled bound word < bound := by
  rw [scaled, Nat.pow_eq, Nat.div_lt_iff_lt_mul (Nat.two_pow_pos 64), Nat.mul_comm word]
  exact Nat.mul_lt_mul_of_pos_left hword hpos

end

-- What draws below a bound promise, whatever words come: numbers below it, each the number of the
-- first word that is accepted, and equally many of all words for each of them.
structure Fair (bound : Nat) (draw : RandomSource → Nat × RandomSource) : Prop where
  lt : ∀ source, (draw source).1 < bound
  first : ∀ source rejected, source.FirstAccepted bound rejected → rejected < patience →
    draw source =
      (scaled bound (source.wordAfter rejected), source.advanced (rejected + 1))
  share : ∀ number < bound, (wordsFor bound number).card = 2 ^ leadingZeros bound

theorem below_lt {bound : Nat} (hpos : 0 < bound) (source : RandomSource) :
    (below bound source).1 < bound := by
  rw [below, if_neg (Nat.ne_of_gt hpos)]
  cases h : below? patience bound source with
  | none => exact hpos
  | some drawn =>
      obtain ⟨word, hnumber⟩ := scaled_of_below? h
      rw [Option.getD_some, hnumber]
      exact scaled_lt hpos word.toNat_lt

theorem fair_below {bound : Nat} (hpos : 0 < bound) (hlt : bound < 2 ^ 64) :
    Fair bound (below bound) where
  lt := below_lt hpos
  first source rejected hfirst hfuel := by
    rw [below, if_neg (Nat.ne_of_gt hpos), below?_eq_some hfirst hfuel, Option.getD_some]
  share number hnumber := card_wordsFor hpos hlt hnumber

theorem below_zero (source : RandomSource) : below 0 source = (0, source) := rfl

-- Draws below a bound that may be zero: a bound of zero takes no word from the source.
def Unbiased (bound : UInt64) (draw : RandomSource → Nat × RandomSource) : Prop :=
  (1 ≤ bound → Fair bound.toNat draw) ∧ (bound = 0 → ∀ source, draw source = (0, source))

theorem unbiased_below (bound : UInt64) : Unbiased bound (below bound.toNat) := by
  refine ⟨fun hpos => fair_below (UInt64.le_iff_toNat_le.mp hpos) bound.toNat_lt, ?_⟩
  rintro rfl source
  exact below_zero source

-- Delays are unbiased, those of a controller and those of a plan without a fixed delay, whose
-- bound is its own or else that of its controller.
theorem delays_unbiased (bound : UInt64) :
    Unbiased bound (below bound.toNat) ∧
      ∀ (plan : TrapPlan) (maxDelayMs : Nat), plan.fixedDelayMs = none →
        (plan.randomDelayMs.map UInt64.toNat).getD maxDelayMs = bound.toNat →
          Unbiased bound (plan.delay maxDelayMs) := by
  refine ⟨unbiased_below bound, fun plan maxDelayMs hfixed hbound => ?_⟩
  have hplan : plan.delay maxDelayMs = below bound.toNat := by
    funext source
    rw [TrapPlan.delay, hfixed, ← hbound]
  rw [hplan]
  exact unbiased_below bound

-- A bound just above half of the range passes by every other word. A plan with this bound draws
-- from the words one, two, and so on: the first is passed by, and the second gives a delay of one.
theorem delays_unbiased_above_half :
    let plan : TrapPlan := { callee := "List.Add", randomDelayMs := some 9223372036854775809 }
    let source : RandomSource := { stream := fun i => UInt64.ofNat (i + 1) }
    plan.fixedDelayMs = none ∧ source.FirstAccepted 9223372036854775809 1 ∧
      plan.delay 100 source = (1, source.advanced 2) ∧
      (wordsFor 9223372036854775809 1).card = 1 := by
  intro plan source
  have hfirst : source.FirstAccepted 9223372036854775809 1 :=
    ⟨by decide +kernel, by decide +kernel⟩
  have hscaled : scaled 9223372036854775809 (source.wordAfter 1) = 1 := by decide +kernel
  obtain ⟨-, hdelays⟩ := delays_unbiased 9223372036854775809
  have hplan := (hdelays plan 100 rfl rfl).1 (by decide)
  refine ⟨rfl, hfirst, ?_, ?_⟩
  · exact (hplan.first source 1 hfirst (by decide +kernel)).trans
      (congrArg (·, source.advanced 2) hscaled)
  · exact hplan.share 1 (by decide)

end RandomSource

end DelayInjection
