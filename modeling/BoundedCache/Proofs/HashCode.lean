import BoundedCache.HashCode
import Mathlib.Data.FinEnum
import Mathlib.Data.Nat.Bitwise
import Mathlib.Data.Nat.ModEq

/-!
# Spreading loses nothing

Both spreads are made of rounds that combine a word with a shifted copy of itself. A copy shifted
to the left tells nothing of the highest bits, so a sum with it can be solved for the word from
the lowest bit upwards, carries included. A copy shifted to the right tells nothing of the lowest
bits, so an exclusive or with it can be solved from the highest bit downwards. Every round can
therefore be undone, and so can the whole spread.
-/

namespace BoundedCache.HashCode

/-! ## Words that agree in some bits -/

/-- The words agree in their lowest `bits` bits. -/
def AgreeBelow (bits : Nat) (first second : UInt32) : Prop :=
  first.toNat ≡ second.toNat [MOD 2 ^ bits]

/-- The words agree in all but their lowest `bits` bits. -/
def AgreeAbove (bits : Nat) (first second : UInt32) : Prop :=
  first.toNat >>> bits = second.toNat >>> bits

/-- Each bit of the copy is told by lower bits of the word. -/
def Raises (copy : UInt32 → UInt32) : Prop :=
  ∀ bits < 32, ∀ first second,
    AgreeBelow bits first second → AgreeBelow (bits + 1) (copy first) (copy second)

/-- Each bit of the copy is told by higher bits of the word. -/
def Lowers (copy : UInt32 → UInt32) : Prop :=
  ∀ bits first second,
    AgreeAbove (bits + 1) first second → AgreeAbove bits (copy first) (copy second)

variable {copy other : UInt32 → UInt32}

/-- Reducing a number to a word keeps its lowest bits. -/
theorem mod_modEq {bits : Nat} (inWord : bits ≤ 32) (number : Nat) :
    number % 2 ^ 32 ≡ number [MOD 2 ^ bits] :=
  (Nat.mod_modEq number (2 ^ 32)).of_dvd (Nat.pow_dvd_pow 2 inWord)

/-! ## Solving a round -/

/-- The sum is solved from the lowest bit upwards. -/
theorem Raises.injective_add (raises : Raises copy) :
    Function.Injective fun code => code + copy code := by
  intro first second sameSum
  have agree : ∀ bits ≤ 32, AgreeBelow bits first second := by
    intro bits
    induction bits with
    | zero => exact fun _ => Nat.modEq_one
    | succ bits inductionHypothesis =>
        intro inWord
        -- The copies agree in one bit more than the words do, so it can be cancelled from the sums.
        have copies := raises bits inWord first second (inductionHypothesis (by omega))
        have sums := congrArg UInt32.toNat sameSum
        simp only [UInt32.toNat_add] at sums
        have sumsAgree : first.toNat + (copy first).toNat ≡
            second.toNat + (copy second).toNat [MOD 2 ^ (bits + 1)] :=
          (mod_modEq inWord _).symm.trans (sums ▸ mod_modEq inWord _)
        exact copies.add_right_cancel sumsAgree
  exact UInt32.toNat_inj.1 <|
    (agree 32 (Nat.le_refl 32)).eq_of_lt_of_lt first.toNat_lt second.toNat_lt

/-- The exclusive or is solved from the highest bit downwards. -/
theorem Lowers.injective_xor (lowers : Lowers copy) :
    Function.Injective fun code => code ^^^ copy code := by
  intro first second sameXor
  -- No word has bits above these, so the induction begins with all of them known to agree.
  have agree : ∀ known ≤ 32, AgreeAbove (32 - known) first second := by
    intro known
    induction known with
    | zero =>
        intro _
        rw [AgreeAbove, Nat.shiftRight_eq_div_pow, Nat.shiftRight_eq_div_pow,
          Nat.div_eq_of_lt first.toNat_lt, Nat.div_eq_of_lt second.toNat_lt]
    | succ known inductionHypothesis =>
        intro inWord
        have above := inductionHypothesis (by omega)
        rw [show 32 - known = 32 - (known + 1) + 1 by omega] at above
        have copies := lowers _ first second above
        have xors := congrArg (fun code => code.toNat >>> (32 - (known + 1))) sameXor
        simp only [UInt32.toNat_xor, Nat.shiftRight_xor_distrib] at xors
        rw [show (copy first).toNat >>> _ = (copy second).toNat >>> _ from copies] at xors
        exact Nat.xor_left_inj.1 xors
  exact UInt32.toNat_inj.1 (agree 32 (Nat.le_refl 32))

/-! ## Copies that a round may use -/

theorem raises_shiftLeft {amount : UInt32} (moves : 0 < amount.toNat % 32) :
    Raises fun code => code <<< amount := by
  intro bits inWord first second agree
  have wider : first.toNat * 2 ^ (amount.toNat % 32) ≡ second.toNat * 2 ^ (amount.toNat % 32)
      [MOD 2 ^ (bits + 1)] := by
    refine (agree.mul_right' (2 ^ (amount.toNat % 32))).of_dvd ?_
    rw [← Nat.pow_add]
    exact Nat.pow_dvd_pow 2 (by omega)
  rw [AgreeBelow, UInt32.toNat_shiftLeft, UInt32.toNat_shiftLeft, Nat.shiftLeft_eq,
    Nat.shiftLeft_eq]
  exact (mod_modEq inWord _).trans (wider.trans (mod_modEq inWord _).symm)

theorem Raises.add (raises : Raises copy) (otherRaises : Raises other) :
    Raises fun code => copy code + other code := by
  intro bits inWord first second agree
  have sums := (raises bits inWord first second agree).add
    (otherRaises bits inWord first second agree)
  rw [AgreeBelow, UInt32.toNat_add, UInt32.toNat_add]
  exact (mod_modEq inWord _).trans (sums.trans (mod_modEq inWord _).symm)

theorem Raises.xor_const (raises : Raises copy) (mask : UInt32) :
    Raises fun code => copy code ^^^ mask := by
  intro bits inWord first second agree
  have copies := raises bits inWord first second agree
  rw [AgreeBelow, Nat.ModEq] at copies ⊢
  rw [UInt32.toNat_xor, UInt32.toNat_xor, Nat.xor_mod_two_pow, Nat.xor_mod_two_pow, copies]

theorem lowers_shiftRight {amount : UInt32} (moves : 0 < amount.toNat % 32) :
    Lowers fun code => code >>> amount := by
  intro bits first second agree
  have split : amount.toNat % 32 + bits = bits + 1 + (amount.toNat % 32 - 1) := by omega
  rw [AgreeAbove] at agree ⊢
  rw [UInt32.toNat_shiftRight, UInt32.toNat_shiftRight, ← Nat.shiftRight_add,
    ← Nat.shiftRight_add, split, Nat.shiftRight_add _ (bits + 1), agree,
    ← Nat.shiftRight_add _ (bits + 1)]

theorem Lowers.xor (lowers : Lowers copy) (otherLowers : Lowers other) :
    Lowers fun code => copy code ^^^ other code := by
  intro bits first second agree
  have copies := lowers bits first second agree
  have others := otherLowers bits first second agree
  rw [AgreeAbove] at copies others ⊢
  rw [UInt32.toNat_xor, UInt32.toNat_xor, Nat.shiftRight_xor_distrib,
    Nat.shiftRight_xor_distrib, copies, others]

/-! ## The spreads -/

theorem injective_avalanche : Function.Injective avalanche := by
  have firstSum : Function.Injective fun code : UInt32 =>
      code + ((code <<< 15) ^^^ 0xffffcd7d) :=
    ((raises_shiftLeft (by decide)).xor_const 0xffffcd7d).injective_add
  have firstFold : Function.Injective fun code : UInt32 => code ^^^ (code >>> 10) :=
    (lowers_shiftRight (by decide)).injective_xor
  have secondSum : Function.Injective fun code : UInt32 => code + (code <<< 3) :=
    (raises_shiftLeft (by decide)).injective_add
  have secondFold : Function.Injective fun code : UInt32 => code ^^^ (code >>> 6) :=
    (lowers_shiftRight (by decide)).injective_xor
  have thirdSum : Function.Injective fun code : UInt32 =>
      code + ((code <<< 2) + (code <<< 14)) :=
    ((raises_shiftLeft (by decide)).add (raises_shiftLeft (by decide))).injective_add
  have thirdFold : Function.Injective fun code : UInt32 => code ^^^ (code >>> 16) :=
    (lowers_shiftRight (by decide)).injective_xor
  exact thirdFold.comp <| thirdSum.comp <| secondFold.comp <| secondSum.comp <|
    firstFold.comp firstSum

theorem injective_shiftXor : Function.Injective shiftXor := by
  have farFold : Function.Injective fun code : UInt32 =>
      code ^^^ ((code >>> 20) ^^^ (code >>> 12)) :=
    ((lowers_shiftRight (by decide)).xor (lowers_shiftRight (by decide))).injective_xor
  have nearFold : Function.Injective fun code : UInt32 =>
      code ^^^ ((code >>> 7) ^^^ (code >>> 4)) :=
    ((lowers_shiftRight (by decide)).xor (lowers_shiftRight (by decide))).injective_xor
  intro first second same
  refine (nearFold.comp farFold) ?_
  simpa only [shiftXor, Function.comp, UInt32.xor_assoc] using same

/-- Both spreads only rename the hash codes: each code has one image and is the image of one code.
So two keys have the same spread code exactly if their folded hashes are the same. -/
theorem spreads_lose_nothing :
    Function.Bijective avalanche ∧ Function.Bijective shiftXor ∧
    ∀ (κ : Type) [Hashable κ] (key other : κ),
      (avalanched key = avalanched other ↔ ofKey key = ofKey other) ∧
      (shifted key = shifted other ↔ ofKey key = ofKey other) :=
  ⟨Finite.injective_iff_bijective.1 injective_avalanche,
    Finite.injective_iff_bijective.1 injective_shiftXor,
    fun _ _ _ _ => ⟨injective_avalanche.eq_iff, injective_shiftXor.eq_iff⟩⟩

end BoundedCache.HashCode
