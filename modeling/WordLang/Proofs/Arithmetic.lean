import WordLang.Operator

/-! # Operators compute what they mean

    `BinOp.apply` cuts results to a width, takes differences above `2 ^ 64`
    and asks for overflows before it cuts.  `BinOp.meaning` does none of
    this: it says in exact whole numbers what an operator stands for.  On two
    words of the width the two agree, whatever the operator, the width and
    the policy are.

    Results before they are cut are numbers without a bound, but they need
    none: computed in words of 128 bits from any two words of 64 bits, with
    all that does not fit lost, they are the same. -/

namespace WordLang

/-! ## Section 1: What operators mean -/

/-- A whole number as a word.  If it is none of the numbers of the width, its remainder stands for
    it, or else that is an overflow. -/
def Value.ofInt (w : Width) (policy : Overflow) (z : Int) : Except Fault Value :=
  if policy = .trap ∧ ¬ (0 ≤ z ∧ z < w.count) then .error .overflow
  else .ok (.scalar w (z % w.count).toNat)

/-- What an operator means on two numbers of a width, in exact arithmetic. -/
def BinOp.meaning (op : BinOp) (w : Width) (a b : Nat) (policy : Overflow) : Except Fault Value :=
  match op with
  | .add => Value.ofInt w policy ((a : Int) + b)
  | .sub => Value.ofInt w policy ((a : Int) - b)
  | .mul => Value.ofInt w policy ((a : Int) * b)
  | .div => if b = 0 then .error .divisionByZero else .ok (.scalar w (a / b))
  | .rem => if b = 0 then .error .divisionByZero else .ok (.scalar w (a % b))
  | .xor => .ok (.scalar w (BitVec.ofNat w.bits a ^^^ BitVec.ofNat w.bits b).toNat)
  | .shl => .ok (.scalar w (a * Nat.pow 2 b % w.count))
  | .shr => .ok (.scalar w (a / Nat.pow 2 b))
  | .or => .ok (.ofBool (decide (a ≠ 0 ∨ b ≠ 0)))
  | .and => .ok (.ofBool (decide (a ≠ 0 ∧ b ≠ 0)))
  | .eq => .ok (.ofBool (decide (a = b)))
  | .ne => .ok (.ofBool (decide (a ≠ b)))
  | .lt => .ok (.ofBool (decide (a < b)))
  | .le => .ok (.ofBool (decide (a ≤ b)))
  | .gt => .ok (.ofBool (decide (a > b)))
  | .ge => .ok (.ofBool (decide (a ≥ b)))

/-! ## Section 2: Numbers of a width -/

namespace Width

variable {w : Width} {n : Nat}

theorem lt_count_iff : n < w.count ↔ n ≤ w.max := by
  have := w.count_pos
  rw [max]
  omega

/-- Every width counts a power of two up to `2 ^ 64`. -/
theorem count_dvd_word (w : Width) : w.count ∣ word.count := Nat.pow_dvd_pow 2 w.le_size

theorem count_le_word (w : Width) : w.count ≤ word.count :=
  Nat.le_of_dvd word.count_pos w.count_dvd_word

/-- Shifting by all bits of a width or more leaves none of them. -/
theorem count_dvd_pow {b : Nat} (h : w.bits ≤ b) : w.count ∣ Nat.pow 2 b := Nat.pow_dvd_pow 2 h

theorem count_le_pow {b : Nat} (h : w.bits ≤ b) : w.count ≤ Nat.pow 2 b :=
  Nat.pow_le_pow_right (by decide) h

end Width

namespace Value

variable {w : Width}

theorem wrapped_of_lt {n : Nat} (h : n < w.count) : wrapped w n = .scalar w n := by
  rw [wrapped, Width.reduce_eq_self (Width.fits_iff.mpr h)]

theorem wrapped_bool (b : Bool) : wrapped .bool b.toNat = ofBool b := by
  cases b <;> rfl

/-- A number stands for every whole number with the same remainder. -/
theorem wrapped_of_emod {n : Nat} {z : Int} (h : (n : Int) % w.count = z % w.count) :
    wrapped w n = .scalar w (z % w.count).toNat := by
  rw [← h, wrapped, Width.reduce]
  rfl

theorem ofInt_wrap (w : Width) (z : Int) :
    ofInt w .wrap z = .ok (.scalar w (z % w.count).toNat) := rfl

theorem ofInt_trap_of_mem {z : Int} (h : 0 ≤ z ∧ z < w.count) :
    ofInt w .trap z = .ok (.scalar w (z % w.count).toNat) :=
  if_neg (fun hout => hout.2 h)

theorem ofInt_trap_of_not_mem {z : Int} (h : ¬ (0 ≤ z ∧ z < w.count)) :
    ofInt w .trap z = .error .overflow := if_pos ⟨rfl, h⟩

end Value

/-! ## Section 3: One operator after another -/

namespace BinOp

variable {op : BinOp} {w : Width} {a b : Nat} {policy : Overflow}

/-- Where nothing overflows, the result is what is left after the cut. -/
theorem apply_eq_wrapped (hdiv : (op.divides && b == 0) = false)
    (hover : op.overflows w a b = false) :
    op.apply w a b policy = .ok (.wrapped (op.resultWidth w) (op.raw w a b)) := by
  rw [apply, hdiv, hover]
  simp

/-- An operator of whole numbers, if its result is right up to the cut and it overflows just if the
    exact result is no number of the width. -/
theorem apply_eq_ofInt {z : Int} (hdiv : op.divides = false) (hwidth : op.resultWidth w = w)
    (hraw : (op.raw w a b : Int) % w.count = z % w.count)
    (hover : op.overflows w a b = true ↔ ¬ (0 ≤ z ∧ z < w.count)) :
    op.apply w a b policy = Value.ofInt w policy z := by
  rw [apply, hdiv, hwidth, Value.wrapped_of_emod hraw]
  cases policy with
  | wrap => simp [Value.ofInt_wrap]
  | trap =>
    by_cases hz : 0 ≤ z ∧ z < w.count
    · have hfits : op.overflows w a b = false := by
        rw [Bool.eq_false_iff]
        exact fun h => hover.mp h hz
      simp [Value.ofInt_trap_of_mem hz, hfits]
    · simp [Value.ofInt_trap_of_not_mem hz, hover.mpr hz]

/-- An operator whose result is a number of the width without a cut. -/
theorem apply_eq_scalar (hdiv : (op.divides && b == 0) = false) (hwidth : op.resultWidth w = w)
    (hraw : op.raw w a b < w.count)
    (hover : op.overflows w a b = true → w.max < op.raw w a b) :
    op.apply w a b policy = .ok (.scalar w (op.raw w a b)) := by
  have hfits : op.overflows w a b = false := by
    rw [Bool.eq_false_iff]
    intro h
    have := hover h
    have := Width.lt_count_iff.mp hraw
    omega
  rw [apply_eq_wrapped hdiv hfits, hwidth, Value.wrapped_of_lt hraw]

/-- Operators with a truth value never fail. -/
theorem apply_eq_ofBool {c : Bool} {P : Prop} [Decidable P] (hbool : op.yieldsBool = true)
    (hraw : op.raw w a b = c.toNat) (hc : c = true ↔ P) :
    op.apply w a b policy = .ok (.ofBool (decide P)) := by
  have hdiv : (op.divides && b == 0) = false := by cases op <;> first | rfl | cases hbool
  have hover : op.overflows w a b = false := by cases op <;> first | rfl | cases hbool
  have htruth : c = decide P := by rw [Bool.eq_iff_iff, hc, decide_eq_true_iff]
  rw [apply_eq_wrapped hdiv hover, resultWidth, if_pos hbool, hraw, Value.wrapped_bool, htruth]

/-- Dividing by zero is a fault; else a quotient or remainder is no greater than what is divided. -/
theorem apply_of_divides (hdiv : op.divides = true) (ha : a < w.count) :
    op.apply w a b policy =
      if b = 0 then .error .divisionByZero else .ok (.scalar w (op.raw w a b)) := by
  have hle : op.raw w a b ≤ a := by
    cases op with
    | div => exact Nat.div_le_self a b
    | rem => exact Nat.mod_le a b
    | _ => cases hdiv
  by_cases hzero : b = 0
  · simp [apply, hdiv, hzero]
  · rw [if_neg hzero]
    apply apply_eq_scalar
    · simp [hzero]
    · cases op <;> first | rfl | cases hdiv
    · exact Nat.lt_of_le_of_lt hle ha
    · cases op with
      | div => exact of_decide_eq_true
      | rem => exact of_decide_eq_true
      | _ => cases hdiv

theorem overflows_iff_of_raw {z : Int} (hz : (op.raw w a b : Int) = z)
    (hover : op.overflows w a b = decide (w.max < op.raw w a b)) :
    op.overflows w a b = true ↔ ¬ (0 ≤ z ∧ z < w.count) := by
  have hmax := Width.lt_count_iff (w := w) (n := op.raw w a b)
  rw [hover, decide_eq_true_iff]
  omega

/-- Taken above `2 ^ 64`, a difference has the remainder of the exact one. -/
theorem raw_sub_emod (hb : b ≤ Width.word.count) :
    (BinOp.sub.raw w a b : Int) % w.count = ((a : Int) - b) % w.count := by
  obtain ⟨k, hk⟩ := w.count_dvd_word
  have hraw : (BinOp.sub.raw w a b : Int) = ((a : Int) - b) + w.count * k := by
    have hcount : (Width.word.count : Int) = w.count * k := by rw [hk]; exact Int.natCast_mul _ _
    show ((Width.word.count + a - b : Nat) : Int) = _
    omega
  rw [hraw, Int.add_mul_emod_self_left]

theorem apply_xor (ha : a < w.count) (hb : b < w.count) :
    BinOp.xor.apply w a b policy = BinOp.xor.meaning w a b policy := by
  have hbits : (BitVec.ofNat w.bits a ^^^ BitVec.ofNat w.bits b).toNat = a ^^^ b := by
    rw [BitVec.toNat_xor, BitVec.toNat_ofNat, BitVec.toNat_ofNat]
    show a % w.count ^^^ b % w.count = a ^^^ b
    rw [Nat.mod_eq_of_lt ha, Nat.mod_eq_of_lt hb]
  have hraw : BinOp.xor.raw w a b < w.count := Nat.xor_lt_two_pow ha hb
  rw [apply_eq_scalar rfl rfl hraw of_decide_eq_true, meaning, hbits]
  rfl

/-- A shift to the left by the width or more, made or not, leaves no bit of the width. -/
theorem apply_shl : BinOp.shl.apply w a b policy = BinOp.shl.meaning w a b policy := by
  have hraw : BinOp.shl.raw w a b % w.count = a * Nat.pow 2 b % w.count := by
    rw [raw]
    split
    · next hall =>
      have hdvd : w.count ∣ a * Nat.pow 2 b :=
        Nat.dvd_mul_left_of_dvd (Width.count_dvd_pow hall) a
      rw [Nat.mod_eq_zero_of_dvd hdvd, Nat.zero_mod]
    · rw [Nat.shiftLeft_eq]
      rfl
  rw [apply_eq_wrapped rfl rfl, meaning, ← hraw]
  rfl

theorem apply_shr (ha : a < w.count) :
    BinOp.shr.apply w a b policy = BinOp.shr.meaning w a b policy := by
  have hvalue : BinOp.shr.raw w a b = a / Nat.pow 2 b := by
    rw [raw]
    split
    · next hall =>
      exact (Nat.div_eq_of_lt (Nat.lt_of_lt_of_le ha (Width.count_le_pow hall))).symm
    · exact Nat.shiftRight_eq_div_pow a b
  have hraw : BinOp.shr.raw w a b < w.count := by
    rw [hvalue]
    exact Nat.lt_of_le_of_lt (Nat.div_le_self _ _) ha
  rw [apply_eq_scalar rfl rfl hraw of_decide_eq_true, meaning, hvalue]

/-- On two words of the width, every operator gives what it means. -/
theorem apply_eq_meaning (ha : a < w.count) (hb : b < w.count) :
    op.apply w a b policy = op.meaning w a b policy := by
  cases op with
  | add => exact apply_eq_ofInt rfl rfl rfl (overflows_iff_of_raw rfl rfl)
  | mul => exact apply_eq_ofInt rfl rfl rfl (overflows_iff_of_raw (Int.natCast_mul a b) rfl)
  | sub =>
    refine apply_eq_ofInt rfl rfl (raw_sub_emod ?_) ?_
    · exact Nat.le_trans (Nat.le_of_lt hb) w.count_le_word
    · -- a difference of words is never too large
      simp only [overflows, decide_eq_true_iff]
      omega
  | div => exact apply_of_divides rfl ha
  | rem => exact apply_of_divides rfl ha
  | xor => exact apply_xor ha hb
  | shl => exact apply_shl
  | shr => exact apply_shr ha
  | or => exact apply_eq_ofBool rfl rfl (by simp)
  | and => exact apply_eq_ofBool rfl rfl (by simp)
  | eq => exact apply_eq_ofBool rfl rfl (by simp)
  | ne => exact apply_eq_ofBool rfl rfl (by simp)
  | lt => exact apply_eq_ofBool rfl rfl (by simp)
  | le => exact apply_eq_ofBool rfl rfl (by simp)
  | gt => exact apply_eq_ofBool rfl rfl (by simp)
  | ge => exact apply_eq_ofBool rfl rfl (by simp)

theorem apply_shift_all (hshift : op = .shl ∨ op = .shr) (hall : w.bits ≤ b) :
    op.apply w a b policy = .ok (.scalar w 0) := by
  have hzero : Value.wrapped w 0 = .scalar w 0 := Value.wrapped_of_lt w.count_pos
  rcases hshift with rfl | rfl
  · rw [apply_eq_wrapped rfl rfl, raw, if_pos hall]
    exact congrArg Except.ok hzero
  · have hover : BinOp.shr.overflows w a b = false := by simp [overflows, raw, hall]
    rw [apply_eq_wrapped rfl hover, raw, if_pos hall]
    exact congrArg Except.ok hzero

/-! ## Section 4: Words of 128 bits are enough -/

/-- The result before it is cut, computed in words of 128 bits: what does not fit such a word is
    lost.  A truth value is a single bit, whatever it is computed from. -/
def rawWord (op : BinOp) (w : Width) (a b : BitVec 128) : BitVec 128 :=
  match op with
  | .add => a + b
  | .sub => BitVec.ofNat 128 Width.word.count + a - b
  | .mul => a * b
  | .div => a / b
  | .rem => a % b
  | .xor => a ^^^ b
  | .shl => if w.bits ≤ b.toNat then 0 else a <<< b.toNat
  | .shr => if w.bits ≤ b.toNat then 0 else a >>> b.toNat
  | .or | .and | .eq | .ne | .lt | .le | .gt | .ge => BitVec.ofNat 128 (op.raw w a.toNat b.toNat)

theorem raw_le_one (hbool : op.yieldsBool = true) : op.raw w a b ≤ 1 := by
  cases op <;> first | exact Bool.toNat_le _ | cases hbool

/-- From words of 64 bits, no operator needs more than 128. -/
theorem raw_lt (ha : a < Width.word.count) (hb : b < Width.word.count) :
    op.raw w a b < Nat.pow 2 128 := by
  have hword : Width.word.count = 0x10000000000000000 := rfl
  have hlimit : Nat.pow 2 128 = Width.word.count * Width.word.count := rfl
  have hsmall : ∀ n, n ≤ a ∨ n ≤ 1 → n < Nat.pow 2 128 := by
    intro n hn
    rw [hlimit, hword]
    omega
  cases op with
  | add => rw [raw, hlimit, hword]; omega
  | sub => rw [raw, hlimit, hword]; omega
  | mul => rw [raw, hlimit]; exact Nat.mul_lt_mul'' ha hb
  | div => exact hsmall _ (.inl (Nat.div_le_self a b))
  | rem => exact hsmall _ (.inl (Nat.mod_le a b))
  | xor =>
    have hxor : a ^^^ b < Width.word.count := Nat.xor_lt_two_pow ha hb
    rw [raw, hlimit, hword]
    omega
  | shl =>
    rw [raw]
    split
    · exact hsmall 0 (.inr (by decide))
    · next hsome =>
      -- the word is shifted by fewer than 64 places
      have hb : b ≤ 64 := Nat.le_trans (Nat.le_of_not_le hsome) w.le_size
      have hle : Nat.pow 2 b ≤ Width.word.count := Nat.pow_le_pow_right (by decide) hb
      rw [Nat.shiftLeft_eq, hlimit]
      exact Nat.mul_lt_mul_of_lt_of_le ha hle Width.word.count_pos
  | shr =>
    rw [raw]
    split
    · exact hsmall 0 (.inr (by decide))
    · exact hsmall _ (.inl (Nat.shiftRight_eq_div_pow a b ▸ Nat.div_le_self _ _))
  | or | and | eq | ne | lt | le | gt | ge => exact hsmall _ (.inr (raw_le_one rfl))

/-- Words of 128 bits lose nothing. -/
theorem toNat_rawWord (ha : a < Width.word.count) (hb : b < Width.word.count) :
    (op.rawWord w (BitVec.ofNat 128 a) (BitVec.ofNat 128 b)).toNat = op.raw w a b := by
  have hlt : op.raw w a b < Nat.pow 2 128 := raw_lt ha hb
  have hword : Width.word.count = 0x10000000000000000 := rfl
  have hnat : ∀ {n : Nat}, n < Width.word.count → (BitVec.ofNat 128 n).toNat = n := by
    intro n hn
    rw [BitVec.toNat_ofNat]
    omega
  have hmod : ∀ {n : Nat}, n < Nat.pow 2 128 → n % Nat.pow 2 128 = n := Nat.mod_eq_of_lt
  cases op with
  | add => rw [rawWord, BitVec.toNat_add, hnat ha, hnat hb]; exact hmod hlt
  | sub =>
    rw [rawWord, raw]
    bv_omega
  | mul => rw [rawWord, BitVec.toNat_mul, hnat ha, hnat hb]; exact hmod hlt
  | div => rw [rawWord, BitVec.toNat_udiv, hnat ha, hnat hb]; rfl
  | rem => rw [rawWord, BitVec.toNat_umod, hnat ha, hnat hb]; rfl
  | xor => rw [rawWord, BitVec.toNat_xor, hnat ha, hnat hb]; rfl
  | shl =>
    rw [raw] at hlt ⊢
    rw [rawWord, hnat hb]
    split
    · rfl
    · next hsome =>
      rw [if_neg hsome] at hlt
      rw [BitVec.toNat_shiftLeft, hnat ha]
      exact hmod hlt
  | shr =>
    rw [rawWord, raw, hnat hb]
    split
    · rfl
    · rw [BitVec.toNat_ushiftRight, hnat ha]
  | or | and | eq | ne | lt | le | gt | ge =>
    rw [rawWord, hnat ha, hnat hb, BitVec.toNat_ofNat]
    exact hmod hlt

/-! ## Section 5: Operators are exact -/

/-- On two words of a width, every operator gives what it means in exact arithmetic; shifts by the
    width or more give zero.  On any two words of 64 bits, nothing is lost if the result before the
    cut is computed in words of 128 bits, and what is given is the number left of it by the cut,
    which fits its width. -/
theorem operators_exact (op : BinOp) (w : Width) (a b : Nat) (policy : Overflow) :
    (a < w.count → b < w.count → op.apply w a b policy = op.meaning w a b policy) ∧
    (w.bits ≤ b → op = .shl ∨ op = .shr → op.apply w a b policy = .ok (.scalar w 0)) ∧
    (a < Width.word.count → b < Width.word.count →
      (op.rawWord w (BitVec.ofNat 128 a) (BitVec.ofNat 128 b)).toNat = op.raw w a b ∧
      ∀ v, op.apply w a b policy = .ok v → ∃ n, v = .scalar (op.resultWidth w) n ∧
        n = (op.rawWord w (BitVec.ofNat 128 a) (BitVec.ofNat 128 b)).toNat %
          (op.resultWidth w).count ∧
        n < (op.resultWidth w).count) := by
  refine ⟨apply_eq_meaning, fun hall hshift => apply_shift_all hshift hall, fun ha hb => ?_⟩
  have hword : _ = op.raw w a b := toNat_rawWord ha hb
  refine ⟨hword, fun v hv => ⟨_, apply_eq_ok hv, ?_, ?_⟩⟩
  · rw [hword]
    rfl
  · exact Nat.mod_lt _ (Width.count_pos _)

/-- Three less twelve in four bits, the square of the greatest word where that is an overflow, and
    that word shifted to the left by all places but one. -/
theorem operators_exact_extremes :
    let nibble : Width := ⟨4, by decide, by decide⟩
    let top : Nat := 0xFFFFFFFFFFFFFFFF
    (3 < nibble.count ∧ 12 < nibble.count ∧
      BinOp.sub.apply nibble 3 12 .wrap = BinOp.sub.meaning nibble 3 12 .wrap ∧
      BinOp.sub.meaning nibble 3 12 .wrap = .ok (.scalar nibble 7)) ∧
    (top < Width.word.count ∧
      BinOp.mul.apply .word top top .trap = BinOp.mul.meaning .word top top .trap ∧
      BinOp.mul.meaning .word top top .trap = .error .overflow) ∧
    (nibble.bits ≤ 4 ∧ BinOp.shr.apply nibble top 4 .trap = .ok (.scalar nibble 0)) ∧
    (BinOp.shl.rawWord .word (BitVec.ofNat 128 top) (BitVec.ofNat 128 63)).toNat =
      BinOp.shl.raw .word top 63 := by
  intro nibble top
  have htop : top < Width.word.count := by decide
  refine ⟨⟨by decide, by decide, ?_, rfl⟩, ⟨htop, ?_, ?_⟩, ⟨by decide, ?_⟩, ?_⟩
  · exact (operators_exact .sub nibble 3 12 .wrap).1 (by decide) (by decide)
  · exact (operators_exact .mul .word top top .trap).1 htop htop
  · exact Value.ofInt_trap_of_not_mem (by decide)
  · exact (operators_exact .shr nibble top 4 .trap).2.1 (by decide) (.inr rfl)
  · exact ((operators_exact .shl .word top 63 .wrap).2.2 htop (by decide)).1

end BinOp

end WordLang
