import Immediate.Number.Arithmetic
/-! Widening loses nothing. A number that a layout can store is its own nearest number, so a 32-bit
number comes back from 64 bits with the pattern it had, unless it is a NaN that had to become quiet.
What was narrowed is quiet already and always comes back. -/
namespace Immediate

/-- What a fraction stands for at the top of the exponent field. -/
def Datum.top (negative : Bool) (fraction : Nat) : Datum :=
  if fraction = 0 then .infinite negative else .nan negative fraction

namespace Layout

variable {L : Layout}

/-! ### Reading patterns -/

theorem fractionWeight_pos (L : Layout) : 0 < Nat.pow 2 L.fractionBits := Nat.two_pow_pos _

/-- The sign stands above all values of the exponent field. -/
theorem signWeight_eq (L : Layout) :
    L.signWeight = (L.topField + 1) * Nat.pow 2 L.fractionBits := by
  have split : L.signWeight = Nat.pow 2 L.fractionBits * Nat.pow 2 L.exponentBits := Nat.pow_add ..
  have positive : 0 < Nat.pow 2 L.exponentBits := Nat.two_pow_pos _
  rw [split, topField, Nat.sub_add_cancel positive, Nat.mul_comm]

theorem parts_lt_signWeight {field fraction : Nat} (within : field ≤ L.topField)
    (low : fraction < Nat.pow 2 L.fractionBits) :
    field * Nat.pow 2 L.fractionBits + fraction < L.signWeight := by
  have bound : (field + 1) * Nat.pow 2 L.fractionBits ≤ L.signWeight := by
    rw [signWeight_eq]
    exact Nat.mul_le_mul_right _ (Nat.succ_le_succ within)
  rw [Nat.succ_mul] at bound
  omega

theorem pattern_lt (negative : Bool) {magnitude : Nat} (below : magnitude < L.signWeight) :
    L.signPart negative + magnitude < 2 * L.signWeight := by
  have sign : L.signPart negative ≤ L.signWeight := by
    unfold signPart
    split <;> omega
  omega

/-- Below the top of the exponent field magnitudes are smaller than that of an infinity. -/
theorem parts_lt_infinity {field fraction : Nat} (low : fraction < Nat.pow 2 L.fractionBits) :
    field * Nat.pow 2 L.fractionBits + fraction < L.infinity ↔ field < L.topField := by
  constructor
  · intro bounded
    exact Nat.lt_of_mul_lt_mul_right (Nat.lt_of_le_of_lt (Nat.le_add_right ..) bounded)
  · intro below
    have next : (field + 1) * Nat.pow 2 L.fractionBits ≤ L.infinity := Nat.mul_le_mul_right _ below
    rw [Nat.succ_mul] at next
    omega

/-- What a pattern stands for, by its sign, its exponent field and its fraction. -/
theorem decode_parts (negative : Bool) {field fraction : Nat} (within : field ≤ L.topField)
    (low : fraction < Nat.pow 2 L.fractionBits) :
    L.decode (L.signPart negative + (field * Nat.pow 2 L.fractionBits + fraction)) =
      if field = L.topField then
        if fraction = 0 then .infinite negative else .nan negative fraction
      else if field = 0 then .finite negative fraction L.lowestExponent
      else
        .finite negative (Nat.pow 2 L.fractionBits + fraction) (L.lowestExponent + field - 1) := by
  have positive := fractionWeight_pos L
  have below := parts_lt_signWeight within low
  have divides : Nat.pow 2 L.fractionBits ∣ L.signWeight := Nat.pow_dvd_pow 2 (Nat.le_add_right ..)
  have fields :
      (field * Nat.pow 2 L.fractionBits + fraction) / Nat.pow 2 L.fractionBits = field := by
    rw [Nat.mul_comm, Nat.mul_add_div positive, Nat.div_eq_of_lt low, Nat.add_zero]
  have fractions :
      (field * Nat.pow 2 L.fractionBits + fraction) % Nat.pow 2 L.fractionBits = fraction := by
    rw [Nat.mul_comm, Nat.mul_add_mod, Nat.mod_eq_of_lt low]
  generalize field * Nat.pow 2 L.fractionBits + fraction = magnitude at below fields fractions
  have sign : (L.signPart negative + magnitude) / L.signWeight = if negative then 1 else 0 := by
    cases negative with
    | true => exact Nat.div_eq_of_lt_le (by simp [signPart]) (by simp [signPart]; omega)
    | false => simpa [signPart] using .inr below
  have rest : (L.signPart negative + magnitude) % L.signWeight = magnitude := by
    cases negative <;> simpa [signPart] using Nat.mod_eq_of_lt below
  have lowBits : (L.signPart negative + magnitude) % Nat.pow 2 L.fractionBits = fraction := by
    rw [← Nat.mod_mod_of_dvd _ divides, rest, fractions]
  unfold decode
  simp only [sign, rest, fields, lowBits]
  cases negative <;> simp

/-- The magnitude of a significand stored at a place. -/
def stored (L : Layout) (significand : Nat) (place : Int) : Nat :=
  (place - L.lowestExponent).toNat * Nat.pow 2 L.fractionBits + significand

/-- A layout has a pattern for a number: the significand has no more than its bits and fills them,
unless it stands at the lowest place. -/
structure Stores (L : Layout) (significand : Nat) (place : Int) : Prop where
  placed : L.lowestExponent ≤ place
  short : significand < 2 * Nat.pow 2 L.fractionBits
  full : Nat.pow 2 L.fractionBits ≤ significand ∨ place = L.lowestExponent
  bounded : L.stored significand place < L.infinity

theorem stored_lowest (L : Layout) (significand : Nat) :
    L.stored significand L.lowestExponent = 0 * Nat.pow 2 L.fractionBits + significand := by
  rw [stored, Int.sub_self, Int.toNat_zero]

theorem stored_full (L : Layout) (fraction : Nat) (place : Int) :
    L.stored (Nat.pow 2 L.fractionBits + fraction) place =
      ((place - L.lowestExponent).toNat + 1) * Nat.pow 2 L.fractionBits + fraction := by
  rw [stored, Nat.succ_mul, Nat.add_assoc]

/-- A stored number is read as it was stored. -/
theorem decode_stored (negative : Bool) {significand : Nat} {place : Int}
    (stores : L.Stores significand place) :
    L.decode (L.signPart negative + L.stored significand place) =
      .finite negative significand place := by
  obtain ⟨placed, short, full, bounded⟩ := stores
  by_cases filled : Nat.pow 2 L.fractionBits ≤ significand
  · obtain ⟨fraction, rfl⟩ := Nat.exists_eq_add_of_le filled
    have low : fraction < Nat.pow 2 L.fractionBits := by omega
    rw [stored_full, parts_lt_infinity low] at bounded
    rw [stored_full, decode_parts negative (Nat.le_of_lt bounded) low,
      if_neg (Nat.ne_of_lt bounded), if_neg (Nat.succ_ne_zero _)]
    congr 1
    omega
  · obtain rfl := full.resolve_left filled
    have low : significand < Nat.pow 2 L.fractionBits := Nat.lt_of_not_le filled
    rw [stored_lowest, parts_lt_infinity low] at bounded
    rw [stored_lowest, decode_parts negative (Nat.le_of_lt bounded) low,
      if_neg (Nat.ne_of_lt bounded), if_pos rfl]

/-- The infinities and NaNs stand at the top of the exponent field. -/
theorem decode_top (negative : Bool) {fraction : Nat} (low : fraction < Nat.pow 2 L.fractionBits) :
    L.decode (L.signPart negative + (L.infinity + fraction)) = .top negative fraction :=
  (decode_parts negative (Nat.le_refl _) low).trans (if_pos rfl)

/-- A pattern is that of a stored number, of an infinity or of a NaN. -/
theorem pattern_cases {bits : Nat} (below : bits < 2 * L.signWeight) : ∃ negative,
    (∃ significand place, L.Stores significand place ∧
      bits = L.signPart negative + L.stored significand place) ∨
    ∃ fraction < Nat.pow 2 L.fractionBits,
      bits = L.signPart negative + (L.infinity + fraction) := by
  obtain ⟨negative, magnitude, bounded, rfl⟩ : ∃ negative magnitude, magnitude < L.signWeight ∧
      bits = L.signPart negative + magnitude := by
    by_cases small : bits < L.signWeight
    · exact ⟨false, bits, small, by simp [signPart]⟩
    · exact ⟨true, bits - L.signWeight, by omega, by simp [signPart]; omega⟩
  have low := Nat.mod_lt magnitude (fractionWeight_pos L)
  have parts := Nat.div_add_mod' magnitude (Nat.pow 2 L.fractionBits)
  have within : magnitude / Nat.pow 2 L.fractionBits < L.topField + 1 := by
    rw [Nat.div_lt_iff_lt_mul (fractionWeight_pos L), ← signWeight_eq]
    exact bounded
  generalize magnitude / Nat.pow 2 L.fractionBits = field at parts within
  generalize magnitude % Nat.pow 2 L.fractionBits = fraction at parts low
  subst parts
  refine ⟨negative, ?_⟩
  by_cases top : field = L.topField
  · subst top
    exact .inr ⟨fraction, low, rfl⟩
  · have finite := (parts_lt_infinity low).mpr (Nat.lt_of_le_of_ne (Nat.le_of_lt_succ within) top)
    refine .inl ?_
    cases field with
    | zero =>
      rw [← stored_lowest] at finite ⊢
      exact ⟨fraction, _, ⟨Int.le_refl _, by omega, .inr rfl, finite⟩, rfl⟩
    | succ field =>
      have same : L.stored (Nat.pow 2 L.fractionBits + fraction) (L.lowestExponent + field) =
          (field + 1) * Nat.pow 2 L.fractionBits + fraction := by
        have place : (L.lowestExponent + field - L.lowestExponent).toNat = field := by omega
        rw [stored_full, place]
      rw [← same] at finite ⊢
      exact ⟨_, _, ⟨by omega, by omega, .inl (Nat.le_add_right ..), finite⟩, rfl⟩

/-! ### Rounding what is stored -/

theorem divideToEven_mul (quotient : Nat) {denominator : Nat} (positive : 0 < denominator) :
    divideToEven (quotient * denominator) denominator = quotient := by
  unfold divideToEven
  simp only [Nat.mul_div_cancel _ positive, Nat.mul_mod_left]
  rw [if_neg (by omega)]

theorem ratioExponent_one {numerator : Nat} (positive : numerator ≠ 0) :
    ratioExponent numerator 1 = numerator.log2 := by
  have one : Nat.log2 1 = 0 := rfl
  have least : Nat.pow 2 numerator.log2 ≤ numerator := Nat.log2_self_le positive
  have exponent : (-((numerator.log2 : Int) - (0 : Nat))).toNat = 0 := by omega
  have reached : numerator * Nat.pow 2 0 ≥ 1 * Nat.pow 2 numerator.log2 := by
    rw [Nat.one_mul, Nat.pow_eq, Nat.pow_zero, Nat.mul_one]
    exact least
  unfold ratioExponent
  simp only [one, exponent]
  rw [Int.natCast_zero, Int.sub_zero, Int.toNat_natCast, if_pos reached]

theorem log2_mul_pow {n : Nat} (positive : n ≠ 0) (shift : Nat) :
    (n * Nat.pow 2 shift).log2 = n.log2 + shift := by
  induction shift with
  | zero => simp
  | succ shift ih =>
    have shifted : n * Nat.pow 2 shift ≠ 0 :=
      Nat.mul_ne_zero positive (Nat.ne_of_gt (Nat.two_pow_pos shift))
    have step : n * Nat.pow 2 (shift + 1) = 2 * (n * Nat.pow 2 shift) := by
      rw [Nat.pow_eq, Nat.pow_succ, Nat.mul_comm 2, Nat.mul_assoc]
      rfl
    rw [step, Nat.log2_two_mul shifted, ih, Nat.add_assoc]

theorem nearest_zero (negative : Bool) (denominator : Nat) (exponent : Int) :
    L.nearest negative 0 denominator exponent = L.signPart negative := if_pos rfl

/-- The nearest number to one that is stored is that number, however it is scaled. -/
theorem nearest_of_stores (negative : Bool) {numerator significand : Nat} {exponent place : Int}
    (nonzero : numerator ≠ 0) (stores : L.Stores significand place)
    (equal : numerator * Nat.pow 2 (exponent - place).toNat =
      significand * Nat.pow 2 (place - exponent).toNat) :
    L.nearest negative numerator 1 exponent = L.signPart negative + L.stored significand place := by
  have present : significand ≠ 0 := by
    rintro rfl
    rw [Nat.zero_mul] at equal
    exact (Nat.mul_ne_zero nonzero (Nat.ne_of_gt (Nat.two_pow_pos _))) equal
  have scaled : (numerator.log2 : Int) + exponent = significand.log2 + place := by
    have logs := congrArg Nat.log2 equal
    rw [log2_mul_pow nonzero, log2_mul_pow present] at logs
    omega
  have chosen : max (ratioExponent numerator 1 + exponent - L.fractionBits) L.lowestExponent =
      place := by
    have short : significand.log2 < L.fractionBits + 1 := by
      rw [Nat.log2_lt present, Nat.pow_succ, Nat.mul_comm]
      exact stores.short
    have placed := stores.placed
    rw [ratioExponent_one nonzero, scaled]
    rcases stores.full with full | lowest
    · have long : L.fractionBits ≤ significand.log2 := (Nat.le_log2 present).mpr full
      omega
    · omega
  have rounded : divideToEven (significand * Nat.pow 2 (place - exponent).toNat)
      (Nat.pow 2 (place - exponent).toNat) = significand := divideToEven_mul _ (Nat.two_pow_pos _)
  unfold nearest
  simp only [if_neg nonzero, chosen, Int.neg_sub, Nat.one_mul, equal, rounded]
  exact congrArg _ (Nat.min_eq_left (Nat.le_of_lt stores.bounded))

/-- Rounding gives at most an infinity. -/
theorem exists_nearest (L : Layout) (negative : Bool) (numerator denominator : Nat)
    (exponent : Int) : ∃ magnitude ≤ L.infinity,
      L.nearest negative numerator denominator exponent = L.signPart negative + magnitude := by
  unfold nearest
  split
  · exact ⟨0, Nat.zero_le _, rfl⟩
  · exact ⟨_, Nat.min_le_right .., rfl⟩

/-- Up to the first infinity no magnitude is a NaN. -/
theorem decode_ne_nan (negative : Bool) {magnitude : Nat} (bounded : magnitude ≤ L.infinity)
    (sign : Bool) (payload : Nat) :
    L.decode (L.signPart negative + magnitude) ≠ .nan sign payload := by
  have low := Nat.mod_lt magnitude (fractionWeight_pos L)
  have parts := Nat.div_add_mod' magnitude (Nat.pow 2 L.fractionBits)
  generalize magnitude / Nat.pow 2 L.fractionBits = field at parts
  generalize magnitude % Nat.pow 2 L.fractionBits = fraction at parts low
  subst parts
  rcases Nat.lt_or_eq_of_le bounded with below | same
  · have finite := (parts_lt_infinity low).mp below
    rw [decode_parts negative (Nat.le_of_lt finite) low, if_neg (Nat.ne_of_lt finite)]
    split <;> nofun
  · have read := decode_top negative (fractionWeight_pos L)
    rw [Nat.add_zero] at read
    rw [same, read]
    nofun

theorem quietWeight_pos (L : Layout) : 0 < L.quietWeight := Nat.two_pow_pos _

theorem twice_quietWeight (positive : 0 < L.fractionBits) :
    2 * L.quietWeight = Nat.pow 2 L.fractionBits := by
  have bits : (L.fractionBits - 1).succ = L.fractionBits := Nat.sub_add_cancel positive
  rw [quietWeight, Nat.pow_eq, Nat.pow_eq, Nat.mul_comm, ← Nat.pow_succ, bits]

/-- An infinity or a quiet NaN is coded with its own fraction. -/
theorem encode_top (positive : 0 < L.fractionBits) (negative : Bool) {fraction : Nat}
    (quiet : fraction = 0 ∨ L.quietWeight ≤ fraction)
    (low : fraction < Nat.pow 2 L.fractionBits) :
    L.encode (.top negative fraction) = L.signPart negative + (L.infinity + fraction) := by
  rcases quiet with rfl | quiet
  · rfl
  have present : fraction ≠ 0 :=
    Nat.ne_of_gt (Nat.lt_of_lt_of_le (quietWeight_pos L) quiet)
  rw [← twice_quietWeight positive] at low
  obtain ⟨payload, rfl⟩ := Nat.exists_eq_add_of_le quiet
  rw [Datum.top, if_neg present, encode, Nat.add_mod_left, Nat.mod_eq_of_lt (by omega)]
  omega

/-- What is coded is no NaN or a quiet one. -/
theorem exists_encode (positive : 0 < L.fractionBits) (d : Datum) : ∃ negative magnitude,
    magnitude < L.signWeight ∧ L.encode d = L.signPart negative + magnitude ∧
      ∀ sign payload, L.decode (L.signPart negative + magnitude) = .nan sign payload →
        L.quietWeight ≤ payload := by
  have infinite : L.infinity < L.signWeight :=
    parts_lt_signWeight (Nat.le_refl _) (fractionWeight_pos L)
  cases d with
  | nan negative payload =>
    have low : L.quietWeight + payload % L.quietWeight < Nat.pow 2 L.fractionBits := by
      have rest : payload % L.quietWeight < L.quietWeight := Nat.mod_lt _ (quietWeight_pos L)
      rw [← twice_quietWeight positive]
      omega
    refine ⟨negative, L.infinity + (L.quietWeight + payload % L.quietWeight),
      parts_lt_signWeight (Nat.le_refl _) low, by simp only [encode, Nat.add_assoc], ?_⟩
    intro sign read quiet
    rw [decode_top negative low, Datum.top,
      if_neg (Nat.ne_of_gt (Nat.add_pos_left (quietWeight_pos L) _))] at quiet
    cases quiet
    exact Nat.le_add_right ..
  | infinite negative =>
    exact ⟨negative, L.infinity, infinite, rfl, fun sign payload read =>
      absurd read (decode_ne_nan negative (Nat.le_refl _) sign payload)⟩
  | finite negative significand exponent =>
    obtain ⟨magnitude, bounded, coded⟩ := exists_nearest L negative significand 1 exponent
    exact ⟨negative, magnitude, Nat.lt_of_le_of_lt bounded infinite, coded, fun sign payload read =>
      absurd read (decode_ne_nan negative bounded sign payload)⟩

end Layout

/-! ### 32 bits within 64 -/

open Layout

/-- What 32 bits store, 64 bits store with more places behind it. -/
theorem stores_binary64 {significand : Nat} {place : Int}
    (stores : Layout.binary32.Stores significand place) (nonzero : significand ≠ 0) :
    Layout.binary64.Stores (significand * Nat.pow 2 (52 - significand.log2))
      (place - (52 - significand.log2 : Nat)) := by
  obtain ⟨placed, short, full, bounded⟩ := stores
  have log : significand.log2 < 24 := (Nat.log2_lt nonzero).mpr short
  have filled : (significand * Nat.pow 2 (52 - significand.log2)).log2 = 52 := by
    rw [log2_mul_pow nonzero]
    omega
  have shifted : significand * Nat.pow 2 (52 - significand.log2) ≠ 0 :=
    Nat.mul_ne_zero nonzero (Nat.ne_of_gt (Nat.two_pow_pos _))
  obtain ⟨least, most⟩ := (Nat.log2_eq_iff shifted).mp filled
  have lowest : Layout.binary64.lowestExponent = -1074 := rfl
  have start : -149 ≤ place := placed
  have stop : (place - -149).toNat * 8388608 + significand < 2139095040 := bounded
  refine ⟨by rw [lowest]; omega, most, .inl least, ?_⟩
  obtain ⟨fraction, split⟩ := Nat.exists_eq_add_of_le least
  have low : fraction < Nat.pow 2 Layout.binary64.fractionBits := by
    have double : 2 ^ (52 + 1) = 2 * Nat.pow 2 Layout.binary64.fractionBits := rfl
    rw [split, double] at most
    omega
  have top : Layout.binary64.topField = 2047 := rfl
  have field : Layout.binary64.stored (2 ^ 52 + fraction) (place - (52 - significand.log2 : Nat)) =
      _ := stored_full ..
  rw [split, field, parts_lt_infinity low, lowest, top]
  omega

theorem Binary32.ofDatum_of_encode {x : Binary32} {d : Datum}
    (coded : Layout.binary32.encode d = x.bits.toNat) : Binary32.ofDatum d = x := by
  unfold Binary32.ofDatum
  rw [coded]
  exact congrArg Binary32.mk UInt32.ofNat_toNat

theorem Binary32.datum_ofDatum {d : Datum} {negative : Bool} {magnitude : Nat}
    (coded : Layout.binary32.encode d = Layout.binary32.signPart negative + magnitude)
    (below : magnitude < Layout.binary32.signWeight) :
    (Binary32.ofDatum d).datum =
      Layout.binary32.decode (Layout.binary32.signPart negative + magnitude) := by
  have fits : Layout.binary32.encode d < 2 * Layout.binary32.signWeight :=
    coded ▸ pattern_lt negative below
  rw [Binary32.datum, Binary32.ofDatum, UInt32.toNat_ofNat_of_lt' fits, coded]

theorem Binary64.datum_ofDatum {d : Datum} {negative : Bool} {magnitude : Nat}
    (coded : Layout.binary64.encode d = Layout.binary64.signPart negative + magnitude)
    (below : magnitude < Layout.binary64.signWeight) :
    (Binary64.ofDatum d).datum =
      Layout.binary64.decode (Layout.binary64.signPart negative + magnitude) := by
  have fits : Layout.binary64.encode d < 2 * Layout.binary64.signWeight :=
    coded ▸ pattern_lt negative below
  rw [Binary64.datum, Binary64.ofDatum, UInt64.toNat_ofNat_of_lt' fits, coded]

/-- A datum that is coded as a stored number stands for that number. -/
theorem Binary64.datum_of_stores {d : Datum} {negative : Bool} {significand : Nat} {place : Int}
    (stores : Layout.binary64.Stores significand place)
    (coded : Layout.binary64.encode d =
      Layout.binary64.signPart negative + Layout.binary64.stored significand place) :
    (Binary64.ofDatum d).datum = .finite negative significand place := by
  have below : Layout.binary64.stored significand place < Layout.binary64.signWeight :=
    Nat.lt_trans stores.bounded (parts_lt_signWeight (Nat.le_refl _) (fractionWeight_pos _))
  exact (Binary64.datum_ofDatum coded below).trans (decode_stored negative stores)

/-- An infinity or a quiet NaN stands for itself. -/
theorem Binary64.datum_of_top (negative : Bool) {fraction : Nat}
    (quiet : fraction = 0 ∨ Layout.binary64.quietWeight ≤ fraction)
    (low : fraction < Nat.pow 2 Layout.binary64.fractionBits) :
    (Binary64.ofDatum (.top negative fraction)).datum = .top negative fraction :=
  (Binary64.datum_ofDatum (encode_top (by decide) negative quiet low)
    (parts_lt_signWeight (Nat.le_refl _) low)).trans (decode_top negative low)

namespace Binary32

/-- A zero is read in 64 bits as a zero of its sign, and narrowed back to its own pattern. -/
theorem narrow_widen_zero {x : Binary32} {negative : Bool} {place : Int}
    (datum : x.datum = .finite negative 0 place)
    (pattern : x.bits.toNat = Layout.binary32.signPart negative) : x.widen.narrow = x := by
  have zero : Layout.binary64.Stores 0 Layout.binary64.lowestExponent :=
    ⟨Int.le_refl _, by decide, .inr rfl, by decide⟩
  have coded : Layout.binary64.encode (.finite negative 0 place) =
      Layout.binary64.signPart negative +
        Layout.binary64.stored 0 Layout.binary64.lowestExponent := by
    rw [stored_lowest, Nat.zero_mul]
    exact nearest_zero ..
  rw [Binary64.narrow, widen, datum, Binary64.datum_of_stores zero coded]
  exact ofDatum_of_encode ((nearest_zero ..).trans pattern.symm)

theorem narrow_widen_finite {x : Binary32} {negative : Bool} {significand : Nat} {place : Int}
    (stores : Layout.binary32.Stores significand place) (nonzero : significand ≠ 0)
    (datum : x.datum = .finite negative significand place)
    (pattern : x.bits.toNat =
      Layout.binary32.signPart negative + Layout.binary32.stored significand place) :
    x.widen.narrow = x := by
  have wide := stores_binary64 stores nonzero
  generalize 52 - significand.log2 = shift at wide
  have more : (place - (place - (shift : Nat))).toNat = shift := by omega
  have fewer : (place - (shift : Nat) - place).toNat = 0 := by omega
  have scaled : significand * Nat.pow 2 shift ≠ 0 :=
    Nat.mul_ne_zero nonzero (Nat.ne_of_gt (Nat.two_pow_pos _))
  have coded : Layout.binary64.encode (.finite negative significand place) = _ :=
    nearest_of_stores negative nonzero wide (by rw [more, fewer]; exact (Nat.mul_one _).symm)
  rw [Binary64.narrow, widen, datum, Binary64.datum_of_stores wide coded]
  have back := nearest_of_stores negative scaled stores (by rw [more, fewer]; exact Nat.mul_one _)
  exact ofDatum_of_encode (back.trans pattern.symm)

theorem widen_of_top {x : Binary32} {negative : Bool} {fraction : Nat}
    (datum : x.datum = .top negative fraction) :
    x.widen = .ofDatum (.top negative (fraction * Nat.pow 2 29)) := by
  rw [widen, datum]
  by_cases zero : fraction = 0
  · rw [zero, Nat.zero_mul]
    rfl
  · have scaled : fraction * Nat.pow 2 29 ≠ 0 := Nat.mul_ne_zero zero (by decide)
    rw [Datum.top, Datum.top, if_neg zero, if_neg scaled]

theorem narrow_of_top {y : Binary64} {negative : Bool} {fraction : Nat}
    (datum : y.datum = .top negative (fraction * Nat.pow 2 29)) :
    y.narrow = .ofDatum (.top negative fraction) := by
  rw [Binary64.narrow, datum]
  by_cases zero : fraction = 0
  · rw [zero, Nat.zero_mul]
    rfl
  · have scaled : fraction * Nat.pow 2 29 ≠ 0 := Nat.mul_ne_zero zero (by decide)
    rw [Datum.top, Datum.top, if_neg zero, if_neg scaled]
    dsimp only
    rw [Nat.mul_div_cancel _ (by decide)]

theorem narrow_widen_top {x : Binary32} {negative : Bool} {fraction : Nat}
    (quiet : fraction = 0 ∨ Layout.binary32.quietWeight ≤ fraction)
    (low : fraction < Nat.pow 2 Layout.binary32.fractionBits)
    (datum : x.datum = .top negative fraction)
    (pattern : x.bits.toNat =
      Layout.binary32.signPart negative + (Layout.binary32.infinity + fraction)) :
    x.widen.narrow = x := by
  have silent : fraction * Nat.pow 2 29 = 0 ∨
      Layout.binary64.quietWeight ≤ fraction * Nat.pow 2 29 := by
    have scale : Layout.binary64.quietWeight =
        Layout.binary32.quietWeight * Nat.pow 2 29 := by decide
    rw [scale]
    exact quiet.imp (fun zero => by rw [zero, Nat.zero_mul]) (Nat.mul_le_mul_right _)
  have below : fraction * Nat.pow 2 29 < Nat.pow 2 Layout.binary64.fractionBits := by
    have scale : Nat.pow 2 Layout.binary64.fractionBits =
        Nat.pow 2 Layout.binary32.fractionBits * Nat.pow 2 29 := by decide
    rw [scale]
    exact Nat.mul_lt_mul_of_pos_right low (Nat.two_pow_pos 29)
  have read : x.widen.datum = .top negative (fraction * Nat.pow 2 29) := by
    rw [widen_of_top datum, Binary64.datum_of_top negative silent below]
  rw [narrow_of_top read]
  exact ofDatum_of_encode ((encode_top (by decide) negative quiet low).trans pattern.symm)

/-- A number whose NaN is quiet comes back from 64 bits as it was. -/
theorem narrow_widen {x : Binary32}
    (quiet : ∀ negative payload, x.datum = .nan negative payload →
      Layout.binary32.quietWeight ≤ payload) : x.widen.narrow = x := by
  have below : x.bits.toNat < 2 * Layout.binary32.signWeight := x.bits.toNat_lt
  obtain ⟨negative, ⟨significand, place, stores, pattern⟩ | ⟨fraction, low, pattern⟩⟩ :=
    pattern_cases below
  · have datum : x.datum = .finite negative significand place := by
      rw [Binary32.datum, pattern, decode_stored negative stores]
    by_cases nonzero : significand = 0
    · subst nonzero
      obtain rfl : place = Layout.binary32.lowestExponent :=
        stores.full.resolve_left (Nat.not_le_of_gt (fractionWeight_pos _))
      rw [stored_lowest, Nat.zero_mul] at pattern
      exact narrow_widen_zero datum pattern
    · exact narrow_widen_finite stores nonzero datum pattern
  · have datum : x.datum = .top negative fraction := by
      rw [Binary32.datum, pattern, decode_top negative low]
    have silent : fraction = 0 ∨ Layout.binary32.quietWeight ≤ fraction :=
      (Decidable.em _).imp_right fun present =>
        quiet negative fraction (datum.trans (if_neg present))
    exact narrow_widen_top silent low datum pattern

/-- What was narrowed comes back from 64 bits. -/
theorem narrow_widen_narrow (y : Binary64) : y.narrow.widen.narrow = y.narrow := by
  obtain ⟨d, narrowed⟩ : ∃ d, y.narrow = .ofDatum d := ⟨_, rfl⟩
  obtain ⟨negative, magnitude, below, coded, quiet⟩ :=
    exists_encode (L := Layout.binary32) (by decide) d
  refine narrow_widen ?_
  rw [narrowed, datum_ofDatum coded below]
  exact quiet

end Binary32

end Immediate
