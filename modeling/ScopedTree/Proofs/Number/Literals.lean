import Mathlib.Data.List.Induction
import Mathlib.Data.List.TakeWhile
import Mathlib.Tactic.IntervalCases
import ScopedTree.Constant.Primitive

/-!
# Literals of numbers

The grammar of decimal literals, and of whole numbers in a radix, and that they are what is read. A
text that cannot be read is no number, and whatever is rounded to the nearest number is one.

* `isNaN_ofBits`              which bits stand for no number;
* `isNaN_roundRatio`, `isNaN_decimalValue`   what is rounded is a number;
* `DecimalLiteral`            digits with an optional point and an optional exponent;
* `RadixRun`                  digits of a radix, and the whole number that they write;
* `isSome_readDecimal?_iff`   a decimal literal is read, with a sign or without, and nothing else
  is;
* `isSome_readRadix?_iff`     of the whole numbers in a radix those of 64 bits are read, with a plus
  sign too.
-/

namespace ScopedTree

section Rounding

open Float.Model

/-! ## bits -/

theorem isNaN_unpack (w : BitVec 64) : (UnpackedFloat.unpack .binary64 w).isNaN
    = (@UnpackedFloat.unpackExponent .binary64 w = -1#11 ∧ @UnpackedFloat.unpackMantissa .binary64 w
      ≠ 0#52 : Bool) := by
  unfold UnpackedFloat.unpack
  dsimp only
  by_cases hfull : @UnpackedFloat.unpackExponent .binary64 w = -1#11
  · rw [if_pos hfull]
    by_cases hempty : @UnpackedFloat.unpackMantissa .binary64 w = 0#52
    · rw [if_pos hempty]
      exact (decide_eq_false fun h => h.2 hempty).symm
    · rw [if_neg hempty]
      exact (decide_eq_true ⟨hfull, hempty⟩).symm
  · rw [if_neg hfull, decide_eq_false fun h => hfull h.1]
    by_cases hzero : @UnpackedFloat.unpackExponent .binary64 w = 0#11
    · rw [if_pos hzero]
      by_cases hempty : @UnpackedFloat.unpackMantissa .binary64 w = 0#52
      · rw [dif_pos hempty]
        rfl
      · rw [dif_neg hempty]
        rfl
    · rw [if_neg hzero]
      rfl

theorem isNaN_packComponents (sign : UnpackedFloat.Sign) (exponent : BitVec 11)
    (mantissa : BitVec 52) :
    (UnpackedFloat.unpack .binary64 (UnpackedFloat.packComponents .binary64 sign exponent
      mantissa)).isNaN = (exponent = -1#11 ∧ mantissa ≠ 0#52 : Bool) := by
  rw [isNaN_unpack, UnpackedFloat.unpackMantissa_packComponents,
    UnpackedFloat.unpackExponent_packComponents]

theorem isNaN_unpack_pack (f : UnpackedFloat) :
    (UnpackedFloat.unpack .binary64 (UnpackedFloat.pack .binary64 f)).isNaN = f.isNaN := by
  unfold UnpackedFloat.pack
  cases f with
  | notANumber =>
    unfold UnpackedFloat.packedNaN
    rw [isNaN_packComponents]
    decide
  | infinity s =>
    unfold UnpackedFloat.packedInfinity
    rw [isNaN_packComponents]
    rfl
  | zero s =>
    unfold UnpackedFloat.packedZero
    rw [isNaN_packComponents]
    rfl
  | finite s m e hm =>
    dsimp only
    show _ = false
    split
    · unfold UnpackedFloat.packedInfinity
      rw [isNaN_packComponents]
      rfl
    · next hbiased =>
      split
      · -- the exponent of a finite number is not full
        have hne : BitVec.ofNat 11 (e + (Format.exponentBias .binary64 : Nat) + 52).toNat
            ≠ -1#11 := by
          intro h
          have hnat := congrArg BitVec.toNat h
          rw [BitVec.toNat_ofNat, Nat.mod_eq_of_lt (by omega)] at hnat
          have hfull : (-1#11).toNat = 2047 := rfl
          omega
        rw [isNaN_packComponents]
        exact decide_eq_false fun h => hne h.1
      · rw [isNaN_packComponents]
        rfl

theorem isNaN_ofBits (w : UInt64) :
    (Float.ofBits w).isNaN = (UnpackedFloat.unpack .binary64 w.toBitVec).isNaN :=
  isNaN_unpack_pack _

theorem isNaN_unpack_of_le {w : BitVec 64} (h : w.toNat % 2 ^ 63 ≤ 2047 * 2 ^ 52) :
    (UnpackedFloat.unpack .binary64 w).isNaN = false := by
  rw [isNaN_unpack]
  refine decide_eq_false fun hnan => hnan.2 ?_
  have hexponent := congrArg BitVec.toNat hnan.1
  apply BitVec.eq_of_toNat_eq
  simp only [UnpackedFloat.unpackMantissa, UnpackedFloat.unpackExponent, BitVec.extractLsb_toNat,
    BitVec.toNat_cast, Nat.shiftRight_eq_div_pow] at hexponent ⊢
  have hlt := w.isLt
  have hones : (-1#11).toNat = 2047 := rfl
  have hzero : (0#52).toNat = 0 := rfl
  omega

/-! ## rounding -/

theorem isNaN_toFloat (b : Binary) : b.toFloat.isNaN = false := by
  unfold Binary.toFloat
  rw [isNaN_ofBits]
  apply isNaN_unpack_of_le
  rw [UInt64.toNat_toBitVec, UInt64.toNat_ofNat']
  have hbound (magnitude : Nat) : min magnitude (2047 <<< 52) ≤ 2047 * 2 ^ 52 := Nat.min_le_right ..
  have hsign : (1 <<< 63 : Nat) = 2 ^ 63 := rfl
  generalize hbits : min _ (2047 <<< 52) = bits
  have hle : bits ≤ 2047 * 2 ^ 52 := hbits ▸ hbound _
  split <;> omega

theorem isNaN_ite {c : Prop} [Decidable c] {x y : Float} (hx : x.isNaN = false)
    (hy : y.isNaN = false) :
    (if c then x else y).isNaN = false := by
  split
  · exact hx
  · exact hy

theorem isNaN_roundRatio (negative : Bool) (num den : Nat) :
    (roundRatio negative num den).isNaN = false := by
  unfold roundRatio
  by_cases hnum : num = 0
  · rw [if_pos hnum]
    exact isNaN_toFloat _
  · rw [if_neg hnum]
    dsimp only
    exact isNaN_toFloat _

theorem isNaN_decimalValue (negative : Bool) (digits : Nat) (exponent : Int) :
    (decimalValue negative digits exponent).isNaN = false := by
  have hround (num den : Nat) := isNaN_roundRatio negative num den
  exact isNaN_ite (hround ..)
    (isNaN_ite (hround ..) (isNaN_ite (hround ..) (isNaN_ite (hround ..) (hround ..))))

end Rounding

/-! ## the grammar -/

def signs : List (List Char) := [[], ['+'], ['-']]

def DigitRun (ds : List Char) : Prop := ds ≠ [] ∧ ∀ c ∈ ds, c.isDigit = true

/-- Nothing, or an exponent: a letter, an optional sign and digits. -/
inductive ExponentPart : List Char → Prop
  | absent : ExponentPart []
  | present {e : Char} {sign ds : List Char} (he : e = 'e' ∨ e = 'E') (hsign : sign ∈ signs)
      (hds : DigitRun ds) : ExponentPart (e :: (sign ++ ds))

/-- A decimal literal: digits with an optional point among or after them, or a point and digits,
then an optional exponent. -/
inductive DecimalLiteral : List Char → Prop
  | whole {ds ex : List Char} (hds : DigitRun ds) (hex : ExponentPart ex) :
    DecimalLiteral (ds ++ ex)
  | pointed {ds fs ex : List Char} (hds : DigitRun ds) (hfs : ∀ c ∈ fs, c.isDigit = true)
      (hex : ExponentPart ex) : DecimalLiteral (ds ++ '.' :: (fs ++ ex))
  | fraction {fs ex : List Char} (hfs : DigitRun fs) (hex : ExponentPart ex) :
    DecimalLiteral ('.' :: (fs ++ ex))

def IsDigitOf (radix : Nat) (c : Char) (v : Nat) : Prop :=
  v < radix ∧ ("0123456789abcdef".toList[v]? = some c ∨ "0123456789ABCDEF".toList[v]? = some c)

/-- One digit or more that write the whole number in the radix. -/
inductive RadixRun (radix : Nat) : List Char → Nat → Prop
  | one {c : Char} {v : Nat} (hc : IsDigitOf radix c v) : RadixRun radix [c] v
  | more {ds : List Char} {n : Nat} {c : Char} {v : Nat} (hds : RadixRun radix ds n)
      (hc : IsDigitOf radix c v) : RadixRun radix (ds ++ [c]) (radix * n + v)

variable {text cs ds ex sign : List Char} {radix n v : Nat} {c : Char}

/-! ## decimal literals -/

theorem splitSign_cases (text : List Char) : ∃ sign ∈ signs, text = sign ++ (splitSign text).2 := by
  unfold splitSign
  split
  · exact ⟨['+'], by decide, rfl⟩
  · exact ⟨['-'], by decide, rfl⟩
  · exact ⟨[], by decide, rfl⟩

theorem splitSign_append (hsign : sign ∈ signs) (hcs : cs.head? ≠ some '+' ∧ cs.head? ≠ some '-') :
    (splitSign (sign ++ cs)).2 = cs := by
  simp only [signs, List.mem_cons, List.not_mem_nil, or_false] at hsign
  rcases hsign with rfl | rfl | rfl
  · rw [List.nil_append]
    unfold splitSign
    split
    · exact absurd rfl hcs.1
    · exact absurd rfl hcs.2
    · rfl
  · rfl
  · rfl

theorem DigitRun.head? (h : DigitRun ds) (rest : List Char) :
    (ds ++ rest).head? ≠ some '+' ∧ (ds ++ rest).head? ≠ some '-' := by
  obtain ⟨hne, hds⟩ := h
  cases ds with
  | nil => exact absurd rfl hne
  | cons d ds =>
    have hd := hds d (List.mem_cons_self ..)
    constructor <;>
    · intro heq
      cases heq
      exact absurd hd (by decide)

theorem isSome_readExponent?_iff : (readExponent? ex).isSome ↔ ExponentPart ex := by
  unfold readExponent?
  cases ex with
  | nil => exact iff_of_true rfl .absent
  | cons c cs =>
    dsimp only
    constructor
    · intro h
      split at h
      · next he =>
        split at h
        · cases h
        · next hds =>
          rw [Bool.or_eq_true, not_or, List.isEmpty_iff, Bool.not_eq_true', Bool.not_eq_false,
            List.all_eq_true] at hds
          obtain ⟨sign, hsign, hcs⟩ := splitSign_cases cs
          rw [hcs]
          exact .present (by simpa using he) hsign hds
      · cases h
    · rintro (_ | ⟨he, hsign, hds⟩)
      have hhead := hds.head? []
      rw [List.append_nil] at hhead
      rw [if_pos (by simpa using he), splitSign_append hsign hhead, if_neg]
      · rfl
      · rw [Bool.or_eq_true, not_or, List.isEmpty_iff, Bool.not_eq_true', Bool.not_eq_false,
          List.all_eq_true]
        exact hds

theorem takeWhile_digits (hds : ∀ c ∈ ds, c.isDigit = true)
    (hcs : ∀ c, cs.head? = some c → c.isDigit = false) :
    (ds ++ cs).takeWhile Char.isDigit = ds ∧ (ds ++ cs).dropWhile Char.isDigit = cs := by
  rw [List.takeWhile_append_of_pos hds, List.dropWhile_append_of_pos hds]
  cases cs with
  | nil => exact ⟨List.append_nil ds, rfl⟩
  | cons c cs =>
    have hc := hcs c rfl
    rw [List.takeWhile_cons_of_neg (by simp [hc]), List.dropWhile_cons_of_neg (by simp [hc])]
    exact ⟨List.append_nil ds, rfl⟩

theorem ExponentPart.head? (h : ExponentPart ex) (c : Char) (hc : ex.head? = some c) :
    c = 'e' ∨ c = 'E' := by
  cases h with
  | absent => cases hc
  | present he => exact Option.some.inj hc ▸ he

theorem isSome_readDecimal?_split (text : List Char) : (readDecimal? text).isSome ↔
    let whole := (splitSign text).2.takeWhile Char.isDigit
    let rest := (splitSign text).2.dropWhile Char.isDigit
    (∃ tail, rest = '.' :: tail ∧ (whole ≠ [] ∨ tail.takeWhile Char.isDigit ≠ [])
        ∧ ExponentPart (tail.dropWhile Char.isDigit))
      ∨ rest.head? ≠ some '.' ∧ whole ≠ [] ∧ ExponentPart rest := by
  unfold readDecimal?
  dsimp only
  generalize (splitSign text).2.takeWhile Char.isDigit = whole
  generalize (splitSign text).2.dropWhile Char.isDigit = rest
  cases rest with
  | nil => simp [← isSome_readExponent?_iff, apply_ite Option.isSome]
  | cons c tail =>
    by_cases hc : c = '.'
    · subst hc
      simp [← isSome_readExponent?_iff, apply_ite Option.isSome]
    · split
      · next heq => exact absurd (List.cons.inj heq).1 hc
      · simp [← isSome_readExponent?_iff, apply_ite Option.isSome, hc]

/-- **A decimal literal is read, and nothing else is**; a sign may stand before it. -/
theorem isSome_readDecimal?_iff :
    (readDecimal? text).isSome ↔ ∃ sign ∈ signs, ∃ cs, DecimalLiteral cs ∧ text = sign ++ cs := by
  rw [isSome_readDecimal?_split]
  dsimp only
  constructor
  · intro h
    obtain ⟨sign, hsign, htext⟩ := splitSign_cases text
    refine ⟨sign, hsign, _, ?_, htext⟩
    generalize (splitSign text).2 = cs at h
    have hall (l : List Char) : ∀ c ∈ l.takeWhile Char.isDigit, c.isDigit = true :=
      fun c => List.mem_takeWhile_imp
    rw [← List.takeWhile_append_dropWhile (p := Char.isDigit) (l := cs)]
    rcases h with ⟨tail, hrest, hdigits, hex⟩ | ⟨-, hwhole, hex⟩
    · rw [hrest, ← List.takeWhile_append_dropWhile (p := Char.isDigit) (l := tail)]
      by_cases hwhole : cs.takeWhile Char.isDigit = []
      · rw [hwhole]
        exact .fraction ⟨hdigits.resolve_left (absurd hwhole), hall tail⟩ hex
      · exact .pointed ⟨hwhole, hall cs⟩ (hall tail) hex
    · exact .whole ⟨hwhole, hall cs⟩ hex
  · rintro ⟨sign, hsign, cs, hcs, rfl⟩
    have hstop {ex : List Char} (hex : ExponentPart ex) (c : Char) (hc : ex.head? = some c) :
        c.isDigit = false := by
      rcases hex.head? c hc with rfl | rfl <;> decide
    have hpoint (l : List Char) (c : Char) (hc : ('.' :: l).head? = some c) : c.isDigit = false :=
      Option.some.inj hc ▸ by decide
    cases hcs with
    | whole hds hex =>
      obtain ⟨htake, hdrop⟩ := takeWhile_digits hds.2 (hstop hex)
      rw [splitSign_append hsign (hds.head? _), htake, hdrop]
      refine .inr ⟨fun heq => ?_, hds.1, hex⟩
      rcases hex.head? '.' heq with h | h <;> cases h
    | pointed hds hfs hex =>
      obtain ⟨htake, hdrop⟩ := takeWhile_digits hds.2 (hpoint _)
      rw [splitSign_append hsign (hds.head? _), htake, hdrop]
      exact .inl ⟨_, rfl, .inl hds.1, (takeWhile_digits hfs (hstop hex)).2.symm ▸ hex⟩
    | fraction hfs hex =>
      have hnone : ∀ c ∈ ([] : List Char), c.isDigit = true := by simp
      obtain ⟨htake, hdrop⟩ := takeWhile_digits hnone (hpoint _)
      rw [List.nil_append] at htake hdrop
      rw [splitSign_append hsign ⟨by simp, by simp⟩, htake, hdrop]
      obtain ⟨htake, hdrop⟩ := takeWhile_digits hfs.2 (hstop hex)
      exact .inl ⟨_, rfl, .inr (htake.symm ▸ hfs.1), hdrop.symm ▸ hex⟩

/-! ## whole numbers in a radix -/

theorem radixDigit?_eq_some_iff (hradix : radix ≤ 16) :
    radixDigit? radix c = some v ↔ IsDigitOf radix c v := by
  unfold radixDigit? IsDigitOf
  rw [Option.filter_eq_some_iff, decide_eq_true_eq, and_comm]
  refine and_congr_right fun hv => ?_
  have hv16 : v < 16 := hv.trans_le hradix
  constructor
  · intro h
    have hcode : c = Char.ofNat c.toNat := (Char.ofNat_toNat c).symm
    have hzero : '0'.toNat = 48 := rfl
    have hlower : 'a'.toNat = 97 := rfl
    have hupper : 'A'.toNat = 65 := rfl
    split at h
    · next hdigit =>
      obtain ⟨hlow, hhigh⟩ : 48 ≤ c.toNat ∧ c.toNat ≤ 57 := by
        rwa [Char.isDigit, Bool.and_eq_true, decide_eq_true_eq, decide_eq_true_eq] at hdigit
      have hvalue := Option.some.inj h
      obtain ⟨hc, hv10⟩ : c.toNat = 48 + v ∧ v < 10 := by omega
      left
      rw [hcode, hc]
      interval_cases v <;> rfl
    · split at h
      · next hletter =>
        obtain ⟨hlow, -⟩ : 97 ≤ c.toNat ∧ c.toNat ≤ 122 := by
          rwa [Bool.and_eq_true, decide_eq_true_eq, decide_eq_true_eq] at hletter
        have hvalue := Option.some.inj h
        obtain ⟨hc, hv10⟩ : c.toNat = 87 + v ∧ 10 ≤ v := by omega
        left
        rw [hcode, hc]
        interval_cases v <;> rfl
      · split at h
        · next hletter =>
          obtain ⟨hlow, -⟩ : 65 ≤ c.toNat ∧ c.toNat ≤ 90 := by
            rwa [Bool.and_eq_true, decide_eq_true_eq, decide_eq_true_eq] at hletter
          have hvalue := Option.some.inj h
          obtain ⟨hc, hv10⟩ : c.toNat = 55 + v ∧ 10 ≤ v := by omega
          right
          rw [hcode, hc]
          interval_cases v <;> rfl
        · cases h
  · intro h
    interval_cases v <;> rcases h with h | h <;> cases h <;> rfl

theorem radixValue?_append (radix : Nat) (ds : List Char) (c : Char) : radixValue? radix (ds ++ [c])
    = (radixValue? radix ds).bind fun n => (radixDigit? radix c).map (radix * n + ·) := by
  simp [radixValue?, List.foldlM_append, Option.bind_eq_bind]

theorem radixValue?_eq_some_iff (hradix : radix ≤ 16) :
    ds ≠ [] ∧ radixValue? radix ds = some n ↔ RadixRun radix ds n := by
  constructor
  · rintro ⟨hne, hvalue⟩
    induction ds using List.reverseRecOn generalizing n with
    | nil => exact absurd rfl hne
    | append_singleton ds c ih =>
      rw [radixValue?_append] at hvalue
      obtain ⟨m, hm, hvalue⟩ := Option.bind_eq_some_iff.1 hvalue
      obtain ⟨v, hv, rfl⟩ := Option.map_eq_some_iff.1 hvalue
      have hc := (radixDigit?_eq_some_iff hradix).1 hv
      by_cases hds : ds = []
      · subst hds
        cases hm
        rw [Nat.mul_zero, Nat.zero_add]
        exact .one hc
      · exact .more (ih hds hm) hc
  · intro h
    induction h with
    | one hc =>
      have hv := (radixDigit?_eq_some_iff hradix).2 hc
      exact ⟨List.cons_ne_nil _ _, by simp [radixValue?, hv]⟩
    | more hds hc ih =>
      have hv := (radixDigit?_eq_some_iff hradix).2 hc
      exact ⟨List.append_ne_nil_of_right_ne_nil _ (List.cons_ne_nil _ _), by
        simp [radixValue?_append, ih.2, hv]⟩

theorem RadixRun.unique {m : Nat} (hradix : radix ≤ 16) (h : RadixRun radix ds n)
    (h' : RadixRun radix ds m) :
    n = m := by
  have hn := ((radixValue?_eq_some_iff hradix).2 h).2
  have hm := ((radixValue?_eq_some_iff hradix).2 h').2
  exact Option.some.inj (hn.symm.trans hm)

theorem RadixRun.ne_plus (hradix : radix ≤ 16) (h : RadixRun radix ds n)
    (rest : List Char) : ds ≠ '+' :: rest := by
  rintro rfl
  have hvalue := ((radixValue?_eq_some_iff hradix).2 h).2
  have hplus : radixDigit? radix '+' = none := rfl
  simp [radixValue?, hplus] at hvalue

theorem isSome_filter_radixValue?_iff (hradix : radix ≤ 16) :
    (if ds.isEmpty then none
      else ((radixValue? radix ds).filter (· < UInt64.size)).map roundNat).isSome
      ↔ ∃ n, RadixRun radix ds n ∧ n < UInt64.size := by
  simp only [← radixValue?_eq_some_iff hradix]
  by_cases hds : ds = []
  · simp [hds]
  · cases hvalue : radixValue? radix ds with
    | none => simp [hds]
    | some n => by_cases hn : n < UInt64.size <;> simp [hds, hn, Option.filter]

/-- **A whole number of 64 bits is read**, with a plus sign or without. -/
theorem isSome_readRadix?_iff (hradix : radix ≤ 16) : (readRadix? radix text).isSome ↔
    (∃ n, RadixRun radix text n ∧ n < UInt64.size)
      ∨ ∃ ds, text = '+' :: ds ∧ ∃ n, RadixRun radix ds n ∧ n < UInt64.size := by
  unfold readRadix?
  dsimp only
  split
  · next rest =>
    have hplus : ¬ ∃ n, RadixRun radix ('+' :: rest) n ∧ n < UInt64.size := by
      rintro ⟨n, h, -⟩
      exact h.ne_plus hradix rest rfl
    rw [isSome_filter_radixValue?_iff hradix, or_iff_right hplus]
    by_cases hrest : rest = []
    · subst hrest
      refine iff_of_false hplus ?_
      rintro ⟨ds, heq, n, h, -⟩
      cases heq
      exact ((radixValue?_eq_some_iff hradix).2 h).1 rfl
    · rw [if_neg (by simpa using hrest)]
      simp
  · next hplus =>
    rw [isSome_filter_radixValue?_iff hradix, or_iff_left]
    rintro ⟨ds, heq, -⟩
    exact hplus ds heq

end ScopedTree
