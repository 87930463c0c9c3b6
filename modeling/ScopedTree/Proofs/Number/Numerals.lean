import Mathlib.Data.List.DropRight
import ScopedTree.Proofs.Number.Literals

/-!
# Numeric strings

Which texts are converted to numbers.

* `Numeral`                  the grammar of numeric strings;
* `Overlong`, `Plussed`      where the conversion keeps to it no more;
* `isNaN_readNumber_iff`     the texts that are read;
* `isNaN_toNumber_string`    in ASCII, with the white space around them.
-/

namespace ScopedTree

/-! ## the grammar -/

def isSpace (c : Char) : Bool := ['\t', '\n', '\x0b', '\x0c', '\r', ' '].contains c

/-- A text without the white space around it. -/
def stripped (text : String) : List Char := (text.toList.dropWhile isSpace).rdropWhile isSpace

def radixMarks : List (List Char × Nat) :=
  [(['0', 'x'], 16), (['0', 'X'], 16), (['0', 'o'], 8), (['0', 'O'], 8), (['0', 'b'], 2),
    (['0', 'B'], 2)]

/-- The numeric strings, without white space around. -/
inductive Numeral : List Char → Prop
  | empty : Numeral []
  | infinity {sign : List Char} (hsign : sign ∈ signs) : Numeral (sign ++ "Infinity".toList)
  | decimal {sign cs : List Char} (hsign : sign ∈ signs) (hcs : DecimalLiteral cs) :
    Numeral (sign ++ cs)
  | ofRadix {mark ds : List Char} {radix n : Nat} (hmark : (mark, radix) ∈ radixMarks)
      (hds : RadixRun radix ds n) : Numeral (mark ++ ds)

/-- A whole number in a radix that takes more than 64 bits. -/
def Overlong (text : List Char) : Prop :=
  ∃ mark radix ds n, (mark, radix) ∈ radixMarks ∧ RadixRun radix ds n ∧ UInt64.size ≤ n
    ∧ text = mark ++ ds

/-- A whole number of 64 bits in a radix, with a plus sign between mark and digits. -/
def Plussed (text : List Char) : Prop :=
  ∃ mark radix ds n, (mark, radix) ∈ radixMarks ∧ RadixRun radix ds n ∧ n < UInt64.size
    ∧ text = mark ++ '+' :: ds

variable {text cs ds sign mark : List Char} {radix n : Nat}

/-! ## numeric strings -/

theorem isNaN_readDecimal? (cs : List Char) :
    ((readDecimal? cs).getD (0 / 0)).isNaN = !(readDecimal? cs).isSome := by
  cases h : readDecimal? cs with
  | none => decide
  | some x =>
    unfold readDecimal? at h
    dsimp only at h
    obtain ⟨e, -, rfl⟩ := Option.map_eq_some_iff.1 (Option.ite_none_left_eq_some.1 h).2
    exact isNaN_decimalValue ..

theorem isNaN_readRadix? (radix : Nat) (cs : List Char) :
    ((readRadix? radix cs).getD (0 / 0)).isNaN = !(readRadix? radix cs).isSome := by
  cases h : readRadix? radix cs with
  | none => decide
  | some x =>
    unfold readRadix? at h
    dsimp only at h
    obtain ⟨n, -, rfl⟩ := Option.map_eq_some_iff.1 (Option.ite_none_left_eq_some.1 h).2
    show (roundRatio false n 1).isNaN = false
    exact isNaN_roundRatio false n 1

theorem readNumber_of_mark {s : String} (hmark : (mark, radix) ∈ radixMarks)
    (h : (trimBlank s).toList = mark ++ ds) : readNumber s = (readRadix? radix ds).getD
    (0 / 0) := by
  unfold readNumber
  rw [h]
  simp only [radixMarks, List.mem_cons, Prod.mk.injEq, List.not_mem_nil, or_false] at hmark
  rcases hmark with ⟨rfl, rfl⟩ | ⟨rfl, rfl⟩ | ⟨rfl, rfl⟩ | ⟨rfl, rfl⟩ | ⟨rfl, rfl⟩ | ⟨rfl,
    rfl⟩ <;> rfl

def Markless (text : List Char) : Prop := ∀ mark radix ds, (mark, radix) ∈ radixMarks →
    text ≠ mark ++ ds

theorem readNumber_of_markless {s : String} (hne : (trimBlank s).toList ≠ [])
    (h : Markless (trimBlank s).toList) : readNumber s
      = if (trimBlank s).toList = "Infinity".toList ∨ (trimBlank s).toList
      = "+Infinity".toList then 1 / 0
        else if (trimBlank s).toList = "-Infinity".toList then -1 / 0
        else (readDecimal? (trimBlank s).toList).getD (0 / 0) := by
  unfold readNumber
  generalize (trimBlank s).toList = cs at hne h
  dsimp only
  split
  · exact absurd rfl hne
  · exact absurd rfl (h ['0', 'x'] 16 _ (by decide))
  · exact absurd rfl (h ['0', 'X'] 16 _ (by decide))
  · exact absurd rfl (h ['0', 'o'] 8 _ (by decide))
  · exact absurd rfl (h ['0', 'O'] 8 _ (by decide))
  · exact absurd rfl (h ['0', 'b'] 2 _ (by decide))
  · exact absurd rfl (h ['0', 'B'] 2 _ (by decide))
  · simp only [Bool.or_eq_true, beq_iff_eq]

theorem DecimalLiteral.chars (h : DecimalLiteral cs) :
    ∀ c ∈ cs, c.isDigit = true ∨ c ∈ ['.', 'e', 'E', '+', '-'] := by
  have hsign {sign : List Char} (hsign : sign ∈ signs) : ∀ c ∈ sign, c
      ∈ ['.', 'e', 'E', '+', '-'] := by
    simp only [signs, List.mem_cons, List.not_mem_nil, or_false] at hsign
    rcases hsign with rfl | rfl | rfl <;> simp
  have hexponent {ex : List Char} (hex : ExponentPart ex) :
      ∀ c ∈ ex, c.isDigit = true ∨ c ∈ ['.', 'e', 'E', '+', '-'] := by
    cases hex with
    | absent => simp
    | present he hs hds =>
      intro c hc
      rcases List.mem_cons.1 hc with rfl | hc
      · rcases he with rfl | rfl <;> simp
      · exact (List.mem_append.1 hc).symm.imp (hds.2 c) (hsign hs c)
  intro c hc
  cases h with
  | whole hds hex => exact (List.mem_append.1 hc).elim (fun hc =>
    .inl (hds.2 c hc)) (hexponent hex c)
  | pointed hds hfs hex =>
    rcases List.mem_append.1 hc with hc | hc
    · exact .inl (hds.2 c hc)
    · rcases List.mem_cons.1 hc with rfl | hc
      · simp
      · exact (List.mem_append.1 hc).elim (fun hc => .inl (hfs c hc)) (hexponent hex c)
  | fraction hfs hex =>
    rcases List.mem_cons.1 hc with rfl | hc
    · simp
    · exact (List.mem_append.1 hc).elim (fun hc => .inl (hfs.2 c hc)) (hexponent hex c)

theorem markless_infinity (hsign : sign ∈ signs) : Markless (sign ++ "Infinity".toList) := by
  intro mark radix ds hmark heq
  simp only [signs, radixMarks, List.mem_cons, Prod.mk.injEq, List.not_mem_nil,
    or_false] at hsign hmark
  rcases hsign with rfl | rfl | rfl <;>
    rcases hmark with ⟨rfl, -⟩ | ⟨rfl, -⟩ | ⟨rfl, -⟩ | ⟨rfl, -⟩ | ⟨rfl, -⟩ | ⟨rfl, -⟩ <;>
    simp at heq

theorem DecimalLiteral.markless (hsign : sign ∈ signs) (h : DecimalLiteral cs) :
    Markless (sign ++ cs) := by
  intro mark radix ds hmark heq
  have hsigns : ∀ sign ∈ signs, ∀ c ∈ sign, c ∈ ['+', '-'] := by simp [signs]
  have hletters : ∀ c ∈ ['x', 'X', 'o', 'O', 'b', 'B'],
      ¬ (c.isDigit = true ∨ c ∈ ['.', 'e', 'E', '+', '-']) := by
    simp [Char.isDigit]
  obtain ⟨letter, hletter, hmem⟩ : ∃ letter ∈ ['x', 'X', 'o', 'O', 'b', 'B'],
      letter ∈ sign ++ cs := by
    rw [heq]
    simp only [radixMarks, List.mem_cons, Prod.mk.injEq, List.not_mem_nil, or_false] at hmark
    rcases hmark with ⟨rfl, -⟩ | ⟨rfl, -⟩ | ⟨rfl, -⟩ | ⟨rfl, -⟩ | ⟨rfl, -⟩ | ⟨rfl, -⟩ <;> simp
  have hplain : letter.isDigit = true ∨ letter ∈ ['.', 'e', 'E', '+', '-'] := by
    rcases List.mem_append.1 hmem with hmem | hmem
    · exact .inr (List.mem_of_mem_drop (i := 3) (hsigns sign hsign letter hmem))
    · exact h.chars letter hmem
  exact hletters letter hletter hplain

theorem radix_le (hmark : (mark, radix) ∈ radixMarks) : radix ≤ 16 := by
  have hall : ∀ entry ∈ radixMarks, entry.2 ≤ 16 := by decide
  exact hall _ hmark

theorem mark_unique {mark' ds' : List Char} {radix' : Nat} (hmark : (mark, radix) ∈ radixMarks)
    (hmark' : (mark', radix') ∈ radixMarks) (h : mark ++ ds = mark' ++ ds') :
    mark = mark' ∧ radix = radix' ∧ ds = ds' := by
  have hlength : ∀ entry ∈ radixMarks, entry.1.length = 2 := by decide
  have hradix : ∀ entry ∈ radixMarks, ∀ entry' ∈ radixMarks, entry.1 = entry'.1 →
      entry.2 = entry'.2 := by decide
  obtain ⟨hm, hds⟩ := List.append_inj h ((hlength _ hmark).trans (hlength _ hmark').symm)
  exact ⟨hm, hradix _ hmark _ hmark' hm, hds⟩

section Marked

variable (hmark : (mark, radix) ∈ radixMarks)

include hmark

theorem numeral_mark_iff : Numeral (mark ++ ds) ↔ ∃ n, RadixRun radix ds n := by
  constructor
  · intro h
    generalize htext : mark ++ ds = text at h
    cases h with
    | empty =>
      have hne : ∀ entry ∈ radixMarks, entry.1 ≠ [] := by decide
      exact absurd (List.append_eq_nil_iff.1 htext).1 (hne _ hmark)
    | infinity hsign => exact absurd htext.symm (markless_infinity hsign _ _ _ hmark)
    | decimal hsign hcs => exact absurd htext.symm (hcs.markless hsign _ _ _ hmark)
    | ofRadix hmark' hds =>
      obtain ⟨-, rfl, rfl⟩ := mark_unique hmark hmark' htext
      exact ⟨_, hds⟩
  · rintro ⟨n, hds⟩
    exact .ofRadix hmark hds

theorem overlong_mark_iff : Overlong (mark ++ ds) ↔ ∃ n, RadixRun radix ds n ∧ UInt64.size ≤ n := by
  constructor
  · rintro ⟨mark', radix', ds', n, hmark', hds, hn, htext⟩
    obtain ⟨-, rfl, rfl⟩ := mark_unique hmark hmark' htext
    exact ⟨n, hds, hn⟩
  · rintro ⟨n, hds, hn⟩
    exact ⟨mark, radix, ds, n, hmark, hds, hn, rfl⟩

theorem plussed_mark_iff :
    Plussed (mark ++ ds) ↔ ∃ ds', ds = '+' :: ds' ∧ ∃ n, RadixRun radix ds' n
      ∧ n < UInt64.size := by
  constructor
  · rintro ⟨mark', radix', ds', n, hmark', hds, hn, htext⟩
    obtain ⟨-, rfl, rfl⟩ := mark_unique hmark hmark' htext
    exact ⟨ds', rfl, n, hds, hn⟩
  · rintro ⟨ds', rfl, n, hds, hn⟩
    exact ⟨mark, radix, ds', n, hmark, hds, hn, rfl⟩

end Marked

theorem numeral_markless_iff (h : Markless text) : Numeral text ↔
    text = [] ∨ (∃ sign ∈ signs, text = sign ++ "Infinity".toList)
      ∨ ∃ sign ∈ signs, ∃ cs, DecimalLiteral cs ∧ text = sign ++ cs := by
  constructor
  · rintro (_ | hsign | ⟨hsign, hcs⟩ | ⟨hmark, hds⟩)
    · exact .inl rfl
    · exact .inr (.inl ⟨_, hsign, rfl⟩)
    · exact .inr (.inr ⟨_, hsign, _, hcs, rfl⟩)
    · exact absurd rfl (h _ _ _ hmark)
  · rintro (rfl | ⟨sign, hsign, rfl⟩ | ⟨sign, hsign, cs, hcs, rfl⟩)
    · exact .empty
    · exact .infinity hsign
    · exact .decimal hsign hcs

/-- The texts that are read, but for blanks around them. -/
theorem isNaN_readNumber_iff (s : String) : (readNumber s).isNaN = false ↔
    (Numeral (trimBlank s).toList ∧ ¬ Overlong (trimBlank s).toList)
    ∨ Plussed (trimBlank s).toList := by
  by_cases hmarked : ∃ mark radix ds, (mark, radix) ∈ radixMarks ∧ (trimBlank s).toList = mark ++ ds
  · obtain ⟨mark, radix, ds, hmark, htext⟩ := hmarked
    have hradix := radix_le hmark
    rw [readNumber_of_mark hmark htext, isNaN_readRadix?, Bool.not_eq_false',
      isSome_readRadix?_iff hradix,
      htext, numeral_mark_iff hmark, overlong_mark_iff hmark, plussed_mark_iff hmark]
    refine or_congr_left ⟨?_, ?_⟩
    · rintro ⟨n, hds, hn⟩
      refine ⟨⟨n, hds⟩, ?_⟩
      rintro ⟨m, hds', hm⟩
      exact Nat.not_le_of_lt hn (hds.unique hradix hds' ▸ hm)
    · rintro ⟨⟨n, hds⟩, hlong⟩
      exact ⟨n, hds, Nat.lt_of_not_le fun hn => hlong ⟨n, hds, hn⟩⟩
  · have hmarkless : Markless (trimBlank s).toList := fun mark radix ds hmark htext =>
      hmarked ⟨mark, radix, ds, hmark, htext⟩
    have hlong : ¬ Overlong (trimBlank s).toList := by
      rintro ⟨mark, radix, ds, n, hmark, -, -, htext⟩
      exact hmarkless _ _ _ hmark htext
    have hplus : ¬ Plussed (trimBlank s).toList := by
      rintro ⟨mark, radix, ds, n, hmark, -, -, htext⟩
      exact hmarkless _ _ _ hmark htext
    rw [or_iff_left hplus, and_iff_left hlong, numeral_markless_iff hmarkless,
      ← isSome_readDecimal?_iff]
    by_cases hne : (trimBlank s).toList = []
    · refine iff_of_true ?_ (.inl hne)
      unfold readNumber
      rw [hne]
      decide
    · have hinfinity : (∃ sign ∈ signs, (trimBlank s).toList = sign ++ "Infinity".toList) ↔
          ((trimBlank s).toList = "Infinity".toList ∨ (trimBlank s).toList = "+Infinity".toList)
            ∨ (trimBlank s).toList = "-Infinity".toList := by
        simp only [signs, List.mem_cons, List.not_mem_nil, or_false, exists_eq_or_imp,
          exists_eq_left, or_assoc]
        rfl
      rw [readNumber_of_markless hne hmarkless, or_iff_right hne, hinfinity]
      by_cases hplain : (trimBlank s).toList = "Infinity".toList
        ∨ (trimBlank s).toList = "+Infinity".toList
      · rw [if_pos hplain]
        exact iff_of_true (by decide) (.inl (.inl hplain))
      · rw [if_neg hplain, or_iff_right hplain]
        by_cases hminus : (trimBlank s).toList = "-Infinity".toList
        · rw [if_pos hminus]
          exact iff_of_true (by decide) (.inl hminus)
        · rw [if_neg hminus, or_iff_right hminus, isNaN_readDecimal?, Bool.not_eq_false']

theorem trimBlank_eq_stripped {s : String} (hs : ∀ c ∈ s.toList, c.toNat < 128) :
    (trimBlank s).toList = stripped s := by
  have hcode : ∀ n < 128, isBlank (Char.ofNat n) = isSpace (Char.ofNat n) := by decide
  have hblank (c : Char) (hc : c ∈ s.toList) : isBlank c = isSpace c := by
    rw [← Char.ofNat_toNat c]
    exact hcode _ (hs c hc)
  have hdrop (l : List Char) (hl : ∀ c ∈ l, c ∈ s.toList) : l.dropWhile isBlank
      = l.dropWhile isSpace := by
    induction l with
    | nil => rfl
    | cons c l ih =>
      rw [List.dropWhile_cons, List.dropWhile_cons, hblank c (hl c (List.mem_cons_self ..)),
        ih fun d hd => hl d (List.mem_cons_of_mem _ hd)]
  unfold trimBlank stripped List.rdropWhile
  rw [String.toList_ofList, hdrop s.toList fun _ => id, hdrop]
  intro c hc
  exact (List.dropWhile_sublist _).subset (List.mem_reverse.1 hc)

/-- **Which texts are numbers.** A text of ASCII characters is converted to a number if and only if
it is, but for white space around it, a numeric string, save for whole numbers with the mark of a
radix: of these one with more than 64 bits is not read, and one of 64 bits is read with a plus sign
after the mark too. -/
theorem isNaN_toNumber_string (s : String) (hs : ∀ c ∈ s.toList, c.toNat < 128) :
    (Primitive.string s).toNumber.isNaN = false ↔
      (Numeral (stripped s) ∧ ¬ Overlong (stripped s)) ∨ Plussed (stripped s) := by
  rw [← trimBlank_eq_stripped hs]
  exact isNaN_readNumber_iff s

/-- A literal with all that may belong to it, and white space around, is read. -/
theorem isNaN_toNumber_halfThousand : (∀ c ∈ "\t-.5e+3 \n".toList, c.toNat < 128)
    ∧ (Primitive.string "\t-.5e+3 \n").toNumber.isNaN = false := by
  have hascii : ∀ c ∈ "\t-.5e+3 \n".toList, c.toNat < 128 := by simp
  have hfive : DigitRun ['5'] := ⟨List.cons_ne_nil _ _, List.forall_mem_singleton.2 rfl⟩
  have hthree : DigitRun ['3'] := ⟨List.cons_ne_nil _ _, List.forall_mem_singleton.2 rfl⟩
  have hplus : ['+'] ∈ signs := by decide
  have hcs : DecimalLiteral ".5e+3".toList := .fraction hfive (.present (.inl rfl) hplus hthree)
  have hsign : ['-'] ∈ signs := by decide
  refine ⟨hascii, (isNaN_toNumber_string _ hascii).2 (.inl ⟨.decimal hsign hcs, ?_⟩)⟩
  rintro ⟨mark, radix, ds, n, hmark, -, -, htext⟩
  exact hcs.markless hsign _ _ _ hmark htext

/-- A plus sign after the mark of a radix is read over, though no numeric string has one there, and
a whole number with more than 64 bits is not read, though it is one. -/
theorem isNaN_toNumber_plusOne : ((Primitive.string "0x+1").toNumber.isNaN = false
    ∧ ¬ Numeral (stripped "0x+1")) ∧ (Primitive.string "0x10000000000000000").toNumber.isNaN = true
    ∧ Numeral (stripped "0x10000000000000000") := by
  have hmark : (['0', 'x'], 16) ∈ radixMarks := by decide
  have hplus : ¬ Numeral (stripped "0x+1") := fun h => by
    obtain ⟨n, hds⟩ : ∃ n, RadixRun 16 ['+', '1'] n := (numeral_mark_iff hmark).1 h
    exact hds.ne_plus (Nat.le_refl _) _ rfl
  have hzeros (k : Nat) : ∃ n, RadixRun 16 ('1' :: List.replicate k '0') n := by
    induction k with
    | zero => exact ⟨_, .one (v := 1) (by unfold IsDigitOf; decide)⟩
    | succ k ih =>
      obtain ⟨n, hds⟩ := ih
      rw [List.replicate_succ']
      exact ⟨_, hds.more (v := 0) (by unfold IsDigitOf; decide)⟩
  exact ⟨⟨by decide +kernel, hplus⟩, by decide +kernel, (numeral_mark_iff hmark).2 (hzeros 16)⟩

end ScopedTree
