import Mathlib.Data.List.Basic
import ScopedTree.Text.Identifier

/-!
# Characters of identifiers

A name that is made out of any text is written with characters that can stand in an identifier. The
one exception are capitals: a few of them are written with a mark that no identifier has. Without
them the name is an identifier, and an identifier is the name that is made out of it.

* `hasMarkedCapital`              the characters with such a capital;
* `isIdentifierPart_uppercase`    the capitals of all others;
* `mem_camelCase`                 what camel-casing writes;
* `isIdentifierPart_toIdentifier` what a name made out of a text is written with;
* `isIdentifier_iff`              an identifier, character by character;
* `isIdentifier_toIdentifier`     the names made out of texts that are identifiers;
* `toIdentifier_of_isIdentifier`  the names made out of identifiers;
* `toIdentifier_retracts`         both, for texts of ASCII characters.
-/

namespace ScopedTree

variable {c d : Char} {cs out : List Char} {text : String}

/-! ## capitals -/

/-- Whether the capital of a character is written with a mark that cannot stand in an identifier. -/
def hasMarkedCapital (c : Char) : Bool :=
  (uppercaseSpecials.lookup c.toNat).any fun image =>
    image.any fun code => !isIdentifierPart (Char.ofNat code)

/-- Whether so many code points after a given one, and it, are letters in a row. -/
def lettersFrom (code count : Nat) : Bool :=
  alphabeticRanges.any fun range => range.1.ble code && (code + count).ble range.2

theorem lettersFrom_uppercaseRuns : (uppercaseRuns.all fun (first, last, stride, image) =>
    lettersFrom image (last - first) || (List.range ((last - first) / stride + 1)).all fun k =>
      lettersFrom (image + k * stride) 0) = true := by
  decide +kernel

theorem isValidChar_alphabeticRanges :
    (alphabeticRanges.all fun range => range.2.blt 0xd800 || (Nat.blt 0xdfff range.1
      && range.2.blt 0x110000)) = true := by
  decide +kernel

theorem isAlphabetic_ofNat {code : Nat} (h : lettersFrom code 0 = true) :
    isAlphabetic (Char.ofNat code) = true := by
  obtain ⟨range, hmem, hrange⟩ := List.any_eq_true.1 h
  have hchar := List.all_eq_true.1 isValidChar_alphabeticRanges range hmem
  simp only [Bool.and_eq_true, Bool.or_eq_true, Nat.ble_eq, Nat.blt_eq] at hrange hchar
  have hvalid : code.isValidChar := by
    unfold Nat.isValidChar
    omega
  have hcode : (Char.ofNat code).toNat = code := by
    rw [Char.ofNat, dif_pos hvalid]
    rfl
  refine List.any_eq_true.2 ⟨range, hmem, ?_⟩
  rw [hcode]
  simpa using hrange

theorem lettersFrom_of_le {code count k : Nat} (h : lettersFrom code count = true)
    (hk : k ≤ count) :
    lettersFrom (code + k) 0 = true := by
  obtain ⟨range, hmem, hrange⟩ := List.any_eq_true.1 h
  refine List.any_eq_true.2 ⟨range, hmem, ?_⟩
  simp only [Bool.and_eq_true, Nat.ble_eq] at hrange ⊢
  omega

/-- **The capital of a character of identifiers** is written with such characters, unless it has a
mark. -/
theorem isIdentifierPart_uppercase (hc : isIdentifierPart c = true)
    (hmark : hasMarkedCapital c = false) (hd : d ∈ uppercase c) : isIdentifierPart d = true := by
  unfold uppercase at hd
  dsimp only at hd
  unfold hasMarkedCapital at hmark
  cases hspecial : uppercaseSpecials.lookup c.toNat with
  | some image =>
    rw [hspecial] at hd hmark
    obtain ⟨code, hcode, rfl⟩ := List.mem_map.1 hd
    simpa using List.any_eq_false.1 hmark code hcode
  | none =>
    rw [hspecial] at hd
    dsimp only at hd
    split at hd
    · next first last stride image hrun =>
      obtain rfl := List.mem_singleton.1 hd
      have hfits := List.find?_some hrun
      simp only [Bool.and_eq_true, decide_eq_true_eq, beq_iff_eq] at hfits
      obtain ⟨⟨hfirst, hlast⟩, hstride⟩ := hfits
      have hall := List.all_eq_true.1 lettersFrom_uppercaseRuns _ (List.mem_of_find?_eq_some hrun)
      have hletter : lettersFrom (image + (c.toNat - first)) 0 = true := by
        rcases Bool.or_eq_true_iff.1 hall with hrow | hall
        · exact lettersFrom_of_le hrow (by omega)
        · -- the character is so many strides into its run
          have hsteps : (c.toNat - first) / stride * stride = c.toNat - first :=
            Nat.div_mul_cancel (Nat.dvd_of_mod_eq_zero hstride)
          have hlt : (c.toNat - first) / stride < (last - first) / stride + 1 :=
            Nat.lt_succ_of_le (Nat.div_le_div_right (by omega))
          rw [← hsteps]
          exact List.all_eq_true.1 hall _ (List.mem_range.2 hlt)
      rw [Nat.add_comm] at hletter
      simp [isIdentifierPart, isAlphanumeric, isAlphabetic_ofNat hletter]
    · obtain rfl := List.mem_singleton.1 hd
      exact hc

/-! ## names made out of texts -/

/-- Camel-casing writes characters of identifiers that it reads, or their capitals. -/
theorem mem_camelCase {upper : Bool} (hd : d ∈ camelCase out upper cs) :
    d ∈ out ∨ ∃ c ∈ cs, isIdentifierPart c = true ∧ (d = c ∨ d ∈ uppercase c) := by
  induction cs generalizing out upper with
  | nil => exact .inl hd
  | cons c cs ih =>
    have hlater {out' : List Char} {upper' : Bool} (hd : d ∈ camelCase out' upper' cs)
        (hout : d ∈ out' → d ∈ out ∨ isIdentifierPart c = true ∧ (d = c ∨ d ∈ uppercase c)) :
        d ∈ out ∨ ∃ b ∈ c :: cs, isIdentifierPart b = true ∧ (d = b ∨ d ∈ uppercase b) := by
      rcases ih hd with hd | ⟨b, hb, hpart⟩
      · rcases hout hd with hd | hpart
        · exact .inl hd
        · exact .inr ⟨c, List.mem_cons_self .., hpart⟩
      · exact .inr ⟨b, List.mem_cons_of_mem _ hb, hpart⟩
    rw [camelCase] at hd
    split at hd
    · exact hlater hd .inl
    · next hpart =>
      have hpart : isIdentifierPart c = true := by simpa using hpart
      split at hd
      · exact hlater hd .inl
      · split at hd
        · apply hlater hd
          intro hd
          rcases List.mem_append.1 hd with hd | hd
          · exact .inl hd
          · exact .inr ⟨hpart, .inr hd⟩
        · apply hlater hd
          intro hd
          rcases List.mem_append.1 hd with hd | hd
          · exact .inl hd
          · exact .inr ⟨hpart, .inl (List.mem_singleton.1 hd)⟩

/-- **What a name made out of a text is written with**, if no character of the text has a marked
capital. -/
theorem isIdentifierPart_toIdentifier (htext : ∀ c ∈ text.toList, hasMarkedCapital c = false)
    (hd : d ∈ (toIdentifier text).toList) : isIdentifierPart d = true := by
  have hwords (hd : d ∈ camelCase [] false text.toList) : isIdentifierPart d = true := by
    rcases mem_camelCase hd with hd | ⟨c, hc, hpart, rfl | hd⟩
    · cases hd
    · exact hpart
    · exact isIdentifierPart_uppercase hpart (htext c hc) hd
  unfold toIdentifier at hd
  dsimp only at hd
  split at hd
  · exact hwords (by simpa using hd)
  · rw [String.toList_append, String.toList_ofList] at hd
    rcases List.mem_append.1 hd with hd | hd
    · obtain rfl : d = '_' := by simpa using hd
      decide
    · exact hwords (by rwa [String.toList_ofList] at hd)

/-! ## identifiers -/

theorem isIdentifierPart_of_start (h : isIdentifierStart c = true) : isIdentifierPart c = true := by
  unfold isIdentifierStart at h
  unfold isIdentifierPart isAlphanumeric
  cases hc : isAlphabetic c <;> simp_all

theorem isIdentifierPart_of_isDigit (h : c.isDigit = true) : isIdentifierPart c = true := by
  have hrange : numericRanges.contains c = true := by
    refine List.any_eq_true.2 ⟨(0x30, 0x39), by decide, ?_⟩
    simpa [Char.isDigit, Char.le_def, UInt32.le_iff_toNat_le] using h
  simp [isIdentifierPart, isAlphanumeric, hrange]

/-- An identifier starts with a character that it may start with, goes on with those that it may go
on with, and is no reserved word. -/
theorem isIdentifier_iff : isIdentifier text = true ↔ (∃ c, text.toList.head? = some c
    ∧ isIdentifierStart c = true) ∧ (∀ c ∈ text.toList, isIdentifierPart c = true)
    ∧ isReservedWord text = false := by
  unfold isIdentifier
  cases htext : text.toList with
  | nil => simp [spellsIdentifier]
  | cons c cs =>
    simp only [spellsIdentifier, Bool.and_eq_true, List.all_eq_true, Bool.not_eq_true',
      List.head?_cons, Option.some.injEq, exists_eq_left', List.forall_mem_cons]
    constructor
    · rintro ⟨⟨hstart, hparts⟩, hword⟩
      exact ⟨hstart, ⟨isIdentifierPart_of_start hstart, hparts⟩, hword⟩
    · rintro ⟨hstart, ⟨-, hparts⟩, hword⟩
      exact ⟨⟨hstart, hparts⟩, hword⟩

theorem isReservedWord_underscore (cs : List Char) (htext : text.toList = '_' :: cs) :
    isReservedWord text = false := by
  have hnone : ∀ word ∈ reservedWords, word.toList.head? ≠ some '_' := by decide
  unfold isReservedWord
  rw [List.contains_eq_mem, decide_eq_false_iff_not]
  intro hmem
  exact hnone text hmem (by rw [htext]; rfl)

/-! ## names that are identifiers -/

/-- **The name made out of a text is an identifier**, if no character of the text has a marked
capital: a leading underscore makes up for a wrong start, for a text without a letter and for a
reserved word. -/
theorem isIdentifier_toIdentifier (htext : ∀ c ∈ text.toList, hasMarkedCapital c = false) :
    isIdentifier (toIdentifier text) = true := by
  have hparts : ∀ d ∈ (toIdentifier text).toList, isIdentifierPart d = true :=
    fun d => isIdentifierPart_toIdentifier htext
  unfold toIdentifier at hparts ⊢
  dsimp only at hparts ⊢
  split
  · assumption
  · next hwords =>
    -- no reserved word starts with the underscore, so one is enough whatever was wrong
    rw [if_neg hwords] at hparts
    have hname : ("_" ++ String.ofList (camelCase [] false text.toList)).toList
        = '_' :: camelCase [] false text.toList := by
      simp
    refine isIdentifier_iff.2 ⟨⟨'_', ?_, by decide⟩, hparts, isReservedWord_underscore _ hname⟩
    rw [hname, List.head?_cons]

/-- The capital of U+01F0 has a mark, and with or without the underscore it is in no identifier. -/
example : isIdentifier (toIdentifier "x \u01f0") = false := by decide +kernel

theorem isDigit_of_isIdentifierStart (h : isIdentifierStart c = true) : c.isDigit = false := by
  have hletters : (alphabeticRanges.all fun range => Nat.blt range.2 0x30 || Nat.blt 0x39 range.1)
      = true := by
    decide +kernel
  unfold isIdentifierStart at h
  simp only [Bool.or_eq_true, beq_iff_eq] at h
  rcases h with (rfl | rfl) | hletter
  · rfl
  · rfl
  · obtain ⟨range, hmem, hrange⟩ := List.any_eq_true.1 hletter
    have hapart := List.all_eq_true.1 hletters range hmem
    simp only [Bool.and_eq_true, Bool.or_eq_true, decide_eq_true_eq, Nat.blt_eq] at hrange hapart
    simp only [Char.isDigit, UInt32.le_iff_toNat_le, Bool.and_eq_false_iff, decide_eq_false_iff_not]
    have hcode : c.val.toNat = c.toNat := rfl
    have hzero : '0'.val.toNat = 0x30 := rfl
    have hnine : '9'.val.toNat = 0x39 := rfl
    omega

/-- Camel-casing leaves the characters of one word as they are, but for a digit that would come
first. -/
theorem camelCase_word (hparts : ∀ c ∈ cs, isIdentifierPart c = true)
    (hstart : out = [] → ∀ c, cs.head? = some c → c.isDigit = false) :
    camelCase out false cs = out ++ cs := by
  induction cs generalizing out with
  | nil => exact (List.append_nil out).symm
  | cons c cs ih =>
    have hpart := hparts c (List.mem_cons_self ..)
    have hkept : ¬ (out.isEmpty && c.isDigit) = true := by
      rw [Bool.and_eq_true, List.isEmpty_iff]
      rintro ⟨hout, hdigit⟩
      rw [hstart hout c rfl] at hdigit
      cases hdigit
    -- from here on something is written, and digits stay too
    rw [camelCase, if_neg (by simp [hpart]), if_neg hkept, if_neg (by simp),
      ih (fun d hd => hparts d (List.mem_cons_of_mem _ hd)) (by simp), List.append_assoc]
    rfl

/-- **The name made out of an identifier** is the identifier. -/
theorem toIdentifier_of_isIdentifier (h : isIdentifier text = true) : toIdentifier text = text := by
  obtain ⟨⟨c, hhead, hstart⟩, hparts, -⟩ := isIdentifier_iff.1 h
  have hwords : camelCase [] false text.toList = text.toList := by
    refine camelCase_word hparts fun _ d hd => ?_
    obtain rfl := Option.some.inj (hhead.symm.trans hd)
    exact isDigit_of_isIdentifierStart hstart
  unfold toIdentifier
  rw [hwords, String.ofList_toList]
  exact if_pos h

theorem hasMarkedCapital_of_ascii (hc : c.toNat < 128) : hasMarkedCapital c = false := by
  have hbeyond : (uppercaseSpecials.all fun special => Nat.ble 128 special.1) = true := by decide
  have hnone : uppercaseSpecials.lookup c.toNat = none := by
    rw [List.lookup_eq_none_iff]
    intro special hmem
    have hcode := Nat.le_of_ble_eq_true (List.all_eq_true.1 hbeyond special hmem)
    rw [bne_iff_ne]
    omega
  unfold hasMarkedCapital
  rw [hnone]
  rfl

/-- **Making a name is a retraction onto the identifiers.** The name made out of any text of ASCII
characters is an identifier, an identifier is its own name, and so is a name that is made. -/
theorem toIdentifier_retracts (text : String) (htext : ∀ c ∈ text.toList, c.toNat < 128) :
    isIdentifier (toIdentifier text) = true
      ∧ (isIdentifier text = true → toIdentifier text = text)
      ∧ toIdentifier (toIdentifier text) = toIdentifier text := by
  have hmade : isIdentifier (toIdentifier text) = true :=
    isIdentifier_toIdentifier fun c hc => hasMarkedCapital_of_ascii (htext c hc)
  exact ⟨hmade, toIdentifier_of_isIdentifier, toIdentifier_of_isIdentifier hmade⟩

/-- The digit and the blank of `2 class` are left out, and `_class` is made of the reserved word
that remains. -/
theorem toIdentifier_twoClass : (∀ c ∈ "2 class".toList, c.toNat < 128)
    ∧ (∀ c ∈ "_class".toList, c.toNat < 128)
    ∧ toIdentifier "2 class" = "_class" ∧ isIdentifier "_class" = true
    ∧ toIdentifier "_class" = "_class" := by
  have hascii : ∀ c ∈ "2 class".toList, c.toNat < 128 := by simp
  have hascii' : ∀ c ∈ "_class".toList, c.toNat < 128 := by simp
  have hname : toIdentifier "2 class" = "_class" := by decide +kernel
  obtain ⟨hmade, -, -⟩ := toIdentifier_retracts "2 class" hascii
  rw [hname] at hmade
  exact ⟨hascii, hascii', hname, hmade, (toIdentifier_retracts "_class" hascii').2.1 hmade⟩

end ScopedTree
