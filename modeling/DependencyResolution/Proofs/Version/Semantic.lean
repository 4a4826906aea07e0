import DependencyResolution.Proofs.Outcome
import DependencyResolution.Proofs.Text.Blank
import DependencyResolution.Version.Semantic
import Mathlib.Algebra.Group.Nat.Defs
import Mathlib.Data.List.Basic
import Mathlib.Data.Set.Defs
import Mathlib.Order.Lattice

/-!
# Semantic versions in order and in writing

The order of versions is total, and no version is between one and the one with the next patch number. Of
those without negative numbers (`IsNatural`) `0.0.0` is the least. Such a version is printed as text that is
read as the same version if its numbers are not too long (`parse_text_of_isNatural`). What is read as a
version starts with an ASCII digit and holds no separator of constraints.
-/

namespace DependencyResolution.SemanticVersion

open Text

variable {v w : SemanticVersion}

/-! ## Order -/

theorem ext_iff : v = w ↔ v.major = w.major ∧ v.minor = w.minor ∧ v.patch = w.patch := by
  cases v
  cases w
  rw [SemanticVersion.mk.injEq]

theorem lt_iff : v < w ↔ v.major < w.major ∨ v.major = w.major ∧
    (v.minor < w.minor ∨ v.minor = w.minor ∧ v.patch < w.patch) := Iff.rfl

instance : LinearOrder SemanticVersion where
  le v w := ¬ w < v
  le_refl v h := by
    rw [lt_iff] at h
    omega
  le_trans u v w huv hvw h := by
    rw [lt_iff] at huv hvw h
    omega
  le_antisymm v w hvw hwv := by
    rw [lt_iff] at hvw hwv
    rw [ext_iff]
    omega
  lt_iff_le_not_ge v w := by
    rw [not_not, lt_iff, lt_iff]
    omega
  le_total v w := by
    rw [lt_iff, lt_iff]
    omega
  toDecidableLE := fun v w => inferInstanceAs (Decidable (¬ w < v))
  toDecidableLT := inferInstance
  toDecidableEq := inferInstance

theorem le_iff : v ≤ w ↔ v.major < w.major ∨ v.major = w.major ∧
    (v.minor < w.minor ∨ v.minor = w.minor ∧ v.patch ≤ w.patch) := by
  rw [← not_lt, lt_iff]
  omega

theorem nextPatch_le_iff : v.nextPatch ≤ w ↔ v < w := by
  rw [le_iff, lt_iff, nextPatch]
  simp only
  omega

theorem lt_nextPatch_iff : v < w.nextPatch ↔ v ≤ w := by
  rw [← not_le, nextPatch_le_iff, not_lt]

/-- No number of the version is negative. -/
def IsNatural (v : SemanticVersion) : Prop := 0 ≤ v.major ∧ 0 ≤ v.minor ∧ 0 ≤ v.patch

instance : DecidablePred IsNatural := fun v =>
  inferInstanceAs (Decidable (0 ≤ v.major ∧ 0 ≤ v.minor ∧ 0 ≤ v.patch))

def naturals : Set SemanticVersion := {v | v.IsNatural}

/-- The least version without negative numbers. -/
def zero : SemanticVersion := ⟨0, 0, 0⟩

theorem isNatural_zero : zero.IsNatural := by decide

theorem zero_le (h : v.IsNatural) : zero ≤ v := by
  obtain ⟨hmajor, hminor, hpatch⟩ := h
  rw [le_iff, zero]
  simp only
  omega

theorem isNatural_nextPatch (h : v.IsNatural) : v.nextPatch.IsNatural :=
  ⟨h.1, h.2.1, Int.add_nonneg h.2.2 Int.one_nonneg⟩

/-! ## Numbers -/

theorem isDigit_of_le {c : Char} (hlow : '1' ≤ c) (hhigh : c ≤ '9') : c.isDigit = true := by
  have hlow : '1'.val ≤ c.val := hlow
  have hhigh : c.val ≤ '9'.val := hhigh
  simp only [Char.isDigit, Bool.and_eq_true, decide_eq_true_eq, ge_iff_le]
  exact ⟨UInt32.le_trans (show '0'.val ≤ '1'.val by decide) hlow, hhigh⟩

theorem digitValue?_of_isDigit {c : Char} (h : c.isDigit = true) :
    digitValue? c = some (c.toNat - '0'.toNat) := by
  have hrange : 0x30 ≤ c.toNat ∧ c.toNat ≤ 0x30 + 9 := by
    simpa [Char.isDigit, UInt32.le_iff_toNat_le] using h
  rw [digitValue?, decimalZeros, List.find?_cons_of_pos (by simpa using hrange)]
  rfl

/-- Digits of the core library's kind denote the number that they denote there. -/
theorem decimalValue_eq_ofDigitChars {ds : List Char} (h : ∀ c ∈ ds, c.isDigit = true) :
    decimalValue ds = Nat.ofDigitChars 10 ds 0 := by
  rw [decimalValue, ofDigits, List.foldl_map, Nat.ofDigitChars_eq_foldl]
  refine List.foldl_ext _ _ _ fun n c hc => ?_
  rw [digitValue?_of_isDigit (h c hc)]
  rfl

theorem exists_toDigits_cons {n : Nat} (h : n ≠ 0) :
    ∃ c ds, Nat.toDigits 10 n = c :: ds ∧ '1' ≤ c ∧ c ≤ '9' := by
  induction n using Nat.strongRecOn with
  | ind n ih =>
    by_cases hn : n < 10
    · have hdigits : ∀ m < 10, m ≠ 0 → '1' ≤ m.digitChar ∧ m.digitChar ≤ '9' := by decide
      exact ⟨n.digitChar, [], Nat.toDigits_of_lt_base hn, hdigits n hn h⟩
    · obtain ⟨c, ds, hds, hc⟩ := ih (n / 10) (by omega) (by omega)
      refine ⟨c, ds ++ [(n % 10).digitChar], ?_, hc⟩
      rw [Nat.toDigits_of_base_le (by omega) (by omega), hds, List.cons_append]

theorem takeNumber_digits {c : Char} {ds rest : List Char} (hlow : '1' ≤ c) (hhigh : c ≤ '9')
    (hds : ∀ d ∈ ds, isDecimalDigit d = true) (hrest : ∀ d ∈ rest.head?, isDecimalDigit d = false) :
    takeNumber (c :: ds ++ rest) = some (c :: ds, rest) := by
  have hzero : c ≠ '0' := by
    rintro rfl
    exact absurd hlow (by decide)
  have htake : (ds ++ rest).takeWhile isDecimalDigit = ds := by
    rw [List.takeWhile_append_of_pos hds]
    cases rest with
    | nil => simp
    | cons d rest => simp [hrest d rfl]
  have hdrop : (ds ++ rest).dropWhile isDecimalDigit = rest := by
    rw [List.dropWhile_append_of_pos hds]
    cases rest with
    | nil => rfl
    | cons d rest => simp [hrest d rfl]
  rw [List.cons_append, takeNumber, if_neg hzero, if_pos ⟨hlow, hhigh⟩, htake, hdrop]

theorem takeNumber_toDigits (n : Nat) {rest : List Char} (h : ∀ c ∈ rest.head?, isDecimalDigit c = false) :
    takeNumber (Nat.toDigits 10 n ++ rest) = some (Nat.toDigits 10 n, rest) := by
  rcases Nat.eq_zero_or_pos n with rfl | hn
  · rfl
  · obtain ⟨c, ds, hds, hc1, hc9⟩ := exists_toDigits_cons hn.ne'
    have hall : ∀ d ∈ ds, isDecimalDigit d = true := by
      intro d hd
      have hdigit : d.isDigit = true :=
        Nat.isDigit_of_mem_toDigits (by omega) (by omega) (hds ▸ List.mem_cons_of_mem c hd)
      rw [isDecimalDigit, digitValue?_of_isDigit hdigit]
      rfl
    rw [hds, takeNumber_digits hc1 hc9 hall h]

theorem isShort_iff {z : Int} : isShort z = true ↔ z.natAbs < 10 ^ digitLimit := by
  rw [isShort, decide_eq_true_iff, Nat.length_toDigits_le_iff (by decide) (by decide)]

theorem readNatural_toDigits {n : Nat} (h : isShort n = true) : readNatural (Nat.toDigits 10 n) = .ok n := by
  have hdigits : ∀ d ∈ Nat.toDigits 10 n, d.isDigit = true :=
    fun d hd => Nat.isDigit_of_mem_toDigits (by omega) (by omega) hd
  rw [isShort, decide_eq_true_iff, Int.natAbs_natCast] at h
  rw [readNatural, if_pos h, decimalValue_eq_ofDigitChars hdigits, Nat.ofDigitChars_ten_toDigits]

theorem parse_eq_ok_iff {s : String} :
    parse s = .ok v ↔ ∃ ns, numerals? (trimBlanks s.toList) = some ns ∧ ofNumerals ns = .ok v := by
  rw [parse]
  split
  · next hnone => simp [hnone]
  · next ns hns => simp [hns, mapError_eq_ok_iff]

/-! ## Printing and reading back -/

theorem exists_of_isNatural (h : v.IsNatural) : ∃ major minor patch : Nat, v = ⟨major, minor, patch⟩ := by
  obtain ⟨major, hmajor⟩ := Int.eq_ofNat_of_zero_le h.1
  obtain ⟨minor, hminor⟩ := Int.eq_ofNat_of_zero_le h.2.1
  obtain ⟨patch, hpatch⟩ := Int.eq_ofNat_of_zero_le h.2.2
  exact ⟨major, minor, patch, ext_iff.mpr ⟨hmajor, hminor, hpatch⟩⟩

theorem isWritable_iff : Shown.isWritable v = true ↔
    isShort v.major = true ∧ isShort v.minor = true ∧ isShort v.patch = true := by
  change (isShort v.major && isShort v.minor && isShort v.patch) = true ↔ _
  rw [Bool.and_eq_true, Bool.and_eq_true, and_assoc]

variable {major minor patch : Nat}

theorem toList_text (major minor patch : Nat) : (Shown.text (⟨major, minor, patch⟩ : SemanticVersion)).toList =
    Nat.toDigits 10 major ++ '.' :: (Nat.toDigits 10 minor ++ '.' :: Nat.toDigits 10 patch) := by
  have h : Shown.text (⟨major, minor, patch⟩ : SemanticVersion) =
      toString major ++ "." ++ toString minor ++ "." ++ toString patch := rfl
  rw [h]
  simp

theorem numerals?_text (major minor patch : Nat) :
    numerals? (Shown.text (⟨major, minor, patch⟩ : SemanticVersion)).toList =
      some ⟨Nat.toDigits 10 major, Nat.toDigits 10 minor, Nat.toDigits 10 patch⟩ := by
  have hpoint : ∀ (cs : List Char), ∀ c ∈ ('.' :: cs).head?, isDecimalDigit c = false := by
    intro cs c hc
    obtain rfl := Option.some.inj hc
    decide
  have hmajor := takeNumber_toDigits major (hpoint (Nat.toDigits 10 minor ++ '.' :: Nat.toDigits 10 patch))
  have hminor := takeNumber_toDigits minor (hpoint (Nat.toDigits 10 patch))
  have hpatch : takeNumber (Nat.toDigits 10 patch ++ []) = some (Nat.toDigits 10 patch, []) :=
    takeNumber_toDigits patch (by simp)
  rw [List.append_nil] at hpatch
  simp [toList_text, numerals?, hmajor, takeNextNumber, hminor, hpatch, dropSuffix]

theorem isSolid_text (h : v.IsNatural) : IsSolid (Shown.text v).toList := by
  have hdigit : ∀ {n : Nat} {c : Char}, c ∈ Nat.toDigits 10 n → isBlank c = false := by
    intro n c hc
    have h := Nat.isDigit_of_mem_toDigits (by omega) (by omega) hc
    have hrange : 0x30 ≤ c.toNat ∧ c.toNat ≤ 0x39 := by simpa [Char.isDigit, UInt32.le_iff_toNat_le] using h
    simp only [isBlank, Bool.or_eq_false_iff, Bool.and_eq_false_iff, decide_eq_false_iff_not, beq_eq_false_iff_ne]
    omega
  obtain ⟨major, minor, patch, rfl⟩ := exists_of_isNatural h
  intro c hc
  rw [toList_text] at hc
  simp only [List.mem_append, List.mem_cons] at hc
  rcases hc with h | rfl | h | rfl | h
  · exact hdigit h
  · decide
  · exact hdigit h
  · decide
  · exact hdigit h

/-- What is printed without signs and within the limit is read back. -/
theorem parse_text_of_isNatural (h : v.IsNatural) (hwritable : Shown.isWritable v = true) : parse (Shown.text v) = .ok v := by
  obtain ⟨major, minor, patch, rfl⟩ := exists_of_isNatural h
  obtain ⟨hmajor, hminor, hpatch⟩ := isWritable_iff.mp hwritable
  rw [parse_eq_ok_iff, trimBlanks_eq_self (isSolid_text h), numerals?_text]
  refine ⟨_, rfl, ?_⟩
  simp only [ofNumerals, readNatural_toDigits hmajor, readNatural_toDigits hminor, readNatural_toDigits hpatch]
  rfl

/-! ## Texts that are read -/

variable {cs ds rest : List Char} {c : Char}

/-- Whether a character may occur in the text of a version. -/
def isVersionChar (c : Char) : Bool := isDecimalDigit c || isSuffixChar c || c == '+'

theorem exists_of_takeNumber (h : takeNumber cs = some (ds, rest)) :
    cs = ds ++ rest ∧ ∃ d ds', ds = d :: ds' ∧ d.isDigit = true ∧ ∀ c ∈ ds', isDecimalDigit c = true := by
  cases cs with
  | nil => cases h
  | cons c cs =>
    rw [takeNumber] at h
    split at h
    · next hc =>
      obtain ⟨rfl, rfl⟩ := Prod.mk.inj (Option.some.inj h)
      exact ⟨by rw [hc]; rfl, '0', [], rfl, by decide, by simp⟩
    · split at h
      · next hc =>
        obtain ⟨rfl, rfl⟩ := Prod.mk.inj (Option.some.inj h)
        refine ⟨?_, c, _, rfl, isDigit_of_le hc.1 hc.2, fun d hd => List.mem_takeWhile_imp hd⟩
        rw [List.cons_append, List.takeWhile_append_dropWhile]
      · cases h

theorem isVersionChar_of_takeNumber (h : takeNumber cs = some (ds, rest)) (hc : c ∈ cs) :
    isVersionChar c = true ∨ c ∈ rest := by
  obtain ⟨rfl, d, ds, rfl, hd, hds⟩ := exists_of_takeNumber h
  rw [List.cons_append, List.mem_cons, List.mem_append] at hc
  rcases hc with rfl | hc | hc
  · left
    simp [isVersionChar, isDecimalDigit, digitValue?_of_isDigit hd]
  · left
    simp [isVersionChar, hds c hc]
  · exact Or.inr hc

theorem isVersionChar_of_takeNextNumber (h : takeNextNumber cs = some (ds, rest)) (hc : c ∈ cs) :
    isVersionChar c = true ∨ c ∈ rest := by
  rw [takeNextNumber.eq_def] at h
  split at h
  · rcases List.mem_cons.mp hc with rfl | hc
    · exact Or.inl (by decide)
    · exact isVersionChar_of_takeNumber h hc
  · obtain ⟨-, rfl⟩ := Prod.mk.inj (Option.some.inj h)
    exact Or.inr hc

theorem isVersionChar_of_dropSuffix {mark : Char} (hmark : isVersionChar mark = true)
    (h : dropSuffix mark cs = some rest) (hc : c ∈ cs) : isVersionChar c = true ∨ c ∈ rest := by
  cases cs with
  | nil => cases hc
  | cons d cs =>
    rw [dropSuffix] at h
    split at h
    · obtain rfl := Option.some.inj h
      exact Or.inr hc
    · next hd =>
      split at h
      · cases h
      · obtain rfl := Option.some.inj h
        rcases List.mem_cons.mp hc with rfl | hc
        · rw [not_not.mp hd]
          exact Or.inl hmark
        · rw [← List.takeWhile_append_dropWhile (p := isSuffixChar) (l := cs), List.mem_append] at hc
          refine hc.imp_left fun hc => ?_
          simp [isVersionChar, List.mem_takeWhile_imp hc]

/-- What is read as a version starts with an ASCII digit, and all its characters may occur in one. -/
theorem exists_of_numerals? {ns : Numerals} (h : numerals? cs = some ns) :
    (∃ d ds, cs = d :: ds ∧ d.isDigit = true) ∧ ∀ c ∈ cs, isVersionChar c = true := by
  simp only [numerals?, Option.bind_eq_bind, Option.bind_eq_some_iff, Prod.exists] at h
  obtain ⟨major, cs₁, h₁, minor, cs₂, h₂, patch, cs₃, h₃, cs₄, h₄, cs₅, h₅, hend⟩ := h
  constructor
  · obtain ⟨rfl, d, ds, rfl, hd, -⟩ := exists_of_takeNumber h₁
    exact ⟨d, ds ++ cs₁, rfl, hd⟩
  · intro c hc
    have hnil : cs₅ = [] := by
      by_contra hne
      rw [if_neg (by simpa using hne)] at hend
      cases hend
    rcases isVersionChar_of_takeNumber h₁ hc with hc | hc
    · exact hc
    rcases isVersionChar_of_takeNextNumber h₂ hc with hc | hc
    · exact hc
    rcases isVersionChar_of_takeNextNumber h₃ hc with hc | hc
    · exact hc
    rcases isVersionChar_of_dropSuffix (by decide) h₄ hc with hc | hc
    · exact hc
    rcases isVersionChar_of_dropSuffix (by decide) h₅ hc with hc | hc
    · exact hc
    · rw [hnil] at hc
      cases hc

end DependencyResolution.SemanticVersion
