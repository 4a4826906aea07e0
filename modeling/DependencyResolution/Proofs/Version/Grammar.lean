import DependencyResolution.Proofs.Version.Semantic
import DependencyResolution.Version.Constraint
import Mathlib.Data.List.Induction
import Mathlib.Data.Prod.Lex

/-!
# The language of semantic versions

`Written` is the grammar of semantic versions: one to three numbers with points between them, a
pre-release suffix and a build suffix, both optional. A number is zero or starts with an ASCII digit that is
not zero, and the value of a digit of any script counts. The suffixes may use the characters between the
numbers and in front of suffixes, so the reader has to stop each part where the next one starts: before a
point, a hyphen or a plus sign, of which no number has any, and before a plus sign, which no suffix has.

As a number has no leading zeros, its length says how large it is (`Numeral.length_le_iff`). `parse` reads a
text as a version exactly if it is written so with blanks around it and none of its numbers is too long; too
long a number and a text that is not written so are rejected with different errors (`parse_exact`).
-/

namespace DependencyResolution.SemanticVersion

open Text

/-! ## The grammar -/

/-- The characters are a first digit from `1` to `9` and decimal digits of any script, and denote the
number. -/
inductive Positive : Nat → List Char → Prop
  | first {c : Char} {d : Nat} (hlow : '1' ≤ c) (hhigh : c ≤ '9') (hd : digitValue? c = some d) : Positive d [c]
  | next {n d : Nat} {cs : List Char} {c : Char} (h : Positive n cs) (hd : digitValue? c = some d) :
      Positive (10 * n + d) (cs ++ [c])

/-- The characters denote the number, without leading zeros. -/
inductive Numeral : Int → List Char → Prop
  | zero : Numeral 0 ['0']
  | positive {n : Nat} {cs : List Char} (h : Positive n cs) : Numeral n cs

/-- The characters are the numbers of the version; the last one or two may be missing, which are zero. -/
inductive Numbers : SemanticVersion → List Char → Prop
  | major {a : Int} {as : List Char} (ha : Numeral a as) : Numbers ⟨a, 0, 0⟩ as
  | minor {a b : Int} {as bs : List Char} (ha : Numeral a as) (hb : Numeral b bs) :
      Numbers ⟨a, b, 0⟩ (as ++ '.' :: bs)
  | patch {a b n : Int} {as bs ns : List Char} (ha : Numeral a as) (hb : Numeral b bs) (hn : Numeral n ns) :
      Numbers ⟨a, b, n⟩ (as ++ '.' :: (bs ++ '.' :: ns))

/-- The characters are nothing, or a mark and a suffix that is not empty. -/
inductive Suffix (mark : Char) : List Char → Prop
  | absent : Suffix mark []
  | present {cs : List Char} (hne : cs ≠ []) (h : ∀ c ∈ cs, isSuffixChar c = true) : Suffix mark (mark :: cs)

/-- The characters are the numbers of the version, a pre-release and a build. -/
inductive Written (v : SemanticVersion) : List Char → Prop
  | intro {numbers preRelease build : List Char} (hnumbers : Numbers v numbers)
      (hpre : Suffix '-' preRelease) (hbuild : Suffix '+' build) : Written v (numbers ++ (preRelease ++ build))

/-- The text is the version as the grammar has it, with nothing but blanks around it. -/
def Denotes (s : String) (v : SemanticVersion) : Prop :=
  ∃ pre text post, s.toList = pre ++ text ++ post ∧ IsBlanks pre ∧ IsBlanks post ∧ Written v text

variable {n d : Nat} {z : Int} {c mark : Char} {cs ds rest suffix : List Char} {ns : Numerals} {v : SemanticVersion}

/-! ## Numbers -/

theorem decimalValue_append_singleton (cs : List Char) (hd : digitValue? c = some d) :
    decimalValue (cs ++ [c]) = 10 * decimalValue cs + d := by
  simp [decimalValue, ofDigits, hd]

/-- What denotes a positive number is a first digit and more digits with their decimal value. -/
theorem positive_iff : Positive n cs ↔ ∃ c ds, cs = c :: ds ∧ '1' ≤ c ∧ c ≤ '9' ∧
    (∀ d ∈ ds, isDecimalDigit d = true) ∧ decimalValue cs = n := by
  constructor
  · intro h
    induction h with
    | @first c d hlow hhigh hd =>
      exact ⟨c, [], rfl, hlow, hhigh, by simp, (decimalValue_append_singleton [] hd).trans (Nat.zero_add d)⟩
    | @next n d cs c _ hd ih =>
      obtain ⟨c₀, ds, rfl, hlow, hhigh, hds, hvalue⟩ := ih
      refine ⟨c₀, ds ++ [c], rfl, hlow, hhigh, ?_, ?_⟩
      · have hdigit : isDecimalDigit c = true := by rw [isDecimalDigit, hd]; rfl
        simpa [or_imp, forall_and] using ⟨hds, hdigit⟩
      · rw [decimalValue_append_singleton _ hd, hvalue]
  · rintro ⟨c, ds, rfl, hlow, hhigh, hds, rfl⟩
    induction ds using List.reverseRecOn with
    | nil =>
      have hd := digitValue?_of_isDigit (isDigit_of_le hlow hhigh)
      rw [← List.nil_append [c], decimalValue_append_singleton [] hd]
      exact .first hlow hhigh (by simpa [decimalValue, ofDigits] using hd)
    | append_singleton ds e ih =>
      simp only [List.mem_append, List.mem_singleton, or_imp, forall_and, forall_eq] at hds
      obtain ⟨d, hd⟩ := Option.isSome_iff_exists.mp hds.2
      rw [← List.cons_append, decimalValue_append_singleton _ hd]
      exact .next (ih hds.1) hd

theorem digitValue?_lt (h : digitValue? c = some d) : d < 10 := by
  obtain ⟨first, hfirst, rfl⟩ := Option.map_eq_some_iff.mp h
  have hrange := List.find?_some hfirst
  simp only [Bool.and_eq_true, decide_eq_true_eq] at hrange
  omega

theorem Positive.bounds (h : Positive n cs) : n < 10 ^ cs.length ∧ 10 ^ cs.length ≤ 10 * n := by
  induction h with
  | @first c d hlow hhigh hd =>
    have hone : 1 ≤ d := by
      rw [digitValue?_of_isDigit (isDigit_of_le hlow hhigh)] at hd
      obtain rfl := Option.some.inj hd
      have hle : '1'.toNat ≤ c.toNat := hlow
      have hnat : '1'.toNat = '0'.toNat + 1 := rfl
      omega
    have hlt := digitValue?_lt hd
    rw [List.length_singleton, Nat.pow_succ, Nat.pow_zero]
    omega
  | next _ hd ih =>
    have hlt := digitValue?_lt hd
    rw [List.length_append, List.length_singleton, Nat.pow_succ]
    omega

/-- The number has at most so many digits if its numeral has. -/
theorem Numeral.length_le_iff {k : Nat} (h : Numeral z cs) (hk : 0 < k) : cs.length ≤ k ↔ z.natAbs < 10 ^ k := by
  cases h with
  | zero => exact iff_of_true hk (Nat.pow_pos (by decide))
  | @positive n cs h =>
    obtain ⟨hlt, hle⟩ := h.bounds
    rw [Int.natAbs_natCast]
    constructor
    · exact fun hlength => hlt.trans_le (Nat.pow_le_pow_right (by decide) hlength)
    · intro hn
      by_contra hlength
      have hpow : 10 ^ (k + 1) ≤ 10 ^ cs.length := Nat.pow_le_pow_right (by decide) (Nat.lt_of_not_le hlength)
      rw [Nat.pow_succ] at hpow
      omega

theorem Numeral.decimalValue_eq (h : Numeral z cs) : (decimalValue cs : Int) = z := by
  cases h with
  | zero => rfl
  | positive h =>
    obtain ⟨c, ds, -, -, -, -, hvalue⟩ := positive_iff.mp h
    rw [hvalue]

theorem readNatural_of_numeral (h : Numeral z cs) (hz : isShort z = true) :
    ∃ n : Nat, readNatural cs = .ok n ∧ (n : Int) = z := by
  rw [isShort_iff, ← h.length_le_iff (by decide)] at hz
  exact ⟨_, if_pos hz, h.decimalValue_eq⟩

theorem readNatural_of_long (h : Numeral z cs) (hz : isShort z = false) :
    readNatural cs = .error (.tooLong cs.length) := by
  rw [Bool.eq_false_iff, Ne, isShort_iff, ← h.length_le_iff (by decide)] at hz
  exact if_neg hz

theorem takeNumber_of_numeral (h : Numeral z cs) (hrest : ∀ c ∈ rest.head?, isDecimalDigit c = false) :
    takeNumber (cs ++ rest) = some (cs, rest) := by
  cases h with
  | zero => rfl
  | positive h =>
    obtain ⟨c, ds, rfl, hlow, hhigh, hds, -⟩ := positive_iff.mp h
    exact takeNumber_digits hlow hhigh hds hrest

theorem numeral_of_takeNumber (h : takeNumber cs = some (ds, rest)) : cs = ds ++ rest ∧ ∃ z, Numeral z ds := by
  cases cs with
  | nil => cases h
  | cons c cs =>
    rw [takeNumber] at h
    split at h
    · next hc =>
      obtain ⟨rfl, rfl⟩ := Prod.mk.inj (Option.some.inj h)
      exact ⟨by rw [hc]; rfl, 0, .zero⟩
    · split at h
      · next hc =>
        obtain ⟨rfl, rfl⟩ := Prod.mk.inj (Option.some.inj h)
        refine ⟨?_, _, .positive (positive_iff.mpr ⟨c, _, rfl, hc.1, hc.2, ?_, rfl⟩)⟩
        · rw [List.cons_append, List.takeWhile_append_dropWhile]
        · exact fun d hd => List.mem_takeWhile_imp hd
      · cases h

theorem takeNextNumber_of_ne (h : ∀ c ∈ cs.head?, c ≠ '.') : takeNextNumber cs = some (['0'], cs) := by
  rw [takeNextNumber.eq_def]
  split
  · exact absurd rfl (h '.' rfl)
  · rfl

theorem numeral_of_takeNextNumber (h : takeNextNumber cs = some (ds, rest)) :
    ds = ['0'] ∧ cs = rest ∧ (∀ c ∈ cs.head?, c ≠ '.') ∨ cs = '.' :: (ds ++ rest) ∧ ∃ z, Numeral z ds := by
  rw [takeNextNumber.eq_def] at h
  split at h
  · obtain ⟨rfl, hds⟩ := numeral_of_takeNumber h
    exact Or.inr ⟨rfl, hds⟩
  · next hne =>
    obtain ⟨rfl, rfl⟩ := Prod.mk.inj (Option.some.inj h)
    refine Or.inl ⟨rfl, rfl, ?_⟩
    rintro _ hc rfl
    obtain ⟨ds, rfl⟩ := List.head?_eq_some_iff.mp hc
    exact hne ds rfl

/-! ## Suffixes -/

theorem Suffix.head_eq (h : Suffix mark suffix) : ∀ c ∈ suffix.head?, c = mark := by
  cases h with
  | absent => simp
  | present => simp

theorem dropSuffix_append (h : Suffix mark suffix)
    (hrest : ∀ c ∈ rest.head?, c ≠ mark ∧ isSuffixChar c = false) :
    dropSuffix mark (suffix ++ rest) = some rest := by
  cases h with
  | absent =>
    cases rest with
    | nil => rfl
    | cons c rest => exact if_pos (hrest c rfl).1
  | @present cs hne h =>
    have htake : (cs ++ rest).takeWhile isSuffixChar = cs := by
      rw [List.takeWhile_append_of_pos h]
      cases rest with
      | nil => simp
      | cons c rest => simp [(hrest c rfl).2]
    have hdrop : (cs ++ rest).dropWhile isSuffixChar = rest := by
      rw [List.dropWhile_append_of_pos h]
      cases rest with
      | nil => rfl
      | cons c rest => simp [(hrest c rfl).2]
    rw [List.cons_append, dropSuffix, if_neg (not_not.mpr rfl), htake, hdrop, if_neg (by simpa using hne)]

theorem exists_of_dropSuffix (h : dropSuffix mark cs = some rest) :
    ∃ suffix, cs = suffix ++ rest ∧ Suffix mark suffix := by
  cases cs with
  | nil => exact ⟨[], Option.some.inj h, .absent⟩
  | cons c cs =>
    rw [dropSuffix] at h
    split at h
    · exact ⟨[], Option.some.inj h, .absent⟩
    · next hc =>
      obtain rfl := not_not.mp hc
      split at h
      · cases h
      · next hne =>
        obtain rfl := Option.some.inj h
        refine ⟨c :: cs.takeWhile isSuffixChar, ?_, .present ?_ fun d hd => List.mem_takeWhile_imp hd⟩
        · rw [List.cons_append, List.takeWhile_append_dropWhile]
        · simpa using hne

/-! ## Versions -/

/-- After the numbers of a version there is nothing, or a mark of a suffix. -/
def Closes (rest : List Char) : Prop := ∀ c ∈ rest.head?, c = '-' ∨ c = '+'

theorem Closes.isDecimalDigit_eq_false (h : Closes rest) : ∀ c ∈ rest.head?, isDecimalDigit c = false := by
  intro c hc
  rcases h c hc with rfl | rfl <;> decide

theorem Closes.ne_point (h : Closes rest) : ∀ c ∈ rest.head?, c ≠ '.' := by
  intro c hc
  rcases h c hc with rfl | rfl <;> decide

theorem closes_suffixes {preRelease build : List Char} (hpre : Suffix '-' preRelease)
    (hbuild : Suffix '+' build) : Closes (preRelease ++ build) := by
  intro c hc
  cases hpre with
  | absent => exact Or.inr (hbuild.head_eq c hc)
  | present => exact Or.inl (Option.some.inj hc).symm

/-- The numerals denote the numbers of the version. -/
structure Numerals.Denote (ns : Numerals) (v : SemanticVersion) : Prop where
  major : Numeral v.major ns.major
  minor : Numeral v.minor ns.minor
  patch : Numeral v.patch ns.patch

theorem Numerals.Denote.ofNumerals_eq_ok (h : ns.Denote v) (hv : Shown.isWritable v = true) :
    ofNumerals ns = .ok v := by
  obtain ⟨hmajor, hminor, hpatch⟩ := isWritable_iff.mp hv
  obtain ⟨a, ha, hmajor⟩ := readNatural_of_numeral h.major hmajor
  obtain ⟨b, hb, hminor⟩ := readNatural_of_numeral h.minor hminor
  obtain ⟨n, hn, hpatch⟩ := readNatural_of_numeral h.patch hpatch
  simp only [ofNumerals, bind_eq_ok_iff]
  exact ⟨a, ha, b, hb, n, hn, congrArg Except.ok (ext_iff.mpr ⟨hmajor, hminor, hpatch⟩)⟩

theorem Numerals.Denote.exists_ofNumerals_eq_error (h : ns.Denote v) (hv : Shown.isWritable v = false) :
    ∃ digits, ofNumerals ns = .error (.tooLong digits) := by
  rw [ofNumerals]
  cases hmajor : isShort v.major with
  | false => exact ⟨_, by rw [readNatural_of_long h.major hmajor]; rfl⟩
  | true =>
    obtain ⟨a, ha, -⟩ := readNatural_of_numeral h.major hmajor
    rw [ha]
    cases hminor : isShort v.minor with
    | false => exact ⟨_, by rw [readNatural_of_long h.minor hminor]; rfl⟩
    | true =>
      obtain ⟨b, hb, -⟩ := readNatural_of_numeral h.minor hminor
      rw [hb]
      cases hpatch : isShort v.patch with
      | false => exact ⟨_, by rw [readNatural_of_long h.patch hpatch]; rfl⟩
      | true =>
        rw [isWritable_iff.mpr ⟨hmajor, hminor, hpatch⟩] at hv
        cases hv

theorem takeNumbers_of_numbers (h : Numbers v cs) (hrest : Closes rest) :
    ∃ (ns : Numerals) (cs₁ cs₂ : List Char), ns.Denote v ∧ takeNumber (cs ++ rest) = some (ns.major, cs₁) ∧
      takeNextNumber cs₁ = some (ns.minor, cs₂) ∧ takeNextNumber cs₂ = some (ns.patch, rest) := by
  have hpoint : ∀ ds : List Char, ∀ c ∈ ('.' :: ds).head?, isDecimalDigit c = false := by
    intro ds c hc
    obtain rfl := Option.some.inj hc
    decide
  have hlast : takeNextNumber rest = some (['0'], rest) := takeNextNumber_of_ne hrest.ne_point
  cases h with
  | major ha =>
    exact ⟨⟨cs, ['0'], ['0']⟩, rest, rest, ⟨ha, .zero, .zero⟩,
      takeNumber_of_numeral ha hrest.isDecimalDigit_eq_false, hlast, hlast⟩
  | @minor a b as bs ha hb =>
    refine ⟨⟨as, bs, ['0']⟩, '.' :: (bs ++ rest), rest, ⟨ha, hb, .zero⟩, ?_,
      takeNumber_of_numeral hb hrest.isDecimalDigit_eq_false, hlast⟩
    rw [List.append_assoc, List.cons_append]
    exact takeNumber_of_numeral ha (hpoint _)
  | @patch a b n as bs ns ha hb hn =>
    refine ⟨⟨as, bs, ns⟩, '.' :: (bs ++ '.' :: (ns ++ rest)), '.' :: (ns ++ rest), ⟨ha, hb, hn⟩, ?_,
      takeNumber_of_numeral hb (hpoint _), takeNumber_of_numeral hn hrest.isDecimalDigit_eq_false⟩
    rw [List.append_assoc, List.cons_append, List.append_assoc, List.cons_append]
    exact takeNumber_of_numeral ha (hpoint _)

theorem numbers_of_takeNumbers (ns : Numerals) {cs₁ cs₂ : List Char} (h₁ : takeNumber cs = some (ns.major, cs₁))
    (h₂ : takeNextNumber cs₁ = some (ns.minor, cs₂)) (h₃ : takeNextNumber cs₂ = some (ns.patch, rest)) :
    ∃ numbers v, cs = numbers ++ rest ∧ Numbers v numbers ∧ ns.Denote v := by
  obtain ⟨as, bs, ps⟩ := ns
  obtain ⟨rfl, a, ha⟩ := numeral_of_takeNumber h₁
  rcases numeral_of_takeNextNumber h₂ with ⟨rfl, rfl, hne⟩ | ⟨rfl, b, hb⟩
  · -- without a minor number there is no patch number either
    rcases numeral_of_takeNextNumber h₃ with ⟨rfl, rfl, -⟩ | ⟨rfl, -⟩
    · exact ⟨as, _, rfl, .major ha, ha, .zero, .zero⟩
    · exact absurd rfl (hne '.' rfl)
  · rcases numeral_of_takeNextNumber h₃ with ⟨rfl, rfl, -⟩ | ⟨rfl, n, hn⟩
    · exact ⟨as ++ '.' :: bs, _, by simp, .minor ha hb, ha, hb, .zero⟩
    · exact ⟨as ++ '.' :: (bs ++ '.' :: ps), _, by simp, .patch ha hb hn, ha, hb, hn⟩

/-- The reader finds the numbers of what the grammar has. -/
theorem Written.exists_numerals? (h : Written v cs) : ∃ ns, numerals? cs = some ns ∧ ns.Denote v := by
  simp only [numerals?, Option.bind_eq_bind, Option.bind_eq_some_iff, Prod.exists]
  obtain @⟨numbers, preRelease, build, hnumbers, hpre, hbuild⟩ := h
  obtain ⟨ns, cs₁, cs₂, hdenote, h₁, h₂, h₃⟩ := takeNumbers_of_numbers hnumbers (closes_suffixes hpre hbuild)
  have hplus : ∀ c ∈ build.head?, c ≠ '-' ∧ isSuffixChar c = false := by
    intro c hc
    rw [hbuild.head_eq c hc]
    decide
  have h₅ : dropSuffix '+' (build ++ []) = some [] := dropSuffix_append hbuild (by simp)
  rw [List.append_nil] at h₅
  exact ⟨ns, ⟨ns.major, cs₁, h₁, ns.minor, cs₂, h₂, ns.patch, _, h₃, build, dropSuffix_append hpre hplus, [], h₅,
    rfl⟩, hdenote⟩

/-- It finds numbers in nothing else. -/
theorem exists_written_of_numerals? (h : numerals? cs = some ns) : ∃ v, Written v cs ∧ ns.Denote v := by
  simp only [numerals?, Option.bind_eq_bind, Option.bind_eq_some_iff, Prod.exists] at h
  obtain ⟨major, cs₁, h₁, minor, cs₂, h₂, patch, cs₃, h₃, cs₄, h₄, cs₅, h₅, hend⟩ := h
  split at hend
  · next hnil =>
    obtain rfl := Option.some.inj hend
    obtain ⟨numbers, v, rfl, hnumbers, hdenote⟩ := numbers_of_takeNumbers ⟨major, minor, patch⟩ h₁ h₂ h₃
    obtain ⟨preRelease, rfl, hpre⟩ := exists_of_dropSuffix h₄
    obtain ⟨build, rfl, hbuild⟩ := exists_of_dropSuffix h₅
    refine ⟨v, ?_, hdenote⟩
    rw [List.isEmpty_iff.mp hnil, List.append_nil]
    exact ⟨hnumbers, hpre, hbuild⟩
  · cases hend

/-! ## Blanks around a version -/

theorem isBlank_of_isDecimalDigit (h : isDecimalDigit c = true) : isBlank c = false := by
  obtain ⟨d, hd⟩ := Option.isSome_iff_exists.mp h
  obtain ⟨first, hfirst, -⟩ := Option.map_eq_some_iff.mp hd
  have hrange := List.find?_some hfirst
  have hzeros : ∀ z ∈ decimalZeros, z = 0x30 ∨ 0x660 ≤ z ∧ z ≤ 0x1090 ∨ 0x17e0 ≤ z ∧ z ≤ 0x1c50 ∨ 0xa620 ≤ z := by
    decide
  have hzero := hzeros first (List.mem_of_find?_eq_some hfirst)
  simp only [Bool.and_eq_true, decide_eq_true_eq] at hrange
  simp only [isBlank, Bool.or_eq_false_iff, Bool.and_eq_false_iff, decide_eq_false_iff_not, beq_eq_false_iff_ne]
  omega

/-- Letters and digits are in three ranges of code points. -/
theorem toNat_of_isAlphanum (h : c.isAlphanum = true) :
    ((0x41 ≤ c.toNat ∧ c.toNat ≤ 0x5a) ∨ (0x61 ≤ c.toNat ∧ c.toNat ≤ 0x7a)) ∨
      (0x30 ≤ c.toNat ∧ c.toNat ≤ 0x39) := by
  rcases Bool.or_eq_true_iff.mp h with hletter | hdigit
  · rcases Bool.or_eq_true_iff.mp hletter with hupper | hlower
    · exact .inl (.inl (of_decide_eq_true hupper))
    · exact .inl (.inr ((Bool.and_eq_true_iff.mp hlower).imp of_decide_eq_true of_decide_eq_true))
  · exact .inr ((Bool.and_eq_true_iff.mp hdigit).imp of_decide_eq_true of_decide_eq_true)

theorem isBlank_of_isSuffixChar (h : isSuffixChar c = true) : isBlank c = false := by
  simp only [isSuffixChar, Bool.or_eq_true, beq_iff_eq] at h
  rcases h with (h | rfl) | rfl
  · have hrange := toNat_of_isAlphanum h
    simp only [isBlank, Bool.or_eq_false_iff, Bool.and_eq_false_iff, decide_eq_false_iff_not, beq_eq_false_iff_ne]
    omega
  · decide
  · decide

theorem Written.isSolid (h : Written v cs) : IsSolid cs := by
  obtain ⟨ns, hns, -⟩ := h.exists_numerals?
  intro c hc
  have hchar := (exists_of_numerals? hns).2 c hc
  simp only [isVersionChar, Bool.or_eq_true, beq_iff_eq] at hchar
  rcases hchar with (hchar | hchar) | rfl
  · exact isBlank_of_isDecimalDigit hchar
  · exact isBlank_of_isSuffixChar hchar
  · decide

variable {s : String}

theorem denotes_iff_written : Denotes s v ↔ Written v (trimBlanks s.toList) := by
  constructor
  · rintro ⟨pre, text, post, hs, hpre, hpost, h⟩
    rwa [hs, trimBlanks_append hpre hpost, trimBlanks_eq_self h.isSolid]
  · intro h
    obtain ⟨pre, post, hpre, hpost, hs⟩ := exists_trimBlanks s.toList
    exact ⟨pre, _, post, hs, hpre, hpost, h⟩

/-! ## The three outcomes -/

theorem Denotes.parse_eq_ok (h : Denotes s v) (hv : Shown.isWritable v = true) : parse s = .ok v := by
  obtain ⟨ns, hns, hdenote⟩ := (denotes_iff_written.mp h).exists_numerals?
  exact parse_eq_ok_iff.mpr ⟨ns, hns, hdenote.ofNumerals_eq_ok hv⟩

theorem Denotes.exists_parse_eq_error (h : Denotes s v) (hv : Shown.isWritable v = false) :
    ∃ digits, parse s = .error (.number (.tooLong digits)) := by
  obtain ⟨ns, hns, hdenote⟩ := (denotes_iff_written.mp h).exists_numerals?
  obtain ⟨digits, hdigits⟩ := hdenote.exists_ofNumerals_eq_error hv
  refine ⟨digits, ?_⟩
  simp only [parse, hns, hdigits]
  rfl

theorem parse_eq_notSemantic (h : ¬ ∃ v, Denotes s v) : parse s = .error (.notSemantic s) := by
  rw [parse]
  split
  · rfl
  · next ns hns =>
    obtain ⟨v, hwritten, -⟩ := exists_written_of_numerals? hns
    exact absurd ⟨v, denotes_iff_written.mpr hwritten⟩ h

theorem parse_eq_ok_iff_denotes : parse s = .ok v ↔ Denotes s v ∧ Shown.isWritable v = true := by
  refine ⟨fun h => ?_, fun h => h.1.parse_eq_ok h.2⟩
  obtain ⟨ns, hns, hvalue⟩ := parse_eq_ok_iff.mp h
  obtain ⟨w, hw, hdenote⟩ := exists_written_of_numerals? hns
  cases hwritable : Shown.isWritable w with
  | false =>
    obtain ⟨digits, herror⟩ := hdenote.exists_ofNumerals_eq_error hwritable
    rw [hvalue] at herror
    cases herror
  | true =>
    rw [hdenote.ofNumerals_eq_ok hwritable] at hvalue
    obtain rfl := Except.ok.inj hvalue
    exact ⟨denotes_iff_written.mpr hw, hwritable⟩

theorem parse_eq_notSemantic_iff : parse s = .error (.notSemantic s) ↔ ¬ ∃ v, Denotes s v := by
  refine ⟨?_, parse_eq_notSemantic⟩
  rintro h ⟨v, hv⟩
  cases hwritable : Shown.isWritable v with
  | false =>
    obtain ⟨digits, herror⟩ := hv.exists_parse_eq_error hwritable
    rw [h] at herror
    cases herror
  | true =>
    rw [hv.parse_eq_ok hwritable] at h
    cases h

theorem exists_parse_eq_tooLong_iff : (∃ digits, parse s = .error (.number (.tooLong digits))) ↔
    ∃ v, Denotes s v ∧ Shown.isWritable v = false := by
  refine ⟨?_, fun ⟨v, hv, hlong⟩ => hv.exists_parse_eq_error hlong⟩
  rintro ⟨digits, h⟩
  by_cases hdenotes : ∃ v, Denotes s v
  · obtain ⟨v, hv⟩ := hdenotes
    refine ⟨v, hv, Bool.eq_false_iff.mpr fun hwritable => ?_⟩
    rw [hv.parse_eq_ok hwritable] at h
    cases h
  · rw [parse_eq_notSemantic hdenotes] at h
    cases h

/-- A text is read as a version exactly if it denotes that version and no number is too long, is rejected for its
length exactly if it denotes a version with such a number, and is rejected with another error exactly if it
denotes none. What is printed without signs is read back, and versions are in the lexicographic order of their
numbers. -/
theorem parse_exact :
    (∀ s v, parse s = .ok v ↔ Denotes s v ∧ Shown.isWritable v = true) ∧
    (∀ s, (∃ digits, parse s = .error (.number (.tooLong digits))) ↔
      ∃ v, Denotes s v ∧ Shown.isWritable v = false) ∧
    (∀ s, parse s = .error (.notSemantic s) ↔ ¬ ∃ v, Denotes s v) ∧
    (∀ v : SemanticVersion, v.IsNatural → Shown.isWritable v = true →
      ∃ text, Shown.written v = .ok text ∧ parse text = .ok v) ∧
    (∀ v w : SemanticVersion, v < w ↔
      toLex (v.major, toLex (v.minor, v.patch)) < toLex (w.major, toLex (w.minor, w.patch))) := by
  refine ⟨fun s v => parse_eq_ok_iff_denotes, fun s => exists_parse_eq_tooLong_iff,
    fun s => parse_eq_notSemantic_iff, fun v hv hwritable => ?_, fun v w => ?_⟩
  · exact ⟨Shown.text v, if_pos hwritable, parse_text_of_isNatural hv hwritable⟩
  · rw [lt_iff, Prod.Lex.toLex_lt_toLex, Prod.Lex.toLex_lt_toLex]

/-- Suffixes are read and not printed. -/
theorem parse_exact_suffixes : Denotes "1.20.3-rc.1+7" ⟨1, 20, 3⟩ ∧
    ∃ text, Shown.written (⟨1, 20, 3⟩ : SemanticVersion) = .ok text ∧ parse text = .ok ⟨1, 20, 3⟩ := by
  obtain ⟨hread, -, -, hprinted, -⟩ := parse_exact
  exact ⟨((hread "1.20.3-rc.1+7" ⟨1, 20, 3⟩).mp (by decide)).1, hprinted ⟨1, 20, 3⟩ (by decide) (by decide +kernel)⟩

theorem positive_pow (k : Nat) : Positive (10 ^ k) ('1' :: List.replicate k '0') := by
  induction k with
  | zero => exact .first (by decide) (by decide) (by decide)
  | succ k ih =>
    rw [List.replicate_succ', Nat.pow_succ, Nat.mul_comm]
    exact ih.next (d := 0) (by decide)

/-- The characters with the Unicode property `White_Space`. -/
def isWhiteSpace (c : Char) : Bool :=
  let n := c.toNat
  (0x09 ≤ n && n ≤ 0x0d) || n == 0x20 || n == 0x85 || n == 0xa0 || n == 0x1680 || (0x2000 ≤ n && n ≤ 0x200a) ||
    n == 0x2028 || n == 0x2029 || n == 0x202f || n == 0x205f || n == 0x3000

/-- An information separator in front of a version is dropped although it is no white space. A one and as many
zeros as a number may have digits are in the grammar and are not read; nor is the number printed. -/
theorem parse_beyond_grammar :
    isWhiteSpace '\x1c' = false ∧ parse "\x1c1.2.3" = .ok ⟨1, 2, 3⟩ ∧
    Denotes (String.ofList ('1' :: List.replicate digitLimit '0')) ⟨(10 ^ digitLimit : Nat), 0, 0⟩ ∧
    (∃ digits, parse (String.ofList ('1' :: List.replicate digitLimit '0')) = .error (.number (.tooLong digits))) ∧
    IsNatural ⟨(10 ^ digitLimit : Nat), 0, 0⟩ ∧
    Shown.written (⟨(10 ^ digitLimit : Nat), 0, 0⟩ : SemanticVersion) = .error .unwritable := by
  have hwritten : Written ⟨(10 ^ digitLimit : Nat), 0, 0⟩ ('1' :: List.replicate digitLimit '0' ++ ([] ++ [])) :=
    ⟨.major (.positive (positive_pow digitLimit)), .absent, .absent⟩
  rw [List.append_nil, List.append_nil] at hwritten
  have hdenotes : Denotes (String.ofList ('1' :: List.replicate digitLimit '0')) ⟨(10 ^ digitLimit : Nat), 0, 0⟩ := by
    rw [denotes_iff_written, String.toList_ofList, trimBlanks_eq_self hwritten.isSolid]
    exact hwritten
  have hlong : Shown.isWritable (⟨(10 ^ digitLimit : Nat), 0, 0⟩ : SemanticVersion) = false := by
    refine Bool.eq_false_iff.mpr fun h => ?_
    have hlt := isShort_iff.mp (isWritable_iff.mp h).1
    rw [Int.natAbs_natCast] at hlt
    exact absurd hlt (Nat.lt_irrefl _)
  refine ⟨by decide, by decide, hdenotes, hdenotes.exists_parse_eq_error hlong,
    ⟨Int.natCast_nonneg _, Int.le_refl 0, Int.le_refl 0⟩, ?_⟩
  rw [Shown.written, hlong]
  rfl

end DependencyResolution.SemanticVersion
