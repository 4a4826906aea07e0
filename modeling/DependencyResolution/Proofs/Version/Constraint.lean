import DependencyResolution.Proofs.Text.Joined
import DependencyResolution.Proofs.Version.Built
import DependencyResolution.Proofs.Version.Semantic
import DependencyResolution.Version.Constraint

/-!
# What constraints say

A constraint over semantic versions is alternatives, an alternative is conditions, and a condition admits
versions (`Condition.Admits`). `Condition.Written` and `Reads` say how these are written. `parse` reads
exactly the texts that are written so (`parse_eq_ok_iff`), and the set that it gives holds the versions
that all conditions of some alternative admit. For `^` and `~` this is so for versions whose minor and patch
numbers are not negative: the intervals that these operators stand for end at versions with zeros there, below
which there are others with the next major or minor number.
-/

namespace DependencyResolution.Constraint

open Text

/-! ## The language -/

/-- The texts of an operator; none is needed where a version is meant exactly. -/
def Operator.texts : Operator → List (List Char)
  | equal => [[], ['='], ['=', '=']]
  | different => [['!', '=']]
  | atLeast => [['>', '=']]
  | atMost => [['<', '=']]
  | above => [['>']]
  | below => [['<']]
  | caret => [['^']]
  | tilde => [['~']]

inductive Condition where
  | any
  | compare (op : Operator) (target : SemanticVersion)

namespace Condition

def Admits : Condition → SemanticVersion → Prop
  | any, _ => True
  | compare .equal target, v => v = target
  | compare .different target, v => v ≠ target
  | compare .atLeast target, v => target ≤ v
  | compare .atMost target, v => v ≤ target
  | compare .above target, v => target < v
  | compare .below target, v => v < target
  | compare .caret target, v =>
    target ≤ v ∧ v.major = target.major ∧ (target.major = 0 → v.minor = target.minor)
  | compare .tilde target, v => target ≤ v ∧ v.major = target.major ∧ v.minor = target.minor

/-- The condition goes by the numbers of versions, as `^` and `~` do. -/
def GoesByNumbers : Condition → Prop
  | compare .caret _ => True
  | compare .tilde _ => True
  | _ => False

/-- The condition is written as the text: an asterisk, or an operator, blanks, and a version without
blanks. -/
inductive Written : Condition → List Char → Prop
  | any : Written any ['*']
  | compare {op : Operator} {spelling blanks token : List Char} {target : SemanticVersion}
      (hspelling : spelling ∈ op.texts) (hblanks : IsBlanks blanks) (htoken : IsSolid token)
      (hread : SemanticVersion.parse (String.ofList token) = .ok target) :
      Written (compare op target) (spelling ++ blanks ++ token)

end Condition

/-- The text says that all conditions of one of the alternatives hold. -/
def Reads (constraint : List (List Condition)) (s : String) : Prop :=
  Joined ['|', '|'] (Joined [','] Condition.Written) constraint (trimBlanks s.toList)

/-! ## Conditions -/

variable {op : Operator} {spelling token cs : List Char} {v : SemanticVersion}

theorem isSolid_of_mem_texts (h : spelling ∈ op.texts) : IsSolid spelling := by
  have hall : ∀ op : Operator, ∀ spelling ∈ op.texts, IsSolid spelling := by
    intro op
    cases op <;> decide
  exact hall op spelling h

/-- What is read as a version between blanks starts with a digit and needs no separator of constraints. -/
theorem token_spec (htoken : IsSolid token) (h : SemanticVersion.parse (String.ofList token) = .ok v) :
    (∃ d ds, token = d :: ds ∧ d.isDigit = true) ∧
      ∀ c ∈ token, SemanticVersion.isVersionChar c = true := by
  obtain ⟨ns, hns, -⟩ := SemanticVersion.parse_eq_ok_iff.mp h
  rw [String.toList_ofList, trimBlanks_eq_self htoken] at hns
  exact SemanticVersion.exists_of_numerals? hns

theorem exists_of_splitWord (word : List Char) :
    ∃ spelling ∈ (splitWord word).1.texts, word = spelling ++ (splitWord word).2 := by
  have htexts : ∀ p ∈ spellings, p.1 ∈ p.2.texts := by decide
  rw [splitWord]
  split
  · next spelling op h =>
    have hprefix := List.find?_some h
    rw [Bool.and_eq_true, List.isPrefixOf_iff_prefix] at hprefix
    obtain ⟨rest, rfl⟩ := hprefix.1
    refine ⟨spelling, htexts _ (List.mem_of_find?_eq_some h), ?_⟩
    rw [List.drop_left]
  · exact ⟨[], by simp [Operator.texts], rfl⟩

theorem splitWord_append {d : Char} {ds : List Char} (h : spelling ∈ op.texts) (hd : d.isDigit = true) :
    splitWord (spelling ++ d :: ds) = (op, d :: ds) := by
  have hne : ∀ c : Char, c.isDigit = false → (c == d) = false := by
    intro c hc
    rw [beq_eq_false_iff_ne]
    rintro rfl
    rw [hd] at hc
    cases hc
  have hequal := hne '=' (by decide)
  have hbang := hne '!' (by decide)
  have habove := hne '>' (by decide)
  have hbelow := hne '<' (by decide)
  have hcaret := hne '^' (by decide)
  have htilde := hne '~' (by decide)
  cases op <;> simp only [Operator.texts, List.mem_cons, List.not_mem_nil, or_false] at h
  case equal =>
    rcases h with rfl | rfl | rfl <;>
      simp [splitWord, spellings, List.isPrefixOf, hequal, hbang, habove, hbelow, hcaret, htilde]
  all_goals
    subst h
    simp [splitWord, spellings, List.isPrefixOf, hequal]

theorem lookup_spellings (h : spelling ∈ op.texts) (hne : spelling ≠ []) : spellings.lookup spelling = some op := by
  cases op <;> simp only [Operator.texts, List.mem_cons, List.not_mem_nil, or_false] at h
  case equal =>
    rcases h with rfl | rfl | rfl
    · exact absurd rfl hne
    · decide
    · decide
  all_goals
    subst h
    decide

theorem mem_texts_of_lookup (h : spellings.lookup spelling = some op) : spelling ∈ op.texts := by
  have htexts : ∀ p ∈ spellings, p.1 ∈ p.2.texts := by decide
  obtain ⟨before, after, heq, -⟩ := List.lookup_eq_some_iff.mp h
  exact htexts (spelling, op) (by rw [heq]; simp)

theorem exists_of_splitCondition? (htrim : trimBlanks cs = cs) (h : splitCondition? cs = some (op, token)) :
    ∃ spelling ∈ op.texts, ∃ blanks, IsBlanks blanks ∧ IsSolid token ∧ cs = spelling ++ blanks ++ token := by
  rw [splitCondition?] at h
  split at h
  · next word hwords =>
    obtain ⟨rfl, -, hsolid⟩ := words_eq_singleton htrim hwords
    obtain ⟨spelling, hspelling, hsplit⟩ := exists_of_splitWord cs
    rw [Option.some.inj h] at hspelling hsplit
    refine ⟨spelling, hspelling, [], isBlanks_nil, fun c hc => hsolid c ?_, by simpa using hsplit⟩
    rw [hsplit]
    exact List.mem_append_right _ hc
  · next first second hwords =>
    obtain ⟨blanks, hcs, hblanks, -, hsolid⟩ := words_eq_pair htrim hwords
    obtain ⟨op', hop, heq⟩ := Option.map_eq_some_iff.mp h
    obtain ⟨rfl, rfl⟩ := Prod.mk.inj heq
    exact ⟨first, mem_texts_of_lookup hop, blanks, hblanks, hsolid, hcs⟩
  · cases h

theorem splitCondition?_append {blanks : List Char} (hspelling : spelling ∈ op.texts) (hblanks : IsBlanks blanks)
    (htoken : IsSolid token) (hread : SemanticVersion.parse (String.ofList token) = .ok v)
    (htrim : trimBlanks (spelling ++ blanks ++ token) = spelling ++ blanks ++ token) :
    splitCondition? (spelling ++ blanks ++ token) = some (op, token) := by
  obtain ⟨⟨d, ds, rfl, hd⟩, -⟩ := token_spec htoken hread
  have hword : words (d :: ds) = [d :: ds] := words_solid (by simp) htoken
  have hspelling' := isSolid_of_mem_texts hspelling
  cases blanks with
  | nil =>
    have hsolid : IsSolid (spelling ++ d :: ds) := by
      intro c hc
      exact (List.mem_append.mp hc).elim (hspelling' c) (htoken c)
    rw [List.append_nil, splitCondition?, words_solid (by simp) hsolid]
    exact congrArg some (splitWord_append hspelling hd)
  | cons b blanks =>
    -- blanks in front of the version would have been trimmed away
    have hne : spelling ≠ [] := by
      rintro rfl
      have h : trimBlanks (b :: blanks ++ d :: ds ++ []) = b :: blanks ++ d :: ds ++ [] := by simpa using htrim
      exact absurd (eq_nil_of_trimBlanks h hblanks isBlanks_nil).1 (by simp)
    have hwords : words (spelling ++ (b :: blanks ++ d :: ds)) = [spelling, d :: ds] := by
      rw [words_solid_append hne hspelling' (by simpa using (isBlanks_cons.mp hblanks).1),
        words_blanks_append hblanks, hword]
    rw [List.append_assoc, splitCondition?, hwords]
    exact congrArg (Option.map _) (lookup_spellings hspelling hne)

def Condition.ranges : Condition → Ranges SemanticVersion
  | any => Ranges.full
  | compare .equal v => Ranges.singleton v
  | compare .different v => (Ranges.singleton v).complement
  | compare .atLeast v => Ranges.atLeast v
  | compare .atMost v => Ranges.atMost v
  | compare .above v => Ranges.above v
  | compare .below v => Ranges.below v
  | compare .caret v => Ranges.between v (if v.major = 0 then v.nextMinor else v.nextMajor)
  | compare .tilde v => Ranges.between v v.nextMinor

theorem denote_semantic (condition : String) (op : Operator) (v : SemanticVersion) :
    denote .semantic condition op v = .ok (Condition.compare op v).ranges := by
  cases op <;> rfl

theorem ofCondition_eq_ok_iff {r : Ranges SemanticVersion} (htrim : trimBlanks cs = cs) :
    ofCondition .semantic cs = .ok r ↔ ∃ c : Condition, c.Written cs ∧ c.ranges = r := by
  rw [ofCondition]
  constructor
  · intro h
    split at h
    · next hany =>
      rw [hany]
      exact ⟨.any, .any, Except.ok.inj h⟩
    · split at h
      · cases h
      · next op token hsplit =>
        obtain ⟨spelling, hspelling, blanks, hblanks, htoken, rfl⟩ := exists_of_splitCondition? htrim hsplit
        split at h
        · next target hread =>
          rw [denote_semantic] at h
          exact ⟨.compare op target, .compare hspelling hblanks htoken hread, Except.ok.inj h⟩
        · cases h
        · cases h
  · rintro ⟨c, hwritten, rfl⟩
    cases hwritten with
    | any => rfl
    | @compare op spelling blanks token target hspelling hblanks htoken hread =>
      have hany : spelling ++ blanks ++ token ≠ ['*'] := by
        intro h
        obtain ⟨⟨d, ds, rfl, hd⟩, -⟩ := token_spec htoken hread
        have hmem : d ∈ ['*'] := by
          rw [← h]
          simp
        obtain rfl := List.mem_singleton.mp hmem
        exact absurd hd (by decide)
      rw [if_neg hany, splitCondition?_append hspelling hblanks htoken hread htrim]
      have hread : VersionKind.semantic.read (String.ofList token) = .ok target := hread
      simp only [hread]
      exact denote_semantic _ op target

/-! ## Separators -/

theorem alternatives_ne_nil (cs : List Char) : alternatives cs ≠ [] := by
  rw [alternatives.eq_def]
  split
  · simp
  · simp
  · split <;> simp

theorem alternatives_append {piece : List Char} (h : '|' ∉ piece) (cs : List Char) :
    alternatives (piece ++ '|' :: '|' :: cs) = piece :: alternatives cs := by
  induction piece with
  | nil => rw [List.nil_append, alternatives]
  | cons c piece ih =>
    rw [List.mem_cons, not_or] at h
    rw [List.cons_append, alternatives, ih h.2]
    exact fun _ hc => absurd hc.symm h.1

theorem alternatives_eq_singleton {piece : List Char} (h : '|' ∉ piece) : alternatives piece = [piece] := by
  induction piece with
  | nil => rfl
  | cons c piece ih =>
    rw [List.mem_cons, not_or] at h
    rw [alternatives, ih h.2]
    exact fun _ hc => absurd hc.symm h.1

theorem alternatives_cuts : Cuts alternatives ['|', '|'] '|' where
  ne_nil := alternatives_ne_nil
  intercalate_cut cs := by
    induction cs using alternatives.induct with
    | case1 => rfl
    | case2 rest ih =>
      rw [alternatives, List.intercalate_cons_of_ne_nil (alternatives_ne_nil rest), ih]
      rfl
    | case3 c rest _ hrest => exact absurd hrest (alternatives_ne_nil rest)
    | case4 c rest hc part parts hrest ih =>
      rw [hrest] at ih
      rw [alternatives, hrest]
      · cases parts with
        | nil => simpa using ih
        | cons part' parts =>
          rw [List.intercalate_cons_cons] at ih ⊢
          simpa using ih
      · exact hc
  cut_intercalate pieces hne hmark := by
    induction pieces with
    | nil => exact absurd rfl hne
    | cons piece pieces ih =>
      rw [List.forall_mem_cons] at hmark
      cases pieces with
      | nil => simpa using alternatives_eq_singleton hmark.1
      | cons piece' pieces =>
        rw [List.intercalate_cons_of_ne_nil (by simp)]
        have h := alternatives_append hmark.1 (['|', '|'].intercalate (piece' :: pieces))
        rw [ih (by simp) hmark.2] at h
        simpa using h
  isBlank_mark := by decide

/-! ## Alternatives and constraints -/

theorem not_mem_of_written {c : Condition} {d : Char} (hd : isBlank d = false)
    (hversion : SemanticVersion.isVersionChar d = false) (hstar : d ≠ '*')
    (htexts : ∀ op : Operator, ∀ spelling ∈ op.texts, d ∉ spelling) (h : c.Written cs) : d ∉ cs := by
  cases h with
  | any => simpa using hstar
  | @compare op spelling blanks token target hspelling hblanks htoken hread =>
    intro hmem
    rw [List.mem_append, List.mem_append] at hmem
    rcases hmem with (hmem | hmem) | hmem
    · exact htexts op spelling hspelling hmem
    · rw [hblanks d hmem] at hd
      cases hd
    · rw [(token_spec htoken hread).2 d hmem] at hversion
      cases hversion

theorem comma_not_mem {c : Condition} (h : c.Written cs) : ',' ∉ cs :=
  not_mem_of_written (by decide) (by decide) (by decide) (by intro op; cases op <;> decide) h

theorem bar_not_mem {c : Condition} (h : c.Written cs) : '|' ∉ cs :=
  not_mem_of_written (by decide) (by decide) (by decide) (by intro op; cases op <;> decide) h

theorem not_written_nil (c : Condition) : ¬ c.Written [] := by
  generalize hcs : ([] : List Char) = cs
  intro h
  cases h with
  | any => cases hcs
  | @compare op spelling blanks token target hspelling hblanks htoken hread =>
    obtain ⟨⟨d, ds, rfl, -⟩, -⟩ := token_spec htoken hread
    simp at hcs

/-- The versions that all conditions admit. -/
def allOf (conditions : List Condition) : Ranges SemanticVersion :=
  (conditions.map Condition.ranges).foldl Ranges.intersection Ranges.full

/-- The versions that all conditions of one of the alternatives admit. -/
def anyOf (alternatives : List (List Condition)) : Ranges SemanticVersion :=
  (alternatives.map allOf).foldl VersionSet.union Ranges.empty

abbrev WrittenAll : List Condition → List Char → Prop := Joined [','] Condition.Written

theorem comma_cuts : Cuts (splitAtChar ',') [','] ',' := splitAtChar_cuts (by decide)

theorem not_writtenAll_nil (conditions : List Condition) : ¬ WrittenAll conditions [] := by
  rw [WrittenAll, joined_iff comma_cuts fun _ _ => comma_not_mem]
  intro h
  obtain ⟨c, -, hc⟩ := exists_of_forall₂ h (b := []) List.mem_cons_self
  exact not_written_nil c hc

theorem bar_not_mem_of_writtenAll {conditions : List Condition} (h : WrittenAll conditions cs) : '|' ∉ cs :=
  not_mem_of_joined (by decide) (by decide) (fun _ _ => bar_not_mem) h

theorem ofAlternative_eq_ok_iff {r : Ranges SemanticVersion} :
    ofAlternative .semantic cs = .ok r ↔
      ∃ conditions, WrittenAll conditions cs ∧ allOf conditions = r := by
  simp only [WrittenAll, joined_iff comma_cuts fun _ _ => comma_not_mem]
  refine foldlM_eq_ok_iff (fun piece hpiece acc next => ?_) Ranges.full r
  obtain ⟨untrimmed, -, rfl⟩ := List.mem_map.mp hpiece
  by_cases hempty : trimBlanks untrimmed = []
  · rw [hempty]
    refine iff_of_false (by simp) ?_
    rintro ⟨c, hwritten, -⟩
    exact not_written_nil c hwritten
  · have hread {r} := ofCondition_eq_ok_iff (r := r) (trimBlanks_trimBlanks untrimmed)
    rw [if_neg (by simpa using hempty), map_eq_ok_iff]
    simp only [hread, exists_exists_and_eq_and]

/-- Exactly the constraints that are written right are read. -/
theorem parse_eq_ok_iff {s : String} {r : Ranges SemanticVersion} :
    parse .semantic s = .ok r ↔ ∃ constraint, Reads constraint s ∧ anyOf constraint = r := by
  simp only [Reads, joined_iff alternatives_cuts fun _ _ => bar_not_mem_of_writtenAll]
  rw [parse]
  split
  · next hempty =>
    -- the only part of nothing is nothing
    rw [List.isEmpty_iff.mp hempty]
    refine iff_of_false (by simp) ?_
    rintro ⟨constraint, h, -⟩
    obtain ⟨conditions, -, hc⟩ := exists_of_forall₂ h (b := []) List.mem_cons_self
    exact not_writtenAll_nil conditions hc
  · dsimp only
    split
    · next hany =>
      obtain ⟨part, hpart, hnil⟩ := List.any_eq_true.mp hany
      refine iff_of_false (by simp) ?_
      rintro ⟨constraint, h, -⟩
      obtain ⟨conditions, -, hc⟩ := exists_of_forall₂ h hpart
      rw [List.isEmpty_iff.mp hnil] at hc
      exact not_writtenAll_nil conditions hc
    · refine foldlM_eq_ok_iff (fun part _ acc next => ?_) Ranges.empty r
      rw [map_eq_ok_iff]
      simp only [ofAlternative_eq_ok_iff, exists_exists_and_eq_and]

/-! ## Meaning -/

theorem built_ranges (c : Condition) : c.ranges.Built := by
  rcases c with _ | ⟨op, target⟩
  · exact .full
  · cases op with
    | equal => exact .singleton target
    | different => exact .complement (.singleton target)
    | atLeast => exact .atLeast target
    | atMost => exact .atMost target
    | above => exact .above target
    | below => exact .under target
    | caret => exact .between _ _
    | tilde => exact .between _ _

/-- The versions between the bounds of `^` and `~` have the numbers that these ask for. A version with a negative
minor or patch number may be below the upper bound with the next major or minor number. -/
theorem contains_ranges {c : Condition} {v : SemanticVersion} (h : c.GoesByNumbers → 0 ≤ v.minor ∧ 0 ≤ v.patch) :
    c.ranges.contains v = true ↔ c.Admits v := by
  rcases c with _ | ⟨op, target⟩
  · exact iff_of_true rfl trivial
  · cases op with
    | equal => exact Ranges.contains_singleton target v
    | different =>
      have h := Ranges.contains_complement (Ranges.canonical_singleton target) (v := v)
      rwa [Ranges.contains_singleton] at h
    | atLeast => exact Ranges.contains_atLeast target v
    | atMost => exact Ranges.contains_atMost target v
    | above => exact Ranges.contains_above target v
    | below => exact Ranges.contains_below target v
    | caret =>
      obtain ⟨hminor, hpatch⟩ := h trivial
      refine (Ranges.contains_between _ _ _).trans (and_congr_right fun hle => ?_)
      rw [SemanticVersion.le_iff] at hle
      by_cases hmajor : target.major = 0
      · rw [if_pos hmajor, SemanticVersion.lt_iff]
        simp only [SemanticVersion.nextMinor] at hle ⊢
        omega
      · rw [if_neg hmajor, SemanticVersion.lt_iff]
        simp only [SemanticVersion.nextMajor] at hle ⊢
        omega
    | tilde =>
      obtain ⟨hminor, hpatch⟩ := h trivial
      refine (Ranges.contains_between _ _ _).trans (and_congr_right fun hle => ?_)
      rw [SemanticVersion.le_iff] at hle
      rw [SemanticVersion.lt_iff]
      simp only [SemanticVersion.nextMinor] at hle ⊢
      omega

variable {x : Cut SemanticVersion}

theorem foldl_intersection_spec {conditions : List Condition} {r : Ranges SemanticVersion} (hr : r.Canonical) :
    ((conditions.map Condition.ranges).foldl Ranges.intersection r).Canonical ∧ ∀ x,
      ((conditions.map Condition.ranges).foldl Ranges.intersection r).At x ↔
        r.At x ∧ ∀ c ∈ conditions, c.ranges.At x := by
  induction conditions generalizing r with
  | nil => exact ⟨hr, by simp⟩
  | cons c conditions ih =>
    have hc := (built_ranges c).canonical
    obtain ⟨hcanonical, hat⟩ := ih (Ranges.canonical_intersection hr hc)
    refine ⟨hcanonical, fun x => ?_⟩
    rw [List.map_cons, List.foldl_cons, hat, Ranges.at_intersection hr hc, List.forall_mem_cons, and_assoc]

theorem canonical_allOf (conditions : List Condition) : (allOf conditions).Canonical :=
  (foldl_intersection_spec Ranges.canonical_full).1

theorem at_allOf (conditions : List Condition) : (allOf conditions).At x ↔ ∀ c ∈ conditions, c.ranges.At x := by
  rw [allOf, (foldl_intersection_spec Ranges.canonical_full).2]
  exact and_iff_right Ranges.at_full

theorem foldl_union_spec {constraint : List (List Condition)} {r : Ranges SemanticVersion} (hr : r.Canonical) :
    ((constraint.map allOf).foldl VersionSet.union r).Canonical ∧ ∀ x,
      ((constraint.map allOf).foldl VersionSet.union r).At x ↔
        r.At x ∨ ∃ conditions ∈ constraint, ∀ c ∈ conditions, c.ranges.At x := by
  induction constraint generalizing r with
  | nil => exact ⟨hr, by simp⟩
  | cons conditions constraint ih =>
    have hc := canonical_allOf conditions
    obtain ⟨hcanonical, hat⟩ := ih (Ranges.canonical_union hr hc)
    refine ⟨hcanonical, fun x => ?_⟩
    rw [List.map_cons, List.foldl_cons, hat, Ranges.at_union hr hc, at_allOf, List.exists_mem_cons_iff, or_assoc]

theorem canonical_anyOf (constraint : List (List Condition)) : (anyOf constraint).Canonical :=
  (foldl_union_spec Ranges.canonical_empty).1

theorem at_anyOf (constraint : List (List Condition)) :
    (anyOf constraint).At x ↔ ∃ conditions ∈ constraint, ∀ c ∈ conditions, c.ranges.At x := by
  rw [anyOf, (foldl_union_spec Ranges.canonical_empty).2]
  exact or_iff_right Ranges.not_at_empty

theorem contains_anyOf {constraint : List (List Condition)} {v : SemanticVersion}
    (h : ∀ conditions ∈ constraint, ∀ c ∈ conditions, c.GoesByNumbers → 0 ≤ v.minor ∧ 0 ≤ v.patch) :
    (anyOf constraint).contains v = true ↔ ∃ conditions ∈ constraint, ∀ c ∈ conditions, c.Admits v := by
  rw [Ranges.contains_iff (canonical_anyOf constraint), at_anyOf]
  refine exists_congr fun conditions => and_congr_right fun hmem => forall₂_congr fun c hc => ?_
  exact (Ranges.contains_iff (built_ranges c).canonical v).symm.trans (contains_ranges (h conditions hmem c hc))

/-- A text is read if it is alternatives of conditions, and an error is given otherwise; the set that is read
holds the versions that all conditions of some alternative admit. Where a condition goes by the numbers of
versions, this is said of versions with a minor and a patch number that are not negative. -/
theorem parse_denotes (s : String) :
    ((∃ r, parse .semantic s = .ok r) ↔ ∃ constraint, Reads constraint s) ∧
      ((∃ e, parse .semantic s = .error e) ↔ ¬ ∃ constraint, Reads constraint s) ∧
      ∀ r constraint, parse .semantic s = .ok r → Reads constraint s → ∀ v : SemanticVersion,
        (∀ conditions ∈ constraint, ∀ c ∈ conditions, c.GoesByNumbers → 0 ≤ v.minor ∧ 0 ≤ v.patch) →
        (r.contains v = true ↔ ∃ conditions ∈ constraint, ∀ c ∈ conditions, c.Admits v) := by
  have hread : (∃ r, parse .semantic s = .ok r) ↔ ∃ constraint, Reads constraint s := by
    simp only [parse_eq_ok_iff]
    exact ⟨fun ⟨_, constraint, h, _⟩ => ⟨constraint, h⟩, fun ⟨constraint, h⟩ => ⟨_, constraint, h, rfl⟩⟩
  refine ⟨hread, ?_, ?_⟩
  · rw [← hread]
    cases parse .semantic s with
    | error e => simp
    | ok r => simp
  · intro r constraint hparse hreads v hv
    have hr := parse_eq_ok_iff.mpr ⟨constraint, hreads, rfl⟩
    obtain rfl := Except.ok.inj (hparse.symm.trans hr)
    exact contains_anyOf hv

/-- A constraint with blanks around conditions and between an operator and its version. -/
theorem parse_denotes_nested :
    ∃ r, parse .semantic " ^0.2.3 , !=0.2.5||= 1 " = .ok r ∧ r.contains ⟨0, 2, 4⟩ = true ∧
      ¬ r.contains ⟨0, 2, 5⟩ = true ∧ r.contains ⟨1, 0, 0⟩ = true := by
  have hreads : Reads [[.compare .caret ⟨0, 2, 3⟩, .compare .different ⟨0, 2, 5⟩], [.compare .equal ⟨1, 0, 0⟩]]
      " ^0.2.3 , !=0.2.5||= 1 " := by
    have hcaret : Condition.Written (.compare .caret ⟨0, 2, 3⟩) (['^'] ++ [] ++ ['0', '.', '2', '.', '3']) :=
      .compare (by decide) (by decide) (by decide) (by decide)
    have hdifferent : Condition.Written (.compare .different ⟨0, 2, 5⟩) (['!', '='] ++ [] ++ ['0', '.', '2', '.', '5']) :=
      .compare (by decide) (by decide) (by decide) (by decide)
    have hequal : Condition.Written (.compare .equal ⟨1, 0, 0⟩) (['='] ++ [' '] ++ ['1']) :=
      .compare (by decide) (by decide) (by decide) (by decide)
    refine ⟨by simp, [['^', '0', '.', '2', '.', '3', ' ', ',', ' ', '!', '=', '0', '.', '2', '.', '5'],
      ['=', ' ', '1']], by decide, .cons ?_ (.cons ?_ .nil)⟩
    · exact ⟨by simp, [['^', '0', '.', '2', '.', '3', ' '], [' ', '!', '=', '0', '.', '2', '.', '5']], by decide,
        .cons hcaret (.cons hdifferent .nil)⟩
    · exact ⟨by simp, [['=', ' ', '1']], by decide, .cons hequal .nil⟩
  obtain ⟨hread, -, hholds⟩ := parse_denotes " ^0.2.3 , !=0.2.5||= 1 "
  obtain ⟨r, hr⟩ := hread.mpr ⟨_, hreads⟩
  have hholds := hholds r _ hr hreads
  refine ⟨r, hr, ?_, ?_, ?_⟩
  · rw [hholds ⟨0, 2, 4⟩ fun _ _ _ _ _ => by decide]
    exact ⟨_, List.mem_cons_self, by simp [Condition.Admits, SemanticVersion.le_iff, SemanticVersion.ext_iff]⟩
  · rw [hholds ⟨0, 2, 5⟩ fun _ _ _ _ _ => by decide]
    simp [Condition.Admits, SemanticVersion.ext_iff]
  · rw [hholds ⟨1, 0, 0⟩ fun _ _ _ _ _ => by decide]
    exact ⟨_, List.mem_cons_of_mem _ List.mem_cons_self, by simp [Condition.Admits]⟩

theorem reads_singleton {c : Condition} (h : c.Written cs) (hcs : IsSolid cs) : Reads [[c]] (String.ofList cs) := by
  have htrim : trimBlanks cs = cs := trimBlanks_eq_self hcs
  rw [Reads, String.toList_ofList, htrim]
  refine ⟨by simp, [cs], by simp, .cons ?_ .nil⟩
  rw [htrim]
  refine ⟨by simp, [cs], by simp, .cons ?_ .nil⟩
  rwa [htrim]

/-- A version with a negative minor number is below the next major version, so `^1.2.3` lets it in though its
major number is another. -/
theorem caret_contains_negative : ∃ r, Reads [[.compare .caret ⟨1, 2, 3⟩]] "^1.2.3" ∧
    parse .semantic "^1.2.3" = .ok r ∧ r.contains ⟨2, -1, 0⟩ = true ∧
      ¬ (Condition.compare .caret ⟨1, 2, 3⟩).Admits ⟨2, -1, 0⟩ := by
  have hcaret : Condition.Written (.compare .caret ⟨1, 2, 3⟩) (['^'] ++ [] ++ ['1', '.', '2', '.', '3']) :=
    .compare (by decide) (by decide) (by decide) (by decide)
  have hreads := reads_singleton hcaret (by decide)
  refine ⟨_, hreads, parse_eq_ok_iff.mpr ⟨_, hreads, rfl⟩, by decide +kernel, ?_⟩
  simp [Condition.Admits]

end DependencyResolution.Constraint
