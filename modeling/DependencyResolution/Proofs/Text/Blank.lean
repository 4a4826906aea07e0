import DependencyResolution.Text.Blank
import Mathlib.Data.List.TakeWhile
import Mathlib.Tactic.ByContra

/-!
# Trimming and splitting texts

A text is what trimming leaves of it with blanks around (`exists_trimBlanks`), and its words are its
maximal runs without blanks (`words_eq_cons_iff`).
-/

namespace DependencyResolution.Text

variable {c : Char} {cs ds : List Char}

def IsBlanks (cs : List Char) : Prop := ∀ c ∈ cs, isBlank c = true

def IsSolid (cs : List Char) : Prop := ∀ c ∈ cs, isBlank c = false

instance (cs : List Char) : Decidable (IsBlanks cs) := List.decidableBAll (isBlank · = true) cs

instance (cs : List Char) : Decidable (IsSolid cs) := List.decidableBAll (isBlank · = false) cs

theorem isBlanks_nil : IsBlanks [] := by simp [IsBlanks]

theorem isBlanks_cons : IsBlanks (c :: cs) ↔ isBlank c = true ∧ IsBlanks cs := by simp [IsBlanks]

theorem isSolid_cons : IsSolid (c :: cs) ↔ isBlank c = false ∧ IsSolid cs := by simp [IsSolid]

theorem IsBlanks.eq_nil_of_head {pre : List Char} (h : IsBlanks pre) (hcs : pre ++ cs = c :: ds)
    (hc : isBlank c = false) : pre = [] := by
  cases pre with
  | nil => rfl
  | cons d pre =>
    obtain ⟨rfl, -⟩ := List.cons.inj hcs
    rw [(isBlanks_cons.mp h).1] at hc
    cases hc

/-! ## Trimming -/

theorem dropWhile_isBlank_append (h : IsBlanks cs) (ds : List Char) :
    (cs ++ ds).dropWhile isBlank = ds.dropWhile isBlank := by
  rw [List.dropWhile_append, List.dropWhile_eq_nil_iff.mpr h]
  rfl

theorem exists_dropWhile_isBlank (cs : List Char) :
    ∃ pre, IsBlanks pre ∧ cs = pre ++ cs.dropWhile isBlank :=
  ⟨cs.takeWhile isBlank, fun _ hc => (List.mem_takeWhile_imp hc), List.takeWhile_append_dropWhile.symm⟩

theorem exists_trimBlanks (cs : List Char) :
    ∃ pre post, IsBlanks pre ∧ IsBlanks post ∧ cs = pre ++ trimBlanks cs ++ post := by
  obtain ⟨pre, hpre, hfront⟩ := exists_dropWhile_isBlank cs
  obtain ⟨post, hpost, hback⟩ := exists_dropWhile_isBlank (cs.dropWhile isBlank).reverse
  refine ⟨pre, post.reverse, hpre, fun c hc => hpost c (List.mem_reverse.mp hc), ?_⟩
  have hrest : cs.dropWhile isBlank = trimBlanks cs ++ post.reverse := by
    rw [trimBlanks, ← List.reverse_append, ← hback, List.reverse_reverse]
  rw [List.append_assoc, ← hrest]
  exact hfront

theorem trimBlanks_append {pre post : List Char} (hpre : IsBlanks pre) (hpost : IsBlanks post)
    (cs : List Char) : trimBlanks (pre ++ cs ++ post) = trimBlanks cs := by
  have hpost' : IsBlanks post.reverse := fun c hc => hpost c (List.mem_reverse.mp hc)
  rw [trimBlanks, trimBlanks, List.append_assoc, dropWhile_isBlank_append hpre]
  by_cases hcs : IsBlanks cs
  · -- nothing is left
    rw [dropWhile_isBlank_append hcs, List.dropWhile_eq_nil_iff.mpr hpost, List.dropWhile_eq_nil_iff.mpr hcs]
  · have hne : cs.dropWhile isBlank ≠ [] := fun h => hcs (List.dropWhile_eq_nil_iff.mp h)
    rw [List.dropWhile_append, if_neg (by simpa using hne), List.reverse_append,
      dropWhile_isBlank_append hpost']

/-- The text starts and ends with characters that are not blank. -/
structure IsFirm (cs : List Char) : Prop where
  head : ∃ c ∈ cs.head?, isBlank c = false
  last : ∃ c ∈ cs.getLast?, isBlank c = false

theorem IsSolid.isFirm (h : IsSolid cs) (hne : cs ≠ []) : IsFirm cs where
  head := ⟨cs.head hne, List.head?_eq_some_head hne, h _ (List.head_mem hne)⟩
  last := ⟨cs.getLast hne, List.getLast?_eq_some_getLast hne, h _ (List.getLast_mem hne)⟩

theorem IsFirm.append (hcs : IsFirm cs) (hds : IsFirm ds) (mid : List Char) : IsFirm (cs ++ mid ++ ds) where
  head := by
    obtain ⟨c, hc, hblank⟩ := hcs.head
    refine ⟨c, ?_, hblank⟩
    rw [Option.mem_def] at hc ⊢
    simp [List.head?_append, hc]
  last := by
    obtain ⟨c, hc, hblank⟩ := hds.last
    refine ⟨c, ?_, hblank⟩
    rw [Option.mem_def] at hc ⊢
    simp [List.getLast?_append, hc]

theorem IsFirm.trimBlanks_eq_self (h : IsFirm cs) : trimBlanks cs = cs := by
  have hdrop : ∀ {ds : List Char}, (∃ c ∈ ds.head?, isBlank c = false) → ds.dropWhile isBlank = ds := by
    rintro ds ⟨c, hc, hblank⟩
    cases ds with
    | nil => cases hc
    | cons d ds =>
      obtain rfl := Option.some.inj hc
      rw [List.dropWhile_cons_of_neg (by simp [hblank])]
  rw [trimBlanks, hdrop h.head, hdrop (by simpa using h.last), List.reverse_reverse]

theorem trimBlanks_eq_self (h : IsSolid cs) : trimBlanks cs = cs := by
  by_cases hne : cs = []
  · rw [hne]
    rfl
  · exact (h.isFirm hne).trimBlanks_eq_self

theorem trimBlanks_trimBlanks (cs : List Char) : trimBlanks (trimBlanks cs) = trimBlanks cs := by
  obtain ⟨pre, post, hpre, hpost, hcs⟩ := exists_trimBlanks cs
  have h := trimBlanks_append hpre hpost (trimBlanks cs)
  rw [← hcs] at h
  exact h.symm

theorem mem_trimBlanks_of_mem (h : c ∈ cs) (hc : isBlank c = false) : c ∈ trimBlanks cs := by
  obtain ⟨pre, post, hpre, hpost, hcs⟩ := exists_trimBlanks cs
  have hblank : ∀ {ds}, IsBlanks ds → c ∉ ds := by
    intro ds hds hmem
    rw [hds c hmem] at hc
    cases hc
  rw [hcs] at h
  rcases List.mem_append.mp h with h | h
  · exact (List.mem_append.mp h).resolve_left (hblank hpre)
  · exact absurd h (hblank hpost)

theorem eq_nil_of_trimBlanks {pre post : List Char} (h : trimBlanks (pre ++ cs ++ post) = pre ++ cs ++ post)
    (hpre : IsBlanks pre) (hpost : IsBlanks post) : pre = [] ∧ post = [] := by
  rw [trimBlanks_append hpre hpost] at h
  obtain ⟨pre', post', -, -, hcs⟩ := exists_trimBlanks cs
  have hlength := congrArg List.length hcs
  rw [h] at hlength
  simp only [List.length_append] at hlength
  constructor
  · apply List.eq_nil_of_length_eq_zero
    omega
  · apply List.eq_nil_of_length_eq_zero
    omega

/-! ## Words -/

theorem words_cons_blank (h : isBlank c = true) : words (c :: cs) = words cs := by
  cases cs with
  | nil => exact if_pos h
  | cons d cs => exact if_pos h

theorem words_singleton (h : isBlank c = false) : words [c] = [[c]] := by
  have hc : ¬ isBlank c = true := by simp [h]
  exact if_neg hc

theorem words_cons_cons_blank {d : Char} (hc : isBlank c = false) (hd : isBlank d = true) :
    words (c :: d :: cs) = [c] :: words (d :: cs) := by
  have hc : ¬ isBlank c = true := by simp [hc]
  exact (if_neg hc).trans (if_pos hd)

theorem words_cons_cons {d : Char} (hc : isBlank c = false) (hd : isBlank d = false) (cs : List Char) :
    words (c :: d :: cs) =
      match words (d :: cs) with
      | [] => [[c]]
      | w :: ws => (c :: w) :: ws := by
  have hc : ¬ isBlank c = true := by simp [hc]
  have hd : ¬ isBlank d = true := by simp [hd]
  exact (if_neg hc).trans (if_neg hd)

theorem words_cons_ne_nil (hc : isBlank c = false) (cs : List Char) : words (c :: cs) ≠ [] := by
  cases cs with
  | nil => simp [words_singleton hc]
  | cons d cs =>
    cases hd : isBlank d with
    | true => simp [words_cons_cons_blank hc hd]
    | false =>
      rw [words_cons_cons hc hd]
      split <;> simp

theorem exists_words_cons_cons {d : Char} (hc : isBlank c = false) (hd : isBlank d = false) (cs : List Char) :
    ∃ w ws, words (d :: cs) = w :: ws ∧ words (c :: d :: cs) = (c :: w) :: ws := by
  obtain ⟨w, ws, hws⟩ := List.exists_cons_of_ne_nil (words_cons_ne_nil hd cs)
  refine ⟨w, ws, hws, ?_⟩
  rw [words_cons_cons hc hd, hws]

theorem words_blanks_append {pre : List Char} (h : IsBlanks pre) (cs : List Char) :
    words (pre ++ cs) = words cs := by
  induction pre with
  | nil => rfl
  | cons c pre ih =>
    obtain ⟨hc, hpre⟩ := isBlanks_cons.mp h
    rw [List.cons_append, words_cons_blank hc, ih hpre]

/-- A run without blanks is a word if a blank follows it or nothing. -/
theorem words_solid_append {w rest : List Char} (hne : w ≠ []) (hw : IsSolid w)
    (hrest : ∀ c ∈ rest.head?, isBlank c = true) : words (w ++ rest) = w :: words rest := by
  induction w with
  | nil => exact absurd rfl hne
  | cons c w ih =>
    obtain ⟨hc, hw⟩ := isSolid_cons.mp hw
    cases w with
    | nil =>
      cases rest with
      | nil => exact words_singleton hc
      | cons d rest => exact words_cons_cons_blank hc (hrest d rfl)
    | cons d w =>
      obtain ⟨v, vs, hvs, hword⟩ := exists_words_cons_cons hc (isSolid_cons.mp hw).1 (w ++ rest)
      have htail : v :: vs = (d :: w) :: words rest := hvs.symm.trans (ih (by simp) hw)
      obtain ⟨rfl, rfl⟩ := List.cons.inj htail
      exact hword

theorem words_solid {w : List Char} (hne : w ≠ []) (hw : IsSolid w) : words w = [w] := by
  have h : words (w ++ []) = w :: words [] := words_solid_append hne hw (by simp)
  rwa [List.append_nil] at h

/-- The first word of a text, and the words of what follows it. -/
theorem words_eq_cons_iff {w : List Char} {ws : List (List Char)} :
    words cs = w :: ws ↔ ∃ pre rest, cs = pre ++ (w ++ rest) ∧ IsBlanks pre ∧ w ≠ [] ∧ IsSolid w ∧
      (∀ c ∈ rest.head?, isBlank c = true) ∧ words rest = ws := by
  constructor
  · intro h
    induction cs generalizing w ws with
    | nil => cases h
    | cons c cs ih =>
      cases hc : isBlank c with
      | true =>
        rw [words_cons_blank hc] at h
        obtain ⟨pre, rest, rfl, hpre, hrest⟩ := ih h
        exact ⟨c :: pre, rest, rfl, isBlanks_cons.mpr ⟨hc, hpre⟩, hrest⟩
      | false =>
        have hsolid : IsSolid [c] := by simpa [IsSolid] using hc
        cases cs with
        | nil =>
          rw [words_singleton hc] at h
          obtain ⟨rfl, rfl⟩ := List.cons.inj h
          exact ⟨[], [], rfl, isBlanks_nil, by simp, hsolid, by simp, rfl⟩
        | cons d cs =>
          cases hd : isBlank d with
          | true =>
            rw [words_cons_cons_blank hc hd] at h
            obtain ⟨rfl, rfl⟩ := List.cons.inj h
            exact ⟨[], d :: cs, rfl, isBlanks_nil, by simp, hsolid, by simpa using hd, rfl⟩
          | false =>
            obtain ⟨v, vs, hvs, hword⟩ := exists_words_cons_cons hc hd cs
            obtain ⟨rfl, rfl⟩ := List.cons.inj (hword.symm.trans h)
            obtain ⟨pre, rest, hcs, hpre, hne, hv, hrest⟩ := ih hvs
            obtain rfl := hpre.eq_nil_of_head hcs.symm hd
            exact ⟨[], rest, congrArg (c :: ·) hcs, isBlanks_nil, by simp, isSolid_cons.mpr ⟨hc, hv⟩, hrest⟩
  · rintro ⟨pre, rest, rfl, hpre, hne, hw, hrest, rfl⟩
    rw [words_blanks_append hpre, words_solid_append hne hw hrest]

theorem words_eq_nil_iff : words cs = [] ↔ IsBlanks cs := by
  constructor
  · intro h
    induction cs with
    | nil => exact isBlanks_nil
    | cons c cs ih =>
      cases hc : isBlank c with
      | true =>
        rw [words_cons_blank hc] at h
        exact isBlanks_cons.mpr ⟨hc, ih h⟩
      | false => exact absurd h (words_cons_ne_nil hc cs)
  · intro h
    have hwords := words_blanks_append h []
    rwa [List.append_nil] at hwords

theorem words_eq_singleton {w : List Char} (htrim : trimBlanks cs = cs) (h : words cs = [w]) :
    cs = w ∧ w ≠ [] ∧ IsSolid w := by
  obtain ⟨pre, rest, rfl, hpre, hne, hw, -, hrest⟩ := words_eq_cons_iff.mp h
  rw [words_eq_nil_iff] at hrest
  rw [← List.append_assoc] at htrim
  obtain ⟨rfl, rfl⟩ := eq_nil_of_trimBlanks htrim hpre hrest
  exact ⟨by simp, hne, hw⟩

theorem words_eq_pair {v w : List Char} (htrim : trimBlanks cs = cs) (h : words cs = [v, w]) :
    ∃ blanks, cs = v ++ blanks ++ w ∧ IsBlanks blanks ∧ w ≠ [] ∧ IsSolid w := by
  obtain ⟨pre, rest, rfl, hpre, -, -, -, hrest⟩ := words_eq_cons_iff.mp h
  obtain ⟨blanks, post, rfl, hblanks, hne, hw, -, hpost⟩ := words_eq_cons_iff.mp hrest
  rw [words_eq_nil_iff] at hpost
  have hassoc : pre ++ (v ++ (blanks ++ (w ++ post))) = pre ++ (v ++ blanks ++ w) ++ post := by simp
  rw [hassoc] at htrim ⊢
  obtain ⟨rfl, rfl⟩ := eq_nil_of_trimBlanks htrim hpre hpost
  exact ⟨blanks, by simp, hblanks, hne, hw⟩

end DependencyResolution.Text
