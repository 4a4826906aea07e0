import DependencyResolution.Proofs.Outcome
import DependencyResolution.Proofs.Text.Blank
import Mathlib.Data.List.Forall2

/-!
# Texts of several pieces

A text may be the texts of several items with a separator between them and blanks around each (`Joined`). A
function that cuts texts at the separator (`Cuts`) gives the pieces back if no item needs the separator's
character (`joined_iff`), and reading the pieces one after another gives what the items mean together
(`foldlM_eq_ok_iff`).
-/

namespace DependencyResolution.Text

variable {α β ε : Type} {cs : List Char} {cut : List Char → List (List Char)} {separator : List Char} {mark : Char}
  {Writes : α → List Char → Prop} {items : List α}

/-- The text is the texts of one or more items with the separator between them; blanks may stand around
each. -/
def Joined (separator : List Char) (Writes : α → List Char → Prop) (items : List α) (cs : List Char) : Prop :=
  items ≠ [] ∧ ∃ pieces, cs = separator.intercalate pieces ∧
    List.Forall₂ (fun item piece => Writes item (trimBlanks piece)) items pieces

/-! ## Cutting -/

/-- The function cuts texts at the separator, which consists of the mark. -/
structure Cuts (cut : List Char → List (List Char)) (separator : List Char) (mark : Char) : Prop where
  ne_nil : ∀ cs, cut cs ≠ []
  intercalate_cut : ∀ cs, separator.intercalate (cut cs) = cs
  cut_intercalate : ∀ pieces, pieces ≠ [] → (∀ piece ∈ pieces, mark ∉ piece) →
    cut (separator.intercalate pieces) = pieces
  isBlank_mark : isBlank mark = false

theorem splitAtChar_eq_splitOn (separator : Char) (cs : List Char) :
    splitAtChar separator cs = cs.splitOn separator := by
  induction cs with
  | nil => rfl
  | cons c cs ih =>
    rw [List.splitOn_eq_splitOnP] at ih ⊢
    rw [splitAtChar, List.splitOnP_cons_eq_if_modifyHead, ih]
    by_cases h : c = separator
    · simp [h]
    · obtain ⟨piece, pieces, hpieces⟩ := List.exists_cons_of_ne_nil (List.splitOnP_ne_nil (· == separator) cs)
      simp [h, hpieces]

theorem splitAtChar_cuts (h : isBlank mark = false) : Cuts (splitAtChar mark) [mark] mark where
  ne_nil cs := by
    rw [splitAtChar_eq_splitOn, List.splitOn_eq_splitOnP]
    exact List.splitOnP_ne_nil _ _
  intercalate_cut cs := by rw [splitAtChar_eq_splitOn, List.intercalate_splitOn]
  cut_intercalate pieces hne hmark := by
    rw [splitAtChar_eq_splitOn, List.splitOn_intercalate mark hmark hne]
  isBlank_mark := h

/-! ## Joining -/

theorem mem_of_mem_intercalate {c : Char} {pieces : List (List Char)}
    (h : c ∈ separator.intercalate pieces) : c ∈ separator ∨ ∃ piece ∈ pieces, c ∈ piece := by
  induction pieces with
  | nil => cases h
  | cons piece pieces ih =>
    cases pieces with
    | nil => exact Or.inr ⟨piece, List.mem_cons_self, by simpa using h⟩
    | cons piece' pieces =>
      rw [List.intercalate_cons_of_ne_nil (by simp), List.mem_append, List.mem_append] at h
      rcases h with (h | h) | h
      · exact Or.inr ⟨piece, List.mem_cons_self, h⟩
      · exact Or.inl h
      · exact (ih h).imp_right fun ⟨p, hp, hc⟩ => ⟨p, List.mem_cons_of_mem piece hp, hc⟩

theorem isFirm_intercalate (separator : List Char) {pieces : List (List Char)} (hne : pieces ≠ [])
    (h : ∀ piece ∈ pieces, IsFirm piece) : IsFirm (separator.intercalate pieces) := by
  induction pieces with
  | nil => exact absurd rfl hne
  | cons piece pieces ih =>
    rw [List.forall_mem_cons] at h
    cases pieces with
    | nil => simpa using h.1
    | cons piece' pieces =>
      rw [List.intercalate_cons_cons]
      exact h.1.append (ih (by simp) h.2) separator

/-! ## Items and pieces -/

theorem exists_of_forall₂ {R : α → β → Prop} {as : List α} {bs : List β} (h : List.Forall₂ R as bs) {b : β}
    (hb : b ∈ bs) : ∃ a ∈ as, R a b := by
  induction h with
  | nil => cases hb
  | @cons a b' as bs hab _ ih =>
    rcases List.mem_cons.mp hb with rfl | hb
    · exact ⟨a, List.mem_cons_self, hab⟩
    · obtain ⟨a', ha', hab'⟩ := ih hb
      exact ⟨a', List.mem_cons_of_mem a ha', hab'⟩

/-- Where no item needs the mark, a text is joined from the pieces that it is cut into. -/
theorem joined_iff (hcut : Cuts cut separator mark) (hwrites : ∀ item text, Writes item text → mark ∉ text) :
    Joined separator Writes items cs ↔ List.Forall₂ Writes items ((cut cs).map trimBlanks) := by
  rw [List.forall₂_map_right_iff]
  constructor
  · rintro ⟨hne, pieces, rfl, hpieces⟩
    have hmark : ∀ piece ∈ pieces, mark ∉ piece := by
      intro piece hpiece hmem
      obtain ⟨item, -, hitem⟩ := exists_of_forall₂ hpieces hpiece
      exact hwrites item _ hitem (mem_trimBlanks_of_mem hmem hcut.isBlank_mark)
    rw [hcut.cut_intercalate pieces (fun h => hne (by simpa [h] using hpieces)) hmark]
    exact hpieces
  · intro h
    refine ⟨?_, cut cs, (hcut.intercalate_cut cs).symm, h⟩
    rintro rfl
    exact hcut.ne_nil cs (List.forall₂_nil_left_iff.mp h)

theorem not_mem_of_joined {c : Char} (hc : isBlank c = false) (hseparator : c ∉ separator)
    (hwrites : ∀ item text, Writes item text → c ∉ text) (h : Joined separator Writes items cs) : c ∉ cs := by
  obtain ⟨-, pieces, rfl, hpieces⟩ := h
  intro hmem
  rcases mem_of_mem_intercalate hmem with hmem | ⟨piece, hpiece, hmem⟩
  · exact hseparator hmem
  · obtain ⟨item, -, hitem⟩ := exists_of_forall₂ hpieces hpiece
    exact hwrites item _ hitem (mem_trimBlanks_of_mem hmem hc)

/-- Going through texts succeeds if each stands for something, and combines what they stand for. -/
theorem foldlM_eq_ok_iff {step : β → List Char → Except ε β} {combine : β → β → β} {meaning : α → β}
    {pieces : List (List Char)}
    (h : ∀ piece ∈ pieces, ∀ acc b,
      step acc piece = .ok b ↔ ∃ a, Writes a piece ∧ combine acc (meaning a) = b) (init b : β) :
    pieces.foldlM step init = .ok b ↔
      ∃ items, List.Forall₂ Writes items pieces ∧ (items.map meaning).foldl combine init = b := by
  induction pieces generalizing init with
  | nil =>
    simp only [List.foldlM_nil, List.forall₂_nil_right_iff, exists_eq_left, List.map_nil, List.foldl_nil]
    exact ⟨Except.ok.inj, congrArg _⟩
  | cons piece pieces ih =>
    rw [List.forall_mem_cons] at h
    simp only [List.foldlM_cons, bind_eq_ok_iff, List.forall₂_cons_right_iff]
    constructor
    · rintro ⟨next, hstep, hok⟩
      obtain ⟨items, hitems, hfold⟩ := (ih h.2 next).mp hok
      obtain ⟨a, ha, rfl⟩ := (h.1 init next).mp hstep
      exact ⟨a :: items, ⟨a, items, ha, hitems, rfl⟩, hfold⟩
    · rintro ⟨_, ⟨a, items, ha, hitems, rfl⟩, hfold⟩
      exact ⟨_, (h.1 init _).mpr ⟨a, ha, rfl⟩, (ih h.2 _).mpr ⟨items, hitems, hfold⟩⟩

end DependencyResolution.Text
