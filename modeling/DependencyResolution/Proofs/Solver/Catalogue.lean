import DependencyResolution.Proofs.Solver.Answer
import DependencyResolution.PackageTable

/-!
# Catalogues

A catalogue lists the versions that there are of each package, and what each version depends on. A
provider may answer from a catalogue (`Provider.AnswersFrom`), choosing among the versions as it likes;
whether it does so does not depend on its priorities. A selection of versions that the catalogue admits
is refuted by no such answer.
-/

namespace DependencyResolution

variable {σ P V S M π E : Type} [DecidableEq P] [DecidableEq V] [VersionSet S V] [LawfulVersionSet S V]

/-- The versions of each package, and what each version depends on. -/
structure Catalogue (P V S M : Type) [VersionSet S V] [LawfulVersionSet S V] where
  entries : OrderedMap P (OrderedMap V (Dependencies P S M))
  proper : ∀ e ∈ entries.entries, ∀ f ∈ e.2.entries, ∀ requirements, f.2 = .available requirements →
    ∀ r ∈ requirements.entries, LawfulVersionSet.Proper r.2

namespace Catalogue

def find? (catalogue : Catalogue P V S M) (p : P) (v : V) : Option (Dependencies P S M) :=
  (catalogue.entries.get? p).bind fun versions => versions.get? v

theorem proper_of_find? {catalogue : Catalogue P V S M} {p : P} {v : V} {requirements : OrderedMap P S}
    (h : catalogue.find? p v = some (.available requirements)) :
    ∀ r ∈ requirements.entries, LawfulVersionSet.Proper r.2 := by
  obtain ⟨versions, hp, hv⟩ := Option.bind_eq_some_iff.mp h
  exact catalogue.proper _ (catalogue.entries.get?_eq_some_iff.mp hp) _ (versions.get?_eq_some_iff.mp hv)
    requirements rfl

/-- The selection has the root at the version, and with every version what it depends on. -/
structure Admits (catalogue : Catalogue P V S M) (root : P) (version : V) (selection : P → Option V) :
    Prop where
  root : selection root = some version
  available : ∀ p v, selection p = some v → ∃ requirements,
    catalogue.find? p v = some (.available requirements) ∧ ∀ needed allowed,
      requirements.get? needed = some allowed →
        ∃ w, selection needed = some w ∧ VersionSet.contains allowed w = true

end Catalogue

/-- The provider answers what the catalogue says: it chooses a version of the catalogue in the set that
is offered, and none only if there is none. -/
structure Provider.AnswersFrom (provider : Provider σ P V S M π E) (catalogue : Catalogue P V S M) :
    Prop where
  absent : ∀ p versions c, (provider.chooseVersion p versions c).1 = .ok none →
    ∀ v d, catalogue.find? p v = some d → VersionSet.contains versions v = false
  chosen : ∀ p versions c v, (provider.chooseVersion p versions c).1 = .ok (some v) →
    VersionSet.contains versions v = true ∧ ∃ d, catalogue.find? p v = some d
  told : ∀ p v c d d', (provider.dependencies p v c).1 = .ok d → catalogue.find? p v = some d' → d = d'

variable {provider : Provider σ P V S M π E} {catalogue : Catalogue P V S M}

theorem Provider.AnswersFrom.find? (h : provider.AnswersFrom catalogue) {p : P} {v : V}
    {d : Dependencies P S M} (hc : ∃ versions c, (provider.chooseVersion p versions c).1 = .ok (some v))
    (hd : ∃ c, (provider.dependencies p v c).1 = .ok d) : catalogue.find? p v = some d := by
  obtain ⟨versions, c, hc⟩ := hc
  obtain ⟨c', hd⟩ := hd
  obtain ⟨-, d', hd'⟩ := h.chosen p versions c v hc
  rw [hd', h.told p v c' d d' hd hd']

theorem Provider.AnswersFrom.answersProper (h : provider.AnswersFrom catalogue) :
    provider.AnswersProper :=
  fun _ _ _ hc hd => Catalogue.proper_of_find? (h.find? hc hd)

structure Provider.Faultless (provider : Provider σ P V S M π E) : Prop where
  prioritize : ∀ p versions c e, (provider.prioritize p versions c).1 ≠ .error e
  chooseVersion : ∀ p versions c e, (provider.chooseVersion p versions c).1 ≠ .error e
  dependencies : ∀ p v c e, (provider.dependencies p v c).1 ≠ .error e
  shouldCancel : ∀ c, (provider.shouldCancel c).1 = .ok false

omit [DecidableEq P] [DecidableEq V] [VersionSet S V] [LawfulVersionSet S V] in
theorem Provider.Faultless.not_stops (h : provider.Faultless) (f : Failure P V S E) :
    ¬ Solving.Stops provider f := by
  intro hf
  cases hf with
  | cancelled hc => exact hc (h.shouldCancel _)
  | prioritizing hc => exact h.prioritize _ _ _ _ hc
  | choosing hc => exact h.chooseVersion _ _ _ _ hc
  | retrieving hc => exact h.dependencies _ _ _ _ hc

/-- No answer from a catalogue refutes a selection that the catalogue admits. -/
theorem Catalogue.Admits.not_refutes [DecidableEq S] {root : P} {version : V} {selection : P → Option V}
    (h : catalogue.Admits root version selection) (hfrom : provider.AnswersFrom catalogue)
    {e : Event P V S M π E} (he : e.AnsweredBy provider) : ¬ e.Refutes (World.ofSelection selection) := by
  have hnil : e.facts = [] → ¬ e.Refutes (World.ofSelection selection) := by
    rintro hnil ⟨i, hi, -⟩
    rw [hnil] at hi
    cases hi
  rcases e with _ | _ | ⟨p, versions, _ | _ | v⟩ | ⟨p, v, _ | requirements | reason⟩ | _
  case chose.ok.none =>
    rw [Event.refutes_missing, World.ofSelection, Term.holds_positive_ofOption]
    rintro ⟨v, hv, hin⟩
    obtain ⟨requirements, hfind, -⟩ := h.available p v hv
    obtain ⟨c, hc⟩ := he
    rw [hfrom.absent p versions c hc v _ hfind] at hin
    cases hin
  case retrieved.ok.available =>
    have hfind := hfrom.find? he.1 he.2
    rw [Event.refutes_available (Catalogue.proper_of_find? hfind), World.ofSelection,
      Term.holds_exact_ofOption]
    rintro ⟨hv, needed, allowed, hget, hnot⟩
    obtain ⟨requirements', hfind', hneeded⟩ := h.available p v hv
    rw [hfind, Option.some.injEq, Dependencies.available.injEq] at hfind'
    subst hfind'
    exact hnot (Term.holds_positive_ofOption.mpr (hneeded needed allowed hget))
  case retrieved.ok.unavailable =>
    rw [Event.refutes_unavailable, World.ofSelection, Term.holds_exact_ofOption]
    intro hv
    obtain ⟨requirements, hfind, -⟩ := h.available p v hv
    rw [hfrom.find? he.1 he.2] at hfind
    cases hfind
  all_goals exact hnil rfl

end DependencyResolution
