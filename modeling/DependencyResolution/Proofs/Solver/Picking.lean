import DependencyResolution.Proofs.Solver.Coherence
import DependencyResolution.Solver.Priority
import Mathlib.Data.List.MinMax

/-!
# The priorities that are kept do not show

A pick looks up the priorities that were asked at earlier picks. They outlive every change of the partial
solution, so that a package may have left and come back with other versions since it was asked about.
Still a pick comes out as if each priority was asked anew, and a question is saved just when the same
function was asked about the same package with the same versions, and about it no other since
(`Picking.pick_after`).

What is kept is a view of the picks made so far: of each package, the versions it was last asked about
since the function changed, with their priority (`Remembers`).
-/

namespace DependencyResolution

variable {F P V S M π : Type}

/-! ## One pick -/

/-- A client that notes what it is asked. -/
def asking (priority : P → S → π) (package : P) (versions : S) : StateM (List (P × S)) π :=
  fun asked => (priority package versions, asked ++ [(package, versions)])

namespace PriorityCache

variable [DecidableEq P] [DecidableEq S]

/-- Of each package the versions it was last asked about are kept, with their priority, and nothing else. -/
def Remembers (c : PriorityCache F P S π) (priority : P → S → π) (last : P → Option S) : Prop :=
  ∀ p, c.known.get? p = (last p).map fun versions => (versions, priority p versions)

/-- The pending packages that were last asked about with other versions, or not at all. -/
def due (last : P → Option S) (pending : List (P × S)) : List (P × S) :=
  pending.filter fun e => last e.1 ≠ some e.2

variable {c : PriorityCache F P S π} {priority : P → S → π} {last : P → Option S} {p : P} {versions : S}

namespace Remembers

theorem find?_eq (h : c.Remembers priority last) :
    c.find? p versions = if last p = some versions then some (priority p versions) else none := by
  rw [find?, h p]
  cases last p with
  | none => rfl
  | some asked =>
    by_cases hv : asked = versions
    · simp [hv]
    · simp [hv]

omit [DecidableEq S] in
theorem insert (h : c.Remembers priority last) (p : P) (versions : S) :
    ({ c with known := c.known.insert p (versions, priority p versions) } : PriorityCache F P S π).Remembers
      priority (Function.update last p (some versions)) := by
  intro q
  rw [OrderedMap.get?_insert]
  by_cases hq : p = q
  · subst hq
    simp
  · rw [if_neg hq, Function.update_of_ne (Ne.symm hq), h q]

end Remembers

theorem due_update (hp : p ∉ pending.map Prod.fst) :
    due (Function.update last p (some versions)) pending = due last pending := by
  refine List.filter_congr fun e he => ?_
  have hne : e.1 ≠ p := fun h => hp (h ▸ List.mem_map_of_mem he)
  rw [Function.update_of_ne hne]

variable [LinearOrder π]

/-- One round over the pending packages asks the questions that are due, and finds the best of all. -/
theorem run_bestOf {pending : List (P × S)} (hnodup : (pending.map Prod.fst).Nodup)
    (hc : c.Remembers priority last) (best : Option (P × π)) (asked : List (P × S)) :
    ∃ c', (c.bestOf (asking priority) best pending).run asked =
        pure ((pending.foldl (fun best e => some (better best e.1 (priority e.1 e.2))) best, c'),
          asked ++ due last pending) ∧
      c'.source = c.source ∧
      c'.Remembers priority fun p => (OrderedMap.lookup p (due last pending)).or (last p) := by
  induction pending generalizing c last best asked with
  | nil => exact ⟨c, by simp [bestOf, due], rfl, hc⟩
  | cons e rest ih =>
    obtain ⟨p, versions⟩ := e
    rw [List.map_cons, List.nodup_cons] at hnodup
    obtain ⟨hp, hnodup⟩ := hnodup
    by_cases hlast : last p = some versions
    · -- the priority is kept, and nothing is asked about `p`
      have hdue : due last ((p, versions) :: rest) = due last rest := by simp [due, hlast]
      have hpriority : c.priority (asking priority) p versions = pure (priority p versions, c) := by
        rw [PriorityCache.priority, hc.find?_eq, if_pos hlast]
      obtain ⟨c', hrun, hsource, hc'⟩ := ih hnodup hc (some (better best p (priority p versions))) asked
      refine ⟨c', ?_, hsource, hdue ▸ hc'⟩
      rw [bestOf, hpriority, pure_bind, hrun, hdue, List.foldl_cons]
    · -- `p` is asked about, and later pending packages are others
      have hdue : due last ((p, versions) :: rest) = (p, versions) :: due last rest := by simp [due, hlast]
      have hpriority : (c.priority (asking priority) p versions).run asked =
          pure ((priority p versions, { c with known := c.known.insert p (versions, priority p versions) }),
            asked ++ [(p, versions)]) := by
        rw [PriorityCache.priority, hc.find?_eq, if_neg hlast]
        rfl
      obtain ⟨c', hrun, hsource, hc'⟩ := ih hnodup (hc.insert p versions)
        (some (better best p (priority p versions))) (asked ++ [(p, versions)])
      rw [due_update hp] at hrun hc'
      refine ⟨c', ?_, hsource, fun q => ?_⟩
      · rw [bestOf, StateT.run_bind, hpriority, pure_bind, hrun, hdue, List.foldl_cons, List.append_assoc]
        rfl
      · rw [hc' q, hdue]
        simp only [OrderedMap.lookup]
        by_cases hq : p = q
        · subst hq
          have hnone : OrderedMap.lookup p (due last rest) = none :=
            (OrderedMap.lookup_eq_none_iff p).mpr fun h =>
              hp ((List.filter_sublist.map Prod.fst).subset h)
          simp [hnone]
        · rw [if_neg hq, Function.update_of_ne (Ne.symm hq)]

omit [DecidableEq P] [DecidableEq S] in
/-- The best of several packages is the first one where the priority is greatest. -/
theorem foldl_better (pending : List (P × S)) :
    pending.foldl (fun best e => some (better best e.1 (priority e.1 e.2))) none =
      (pending.argmax fun e => priority e.1 e.2).map fun e => (e.1, priority e.1 e.2) := by
  have hstep : ∀ (best : Option (P × S)) (e : P × S),
      some (better (best.map fun e => (e.1, priority e.1 e.2)) e.1 (priority e.1 e.2)) =
        (List.argAux (fun b c => priority c.1 c.2 < priority b.1 b.2) best e).map
          fun e => (e.1, priority e.1 e.2) := by
    intro best e
    cases best with
    | none => rfl
    | some b =>
      simp only [List.argAux, Option.map_some, better]
      split_ifs <;> rfl
  exact @List.foldl_hom _ _ _ _ _ (fun best e => some (better best e.1 (priority e.1 e.2))) pending none hstep

end PriorityCache

/-! ## What a pick should come to -/

namespace PartialSolution

variable [DecidableEq P] {s : PartialSolution P V S} {t : List (Assignment P V S)} {p q : P} {versions : S}

def Waits (s : PartialSolution P V S) (p : P) (versions : S) : Prop :=
  ∃ a, s.packages.get? p = some a ∧ a.decision = none ∧ a.derived = .positive versions

/-- The package waits, and of all that wait it has the highest priority; of several with that priority, its
live assignments begin first. -/
def Preferred [LT π] (s : PartialSolution P V S) (priority : P → S → π) (p : P) : Prop :=
  ∃ versions, s.Waits p versions ∧ ∀ q others, s.Waits q others → q ≠ p →
    priority q others < priority p versions ∨
      priority q others = priority p versions ∧ s.EntersBefore p q

theorem mem_pending_iff : (p, versions) ∈ s.pending ↔ s.Waits p versions := by
  unfold pending Waits
  simp only [List.mem_filterMap, ← OrderedMap.get?_eq_some_iff, Prod.exists]
  constructor
  · rintro ⟨q, a, ha, hsome⟩
    split at hsome
    · next hdec hder =>
      cases hsome
      exact ⟨a, ha, hdec, hder⟩
    · cases hsome
  · rintro ⟨a, ha, hdec, hder⟩
    exact ⟨p, a, ha, by rw [hdec, hder]⟩

omit [DecidableEq P] in
theorem keys_pending_sublist : (s.pending.map Prod.fst).Sublist s.packages.keys := by
  unfold pending OrderedMap.keys
  induction s.packages.entries with
  | nil => exact List.Sublist.slnil
  | cons e rest ih =>
    obtain ⟨p, a⟩ := e
    rw [List.filterMap_cons, List.map_cons]
    split
    · exact ih.cons p
    · next q hsome =>
      dsimp only at hsome
      split at hsome
      · cases hsome
        exact ih.cons_cons p
      · cases hsome

omit [DecidableEq P] in
theorem nodup_keys_pending (s : PartialSolution P V S) : (s.pending.map Prod.fst).Nodup :=
  s.packages.nodup.sublist keys_pending_sublist

theorem EntersBefore.asymm (h : s.EntersBefore p q) : ¬s.EntersBefore q p := by
  rintro ⟨b', a', hb', ha', hlt'⟩
  obtain ⟨a, b, ha, hb, hlt⟩ := h
  obtain rfl := Option.some.inj (ha.symm.trans ha')
  obtain rfl := Option.some.inj (hb.symm.trans hb')
  exact lt_asymm hlt hlt'

theorem Preferred.unique [LinearOrder π] {priority : P → S → π} (hp : s.Preferred priority p)
    (hq : s.Preferred priority q) : p = q := by
  obtain ⟨versions, hwaits, hbest⟩ := hp
  obtain ⟨others, hwaits', hbest'⟩ := hq
  by_contra hne
  rcases hbest q others hwaits' (Ne.symm hne) with hlt | ⟨heq, hbefore⟩
  · rcases hbest' p versions hwaits hne with hgt | ⟨heq, -⟩
    · exact lt_asymm hlt hgt
    · exact hlt.ne' heq
  · rcases hbest' p versions hwaits hne with hgt | ⟨-, hafter⟩
    · exact hgt.ne' heq
    · exact hbefore.asymm hafter

theorem rel_of_mem_argmax {α : Type} [LinearOrder π] {R : α → α → Prop} {l : List α} (hl : l.Pairwise R)
    {f : α → π} {m a : α} (hm : m ∈ l.argmax f) (ha : a ∈ l) (hle : f m ≤ f a) (hne : a ≠ m) : R m a := by
  classical
  obtain ⟨hmem, -, hfirst⟩ := List.mem_argmax_iff.mp hm
  have hindex : l.idxOf m < l.idxOf a :=
    (hfirst a ha hle).lt_of_ne fun hsame => hne ((List.idxOf_inj hmem).mp hsame).symm
  have hbefore := List.pairwise_iff_getElem.mp hl _ _ (List.idxOf_lt_length_of_mem hmem)
    (List.idxOf_lt_length_of_mem ha) hindex
  rwa [List.getElem_idxOf, List.getElem_idxOf] at hbefore

theorem Trail.preferred_of_argmax [VersionSet S V] [LinearOrder π] {priority : P → S → π} (h : Trail s t)
    (hmax : (p, versions) ∈ s.pending.argmax fun e => priority e.1 e.2) : s.Preferred priority p := by
  have hordered : s.pending.Pairwise fun e e' => s.EntersBefore e.1 e'.1 :=
    List.pairwise_map.mp (h.pairwise_entersBefore.sublist keys_pending_sublist)
  refine ⟨versions, mem_pending_iff.mp (List.argmax_mem hmax), fun q others hwaits hne => ?_⟩
  have hq := mem_pending_iff.mpr hwaits
  rcases (List.le_of_mem_argmax hq hmax).lt_or_eq with hlt | heq
  · exact Or.inl hlt
  · exact Or.inr ⟨heq, rel_of_mem_argmax hordered hmax hq heq.ge fun he => hne (congrArg Prod.fst he)⟩

/-- What a search for the greatest priority finds is the package that is preferred, if any waits. -/
theorem Trail.argmax_eq_some_iff [VersionSet S V] [LinearOrder π] {priority : P → S → π} (h : Trail s t) :
    (s.pending.argmax fun e => priority e.1 e.2).map Prod.fst = some p ↔ s.Preferred priority p := by
  constructor
  · intro hp
    obtain ⟨⟨q, versions⟩, hmax, rfl⟩ := Option.map_eq_some_iff.mp hp
    exact h.preferred_of_argmax hmax
  · intro hp
    obtain ⟨versions, hwaits, -⟩ := id hp
    have hne : (s.pending.argmax fun e => priority e.1 e.2) ≠ none := fun hnone =>
      List.ne_nil_of_mem (mem_pending_iff.mpr hwaits) (List.argmax_eq_none.mp hnone)
    obtain ⟨⟨q, others⟩, hmax⟩ := Option.ne_none_iff_exists'.mp hne
    rw [hmax, Option.map_some, (h.preferred_of_argmax hmax).unique hp]

theorem argmax_eq_none_iff [LinearOrder π] {priority : P → S → π} :
    (s.pending.argmax fun e => priority e.1 e.2).map Prod.fst = none ↔ ∀ p versions, ¬s.Waits p versions := by
  rw [Option.map_eq_none_iff, List.argmax_eq_none, List.eq_nil_iff_forall_not_mem, Prod.forall]
  exact forall₂_congr fun p versions => not_congr mem_pending_iff

end PartialSolution

/-! ## Any run of calls -/

/-- A pick: the function whose priorities were wanted, and the packages that it was asked about. -/
structure Pick (F P S : Type) where
  source : F
  asked : List (P × S)

/-- What a pick comes to: the package, the priorities that are kept then, and the questions asked. -/
structure Picked (F P S π : Type) where
  package : Option P
  priorities : PriorityCache F P S π
  asked : List (P × S)

/-- A partial solution with the priorities that are kept and the picks made so far, last first. -/
structure Picking (F P V S π : Type) where
  solution : PartialSolution P V S
  priorities : PriorityCache F P S π
  picks : List (Pick F P S)

/-- A call: a change of the partial solution, or a pick with the priorities of a function. -/
inductive Act (F P V S M : Type) where
  | edit (e : PartialSolution.Edit P V S M)
  | pick (source : F)

/-- The versions with which a package was last asked about, since the picks were made with a function. -/
def lastAsked [DecidableEq F] [DecidableEq P] (source : F) (picks : List (Pick F P S)) (p : P) : Option S :=
  (picks.takeWhile fun x => x.source = source).findSome? fun x => OrderedMap.lookup p x.asked

namespace Picking

variable [DecidableEq F] [DecidableEq P] [DecidableEq S]

def start : Picking F P V S π := ⟨.empty, .empty, []⟩

variable [LinearOrder π]

/-- A pick with the priorities of a function. -/
def pick (priority : F → P → S → π) (u : Picking F P V S π) (source : F) : Picked F P S π :=
  let ((package, priorities), asked) :=
    ((u.priorities.pick source (asking (priority source)) u.solution.pending).run []).run
  ⟨package, priorities, asked⟩

def act [VersionSet S V] (priority : F → P → S → π) (u : Picking F P V S π) :
    Act F P V S M → Picking F P V S π
  | .edit e => { u with solution := e.apply u.solution }
  | .pick source =>
    let picked := u.pick priority source
    { u with priorities := picked.priorities, picks := ⟨source, picked.asked⟩ :: u.picks }

def after [VersionSet S V] (priority : F → P → S → π) (acts : List (Act F P V S M)) : Picking F P V S π :=
  acts.foldl (Picking.act priority) start

/-- The function has to be asked about a package with these versions: the last pick was made with another
function, or no pick since has asked about the package, or it was last asked about with other versions. -/
def Unanswered (u : Picking F P V S π) (f : F) (p : P) (versions : S) : Prop :=
  u.picks.head?.map (·.source) ≠ some f ∨
    (∀ x ∈ u.picks.takeWhile (·.source = f), p ∉ x.asked.map Prod.fst) ∨
    ∃ others, lastAsked f u.picks p = some others ∧ others ≠ versions

/-- What is kept is what the picks so far have asked of the function of the last one. -/
structure Consistent [VersionSet S V] (priority : F → P → S → π) (u : Picking F P V S π) : Prop where
  trail : ∃ t, PartialSolution.Trail u.solution t
  source : u.priorities.source = u.picks.head?.map (·.source)
  known : ∀ f, u.priorities.source = some f → u.priorities.Remembers (priority f) (lastAsked f u.picks)

variable [VersionSet S V] {priority : F → P → S → π} {u : Picking F P V S π} {f : F}

omit [LinearOrder π] [DecidableEq S] in
theorem Consistent.start : Consistent priority (start : Picking F P V S π) where
  trail := ⟨[], .empty⟩
  source := rfl
  known := nofun

omit [DecidableEq S] in
theorem lastAsked_of_ne {picks : List (Pick F P S)} (h : picks.head?.map (·.source) ≠ some f) (p : P) :
    lastAsked f picks p = none := by
  cases picks with
  | nil => rfl
  | cons x older =>
    have hne : x.source ≠ f := fun he => h (congrArg some he)
    simp [lastAsked, hne]

omit [DecidableEq S] in
theorem lastAsked_cons (f : F) (asked : List (P × S)) (older : List (Pick F P S)) (p : P) :
    lastAsked f (⟨f, asked⟩ :: older) p = (OrderedMap.lookup p asked).or (lastAsked f older p) := by
  simp only [lastAsked, List.takeWhile_cons, decide_true, if_true, List.findSome?_cons]
  cases OrderedMap.lookup p asked <;> rfl

omit [LinearOrder π] [DecidableEq S] in
/-- What is kept for a function is what it was asked, even if that means to forget what is kept. -/
theorem Consistent.remembers_forSource (h : Consistent priority u) (f : F) :
    (u.priorities.forSource f).Remembers (priority f) (lastAsked f u.picks) := by
  unfold PriorityCache.forSource
  split_ifs with hsource
  · exact h.known f hsource
  · intro p
    rw [lastAsked_of_ne (h.source ▸ hsource)]
    rfl

omit [DecidableEq P] [DecidableEq S] [LinearOrder π] in
theorem source_forSource (c : PriorityCache F P S π) : (c.forSource f).source = some f := by
  unfold PriorityCache.forSource
  split_ifs with h
  · exact h
  · rfl

/-- A pick finds the first of the pending packages with the highest priority, and asks what is due. -/
theorem Consistent.pick_eq (h : Consistent priority u) (f : F) :
    ∃ c, u.pick priority f =
        ⟨(u.solution.pending.argmax fun e => priority f e.1 e.2).map Prod.fst, c,
          PriorityCache.due (lastAsked f u.picks) u.solution.pending⟩ ∧
      c.source = some f ∧
      c.Remembers (priority f) fun p =>
        (OrderedMap.lookup p (PriorityCache.due (lastAsked f u.picks) u.solution.pending)).or
          (lastAsked f u.picks p) := by
  obtain ⟨c, hrun, hsource, hc⟩ := PriorityCache.run_bestOf u.solution.nodup_keys_pending
    (h.remembers_forSource f) none []
  refine ⟨c, ?_, hsource.trans (source_forSource _), hc⟩
  rw [pick, PriorityCache.pick, StateT.run_bind, hrun, pure_bind, PriorityCache.foldl_better]
  simp [Function.comp_def]

theorem Consistent.act (h : Consistent priority u) (a : Act F P V S M) : Consistent priority (u.act priority a) := by
  cases a with
  | edit e =>
    obtain ⟨t, ht⟩ := h.trail
    exact ⟨PartialSolution.Edit.exists_trail_apply ht e, h.source, h.known⟩
  | pick f =>
    obtain ⟨c, hpick, hsource, hc⟩ := h.pick_eq f
    refine ⟨h.trail, ?_, fun g hg => ?_⟩
    · simp [Picking.act, hpick, hsource]
    · simp only [Picking.act, hpick] at hg ⊢
      obtain rfl := Option.some.inj (hsource.symm.trans hg)
      intro p
      rw [lastAsked_cons]
      exact hc p

theorem consistent_after (priority : F → P → S → π) (acts : List (Act F P V S M)) :
    Consistent priority (after priority acts) := by
  have hfold : ∀ {u : Picking F P V S π}, Consistent priority u →
      Consistent priority (acts.foldl (Picking.act priority) u) := by
    induction acts with
    | nil => exact id
    | cons a rest ih => exact fun h => ih (h.act a)
  exact hfold .start

omit [DecidableEq S] [LinearOrder π] [VersionSet S V] in
theorem lastAsked_ne_iff {p : P} {versions : S} :
    lastAsked f u.picks p ≠ some versions ↔ u.Unanswered f p versions := by
  have hnone : lastAsked f u.picks p = none ↔
      ∀ x ∈ u.picks.takeWhile (·.source = f), p ∉ x.asked.map Prod.fst := by
    unfold lastAsked
    rw [List.findSome?_eq_none_iff]
    exact forall₂_congr fun x _ => OrderedMap.lookup_eq_none_iff p
  rw [Unanswered, ← hnone]
  constructor
  · intro hne
    cases hlast : lastAsked f u.picks p with
    | none => exact Or.inr (Or.inl rfl)
    | some others => exact Or.inr (Or.inr ⟨others, rfl, fun h => hne (h ▸ hlast)⟩)
  · rintro (hsource | hlast | ⟨others, hlast, hne⟩)
    · simp [lastAsked_of_ne hsource p]
    · simp [hlast]
    · simpa [hlast] using hne

/-- After any calls, a pick with the priorities of any function comes to the package that is preferred, just
as if nothing was kept. Each waiting package is asked about at most once, and just if it is unanswered. -/
theorem pick_after (priority : F → P → S → π) (acts : List (Act F P V S M)) (f : F) :
    (∀ p, ((after priority acts).pick priority f).package = some p ↔
      (after priority acts).solution.Preferred (priority f) p) ∧
    (((after priority acts).pick priority f).package = none ↔
      ∀ p versions, ¬(after priority acts).solution.Waits p versions) ∧
    ((after priority acts).pick priority f).package =
      ({ after priority acts with priorities := .empty }.pick priority f).package ∧
    (((after priority acts).pick priority f).asked.map Prod.fst).Nodup ∧
    ∀ p versions, (p, versions) ∈ ((after priority acts).pick priority f).asked ↔
      (after priority acts).solution.Waits p versions ∧ (after priority acts).Unanswered f p versions := by
  have h := consistent_after priority acts
  obtain ⟨t, ht⟩ := h.trail
  obtain ⟨c, hpick, -, -⟩ := h.pick_eq f
  have hafresh : Consistent priority { after priority acts with priorities := .empty, picks := [] } :=
    ⟨h.trail, rfl, nofun⟩
  obtain ⟨c', hpick', -, -⟩ := hafresh.pick_eq f
  refine ⟨fun p => ?_, ?_, ?_, ?_, fun p versions => ?_⟩
  · rw [hpick]
    exact ht.argmax_eq_some_iff
  · rw [hpick]
    exact PartialSolution.argmax_eq_none_iff
  · rw [hpick]
    exact (congrArg Picked.package hpick').symm
  · rw [hpick]
    exact (PartialSolution.nodup_keys_pending _).sublist (List.filter_sublist.map Prod.fst)
  · rw [hpick, PriorityCache.due, List.mem_filter, PartialSolution.mem_pending_iff, decide_eq_true_iff,
      lastAsked_ne_iff]

end Picking

end DependencyResolution
