import DependencyResolution.Proofs.Solver.Run

/-!
# Breaking off

A step that breaks off comes to nothing: the state is what it was, and the solver learns nothing from
the last answers (`Solving.step_error`). For what changes the state is done only when nothing can fail any
more. `Breaks r Q` says that an operation which broke off left a session as `Q` says.
-/

namespace DependencyResolution

open Incompatibility

variable {σ P V S M π E : Type}

/-- Whether the solver learns something of versions from an answer. -/
def Event.informs : Event P V S M π E → Bool
  | .chose _ _ (.ok none) => true
  | .retrieved _ _ (.ok _) => true
  | _ => false

/-- The state is the same, and the provider has said nothing that the solver learns from. -/
structure Session.Unmoved (x y : Session σ P V S M π E) : Prop where
  state : y.state = x.state
  answers : ∃ events, y.answers = x.answers ++ events ∧ ∀ e ∈ events, e.informs = false

section unmoved

variable {x y z : Session σ P V S M π E} {e : Event P V S M π E}

theorem Session.Unmoved.of_quiet (hs : y.state = x.state) (hq : x.Quiet y) : x.Unmoved y :=
  ⟨hs, [], by rw [hq.answers, List.append_nil], by simp⟩

theorem Session.Unmoved.refl (x : Session σ P V S M π E) : x.Unmoved x := .of_quiet rfl (.refl x)

theorem Session.Unmoved.trans (h : x.Unmoved y) (h' : y.Unmoved z) : x.Unmoved z := by
  obtain ⟨es, hes, hnone⟩ := h.answers
  obtain ⟨es', hes', hnone'⟩ := h'.answers
  refine ⟨h'.state.trans h.state, es ++ es', by rw [hes', hes, List.append_assoc], fun e he => ?_⟩
  exact (List.mem_append.mp he).elim (hnone e) (hnone' e)

theorem Session.Unmoved.of_answer (hs : y.state = x.state) (ha : y.answers = x.answers ++ [e])
    (he : e.informs = false) : x.Unmoved y :=
  ⟨hs, [e], ha, by simpa using he⟩

theorem Session.unmoved_ask (x : Session σ P V S M π E) (c : σ) (he : e.informs = false) :
    x.Unmoved (({ x with client := c } : Session σ P V S M π E).after e) := by
  refine ⟨rfl, if e.isAnswer then [e] else [], Session.answers_after { x with client := c } e, ?_⟩
  split_ifs
  · simpa using he
  · simp

theorem Session.Unmoved.mem_answers (h : x.Unmoved y) (he : e ∈ x.answers) : e ∈ y.answers := by
  obtain ⟨es, hes, -⟩ := h.answers
  rw [hes]
  exact List.mem_append_left _ he

theorem Session.Unmoved.mem_of_informs (h : x.Unmoved y) (he : e ∈ y.answers) (hi : e.informs = true) :
    e ∈ x.answers := by
  obtain ⟨es, hes, hnone⟩ := h.answers
  rw [hes] at he
  refine (List.mem_append.mp he).resolve_right fun hnew => ?_
  rw [hnone e hnew] at hi
  cases hi

end unmoved

namespace Solving

/-! ## Breaking off -/

section breaking

variable {α β : Type} {x y : Session σ P V S M π E} {Q : Session σ P V S M π E → Prop}

/-- If an operation breaks off, it leaves a session as described. -/
def Breaks (r : EStateM.Result (Failure P V S E) (Session σ P V S M π E) α)
    (Q : Session σ P V S M π E → Prop) : Prop :=
  ∀ f y, r = .error f y → Q y

theorem Breaks.bind {m : Solving σ P V S M π E α} {f : α → Solving σ P V S M π E β}
    (h : Breaks (m x) Q) (hf : ∀ a y, m x = .ok a y → Breaks (f a y) Q) : Breaks ((m >>= f) x) Q := by
  intro g z hz
  simp only [Bind.bind, EStateM.bind] at hz
  cases hm : m x with
  | ok a y =>
    rw [hm] at hz
    exact hf a y hm g z hz
  | error e y =>
    rw [hm] at hz
    cases hz
    exact h g z hm

theorem Breaks.mono {r : EStateM.Result (Failure P V S E) (Session σ P V S M π E) α}
    {Q' : Session σ P V S M π E → Prop} (h : Breaks r Q) (hQ : ∀ y, Q y → Q' y) : Breaks r Q' :=
  fun f y hr => hQ y (h f y hr)

theorem breaks_ok (a : α) (x : Session σ P V S M π E) : Breaks (.ok a x) Q := by
  rintro f y ⟨⟩

theorem breaks_throw (f : Failure P V S E) (h : Q x) :
    Breaks ((throw f : Solving σ P V S M π E α) x) Q := by
  rintro g y ⟨⟩
  exact h

theorem Breaks.of_eq_ok {r : EStateM.Result (Failure P V S E) (Session σ P V S M π E) α} {a : α}
    (h : r = .ok a y) : Breaks r Q := by
  rw [h]
  exact breaks_ok a y

theorem breaks_ofExcept (r : Except (Violation P V S) α) (h : Q x) :
    Breaks ((ofExcept r : Solving σ P V S M π E α) x) Q := by
  cases r with
  | ok a => exact breaks_ok a x
  | error v => exact breaks_throw _ h

theorem eq_of_ofExcept {r : Except (Violation P V S) α} {a : α}
    (h : (ofExcept r : Solving σ P V S M π E α) x = .ok a y) : r = .ok a ∧ y = x := by
  cases r with
  | ok b =>
    cases h
    exact ⟨rfl, rfl⟩
  | error v => cases h

theorem eq_of_incompatibility [DecidableEq P] {id : Nat} {i : Incompatibility P V S M}
    (h : (incompatibility id : Solving σ P V S M π E _) x = .ok i y) :
    x.state.store.get id = .ok i ∧ y = x :=
  eq_of_ofExcept (r := x.state.store.get id) h

theorem eq_of_register [DecidableEq P] {id : Nat} (h : (register id : Solving σ P V S M π E Unit) x = .ok () y) :
    y = { x with state := { x.state with store := x.state.store.registered id } } := by
  unfold register at h
  rw [bind_of_ok (state_eq x)] at h
  obtain ⟨store, z, hstore, hend⟩ := exists_of_bind h
  obtain ⟨hstore, rfl⟩ := eq_of_ofExcept hstore
  obtain ⟨-, rfl⟩ := Store.register_eq_ok_iff.mp hstore
  cases hend
  rfl

theorem breaks_incompatibility [DecidableEq P] (id : Nat) (h : Q x) :
    Breaks ((incompatibility id : Solving σ P V S M π E _) x) Q :=
  breaks_ofExcept (x.state.store.get id) h

end breaking

/-! ## Breaking off questions -/

section questions

theorem breaks_poll (provider : Provider σ P V S M π E) (x : Session σ P V S M π E) :
    Breaks (poll provider x) x.Unmoved := by
  unfold poll
  rw [bind_of_ok (ask_eq ..)]
  have h : ∀ answer, x.Unmoved (({ x with client := (provider.shouldCancel x.client).2 } :
      Session σ P V S M π E).after (.polled answer)) := fun _ => x.unmoved_ask _ rfl
  cases (provider.shouldCancel x.client).1 with
  | error e => exact breaks_throw _ (h _)
  | ok b =>
    cases b with
    | true => exact breaks_throw _ (h _)
    | false => exact breaks_ok _ _

theorem breaks_askVersion (provider : Provider σ P V S M π E) (p : P) (versions : S)
    (x : Session σ P V S M π E) : Breaks (askVersion provider p versions x) x.Unmoved := by
  unfold askVersion
  rw [bind_of_ok (ask_eq ..)]
  cases (provider.chooseVersion p versions x.client).1 with
  | error e => exact breaks_throw _ (x.unmoved_ask _ rfl)
  | ok a => exact breaks_ok _ _

theorem breaks_askDependencies (provider : Provider σ P V S M π E) (p : P) (v : V)
    (x : Session σ P V S M π E) : Breaks (askDependencies provider p v x) x.Unmoved := by
  unfold askDependencies
  rw [bind_of_ok (ask_eq ..)]
  cases (provider.dependencies p v x.client).1 with
  | error e => exact breaks_throw _ (x.unmoved_ask _ rfl)
  | ok a => exact breaks_ok _ _

variable [DecidableEq P] [DecidableEq S] [LT π] [DecidableLT π]

theorem breaks_bestOf (provider : Provider σ P V S M π E) (pending : List (P × S))
    (cache : PriorityCache Unit P S π) (best : Option (P × π)) (x : Session σ P V S M π E) :
    Breaks (cache.bestOf (askPriority provider) best pending x) x.Unmoved := by
  induction pending generalizing cache best x with
  | nil => exact breaks_ok _ _
  | cons e rest ih =>
    obtain ⟨p, versions⟩ := e
    unfold PriorityCache.bestOf
    refine Breaks.bind ?_ fun r y hy => (ih r.2 _ y).mono fun z hz => ?_
    · unfold PriorityCache.priority
      cases cache.find? p versions with
      | some r => exact breaks_ok _ _
      | none =>
        refine Breaks.bind ?_ fun _ _ _ => breaks_ok _ _
        unfold askPriority
        rw [bind_of_ok (ask_eq ..)]
        cases (provider.prioritize p versions x.client).1 with
        | error e => exact breaks_throw _ (x.unmoved_ask _ rfl)
        | ok r => exact breaks_ok _ _
    · have hpriority := priority_spec provider cache p versions x
      rw [hy] at hpriority
      exact (Session.Unmoved.of_quiet hpriority.1 hpriority.2).trans hz

theorem breaks_pickPackage (provider : Provider σ P V S M π E) (x : Session σ P V S M π E) :
    Breaks (pickPackage provider x) x.Unmoved := by
  unfold pickPackage
  rw [bind_of_ok (get_eq x)]
  unfold PriorityCache.pick
  rw [bind_assoc]
  exact (breaks_bestOf provider _ _ _ x).bind fun _ _ _ => breaks_ok _ _

end questions

variable [DecidableEq P] [DecidableEq S] [VersionSet S V]

/-! ## Breaking off deduction -/

section deduction

omit [DecidableEq S] in
theorem breaks_deriveFrom (p : P) (id : Nat) (x : Session σ P V S M π E) :
    Breaks (deriveFrom p id x) x.Unmoved := by
  unfold deriveFrom
  refine (breaks_incompatibility id (.refl x)).bind fun i y hy => ?_
  obtain ⟨-, rfl⟩ := eq_of_incompatibility hy
  cases i.get? p with
  | none => exact breaks_throw _ (.refl y)
  | some u =>
    refine Breaks.bind ?_ fun _ _ _ => breaks_ok _ _
    unfold derive
    rw [bind_of_ok (state_eq y)]
    refine (breaks_ofExcept _ (.refl y)).bind fun solution z hz => ?_
    exact breaks_ok _ _

theorem breaks_nextId (ids : List Nat) (waiting : List P) (x : Session σ P V S M π E) :
    Breaks (nextId ids waiting x) x.Unmoved := by
  cases ids with
  | nil => exact breaks_ok _ _
  | cons id rest =>
    rw [nextId, bind_of_ok (state_eq x)]
    split_ifs with hc
    · exact breaks_ok _ _
    · refine (breaks_incompatibility id (.refl x)).bind fun i y hy => ?_
      obtain ⟨-, rfl⟩ := eq_of_incompatibility hy
      cases y.state.solution.standing i with
      | satisfied => exact breaks_ok _ _
      | contradicted p => exact breaks_ok _ _
      | inconclusive => exact breaks_ok _ _
      | almostSatisfied p => exact (breaks_deriveFrom p id y).bind fun _ _ _ => breaks_ok _ _

omit [DecidableEq S] [VersionSet S V] in
/-- Going back with something stored breaks off only before anything is changed. -/
theorem breaks_backjump {id : Nat} {i : Incompatibility P V S M} {x : Session σ P V S M π E}
    (hi : x.state.store.get? id = some i) (changed : Bool) (level : Nat) :
    Breaks (backjump id changed level x) (· = x) := by
  cases hback : x.state.solution.backtrack level with
  | ok solution =>
    obtain ⟨y, hy, -⟩ := backjump_of_ok hi changed hback
    exact .of_eq_ok hy
  | error v =>
    unfold backjump backtrack
    refine Breaks.bind ?_ fun _ _ hok => ?_
    · rw [bind_of_ok (state_eq x)]
      exact (breaks_ofExcept (Q := (· = x)) _ rfl).bind fun _ _ _ => breaks_ok _ _
    · rw [bind_of_ok (state_eq x), hback] at hok
      cases hok

theorem breaks_nextConflict (id : Nat) (changed : Bool) (x : Session σ P V S M π E) :
    Breaks (nextConflict id changed x) x.Unmoved := by
  unfold nextConflict
  refine (breaks_incompatibility id (.refl x)).bind fun i y hy => ?_
  obtain ⟨hi, rfl⟩ := eq_of_incompatibility hy
  rw [bind_of_ok (state_eq y)]
  split_ifs with hterm
  · have hnoted : y.Unmoved (y.after (.noted (.terminal id i))) := .of_quiet rfl (y.quiet_after rfl)
    rw [bind_of_ok (note_eq _ y)]
    refine (breaks_ofExcept _ hnoted).bind fun _ z hz => ?_
    obtain ⟨-, rfl⟩ := eq_of_ofExcept hz
    exact breaks_throw _ hnoted
  · refine (breaks_ofExcept _ (.refl y)).bind fun found z hz => ?_
    obtain ⟨-, rfl⟩ := eq_of_ofExcept hz
    obtain ⟨p, previous | cause⟩ := found
    · have hjump : Breaks (backjump id changed previous z) z.Unmoved :=
        (breaks_backjump (Store.get_eq_ok_iff.mp hi) changed previous).mono fun y hy => hy ▸ .refl z
      exact hjump.bind fun _ _ _ => breaks_ok _ _
    · exact (breaks_ofExcept _ (.refl z)).bind fun _ _ _ => breaks_ok _ _

theorem breaks_deduce (provider : Provider σ P V S M π E) (φ : Phase P) (x : Session σ P V S M π E) :
    Breaks (deduce (poll provider) φ x) x.Unmoved := by
  cases φ with
  | round p => exact (breaks_poll provider x).bind fun _ _ _ => breaks_ok _ _
  | propagate waiting => cases waiting <;> exact breaks_ok _ _
  | scan ids waiting => exact breaks_nextId ids waiting x
  | conflict id changed =>
    refine (breaks_poll provider x).bind fun _ y hy => ?_
    have hpoll := poll_spec provider x
    rw [hy] at hpoll
    exact (breaks_nextConflict id changed y).mono fun z hz =>
      (Session.Unmoved.of_quiet hpoll.1 hpoll.2).trans hz
  | learned p id => exact (breaks_deriveFrom p id x).bind fun _ _ _ => breaks_ok _ _
  | decide => exact breaks_ok _ _

end deduction

/-! ## Breaking off decisions -/

section decision

variable [LawfulVersionSet S V] {provider : Provider σ P V S M π E} {x : Session σ P V S M π E}
  {t : List (Assignment P V S)} {p : P} {versions : S} {v : V}

/-- Once the dependencies of a version are known, nothing stops the solver from adding them. -/
theorem breaks_tryVersion (h : Invariant x.state t) (hproper : provider.AnswersProper)
    (hp : x.state.solution.IsPending p versions) (hin : VersionSet.contains versions v = true)
    (hc : ∃ c, (provider.chooseVersion p versions c).1 = .ok (some v)) :
    Breaks (tryVersion provider p v x) x.Unmoved := by
  unfold tryVersion
  refine (breaks_askDependencies provider p v x).bind fun answer y hy => ?_
  have hanswer := askDependencies_spec provider p v x
  rw [hy] at hanswer
  obtain ⟨hs, -, -, hd⟩ := hanswer
  have hmerged : y.state.MergedValid := hs ▸ h.merged
  cases answer with
  | unavailable reason =>
    obtain ⟨s', id, hok, -⟩ := insert_spec (y.after (.noted (.unavailable p v reason))) hmerged
      (i := .unusableVersion p v reason) (.unusable p v reason)
    dsimp only
    rw [bind_of_ok (note_eq _ y), bind_of_ok hok]
    exact breaks_ok _ _
  | available requirements =>
    have hr := hproper p v requirements ⟨versions, hc⟩ hd
    obtain ⟨s', ids, hok, hadds⟩ := insertDependencies_spec p v requirements.entries hr y hmerged
    rw [hs] at hadds
    have h' : Invariant s' t := h.adds (fun i hi => restates_of_mem_dependencyFacts hr hi) hadds
    have hp' : s'.solution.IsPending p versions := by rwa [hadds.solution]
    have hids : ∀ id ∈ ids, ∃ i, s'.store.get? id = some i := fun id hid => by
      obtain ⟨-, i, -, k, hk, -⟩ := hadds.exists_of_mem hid
      exact ⟨k, hk⟩
    obtain ⟨solution, refused, hunless⟩ : ∃ solution refused,
        s'.solution.decideUnless s'.store p v ids = .ok (solution, refused) := by
      rcases exists_decideUnless h' hp' hin hids with ⟨id, -, -, -, -, hunless⟩ | ⟨_, -, hunless⟩
      · exact ⟨_, _, hunless⟩
      · exact ⟨_, _, hunless⟩
    obtain ⟨z, b, hz, -⟩ := decideUnless_of_ok (x := { y with state := s' }) hunless
    dsimp only
    rw [bind_of_ok hok, bind_of_ok hz]
    exact breaks_ok _ _

theorem breaks_decidePackage [DecidableEq V] (h : Invariant x.state t) (hproper : provider.AnswersProper)
    (hp : x.state.solution.IsPending p versions) :
    Breaks (decidePackage provider p (.positive versions) x) x.Unmoved := by
  unfold decidePackage
  rw [bind_of_ok (show (ofExcept (Term.positive versions).positiveVersions :
    Solving σ P V S M π E S) x = .ok versions x from rfl)]
  refine (breaks_askVersion provider p versions x).bind fun answer y hy => ?_
  have hanswer := askVersion_spec provider p versions x
  rw [hy] at hanswer
  obtain ⟨hs, -, ha, hc⟩ := hanswer
  cases answer with
  | none =>
    obtain ⟨s', id, hok, -⟩ := insert_spec (y.after (.noted (.noVersions p versions)))
      (hs ▸ h.merged) (h.restates_missing hp)
    dsimp only
    rw [bind_of_ok (note_eq _ y), bind_of_ok (show (ofExcept (Incompatibility.noVersions p
      (Term.positive versions)) : Solving σ P V S M π E _) _ = .ok (.missing p versions) _ from rfl),
      bind_of_ok hok]
    exact breaks_ok _ _
  | some v =>
    have hxy : x.Unmoved y := .of_answer hs ha rfl
    dsimp only
    change Breaks ((if VersionSet.contains versions v = true then useVersion provider p v
      else throw (.violation (.choseOutside p v versions))) y) _
    cases hin : VersionSet.contains versions v with
    | false => exact breaks_throw _ hxy
    | true =>
      rw [if_pos rfl]
      unfold useVersion
      rw [bind_of_ok (get_eq y)]
      split_ifs with hseen
      · obtain ⟨solution, hsol⟩ := hp.exists_decide hin
        exact .of_eq_ok (decide_of_ok (hs.symm ▸ hsol : y.state.solution.decide p v = .ok solution))
      · have htry := breaks_tryVersion (x := { y with visited := y.visit p v }) (hs ▸ h) hproper
          (hs ▸ hp) hin hc
        exact htry.mono fun z hz => hxy.trans ⟨hz.state, hz.answers⟩

end decision

/-- A step that breaks off comes to nothing. -/
theorem step_error [DecidableEq V] [LT π] [DecidableLT π] [LawfulVersionSet S V]
    {provider : Provider σ P V S M π E} {x y : Session σ P V S M π E} {t : List (Assignment P V S)}
    {φ : Phase P} {f : Failure P V S E} (hproper : provider.AnswersProper)
    (h : φ = .decide → Invariant x.state t) (hstep : step provider φ x = .error f y) : x.Unmoved y := by
  refine (?_ : Breaks (step provider φ x) x.Unmoved) f y hstep
  unfold step
  split_ifs with hφ
  · unfold decideNext
    refine (breaks_pickPackage provider x).bind fun picked y hy => ?_
    have hpicked := pickPackage_spec provider x
    rw [hy] at hpicked
    obtain ⟨hs, hq, -, hsome⟩ := hpicked
    have hxy : x.Unmoved y := .of_quiet hs hq
    cases picked with
    | none => exact breaks_ok _ _
    | some p =>
      obtain ⟨versions, hp⟩ := isPending_of_mem (hsome p rfl)
      rw [← hs] at hp
      have hterm : y.state.solution.term? p = some (.positive versions) := hp.term?_eq
      dsimp only
      rw [bind_of_ok (state_eq y), hterm]
      refine Breaks.bind ?_ fun _ _ _ => breaks_ok _ _
      exact (breaks_decidePackage (hs ▸ h hφ) hproper hp).mono fun z hz => hxy.trans hz
  · exact (breaks_deduce provider φ x).bind fun _ _ _ => breaks_ok _ _

end Solving

end DependencyResolution
