import DependencyResolution.Proofs.Solver.Moment
import DependencyResolution.Proofs.Solver.Operation
import DependencyResolution.Proofs.Solver.Stopping

/-!
# The discipline of calls

What has to come before a question about versions, and before what conflict resolution notes, is fixed
(`Event.Due`): a version is chosen for a package that a run picked, in the versions in which it waits, and
not without having asked since the last such question whether to give up; what a version depends on is
asked once, right after it was chosen and if it is one of the versions that were asked for; and each step of
conflict resolution begins by asking whether to give up. The log of every run keeps to it, with any
provider (`resolveWithin_disciplined`). The set in which a version is chosen is never empty
(`Choosing.ne_empty`), and an answer outside of it ends the run with the state that it had before.

One step keeps to the discipline if the log before it did, and if the provider was asked whether to give up
since the round began (`Session.Attended`). That what a version depends on is not asked again is due to the
list of the versions that were tried, which going back does not touch.
-/

namespace DependencyResolution

variable {σ P V S M π E : Type}

/-! ## What has to come first -/

/-- The provider was asked whether to give up, and nothing about versions since. -/
def Polled (log : List (Event P V S M π E)) : Prop :=
  ∃ earlier since, log = earlier ++ .polled (.ok false) :: since ∧ ∀ e ∈ since, e.isAnswer = false

section discipline

variable [DecidableEq P] [DecidableEq V] [DecidableEq S] [VersionSet S V] [LT π] [DecidableLT π]

/-- The package was picked to be decided next: it is undecided, and these are the versions that it may take. -/
structure Choosing (provider : Provider σ P V S M π E) (client : σ) (root : P) (version : V)
    (y : Session σ P V S M π E) (p : P) (versions : S) : Prop where
  picked : ∃ x, Reached provider client root version x .decide ∧
    Solving.pickPackage provider x = .ok (some p) y ∧ y.state = x.state
  pending : y.state.solution.IsPending p versions
  term : y.state.solution.term? p = some (.positive versions)

/-- What has to come before something that happens in a run. -/
def Event.Due (provider : Provider σ P V S M π E) (client : σ) (root : P) (version : V)
    (before : List (Event P V S M π E)) : Event P V S M π E → Prop
  | .chose p versions _ =>
    Polled before ∧ ∃ y, Choosing provider client root version y p versions ∧ y.events.toList = before
  | .retrieved p v _ =>
    (∃ versions, before.getLast? = some (.chose p versions (.ok (some v))) ∧
      VersionSet.contains versions v = true) ∧
    ∀ answer, .retrieved p v answer ∉ before
  | .noted (.terminal ..) => before.getLast? = some (.polled (.ok false))
  | .noted (.resolved ..) => before.getLast? = some (.polled (.ok false))
  | .noted (.backtracked ..) => before.getLast? = some (.polled (.ok false))
  | .noted (.learned ..) => ∃ level affected, before.getLast? = some (.noted (.backtracked level affected))
  | _ => True

def Disciplined (provider : Provider σ P V S M π E) (client : σ) (root : P) (version : V)
    (log : List (Event P V S M π E)) : Prop :=
  ∀ before e after, log = before ++ e :: after → e.Due provider client root version before

end discipline

/-- Whether it may happen at any time. -/
def Event.isPlain : Event P V S M π E → Bool
  | .polled _ => true
  | .prioritized .. => true
  | .noted (.terminal ..) => false
  | .noted (.resolved ..) => false
  | .noted (.backtracked ..) => false
  | .noted (.learned ..) => false
  | .noted _ => true
  | _ => false

section logs

variable {log news : List (Event P V S M π E)} {e : Event P V S M π E}

theorem Event.isAnswer_of_isPlain (h : e.isPlain = true) : e.isAnswer = false := by
  cases e with
  | chose => cases h
  | retrieved => cases h
  | polled | prioritized | noted => rfl

theorem polled_append (h : Polled log) (hnews : ∀ e ∈ news, e.isAnswer = false) : Polled (log ++ news) := by
  obtain ⟨earlier, since, rfl, hsince⟩ := h
  refine ⟨earlier, since ++ news, by simp, fun e he => ?_⟩
  exact (List.mem_append.mp he).elim (hsince e) (hnews e)

theorem polled_append_polled (log : List (Event P V S M π E)) : Polled (log ++ [.polled (.ok false)]) :=
  ⟨log, [], rfl, by simp⟩

variable [DecidableEq P] [DecidableEq V] [DecidableEq S] [VersionSet S V] [LT π] [DecidableLT π]
  {provider : Provider σ P V S M π E} {client : σ} {root : P} {version : V}

theorem Event.due_of_isPlain (h : e.isPlain = true) (before : List (Event P V S M π E)) :
    e.Due provider client root version before := by
  cases e with
  | polled => trivial
  | prioritized => trivial
  | chose => cases h
  | retrieved => cases h
  | noted n => cases n <;> trivial

theorem disciplined_nil : Disciplined provider client root version [] := by
  intro before e after h
  cases before <;> cases h

theorem disciplined_append_singleton : Disciplined provider client root version (log ++ [e]) ↔
    Disciplined provider client root version log ∧ e.Due provider client root version log := by
  constructor
  · refine fun h => ⟨fun before e' after hlog => h before e' (after ++ [e]) ?_, h log e [] rfl⟩
    rw [hlog, List.append_assoc, List.cons_append]
  · rintro ⟨h, he⟩ before e' after hlog
    rcases List.eq_nil_or_concat after with rfl | ⟨rest, last, rfl⟩
    · obtain ⟨rfl, hsame⟩ := List.append_inj' hlog rfl
      cases hsame
      exact he
    · have hall : log ++ [e] = (before ++ e' :: rest) ++ [last] := by simpa using hlog
      exact h before e' rest (List.append_inj' hall rfl).1

theorem Disciplined.append (h : Disciplined provider client root version log)
    (hnews : ∀ e ∈ news, e.isPlain = true) : Disciplined provider client root version (log ++ news) := by
  induction news using List.reverseRecOn with
  | nil => rwa [List.append_nil]
  | append_singleton news e ih =>
    rw [List.forall_mem_append] at hnews
    rw [← List.append_assoc, disciplined_append_singleton]
    exact ⟨ih hnews.1, Event.due_of_isPlain (hnews.2 e List.mem_cons_self) _⟩

end logs

/-! ## Sessions in good order -/

section sessions

/-- What was added to the log may happen at any time, and no new version was tried. -/
def Session.Plainly (x y : Session σ P V S M π E) : Prop :=
  y.visited = x.visited ∧
    ∃ news, y.events.toList = x.events.toList ++ news ∧ ∀ e ∈ news, e.isPlain = true

theorem Session.Plainly.refl (x : Session σ P V S M π E) : x.Plainly x :=
  ⟨rfl, [], (List.append_nil _).symm, by simp⟩

theorem Session.Plainly.trans {x y z : Session σ P V S M π E} (h : x.Plainly y) (h' : y.Plainly z) :
    x.Plainly z := by
  obtain ⟨hv, news, hlog, hnews⟩ := h
  obtain ⟨hv', news', hlog', hnews'⟩ := h'
  exact ⟨hv'.trans hv, news ++ news', by rw [hlog', hlog, List.append_assoc],
    List.forall_mem_append.mpr ⟨hnews, hnews'⟩⟩

theorem Session.plainly_push (x : Session σ P V S M π E) (c : σ) {e : Event P V S M π E} (h : e.isPlain = true) :
    x.Plainly { x with client := c, events := x.events.push e } :=
  ⟨rfl, [e], Array.toList_push, List.forall_mem_singleton.mpr h⟩

variable [DecidableEq P] [DecidableEq V] [DecidableEq S] [VersionSet S V] [LT π] [DecidableLT π]

/-- The log keeps to the discipline, what was asked about was tried, and what was chosen lies in the versions
that were asked for. -/
structure Session.Orderly (provider : Provider σ P V S M π E) (client : σ) (root : P) (version : V)
    (x : Session σ P V S M π E) : Prop where
  disciplined : Disciplined provider client root version x.events.toList
  tried : ∀ p v answer, .retrieved p v answer ∈ x.events.toList → v ∈ (x.visited.get? p).getD []
  inside : ∀ p versions v, .chose p versions (.ok (some v)) ∈ x.events.toList →
    VersionSet.contains versions v = true

/-- The session is in good order, and the provider was asked whether to give up since it was last asked about
versions. -/
structure Session.Attended (provider : Provider σ P V S M π E) (client : σ) (root : P) (version : V)
    (x : Session σ P V S M π E) : Prop extends x.Orderly provider client root version where
  polled : Polled x.events.toList

variable {provider : Provider σ P V S M π E} {client : σ} {root : P} {version : V}
  {x y z : Session σ P V S M π E} {e : Event P V S M π E} {news : List (Event P V S M π E)}

omit [DecidableEq P] [DecidableEq V] [DecidableEq S] [VersionSet S V] [LT π] [DecidableLT π] in
@[simp] theorem Session.toList_events_after (x : Session σ P V S M π E) (e : Event P V S M π E) :
    (x.after e).events.toList = x.events.toList ++ [e] := Array.toList_push

/-- Where nothing was asked about versions, good order is a matter of the discipline. -/
theorem Session.Orderly.of_append (h : x.Orderly provider client root version) (hv : y.visited = x.visited)
    (hlog : y.events.toList = x.events.toList ++ news) (hnews : ∀ e ∈ news, e.isAnswer = false)
    (hd : Disciplined provider client root version (x.events.toList ++ news)) :
    y.Orderly provider client root version where
  disciplined := hlog ▸ hd
  tried p v answer he := by
    rw [hlog, List.mem_append] at he
    rw [hv]
    exact h.tried p v answer (he.resolve_right fun hnew => by cases hnews _ hnew)
  inside p versions v he := by
    rw [hlog, List.mem_append] at he
    exact h.inside p versions v (he.resolve_right fun hnew => by cases hnews _ hnew)

theorem Session.Orderly.of_plainly (h : x.Orderly provider client root version) (hxy : x.Plainly y) :
    y.Orderly provider client root version := by
  obtain ⟨hv, news, hlog, hnews⟩ := hxy
  exact h.of_append hv hlog (fun e he => Event.isAnswer_of_isPlain (hnews e he)) (h.disciplined.append hnews)

theorem Session.Attended.of_plainly (h : x.Attended provider client root version) (hxy : x.Plainly y) :
    y.Attended provider client root version where
  toOrderly := h.toOrderly.of_plainly hxy
  polled := by
    obtain ⟨-, news, hlog, hnews⟩ := hxy
    rw [hlog]
    exact polled_append h.polled fun e he => Event.isAnswer_of_isPlain (hnews e he)

theorem Session.Attended.note (h : x.Attended provider client root version) {n : Note P V S M}
    (hn : Event.Due provider client root version x.events.toList (.noted n)) :
    (x.after (.noted n)).Attended provider client root version where
  toOrderly := h.toOrderly.of_append rfl (x.toList_events_after _) (by simp [Event.isAnswer])
    (disciplined_append_singleton.mpr ⟨h.disciplined, hn⟩)
  polled := by
    rw [Session.toList_events_after]
    exact polled_append h.polled (by simp [Event.isAnswer])

theorem Session.Orderly.choose (h : x.Attended provider client root version) {p : P} {versions : S}
    (hc : Choosing provider client root version x p versions) {answer : Except E (Option V)}
    (hin : ∀ v, answer = .ok (some v) → VersionSet.contains versions v = true)
    (hv : y.visited = x.visited) (hlog : y.events.toList = x.events.toList ++ [.chose p versions answer]) :
    y.Orderly provider client root version where
  disciplined := by
    rw [hlog, disciplined_append_singleton]
    exact ⟨h.disciplined, h.polled, x, hc, rfl⟩
  tried q w a he := by
    rw [hlog, List.mem_append, List.mem_singleton] at he
    rw [hv]
    exact h.tried q w a (he.resolve_right (by simp))
  inside q versions' w he := by
    rw [hlog, List.mem_append, List.mem_singleton] at he
    rcases he with he | he
    · exact h.inside q versions' w he
    · cases he
      exact hin w rfl

theorem Session.Orderly.retrieve (h : x.Orderly provider client root version) {p : P} {versions : S} {v : V}
    (hlast : x.events.toList.getLast? = some (.chose p versions (.ok (some v))))
    (hnew : v ∉ (x.visited.get? p).getD []) {answer : Except E (Dependencies P S M)}
    (hv : y.visited = x.visit p v) (hlog : y.events.toList = x.events.toList ++ [.retrieved p v answer]) :
    y.Orderly provider client root version where
  disciplined := by
    rw [hlog, disciplined_append_singleton]
    refine ⟨h.disciplined, ⟨versions, hlast, h.inside p versions v (List.mem_of_getLast? hlast)⟩,
      fun a he => hnew (h.tried p v a he)⟩
  tried q w a he := by
    rw [hlog, List.mem_append, List.mem_singleton] at he
    rw [hv, Session.visit, OrderedMap.get?_insert]
    split
    · next hq =>
      subst hq
      rw [Option.getD_some, List.mem_cons]
      rcases he with he | he
      · exact Or.inr (h.tried p w a he)
      · cases he
        exact Or.inl rfl
    · next hq =>
      refine h.tried q w a (he.resolve_right fun hsame => ?_)
      cases hsame
      exact hq rfl
  inside q versions' w he := by
    rw [hlog, List.mem_append, List.mem_singleton] at he
    exact h.inside q versions' w (he.resolve_right (by simp))

end sessions

namespace Solving

/-! ## Operations that may come at any time -/

section plain

variable {α β : Type} {m : Solving σ P V S M π E α} {f : α → Solving σ P V S M π E β}
  {x : Session σ P V S M π E}

theorem leaves_bind {Q : Session σ P V S M π E → Prop} (herror : ∀ e y, m x = .error e y → Q y)
    (hok : ∀ a y, m x = .ok a y → Q (leaves (f a) y)) : Q (leaves (m >>= f) x) := by
  simp only [leaves, Bind.bind, EStateM.bind] at hok ⊢
  cases hm : m x with
  | ok a y => exact hok a y hm
  | error e y => exact herror e y hm

theorem leaves_of_ok {a : α} {y : Session σ P V S M π E} (h : m x = .ok a y) : leaves m x = y := by
  rw [leaves, h]

theorem leaves_of_error {e : Failure P V S E} {y : Session σ P V S M π E} (h : m x = .error e y) :
    leaves m x = y := by
  rw [leaves, h]

theorem leaves_bind_of_ok {a : α} {y : Session σ P V S M π E} (h : m x = .ok a y) :
    leaves (m >>= f) x = leaves (f a) y := by
  rw [leaves, bind_of_ok h, leaves]

/-- What the operation adds to the log may happen at any time, and it tries no new version. -/
def Plain (m : Solving σ P V S M π E α) : Prop := ∀ x : Session σ P V S M π E, x.Plainly (leaves m x)

theorem Plain.bind (hm : Plain m) (hf : ∀ a, Plain (f a)) : Plain (m >>= f) := by
  intro x
  have h := hm x
  refine leaves_bind (fun e y he => ?_) fun a y ha => ?_
  · rwa [leaves_of_error he] at h
  · rw [leaves_of_ok ha] at h
    exact h.trans (hf a y)

theorem plain_throw (g : Failure P V S E) : Plain (throw g : Solving σ P V S M π E α) := fun x => .refl x

theorem plain_composes : ComposesNoting (fun n => Event.isPlain (.noted n : Event P V S M π E) = true)
    fun {α} (m : Solving σ P V S M π E α) => Plain m where
  pure _ x := .refl x
  bind := .bind
  throw _ := plain_throw _
  get x := .refl x
  modify {f} hf x := by
    refine ⟨(hf x).2.2, [], ?_, by simp⟩
    show (f x).events.toList = _
    rw [(hf x).2.1, List.append_nil]
  note hn x := x.plainly_push x.client hn

theorem plain_poll (provider : Provider σ P V S M π E) : Plain (poll provider) := by
  have hask : Plain (ask provider.shouldCancel .polled : Solving σ P V S M π E (Except E Bool)) :=
    fun x => x.plainly_push _ rfl
  refine hask.bind fun answer => ?_
  rcases answer with fault | _ | _
  · exact plain_throw _
  · exact plain_composes.pure ()
  · exact plain_throw _

theorem plain_askPriority (provider : Provider σ P V S M π E) (p : P) (versions : S) :
    Plain (askPriority provider p versions) := by
  have hask : Plain (ask (provider.prioritize p versions) (.prioritized p versions) :
      Solving σ P V S M π E (Except E π)) := fun x => x.plainly_push _ rfl
  refine hask.bind fun answer => ?_
  cases answer with
  | error fault => exact plain_throw _
  | ok priority => exact plain_composes.pure priority

end plain

/-! ## Conflicts -/

section steps

variable [DecidableEq P] [DecidableEq V] [DecidableEq S] [VersionSet S V] [LT π] [DecidableLT π]
  {provider : Provider σ P V S M π E} {client : σ} {root : P} {version : V} {x y : Session σ P V S M π E}

theorem attended_nextConflict (h : y.Attended provider client root version)
    (hlast : y.events.toList.getLast? = some (.polled (.ok false))) (id : Nat) (changed : Bool) :
    (leaves (nextConflict id changed) y).Attended provider client root version := by
  unfold nextConflict
  refine leaves_bind (fun e z hz => breaks_incompatibility id h e z hz) fun i z hz => ?_
  obtain ⟨hi, rfl⟩ := eq_of_incompatibility hz
  rw [leaves_bind_of_ok (state_eq z)]
  split_ifs with hterm
  · have hnoted : (z.after (.noted (.terminal id i))).Attended provider client root version := h.note hlast
    rw [leaves_bind_of_ok (note_eq _ z)]
    refine leaves_bind (fun e y hy => breaks_ofExcept _ hnoted e y hy) fun _ y hy => ?_
    obtain ⟨-, rfl⟩ := eq_of_ofExcept hy
    exact hnoted
  · refine leaves_bind (fun e y hy => breaks_ofExcept _ h e y hy) fun found y hy => ?_
    obtain ⟨-, rfl⟩ := eq_of_ofExcept hy
    obtain ⟨p, previous | cause⟩ := found
    · refine leaves_bind (fun e z hz => ?_) fun _ z hz => ?_
      · exact breaks_backjump (Store.get_eq_ok_iff.mp hi) changed previous e z hz ▸ h
      obtain ⟨-, -, hv, level, affected, hlog⟩ := log_of_backjump hz
      have hback : (y.after (.noted (.backtracked level affected))).Attended provider client root version :=
        h.note hlast
      have hz : z.Attended provider client root version :=
        hback.of_plainly ⟨hv, [], by rw [hlog, y.toList_events_after, List.append_nil], by simp⟩
      refine hz.note ⟨level, affected, ?_⟩
      rw [hlog, List.getLast?_concat]
    · refine leaves_bind (fun e z hz => breaks_ofExcept _ h e z hz) fun r z hz => ?_
      obtain ⟨-, rfl⟩ := eq_of_ofExcept hz
      have halloc : ({ z with state := { z.state with store := (z.state.store.alloc r).1 } } :
          Session σ P V S M π E).Attended provider client root version :=
        h.of_plainly ⟨rfl, [], (List.append_nil _).symm, by simp⟩
      exact halloc.note hlast

theorem orderly_deduce (h : x.Orderly provider client root version) {φ : Phase P}
    (hφ : (∃ p, φ = .round p) ∨ Polled x.events.toList) :
    (leaves (deduce (poll provider) φ) x).Orderly provider client root version ∧
      ∀ φ' y, deduce (poll provider) φ x = .ok φ' y → Polled y.events.toList := by
  have hplain : ∀ {m : Solving σ P V S M π E (Phase P)}, Plain m → Polled x.events.toList →
      (leaves m x).Orderly provider client root version ∧
        ∀ φ' y, m x = .ok φ' y → Polled y.events.toList := by
    intro m hm hpolled
    have hx : x.Attended provider client root version := ⟨h, hpolled⟩
    have hy := hx.of_plainly (hm x)
    refine ⟨hy.toOrderly, fun φ' y hok => ?_⟩
    rw [leaves_of_ok hok] at hy
    exact hy.polled
  have hpoll : ∀ {y}, poll provider x = .ok () y → y.Attended provider client root version ∧
      y.events.toList.getLast? = some (.polled (.ok false)) := by
    intro y hy
    have horderly := h.of_plainly (plain_poll provider x)
    rw [leaves_of_ok hy] at horderly
    obtain ⟨-, hlog⟩ := log_of_poll hy
    exact ⟨⟨horderly, hlog ▸ polled_append_polled _⟩, by rw [hlog, List.getLast?_concat]⟩
  cases φ with
  | round p =>
    have hround : Plain (deduce (poll provider) (.round p)) :=
      (plain_poll provider).bind fun _ => plain_composes.pure _
    refine ⟨h.of_plainly (hround x), fun φ' y hok => ?_⟩
    obtain ⟨_, z, hz, hend⟩ := exists_of_bind hok
    cases hend
    exact (hpoll hz).1.polled
  | propagate waiting =>
    refine hplain ?_ (hφ.resolve_left (by simp))
    cases waiting with
    | nil => exact plain_composes.pure _
    | cons p waiting => exact plain_composes.state.bind fun _ => plain_composes.pure _
  | scan ids waiting =>
    exact hplain (plain_composes.nextId (fun _ _ _ _ => rfl) ids waiting) (hφ.resolve_left (by simp))
  | conflict id changed =>
    have hstep : ∀ {y}, poll provider x = .ok () y →
        (leaves (nextConflict id changed) y).Attended provider client root version := fun hy =>
      attended_nextConflict (hpoll hy).1 (hpoll hy).2 id changed
    refine ⟨leaves_bind (fun e y he => ?_) fun _ y hy => (hstep hy).toOrderly, fun φ' y hok => ?_⟩
    · have hy := h.of_plainly (plain_poll provider x)
      rwa [leaves_of_error he] at hy
    · obtain ⟨_, z, hz, hend⟩ := exists_of_bind hok
      have hy := hstep hz
      rw [leaves_of_ok hend] at hy
      exact hy.polled
  | learned p id =>
    exact hplain ((plain_composes.deriveFrom (fun _ _ _ _ => rfl) p id).bind fun _ => plain_composes.pure _)
      (hφ.resolve_left (by simp))
  | decide => exact hplain (plain_composes.pure _) (hφ.resolve_left (by simp))

/-! ## Decisions -/

theorem orderly_tryVersion (h : x.Orderly provider client root version) {p : P} {versions : S} {v : V}
    (hlast : x.events.toList.getLast? = some (.chose p versions (.ok (some v))))
    (hnew : v ∉ (x.visited.get? p).getD []) :
    (leaves (tryVersion provider p v) { x with visited := x.visit p v }).Orderly provider client root
      version := by
  have hasked : ∀ answer : Except E (Dependencies P S M), ∀ c,
      (({ x with visited := x.visit p v, client := c } : Session σ P V S M π E).after
        (.retrieved p v answer)).Orderly provider client root version := fun answer c =>
    h.retrieve hlast hnew rfl Array.toList_push
  unfold tryVersion askDependencies
  rw [bind_assoc, leaves_bind_of_ok (ask_eq ..)]
  cases (provider.dependencies p v x.client).1 with
  | error fault => exact hasked _ _
  | ok answer =>
    rw [pure_bind]
    cases answer with
    | unavailable reason =>
      have hplain : Plain (do
          note (.unavailable p v reason)
          let _ ← insert (.unusableVersion p v reason) : Solving σ P V S M π E Unit) :=
        (plain_composes.note rfl).bind fun _ => (plain_composes.insert _).bind fun _ => plain_composes.pure _
      exact (hasked _ _).of_plainly (hplain _)
    | available requirements =>
      have hplain : Plain (do
          let ids ← insertDependencies p v requirements.entries
          let _ ← decideUnless p v ids : Solving σ P V S M π E Unit) :=
        (plain_composes.insertDependencies p v _).bind fun ids =>
          (plain_composes.decideUnless (fun _ _ _ => rfl) (fun _ _ _ => rfl) p v ids).bind fun _ =>
            plain_composes.pure _
      exact (hasked _ _).of_plainly (hplain _)

/-- The provider answered with a version outside of those it was asked for, and the step broke off with
nothing else done. -/
structure Strays (r : EStateM.Result (Failure P V S E) (Session σ P V S M π E) α) (y : Session σ P V S M π E)
    (p : P) (versions : S) (v : V) : Prop where
  outside : VersionSet.contains versions v = false
  result : ∃ z, r = .error (.violation (.choseOutside p v versions)) z ∧ z.state = y.state ∧
    z.events.toList = y.events.toList ++ [.chose p versions (.ok (some v))]

theorem orderly_decidePackage {p : P} {versions : S} (h : y.Attended provider client root version)
    (hc : Choosing provider client root version y p versions) :
    (leaves (decidePackage provider p (.positive versions)) y).Orderly provider client root version ∨
      ∃ v, Strays (decidePackage provider p (.positive versions) y) y p versions v := by
  have hasked : ∀ answer : Except E (Option V), (∀ v, answer = .ok (some v) →
      VersionSet.contains versions v = true) → ∀ c,
      (({ y with client := c } : Session σ P V S M π E).after (.chose p versions answer)).Orderly provider
        client root version := fun answer hin c => .choose h hc hin rfl Array.toList_push
  unfold decidePackage
  have hpositive : (ofExcept (Term.positive versions).positiveVersions : Solving σ P V S M π E S) y =
      .ok versions y := rfl
  rw [leaves_bind_of_ok hpositive, bind_of_ok hpositive]
  unfold askVersion
  rw [bind_assoc, leaves_bind_of_ok (ask_eq ..), bind_of_ok (ask_eq ..)]
  cases (provider.chooseVersion p versions y.client).1 with
  | error fault => exact Or.inl (hasked _ (by simp) _)
  | ok answer =>
    rw [pure_bind]
    cases answer with
    | none =>
      have hplain : Plain (do
          note (.noVersions p versions)
          let _ ← insert (← ofExcept (Incompatibility.noVersions p (.positive versions))) :
            Solving σ P V S M π E Unit) :=
        (plain_composes.note rfl).bind fun _ => (plain_composes.ofExcept _).bind fun _ =>
          (plain_composes.insert _).bind fun _ => plain_composes.pure _
      exact Or.inl ((hasked _ (by simp) _).of_plainly (hplain _))
    | some v =>
      dsimp only
      by_cases hin : VersionSet.contains versions v = true
      · rw [if_pos (show (Term.positive versions).contains v = true from hin)]
        left
        have hchosen : (({ y with client := (provider.chooseVersion p versions y.client).2 } :
            Session σ P V S M π E).after (.chose p versions (.ok (some v)))).Orderly provider client root
              version := by
          refine hasked _ (fun w hw => ?_) _
          cases hw
          exact hin
        unfold useVersion
        rw [leaves_bind_of_ok (get_eq _)]
        dsimp only
        split_ifs with hseen
        · exact hchosen.of_plainly (plain_composes.decide (fun _ _ _ => rfl) p v _)
        · exact orderly_tryVersion hchosen (by rw [Session.toList_events_after, List.getLast?_concat]) hseen
      · have hterm : ¬ (Term.positive versions).contains v = true := hin
        rw [if_neg hterm]
        exact Or.inr ⟨v, Bool.eq_false_of_not_eq_true hin, _, rfl, rfl, Array.toList_push⟩

omit [DecidableEq P] [DecidableEq V] [DecidableEq S] [LT π] [DecidableLT π] in
theorem Strays.bind {β : Type} {m : Solving σ P V S M π E α} {f : α → Solving σ P V S M π E β} {p : P}
    {versions : S} {v : V} (h : Strays (m x) y p versions v) : Strays ((m >>= f) x) y p versions v where
  outside := h.outside
  result := by
    obtain ⟨z, hz, hrest⟩ := h.result
    exact ⟨z, bind_of_error hz, hrest⟩

theorem orderly_decideNext (hx : Reached provider client root version x .decide)
    (h : x.Attended provider client root version) :
    (leaves (decideNext provider) x).Orderly provider client root version ∧
        (∀ φ' y, decideNext provider x = .ok (.inr φ') y → ∃ p, φ' = .round p) ∨
      ∃ y p versions v, y.Attended provider client root version ∧
        Choosing provider client root version y p versions ∧ Strays (decideNext provider x) y p versions v := by
  have hpicked := h.of_plainly (plain_composes.pickPackage (plain_askPriority provider) x)
  have hspec := pickPackage_spec provider x
  unfold decideNext
  cases hpick : pickPackage provider x with
  | error e y =>
    rw [leaves_of_error hpick] at hpicked
    rw [leaves_of_error (bind_of_error hpick), bind_of_error hpick]
    exact Or.inl ⟨hpicked.toOrderly, nofun⟩
  | ok picked y =>
    rw [leaves_of_ok hpick] at hpicked
    rw [hpick] at hspec
    rw [leaves_bind_of_ok hpick, bind_of_ok hpick]
    obtain ⟨hs, -, -, hsome⟩ := hspec
    cases picked with
    | none => exact Or.inl ⟨(hpicked.note (n := .solved _) trivial).toOrderly, nofun⟩
    | some p =>
      obtain ⟨versions, hpending⟩ := isPending_of_mem (hsome p rfl)
      rw [← hs] at hpending
      have hc : Choosing provider client root version y p versions :=
        ⟨⟨x, hx, hpick, hs⟩, hpending, hpending.term?_eq⟩
      dsimp only
      rw [leaves_bind_of_ok (state_eq y), bind_of_ok (state_eq y), hc.term]
      rcases orderly_decidePackage hpicked hc with horderly | ⟨v, hstrays⟩
      · refine Or.inl ⟨leaves_bind (fun e z he => ?_) fun _ z hz => ?_, fun φ' z hok => ?_⟩
        · rwa [leaves_of_error he] at horderly
        · rwa [leaves_of_ok hz] at horderly
        · obtain ⟨_, z, -, hend⟩ := exists_of_bind hok
          cases hend
          exact ⟨p, rfl⟩
      · exact Or.inr ⟨y, p, versions, v, hpicked, hc, hstrays.bind⟩

/-- What a step leaves is in good order, unless the provider strays from what it was asked for; and if the run
goes on, a round begins or the provider was asked whether to give up since the last one began. -/
theorem orderly_step {φ : Phase P} (hx : Reached provider client root version x φ)
    (h : x.Orderly provider client root version) (hφ : (∃ p, φ = .round p) ∨ Polled x.events.toList) :
    (leaves (step provider φ) x).Orderly provider client root version ∧
        (∀ φ' y, step provider φ x = .ok (.inr φ') y → (∃ p, φ' = .round p) ∨ Polled y.events.toList) ∨
      ∃ y p versions v, y.Attended provider client root version ∧
        Choosing provider client root version y p versions ∧ Strays (step provider φ x) y p versions v := by
  unfold step
  split_ifs with hne
  · subst hne
    refine (orderly_decideNext hx ⟨h, hφ.resolve_left (by simp)⟩).imp_left fun hdecide => ?_
    exact ⟨hdecide.1, fun φ' y hok => Or.inl (hdecide.2 φ' y hok)⟩
  · obtain ⟨horderly, hpolled⟩ := orderly_deduce h hφ
    refine Or.inl ⟨leaves_bind (fun e y he => ?_) fun φ' y hok => ?_, fun φ' y hok => ?_⟩
    · rwa [leaves_of_error he] at horderly
    · rwa [leaves_of_ok hok] at horderly
    · obtain ⟨φ'', z, hdeduce, hend⟩ := exists_of_bind hok
      cases hend
      exact Or.inr (hpolled _ _ hdeduce)

end steps

end Solving

/-! ## Runs -/

section runs

variable [DecidableEq P] [DecidableEq V] [DecidableEq S] [VersionSet S V] [LT π] [DecidableLT π]
  {provider : Provider σ P V S M π E} {client : σ} {root : P} {version : V}

theorem Reached.orderly {x : Session σ P V S M π E} {φ : Phase P}
    (h : Reached provider client root version x φ) :
    x.Orderly provider client root version ∧ ((∃ p, φ = .round p) ∨ Polled x.events.toList) := by
  induction h with
  | start => exact ⟨⟨disciplined_nil, nofun, nofun⟩, Or.inl ⟨root, rfl⟩⟩
  | @step x y φ φ' hx hs ih =>
    rcases Solving.orderly_step hx ih.1 ih.2 with ⟨horderly, hpolled⟩ | ⟨_, _, _, _, -, -, hstrays⟩
    · rw [Solving.leaves_of_ok hs] at horderly
      exact ⟨horderly, hpolled _ _ hs⟩
    · obtain ⟨z, hz, -⟩ := hstrays.result
      cases hs.symm.trans hz

/-- What a run leaves behind is in good order, unless the provider strayed from what it was asked for: then
the run ended there, with the state that it had before the question. -/
theorem Ends.orderly {x : Session σ P V S M π E} {φ : Phase P} {outcome : Outcome σ P V S M π E}
    (hends : Ends provider x φ outcome) (h : Reached provider client root version x φ) :
    outcome.2.Orderly provider client root version ∨
      ∃ y p versions v, y.Attended provider client root version ∧
        Choosing provider client root version y p versions ∧ VersionSet.contains versions v = false ∧
        outcome.1 = .error (.violation (.choseOutside p v versions)) ∧ outcome.2.state = y.state ∧
        outcome.2.events.toList = y.events.toList ++ [.chose p versions (.ok (some v))] := by
  obtain ⟨horderly, hpolled⟩ := h.orderly
  cases hends with
  | outOfSteps => exact Or.inl horderly
  | @broken f z hs =>
    rcases Solving.orderly_step h horderly hpolled with ⟨hz, -⟩ | ⟨y, p, versions, v, hy, hc, hstrays⟩
    · exact Or.inl (Solving.leaves_of_error hs ▸ hz)
    · obtain ⟨z', hz', hstate, hlog⟩ := hstrays.result
      cases hs.symm.trans hz'
      exact Or.inr ⟨y, p, versions, v, hy, hc, hstrays.outside, rfl, hstate, hlog⟩
  | @solved solution z hs =>
    rcases Solving.orderly_step h horderly hpolled with ⟨hz, -⟩ | ⟨_, _, _, _, -, -, hstrays⟩
    · exact Or.inl (Solving.leaves_of_ok hs ▸ hz)
    · obtain ⟨z', hz', -⟩ := hstrays.result
      cases hs.symm.trans hz'

theorem Choosing.ne_empty [LawfulVersionSet S V] {y : Session σ P V S M π E} {p : P} {versions : S}
    (h : Choosing provider client root version y p versions) (hproper : provider.AnswersProper) :
    versions ≠ VersionSet.empty := by
  rintro rfl
  obtain ⟨x, hx, -, hs⟩ := h.picked
  rcases hx.cases (I := fun _ _ _ => True) hproper (fun _ => trivial) fun _ _ _ _ => trivial with
    hfresh | ⟨t, hinv, -⟩
  · exact hfresh.ne_decide rfl
  · obtain ⟨w, hw⟩ := hinv.consistent p
    rw [hinv.allows_iff (hs ▸ h.pending)] at hw
    cases w with
    | none => exact hw
    | some w => exact w.not_in_empty hw

/-- The log of a run keeps to the discipline, with any provider. No version is chosen in the empty set. An
answer outside of the versions that were asked for is the last thing that happens: the run ends with a
violation, and with the state that it had before the question. -/
theorem resolveWithin_disciplined [LawfulVersionSet S V] (steps : Nat) (provider : Provider σ P V S M π E)
    (client : σ) (root : P) (version : V) :
    Disciplined provider client root version
        (resolveWithin steps provider client root version).2.events.toList ∧
      (provider.AnswersProper → ∀ p versions answer,
        .chose p versions answer ∈ (resolveWithin steps provider client root version).2.events.toList →
        versions ≠ VersionSet.empty) ∧
      ∀ before p versions v after, (resolveWithin steps provider client root version).2.events.toList =
          before ++ .chose p versions (.ok (some v)) :: after → VersionSet.contains versions v = false →
        after = [] ∧
        (resolveWithin steps provider client root version).1 =
          .error (.violation (.choseOutside p v versions)) ∧
        ∃ y, Choosing provider client root version y p versions ∧ y.events.toList = before ∧
          (resolveWithin steps provider client root version).2.state = y.state := by
  obtain ⟨x, φ, hx, hends⟩ := resolveWithin_ends_at provider client root version steps
  have hdisciplined : Disciplined provider client root version
      (resolveWithin steps provider client root version).2.events.toList := by
    rcases hends.orderly hx with horderly | ⟨y, p, versions, v, hy, hc, -, -, -, hlog⟩
    · exact horderly.disciplined
    · rw [hlog, disciplined_append_singleton]
      exact ⟨hy.disciplined, hy.polled, y, hc, rfl⟩
  refine ⟨hdisciplined, fun hproper p versions answer he => ?_, fun before p versions v after hlog hout => ?_⟩
  · obtain ⟨before, after, hlog⟩ := List.append_of_mem he
    obtain ⟨-, y, hc, -⟩ := hdisciplined before _ after hlog
    exact hc.ne_empty hproper
  · have hno : ∀ {z : Session σ P V S M π E}, z.Orderly provider client root version →
        .chose p versions (.ok (some v)) ∉ z.events.toList := by
      intro z hz he
      rw [hz.inside p versions v he] at hout
      cases hout
    rcases hends.orderly hx with horderly | ⟨y, q, versions', w, hy, hc, -, herror, hstate, hlast⟩
    · exact absurd (hlog ▸ by simp) (hno horderly)
    · rw [hlast] at hlog
      rcases List.eq_nil_or_concat after with rfl | ⟨rest, e, rfl⟩
      · obtain ⟨hbefore, hsame⟩ := List.append_inj' hlog rfl
        cases hsame
        exact ⟨rfl, herror, y, hc, hbefore, hstate⟩
      · -- the answer would have been given before the last question
        have hall : y.events.toList ++ [.chose q versions' (.ok (some w))] =
            (before ++ .chose p versions (.ok (some v)) :: rest) ++ [e] := by simpa using hlog
        exact absurd ((List.append_inj' hall rfl).1 ▸ by simp) (hno hy.toOrderly)

end runs

/-- A question in which versions to choose one of a package, with the answer. -/
def Event.chosen? : Event P V S M π E → Option (P × S × Option V)
  | .chose p versions (.ok answer) => some (p, versions, answer)
  | _ => none

/-- A provider that always chooses version 1, also of package 1, of which the root needs a later one. -/
def Provider.stubborn : Provider Unit Nat Nat (Ranges Nat) Unit Nat String where
  prioritize _ _ s := (.ok 0, s)
  chooseVersion _ _ s := (.ok (some 1), s)
  dependencies _ _ s := (.ok (.available (.single 1 (.atLeast 2))), s)
  shouldCancel s := (.ok false, s)

/-- Version 1 is chosen of the root and then of package 1, where it ends the run. -/
theorem resolveWithin_disciplined_stubborn :
    (resolveWithin 30 Provider.stubborn () 0 1).1 =
        .error (.violation (.choseOutside 1 1 (Ranges.atLeast 2))) ∧
      (∀ p versions answer, .chose p versions answer ∈
        (resolveWithin 30 Provider.stubborn () 0 1).2.events.toList → versions ≠ VersionSet.empty) ∧
      ∃ y, Choosing Provider.stubborn () 0 1 y 1 (Ranges.atLeast 2) ∧ Polled y.events.toList ∧
        (resolveWithin 30 Provider.stubborn () 0 1).2.state = y.state := by
  have hlast : (resolveWithin 30 Provider.stubborn () 0 1).2.events.toList.getLast?.bind Event.chosen? =
      some (1, Ranges.atLeast 2, some 1) := by decide +kernel
  have hproper : Provider.stubborn.AnswersProper := by
    rintro p v requirements - ⟨c, hd⟩
    cases Except.ok.inj hd
    exact PackageTable.proper_single_atLeast 1 2
  obtain ⟨e, he, hchosen⟩ := Option.bind_eq_some_iff.mp hlast
  obtain ⟨before, hlog⟩ := List.getLast?_eq_some_iff.mp he
  obtain ⟨hdisciplined, hempty, hstray⟩ := resolveWithin_disciplined 30 Provider.stubborn () 0 1
  cases e with
  | polled | prioritized | retrieved | noted => cases hchosen
  | chose p versions answer =>
    cases answer with
    | error fault => cases hchosen
    | ok v =>
      obtain ⟨rfl, hrest⟩ := Prod.mk.inj (Option.some.inj hchosen)
      obtain ⟨rfl, rfl⟩ := Prod.mk.inj hrest
      obtain ⟨-, herror, y, hc, rfl, hstate⟩ := hstray before 1 (Ranges.atLeast 2) 1 [] hlog (by decide)
      exact ⟨herror, hempty hproper, y, hc, (hdisciplined _ _ _ hlog).1, hstate⟩

end DependencyResolution
