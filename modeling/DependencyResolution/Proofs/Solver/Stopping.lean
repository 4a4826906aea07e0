import DependencyResolution.Proofs.Solver.Composition
import DependencyResolution.Version.Ranges.Basic

/-!
# Answers that end a run

The provider ends a run by a fault in answer to any of the four questions, and by answering that the
solver should give up. At such an answer the run breaks off: nothing is asked or noted afterwards, and the
failure with which it ends is the one that the answer stands for (`resolveWithin_stops`). The fault is the
cause of that failure, which says what was asked for, except that a fault in a priority comes through as
it is (`prioritizing_not_wrapped`).

The log of a session is all that the provider was asked, in order: the questions lead from the provider's
state at the start to its state at the end (`Tells`).
-/

namespace DependencyResolution

variable {σ P V S M π E : Type}

/-! ## Faults and failures -/

def Event.fault? : Event P V S M π E → Option E
  | polled (.error e) => some e
  | prioritized _ _ (.error e) => some e
  | chose _ _ (.error e) => some e
  | retrieved _ _ (.error e) => some e
  | _ => none

/-- How a run ends that an answer ends, if it does. -/
def Event.ending? : Event P V S M π E → Option (Failure P V S E)
  | polled (.ok true) => some (.cancelled none)
  | polled (.error e) => some (.cancelled (some e))
  | prioritized _ _ (.error e) => some (.prioritizing e)
  | chose p _ (.error e) => some (.choosing p e)
  | retrieved p v (.error e) => some (.retrieving p v e)
  | _ => none

/-- The fault that a failure of the solver has as its cause. A fault in a priority is not the cause of a
failure but the failure itself. -/
def Failure.cause? : Failure P V S E → Option E
  | cancelled fault => fault
  | choosing _ e => some e
  | retrieving _ _ e => some e
  | _ => none

/-- A fault ends a run, as the cause of its failure unless it is a fault in a priority. -/
theorem Event.ending?_of_fault {e : Event P V S M π E} {fault : E} (h : e.fault? = some fault) :
    ∃ f, e.ending? = some f ∧ (f.cause? = some fault ∨ f = .prioritizing fault) := by
  rcases e with (_ | _) | ⟨p, s, _ | _⟩ | ⟨p, s, _ | _⟩ | ⟨p, v, _ | _⟩ | _
  case polled.error => exact ⟨_, rfl, Or.inl h⟩
  case prioritized.error => exact ⟨_, rfl, Or.inr (congrArg _ (Option.some.inj h))⟩
  case chose.error => exact ⟨_, rfl, Or.inl h⟩
  case retrieved.error => exact ⟨_, rfl, Or.inl h⟩
  all_goals cases h

/-! ## What the log tells -/

/-- What happened between two states of the provider: it was asked and answered, or the solver noted
something. -/
inductive Event.Leads (provider : Provider σ P V S M π E) : σ → Event P V S M π E → σ → Prop
  | polled (c : σ) : Leads provider c (.polled (provider.shouldCancel c).1) (provider.shouldCancel c).2
  | prioritized (c : σ) (p : P) (versions : S) :
      Leads provider c (.prioritized p versions (provider.prioritize p versions c).1)
        (provider.prioritize p versions c).2
  | chose (c : σ) (p : P) (versions : S) :
      Leads provider c (.chose p versions (provider.chooseVersion p versions c).1)
        (provider.chooseVersion p versions c).2
  | retrieved (c : σ) (p : P) (v : V) :
      Leads provider c (.retrieved p v (provider.dependencies p v c).1) (provider.dependencies p v c).2
  | noted (c : σ) (n : Note P V S M) : Leads provider c (.noted n) c

/-- The events are all that happened between two states of the provider, in order. -/
inductive Tells (provider : Provider σ P V S M π E) : σ → List (Event P V S M π E) → σ → Prop
  | nil (c : σ) : Tells provider c [] c
  | cons {c c' c'' : σ} {e : Event P V S M π E} {events : List (Event P V S M π E)}
      (h : e.Leads provider c c') (ht : Tells provider c' events c'') : Tells provider c (e :: events) c''

theorem Tells.append {provider : Provider σ P V S M π E} {c c' c'' : σ}
    {events events' : List (Event P V S M π E)} (h : Tells provider c events c')
    (h' : Tells provider c' events' c'') : Tells provider c (events ++ events') c'' := by
  induction h with
  | nil => exact h'
  | cons he _ ih => exact .cons he (ih h')

/-- No event ends the run but the last one, and that only with the failure for which it stands. -/
inductive Ending : List (Event P V S M π E) → Option (Failure P V S E) → Prop
  /-- The provider let the solver go on, -/
  | free {events : List (Event P V S M π E)} {f : Option (Failure P V S E)}
      (h : ∀ e ∈ events, e.ending? = none) (hf : ∀ g ∈ f, g.fromProvider = false) : Ending events f
  /-- or it stopped it. -/
  | stopped {events : List (Event P V S M π E)} {e : Event P V S M π E} {f : Failure P V S E}
      (h : ∀ e ∈ events, e.ending? = none) (he : e.ending? = some f) : Ending (events ++ [e]) (some f)

section ending

variable {events events' : List (Event P V S M π E)} {f : Option (Failure P V S E)}

theorem Ending.quiet (h : Ending events none) : ∀ e ∈ events, e.ending? = none := by
  cases h with
  | free h => exact h

theorem Ending.append (h : Ending events none) (h' : Ending events' f) : Ending (events ++ events') f := by
  have hquiet : ∀ {more : List (Event P V S M π E)}, (∀ e ∈ more, e.ending? = none) →
      ∀ e ∈ events ++ more, e.ending? = none := by
    intro more hmore e he
    exact (List.mem_append.mp he).elim (h.quiet e) (hmore e)
  cases h' with
  | free hmore hf => exact .free (hquiet hmore) hf
  | stopped hmore he =>
    rw [← List.append_assoc]
    exact .stopped (hquiet hmore) he

theorem Ending.eq_nil_of_ending {before after : List (Event P V S M π E)} {e : Event P V S M π E}
    {g : Failure P V S E} (h : Ending (before ++ e :: after) f) (he : e.ending? = some g) :
    after = [] ∧ f = some g := by
  generalize hall : before ++ e :: after = all at h
  cases h with
  | free hquiet =>
    have := hquiet e (hall ▸ by simp)
    rw [he] at this
    cases this
  | @stopped events last g' hquiet hlast =>
    rcases List.eq_nil_or_concat after with rfl | ⟨rest, a, rfl⟩
    · obtain ⟨-, hsame⟩ := List.append_inj' hall rfl
      cases hsame
      exact ⟨rfl, hlast.symm.trans he⟩
    · -- the event would stand before the last one
      have hinit : before ++ e :: rest = events := by
        have hall' : (before ++ e :: rest) ++ [a] = events ++ [last] := by simpa using hall
        exact (List.append_inj' hall' rfl).1
      have := hquiet e (hinit ▸ by simp)
      rw [he] at this
      cases this

/-- A failure that is the provider's comes of the last event. -/
theorem Ending.exists_last {g : Failure P V S E} (h : Ending events (some g)) (hg : g.fromProvider = true) :
    ∃ before e, events = before ++ [e] ∧ e.ending? = some g := by
  cases h with
  | free _ hf =>
    rw [hf g rfl] at hg
    cases hg
  | stopped _ he => exact ⟨_, _, rfl, he⟩

end ending

/-- Between two sessions everything that happened was logged, up to the failure `f` if there was one, and the
provider was asked nothing more once it stopped the run. -/
def Session.Heeded (provider : Provider σ P V S M π E) (x y : Session σ P V S M π E)
    (f : Option (Failure P V S E)) : Prop :=
  ∃ events, y.events.toList = x.events.toList ++ events ∧ Tells provider x.client events y.client ∧
    Ending events f

section heeded

variable {provider : Provider σ P V S M π E} {x y z : Session σ P V S M π E} {f : Option (Failure P V S E)}

theorem Session.heeded_nil (hclient : y.client = x.client) (hevents : y.events = x.events)
    (hf : ∀ g ∈ f, g.fromProvider = false) : x.Heeded provider y f := by
  refine ⟨[], by rw [hevents, List.append_nil], ?_, .free (by simp) hf⟩
  rw [hclient]
  exact .nil _

theorem Session.heeded_after {c : σ} {e : Event P V S M π E} (h : e.Leads provider x.client c)
    (hf : Ending [e] f) :
    x.Heeded provider { x with client := c, events := x.events.push e } f :=
  ⟨[e], Array.toList_push, .cons h (.nil c), hf⟩

theorem Session.Heeded.trans (h : x.Heeded provider y none) (h' : y.Heeded provider z f) :
    x.Heeded provider z f := by
  obtain ⟨events, hevents, htells, hending⟩ := h
  obtain ⟨events', hevents', htells', hending'⟩ := h'
  exact ⟨events ++ events', by rw [hevents', hevents, List.append_assoc], htells.append htells',
    hending.append hending'⟩

end heeded

namespace Solving

/-! ## Operations -/

variable {α β : Type}

/-- The operation logs all that happens and asks a provider that stops it nothing more. -/
def Heeds (provider : Provider σ P V S M π E) (m : Solving σ P V S M π E α) : Prop :=
  ∀ x, match m x with
    | .ok _ y => x.Heeded provider y none
    | .error f y => x.Heeded provider y (some f)

theorem heeds_bind {provider : Provider σ P V S M π E} {m : Solving σ P V S M π E α}
    {f : α → Solving σ P V S M π E β} (hm : Heeds provider m) (hf : ∀ a, Heeds provider (f a)) :
    Heeds provider (m >>= f) := by
  intro x
  have h := hm x
  simp only [Bind.bind, EStateM.bind]
  cases hx : m x with
  | error e y =>
    rw [hx] at h
    exact h
  | ok a y =>
    rw [hx] at h
    have h' := hf a y
    dsimp only
    cases hy : f a y with
    | ok b z =>
      rw [hy] at h'
      exact h.trans h'
    | error e z =>
      rw [hy] at h'
      exact h.trans h'

theorem heeds_composes (provider : Provider σ P V S M π E) :
    Composes fun {α} (m : Solving σ P V S M π E α) => Heeds provider m where
  pure _ _ := Session.heeded_nil rfl rfl (by simp)
  bind := heeds_bind
  throw hf _ := Session.heeded_nil rfl rfl (by simpa using hf)
  get _ := Session.heeded_nil rfl rfl (by simp)
  modify hf x := Session.heeded_nil (hf x).1 (hf x).2 (by simp)
  note n x := Session.heeded_after (.noted x.client n) (.free (by simp [Event.ending?]) (by simp))

/-! ## Questions -/

/-- A question is heeded if what follows it breaks off as its answer says, and else does nothing. -/
theorem heeds_ask {question : σ → Except E β × σ} {event : Except E β → Event P V S M π E}
    {next : Except E β → Solving σ P V S M π E α}
    (hleads : ∀ c, (event (question c).1).Leads provider c (question c).2)
    (hstop : ∀ answer f, (event answer).ending? = some f → next answer = MonadExcept.throw f)
    (hgo : ∀ answer, (event answer).ending? = none → ∃ a, next answer = pure a) :
    Heeds provider (ask question event >>= next) := by
  intro x
  have hasked : (ask question event >>= next) x =
      next (question x.client).1 { x with
        client := (question x.client).2, events := x.events.push (event (question x.client).1) } := rfl
  rw [hasked]
  cases he : (event (question x.client).1).ending? with
  | some f =>
    have hlast : Ending ([] ++ [event (question x.client).1]) (some f) := .stopped (by simp) he
    rw [hstop _ f he]
    exact Session.heeded_after (hleads x.client) hlast
  | none =>
    obtain ⟨a, ha⟩ := hgo _ he
    rw [ha]
    exact Session.heeded_after (hleads x.client) (.free (by simpa using he) (by simp))

theorem heeds_questions (provider : Provider σ P V S M π E) :
    OfQuestions (fun {α} (m : Solving σ P V S M π E α) => Heeds provider m) provider where
  poll := by
    refine heeds_ask .polled (fun answer f hf => ?_) fun answer ha => ?_
    · rcases answer with e | _ | _ <;> cases hf <;> rfl
    · rcases answer with e | _ | _
      · cases ha
      · exact ⟨(), rfl⟩
      · cases ha
  priority p versions := by
    refine heeds_ask (.prioritized · p versions) (fun answer f hf => ?_) fun answer ha => ?_
    · cases answer <;> cases hf
      rfl
    · cases answer with
      | error e => cases ha
      | ok r => exact ⟨r, rfl⟩
  version p versions := by
    refine heeds_ask (.chose · p versions) (fun answer f hf => ?_) fun answer ha => ?_
    · cases answer <;> cases hf
      rfl
    · cases answer with
      | error e => cases ha
      | ok v => exact ⟨v, rfl⟩
  dependencies p v := by
    refine heeds_ask (.retrieved · p v) (fun answer f hf => ?_) fun answer ha => ?_
    · cases answer <;> cases hf
      rfl
    · cases answer with
      | error e => cases ha
      | ok d => exact ⟨d, rfl⟩

end Solving

/-! ## Runs -/

section runs

variable [DecidableEq P] [DecidableEq V] [DecidableEq S] [VersionSet S V] [LT π] [DecidableLT π]

/-- A run logs all that happens and ends as the log says. -/
theorem heeded_resolveWithin (steps : Nat) (provider : Provider σ P V S M π E) (client : σ) (root : P)
    (version : V) : ∃ f,
      (Session.start (.start root version) client).Heeded provider
        (resolveWithin steps provider client root version).2 f ∧
      ∀ g, (resolveWithin steps provider client root version).1 = .error g ↔ f = some g := by
  have h := (Solving.heeds_composes provider).solveFrom (Solving.heeds_questions provider) steps
    (.round root) (.start (.start root version) client)
  unfold resolveWithin
  cases hrun : Solving.solveFrom provider steps (.round root) (.start (.start root version) client) with
  | ok solution y =>
    rw [hrun] at h
    exact ⟨none, h, by simp⟩
  | error f y =>
    rw [hrun] at h
    exact ⟨some f, h, by simp⟩

/-- The log of a run is all that the provider was asked. The answer that the solver should give up, or a fault,
is the last event in it, and the run ends with the failure for which that answer stands: one that has the
fault as its cause, unless it is a fault in a priority. With a failure that is the provider's a run ends in no
other way. -/
theorem resolveWithin_stops (steps : Nat) (provider : Provider σ P V S M π E) (client : σ) (root : P)
    (version : V) :
    Tells provider client (resolveWithin steps provider client root version).2.events.toList
        (resolveWithin steps provider client root version).2.client ∧
      (∀ before e after f,
        (resolveWithin steps provider client root version).2.events.toList = before ++ e :: after →
        e.ending? = some f →
        after = [] ∧ (resolveWithin steps provider client root version).1 = .error f) ∧
      (∀ e ∈ (resolveWithin steps provider client root version).2.events.toList, ∀ fault,
        e.fault? = some fault → ∃ f, e.ending? = some f ∧
          (resolveWithin steps provider client root version).1 = .error f ∧
            (f.cause? = some fault ∨ f = .prioritizing fault)) ∧
      ∀ f, (resolveWithin steps provider client root version).1 = .error f → f.fromProvider = true →
        ∃ before e, (resolveWithin steps provider client root version).2.events.toList = before ++ [e] ∧
          e.ending? = some f := by
  obtain ⟨end?, ⟨events, hevents, htells, hending⟩, herror⟩ :=
    heeded_resolveWithin steps provider client root version
  obtain rfl : _ = events := hevents
  refine ⟨htells, fun before e after f hlog he => ?_, fun e he fault hfault => ?_,
    fun f hf hprovider => ?_⟩
  · rw [hlog] at hending
    obtain ⟨hafter, hend⟩ := hending.eq_nil_of_ending he
    exact ⟨hafter, (herror f).mpr hend⟩
  · obtain ⟨before, after, hlog⟩ := List.append_of_mem he
    rw [hlog] at hending
    obtain ⟨f, hf, hcause⟩ := Event.ending?_of_fault hfault
    exact ⟨f, hf, (herror f).mpr (hending.eq_nil_of_ending hf).2, hcause⟩
  · rw [(herror f).mp hf] at hending
    exact hending.exists_last hprovider

end runs

/-- A provider that counts its questions and has lost what package 1 depends on. -/
def Provider.forgetful : Provider Nat Nat Nat (Ranges Nat) Unit Nat String where
  prioritize _ _ n := (.ok 0, n + 1)
  chooseVersion _ _ n := (.ok (some 1), n + 1)
  dependencies p _ n := (if p = 0 then .ok (.available (.single 1 .full)) else .error "lost", n + 1)
  shouldCancel n := (.ok false, n + 1)

/-- The eighth question is the last one. -/
theorem resolveWithin_stops_forgetful :
    ∃ before e, (resolveWithin 30 Provider.forgetful 0 0 1).2.events.toList = before ++ [e] ∧
      e.ending? = some (.retrieving 1 1 "lost") ∧
      (resolveWithin 30 Provider.forgetful 0 0 1).1 = .error (.retrieving 1 1 "lost") ∧
      (resolveWithin 30 Provider.forgetful 0 0 1).2.client = 8 := by
  have hlast : (resolveWithin 30 Provider.forgetful 0 0 1).2.events.toList.getLast?.bind Event.ending? =
      some (.retrieving 1 1 "lost") := by decide +kernel
  obtain ⟨e, he, hending⟩ := Option.bind_eq_some_iff.mp hlast
  obtain ⟨before, hlog⟩ := List.getLast?_eq_some_iff.mp he
  obtain ⟨-, hstops, -, -⟩ := resolveWithin_stops 30 Provider.forgetful 0 0 1
  exact ⟨before, e, hlog, hending, (hstops before e [] _ hlog hending).2, by decide +kernel⟩

/-- A provider that cannot say how urgent any package is. -/
def Provider.undecided : Provider Unit Nat Nat (Ranges Nat) Unit Nat String where
  prioritize _ _ s := (.error "out of reach", s)
  chooseVersion _ _ s := (.ok (some 1), s)
  dependencies _ _ s := (.ok (.available .empty), s)
  shouldCancel s := (.ok false, s)

/-- Not every fault is the cause of the failure with which the run ends: a fault in a priority is that
failure. -/
theorem prioritizing_not_wrapped :
    ¬ ∀ e ∈ (resolveWithin 30 Provider.undecided () 0 1).2.events, ∀ fault, e.fault? = some fault →
      ∃ f, (resolveWithin 30 Provider.undecided () 0 1).1 = .error f ∧ f.cause? = some fault := by
  intro h
  have hlast : (resolveWithin 30 Provider.undecided () 0 1).2.events.toList.getLast?.bind Event.fault? =
      some "out of reach" := by decide +kernel
  have hend : (match (resolveWithin 30 Provider.undecided () 0 1).1 with
      | .ok _ => none
      | .error f => f.cause?) = none := by decide +kernel
  obtain ⟨e, he, hfault⟩ := Option.bind_eq_some_iff.mp hlast
  obtain ⟨f, hf, hcause⟩ := h e (Array.mem_toList_iff.mp (List.mem_of_getLast? he)) _ hfault
  rw [hf] at hend
  rw [show f.cause? = none from hend] at hcause
  cases hcause

end DependencyResolution
