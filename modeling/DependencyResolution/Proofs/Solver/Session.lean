import DependencyResolution.Proofs.Solver.Store
import DependencyResolution.Solver.Resolve

/-!
# Operations on sessions

`Ensures r Q F` says that an operation that ended with `r` gave what `Q` says or broke off as `F` says;
it is composed along `bind` (`Ensures.bind`). The questions to the provider are described here: what
they record, and that they leave the solver's state alone.

Of the events only the answers about versions matter for what the solver knows (`Session.answers`).
-/

namespace DependencyResolution

variable {σ P V S M π E : Type}

/-! ## Answers -/

def Event.isAnswer : Event P V S M π E → Bool
  | chose .. => true
  | retrieved .. => true
  | _ => false

namespace Session

def answers (x : Session σ P V S M π E) : List (Event P V S M π E) :=
  x.events.toList.filter Event.isAnswer

/-- The provider's word on versions has not changed, nor has the list of those that were asked for. -/
structure Quiet (x x' : Session σ P V S M π E) : Prop where
  visited : x'.visited = x.visited
  answers : x'.answers = x.answers

theorem Quiet.refl (x : Session σ P V S M π E) : Quiet x x := ⟨rfl, rfl⟩

theorem Quiet.trans {x y z : Session σ P V S M π E} (h : Quiet x y) (h' : Quiet y z) : Quiet x z :=
  ⟨h'.visited.trans h.visited, h'.answers.trans h.answers⟩

def after (x : Session σ P V S M π E) (e : Event P V S M π E) : Session σ P V S M π E :=
  { x with events := x.events.push e }

theorem answers_after (x : Session σ P V S M π E) (e : Event P V S M π E) :
    (x.after e).answers = x.answers ++ if e.isAnswer then [e] else [] := by
  unfold answers after
  rw [Array.toList_push, List.filter_append]
  cases h : e.isAnswer <;> simp [h]

theorem quiet_after (x : Session σ P V S M π E) {e : Event P V S M π E} (h : e.isAnswer = false) :
    Quiet x (x.after e) :=
  ⟨rfl, by simp [answers_after, h]⟩

theorem quiet_ask (x : Session σ P V S M π E) (c : σ) {e : Event P V S M π E} (h : e.isAnswer = false) :
    x.Quiet (({ x with client := c } : Session σ P V S M π E).after e) :=
  ⟨rfl, (quiet_after { x with client := c } h).answers⟩

theorem quiet_update (x : Session σ P V S M π E) (s : SolverState P V S M) {e : Event P V S M π E}
    (h : e.isAnswer = false) :
    x.Quiet (({ x with state := s } : Session σ P V S M π E).after e) :=
  ⟨rfl, (quiet_after { x with state := s } h).answers⟩

theorem mem_answers_iff {x : Session σ P V S M π E} {e : Event P V S M π E} (h : e.isAnswer = true) :
    e ∈ x.answers ↔ e ∈ x.events := by
  simp [answers, h]

theorem Quiet.mem_events_iff {x y : Session σ P V S M π E} (h : x.Quiet y) {e : Event P V S M π E}
    (he : e.isAnswer = true) : e ∈ y.events ↔ e ∈ x.events := by
  rw [← mem_answers_iff he, ← mem_answers_iff he, h.answers]

end Session

namespace Solving

/-! ## Running operations -/

section running

variable {α β : Type} {x x' : Session σ P V S M π E}

theorem bind_of_ok {m : Solving σ P V S M π E α} {f : α → Solving σ P V S M π E β} {a : α}
    (h : m x = .ok a x') : (m >>= f) x = f a x' := by
  simp only [bind, EStateM.bind, h]

theorem bind_of_error {m : Solving σ P V S M π E α} {f : α → Solving σ P V S M π E β} {e : Failure P V S E}
    (h : m x = .error e x') : (m >>= f) x = .error e x' := by
  simp only [bind, EStateM.bind, h]

theorem get_eq (x : Session σ P V S M π E) : (get : Solving σ P V S M π E _) x = .ok x x := rfl

theorem state_eq (x : Session σ P V S M π E) : (state : Solving σ P V S M π E _) x = .ok x.state x := rfl

theorem ofExcept_ok (a : α) (x : Session σ P V S M π E) :
    (ofExcept (.ok a) : Solving σ P V S M π E α) x = .ok a x := rfl

theorem exists_of_bind {m : Solving σ P V S M π E α} {f : α → Solving σ P V S M π E β} {b : β}
    (h : (m >>= f) x = .ok b x') : ∃ a y, m x = .ok a y ∧ f a y = .ok b x' := by
  simp only [Bind.bind, EStateM.bind] at h
  cases hm : m x with
  | ok a y =>
    rw [hm] at h
    exact ⟨a, y, rfl, h⟩
  | error e y =>
    rw [hm] at h
    cases h

theorem incompatibility_of_get? [DecidableEq P] {id : Nat} {i : Incompatibility P V S M}
    (h : x.state.store.get? id = some i) : (incompatibility id : Solving σ P V S M π E _) x = .ok i x := by
  unfold incompatibility
  rw [bind_of_ok (state_eq x),
    Store.get_eq_ok h]
  rfl

theorem note_eq (n : Note P V S M) (x : Session σ P V S M π E) :
    (note n : Solving σ P V S M π E Unit) x = .ok () (x.after (.noted n)) := rfl

theorem alloc_eq (i : Incompatibility P V S M) (x : Session σ P V S M π E) :
    (alloc i : Solving σ P V S M π E Nat) x = .ok x.state.store.size
      { x with state := { x.state with store := (x.state.store.alloc i).1 } } := rfl

theorem register_of_get? [DecidableEq P] {id : Nat} {i : Incompatibility P V S M}
    (h : x.state.store.get? id = some i) : (register id : Solving σ P V S M π E Unit) x =
      .ok () { x with state := { x.state with store := x.state.store.registered id } } := by
  unfold register
  rw [bind_of_ok (state_eq x), Store.register_eq_ok h]
  rfl

theorem unregister_of_get? [DecidableEq P] {id : Nat} {i : Incompatibility P V S M}
    (h : x.state.store.get? id = some i) : (unregister id : Solving σ P V S M π E Unit) x =
      .ok () { x with state := { x.state with store := x.state.store.unregistered id } } := by
  unfold unregister
  rw [bind_of_ok (state_eq x), Store.unregister_eq_ok h]
  rfl

/-- An operation ends with a result, or breaks off, as described. -/
def Ensures (r : EStateM.Result (Failure P V S E) (Session σ P V S M π E) α)
    (Q : α → Session σ P V S M π E → Prop) (F : Failure P V S E → Prop) : Prop :=
  match r with
  | .ok a x => Q a x
  | .error f _ => F f

instance {r : EStateM.Result (Failure P V S E) (Session σ P V S M π E) α}
    {Q : α → Session σ P V S M π E → Prop} {F : Failure P V S E → Prop} [∀ a x, Decidable (Q a x)]
    [∀ f, Decidable (F f)] : Decidable (Ensures r Q F) :=
  match r with
  | .ok a x => inferInstanceAs (Decidable (Q a x))
  | .error f _ => inferInstanceAs (Decidable (F f))

namespace Ensures

variable {Q Q' : α → Session σ P V S M π E → Prop} {F F' : Failure P V S E → Prop}

theorem mono {r : EStateM.Result (Failure P V S E) (Session σ P V S M π E) α} (h : Ensures r Q F)
    (hQ : ∀ a x, Q a x → Q' a x) (hF : ∀ f, F f → F' f) : Ensures r Q' F' := by
  cases r with
  | ok a x => exact hQ a x h
  | error f x => exact hF f h

theorem bind {m : Solving σ P V S M π E α} {f : α → Solving σ P V S M π E β}
    {R : β → Session σ P V S M π E → Prop} (h : Ensures (m x) Q F)
    (hf : ∀ a y, Q a y → Ensures (f a y) R F) : Ensures ((m >>= f) x) R F := by
  cases hm : m x with
  | ok a y =>
    rw [hm] at h
    rw [bind_of_ok hm]
    exact hf a y h
  | error e y =>
    rw [hm] at h
    rw [bind_of_error hm]
    exact h

end Ensures

end running

/-! ## Questions -/

section questions

variable (provider : Provider σ P V S M π E)

/-- How the provider can end a run. -/
inductive Stops : Failure P V S E → Prop
  | cancelled {c : σ} {fault : Option E} (h : (provider.shouldCancel c).1 ≠ .ok false) :
      Stops (.cancelled fault)
  | prioritizing {p : P} {versions : S} {c : σ} {e : E}
      (h : (provider.prioritize p versions c).1 = .error e) : Stops (.prioritizing e)
  | choosing {p : P} {versions : S} {c : σ} {e : E}
      (h : (provider.chooseVersion p versions c).1 = .error e) : Stops (.choosing p e)
  | retrieving {p : P} {v : V} {c : σ} {e : E} (h : (provider.dependencies p v c).1 = .error e) :
      Stops (.retrieving p v e)

theorem ask_eq {α : Type} (question : σ → Except E α × σ) (event : Except E α → Event P V S M π E)
    (x : Session σ P V S M π E) :
    ask question event x = .ok (question x.client).1
      (({ x with client := (question x.client).2 } : Session σ P V S M π E).after
        (event (question x.client).1)) := rfl

theorem poll_spec (x : Session σ P V S M π E) :
    Ensures (poll provider x) (fun _ y => y.state = x.state ∧ x.Quiet y) (Stops provider) := by
  unfold poll
  rw [bind_of_ok (ask_eq ..)]
  cases h : (provider.shouldCancel x.client).1 with
  | error e => exact .cancelled (by rw [h]; simp)
  | ok b =>
    cases b with
    | true => exact .cancelled (by rw [h]; simp)
    | false => exact ⟨rfl, x.quiet_ask _ rfl⟩

/-- Asking whether to give up fails only by being told to, or because the question does. -/
theorem cancelled_of_poll {x y : Session σ P V S M π E} {f : Failure P V S E}
    (h : poll provider x = .error f y) :
    ∃ fault, f = .cancelled fault ∧ ∃ c, (provider.shouldCancel c).1 ≠ .ok false := by
  unfold poll at h
  rw [bind_of_ok (ask_eq ..)] at h
  cases hask : (provider.shouldCancel x.client).1 with
  | error e =>
    rw [hask] at h
    cases h
    exact ⟨_, rfl, x.client, by rw [hask]; simp⟩
  | ok b =>
    rw [hask] at h
    cases b with
    | true =>
      cases h
      exact ⟨_, rfl, x.client, by rw [hask]; simp⟩
    | false => cases h

theorem askPriority_spec (p : P) (versions : S) (x : Session σ P V S M π E) :
    Ensures (askPriority provider p versions x) (fun _ y => y.state = x.state ∧ x.Quiet y)
      (Stops provider) := by
  unfold askPriority
  rw [bind_of_ok (ask_eq ..)]
  cases h : (provider.prioritize p versions x.client).1 with
  | error e => exact .prioritizing h
  | ok r => exact ⟨rfl, x.quiet_ask _ rfl⟩

theorem askVersion_spec (p : P) (versions : S) (x : Session σ P V S M π E) :
    Ensures (askVersion provider p versions x)
      (fun a y => y.state = x.state ∧ y.visited = x.visited ∧
        y.answers = x.answers ++ [.chose p versions (.ok a)] ∧
        ∃ c, (provider.chooseVersion p versions c).1 = .ok a)
      (Stops provider) := by
  unfold askVersion
  rw [bind_of_ok (ask_eq ..)]
  cases h : (provider.chooseVersion p versions x.client).1 with
  | error e => exact .choosing h
  | ok a => exact ⟨rfl, rfl, Session.answers_after { x with client := _ } _, _, h⟩

theorem askDependencies_spec (p : P) (v : V) (x : Session σ P V S M π E) :
    Ensures (askDependencies provider p v x)
      (fun a y => y.state = x.state ∧ y.visited = x.visited ∧
        y.answers = x.answers ++ [.retrieved p v (.ok a)] ∧
        ∃ c, (provider.dependencies p v c).1 = .ok a)
      (Stops provider) := by
  unfold askDependencies
  rw [bind_of_ok (ask_eq ..)]
  cases h : (provider.dependencies p v x.client).1 with
  | error e => exact .retrieving h
  | ok a => exact ⟨rfl, rfl, Session.answers_after { x with client := _ } _, _, h⟩

/-! ## Picking a package -/

variable [DecidableEq P] [DecidableEq S] [LT π] [DecidableLT π]

omit [LT π] [DecidableLT π] in
theorem priority_spec (cache : PriorityCache Unit P S π) (p : P) (versions : S)
    (x : Session σ P V S M π E) :
    Ensures (cache.priority (askPriority provider) p versions x)
      (fun _ y => y.state = x.state ∧ x.Quiet y) (Stops provider) := by
  unfold PriorityCache.priority
  cases cache.find? p versions with
  | some r => exact ⟨rfl, .refl x⟩
  | none => exact (askPriority_spec provider p versions x).bind fun r y hy => hy

theorem bestOf_spec (pending : List (P × S)) (cache : PriorityCache Unit P S π) (best : Option (P × π))
    (x : Session σ P V S M π E) :
    Ensures (cache.bestOf (askPriority provider) best pending x)
      (fun r y => y.state = x.state ∧ x.Quiet y ∧ (r.1 = none → best = none ∧ pending = []) ∧
        ∀ b, r.1 = some b → best.map Prod.fst = some b.1 ∨ b.1 ∈ pending.map Prod.fst)
      (Stops provider) := by
  induction pending generalizing cache best x with
  | nil => exact ⟨rfl, .refl x, fun h => ⟨h, rfl⟩, fun b hb => Or.inl (congrArg (Option.map Prod.fst) hb)⟩
  | cons e rest ih =>
    obtain ⟨p, versions⟩ := e
    unfold PriorityCache.bestOf
    refine (priority_spec provider cache p versions x).bind ?_
    rintro r y ⟨hstate, hquiet⟩
    refine (ih r.2 (some (PriorityCache.better best p r.1)) y).mono ?_ fun f hf => hf
    rintro r' z ⟨hstate', hquiet', hnone, hsome⟩
    refine ⟨hstate'.trans hstate, hquiet.trans hquiet', fun h => ?_, fun b hb => ?_⟩
    · have hbest := (hnone h).1
      cases hbest
    · rcases hsome b hb with h | h
      · simp only [Option.map_some, Option.some.injEq] at h
        unfold PriorityCache.better at h
        cases best with
        | none =>
          right
          simp [← h]
        | some q =>
          dsimp only at h
          split_ifs at h
          · right
            simp [← h]
          · left
            simp [← h]
      · right
        exact List.mem_cons_of_mem _ h

/-- The picked package is pending, and there is none only if none is pending. -/
theorem pickPackage_spec (x : Session σ P V S M π E) :
    Ensures (pickPackage provider x)
      (fun r y => y.state = x.state ∧ x.Quiet y ∧ (r = none → x.state.solution.pending = []) ∧
        ∀ p, r = some p → p ∈ x.state.solution.pending.map Prod.fst)
      (Stops provider) := by
  unfold pickPackage
  rw [bind_of_ok (get_eq x)]
  unfold PriorityCache.pick
  rw [bind_assoc]
  refine (bestOf_spec provider x.state.solution.pending (x.priorities.forSource ()) none x).bind ?_
  rintro ⟨best, cache⟩ y ⟨hstate, hquiet, hnone, hsome⟩
  refine ⟨hstate, ⟨hquiet.visited, hquiet.answers⟩, fun h => ?_, fun p hp => ?_⟩
  · exact (hnone (Option.map_eq_none_iff.mp h)).2
  · obtain ⟨b, hb, rfl⟩ := Option.map_eq_some_iff.mp hp
    exact (hsome b hb).resolve_left (by simp)

end questions

end Solving

end DependencyResolution
