import DependencyResolution.Proofs.PackageTable
import DependencyResolution.Proofs.Solver.Breaking
import DependencyResolution.Proofs.Solver.Composition
import DependencyResolution.Proofs.Solver.Joining

/-!
# The index after any operations

Operations on the state leave an index that accounts for the facts that were added, in whatever order they
come (`Operated.exists_indexed`), so the index is faithful to these facts (`Operated.index_faithful`).

Deduction only ever stores a resolvent or registers the last one it stored, when that is learned
(`Solving.deduces_of_deduce`). An operation that breaks off leaves the store of its last step, and the log only
grows. Nothing here asks what is known of the packages: the assignments may be any.
-/

namespace DependencyResolution

open Incompatibility LawfulVersionSet

variable {σ P V S M π E : Type} [DecidableEq P] [DecidableEq S] [VersionSet S V]

/-! ## The log only grows -/

namespace Solving

section logs

variable {α β : Type}

/-- The session that an operation leaves, whether it ends well or breaks off. -/
def leaves (m : Solving σ P V S M π E α) (x : Session σ P V S M π E) : Session σ P V S M π E :=
  match m x with
  | .ok _ y => y
  | .error _ y => y

def Logs (m : Solving σ P V S M π E α) : Prop := ∀ x, ∀ e ∈ x.events, e ∈ (leaves m x).events

omit [DecidableEq P] [DecidableEq S] [VersionSet S V]

theorem Logs.bind {m : Solving σ P V S M π E α} {f : α → Solving σ P V S M π E β} (hm : Logs m)
    (hf : ∀ a, Logs (f a)) : Logs (m >>= f) := by
  intro x e he
  have h := hm x e he
  simp only [leaves, Bind.bind, EStateM.bind] at h ⊢
  cases hx : m x with
  | ok a y =>
    rw [hx] at h
    exact hf a y e h
  | error f y =>
    rw [hx] at h
    exact h

theorem logs_composes : Composes fun {α} (m : Solving σ P V S M π E α) => Logs m where
  pure _ _ _ he := he
  bind := .bind
  throw _ _ _ he := he
  get _ _ he := he
  modify {f} hf x e he := by
    show e ∈ (f x).events
    rwa [(hf x).2]
  note _ _ _ he := Array.mem_push.mpr (Or.inl he)

theorem logs_poll (provider : Provider σ P V S M π E) : Logs (poll provider) := by
  have hask : Logs (ask provider.shouldCancel .polled : Solving σ P V S M π E (Except E Bool)) :=
    fun _ _ he => Array.mem_push.mpr (Or.inl he)
  refine hask.bind fun answer => ?_
  rcases answer with fault | _ | _
  · exact fun _ _ he => he
  · exact logs_composes.pure ()
  · exact fun _ _ he => he

end logs

end Solving

/-! ## What deduction files -/

/-- The number is that of something learned from a conflict, as the log says. -/
def Session.Learned (x : Session σ P V S M π E) (id : Nat) : Prop :=
  ∃ i, Event.noted (.learned id i) ∈ x.events

def Event.derivedFor? : Event P V S M π E → Option P
  | .noted (.derived p ..) => some p
  | _ => none

def Event.isLearned : Event P V S M π E → Bool
  | .noted (.learned ..) => true
  | _ => false

/-- The event is that a package received a derivation, or that something was learned from a conflict. -/
def Event.stirs (e : Event P V S M π E) : Bool := e.derivedFor?.isSome || e.isLearned

/-- The store and the table of dependencies are the same. -/
def Solving.Spared (x y : Session σ P V S M π E) : Prop :=
  y.state.store = x.state.store ∧ y.state.merged = x.state.merged

/-- What a step of deduction from one phase to another does to the session, as far as the log tells of it. -/
inductive Deduces (x : Session σ P V S M π E) (φ : Phase P) (y : Session σ P V S M π E) : Phase P → Prop
  /-- It finds nothing new, -/
  | idle {φ' : Phase P} {news : List (Event P V S M π E)} (hφ' : ∀ id, φ' ≠ .conflict id true)
      (hl : ∀ p id, φ' ≠ .learned p id) (hxy : Solving.Spared x y)
      (hlog : y.events.toList = x.events.toList ++ news) (hnews : ∀ e ∈ news, e.stirs = false) :
      Deduces x φ y φ'
  /-- or it makes a derivation, -/
  | derive {φ' : Phase P} {p : P} {u : Term S} {c : Nat} {news : List (Event P V S M π E)}
      (hφ' : ∀ id, φ' ≠ .conflict id true) (hl : ∀ p id, φ' ≠ .learned p id) (hxy : Solving.Spared x y)
      (hs : x.state.solution.derive p u c = .ok y.state.solution)
      (hlog : y.events.toList =
        x.events.toList ++ (news ++ [.noted (.derived p u y.state.solution.level c)]))
      (hnews : ∀ e ∈ news, e.stirs = false) : Deduces x φ y φ'
  /-- or it stores a resolvent, which it goes on with, -/
  | resolve {first second : Nat} {p : P} {r : Incompatibility P V S M} {news : List (Event P V S M π E)}
      (hr : x.state.store.resolvent first second p = .ok r) (hs : y.state.store = (x.state.store.alloc r).1)
      (hm : y.state.merged = x.state.merged) (hlog : y.events.toList = x.events.toList ++ news)
      (hnews : ∀ e ∈ news, e.stirs = false) : Deduces x φ y (.conflict x.state.store.size true)
  /-- or something is learned, which is registered if it is a resolvent. -/
  | learn {id : Nat} {changed : Bool} {p : P} {i : Incompatibility P V S M}
      {news : List (Event P V S M π E)} (hφ : φ = .conflict id changed)
      (hs : y.state.store = if changed then x.state.store.registered id else x.state.store)
      (hm : y.state.merged = x.state.merged)
      (hlog : y.events.toList = x.events.toList ++ (news ++ [.noted (.learned id i)])) :
      Deduces x φ y (.learned p id)

section deduces

variable {x y z : Session σ P V S M π E} {φ φ' : Phase P}

theorem Deduces.still (hφ' : ∀ id, φ' ≠ .conflict id true) (hl : ∀ p id, φ' ≠ .learned p id)
    (hxy : Solving.Spared x y) (hlog : y.events = x.events) : Deduces x φ y φ' :=
  .idle hφ' hl hxy (hlog ▸ (List.append_nil _).symm) (List.forall_mem_nil _)

theorem Deduces.of_asked {asked : List (Event P V S M π E)}
    (hs : z.state = x.state) (hlog : z.events.toList = x.events.toList ++ asked)
    (hasked : ∀ e ∈ asked, e.stirs = false) (h : Deduces z φ y φ') : Deduces x φ y φ' := by
  have hall : ∀ {more : List (Event P V S M π E)}, (∀ e ∈ more, e.stirs = false) →
      ∀ e ∈ asked ++ more, e.stirs = false :=
    fun hmore e he => (List.mem_append.mp he).elim (hasked e) (hmore e)
  cases h with
  | idle hφ' hl hxy hlog' hnews =>
    rw [Solving.Spared, hs] at hxy
    rw [hlog, List.append_assoc] at hlog'
    exact .idle hφ' hl hxy hlog' (hall hnews)
  | derive hφ' hl hxy hsol hlog' hnews =>
    rw [Solving.Spared, hs] at hxy
    rw [hs] at hsol
    rw [hlog, List.append_assoc, ← List.append_assoc asked] at hlog'
    exact .derive hφ' hl hxy hsol hlog' (hall hnews)
  | resolve hr hstore hm hlog' hnews =>
    rw [hs] at hr hstore hm ⊢
    rw [hlog, List.append_assoc] at hlog'
    exact .resolve hr hstore hm hlog' (hall hnews)
  | learn hφ hstore hm hlog' =>
    rw [hs] at hstore hm
    rw [hlog, List.append_assoc, ← List.append_assoc asked] at hlog'
    exact .learn hφ hstore hm hlog'

theorem Deduces.learned_mono (h : Deduces x φ y φ') {n : Nat}
    (hn : x.Learned n) : y.Learned n := by
  obtain ⟨i, hi⟩ := hn
  refine ⟨i, Array.mem_toList_iff.mp ?_⟩
  cases h with
  | idle _ _ _ hlog _ | derive _ _ _ _ hlog _ | resolve _ _ _ hlog _ | learn _ _ _ hlog =>
    rw [hlog]
    exact List.mem_append_left _ (Array.mem_toList_iff.mpr hi)

end deduces

namespace Solving

variable {α β : Type} {provider : Provider σ P V S M π E} {x y z : Session σ P V S M π E} {φ φ' : Phase P}

omit [DecidableEq P] [DecidableEq S] [VersionSet S V] in
theorem log_of_poll (h : poll provider x = .ok () y) :
    y.state = x.state ∧ y.events.toList = x.events.toList ++ [.polled (.ok false)] := by
  unfold poll at h
  rw [bind_of_ok (ask_eq ..)] at h
  cases hanswer : (provider.shouldCancel x.client).1 with
  | error e =>
    rw [hanswer] at h
    cases h
  | ok b =>
    rw [hanswer] at h
    cases b with
    | true => cases h
    | false =>
      cases h
      exact ⟨rfl, Array.toList_push⟩

theorem deduces_of_deriveFrom {p : P} {id : Nat} (hφ' : ∀ id, φ' ≠ .conflict id true)
    (hl : ∀ p id, φ' ≠ .learned p id) (h : deriveFrom p id x = .ok () y) : Deduces x φ y φ' := by
  unfold deriveFrom at h
  obtain ⟨i, x₁, hi, hrest⟩ := exists_of_bind h
  obtain ⟨-, rfl⟩ := eq_of_incompatibility hi
  cases hu : i.get? p with
  | none =>
    rw [hu] at hrest
    cases hrest
  | some u =>
    rw [hu] at hrest
    obtain ⟨_, x₂, hderive, hmark⟩ := exists_of_bind hrest
    unfold derive at hderive
    rw [bind_of_ok (state_eq x₁)] at hderive
    obtain ⟨solution, x₃, hs, hnote⟩ := exists_of_bind hderive
    obtain ⟨hs, rfl⟩ := eq_of_ofExcept hs
    cases hnote
    cases hmark
    exact .derive hφ' hl ⟨rfl, rfl⟩ hs Array.toList_push (List.forall_mem_nil _)

theorem deduces_of_nextId {ids : List Nat} {waiting : List P} (h : nextId ids waiting x = .ok φ' y) :
    Deduces x φ y φ' := by
  cases ids with
  | nil =>
    cases h
    exact .still (by simp) (by simp) ⟨rfl, rfl⟩ rfl
  | cons id rest =>
    rw [nextId, bind_of_ok (state_eq x)] at h
    split_ifs at h with hc
    · cases h
      exact .still (by simp) (by simp) ⟨rfl, rfl⟩ rfl
    · obtain ⟨i, x₁, hi, hrest⟩ := exists_of_bind h
      obtain ⟨-, rfl⟩ := eq_of_incompatibility hi
      cases hs : x₁.state.solution.standing i with
      | satisfied | contradicted | inconclusive =>
        rw [hs] at hrest
        cases hrest
        exact .still (by simp) (by simp) ⟨rfl, rfl⟩ rfl
      | almostSatisfied p =>
        rw [hs] at hrest
        obtain ⟨_, x₂, hderive, hend⟩ := exists_of_bind hrest
        cases hend
        exact deduces_of_deriveFrom (by simp) (by simp) hderive

omit [DecidableEq S] [VersionSet S V] in
theorem log_of_backjump {id : Nat} {changed : Bool} {level : Nat} (h : backjump id changed level x = .ok () y) :
    y.state.store = (if changed then x.state.store.registered id else x.state.store) ∧
      y.state.merged = x.state.merged ∧ y.visited = x.visited ∧
      ∃ l n, y.events.toList = x.events.toList ++ [.noted (.backtracked l n)] := by
  unfold backjump backtrack at h
  obtain ⟨_, x₁, hback, hrest⟩ := exists_of_bind h
  rw [bind_of_ok (state_eq x)] at hback
  obtain ⟨solution, x₂, hs, hnote⟩ := exists_of_bind hback
  obtain ⟨-, rfl⟩ := eq_of_ofExcept hs
  cases hnote
  obtain ⟨_, x₃, hforget, hend⟩ := exists_of_bind hrest
  cases hforget
  cases changed with
  | false =>
    cases hend
    exact ⟨rfl, rfl, rfl, _, _, Array.toList_push⟩
  | true =>
    rw [if_pos rfl] at hend
    rw [eq_of_register hend]
    exact ⟨rfl, rfl, rfl, _, _, Array.toList_push⟩

theorem deduces_of_nextConflict {id : Nat} {changed : Bool} (h : nextConflict id changed x = .ok φ' y) :
    Deduces x (.conflict id changed) y φ' := by
  unfold nextConflict at h
  obtain ⟨i, x₁, hi, hrest⟩ := exists_of_bind h
  obtain ⟨-, rfl⟩ := eq_of_incompatibility hi
  rw [bind_of_ok (state_eq x₁)] at hrest
  split_ifs at hrest with hterm
  · rw [bind_of_ok (note_eq _ x₁)] at hrest
    obtain ⟨_, x₂, -, hend⟩ := exists_of_bind hrest
    cases hend
  · obtain ⟨⟨p, previous | cause⟩, x₂, hsearch, hend⟩ := exists_of_bind hrest
    · obtain ⟨-, rfl⟩ := eq_of_ofExcept hsearch
      obtain ⟨_, x₃, hback, hnote⟩ := exists_of_bind hend
      obtain ⟨hs, hm, -, l, n, hlog⟩ := log_of_backjump hback
      cases hnote
      have hlog' : (x₃.events.push (.noted (.learned id i))).toList =
          x₂.events.toList ++ ([.noted (.backtracked l n)] ++ [.noted (.learned id i)]) := by
        rw [Array.toList_push, hlog, List.append_assoc]
      exact .learn rfl hs hm hlog'
    · obtain ⟨-, rfl⟩ := eq_of_ofExcept hsearch
      obtain ⟨r, x₃, hr, hnote⟩ := exists_of_bind hend
      obtain ⟨hr, rfl⟩ := eq_of_ofExcept hr
      cases hnote
      exact .resolve hr rfl rfl Array.toList_push (List.forall_mem_singleton.mpr rfl)

theorem deduces_of_deduce (h : deduce (poll provider) φ x = .ok φ' y) : Deduces x φ y φ' := by
  cases φ with
  | round p =>
    obtain ⟨_, x₁, hp, hend⟩ := exists_of_bind h
    obtain ⟨hs, hlog⟩ := log_of_poll hp
    cases hend
    exact .idle (by simp) (by simp) ⟨by rw [hs], by rw [hs]⟩ hlog (List.forall_mem_singleton.mpr rfl)
  | propagate waiting =>
    cases waiting <;> cases h <;> exact .still (by simp) (by simp) ⟨rfl, rfl⟩ rfl
  | scan ids waiting => exact deduces_of_nextId h
  | conflict id changed =>
    obtain ⟨_, x₁, hp, hend⟩ := exists_of_bind h
    obtain ⟨hs, hlog⟩ := log_of_poll hp
    exact (deduces_of_nextConflict hend).of_asked hs hlog (List.forall_mem_singleton.mpr rfl)
  | learned p id =>
    obtain ⟨_, x₁, hderive, hend⟩ := exists_of_bind h
    cases hend
    exact deduces_of_deriveFrom (by simp) (by simp) hderive
  | decide =>
    cases h
    exact .still (by simp) (by simp) ⟨rfl, rfl⟩ rfl

end Solving

/-! ## A step, and a run of steps -/

section deduction

variable [LawfulVersionSet S V] {facts : List (Incompatibility P V S M)} {live : List Nat}
  {learned : Nat → Prop} {store : Store P V S M} {merged : OrderedMap (P × P) (List Nat)} {φ φ' : Phase P}

omit [LawfulVersionSet S V] in
theorem exists_of_resolvent {first second : Nat} {p : P} {r : Incompatibility P V S M}
    (h : store.resolvent first second p = .ok r) : ∃ i j, store.get? first = some i ∧
      store.get? second = some j ∧ i.resolvent j first second p = .ok r := by
  unfold Store.resolvent Store.get at h
  cases hi : store.get? first with
  | none =>
    rw [hi] at h
    cases h
  | some i =>
    cases hj : store.get? second with
    | none =>
      rw [hi, hj] at h
      cases h
    | some j =>
      rw [hi, hj] at h
      exact ⟨i, j, rfl, rfl, h⟩

/-- The store accounts for the facts, and a resolvent that conflict resolution goes on with is newer than
all that is registered. -/
structure Filing (facts : List (Incompatibility P V S M)) (learned : Nat → Prop) (live : List Nat)
    (store : Store P V S M) (merged : OrderedMap (P × P) (List Nat)) (φ : Phase P) : Prop where
  indexed : Indexed facts learned live store merged
  newest : ∀ id, φ = .conflict id true → (∀ n ∈ live, n < id) ∧
    ∃ k first second, store.get? id = some k ∧ k.cause = .derived first second

theorem Filing.deduces {x y : Session σ P V S M π E}
    (h : Filing facts x.Learned live x.state.store x.state.merged φ) (hstep : Deduces x φ y φ') :
    ∃ live', Filing facts y.Learned live' y.state.store y.state.merged φ' := by
  have hindexed := h.indexed.mono fun n hn => hstep.learned_mono hn
  cases hstep with
  | idle hφ' _ hxy _ _ | derive hφ' _ hxy _ _ _ =>
    rw [hxy.1, hxy.2]
    exact ⟨live, hindexed, fun id hid => absurd hid (hφ' id)⟩
  | @resolve first second p r _ hr hs hm _ _ =>
    obtain ⟨i, j, hi, hj, hij⟩ := exists_of_resolvent hr
    obtain ⟨-, -, -, -, hc, -⟩ := get?_resolvent hij
    rw [hs, hm]
    refine ⟨live, hindexed.alloc ((hindexed.founded _ i hi).resolvent (hindexed.founded _ j hj) hij),
      fun id hid => ?_⟩
    cases hid
    exact ⟨fun n hn => hindexed.filed.lt_size hn, r, first, second, Store.get?_alloc_self _ r, hc⟩
  | @learn id changed p i news hφ hs hm hlog =>
    rw [hs, hm]
    cases changed with
    | false => exact ⟨live, hindexed, nofun⟩
    | true =>
      obtain ⟨hlt, k, first, second, hk, hc⟩ := h.newest id hφ
      have hlearned : y.Learned id := ⟨i, Array.mem_toList_iff.mp (by simp [hlog])⟩
      exact ⟨live ++ [id], hindexed.learn hk hc hlt hlearned, nofun⟩

open Solving in
/-- However far deduction gets, the store accounts for the facts. -/
theorem Filing.exists_indexed_deduceUntil {α : Type} {provider : Provider σ P V S M π E}
    (stop : Phase P → Option α) (steps : Nat) {x : Session σ P V S M π E}
    (h : Filing facts x.Learned live x.state.store x.state.merged φ) :
    ∃ live', Indexed facts (leaves (deduceUntil stop (poll provider) steps φ) x).Learned live'
      (leaves (deduceUntil stop (poll provider) steps φ) x).state.store
      (leaves (deduceUntil stop (poll provider) steps φ) x).state.merged := by
  induction steps generalizing live φ x with
  | zero => exact ⟨live, h.indexed⟩
  | succ steps ih =>
    unfold deduceUntil
    cases stop φ with
    | some a => exact ⟨live, h.indexed⟩
    | none =>
      cases hstep : deduce (poll provider) φ x with
      | ok φ' y =>
        obtain ⟨live', h'⟩ := h.deduces (deduces_of_deduce hstep)
        dsimp only
        rw [leaves, bind_of_ok hstep]
        exact ih h'
      | error f y =>
        have hlearned : ∀ n, x.Learned n → (leaves (deduce (poll provider) φ) x).Learned n :=
          fun n hn => hn.imp fun i hi => logs_composes.deduce (logs_poll provider) φ x _ hi
        unfold leaves at hlearned
        rw [hstep] at hlearned
        have hstate : y.state = x.state := (breaks_deduce provider φ x f y hstep).state
        refine ⟨live, ?_⟩
        simp only [leaves, bind, EStateM.bind, hstep, hstate]
        exact h.indexed.mono hlearned

end deduction

/-! ## Any sequence of operations -/

section operated

variable [LawfulVersionSet S V] {provider : Provider σ P V S M π E} {facts : List (Incompatibility P V S M)}
  {live : List Nat} {x : Session σ P V S M π E}

open Solving in
/-- The session comes from the start by operations on the state, and these facts were added in this order. -/
inductive Operated (provider : Provider σ P V S M π E) :
    List (Incompatibility P V S M) → Session σ P V S M π E → Prop
  | start (root : P) (version : V) (client : σ) :
      Operated provider [notRoot root version] (.start (.start root version) client)
  | insert {facts : List (Incompatibility P V S M)} {x : Session σ P V S M π E}
      (h : Operated provider facts x) {i : Incompatibility P V S M} (hi : i.External) :
      Operated provider (facts ++ [i]) (leaves (insert i) x)
  | insertDependencies {facts : List (Incompatibility P V S M)} {x : Session σ P V S M π E}
      (h : Operated provider facts x) (p : P) (v : V) (requirements : List (P × S))
      (hr : ∀ r ∈ requirements, Proper r.2) :
      Operated provider (facts ++ dependencyFacts p v requirements)
        (leaves (insertDependencies p v requirements) x)
  | propagate {facts : List (Incompatibility P V S M)} {x : Session σ P V S M π E}
      (h : Operated provider facts x) (steps : Nat) (p : P) :
      Operated provider facts (leaves (propagate (poll provider) steps p) x)
  | resolveConflict {facts : List (Incompatibility P V S M)} {x : Session σ P V S M π E}
      (h : Operated provider facts x) (steps id : Nat) :
      Operated provider facts (leaves (resolveConflict (poll provider) steps id) x)
  /-- Anything else, such as to decide or to ask, does not touch the store and the table of dependencies. -/
  | aside {facts : List (Incompatibility P V S M)} {x y : Session σ P V S M π E}
      (h : Operated provider facts x) (hxy : Spared x y) (hlog : ∀ e ∈ x.events, e ∈ y.events) :
      Operated provider facts y

open Solving in
theorem Operated.decide (h : Operated provider facts x) (p : P) (v : V) :
    Operated provider facts (leaves (decide p v) x) := by
  have hlog : Logs (Solving.decide p v : Solving σ P V S M π E Unit) := logs_composes.decide p v
  refine h.aside ?_ (hlog x)
  unfold leaves Solving.decide
  rw [bind_of_ok (state_eq x)]
  cases x.state.solution.decide p v <;> exact ⟨rfl, rfl⟩

/-- However the operations follow each other, the store accounts for the facts. -/
theorem Operated.exists_indexed (h : Operated provider facts x) :
    ∃ live, Indexed facts x.Learned live x.state.store x.state.merged := by
  induction h with
  | start root version client =>
    refine ⟨[0], Indexed.blank.add (.root root version) (fun _ hc => ?_) fun pair => rfl⟩
    cases hc
  | insert h hi ih =>
    obtain ⟨live, hlive⟩ := ih
    obtain ⟨live', s', id, hok, h'⟩ := hlive.insert hi
    refine ⟨live', ?_⟩
    rw [Solving.leaves, hok]
    exact h'
  | insertDependencies h p v requirements hr ih =>
    obtain ⟨live, hlive⟩ := ih
    obtain ⟨live', s', ids, hok, h'⟩ := hlive.insertDependencies p v requirements hr
    refine ⟨live', ?_⟩
    rw [Solving.leaves, hok]
    exact h'
  | propagate h steps p ih =>
    obtain ⟨live, hlive⟩ := ih
    exact Filing.exists_indexed_deduceUntil _ steps (φ := .propagate [p]) ⟨hlive, nofun⟩
  | resolveConflict h steps id ih =>
    obtain ⟨live, hlive⟩ := ih
    exact Filing.exists_indexed_deduceUntil _ steps (φ := .conflict id false) ⟨hlive, nofun⟩
  | aside h hxy hlog ih =>
    obtain ⟨live, hlive⟩ := ih
    rw [hxy.1, hxy.2]
    exact ⟨live, hlive.mono fun n hn => hn.imp fun i hi => hlog _ hi⟩

/-- The index is faithful to the facts that were added. `live` are the numbers of the registered
incompatibilities. -/
structure Store.Faithful (s : Store P V S M) (facts : List (Incompatibility P V S M)) (learned : Nat → Prop)
    (live : List Nat) : Prop where
  filed : s.Filed live
  /-- What is registered restates a fact or was learned: what conflict resolution passes through is not. -/
  origin : ∀ n ∈ live, ∀ i, s.get? n = some i → (∃ f, i.cause = .fact f) ∨ learned n
  /-- Every package lists what is registered and mentions it, in ascending order, -/
  ascending : ∀ p, (s.idsFor p).Pairwise (· < ·)
  mem_idsFor_iff : ∀ p n, n ∈ s.idsFor p ↔ n ∈ live ∧ p ∈ s.packagesOf n
  /-- and each number once under every package that is mentioned. -/
  lists : ∀ n ∈ live, s.Lists n
  /-- Of the dependencies of a package on another that allow the same, one is registered if there are any, -/
  present : ∀ {p d : P} {v R : S}, p ≠ d → Told facts (.dependency p v d R) →
    ∃ n ∈ live, ∃ u, s.States n (.dependency p u d R)
  unique : ∀ {p d : P} {v u R : S} {n m : Nat}, p ≠ d → n ∈ live → m ∈ live →
    s.States n (.dependency p v d R) → s.States m (.dependency p u d R) → n = m
  /-- and its term for the package is the union of their version sets, however these are listed. -/
  union : ∀ {p d : P} {v R : S} {n : Nat} {i : Incompatibility P V S M}, p ≠ d → n ∈ live →
    s.get? n = some i → i.cause = .fact (.dependency p v d R) → ∀ sets : List S,
      (∀ u, u ∈ sets ↔ Told facts (.dependency p u d R)) → i.get? p = some (.positive (unions sets))
  /-- All terms of a registered incompatibility hold in the worlds in which all terms of a fact do, among them
  those that give every package a version or none. -/
  holdsIn_iff : ∀ w : World P S V,
    (∃ n ∈ live, ∃ i, s.get? n = some i ∧ i.HoldsIn w) ↔ ∃ f ∈ facts, f.HoldsIn w

/-- After any sequence of operations the index is faithful to the facts that were added. -/
theorem Operated.index_faithful (h : Operated provider facts x) :
    ∃ live, x.state.store.Faithful facts x.Learned live := by
  obtain ⟨live, hlive⟩ := h.exists_indexed
  refine ⟨live, hlive.filed, hlive.origin, fun p => ?_, fun p n => ?_, fun n hn => hlive.filed.lists hlive.nodup hn,
    hlive.reflects.present, hlive.reflects.unique,
    fun hne hn hi hc _ hsets => hlive.get?_eq_unions hne hn hi hc hsets, hlive.holdsIn_iff⟩
  · rw [hlive.filed.idsFor_eq p]
    exact hlive.ascending.filter _
  · rw [hlive.filed.idsFor_eq p, List.mem_filter, decide_eq_true_eq]

end operated

/-! ## A small sequence -/

open Solving in
/-- Package 0 requires package 1, of which versions 1 and 2 require package 2 from version 2 on, and there is
none. Propagation finds the conflict once version 2 is decided. -/
def joinedDependencies : Session Unit ℕ ℕ (Ranges ℕ) String Int Empty :=
  let poll := poll PackageTable.empty.provider
  let x := leaves (insertDependencies 0 1 [(1, .full)]) (.start (.start 0 1) ())
  let x := leaves (insertDependencies 1 2 [(2, .atLeast 2)]) (leaves (insertDependencies 1 1 [(2, .atLeast 2)]) x)
  let x := leaves (insert (.missing 2 (.atLeast 2))) x
  let x := leaves (decide 0 1) (leaves (propagate poll 9 0) x)
  leaves (propagate poll 20 1) (leaves (decide 1 2) (leaves (propagate poll 9 0) x))

open Solving in
/-- Of the two dependencies on package 2 one is left, with both versions, and what propagation learned from the
conflict is registered behind it. -/
theorem joinedDependencies_faithful :
    ∃ facts live, Operated PackageTable.empty.provider facts joinedDependencies ∧
      joinedDependencies.state.store.Faithful facts joinedDependencies.Learned live ∧
      joinedDependencies.state.store.idsFor 1 = [1, 4, 6] ∧
      (joinedDependencies.state.store.get? 4).bind (fun i => i.get? 1) =
        some (.positive (unions [.singleton 1, .singleton 2])) := by
  have hfull : ∀ r ∈ [((1 : ℕ), (Ranges.full : Ranges ℕ))], Proper r.2 := by
    intro r hr
    obtain rfl := List.mem_singleton.mp hr
    exact Ranges.canonical_full
  have hatLeast : Proper (.atLeast 2 : Ranges ℕ) := Ranges.canonical_atLeast 2
  have hnone : (.missing 2 (.atLeast 2) : Incompatibility ℕ ℕ (Ranges ℕ) String).External :=
    .noVersions (show (Term.positive (.atLeast 2 : Ranges ℕ)).IsProper from hatLeast) rfl
  have hstart : Operated (PackageTable.empty : PackageTable ℕ ℕ (Ranges ℕ)).provider [notRoot 0 1]
    (.start (.start 0 1) ()) := .start 0 1 ()
  have hadded := (((hstart.insertDependencies 0 1 _ hfull).insertDependencies 1 1 [(2, .atLeast 2)]
    (by simpa using hatLeast)).insertDependencies 1 2 [(2, .atLeast 2)] (by simpa using hatLeast)).insert hnone
  have hoperated := ((((hadded.propagate 9 0).decide 0 1).propagate 9 0).decide 1 2).propagate 20 1
  obtain ⟨live, hfaithful⟩ := Operated.index_faithful (x := joinedDependencies) hoperated
  exact ⟨_, live, hoperated, hfaithful, by decide +kernel, by decide +kernel⟩

end DependencyResolution
