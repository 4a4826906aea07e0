import DependencyResolution.Explanation.Outline
import DependencyResolution.Proofs.Explanation.Sharing
import DependencyResolution.Proofs.Explanation.Shortening
import DependencyResolution.Version.Ranges.Text

/-!
# Outlines tell every node once

The outline of an explanation mentions nodes: it spells a node out, with its causes below, or refers to it
by a number that was spelled out before (`Explanation.mentions`). Where every derived node that several
others rest on has a number of its own, each is spelled out once, and every other mention of it comes later
and refers to it (`Explanation.toldOnce`). So the outline of a stored incompatibility tells every node
once, and it still does after the explanation was shortened exactly if collapsing dropped no node with a
number for one without (`Explanation.toldOnce_ofStore`).
-/

namespace DependencyResolution

open Text

/-- What a line of an outline is about: a node that is spelled out, or one that is referred to. -/
inductive Mention where
  | spelled (place : Nat)
  | referred (place : Nat)
deriving DecidableEq

namespace Mention

def place : Mention → Nat
  | spelled k => k
  | referred k => k

def spelled? : Mention → Option Nat
  | spelled k => some k
  | referred _ => none

end Mention

namespace Explanation

variable {P V S M : Type}

/-- What the outline of the node at a place mentions, and the numbers spelled out so far. -/
def mentionsAt (e : Explanation P V S M) :
    (depth : Nat) → (shown : List Nat) → (place : Nat) → List Mention × List Nat
  | 0, shown, _ => ([], shown)
  | depth + 1, shown, place =>
    match e.nodes[place]? with
    | some (.derived _ shared first second) =>
      if shared.any (· ∈ shown) then ([.referred place], shown)
      else
        let (ms, shown) := e.mentionsAt depth (shared.toList ++ shown) first
        let (ms', shown) := e.mentionsAt depth shown second
        (.spelled place :: (ms ++ ms'), shown)
    | _ => ([.spelled place], shown)

/-- What the outline mentions below its first line. -/
def mentions (e : Explanation P V S M) : List Mention := (e.mentionsAt (e.nodes.size + 1) [] e.root).1

def label [Shown P] [Shown V] [Shown S] [Shown M] (e : Explanation P V S M) : Mention → String
  | .spelled k =>
    match e.nodes[k]? with
    | some (.fact f) => f.text
    | some (.derived terms none _ _) => termsText terms
    | some (.derived terms (some n) _ _) => s!"{termsText terms} ({n})"
    | none => ""
  | .referred k =>
    match e.numberAt k with
    | some n => s!"see ({n})"
    | none => ""

/-- The outline tells every derived node once: each has a number if it is a cause more than once, is
spelled out once, is mentioned once for each node that it is a cause of, and is referred to by its number
only after it was spelled out with it. -/
structure ToldOnce [Shown P] [Shown V] [Shown S] [Shown M] (e : Explanation P V S M) : Prop where
  numbered : e.NumbersShared
  lines : (e.outline.lines 0).map Prod.snd = "No solution" :: e.mentions.map e.label
  once : ∀ k ∈ e.preorder, e.isDerivedAt k = true → e.mentions.count (.spelled k) = 1
  edges : (e.mentions.map Mention.place).Perm (e.root :: e.preorder.flatMap e.causesAt)
  earlier : ∀ before after k, e.mentions = before ++ .referred k :: after →
    .spelled k ∈ before ∧ ∃ (n : Nat) (text : String), e.label (.referred k) = s!"see ({n})" ∧
      e.label (.spelled k) = s!"{text} ({n})"

variable {e : Explanation P V S M} {shown places : List Nat} {ms : List Mention} {k n : Nat}

/-! ## Lines -/

section lines

variable [Shown P] [Shown V] [Shown S] [Shown M]

theorem lines_outlineAt (e : Explanation P V S M) (hdesc : e.Descends) {depth : Nat} (shown : List Nat)
    {place : Nat} (hmem : place ∈ e.preorder) (hp : place < depth) :
    (∀ d, ((e.outlineAt depth shown place).1.lines d).map Prod.snd =
        (e.mentionsAt depth shown place).1.map e.label) ∧
      (e.outlineAt depth shown place).2 = (e.mentionsAt depth shown place).2 := by
  -- causes come first, so the depth suffices for them
  induction depth generalizing shown place with
  | zero => omega
  | succ depth ih =>
    unfold outlineAt mentionsAt
    cases hn : e.nodes[place]? with
    | none => simp [Outline.lines, Outline.linesOfList, label, hn]
    | some node =>
      cases node with
      | fact f => simp [Outline.lines, Outline.linesOfList, label, hn]
      | derived terms shared first second =>
        have hcauses := causesAt_of_derived hn
        have hcause : ∀ c ∈ e.causesAt place, ∀ shown, _ := fun c hc shown =>
          ih shown (mem_preorder_of_mem_causesAt hmem hc) (by have := hdesc place hmem c hc; omega)
        obtain ⟨hfirst, hfirst'⟩ := hcause first (by simp [hcauses]) (shared.toList ++ shown)
        obtain ⟨hsecond, hsecond'⟩ := hcause second (by simp [hcauses])
          (e.mentionsAt depth (shared.toList ++ shown) first).2
        cases shared with
        | none =>
          simp only [Option.toList_none, List.nil_append] at hfirst hfirst' hsecond hsecond'
          simp [Outline.lines, Outline.linesOfList, label, hn, hfirst, hfirst', hsecond, hsecond']
        | some n =>
          simp only [Option.toList_some, List.singleton_append] at hfirst hfirst' hsecond hsecond'
          by_cases hshown : n ∈ shown
          · simp [Outline.lines, Outline.linesOfList, label, numberAt, hn, hshown]
          · simp [Outline.lines, Outline.linesOfList, label, hn, hshown, hfirst, hfirst', hsecond, hsecond']

theorem lines_outline (hdesc : e.Descends) (hroot : e.root ≤ e.nodes.size) :
    (e.outline.lines 0).map Prod.snd = "No solution" :: e.mentions.map e.label := by
  have hlines := (lines_outlineAt e hdesc [] e.root_mem_preorder (Nat.lt_succ_of_le hroot)).1 1
  simp [outline, Outline.lines, Outline.linesOfList, mentions, hlines]

end lines

/-! ## Mentions -/

/-- To tell the nodes at some places, one after the other, is to mention these nodes, given the numbers
that are spelled out before: a node is referred to if its number is one of them, and else spelled out
before its causes. -/
inductive Tells (e : Explanation P V S M) : List Nat → List Nat → List Mention → Prop
  | done {shown : List Nat} : Tells e shown [] []
  | referred {shown places : List Nat} {ms : List Mention} {k n : Nat} (hn : e.numberAt k = some n)
      (hshown : n ∈ shown) (h : Tells e shown places ms) :
      Tells e shown (k :: places) (.referred k :: ms)
  | spelled {shown places : List Nat} {ms : List Mention} {k : Nat}
      (hn : ∀ n ∈ shown, e.numberAt k ≠ some n)
      (h : Tells e ((e.numberAt k).toList ++ shown) (e.causesAt k ++ places) ms) :
      Tells e shown (k :: places) (.spelled k :: ms)

theorem tells_mentionsAt (hdesc : e.Descends) {depth : Nat} {place : Nat} (hmem : place ∈ e.preorder)
    (hp : place < depth) (h : e.Tells (e.mentionsAt depth shown place).2 places ms) :
    e.Tells shown (place :: places) ((e.mentionsAt depth shown place).1 ++ ms) := by
  -- causes come first, so the depth suffices for them
  induction depth generalizing shown place places ms with
  | zero => omega
  | succ depth ih =>
    have hleaf : e.numberAt place = none → e.causesAt place = [] → e.Tells shown places ms →
        e.Tells shown (place :: places) ([.spelled place] ++ ms) := by
      intro hnumber hcauses h
      exact .spelled (by simp [hnumber]) (by simpa [hnumber, hcauses] using h)
    unfold mentionsAt at h ⊢
    cases hn : e.nodes[place]? with
    | none =>
      rw [hn] at h
      exact hleaf (by rw [numberAt, hn]) (by rw [causesAt, hn]; rfl) h
    | some node =>
      rw [hn] at h
      cases node with
      | fact f => exact hleaf (by rw [numberAt, hn]) (by rw [causesAt, hn]; rfl) h
      | derived terms shared first second =>
        have hnumber : e.numberAt place = shared := by rw [numberAt, hn]
        have hcauses := causesAt_of_derived hn
        have hlt : ∀ c ∈ e.causesAt place, c ∈ e.preorder ∧ c < depth := fun c hc =>
          ⟨mem_preorder_of_mem_causesAt hmem hc, (hdesc place hmem c hc).trans_le (Nat.le_of_lt_succ hp)⟩
        obtain ⟨hfirst, hfirst'⟩ := hlt first (by simp [hcauses])
        obtain ⟨hsecond, hsecond'⟩ := hlt second (by simp [hcauses])
        have hany : shared.any (· ∈ shown) = true ↔ ∃ n ∈ shown, shared = some n := by
          cases shared <;> simp
        dsimp only at h ⊢
        split_ifs at h ⊢ with hshown
        · obtain ⟨n, hn', hsome⟩ := hany.mp hshown
          exact .referred (hnumber.trans hsome) hn' h
        · refine .spelled (fun n hn' hsome => hshown ?_) ?_
          · exact hany.mpr ⟨n, hn', hnumber.symm.trans hsome⟩
          · change e.Tells _ _ ((_ ++ _) ++ ms)
            rw [hnumber, hcauses, List.append_assoc]
            exact ih hfirst hfirst' (ih hsecond hsecond' h)

/-- The outline tells the root, with no numbers spelled out before. -/
theorem tells_mentions (hdesc : e.Descends) (hroot : e.root ≤ e.nodes.size) :
    e.Tells [] [e.root] e.mentions := by
  have h : e.Tells [] [e.root] (e.mentions ++ []) :=
    tells_mentionsAt hdesc e.root_mem_preorder (Nat.lt_succ_of_le hroot) .done
  rwa [List.append_nil] at h

def spelledPlaces (ms : List Mention) : List Nat := ms.filterMap Mention.spelled?

namespace Tells

/-- What is mentioned are the nodes that are to be told and the causes of those that are spelled out. -/
theorem perm (h : e.Tells shown places ms) :
    (ms.map Mention.place).Perm (places ++ (spelledPlaces ms).flatMap e.causesAt) := by
  induction h with
  | done => exact .nil
  | referred _ _ _ ih => exact ih.cons _
  | @spelled shown places ms k _ _ ih =>
    change (k :: ms.map Mention.place).Perm (k :: (places ++ (e.causesAt k ++ _)))
    refine (ih.trans ?_).cons k
    rw [List.append_assoc]
    exact List.perm_append_comm_assoc ..

theorem place_mem (h : e.Tells shown places ms) (hplaces : ∀ k ∈ places, k ∈ e.preorder) :
    ∀ m ∈ ms, m.place ∈ e.preorder := by
  induction h with
  | done => simp
  | referred _ _ _ ih =>
    rw [List.forall_mem_cons] at hplaces ⊢
    exact ⟨hplaces.1, ih hplaces.2⟩
  | spelled _ _ ih =>
    rw [List.forall_mem_cons] at hplaces ⊢
    refine ⟨hplaces.1, ih fun c hc => ?_⟩
    exact (List.mem_append.mp hc).elim (mem_preorder_of_mem_causesAt hplaces.1) (hplaces.2 c)

theorem nodup (h : e.Tells shown places ms) (hshown : shown.Nodup) :
    ((spelledPlaces ms).filterMap e.numberAt ++ shown).Nodup := by
  induction h with
  | done => exact hshown
  | referred _ _ _ ih => exact ih hshown
  | @spelled shown places ms k hn _ ih =>
    have hnew : ((e.numberAt k).toList ++ shown).Nodup := by
      cases hk : e.numberAt k with
      | none => exact hshown
      | some n => exact List.nodup_cons.mpr ⟨fun hmem => hn n hmem hk, hshown⟩
    have hcons : (spelledPlaces (.spelled k :: ms)).filterMap e.numberAt =
        (e.numberAt k).toList ++ (spelledPlaces ms).filterMap e.numberAt := by
      change (k :: spelledPlaces ms).filterMap e.numberAt = _
      rw [List.filterMap_cons]
      cases e.numberAt k <;> rfl
    rw [hcons, List.append_assoc]
    exact (List.perm_append_comm_assoc ..).nodup_iff.mpr (ih hnew)

/-- What is referred to has a number that was spelled out before. -/
theorem exists_spelled (h : e.Tells shown places ms) {before after : List Mention}
    (hms : ms = before ++ .referred k :: after) :
    ∃ n, e.numberAt k = some n ∧ (n ∈ shown ∨ ∃ j, .spelled j ∈ before ∧ e.numberAt j = some n) := by
  induction h generalizing before with
  | done => simp at hms
  | @referred _ _ _ j n hn hshown _ ih =>
    cases before with
    | nil =>
      obtain ⟨rfl, -⟩ : j = k ∧ _ := by simpa using hms
      exact ⟨n, hn, Or.inl hshown⟩
    | cons m before =>
      obtain ⟨n, hk, hn⟩ := ih (List.cons.inj hms).2
      exact ⟨n, hk, hn.imp_right fun ⟨j, hj, hjn⟩ => ⟨j, List.mem_cons_of_mem _ hj, hjn⟩⟩
  | @spelled _ _ _ i _ _ ih =>
    cases before with
    | nil => simp at hms
    | cons m before =>
      obtain ⟨rfl, hms'⟩ := List.cons.inj hms
      obtain ⟨n, hk, hn⟩ := ih hms'
      refine ⟨n, hk, ?_⟩
      rw [List.mem_append, Option.mem_toList, or_assoc] at hn
      rcases hn with hi | hn | ⟨j, hj, hjn⟩
      · exact Or.inr ⟨i, List.mem_cons_self, hi⟩
      · exact Or.inl hn
      · exact Or.inr ⟨j, List.mem_cons_of_mem _ hj, hjn⟩

end Tells

/-! ## Counting -/

theorem count_spelledPlaces (ms : List Mention) (k : Nat) :
    (spelledPlaces ms).count k = ms.count (.spelled k) := by
  rw [spelledPlaces, List.count, List.countP_filterMap, List.count]
  refine List.countP_congr fun m _ => ?_
  cases m <;> simp [Mention.spelled?]

theorem mem_spelledPlaces : k ∈ spelledPlaces ms ↔ .spelled k ∈ ms := by
  rw [← List.count_pos_iff, count_spelledPlaces, List.count_pos_iff]

theorem count_place (ms : List Mention) (k : Nat) :
    (ms.map Mention.place).count k = ms.count (.spelled k) + ms.count (.referred k) := by
  induction ms with
  | nil => rfl
  | cons m ms ih =>
    rw [List.map_cons, List.count_cons, ih, List.count_cons, List.count_cons]
    cases m <;> simp [Mention.place] <;> omega

theorem count_le_one_of_numberAt {l : List Nat} (hl : (l.filterMap e.numberAt).Nodup)
    (hn : e.numberAt k = some n) : l.count k ≤ 1 := by
  refine le_trans ?_ (List.nodup_iff_count_le_one.mp hl n)
  rw [List.count, List.count, List.countP_filterMap]
  refine List.countP_mono_left fun a _ ha => ?_
  obtain rfl := beq_iff_eq.mp ha
  simp [hn]

section told

variable (hdesc : e.Descends) (hroot : e.root ≤ e.nodes.size) (hdiffer : e.NumbersDiffer)

include hdesc hroot hdiffer

theorem spelled_mem_before {before after : List Mention} (hms : e.mentions = before ++ .referred k :: after) :
    .spelled k ∈ before ∧ ∃ n, e.numberAt k = some n := by
  have htells := tells_mentions hdesc hroot
  have hplaces := htells.place_mem (by simp [e.root_mem_preorder])
  obtain ⟨n, hk, hn⟩ := htells.exists_spelled hms
  obtain ⟨j, hj, hjn⟩ := hn.resolve_left (by simp)
  have hjmem := hplaces (.spelled j) (hms ▸ List.mem_append_left _ hj)
  have hkmem := hplaces (.referred k) (hms ▸ List.mem_append_right _ List.mem_cons_self)
  exact ⟨hdiffer j hjmem k hkmem n hjn hk ▸ hj, n, hk⟩

/-- Exactly what is listed is spelled out. -/
theorem spelled_mem_mentions_iff : .spelled k ∈ e.mentions ↔ k ∈ e.preorder := by
  have htells := tells_mentions hdesc hroot
  refine ⟨fun hk => htells.place_mem (by simp [e.root_mem_preorder]) _ hk, fun hk => ?_⟩
  have hspelled : ∀ a ∈ e.mentions.map Mention.place, .spelled a ∈ e.mentions := by
    intro a ha
    obtain ⟨m, hm, rfl⟩ := List.mem_map.mp ha
    cases m with
    | spelled a => exact hm
    | referred a =>
      obtain ⟨before, after, hms⟩ := List.append_of_mem hm
      rw [hms]
      exact List.mem_append_left _ (spelled_mem_before hdesc hroot hdiffer hms).1
  -- the root is told, and with a node its causes
  rw [mem_preorder_iff] at hk
  induction hk with
  | refl => exact hspelled _ (htells.perm.mem_iff.mpr (by simp))
  | tail _ hc ih =>
    refine hspelled _ (htells.perm.mem_iff.mpr (List.mem_append_right _ ?_))
    exact List.mem_flatMap.mpr ⟨_, mem_spelledPlaces.mpr ih, hc⟩

variable (hshared : e.NumbersShared)

include hshared

/-- Every derived node is spelled out once: if it has no number, it is a cause once, of a node that is
spelled out once. -/
theorem count_spelled (hk : k ∈ e.preorder) (hd : e.isDerivedAt k = true) :
    e.mentions.count (.spelled k) = 1 := by
  have htells := tells_mentions hdesc hroot
  -- what follows from a node has a larger place
  induction hm : e.root - k using Nat.strong_induction_on generalizing k with
  | _ m ih =>
    have hpos : 0 < e.mentions.count (.spelled k) :=
      List.count_pos_iff.mpr ((spelled_mem_mentions_iff hdesc hroot hdiffer).mpr hk)
    suffices hle : e.mentions.count (.spelled k) ≤ 1 by omega
    cases hn : e.numberAt k with
    | some n =>
      have hnodup := htells.nodup List.nodup_nil
      rw [List.append_nil] at hnodup
      rw [← count_spelledPlaces]
      exact count_le_one_of_numberAt hnodup hn
    | none =>
      have hnever : e.mentions.count (.referred k) = 0 := by
        rw [List.count_eq_zero]
        intro hmem
        obtain ⟨before, after, hms⟩ := List.append_of_mem hmem
        obtain ⟨-, n, hk⟩ := spelled_mem_before hdesc hroot hdiffer hms
        cases hn.symm.trans hk
      have hcauses : ((spelledPlaces e.mentions).flatMap e.causesAt).count k = e.timesCause k := by
        refine count_flatMap_congr fun p hp => ?_
        rw [count_spelledPlaces]
        by_cases hmem : p ∈ e.preorder
        · have hlt := hdesc p hmem k hp
          have hle := hdesc.le_root hmem
          rw [ih (e.root - p) (by omega) hmem (isDerivedAt_of_mem hp) rfl,
            List.count_eq_one_of_mem e.nodup_preorder hmem]
        · rw [List.count_eq_zero_of_not_mem hmem, List.count_eq_zero_of_not_mem fun h =>
            hmem ((spelled_mem_mentions_iff hdesc hroot hdiffer).mp h)]
      have hcount := count_place e.mentions k
      rw [htells.perm.count_eq, List.singleton_append, List.count_cons, hcauses, hnever] at hcount
      split_ifs at hcount with hkr
      · have hzero : e.timesCause k = 0 := beq_iff_eq.mp hkr ▸ hdesc.timesCause_root
        omega
      · have htimes : e.timesCause k ≤ 1 := not_lt.mp fun hlt => by simpa [hn] using hshared k hk hd hlt
        omega

/-- Where causes come first and every derived node that is a cause more than once has a number of its own,
the outline tells every derived node once. -/
theorem toldOnce [Shown P] [Shown V] [Shown S] [Shown M] : e.ToldOnce where
  numbered := hshared
  lines := lines_outline hdesc hroot
  once _ hk hd := count_spelled hdesc hroot hdiffer hshared hk hd
  edges := by
    have htells := tells_mentions hdesc hroot
    refine htells.perm.trans (List.Perm.cons _ (List.perm_iff_count.mpr fun k => ?_))
    refine count_flatMap_congr fun p hp => ?_
    rw [count_spelledPlaces]
    by_cases hmem : p ∈ e.preorder
    · rw [count_spelled hdesc hroot hdiffer hshared hmem (isDerivedAt_of_mem hp),
        List.count_eq_one_of_mem e.nodup_preorder hmem]
    · rw [List.count_eq_zero_of_not_mem hmem, List.count_eq_zero_of_not_mem fun h =>
        hmem ((spelled_mem_mentions_iff hdesc hroot hdiffer).mp h)]
  earlier before after k hms := by
    obtain ⟨hk, n, hn⟩ := spelled_mem_before hdesc hroot hdiffer hms
    obtain ⟨terms, shared, first, second, hnode⟩ := isDerivedAt_iff.mp
      (isDerivedAt_of_isSome (Option.isSome_of_eq_some hn))
    rw [numberAt, hnode] at hn
    obtain rfl : shared = some n := hn
    refine ⟨hk, n, termsText terms, ?_, ?_⟩
    · simp [label, numberAt, hnode]
    · simp [label, hnode]

end told

/-- The outline of a stored incompatibility tells every derived node once. When the explanation is shortened
first it does so exactly if collapsing drops no node with a number for one without. -/
theorem toldOnce_ofStore [DecidableEq P] [VersionSet S V] [Shown P] [Shown V] [Shown S] [Shown M]
    {s : Store P V S M} {id : Nat} (hlt : ∀ n, ∀ c ∈ s.causesOf n, c < n) (hid : id < s.size)
    (known : P → List V) :
    (ofStore s id).ToldOnce ∧
      (((ofStore s id).collapse.simplify known).ToldOnce ↔ (ofStore s id).HandsOnNumbers) := by
  have hfirst := causesFirst_ofStore hlt hid
  have hroot : (ofStore s id).root < (ofStore s id).nodes.size := root_lt_size_ofStore hlt hid
  have hmarks := marks_ofStore hlt hid
  have hdiffer := numbersDiffer_ofStore hlt hid
  have hcollapsed : ((ofStore s id).collapse.simplify known).root ≤
      ((ofStore s id).collapse.simplify known).nodes.size := by
    have hsize : ((ofStore s id).collapse.simplify known).nodes.size = (ofStore s id).nodes.size := by
      rw [simplify, Array.size_map]
      exact (collapsed_spec hfirst).1.nodes
    rw [hsize]
    exact (hfirst.image_spec hroot).1.le
  refine ⟨toldOnce hfirst.descends hroot.le hdiffer fun k hk hd htwice => ?_, fun h => ?_, fun h => ?_⟩
  · exact (hmarks k hk).mpr ⟨hd, htwice⟩
  · rw [← hfirst.numbersShared_collapse_iff hroot hmarks, ← numbersShared_simplify_iff]
    exact h.numbered
  · refine toldOnce (descends_simplify_iff.mpr (hfirst.descends_collapse hroot)) hcollapsed
      (numbersDiffer_simplify_iff.mpr (hfirst.numbersDiffer_collapse hroot hdiffer)) ?_
    rwa [numbersShared_simplify_iff, hfirst.numbersShared_collapse_iff hroot hmarks]

end Explanation

/-! ## A number that is lost -/

namespace PackageTable

/-- Version 1 of package 1 requires a version of package 2 that is missing. Version 2 also requires package 3,
which is in conflict with package 2 since package 4, which that requires, requires a version of package 5
that is missing. -/
def sixPackages : PackageTable ℕ ℕ (Ranges ℕ) :=
  ((((((PackageTable.empty.add 0 1 (.single 1 .full)).add 1 1 (.single 2 (.atLeast 2))).add 1 2
    ((OrderedMap.single 2 .full).insert 3 .full)).add 2 1 (.single 4 .full)).add 3 1
    ((OrderedMap.single 5 .full).insert 2 (.below 3))).add 4 1 (.single 5 (.singleton 2))).add 5 1 .empty

theorem sixPackages_proper : sixPackages.Proper := by
  have hfull : LawfulVersionSet.Proper (.full : Ranges ℕ) := Ranges.canonical_full
  refine ((((((proper_empty.add 0 1 (proper_single_full 1)).add 1 1 (proper_single_atLeast 2 2)).add 1 2
    fun x hx => ?_).add 2 1 (proper_single_full 4)).add 3 1 fun x hx => ?_).add 4 1
    (proper_single 5 (Ranges.canonical_singleton 2))).add 5 1 fun x hx => by cases hx
  · rcases List.mem_pair.mp hx with rfl | rfl
    · exact hfull
    · exact hfull
  · rcases List.mem_pair.mp hx with rfl | rfl
    · exact hfull
    · exact Ranges.canonical_below 3

theorem sixPackages_ascending : sixPackages.Ascending := by
  change ∀ versions ∈ [[1], [1, 2], [1], [1], [1], [1]], versions.Pairwise fun v w => ¬ w < v
  decide

/-- If there is a version 2 of package 5, which requires package 6, of which there is none, then the node with
a number is not dropped, and all is told once. -/
theorem toldOnce_sixPackages :
    (resolveWithin 400 (sixPackages.add 5 2 (.single 6 .full)).provider () 0 1).1 =
        .error (.noSolution 28) ∧
      (Explanation.ofStore (resolveWithin 400 (sixPackages.add 5 2 (.single 6 .full)).provider () 0
        1).2.state.store 28).ToldOnce ∧
      ((Explanation.ofStore (resolveWithin 400 (sixPackages.add 5 2 (.single 6 .full)).provider () 0
        1).2.state.store 28).collapse.simplify (sixPackages.add 5 2 (.single 6 .full)).versions).ToldOnce := by
  have hproper : (sixPackages.add 5 2 (.single 6 .full)).Proper := sixPackages_proper.add 5 2 fun x hx => by
    obtain rfl := List.mem_singleton.mp hx
    exact Ranges.canonical_full
  have hascending : (sixPackages.add 5 2 (.single 6 .full)).Ascending := by
    change ∀ versions ∈ [[1], [1, 2], [1], [1], [1], [1, 2]], versions.Pairwise fun v w => ¬ w < v
    decide
  have hlt := (resolveWithin_grounded (provider_answersProper hproper) 400 () 0 1).causes_lt
  have hrun : (resolveWithin 400 (sixPackages.add 5 2 (.single 6 .full)).provider () 0 1).1 =
        .error (.noSolution 28) ∧
      28 < (resolveWithin 400 (sixPackages.add 5 2 (.single 6 .full)).provider () 0 1).2.state.store.size ∧
      (Explanation.ofStore (resolveWithin 400 (sixPackages.add 5 2 (.single 6 .full)).provider () 0
        1).2.state.store 28).HandsOnNumbers := by
    unfold Explanation.HandsOnNumbers
    rw [hascending.provider_eq]
    decide +kernel
  obtain ⟨hrun, hid, hhands⟩ := hrun
  obtain ⟨htold, hiff⟩ := Explanation.toldOnce_ofStore hlt hid (sixPackages.add 5 2 (.single 6 .full)).versions
  exact ⟨hrun, htold, hiff.mpr hhands⟩

/-- The node with a number is dropped for one without, which is spelled out twice. -/
theorem not_toldOnce_sixPackages :
    (resolveWithin 400 sixPackages.provider () 0 1).1 = .error (.noSolution 26) ∧
      ¬ ((Explanation.ofStore (resolveWithin 400 sixPackages.provider () 0 1).2.state.store
        26).collapse.simplify sixPackages.versions).ToldOnce := by
  have hrun : (resolveWithin 400 sixPackages.provider () 0 1).1 = .error (.noSolution 26) ∧
      let e := (Explanation.ofStore (resolveWithin 400 sixPackages.provider () 0 1).2.state.store
        26).collapse.simplify sixPackages.versions
      8 ∈ e.preorder ∧ e.isDerivedAt 8 = true ∧ e.mentions.count (.spelled 8) = 2 := by
    rw [sixPackages_ascending.provider_eq]
    decide +kernel
  obtain ⟨hrun, hmem, hd, htwice⟩ := hrun
  refine ⟨hrun, fun h => ?_⟩
  rw [h.once 8 hmem hd] at htwice
  cases htwice

end PackageTable

end DependencyResolution
