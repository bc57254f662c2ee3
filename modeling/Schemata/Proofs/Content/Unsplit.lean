import Mathlib.Data.List.Duplicate
import Schemata.Proofs.Content.Regrouping

/-!
# Elements that are not split

After elements that repeat with others in between have been turned into repeating choices, no element has
anything else between its declarations. The list is regrouped stretch by stretch, the last span first, so
that the positions of the earlier ones stay what they were.
-/

namespace Schemata

variable {fs fs' gs span members : List Field} {f g : Field} {s : Span} {spans : List Span} {t : SchemaType}
  {k : Tag × String × String} {q : QName} {stretches : List Stretch} {p p' : Stretch} {marker : Int}

-- ---------------------------------------------------------------------------
-- From the last span to the first
-- ---------------------------------------------------------------------------

/-- A span that begins with an element and has all declarations of the elements in it. -/
structure Span.Closed (s : Span) (fs : List Field) : Prop where
  ordered : s.first ≤ s.last
  inside : s.last < fs.length
  element : ∃ f ∈ s.part fs, f.isElement = true
  apart : ∀ f ∈ s.part fs, ∀ g ∈ fs.take s.first ++ fs.drop (s.last + 1), f.isElement = true → f.fullKey ≠ g.fullKey

theorem Stretch.Apart.symm (h : p.Apart p') : p'.Apart p := by
  intro hmerged f hf f' hf' helement hkey
  exact h hmerged.symm f' hf' f hf (Field.isElement_of_key helement hkey.symm) hkey.symm

/-- The least marker after a span has got a new one below all others. -/
theorem lowest_mergeSpan (hpart : ∀ f ∈ s.part fs, f.Bounded ∧ f.Legible)
    (helement : ∃ f ∈ s.part fs, f.isElement = true) (hroom : HasRoom fs 1) :
    lowest (mergeSpan fs s) = lowest fs - 1 := by
  have hmarker := freshNegativeChoice_of_hasRoom hroom
  have hchoice := repeatingChoice_membersOf hpart (freshNegativeChoice fs)
  obtain ⟨f, hf, helement⟩ := helement
  obtain ⟨g, hg, -⟩ := (hchoice.same _).mpr ⟨f, hf, helement, rfl⟩
  have hall : ∀ x ∈ mergeSpan fs s, x ∈ fs ∨ x.restrictions.choice = freshNegativeChoice fs := by
    intro x hx
    rw [mergeSpan_eq, Stretch.after] at hx
    simp only [List.mem_append, List.mem_filter] at hx
    obtain hx | (hx | hx) | hx := hx
    · exact .inl (List.mem_of_mem_take hx)
    · exact .inr (hchoice.marker x hx)
    · exact .inl (List.mem_of_mem_drop (List.mem_of_mem_take hx.1))
    · exact .inl (List.mem_of_mem_drop hx)
  refine le_antisymm ?_ (le_lowest_iff.mpr ⟨?_, fun x hx => ?_⟩)
  · have hmem : g ∈ mergeSpan fs s := by
      rw [mergeSpan_eq, Stretch.after]
      simp [hg]
    have hle := lowest_le hmem
    rwa [hchoice.marker g hg, hmarker] at hle
  · have hzero := lowest_le_zero fs
    omega
  · obtain hx | hx := hall x hx
    · have hle := lowest_le hx
      omega
    · rw [hx, hmarker]

/-- One more span, before all others. -/
theorem Regrouping.step {head : List Field} {rest : List Stretch} (h : Regrouping fs fs' (.kept head :: rest))
    (hlegible : ∀ f ∈ fs, f.Bounded ∧ f.Legible) (hs : s.Closed fs) (hhead : s.last < head.length) :
    Regrouping fs (mergeSpan fs' s) (.kept (fs.take s.first) ::
      .merged (freshNegativeChoice fs') (s.part fs) (membersOf (freshNegativeChoice fs') (s.part fs)) ::
      .kept (head.drop (s.last + 1)) :: rest) := by
  have hbefore : head ++ rest.flatMap Stretch.before = fs := h.before
  have hafter : head ++ rest.flatMap Stretch.after = fs' := h.after
  have hfirst := hs.ordered
  -- the span lies in what has been kept in front
  have htake : fs.take s.first = head.take s.first := by
    rw [← hbefore, List.take_append_of_le_length (by omega)]
  have hpart : s.part fs = s.part head := hbefore ▸ Span.part_append hhead _
  have hdrop : fs.drop (s.last + 1) = head.drop (s.last + 1) ++ rest.flatMap Stretch.before := by
    rw [← hbefore, List.drop_append_of_le_length (by omega)]
  have hpart' : s.part fs' = s.part fs := by
    rw [hpart, ← hafter, Span.part_append hhead]
  constructor
  case before =>
    simp only [List.flatMap_cons, Stretch.before]
    rw [← hdrop]
    exact s.parts hfirst fs
  case after =>
    rw [mergeSpan_eq, hpart']
    simp only [List.flatMap_cons]
    rw [htake, ← hafter, List.take_append_of_le_length (by omega), List.drop_append_of_le_length (by omega)]
    rfl
  case merged =>
    intro marker span members hmem
    simp only [List.mem_cons, reduceCtorEq, false_or, Stretch.merged.injEq] at hmem
    obtain ⟨rfl, rfl, rfl⟩ | hmem := hmem
    · refine repeatingChoice_membersOf (fun f hf => hlegible f ?_) _
      exact List.mem_of_mem_drop (List.mem_of_mem_take hf)
    · exact h.merged _ _ _ (List.mem_cons_of_mem _ hmem)
  case inhabited =>
    intro marker span members hmem
    simp only [List.mem_cons, reduceCtorEq, false_or, Stretch.merged.injEq] at hmem
    obtain ⟨rfl, rfl, rfl⟩ | hmem := hmem
    · exact hs.element
    · exact h.inhabited _ _ _ (List.mem_cons_of_mem _ hmem)
  case apart =>
    obtain ⟨hrest, hpairs⟩ := List.pairwise_cons.mp h.apart
    have hkept : ∀ {fields : List Field}, fields ⊆ head → ∀ p ∈ rest, Stretch.Apart (.kept fields) p :=
      fun hsub p hp hmerged f hf f' hf' => hrest p hp hmerged f (hsub hf) f' hf'
    have hspan : ∀ p : Stretch, (∀ f ∈ p.before, f ∈ fs.take s.first ++ fs.drop (s.last + 1)) →
        Stretch.Apart (.merged (freshNegativeChoice fs') (s.part fs)
          (membersOf (freshNegativeChoice fs') (s.part fs))) p :=
      fun p hp _ f hf f' hf' => hs.apart f hf f' (hp f' hf')
    refine List.pairwise_cons.mpr ⟨fun p hp => ?_, List.pairwise_cons.mpr ⟨fun p hp => hspan p fun f hf => ?_,
      List.pairwise_cons.mpr ⟨hkept (List.drop_subset _ _), hpairs⟩⟩⟩
    · obtain rfl | rfl | hp : p = _ ∨ p = _ ∨ p ∈ rest := by simpa using hp
      · exact (hspan (.kept (fs.take s.first)) fun f hf => List.mem_append_left _ hf).symm
      · exact fun hmerged => by simp [Stretch.marker?] at hmerged
      · exact hkept (htake ▸ List.take_subset _ _) p hp
    · rw [hdrop]
      obtain rfl | hp := List.mem_cons.mp hp
      · exact List.mem_append_right _ (List.mem_append_left _ hf)
      · exact List.mem_append_right _ (List.mem_append_right _ (List.mem_flatMap.mpr ⟨p, hp, hf⟩))

/-- What becomes of a list of fields when its spans are merged, the last one first. -/
structure Regrouped (fs : List Field) (spans : List Span) (fs' head : List Field) (rest : List Stretch) : Prop where
  regrouping : Regrouping fs fs' (.kept head :: rest)
  /-- What is kept in front reaches up to the first span. -/
  head : ∀ n, n ≤ fs.length → (∀ s ∈ spans, n ≤ s.first) → n ≤ head.length
  spans : ∀ s ∈ spans, ∃ marker members, Stretch.merged marker (s.part fs) members ∈ rest
  markings : Markings fs fs' (rest.filterMap Stretch.marker?)

theorem exists_regrouped (hlegible : ∀ f ∈ fs, f.Bounded ∧ f.Legible)
    (hasc : spans.Pairwise fun s t => s.last < t.first) (hspans : ∀ s ∈ spans, s.Closed fs) :
    ∃ head rest, Regrouped fs spans (spans.foldr (fun s fs => mergeSpan fs s) fs) head rest := by
  induction spans with
  | nil =>
    refine ⟨fs, [], ⟨?_, ?_, ?_, ?_, List.pairwise_singleton _ _⟩, fun n hn _ => hn, nofun, .nil fs⟩
    · simp [Stretch.before]
    · simp [Stretch.after]
    all_goals
      intro marker span members hmem
      simp at hmem
  | cons s spans ih =>
    obtain ⟨hs, hspans⟩ := List.forall_mem_cons.mp hspans
    obtain ⟨happart, hasc⟩ := List.pairwise_cons.mp hasc
    obtain ⟨head, rest, h⟩ := ih hasc hspans
    rw [List.foldr_cons]
    generalize hfs' : spans.foldr (fun s fs => mergeSpan fs s) fs = fs' at h ⊢
    have hhead : s.last < head.length := h.head _ hs.inside happart
    have hpart : s.part fs' = s.part fs := by
      have hbefore : head ++ rest.flatMap Stretch.before = fs := h.regrouping.before
      have hafter : head ++ rest.flatMap Stretch.after = fs' := h.regrouping.after
      rw [← hbefore, ← hafter, Span.part_append hhead, Span.part_append hhead]
    refine ⟨_, _, h.regrouping.step hlegible hs hhead, fun n hn hfirst => ?_, fun s' hs' => ?_, ?_⟩
    · rw [List.length_take]
      exact Nat.le_min.mpr ⟨hfirst s List.mem_cons_self, hn⟩
    · obtain rfl | hs' := List.mem_cons.mp hs'
      · exact ⟨_, _, List.mem_cons_self⟩
      · obtain ⟨marker, members, hmem⟩ := h.spans s' hs'
        exact ⟨marker, members, List.mem_cons_of_mem _ (List.mem_cons_of_mem _ hmem)⟩
    · refine h.markings.cons (lowest_mergeSpan (fun f hf => ?_) (hpart ▸ hs.element))
      exact hlegible f (List.mem_of_mem_drop (List.mem_of_mem_take (hpart ▸ hf)))

theorem closed_of_mem_disjointSpans (hlegible : ∀ f ∈ fs, f.Legible) (hs : s ∈ disjointSpans (repetitions fs)) :
    s.Closed fs := by
  obtain ⟨hordered, hinside⟩ := ordered_of_mem_disjointSpans hs
  refine ⟨hordered, hinside, ?_, fun f hf g hg helement hkey => ?_⟩
  · obtain ⟨⟨t, ht, hfirst, -⟩, -⟩ := ends_of_mem_disjointSpans hs
    obtain ⟨k, -, hcovers⟩ := mem_repetitions_iff.mp ht
    obtain ⟨f, hf, helement, -⟩ := mem_positions_iff.mp (hfirst ▸ hcovers.first)
    exact ⟨f, Span.mem_part_iff.mpr ⟨s.first, Nat.le_refl _, hordered, hf⟩, helement⟩
  · obtain ⟨i, hfirst, hlast, hi⟩ := Span.mem_part_iff.mp hf
    have hposition : ∀ {j : Nat}, fs[j]? = some g → s.first ≤ j ∧ j ≤ s.last := by
      intro j hj
      have hg := List.mem_of_getElem? hj
      have hidentity := (Field.identity_eq_iff (hlegible _ (List.mem_of_getElem? hi)) (hlegible g hg)).mpr hkey
      have hfpos : i ∈ positions fs f.identity := mem_positions_iff.mpr ⟨f, hi, helement, rfl⟩
      have hgpos : j ∈ positions fs f.identity :=
        mem_positions_iff.mpr ⟨g, hj, Field.isElement_of_key helement hkey.symm, hidentity.symm⟩
      exact within_of_mem_disjointSpans hs hfpos hfirst hlast j hgpos
    obtain hg | hg := List.mem_append.mp hg
    · obtain ⟨j, hj⟩ := List.mem_iff_getElem?.mp hg
      rw [List.getElem?_take] at hj
      split at hj
      · have := hposition hj
        omega
      · cases hj
    · obtain ⟨j, hj⟩ := List.mem_iff_getElem?.mp hg
      rw [List.getElem?_drop] at hj
      have := hposition hj
      omega

-- ---------------------------------------------------------------------------
-- Keys that are not split
-- ---------------------------------------------------------------------------

/-- Between two places that have a key all others have it. -/
def Together (ks : List (Tag × String × String)) (k : Tag × String × String) : Prop :=
  ∀ i j m : Nat, i ≤ j → j ≤ m → ks[i]? = some k → ks[m]? = some k → ks[j]? = some k

/-- Between two declarations of an element there are only declarations of this element. -/
def Unsplit (fs : List Field) : Prop :=
  ∀ f ∈ fs, f.isElement = true → Together (fs.map Field.fullKey) f.fullKey

variable {ks before after old new : List (Tag × String × String)}

theorem together_of_count_le (h : ks.count k ≤ 1) : Together ks k := by
  have hunique : ∀ i m : Nat, i < m → ks[i]? = some k → ks[m]? ≠ some k := by
    intro i m hlt hi hm
    obtain ⟨hi', hik⟩ := List.getElem?_eq_some_iff.mp hi
    obtain ⟨hm', hmk⟩ := List.getElem?_eq_some_iff.mp hm
    have htwice : List.Duplicate k ks :=
      List.duplicate_iff_exists_distinct_get.mpr ⟨⟨i, hi'⟩, ⟨m, hm'⟩, hlt, hik.symm, hmk.symm⟩
    have htwo := (List.duplicate_iff_sublist.mp htwice).count_le k
    rw [List.count_cons_self, List.count_cons_self] at htwo
    omega
  intro i j m hij hjm hi hm
  obtain hlt | rfl := Nat.lt_or_eq_of_le (hij.trans hjm)
  · exact absurd hm (hunique i m hlt hi)
  · exact Nat.le_antisymm hij hjm ▸ hi

/-- What lies elsewhere may be exchanged for other keys, as long as there was something. -/
theorem Together.exchange (h : Together (before ++ (old ++ after)) k) (hold : k ∉ old) (hne : old ≠ [])
    (hnew : k ∉ new) : Together (before ++ (new ++ after)) k := by
  have hpos := List.length_pos_iff.mpr hne
  -- a place in the new list with the key, as a place in the old one
  have hplace : ∀ i, (before ++ (new ++ after))[i]? = some k → i < before.length ∨ before.length + new.length ≤ i := by
    intro i hi
    by_contra hin
    rw [List.getElem?_append_right (by omega), List.getElem?_append_left (by omega)] at hi
    exact hnew (List.mem_of_getElem? hi)
  have hfront : ∀ i, i < before.length → (before ++ (new ++ after))[i]? = (before ++ (old ++ after))[i]? := by
    intro i hi
    rw [List.getElem?_append_left hi, List.getElem?_append_left hi]
  have hback : ∀ i, before.length + new.length ≤ i →
      (before ++ (new ++ after))[i]? = (before ++ (old ++ after))[i - new.length + old.length]? := by
    intro i hi
    rw [List.getElem?_append_right (by omega), List.getElem?_append_right (by omega),
      List.getElem?_append_right (by omega), List.getElem?_append_right (by omega)]
    congr 1
    omega
  intro i j m hij hjm hi hm
  obtain hm' | hm' := hplace m hm
  · rw [hfront j (by omega)]
    rw [hfront m hm'] at hm
    rw [hfront i (by omega)] at hi
    exact h i j m hij hjm hi hm
  · rw [hback m hm'] at hm
    obtain hi' | hi' := hplace i hi
    · -- then the key would be in what was exchanged
      rw [hfront i hi'] at hi
      have hin := h i before.length _ (by omega) (by omega) hi hm
      rw [List.getElem?_append_right (Nat.le_refl _), Nat.sub_self, List.getElem?_append_left hpos] at hin
      exact absurd (List.mem_of_getElem? hin) hold
    · rw [hback i hi'] at hi
      rw [hback j (by omega)]
      exact h _ _ _ (by omega) (by omega) hi hm

theorem Stretch.key_mem_of_after (hp : ∀ marker span members, p = .merged marker span members →
    RepeatingChoice marker span members) (hk : k ∈ p.after.map Field.fullKey) : k ∈ p.before.map Field.fullKey := by
  obtain ⟨f, hf, rfl⟩ := List.mem_map.mp hk
  cases p with
  | kept fields => exact List.mem_map_of_mem hf
  | merged marker span members =>
    obtain hf | hf := List.mem_append.mp hf
    · obtain ⟨g, hg, -, hkey⟩ := ((hp _ _ _ rfl).same _).mp ⟨f, hf, rfl⟩
      exact hkey ▸ List.mem_map_of_mem hg
    · exact List.mem_map_of_mem (List.mem_of_mem_filter hf)

/-- An element that is in no merged stretch stays together. -/
theorem Regrouping.together_of_kept (h : Regrouping fs fs' stretches) (hk : Together (fs.map Field.fullKey) k)
    (hkept : ∀ marker span members, Stretch.merged marker span members ∈ stretches →
      k ∉ span.map Field.fullKey) : Together (fs'.map Field.fullKey) k := by
  have hmerged := h.merged
  have hinhabited := h.inhabited
  rw [← h.before] at hk
  rw [← h.after]
  clear h
  suffices hall : ∀ front, Together (front ++ (stretches.flatMap Stretch.before).map Field.fullKey) k →
      Together (front ++ (stretches.flatMap Stretch.after).map Field.fullKey) k from hall [] hk
  clear hk
  induction stretches with
  | nil => exact fun front hfront => hfront
  | cons p stretches ih =>
    have hrest := ih (fun _ _ _ hmem => hkept _ _ _ (List.mem_cons_of_mem _ hmem))
      (fun _ _ _ hmem => hmerged _ _ _ (List.mem_cons_of_mem _ hmem))
      fun _ _ _ hmem => hinhabited _ _ _ (List.mem_cons_of_mem _ hmem)
    intro front hfront
    rw [List.flatMap_cons, List.map_append] at hfront ⊢
    rw [← List.append_assoc]
    refine hrest _ ?_
    rw [List.append_assoc]
    cases p with
    | kept fields => exact hfront
    | merged marker span members =>
      have hnot := hkept _ _ _ List.mem_cons_self
      obtain ⟨e, he, -⟩ := hinhabited _ _ _ List.mem_cons_self
      refine hfront.exchange hnot (by simpa [Stretch.before] using List.ne_nil_of_mem he) fun hmem => hnot ?_
      exact Stretch.key_mem_of_after (p := .merged marker span members) (fun _ _ _ heq => by
        cases heq
        exact hmerged _ _ _ List.mem_cons_self) hmem

/-- An element in a merged stretch is left once. -/
theorem Regrouping.count_of_merged (h : Regrouping fs fs' stretches)
    (hmem : Stretch.merged marker span members ∈ stretches) (hf : f ∈ span) (helement : f.isElement = true) :
    (fs'.map Field.fullKey).count f.fullKey ≤ 1 := by
  have hchoice := h.merged _ _ _ hmem
  obtain ⟨front, back, rfl⟩ := List.append_of_mem hmem
  obtain ⟨-, hback, hfront⟩ := List.pairwise_append.mp h.apart
  have hnone : ∀ p ∈ front ++ back, f.fullKey ∉ p.after.map Field.fullKey := by
    intro p hp hkey
    have hsound : ∀ marker' span' members', p = .merged marker' span' members' →
        RepeatingChoice marker' span' members' := by
      rintro marker' span' members' rfl
      exact h.merged _ _ _ ((List.perm_middle.mem_iff).mpr (List.mem_cons_of_mem _ hp))
    obtain ⟨g, hg, hgkey⟩ := List.mem_map.mp (Stretch.key_mem_of_after hsound hkey)
    have happart : Stretch.Apart (.merged marker span members) p := by
      obtain hp | hp := List.mem_append.mp hp
      · exact (hfront p hp _ List.mem_cons_self).symm
      · exact (List.pairwise_cons.mp hback).1 p hp
    exact happart (.inl rfl) f hf g hg helement hgkey.symm
  have hothers : f.fullKey ∉ ((span.filter fun f => !f.isElement).map Field.fullKey) := by
    intro hkey
    obtain ⟨g, hg, hgkey⟩ := List.mem_map.mp hkey
    have hno := (List.mem_filter.mp hg).2
    rw [Field.isElement_of_key helement hgkey] at hno
    cases hno
  have hzero : ∀ ps : List Stretch, ps ⊆ front ++ back →
      ((ps.flatMap Stretch.after).map Field.fullKey).count f.fullKey = 0 := by
    intro ps hps
    refine List.count_eq_zero.mpr fun hkey => ?_
    obtain ⟨g, hg, hgkey⟩ := List.mem_map.mp hkey
    obtain ⟨p, hp, hgp⟩ := List.mem_flatMap.mp hg
    exact hnone p (hps hp) (hgkey ▸ List.mem_map_of_mem hgp)
  rw [← h.after, List.flatMap_append, List.flatMap_cons, List.map_append, List.map_append, List.count_append,
    List.count_append, hzero _ (List.subset_append_left _ _), hzero _ (List.subset_append_right _ _),
    Stretch.after, List.map_append, List.count_append, List.count_eq_zero.mpr hothers]
  have hone := List.nodup_iff_count_le_one.mp hchoice.keys f.fullKey
  omega

-- ---------------------------------------------------------------------------
-- What is left of the fields
-- ---------------------------------------------------------------------------

namespace Regrouping

theorem exists_element_iff (h : Regrouping fs fs' stretches) (k : Tag × String × String) :
    (∃ f ∈ fs', f.isElement = true ∧ f.fullKey = k) ↔ ∃ f ∈ fs, f.isElement = true ∧ f.fullKey = k := by
  have hone : ∀ p ∈ stretches, (∃ f ∈ p.after, f.isElement = true ∧ f.fullKey = k) ↔
      ∃ f ∈ p.before, f.isElement = true ∧ f.fullKey = k := by
    intro p hp
    cases p with
    | kept fields => exact Iff.rfl
    | merged marker span members =>
      have hchoice := h.merged _ _ _ hp
      simp only [Stretch.after, Stretch.before, List.mem_append, List.mem_filter, or_and_right, exists_or]
      constructor
      · rintro (⟨f, hf, -, hkey⟩ | ⟨f, ⟨hf, -⟩, helement, hkey⟩)
        · exact (hchoice.same k).mp ⟨f, hf, hkey⟩
        · exact ⟨f, hf, helement, hkey⟩
      · rintro ⟨f, hf, helement, hkey⟩
        obtain ⟨g, hg, hgkey⟩ := (hchoice.same k).mpr ⟨f, hf, helement, hkey⟩
        exact .inl ⟨g, hg, Field.isElement_of_key helement (hgkey.trans hkey.symm), hgkey⟩
  rw [← h.before, ← h.after]
  simp only [List.mem_flatMap]
  constructor
  · rintro ⟨f, ⟨p, hp, hf⟩, hkey⟩
    obtain ⟨g, hg, hgkey⟩ := (hone p hp).mp ⟨f, hf, hkey⟩
    exact ⟨g, ⟨p, hp, hg⟩, hgkey⟩
  · rintro ⟨f, ⟨p, hp, hf⟩, hkey⟩
    obtain ⟨g, hg, hgkey⟩ := (hone p hp).mpr ⟨f, hf, hkey⟩
    exact ⟨g, ⟨p, hp, hg⟩, hgkey⟩

theorem filter_not_isElement (h : Regrouping fs fs' stretches) :
    fs'.filter (!·.isElement) = fs.filter (!·.isElement) := by
  rw [← h.before, ← h.after, List.filter_flatMap, List.filter_flatMap]
  refine List.flatMap_congr fun p hp => ?_
  cases p with
  | kept fields => rfl
  | merged marker span members =>
    have hmembers : members.filter (!·.isElement) = [] := by
      refine List.filter_eq_nil_iff.mpr fun g hg => ?_
      obtain ⟨f, -, helement, hkey⟩ := ((h.merged _ _ _ hp).same _).mp ⟨g, hg, rfl⟩
      simp [Field.isElement_of_key helement hkey.symm]
    simp only [Stretch.after, Stretch.before, List.filter_append, hmembers, List.nil_append, List.filter_filter,
      Bool.and_self]

theorem legible (h : Regrouping fs fs' stretches) (hfs : ∀ f ∈ fs, f.Legible) : ∀ f ∈ fs', f.Legible := by
  intro f' hf'
  cases helement' : f'.isElement with
  | true =>
    obtain ⟨f, hf, -, hkey⟩ := (h.exists_element_iff _).mp ⟨f', hf', helement', rfl⟩
    exact (hfs f hf).congr hkey.symm
  | false =>
    have hmem : f' ∈ fs'.filter (!·.isElement) := List.mem_filter.mpr ⟨hf', by rw [helement']; rfl⟩
    rw [h.filter_not_isElement] at hmem
    exact hfs f' (List.mem_of_mem_filter hmem)

theorem offers (h : Regrouping fs fs' stretches) (hf : f ∈ fs) (helement : f.isElement = true)
    (hq : f.hasType q = true) : Offers fs' f.fullKey q := by
  rw [← h.before] at hf
  obtain ⟨p, hp, hf⟩ := List.mem_flatMap.mp hf
  have hmem : ∀ {g}, g ∈ p.after → g ∈ fs' := fun hg => h.after ▸ List.mem_flatMap.mpr ⟨p, hp, hg⟩
  cases p with
  | kept fields => exact ⟨f, hmem hf, rfl, hq⟩
  | merged marker span members =>
    have hchoice := h.merged _ _ _ hp
    obtain ⟨g, hg, hkey⟩ := (hchoice.same _).mpr ⟨f, hf, helement, rfl⟩
    exact ⟨g, hmem (List.mem_append_left _ hg), hkey, (hchoice.types g hg q).mpr ⟨f, hf, hkey.symm, hq⟩⟩

end Regrouping

theorem getElem?_keys_iff {i : Nat} : (fs.map Field.fullKey)[i]? = some k ↔ ∃ f, fs[i]? = some f ∧ f.fullKey = k := by
  rw [List.getElem?_map, Option.map_eq_some_iff]

theorem gapless_iff_together (hlegible : ∀ f ∈ fs, f.Legible) (hf : f ∈ fs) (helement : f.isElement = true) :
    Gapless fs f.identity ↔ Together (fs.map Field.fullKey) f.fullKey := by
  have hposition : ∀ i, i ∈ positions fs f.identity ↔ (fs.map Field.fullKey)[i]? = some f.fullKey := by
    intro i
    rw [mem_positions_iff, getElem?_keys_iff]
    refine exists_congr fun g => and_congr_right fun hg => ?_
    have hidentity := Field.identity_eq_iff (hlegible g (List.mem_of_getElem? hg)) (hlegible f hf)
    rw [hidentity]
    exact and_iff_right_of_imp (Field.isElement_of_key helement)
  simp only [Gapless, Together, hposition]
  constructor
  · exact fun h i j m hij hjm hi hm => h i hi m hm j hij hjm
  · exact fun h i hi m hm j hij hjm => h i j m hij hjm hi hm

theorem repetitions_of_unsplit (hlegible : ∀ f ∈ fs, f.Legible) (h : Unsplit fs) : repetitions fs = [] := by
  refine List.eq_nil_iff_forall_not_mem.mpr fun s hs => ?_
  obtain ⟨k, hgap, hcovers⟩ := mem_repetitions_iff.mp hs
  obtain ⟨f, hf, helement, rfl⟩ := mem_positions_iff.mp hcovers.first
  have hmem := List.mem_of_getElem? hf
  exact hgap ((gapless_iff_together hlegible hmem helement).mpr (h f hmem helement))

/-- Whatever was split is in a merged stretch, and what was not stays together. -/
theorem Regrouped.unsplit {head : List Field} {rest : List Stretch} (hlegible : ∀ f ∈ fs, f.Legible)
    (h : Regrouped fs (disjointSpans (repetitions fs)).reverse fs' head rest) : Unsplit fs' := by
  intro f' hf' helement'
  obtain ⟨f, hf, helement, hkey⟩ := (h.regrouping.exists_element_iff _).mp ⟨f', hf', helement', rfl⟩
  rw [← hkey]
  by_cases hmerged : ∃ marker span members, Stretch.merged marker span members ∈ .kept head :: rest ∧
      ∃ g ∈ span, g.fullKey = f.fullKey
  · obtain ⟨marker, span, members, hmem, g, hg, hgkey⟩ := hmerged
    rw [← hgkey]
    exact together_of_count_le (h.regrouping.count_of_merged hmem hg (Field.isElement_of_key helement hgkey))
  · refine h.regrouping.together_of_kept ((gapless_iff_together hlegible hf helement).mp ?_) ?_
    · by_contra hgap
      obtain ⟨s, hs, hall⟩ := exists_span_of_not_gapless hgap
      obtain ⟨marker, members, hmem⟩ := h.spans s (List.mem_reverse.mpr hs)
      obtain ⟨i, hi⟩ := List.mem_iff_getElem?.mp hf
      obtain ⟨hfirst, hlast⟩ := hall i (mem_positions_iff.mpr ⟨f, hi, helement, rfl⟩)
      exact hmerged ⟨marker, _, members, List.mem_cons_of_mem _ hmem, f,
        Span.mem_part_iff.mpr ⟨i, hfirst, hlast, hi⟩, rfl⟩
    · intro marker span members hmem hin
      obtain ⟨g, hg, hgkey⟩ := List.mem_map.mp hin
      exact hmerged ⟨marker, span, members, hmem, g, hg, hgkey⟩

/-- The markers are new and negative exactly if there is room for them. -/
theorem Markings.fresh_iff {markers : List Int} (h : Markings fs fs' markers) (hwords : HasRoom fs 0) :
    (markers.Nodup ∧ ∀ m ∈ markers, m < 0 ∧ ∀ f ∈ fs, f.restrictions.choice ≠ m) ↔ HasRoom fs markers.length := by
  constructor
  · rintro ⟨-, hall⟩
    by_contra hno
    obtain ⟨m, hm, hnonneg⟩ := h.beyond hwords hno
    exact absurd (hall m hm).1 (Int.not_lt.mpr hnonneg)
  · intro hroom
    refine ⟨(h.ascending hroom).imp fun {_ _} => ne_of_lt, fun m hm => ?_⟩
    obtain ⟨-, hbelow⟩ := h.below hroom m hm
    have hzero := lowest_le_zero fs
    refine ⟨by omega, fun f hf heq => ?_⟩
    have hle := lowest_le hf
    omega

namespace SchemaType

theorem exists_regrouped_groupRepetitions (t : SchemaType) (hrecord : t.isEnumeration = false)
    (hbounds : ∀ f ∈ t.fields, f.Bounded) (hnames : ∀ f ∈ t.fields, f.Legible) :
    ∃ head rest, Regrouped t.fields (disjointSpans (repetitions t.fields)).reverse t.groupRepetitions.fields
      head rest := by
  have hfields : t.groupRepetitions.fields =
      (disjointSpans (repetitions t.fields)).reverse.foldr (fun s fs => mergeSpan fs s) t.fields := by
    rw [groupRepetitions, hrecord, List.foldr_reverse]
    rfl
  rw [hfields]
  exact exists_regrouped (fun f hf => ⟨hbounds f hf, hnames f hf⟩)
    (List.pairwise_reverse.mpr (pairwise_disjointSpans (repetitions t.fields))) fun s hs =>
    closed_of_mem_disjointSpans hnames (List.mem_reverse.mp hs)

/-- Elements that repeat with others in between become members of repeating choices. After that no element is
split, the same elements are there, all other fields are there as they were and in the order in which they
were, and no type of an element is lost; a second time changes nothing. The list is regrouped stretch by
stretch. The markers of the repeating choices are new and negative exactly if there is room for them below
the least marker. -/
theorem groupRepetitions_regroups (t : SchemaType) (hrecord : t.isEnumeration = false) (hbounds : ∀ f ∈ t.fields, f.Bounded)
    (hnames : ∀ f ∈ t.fields, f.Legible) (hwords : HasRoom t.fields 0) :
    Unsplit t.groupRepetitions.fields ∧
    (∀ k, (∃ f ∈ t.groupRepetitions.fields, f.isElement = true ∧ f.fullKey = k) ↔
      ∃ f ∈ t.fields, f.isElement = true ∧ f.fullKey = k) ∧
    t.groupRepetitions.fields.filter (!·.isElement) = t.fields.filter (!·.isElement) ∧
    (∀ f ∈ t.fields, f.isElement = true → ∀ q, f.hasType q = true → Offers t.groupRepetitions.fields f.fullKey q) ∧
    t.groupRepetitions.groupRepetitions = t.groupRepetitions ∧
    ∃ stretches, Regrouping t.fields t.groupRepetitions.fields stretches ∧
      (((stretches.filterMap Stretch.marker?).Nodup ∧ ∀ m ∈ stretches.filterMap Stretch.marker?,
        m < 0 ∧ ∀ f ∈ t.fields, f.restrictions.choice ≠ m) ↔
        HasRoom t.fields (stretches.filterMap Stretch.marker?).length) := by
  obtain ⟨head, rest, h⟩ := t.exists_regrouped_groupRepetitions hrecord hbounds hnames
  have hunsplit := h.unsplit hnames
  have hlegible := h.regrouping.legible hnames
  refine ⟨hunsplit, h.regrouping.exists_element_iff, h.regrouping.filter_not_isElement,
    fun f hf helement q hq => h.regrouping.offers hf helement hq, ?_, .kept head :: rest, h.regrouping,
    h.markings.fresh_iff hwords⟩
  rw [groupRepetitions]
  split
  · rfl
  · have hnone : disjointSpans [] = [] := by
      rw [disjointSpans, List.mergeSort_nil]
    rw [repetitions_of_unsplit hlegible hunsplit, hnone, List.foldl_nil]
    cases t.groupRepetitions
    rfl

end SchemaType

namespace Alternating

def element (name : String) (max marker : Int) : Field :=
  { name, tag := .element, types := [.ofNative Native.string],
    restrictions := { minOccurs := some 1, maxOccurs := some max, choice := marker } }

/-- An element that repeats with another one in between, and a marker. -/
def record (marker : Int) : SchemaType :=
  { qname := ⟨"urn:t", "A"⟩, tag := .complexType
    fields := [element "a" 1 marker, element "b" 2 0, { name := "x", tag := .attr }, element "a" 1 0] }

/-- Below the least marker there is none, and the repeating choice gets the greatest. -/
theorem no_room_below :
    (record (-9223372036854775808)).isEnumeration = false ∧
    (∀ f ∈ (record (-9223372036854775808)).fields, f.Bounded ∧ f.Legible) ∧
    HasRoom (record (-9223372036854775808)).fields 0 ∧
    ((record (-9223372036854775808)).groupRepetitions.fields.map fun f =>
      (f.name, f.restrictions.min, f.restrictions.max, f.restrictions.choice)) =
        [("a", 2, 4, 9223372036854775807), ("b", 1, 4, 9223372036854775807), ("x", 1, 1, 0)] := by
  decide +kernel

theorem record_regroups :
    (record 0).isEnumeration = false ∧ (∀ f ∈ (record 0).fields, f.Bounded ∧ f.Legible) ∧
    HasRoom (record 0).fields 0 ∧ Unsplit (record 0).groupRepetitions.fields ∧
    (record 0).groupRepetitions.groupRepetitions = (record 0).groupRepetitions ∧
    ∃ stretches, Regrouping (record 0).fields (record 0).groupRepetitions.fields stretches := by
  have hfields : ∀ f ∈ (record 0).fields, f.Bounded ∧ f.Legible := by decide +kernel
  obtain ⟨hunsplit, -, -, -, htwice, stretches, hregrouping, -⟩ := (record 0).groupRepetitions_regroups
    (by decide) (fun f hf => (hfields f hf).1) (fun f hf => (hfields f hf).2) (by decide)
  exact ⟨by decide, hfields, by decide, hunsplit, htwice, stretches, hregrouping⟩

end Alternating

end Schemata
