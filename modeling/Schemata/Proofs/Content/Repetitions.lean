import Mathlib.Data.Finset.Card
import Mathlib.Data.List.Pairwise
import Mathlib.Order.Interval.Finset.Nat
import Schemata.Content.Repeated
import Schemata.Text.Split

/-!
# Repetitions and the spans that hold them

An element whose occurrences have something else between them is held, with all its occurrences, by one of
the disjoint spans. A span begins and ends with such an element. So what occurs in a span at all occurs
nowhere else: were there a further occurrence, what the span begins or ends with would have to be the same
element.
-/

namespace Schemata

variable {fs : List Field} {f g : Field} {k : String} {s t u : Span} {spans : List Span} {pos : List Nat}
  {i j : Nat}

-- ---------------------------------------------------------------------------
-- Identities
-- ---------------------------------------------------------------------------

theorem Text.parted_inj {sep : Char} {cs cs' rest rest' : List Char} (hcs : sep ∉ cs) (hcs' : sep ∉ cs') :
    cs ++ sep :: rest = cs' ++ sep :: rest' ↔ cs = cs' ∧ rest = rest' := by
  constructor
  · intro h
    have hcut := (cut?_append hcs rest).symm.trans (h ▸ cut?_append hcs' rest')
    exact Prod.mk.inj (Option.some.inj hcut)
  · rintro ⟨rfl, rfl⟩
    rfl

theorem Tag.parse?_text (tag : Tag) : Tag.parse? tag.text = some tag := by
  cases tag <;> decide

theorem Tag.text_injective : Function.Injective Tag.text := fun tag tag' h =>
  Option.some.inj ((tag.parse?_text.symm.trans (congrArg Tag.parse? h)).trans tag'.parse?_text)

namespace Field

/-- The construct, the namespace and the name of a field. -/
def fullKey (f : Field) : Tag × String × String :=
  (f.tag, f.ns, f.name)

/-- Namespace and name are free of the character that parts them in an identity. -/
def Legible (f : Field) : Prop :=
  '\x00' ∉ f.ns.toList ∧ '\x00' ∉ f.name.toList

instance (f : Field) : Decidable f.Legible :=
  inferInstanceAs (Decidable (_ ∧ _))

theorem toList_identity (f : Field) : f.identity.toList =
    f.tag.text.toList ++ '\x00' :: (f.ns.toList ++ '\x00' :: f.name.toList) := by
  simp [identity]

theorem identity_eq_iff (hf : f.Legible) (hg : g.Legible) : f.identity = g.identity ↔ f.fullKey = g.fullKey := by
  have htag : ∀ tag : Tag, '\x00' ∉ tag.text.toList := fun tag => by cases tag <;> decide
  rw [← String.toList_inj, toList_identity, toList_identity, Text.parted_inj (htag _) (htag _),
    Text.parted_inj hf.1 hg.1, String.toList_inj, String.toList_inj, String.toList_inj,
    Tag.text_injective.eq_iff, fullKey, fullKey, Prod.mk.injEq, Prod.mk.injEq]

end Field

-- ---------------------------------------------------------------------------
-- Positions
-- ---------------------------------------------------------------------------

theorem mem_positions_iff : i ∈ positions fs k ↔
    ∃ f, fs[i]? = some f ∧ f.isElement = true ∧ f.identity = k := by
  simp [positions, List.mem_zipIdx_iff_getElem?]

theorem pairwise_positions (fs : List Field) (k : String) : (positions fs k).Pairwise (· < ·) := by
  have hall : (fs.zipIdx.map (·.2)).Pairwise (· < ·) := by
    rw [List.zipIdx_map_snd]
    exact List.pairwise_lt_range'
  exact hall.sublist (List.filter_sublist.map _)

/-- The occurrences of an element have nothing else between them. -/
def Gapless (fs : List Field) (k : String) : Prop :=
  ∀ i ∈ positions fs k, ∀ j ∈ positions fs k, ∀ m, i ≤ m → m ≤ j → m ∈ positions fs k

/-- The span from the first to the last occurrence of an element. -/
structure Span.Covers (s : Span) (fs : List Field) (k : String) : Prop where
  first : s.first ∈ positions fs k
  last : s.last ∈ positions fs k
  within : ∀ i ∈ positions fs k, s.first ≤ i ∧ i ≤ s.last

theorem Span.Covers.ordered (hs : s.Covers fs k) : s.first ≤ s.last :=
  (hs.within _ hs.first).2

theorem Span.Covers.eq (hs : s.Covers fs k) (ht : t.Covers fs k) : s = t := by
  have hfirst := Nat.le_antisymm (hs.within _ ht.first).1 (ht.within _ hs.first).1
  have hlast := Nat.le_antisymm (ht.within _ hs.last).2 (hs.within _ ht.last).2
  cases s
  cases t
  rw [Span.mk.injEq]
  exact ⟨hfirst, hlast⟩

theorem covers_ends (hpos : positions fs k ≠ []) :
    Span.Covers ⟨(positions fs k).headD 0, (positions fs k).getLastD 0⟩ fs k := by
  have hasc := pairwise_positions fs k
  constructor
  case first =>
    rw [List.headD_eq_head?_getD, List.head?_eq_some_head hpos]
    exact List.head_mem hpos
  case last =>
    rw [List.getLastD_eq_getLast?, List.getLast?_eq_some_getLast hpos]
    exact List.getLast_mem hpos
  case within =>
    have hle := hasc.imp fun {_ _} => Nat.le_of_lt
    intro i hi
    rw [List.headD_eq_head?_getD, List.head?_eq_some_head hpos, List.getLastD_eq_getLast?,
      List.getLast?_eq_some_getLast hpos]
    exact ⟨hle.rel_head hi, hle.rel_getLast hi⟩

/-- Occurrences fill the span from the first to the last of them exactly if there are as many as it is
long. -/
theorem Span.Covers.gapless_iff (hs : s.Covers fs k) :
    Gapless fs k ↔ s.last - s.first + 1 ≤ (positions fs k).length := by
  have hnodup : (positions fs k).Nodup := (pairwise_positions fs k).imp Nat.ne_of_lt
  have hsubset : (positions fs k).toFinset ⊆ Finset.Icc s.first s.last := fun i hi =>
    Finset.mem_Icc.mpr (hs.within i (List.mem_toFinset.mp hi))
  have hlength : (Finset.Icc s.first s.last).card = s.last - s.first + 1 := by
    have := hs.ordered
    rw [Nat.card_Icc]
    omega
  rw [← hlength, ← List.toFinset_card_of_nodup hnodup]
  constructor
  · intro hfs
    refine Finset.card_le_card fun m hm => ?_
    obtain ⟨hfirst, hlast⟩ := Finset.mem_Icc.mp hm
    exact List.mem_toFinset.mpr (hfs _ hs.first _ hs.last m hfirst hlast)
  · intro hcard i hi j hj m him hmj
    have hall := Finset.eq_of_subset_of_card_le hsubset hcard
    have hm : m ∈ Finset.Icc s.first s.last :=
      Finset.mem_Icc.mpr ⟨(hs.within i hi).1.trans him, hmj.trans (hs.within j hj).2⟩
    exact List.mem_toFinset.mp (hall ▸ hm)

theorem gapless_of_positions_eq_nil (hpos : positions fs k = []) : Gapless fs k := by
  intro i hi
  rw [hpos] at hi
  exact absurd hi List.not_mem_nil

-- ---------------------------------------------------------------------------
-- Repetitions
-- ---------------------------------------------------------------------------

/-- Repetitions are the elements that occur with something else in between, each with the span that covers
it. -/
theorem mem_repetitions_iff : s ∈ repetitions fs ↔ ∃ k, ¬ Gapless fs k ∧ s.Covers fs k := by
  simp only [repetitions, List.mem_filterMap, List.mem_eraseDups, Option.ite_none_right_eq_some,
    Option.some.injEq]
  constructor
  · rintro ⟨k, -, ⟨hseveral, hlong⟩, rfl⟩
    have hcovers := covers_ends (List.ne_nil_of_length_pos (Nat.lt_of_succ_lt hseveral))
    exact ⟨k, fun hgapless => absurd (hcovers.gapless_iff.mp hgapless) (Nat.not_le.mpr hlong), hcovers⟩
  · rintro ⟨k, hgap, hs⟩
    have hpos : positions fs k ≠ [] := List.ne_nil_of_mem hs.first
    have hcovers := covers_ends hpos
    have hlong := Nat.not_le.mp fun hle => hgap (hcovers.gapless_iff.mpr hle)
    obtain ⟨f, hf, helement, rfl⟩ := mem_positions_iff.mp hs.first
    refine ⟨f.identity, ?_, ⟨?_, hlong⟩, hcovers.eq hs⟩
    · exact List.mem_map_of_mem (List.mem_filter.mpr ⟨List.mem_of_getElem? hf, helement⟩)
    · -- a single occurrence has no gap
      refine Nat.lt_of_not_le fun hone => hgap ?_
      obtain ⟨p, hp⟩ := List.length_eq_one_iff.mp (Nat.le_antisymm hone (List.length_pos_iff.mpr hpos))
      simp only [Gapless, hp, List.mem_singleton]
      exact fun i hi j hj m him hmj => Nat.le_antisymm (hj ▸ hmj) (hi ▸ him)

-- ---------------------------------------------------------------------------
-- Disjoint spans
-- ---------------------------------------------------------------------------

/-- No span begins before an earlier one. -/
abbrev Ascending (spans : List Span) : Prop :=
  spans.Pairwise fun s t => s.first ≤ t.first

theorem first_le_of_mem_joinSpans (h : Ascending (s :: spans)) (hu : u ∈ joinSpans s spans) :
    s.first ≤ u.first := by
  induction spans generalizing s with
  | nil => exact List.mem_singleton.mp hu ▸ Nat.le_refl _
  | cons t spans ih =>
    obtain ⟨hs, hspans⟩ := List.pairwise_cons.mp h
    rw [joinSpans] at hu
    split at hu
    · refine @ih ⟨s.first, max s.last t.last⟩ (List.pairwise_cons.mpr ⟨fun v hv => ?_, hspans.of_cons⟩) hu
      exact hs v (List.mem_cons_of_mem _ hv)
    · obtain rfl | hu := List.mem_cons.mp hu
      · exact Nat.le_refl _
      · exact (hs t List.mem_cons_self).trans (ih hspans hu)

theorem pairwise_joinSpans (h : Ascending (s :: spans)) :
    (joinSpans s spans).Pairwise fun s t => s.last < t.first := by
  induction spans generalizing s with
  | nil => exact List.pairwise_singleton _ _
  | cons t spans ih =>
    obtain ⟨hs, hspans⟩ := List.pairwise_cons.mp h
    rw [joinSpans]
    split
    case isTrue =>
      refine ih (List.pairwise_cons.mpr ⟨fun v hv => ?_, hspans.of_cons⟩)
      exact hs v (List.mem_cons_of_mem _ hv)
    case isFalse happart =>
      refine List.pairwise_cons.mpr ⟨fun v hv => ?_, ih hspans⟩
      exact Nat.lt_of_lt_of_le (Nat.lt_of_not_le happart) (first_le_of_mem_joinSpans hspans hv)

/-- Every span is in one of those that are joined. -/
theorem exists_mem_joinSpans (h : Ascending (s :: spans)) (ht : t ∈ s :: spans) :
    ∃ u ∈ joinSpans s spans, u.first ≤ t.first ∧ t.last ≤ u.last := by
  induction spans generalizing s t with
  | nil => exact ⟨s, List.mem_singleton_self s, List.mem_singleton.mp ht ▸ ⟨Nat.le_refl _, Nat.le_refl _⟩⟩
  | cons v spans ih =>
    obtain ⟨hs, hspans⟩ := List.pairwise_cons.mp h
    rw [joinSpans]
    split
    case isTrue =>
      have hjoined : Ascending (⟨s.first, max s.last v.last⟩ :: spans) :=
        List.pairwise_cons.mpr ⟨fun w hw => hs w (List.mem_cons_of_mem _ hw), hspans.of_cons⟩
      obtain rfl | rfl | ht := List.mem_cons.mp ht |>.imp_right List.mem_cons.mp
      · obtain ⟨u, hu, hfirst, hlast⟩ := ih hjoined List.mem_cons_self
        exact ⟨u, hu, hfirst, (Nat.le_max_left _ _).trans hlast⟩
      · obtain ⟨u, hu, hfirst, hlast⟩ := ih hjoined List.mem_cons_self
        exact ⟨u, hu, hfirst.trans (hs t List.mem_cons_self), (Nat.le_max_right _ _).trans hlast⟩
      · exact ih hjoined (List.mem_cons_of_mem _ ht)
    case isFalse =>
      obtain rfl | ht := List.mem_cons.mp ht
      · exact ⟨t, List.mem_cons_self, Nat.le_refl _, Nat.le_refl _⟩
      · obtain ⟨u, hu, hin⟩ := ih hspans ht
        exact ⟨u, List.mem_cons_of_mem _ hu, hin⟩

/-- A joined span begins and ends where spans do that are in it. -/
theorem ends_of_mem_joinSpans (hu : u ∈ joinSpans s spans) :
    (∃ t ∈ s :: spans, t.first = u.first ∧ t.last ≤ u.last) ∧ ∃ t ∈ s :: spans, t.last = u.last := by
  induction spans generalizing s with
  | nil =>
    obtain rfl := List.mem_singleton.mp hu
    exact ⟨⟨u, List.mem_cons_self, rfl, Nat.le_refl _⟩, u, List.mem_cons_self, rfl⟩
  | cons v spans ih =>
    rw [joinSpans] at hu
    split at hu
    · obtain ⟨⟨t, ht, hfirst, hle⟩, t', ht', hlast⟩ := ih hu
      constructor
      · obtain rfl | ht := List.mem_cons.mp ht
        · exact ⟨s, List.mem_cons_self, hfirst, (Nat.le_max_left _ _).trans hle⟩
        · exact ⟨t, List.mem_cons_of_mem _ (List.mem_cons_of_mem _ ht), hfirst, hle⟩
      · obtain rfl | ht' := List.mem_cons.mp ht'
        · obtain hmax | hmax := Nat.le_total s.last v.last
          · exact ⟨v, by simp, (Nat.max_eq_right hmax).symm.trans hlast⟩
          · exact ⟨s, by simp, (Nat.max_eq_left hmax).symm.trans hlast⟩
        · exact ⟨t', List.mem_cons_of_mem _ (List.mem_cons_of_mem _ ht'), hlast⟩
    · obtain rfl | hu := List.mem_cons.mp hu
      · exact ⟨⟨u, List.mem_cons_self, rfl, Nat.le_refl _⟩, u, List.mem_cons_self, rfl⟩
      · obtain ⟨⟨t, ht, hfirst⟩, t', ht', hlast⟩ := ih hu
        exact ⟨⟨t, List.mem_cons_of_mem _ ht, hfirst⟩, t', List.mem_cons_of_mem _ ht', hlast⟩

theorem disjointSpans_cases (spans : List Span) : disjointSpans spans = [] ∧ spans = [] ∨
    ∃ s rest, Ascending (s :: rest) ∧ (s :: rest).Perm spans ∧
      disjointSpans spans = (joinSpans s rest).reverse := by
  have hsorted : Ascending (spans.mergeSort fun a b => a.first ≤ b.first) := by
    have h := @List.pairwise_mergeSort _ (fun a b : Span => decide (a.first ≤ b.first))
      (fun a b c => by simpa using Nat.le_trans) (fun a b => by simpa using Nat.le_total a.first b.first) spans
    exact h.imp fun hab => of_decide_eq_true hab
  have hperm := List.mergeSort_perm spans fun a b => a.first ≤ b.first
  unfold disjointSpans
  split
  case h_1 hnil =>
    rw [hnil] at hperm
    exact .inl ⟨rfl, hperm.nil_eq.symm⟩
  case h_2 s rest hcons =>
    rw [hcons] at hperm hsorted
    exact .inr ⟨s, rest, hsorted, hperm, rfl⟩

theorem pairwise_disjointSpans (spans : List Span) :
    (disjointSpans spans).Pairwise fun s t => t.last < s.first := by
  obtain ⟨hnone, -⟩ | ⟨s, rest, hasc, -, heq⟩ := disjointSpans_cases spans
  · rw [hnone]
    exact .nil
  · rw [heq, List.pairwise_reverse]
    exact pairwise_joinSpans hasc

theorem eq_of_overlap (hs : s ∈ disjointSpans spans) (ht : t ∈ disjointSpans spans) (hst : s.first ≤ t.last)
    (hts : t.first ≤ s.last) : s = t := by
  by_contra hne
  have happart : (disjointSpans spans).Pairwise fun s t => t.last < s.first ∨ s.last < t.first :=
    (pairwise_disjointSpans spans).imp fun {_ _} => .inl
  have hsymm : Std.Symm fun s t : Span => t.last < s.first ∨ s.last < t.first := ⟨fun _ _ => Or.symm⟩
  obtain hlt | hlt := happart.forall hs ht hne
  · exact absurd hst (Nat.not_le.mpr hlt)
  · exact absurd hts (Nat.not_le.mpr hlt)

theorem exists_mem_disjointSpans (ht : t ∈ spans) :
    ∃ u ∈ disjointSpans spans, u.first ≤ t.first ∧ t.last ≤ u.last := by
  obtain ⟨-, rfl⟩ | ⟨s, rest, hasc, hperm, heq⟩ := disjointSpans_cases spans
  · exact absurd ht List.not_mem_nil
  · obtain ⟨u, hu, hin⟩ := exists_mem_joinSpans hasc (hperm.mem_iff.mpr ht)
    exact ⟨u, heq ▸ List.mem_reverse.mpr hu, hin⟩

theorem ends_of_mem_disjointSpans (hu : u ∈ disjointSpans spans) :
    (∃ t ∈ spans, t.first = u.first ∧ t.last ≤ u.last) ∧ ∃ t ∈ spans, t.last = u.last := by
  obtain ⟨hnone, -⟩ | ⟨s, rest, -, hperm, heq⟩ := disjointSpans_cases spans
  · exact absurd (hnone ▸ hu) List.not_mem_nil
  · rw [heq, List.mem_reverse] at hu
    obtain ⟨⟨t, ht, hfirst⟩, t', ht', hlast⟩ := ends_of_mem_joinSpans hu
    exact ⟨⟨t, hperm.mem_iff.mp ht, hfirst⟩, t', hperm.mem_iff.mp ht', hlast⟩

-- ---------------------------------------------------------------------------
-- What occurs in a span
-- ---------------------------------------------------------------------------

/-- A span of repetitions is not empty, and it ends in the list. -/
theorem ordered_of_mem_disjointSpans (hs : s ∈ disjointSpans (repetitions fs)) :
    s.first ≤ s.last ∧ s.last < fs.length := by
  obtain ⟨⟨t, ht, hfirst, hle⟩, t', ht', hlast⟩ := ends_of_mem_disjointSpans hs
  obtain ⟨k, -, hcovers⟩ := mem_repetitions_iff.mp ht
  obtain ⟨k', -, hcovers'⟩ := mem_repetitions_iff.mp ht'
  obtain ⟨f, hf, -⟩ := mem_positions_iff.mp (hlast ▸ hcovers'.last)
  exact ⟨hfirst ▸ hcovers.ordered.trans hle, (List.getElem?_eq_some_iff.mp hf).1⟩

/-- An element that occurs with something else in between occurs in one span only. -/
theorem exists_span_of_not_gapless (hgap : ¬ Gapless fs k) :
    ∃ s ∈ disjointSpans (repetitions fs), ∀ i ∈ positions fs k, s.first ≤ i ∧ i ≤ s.last := by
  have hpos : positions fs k ≠ [] := fun hnil => hgap (gapless_of_positions_eq_nil hnil)
  have hcovers := covers_ends hpos
  obtain ⟨s, hs, hfirst, hlast⟩ := exists_mem_disjointSpans (mem_repetitions_iff.mpr ⟨k, hgap, hcovers⟩)
  exact ⟨s, hs, fun i hi => ⟨hfirst.trans (hcovers.within i hi).1, (hcovers.within i hi).2.trans hlast⟩⟩

/-- What occurs in a span occurs nowhere else. -/
theorem within_of_mem_disjointSpans (hs : s ∈ disjointSpans (repetitions fs)) (hi : i ∈ positions fs k)
    (hfirst : s.first ≤ i) (hlast : i ≤ s.last) : ∀ j ∈ positions fs k, s.first ≤ j ∧ j ≤ s.last := by
  by_cases hgap : Gapless fs k
  · obtain ⟨⟨t, ht, htfirst, -⟩, t', ht', htlast⟩ := ends_of_mem_disjointSpans hs
    obtain ⟨k₁, hgap₁, hcovers₁⟩ := mem_repetitions_iff.mp ht
    obtain ⟨k₂, hgap₂, hcovers₂⟩ := mem_repetitions_iff.mp ht'
    -- an occurrence outside would make this the element that the span begins or ends with
    have hother : ∀ {p k'}, p ∈ positions fs k' → ¬ Gapless fs k' → p ∉ positions fs k := by
      intro p k' hp hgap' hpk
      obtain ⟨f, hf, -, rfl⟩ := mem_positions_iff.mp hp
      obtain ⟨f', hf', -, rfl⟩ := mem_positions_iff.mp hpk
      obtain rfl := Option.some.inj (hf.symm.trans hf')
      exact hgap' hgap
    intro j hj
    constructor
    · refine Nat.le_of_not_lt fun hlt => hother (htfirst ▸ hcovers₁.first) hgap₁ ?_
      exact hgap j hj i hi _ (Nat.le_of_lt hlt) hfirst
    · refine Nat.le_of_not_lt fun hlt => hother (htlast ▸ hcovers₂.last) hgap₂ ?_
      exact hgap i hi j hj _ hlast (Nat.le_of_lt hlt)
  · obtain ⟨u, hu, hall⟩ := exists_span_of_not_gapless hgap
    obtain ⟨hufirst, hulast⟩ := hall i hi
    obtain rfl := eq_of_overlap hs hu (hfirst.trans hulast) (hufirst.trans hlast)
    exact hall

end Schemata
