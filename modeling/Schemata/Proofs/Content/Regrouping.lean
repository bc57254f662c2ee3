import Mathlib.Algebra.Order.Group.Int
import Schemata.Proofs.Content.Repetitions
import Schemata.Proofs.Lists

/-!
# Repeating choices

A list of fields is cut into stretches. Some are kept as they are, the others become repeating choices: each
of the elements in such a stretch is left once, and what else is in it comes after them. All occurrences of
an element that has become part of a repeating choice are in one stretch.
-/

namespace Schemata

variable {fs gs es span members : List Field} {f g : Field} {k : Tag × String × String} {q : QName}
  {a b marker : Int}

-- ---------------------------------------------------------------------------
-- Sums that stop
-- ---------------------------------------------------------------------------

namespace Occurs

theorem add_eq_min (ha : 0 ≤ a) (ha' : a < Word64.limit) (hb : 0 ≤ b) (hb' : b < Word64.limit) :
    add a b = min unbounded (a + b) := by
  have hroom : Word64.wrap (unbounded - b) = unbounded - b := by
    refine Word64.wrap_of_mem_range ?_ ?_ <;> simp only [unbounded, Word64.limit] at * <;> omega
  unfold add
  rw [hroom]
  split
  case isTrue hlarge => exact (min_eq_left (by omega)).symm
  case isFalse hsmall =>
    rw [min_eq_right (by omega)]
    refine Word64.wrap_of_mem_range ?_ ?_ <;> simp only [unbounded, Word64.limit] at * <;> omega

/-- The sum of numbers, wherever it may lead. -/
def total (ns : List Int) : Int :=
  ns.foldr (· + ·) 0

@[simp] theorem total_nil : total [] = 0 := rfl

@[simp] theorem total_cons (n : Int) (ns : List Int) : total (n :: ns) = n + total ns := rfl

@[simp] theorem total_append (ms ns : List Int) : total (ms ++ ns) = total ms + total ns := by
  induction ms with
  | nil => exact (Int.zero_add _).symm
  | cons m ms ih => rw [List.cons_append, total_cons, total_cons, ih, Int.add_assoc]

theorem total_nonneg {ns : List Int} (hns : ∀ n ∈ ns, 0 ≤ n) : 0 ≤ total ns := by
  induction ns with
  | nil => exact Int.le_refl 0
  | cons n ns ih =>
    obtain ⟨hn, hns⟩ := List.forall_mem_cons.mp hns
    exact Int.add_nonneg hn (ih hns)

theorem total_perm {ms ns : List Int} (h : ms.Perm ns) : total ms = total ns := by
  induction h with
  | nil => rfl
  | cons n _ ih => rw [total_cons, total_cons, ih]
  | swap m n ns => simp only [total_cons, Int.add_left_comm]
  | trans _ _ ih ih' => exact ih.trans ih'

/-- Stopping on the way does not change where a sum stops. -/
theorem add_min (ha : 0 ≤ a) (hb : 0 ≤ b) (hb' : b ≤ unbounded) :
    add (min unbounded a) b = min unbounded (a + b) := by
  have hlimit : unbounded < (Word64.limit : Int) := by decide
  rw [add_eq_min (le_min (by decide) ha) (lt_of_le_of_lt (min_le_left _ _) hlimit) hb (lt_of_le_of_lt hb' hlimit)]
  omega

/-- Adding up numbers and stopping on the way. -/
theorem foldl_add {ns : List Int} (ha : 0 ≤ a) (hns : ∀ n ∈ ns, 0 ≤ n ∧ n ≤ unbounded) :
    ns.foldl add (min unbounded a) = min unbounded (a + total ns) := by
  induction ns generalizing a with
  | nil => simp
  | cons n ns ih =>
    obtain ⟨⟨hn, hn'⟩, hns⟩ := List.forall_mem_cons.mp hns
    rw [List.foldl_cons, add_min ha hn hn', ih (Int.add_nonneg ha hn) hns, total_cons, Int.add_assoc]

end Occurs

-- ---------------------------------------------------------------------------
-- What the declarations of an element come to
-- ---------------------------------------------------------------------------

/-- Both bounds are numbers of occurrences. -/
structure Field.Bounded (f : Field) : Prop where
  min_nonneg : 0 ≤ f.restrictions.min
  min_le : f.restrictions.min ≤ Occurs.unbounded
  max_nonneg : 0 ≤ f.restrictions.max
  max_le : f.restrictions.max ≤ Occurs.unbounded

instance (f : Field) : Decidable f.Bounded :=
  decidable_of_iff (0 ≤ f.restrictions.min ∧ f.restrictions.min ≤ Occurs.unbounded ∧
    0 ≤ f.restrictions.max ∧ f.restrictions.max ≤ Occurs.unbounded)
    ⟨fun ⟨hmin, hmin', hmax, hmax'⟩ => ⟨hmin, hmin', hmax, hmax'⟩,
      fun h => ⟨h.min_nonneg, h.min_le, h.max_nonneg, h.max_le⟩⟩

/-- The sum of the lower bounds of the fields with a key. -/
def minTotal (fs : List Field) (k : Tag × String × String) : Int :=
  Occurs.total ((fs.filter (·.fullKey == k)).map (·.restrictions.min))

/-- One of the fields with the key has a type of the name. -/
def Offers (fs : List Field) (k : Tag × String × String) (q : QName) : Prop :=
  ∃ f ∈ fs, f.fullKey = k ∧ f.hasType q = true

theorem minTotal_append (fs gs : List Field) (k : Tag × String × String) :
    minTotal (fs ++ gs) k = minTotal fs k + minTotal gs k := by
  simp [minTotal]

theorem minTotal_of_mem (h : f.fullKey = k) : minTotal [f] k = f.restrictions.min := by
  simp [minTotal, h]

theorem minTotal_eq_zero (h : ∀ f ∈ fs, f.fullKey ≠ k) : minTotal fs k = 0 := by
  rw [minTotal, List.filter_eq_nil_iff.mpr (by simpa using h)]
  rfl

theorem minTotal_nonneg (h : ∀ f ∈ fs, f.Bounded) : 0 ≤ minTotal fs k := by
  refine Occurs.total_nonneg fun n hn => ?_
  obtain ⟨f, hf, rfl⟩ := List.mem_map.mp hn
  exact (h f (List.mem_of_mem_filter hf)).min_nonneg

theorem offers_append_iff : Offers (fs ++ gs) k q ↔ Offers fs k q ∨ Offers gs k q := by
  simp only [Offers, List.mem_append, or_and_right, exists_or]

theorem offers_singleton_iff : Offers [f] k q ↔ f.fullKey = k ∧ f.hasType q = true := by
  simp [Offers]

theorem any_names_addTypes (types more : List FieldType) (q : QName) :
    (addTypes types more).any (FieldType.names q) =
      (types.any (FieldType.names q) || more.any (FieldType.names q)) := by
  unfold addTypes
  induction more generalizing types with
  | nil => simp
  | cons ft more ih =>
    rw [List.foldl_cons, ih, List.any_cons, ← Bool.or_assoc]
    congr 1
    split
    case isTrue hthere =>
      -- the name is there already, if it is this one
      cases hft : FieldType.names q ft with
      | false => rw [Bool.or_false]
      | true =>
        obtain rfl : ft.qname = q := by simpa [FieldType.names] using hft
        rw [hthere, Bool.or_true]
    case isFalse => simp

-- ---------------------------------------------------------------------------
-- The elements of a span
-- ---------------------------------------------------------------------------

/-- Of the elements that are declared each is there once, with the sum of its lower bounds and with all of
its types. -/
structure Gathered (es gs : List Field) : Prop where
  keys : (gs.map Field.fullKey).Nodup
  same : ∀ k, (∃ g ∈ gs, g.fullKey = k) ↔ ∃ f ∈ es, f.fullKey = k
  min : ∀ g ∈ gs, g.restrictions.min = min Occurs.unbounded (minTotal es g.fullKey)
  types : ∀ g ∈ gs, ∀ q, g.hasType q = true ↔ Offers es g.fullKey q

theorem Field.Legible.congr (hf : f.Legible) (hkey : g.fullKey = f.fullKey) : g.Legible := by
  obtain ⟨-, hns, hname⟩ : g.tag = f.tag ∧ g.ns = f.ns ∧ g.name = f.name := by simpa [Field.fullKey] using hkey
  exact ⟨hns ▸ hf.1, hname ▸ hf.2⟩

/-- A field to which a further declaration adds its bounds and types. -/
def Field.gather (g f : Field) : Field :=
  let g := g.setMin (Occurs.add g.restrictions.min f.restrictions.min)
  let g := g.setMax (Occurs.add g.restrictions.max f.restrictions.max)
  { g with types := addTypes g.types f.types }

theorem mergeElements_append (hgs : ((mergeElements es).map Field.identity).Nodup) (f : Field) :
    mergeElements (es ++ [f]) =
      if (mergeElements es).any (·.identity == f.identity) then
        (mergeElements es).map fun g => if g.identity == f.identity then g.gather f else g
      else mergeElements es ++ [f] := by
  have hstep : mergeElements (es ++ [f]) =
      ((mergeElements es).findIdx? (·.identity == f.identity)).elim (mergeElements es ++ [f]) fun i =>
        (mergeElements es).modify i (·.gather f) := by
    rw [mergeElements, List.foldl_append, List.foldl_cons, List.foldl_nil, ← mergeElements]
    cases (mergeElements es).findIdx? (·.identity == f.identity) with
    | none => rfl
    | some i => rfl
  have honce : (mergeElements es).Pairwise fun x y =>
      (x.identity == f.identity) = true → (y.identity == f.identity) = false := by
    refine (List.pairwise_map.mp hgs).imp fun {x y} hne hx => ?_
    rw [beq_iff_eq] at hx
    exact beq_false_of_ne fun hy => hne (hx.trans hy.symm)
  rw [hstep]
  cases hfind : (mergeElements es).findIdx? (·.identity == f.identity) with
  | none =>
    have hnone : (mergeElements es).any (·.identity == f.identity) = false := by
      simpa using List.findIdx?_eq_none_iff.mp hfind
    rw [hnone]
    rfl
  | some i =>
    have hsome : (mergeElements es).any (·.identity == f.identity) = true := by
      rw [← List.findIdx?_isSome, hfind]
      rfl
    rw [hsome]
    exact Lists.modify_findIdx?_eq_map hfind honce (·.gather f)

@[simp] theorem Field.fullKey_gather (g f : Field) : (g.gather f).fullKey = g.fullKey := rfl

theorem Field.min_gather (hg : g.restrictions.min = min Occurs.unbounded a) (ha : 0 ≤ a) (hf : f.Bounded) :
    (g.gather f).restrictions.min = min Occurs.unbounded (a + f.restrictions.min) := by
  have hmin : (g.gather f).restrictions.min = Occurs.add g.restrictions.min f.restrictions.min := rfl
  rw [hmin, hg, Occurs.add_min ha hf.min_nonneg hf.min_le]

theorem Field.hasType_gather (g f : Field) (q : QName) :
    (g.gather f).hasType q = (g.hasType q || f.hasType q) :=
  any_names_addTypes g.types f.types q

/-- An element that has not been declared before. -/
theorem Gathered.add (h : Gathered es gs) (hf : f.Bounded) (hnew : ∀ e ∈ es, e.fullKey ≠ f.fullKey) :
    Gathered (es ++ [f]) (gs ++ [f]) := by
  have hnew' : ∀ g ∈ gs, g.fullKey ≠ f.fullKey := by
    intro g hg hkey
    obtain ⟨e, he, hekey⟩ := (h.same _).mp ⟨g, hg, hkey⟩
    exact hnew e he hekey
  constructor
  case keys =>
    rw [List.map_append, List.map_singleton]
    refine List.Nodup.append h.keys (List.nodup_singleton _) fun k hk hkf => ?_
    obtain ⟨g, hg, rfl⟩ := List.mem_map.mp hk
    exact hnew' g hg (List.mem_singleton.mp hkf)
  case same =>
    intro k
    simp only [List.mem_append, or_and_right, exists_or, h.same]
  case min =>
    intro g hg
    rw [minTotal_append]
    obtain hg | hg := List.mem_append.mp hg
    · have hother : minTotal [f] g.fullKey = 0 := minTotal_eq_zero (by simpa using (hnew' g hg).symm)
      rw [h.min g hg, hother, Int.add_zero]
    · obtain rfl := List.mem_singleton.mp hg
      rw [minTotal_eq_zero hnew, minTotal_of_mem rfl, Int.zero_add, min_eq_right hf.min_le]
  case types =>
    intro g hg q
    rw [offers_append_iff, offers_singleton_iff]
    obtain hg | hg := List.mem_append.mp hg
    · rw [h.types g hg q, or_iff_left fun hkey => hnew' g hg hkey.1.symm]
    · obtain rfl := List.mem_singleton.mp hg
      rw [or_iff_right fun ⟨e, he, hkey, _⟩ => hnew e he hkey]
      simp

/-- A further declaration of an element. -/
theorem Gathered.again (h : Gathered es gs) (hes : ∀ e ∈ es, e.Bounded) (hf : f.Bounded)
    (hthere : ∃ e ∈ es, e.fullKey = f.fullKey) :
    Gathered (es ++ [f]) (gs.map fun g => if g.fullKey = f.fullKey then g.gather f else g) := by
  have hkey : ∀ g : Field, (if g.fullKey = f.fullKey then g.gather f else g).fullKey = g.fullKey := by
    intro g
    split <;> rfl
  constructor
  case keys =>
    have hkeys : (gs.map fun g => if g.fullKey = f.fullKey then g.gather f else g).map Field.fullKey = gs.map Field.fullKey := by
      rw [List.map_map]
      exact List.map_congr_left fun g _ => hkey g
    exact hkeys ▸ h.keys
  case same =>
    intro k
    simp only [List.mem_map, List.mem_append, List.mem_singleton, or_and_right, exists_or, exists_eq_left,
      exists_exists_and_eq_and, hkey, h.same]
    exact (or_iff_left_of_imp fun hk => hk ▸ hthere).symm
  case min =>
    intro g' hg'
    obtain ⟨g, hg, rfl⟩ := List.mem_map.mp hg'
    rw [hkey, minTotal_append]
    split
    case isTrue heq =>
      rw [Field.min_gather (h.min g hg) (minTotal_nonneg hes) hf, minTotal_of_mem heq.symm]
    case isFalse hne =>
      have hother : minTotal [f] g.fullKey = 0 := minTotal_eq_zero (by simpa using Ne.symm hne)
      rw [h.min g hg, hother, Int.add_zero]
  case types =>
    intro g' hg' q
    obtain ⟨g, hg, rfl⟩ := List.mem_map.mp hg'
    rw [hkey, offers_append_iff, offers_singleton_iff]
    split
    case isTrue heq => rw [Field.hasType_gather, Bool.or_eq_true, h.types g hg q, and_iff_right heq.symm]
    case isFalse hne => rw [h.types g hg q, or_iff_left fun hkey => hne hkey.1.symm]

theorem gathered_mergeElements (hes : ∀ f ∈ es, f.Bounded ∧ f.Legible) : Gathered es (mergeElements es) := by
  induction es using List.reverseRecOn with
  | nil => exact ⟨List.nodup_nil, fun k => by simp [mergeElements], nofun, nofun⟩
  | append_singleton es f ih =>
    obtain ⟨hes, hf⟩ := List.forall_mem_append.mp hes
    obtain ⟨hf, hflegible⟩ := List.forall_mem_singleton.mp hf
    have h := ih hes
    have hlegible : ∀ g ∈ mergeElements es, g.Legible := by
      intro g hg
      obtain ⟨e, he, hkey⟩ := (h.same _).mp ⟨g, hg, rfl⟩
      exact (hes e he).2.congr hkey.symm
    have hidentities : ((mergeElements es).map Field.identity).Nodup := by
      refine List.pairwise_map.mpr ((List.pairwise_map.mp h.keys).imp_of_mem fun {g g'} hg hg' hne heq => ?_)
      exact hne ((Field.identity_eq_iff (hlegible g hg) (hlegible g' hg')).mp heq)
    have hchange : ((mergeElements es).map fun g => if g.identity == f.identity then g.gather f else g) =
        (mergeElements es).map fun g => if g.fullKey = f.fullKey then g.gather f else g := by
      refine List.map_congr_left fun g hg => ?_
      simp only [beq_iff_eq, Field.identity_eq_iff (hlegible g hg) hflegible]
    have hthere : (mergeElements es).any (·.identity == f.identity) = true ↔ ∃ e ∈ es, e.fullKey = f.fullKey := by
      rw [← h.same, List.any_eq_true]
      refine exists_congr fun g => and_congr_right fun hg => ?_
      rw [beq_iff_eq, Field.identity_eq_iff (hlegible g hg) hflegible]
    rw [mergeElements_append hidentities]
    split
    case isTrue hany => exact hchange ▸ h.again (fun e he => (hes e he).1) hf (hthere.mp hany)
    case isFalse hany => exact h.add hf fun e he hkey => hany (hthere.mpr ⟨e, he, hkey⟩)

/-- The elements in a span as members of a repeating choice: each of them once, as often as all elements of
the span together, but at least as often as its own declarations say. -/
structure RepeatingChoice (marker : Int) (span members : List Field) : Prop where
  keys : (members.map Field.fullKey).Nodup
  same : ∀ k, (∃ g ∈ members, g.fullKey = k) ↔ ∃ f ∈ span, f.isElement = true ∧ f.fullKey = k
  marker : ∀ g ∈ members, g.restrictions.choice = marker
  max : ∀ g ∈ members, g.restrictions.max =
    min Occurs.unbounded (Occurs.total ((span.filter Field.isElement).map (·.restrictions.max)))
  min : ∀ g ∈ members, g.restrictions.min = min Occurs.unbounded (minTotal span g.fullKey)
  types : ∀ g ∈ members, ∀ q, g.hasType q = true ↔ Offers span g.fullKey q

theorem Field.isElement_iff_key : f.isElement = true ↔ f.fullKey.1 = .element := by
  simp [isElement, fullKey]

theorem Field.isElement_of_key (hg : g.isElement = true) (hkey : f.fullKey = g.fullKey) : f.isElement = true := by
  rw [isElement_iff_key] at hg ⊢
  rw [hkey, hg]

/-- What the elements of a span become. -/
def membersOf (marker : Int) (span : List Field) : List Field :=
  let elements := span.filter Field.isElement
  let total := elements.foldl (fun n f => Occurs.add n f.restrictions.max) 0
  (mergeElements elements).map fun f =>
    ({ f with restrictions.choice := marker, restrictions.sequence := 0 } : Field).setMax total

theorem repeatingChoice_membersOf (hspan : ∀ f ∈ span, f.Bounded ∧ f.Legible) (marker : Int) :
    RepeatingChoice marker span (membersOf marker span) := by
  have h : Gathered (span.filter Field.isElement) (mergeElements (span.filter Field.isElement)) :=
    gathered_mergeElements fun f hf => hspan f (List.mem_of_mem_filter hf)
  have hkeys : (membersOf marker span).map Field.fullKey =
      (mergeElements (span.filter Field.isElement)).map Field.fullKey := by
    rw [membersOf, List.map_map]
    rfl
  have helement : ∀ g ∈ mergeElements (span.filter Field.isElement), g.isElement = true := by
    intro g hg
    obtain ⟨f, hf, hkey⟩ := (h.same _).mp ⟨g, hg, rfl⟩
    exact Field.isElement_of_key (List.mem_filter.mp hf).2 hkey.symm
  -- what is no element does not have the key of one
  have hfilter : ∀ g ∈ mergeElements (span.filter Field.isElement),
      (span.filter Field.isElement).filter (·.fullKey == g.fullKey) = span.filter (·.fullKey == g.fullKey) := by
    intro g hg
    rw [List.filter_filter]
    refine List.filter_congr fun f _ => ?_
    rw [Bool.and_eq_left_iff_imp, beq_iff_eq]
    exact fun hkey => Field.isElement_of_key (helement g hg) hkey
  constructor
  case keys => exact hkeys ▸ h.keys
  case same =>
    intro k
    have hmem := congrArg (k ∈ ·) hkeys
    simp only [List.mem_map] at hmem
    rw [hmem, h.same]
    simp only [List.mem_filter, and_assoc]
  case marker =>
    intro g' hg'
    obtain ⟨g, -, rfl⟩ := List.mem_map.mp hg'
    rfl
  case max =>
    have hmax : ∀ n ∈ (span.filter Field.isElement).map (·.restrictions.max), 0 ≤ n ∧ n ≤ Occurs.unbounded := by
      intro n hn
      obtain ⟨f, hf, rfl⟩ := List.mem_map.mp hn
      have hbounded := (hspan f (List.mem_of_mem_filter hf)).1
      exact ⟨hbounded.max_nonneg, hbounded.max_le⟩
    have hsum := Occurs.total_nonneg fun n hn => (hmax n hn).1
    have htotal := Occurs.foldl_add (a := 0) (Int.le_refl 0) hmax
    rw [min_eq_right (by decide), List.foldl_map, Int.zero_add] at htotal
    intro g' hg'
    obtain ⟨g, -, rfl⟩ := List.mem_map.mp hg'
    rw [htotal]
    have hunbounded : 0 ≤ Occurs.unbounded := by decide
    exact if_neg (by omega)
  case min =>
    intro g' hg'
    obtain ⟨g, hg, rfl⟩ := List.mem_map.mp hg'
    exact (h.min g hg).trans (by rw [minTotal, hfilter g hg]; rfl)
  case types =>
    intro g' hg' q
    obtain ⟨g, hg, rfl⟩ := List.mem_map.mp hg'
    refine (h.types g hg q).trans ?_
    simp only [Offers, List.mem_filter, and_assoc]
    refine exists_congr fun f => and_congr_right fun _ => and_iff_right_of_imp fun hf => ?_
    exact Field.isElement_of_key (helement g hg) hf.1

-- ---------------------------------------------------------------------------
-- Stretches
-- ---------------------------------------------------------------------------

/-- A part of a list of fields that is kept, or whose elements become a repeating choice. -/
inductive Stretch where
  | kept (fields : List Field)
  | merged (marker : Int) (span members : List Field)

namespace Stretch

def before : Stretch → List Field
  | kept fields => fields
  | merged _ span _ => span

def after : Stretch → List Field
  | kept fields => fields
  | merged _ span members => members ++ span.filter (!·.isElement)

def marker? : Stretch → Option Int
  | kept _ => none
  | merged marker _ _ => some marker

/-- If one of two stretches is merged, no element is in both. -/
def Apart (p p' : Stretch) : Prop :=
  p.marker?.isSome ∨ p'.marker?.isSome →
    ∀ f ∈ p.before, ∀ f' ∈ p'.before, f.isElement = true → f.fullKey ≠ f'.fullKey

end Stretch

/-- A list of fields as it was and as it becomes, stretch by stretch. -/
structure Regrouping (fs fs' : List Field) (stretches : List Stretch) : Prop where
  before : stretches.flatMap Stretch.before = fs
  after : stretches.flatMap Stretch.after = fs'
  merged : ∀ marker span members, Stretch.merged marker span members ∈ stretches →
    RepeatingChoice marker span members
  inhabited : ∀ marker span members, Stretch.merged marker span members ∈ stretches →
    ∃ f ∈ span, f.isElement = true
  apart : stretches.Pairwise Stretch.Apart

-- ---------------------------------------------------------------------------
-- Markers
-- ---------------------------------------------------------------------------

/-- The least of the choice markers and zero. -/
def lowest (fs : List Field) : Int :=
  fs.foldl (fun id f => min id f.restrictions.choice) 0

theorem le_lowest_iff : a ≤ lowest fs ↔ a ≤ 0 ∧ ∀ f ∈ fs, a ≤ f.restrictions.choice := by
  suffices h : ∀ b, a ≤ fs.foldl (fun id f => min id f.restrictions.choice) b ↔
      a ≤ b ∧ ∀ f ∈ fs, a ≤ f.restrictions.choice from h 0
  induction fs with
  | nil => simp
  | cons f fs ih =>
    intro b
    rw [List.foldl_cons, ih, le_min_iff, List.forall_mem_cons, and_assoc]

theorem lowest_le_zero (fs : List Field) : lowest fs ≤ 0 :=
  (le_lowest_iff.mp (le_refl _)).1

theorem lowest_le (hf : f ∈ fs) : lowest fs ≤ f.restrictions.choice :=
  (le_lowest_iff.mp (le_refl _)).2 f hf

/-- Below the markers of the fields there are words for so many more. -/
def HasRoom (fs : List Field) (n : Nat) : Prop :=
  -(Word64.limit : Int) ≤ lowest fs - n

instance (fs : List Field) (n : Nat) : Decidable (HasRoom fs n) :=
  inferInstanceAs (Decidable (_ ≤ _))

theorem freshNegativeChoice_of_hasRoom (h : HasRoom fs 1) : freshNegativeChoice fs = lowest fs - 1 := by
  have hzero := lowest_le_zero fs
  have hlimit : 0 < (Word64.limit : Int) := by decide
  have heq : freshNegativeChoice fs = Word64.wrap (lowest fs - 1) := rfl
  rw [heq]
  exact Word64.wrap_of_mem_range h (by omega)

/-- Below the least word there is none, so the marker comes from the other end. -/
theorem freshNegativeChoice_nonneg (h : HasRoom fs 0) (hno : ¬ HasRoom fs 1) : 0 ≤ freshNegativeChoice fs := by
  unfold HasRoom at h hno
  have heq : freshNegativeChoice fs = Word64.wrap (lowest fs - 1) := rfl
  have hlast : lowest fs = -(Word64.limit : Int) := by omega
  rw [heq, hlast]
  decide

/-- What is known of the markers of new choices. As long as there is room for them, they come right below
those that are there; else one of them is not negative. -/
structure Markings (fs fs' : List Field) (markers : List Int) : Prop where
  least : HasRoom fs markers.length → lowest fs' = lowest fs - markers.length
  ascending : HasRoom fs markers.length → markers.Pairwise (· < ·)
  below : HasRoom fs markers.length → ∀ m ∈ markers, lowest fs - markers.length ≤ m ∧ m < lowest fs
  beyond : HasRoom fs 0 → ¬ HasRoom fs markers.length → ∃ m ∈ markers, 0 ≤ m

theorem Markings.nil (fs : List Field) : Markings fs fs [] where
  least _ := by simp
  ascending _ := .nil
  below _ := nofun
  beyond hroom hno := absurd hroom hno

theorem Markings.cons {fs' fs'' : List Field} {markers : List Int} (h : Markings fs fs' markers)
    (hleast : HasRoom fs' 1 → lowest fs'' = lowest fs' - 1) :
    Markings fs fs'' (freshNegativeChoice fs' :: markers) := by
  have hmarker : HasRoom fs (markers.length + 1) → HasRoom fs markers.length ∧ HasRoom fs' 1 ∧
      lowest fs' = lowest fs - markers.length ∧
      freshNegativeChoice fs' = lowest fs - (markers.length + 1 : Nat) := by
    intro hroom
    have hroom' : HasRoom fs markers.length := by
      unfold HasRoom at hroom ⊢
      omega
    have hbefore := h.least hroom'
    have hone : HasRoom fs' 1 := by
      unfold HasRoom at hroom ⊢
      omega
    refine ⟨hroom', hone, hbefore, ?_⟩
    rw [freshNegativeChoice_of_hasRoom hone, hbefore]
    omega
  constructor
  case least =>
    intro hroom
    obtain ⟨-, hone, hbefore, -⟩ := hmarker hroom
    rw [hleast hone, hbefore, List.length_cons]
    omega
  case ascending =>
    intro hroom
    obtain ⟨hroom', -, -, hm⟩ := hmarker hroom
    refine List.pairwise_cons.mpr ⟨fun m' hm' => ?_, h.ascending hroom'⟩
    have hbelow := h.below hroom' m' hm'
    omega
  case below =>
    intro hroom m' hm'
    obtain ⟨hroom', -, -, hm⟩ := hmarker hroom
    rw [List.length_cons]
    obtain rfl | hm' := List.mem_cons.mp hm'
    · omega
    · have hbelow := h.below hroom' m' hm'
      omega
  case beyond =>
    intro hfs hno
    by_cases hroom : HasRoom fs markers.length
    · have hbefore := h.least hroom
      refine ⟨_, List.mem_cons_self, freshNegativeChoice_nonneg ?_ ?_⟩
      all_goals
        unfold HasRoom at hroom hno ⊢
        rw [List.length_cons] at hno
        omega
    · obtain ⟨m, hm, hnonneg⟩ := h.beyond hfs hroom
      exact ⟨m, List.mem_cons_of_mem _ hm, hnonneg⟩

-- ---------------------------------------------------------------------------
-- One span
-- ---------------------------------------------------------------------------

/-- The fields in a span. -/
def Span.part (s : Span) (fs : List Field) : List Field :=
  (fs.drop s.first).take (s.last + 1 - s.first)

theorem Span.parts (s : Span) (hs : s.first ≤ s.last) (fs : List Field) :
    fs.take s.first ++ (s.part fs ++ fs.drop (s.last + 1)) = fs := by
  have hrest : fs.drop (s.last + 1) = (fs.drop s.first).drop (s.last + 1 - s.first) := by
    rw [List.drop_drop]
    congr 1
    omega
  rw [hrest, part, List.take_append_drop, List.take_append_drop]

theorem Span.part_append {s : Span} (hs : s.last < fs.length) (gs : List Field) :
    s.part (fs ++ gs) = s.part fs := by
  obtain hlt | hle := Nat.lt_or_ge s.last s.first
  rotate_left
  · rw [part, part, List.drop_append_of_le_length (by omega), List.take_append_of_le_length]
    rw [List.length_drop]
    omega
  · have hzero : s.last + 1 - s.first = 0 := by omega
    rw [part, part, hzero, List.take_zero, List.take_zero]

theorem Span.mem_part_iff {s : Span} : f ∈ s.part fs ↔
    ∃ i, s.first ≤ i ∧ i ≤ s.last ∧ fs[i]? = some f := by
  rw [part, List.mem_iff_getElem?]
  simp only [List.getElem?_take, List.getElem?_drop]
  constructor
  · rintro ⟨i, hi⟩
    split at hi
    · exact ⟨s.first + i, by omega, by omega, hi⟩
    · cases hi
  · rintro ⟨i, hfirst, hlast, hi⟩
    refine ⟨i - s.first, ?_⟩
    rw [if_pos (by omega), Nat.add_sub_cancel' hfirst, hi]

theorem mergeSpan_eq (fs : List Field) (s : Span) : mergeSpan fs s =
    fs.take s.first ++ ((Stretch.merged (freshNegativeChoice fs) (s.part fs)
      (membersOf (freshNegativeChoice fs) (s.part fs))).after ++ fs.drop (s.last + 1)) := by
  have heq : mergeSpan fs s = fs.take s.first ++ membersOf (freshNegativeChoice fs) (s.part fs) ++
      (s.part fs).filter (!·.isElement) ++ fs.drop (s.last + 1) := rfl
  rw [heq, Stretch.after, List.append_assoc, List.append_assoc, List.append_assoc]

end Schemata
