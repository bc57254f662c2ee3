import Schemata.Proofs.Choice.Expansion
import Schemata.Proofs.Choice.Shadowing

/-!
# What the expansion of substitution groups makes of a field

The fields are expanded one after the other, and what a field gives rise to is put right behind it and
expanded next. So the result is a preorder: a field is followed by the expansions of its substitutes, in
the order of its types and of the members of their groups. The relation below says so without a word about
how far the expansion has got.
-/

namespace Schemata

open Compile SchemaType Store

variable {s s' : Store} {t t' : SchemaType} {f f' g : Field} {fs : List Field} {ft : FieldType}
  {owner head q : QName} {substitutes : List (QName × Field)} {d : Derived} {ds after : List Derived}
  {e e' : Expansion} {group : QName → List SchemaType}

-- ---------------------------------------------------------------------------
-- Groups
-- ---------------------------------------------------------------------------

/-- The members of the group of a head: each root as often as it says so, in the order of the roots. What
is no root heads no group. -/
def Store.groupOf (s : Store) (head : QName) : List SchemaType :=
  if head ∈ s.types.map (·.qname) then s.types.flatMap fun t => List.replicate (t.substitutions.count head) t
  else []

theorem Store.lookup?_isSome_iff (hs : s.Sound) :
    (s.lookup? q fun _ => true).isSome = true ↔ q ∈ s.types.map (·.qname) := by
  rw [hs.lookup?_eq, List.find?_isSome, List.mem_map]
  simp

/-- The members that are remembered for each head are those of its group. -/
def GroupedBy (substitutes : List (QName × Field)) (group : QName → List SchemaType) : Prop :=
  ∀ head, (substitutes.filter (·.1 == head)).map (·.2) = (group head).map SchemaType.substitute

theorem Store.groupedBy_substitutions (hs : s.Sound) : GroupedBy s.substitutions.1 s.groupOf := by
  intro head
  let memberships := s.types.flatMap fun t => t.substitutions.map fun head => (head, t)
  have hsubstitutions : s.substitutions.1 = (memberships.filter fun p => (s.lookup? p.1 fun _ => true).isSome).map
      fun p => (p.1, p.2.substitute) := rfl
  have hmembers : (memberships.filter (·.1 == head)).map (·.2) =
      s.types.flatMap fun t => List.replicate (t.substitutions.count head) t := by
    rw [List.filter_flatMap, List.map_flatMap]
    refine List.flatMap_congr fun t _ => ?_
    have hheads : ((·.1 == head) ∘ fun head' => (head', t)) = fun head' : QName => head' == head := rfl
    rw [List.filter_map, hheads, List.filter_beq, List.map_map, List.map_replicate]
    rfl
  rw [hsubstitutions, List.filter_map, List.map_map, List.filter_filter, groupOf]
  split
  case isTrue hhead =>
    have hpresent := (lookup?_isSome_iff hs).mpr hhead
    rw [← hmembers, List.map_map]
    congr 1
    refine List.filter_congr fun p _ => ?_
    cases heq : p.1 == head with
    | true => simp [beq_iff_eq.mp heq, hpresent]
    | false => simp [heq]
  case isFalse hnone =>
    have habsent : (s.lookup? head fun _ => true).isSome = false :=
      Bool.eq_false_iff.mpr (mt (lookup?_isSome_iff hs).mp hnone)
    refine congrArg (List.map _) (List.filter_eq_nil_iff.mpr fun p _ => ?_)
    cases heq : p.1 == head with
    | true => simp [beq_iff_eq.mp heq, habsent]
    | false => simp [heq]

-- ---------------------------------------------------------------------------
-- The expansion as a preorder
-- ---------------------------------------------------------------------------

/-- A field that a member of the group of `head` gives next to `f`. -/
structure Field.Alternative (f : Field) (head : QName) (member : SchemaType) (g : Field) : Prop where
  tag : g.tag = .element
  name : g.name = member.name ∧ g.ns = member.ns
  types : g.types = [.ofDependency member.qname]
  marker : g.restrictions.choice = f.restrictions.choice
  min : g.restrictions.minOccurs = some 0
  max : g.restrictions.maxOccurs = some
    (if f.restrictions.max > Occurs.unbounded ∨ f.restrictions.max < 0 then Occurs.unbounded else f.restrictions.max)

/-- The members that take the place of a field by way of one of its types, each with the head: no member that
is the type, and none that is a head that the field was derived from. -/
def Derived.candidatesOf (group : QName → List SchemaType) (heads : List QName) (ft : FieldType) :
    List (QName × SchemaType) :=
  if ft.isDependency then
    ((group ft.qname).filter fun m => m.qname ∉ heads ∧ m.qname ≠ ft.qname).map fun m => (ft.qname, m)
  else []

def Derived.candidates (group : QName → List SchemaType) (d : Derived) : List (QName × SchemaType) :=
  d.field.types.flatMap (candidatesOf group d.heads)

/-- A reference that has been looked at. -/
def FieldType.expanded (ft : FieldType) : FieldType :=
  if ft.isDependency then { ft with substituted := true } else ft

/-- What becomes of a field itself: its references are marked, and it gets a choice marker if one of its
types heads a group. -/
structure Field.Opened (group : QName → List SchemaType) (f f' : Field) : Prop where
  same : f' = { f with
    types := f.types.map FieldType.expanded
    substitutionGroup := f'.substitutionGroup
    restrictions.choice := f'.restrictions.choice }
  kept : f.restrictions.choice ≠ 0 ∨ (∀ ft ∈ f.types, ft.isDependency = true → group ft.qname = []) →
    f'.restrictions.choice = f.restrictions.choice
  marked : (∃ ft ∈ f.types, ft.isDependency = true ∧ group ft.qname ≠ []) → f'.restrictions.choice ≠ 0

/-- The fields that a field expands to: an element field is followed by what its alternatives expand to, one
after the other. Each of these is derived from the head that it is an alternative for, and from all that the
field itself was derived from. -/
inductive Derived.ExpandsTo (group : QName → List SchemaType) : Derived → List Field → Prop
  | other {d : Derived} (h : d.field.isElement = false) : ExpandsTo group d [d.field]
  | element {d : Derived} {f : Field} {alternatives : List Derived} {parts : List (List Field)}
      (h : d.field.isElement = true) (hopened : d.field.Opened group f)
      (halternatives : List.Forall₂ (fun p a => f.Alternative p.1 p.2 a.field ∧ a.heads = p.1 :: d.heads)
        (d.candidates group) alternatives)
      (hparts : List.Forall₂ (ExpandsTo group) alternatives parts) : ExpandsTo group d (f :: parts.flatten)

-- ---------------------------------------------------------------------------
-- Markers
-- ---------------------------------------------------------------------------

/-- A new choice marker is one, as long as the markers of the fields are words. -/
theorem freshChoice_ne_zero (h : ∀ f ∈ fs, f.restrictions.choice < Word64.limit) :
    freshChoice fs ≠ 0 ∧ freshChoice fs < Word64.limit := by
  have hbounds : ∀ n : Int, 0 ≤ n → n < Word64.limit →
      0 ≤ fs.foldl (fun id f => max id f.restrictions.choice) n ∧
        fs.foldl (fun id f => max id f.restrictions.choice) n < Word64.limit := by
    induction fs with
    | nil => exact fun n hn hn' => ⟨hn, hn'⟩
    | cons f fs ih =>
      obtain ⟨hf, hfs⟩ := List.forall_mem_cons.mp h
      exact fun n hn hn' => ih hfs _ (Int.le_trans hn (Int.le_max_left _ _)) (Int.max_lt.mpr ⟨hn', hf⟩)
  obtain ⟨hnonneg, hlt⟩ := hbounds 0 (Int.le_refl 0) (by decide)
  unfold freshChoice
  generalize fs.foldl (fun id f => max id f.restrictions.choice) 0 = n at hnonneg hlt
  simp only [Word64.limit] at hlt ⊢
  simp only [Word64.wrap, Word64.count, Int.bmod_def]
  omega

-- ---------------------------------------------------------------------------
-- The expansion of one field
-- ---------------------------------------------------------------------------

theorem Field.alternative_substitute (f : Field) (head : QName) (member : SchemaType) :
    f.Alternative head member (f.alternative member.substitute head) :=
  ⟨rfl, ⟨rfl, rfl⟩, rfl, rfl, rfl, rfl⟩

/-- Fields of the same marker and maximum have the same alternatives. -/
theorem Field.Alternative.congr {member : SchemaType} (h : f.Alternative head member g)
    (hchoice : f'.restrictions.choice = f.restrictions.choice) (hmax : f'.restrictions.max = f.restrictions.max) :
    f'.Alternative head member g :=
  ⟨h.tag, h.name, h.types, h.marker.trans hchoice.symm, h.min, by rw [hmax]; exact h.max⟩

theorem Expansion.foldl_addMember (owner head : QName) (members : List SchemaType) (e : Expansion) :
    ∃ warnings, (members.map SchemaType.substitute).foldl (Expansion.addMember owner head) e =
      { e with
        found := e.found ++ (members.filter fun m => m.qname ∉ e.current.heads ∧ m.qname ≠ head).map fun m =>
          ⟨e.current.field.alternative m.substitute head, head :: e.current.heads⟩
        warnings := e.warnings ++ warnings } := by
  induction members generalizing e with
  | nil => exact ⟨[], by simp⟩
  | cons m members ih =>
    rw [List.map_cons, List.foldl_cons]
    obtain ⟨warnings, heq⟩ := ih (e.addMember owner head m.substitute)
    rw [heq]
    unfold Expansion.addMember
    dsimp only
    split
    case isTrue hcircle =>
      have hcircle : ¬ (m.qname ∉ e.current.heads ∧ m.qname ≠ head) := by
        rw [not_and_or, not_not, not_not]
        exact hcircle
      rw [List.filter_cons_of_neg (by simpa using hcircle), List.append_assoc]
      exact ⟨_, rfl⟩
    case isFalse hnew =>
      have hnew : m.qname ∉ e.current.heads ∧ m.qname ≠ head := not_or.mp hnew
      rw [List.filter_cons_of_pos (by simpa using hnew), List.map_cons, List.append_assoc]
      exact ⟨_, rfl⟩

/-- What the expansion of some types of the current field makes of an expansion. -/
structure Expansion.Along (group : QName → List SchemaType) (fts : List FieldType) (e e' : Expansion) : Prop where
  before : e'.before = e.before
  after : e'.after = e.after
  heads : e'.current.heads = e.current.heads
  field : e'.current.field = { e.current.field with
    types := e'.current.field.types
    substitutionGroup := e'.current.field.substitutionGroup
    restrictions.choice := e'.current.field.restrictions.choice }
  kept : e.current.field.restrictions.choice ≠ 0 ∨ (∀ ft ∈ fts, ft.isDependency = true → group ft.qname = []) →
    e'.current.field.restrictions.choice = e.current.field.restrictions.choice
  marked : (∃ ft ∈ fts, ft.isDependency = true ∧ group ft.qname ≠ []) →
    e'.current.field.restrictions.choice ≠ 0
  found : ∃ alternatives, e'.found = e.found ++ alternatives ∧
    List.Forall₂ (fun p a => e'.current.field.Alternative p.1 p.2 a.field ∧ a.heads = p.1 :: e.current.heads)
      (fts.flatMap (Derived.candidatesOf group e.current.heads)) alternatives
  words : ∀ f ∈ e'.fields, f.restrictions.choice < Word64.limit

namespace Expansion.Along

variable {fts fts' : List FieldType}

theorem max (h : e.Along group fts e') : e'.current.field.restrictions.max = e.current.field.restrictions.max := by
  rw [h.field]
  rfl

theorem refl (hwords : ∀ f ∈ e.fields, f.restrictions.choice < Word64.limit) : e.Along group [] e where
  before := rfl
  after := rfl
  heads := rfl
  field := by
    rcases e.current with ⟨f, -⟩
    cases f
    rfl
  kept _ := rfl
  marked := fun ⟨_, hft, _⟩ => absurd hft List.not_mem_nil
  found := ⟨[], (List.append_nil _).symm, .nil⟩
  words := hwords

theorem trans {e'' : Expansion} (h : e.Along group fts e') (h' : e'.Along group fts' e'') :
    e.Along group (fts ++ fts') e'' := by
  constructor
  case before => rw [h'.before, h.before]
  case after => rw [h'.after, h.after]
  case heads => rw [h'.heads, h.heads]
  case field => rw [h'.field, h.field]
  case kept =>
    intro hkept
    have hfirst : e'.current.field.restrictions.choice = e.current.field.restrictions.choice :=
      h.kept (hkept.imp_right fun hall ft hft => hall ft (List.mem_append_left _ hft))
    refine (h'.kept ?_).trans hfirst
    rw [hfirst]
    exact hkept.imp_right fun hall ft hft => hall ft (List.mem_append_right _ hft)
  case marked =>
    rintro ⟨ft, hft, hgroup⟩
    obtain hft | hft := List.mem_append.mp hft
    · have hmarked := h.marked ⟨ft, hft, hgroup⟩
      rwa [h'.kept (.inl hmarked)]
    · exact h'.marked ⟨ft, hft, hgroup⟩
  case found =>
    obtain ⟨new, hnew, halternatives⟩ := h.found
    obtain ⟨new', hnew', halternatives'⟩ := h'.found
    refine ⟨new ++ new', by rw [hnew', hnew, List.append_assoc], ?_⟩
    rw [List.flatMap_append]
    refine List.rel_append ?_ (h.heads ▸ halternatives')
    by_cases hgroups : ∃ ft ∈ fts, ft.isDependency = true ∧ group ft.qname ≠ []
    · have hsame := h'.kept (.inl (h.marked hgroups))
      exact halternatives.imp fun p a ha => ⟨ha.1.congr hsame h'.max, ha.2⟩
    · -- without a group there is nothing that has been found
      have hnone : fts.flatMap (Derived.candidatesOf group e.current.heads) = [] := by
        refine List.flatMap_eq_nil_iff.mpr fun ft hft => ?_
        unfold Derived.candidatesOf
        split
        case isTrue hdependency =>
          have hempty : group ft.qname = [] := by
            by_contra hne
            exact hgroups ⟨ft, hft, hdependency, hne⟩
          rw [hempty]
          rfl
        case isFalse => rfl
      rw [hnone] at halternatives ⊢
      cases halternatives
      exact .nil
  case words => exact h'.words

/-- A type that heads no group is marked at most. -/
theorem of_none (hwords : ∀ f ∈ e.fields, f.restrictions.choice < Word64.limit) (group : QName → List SchemaType)
    (ft : FieldType) (hnone : ft.isDependency = true → group ft.qname = []) (types : List FieldType) :
    e.Along group [ft] { e with current.field := { e.current.field with types } } where
  before := rfl
  after := rfl
  heads := rfl
  field := by
    rcases e.current with ⟨f, -⟩
    cases f
    rfl
  kept _ := rfl
  marked := fun ⟨_, hft, hdependency, hgroup⟩ => by
    obtain rfl := List.mem_singleton.mp hft
    exact absurd (hnone hdependency) hgroup
  found := by
    have hcandidates : Derived.candidatesOf group e.current.heads ft = [] := by
      unfold Derived.candidatesOf
      split
      case isTrue hdependency =>
        rw [hnone hdependency]
        rfl
      case isFalse => rfl
    rw [List.flatMap_singleton, hcandidates]
    exact ⟨[], (List.append_nil _).symm, .nil⟩
  words f hf := by
    simp only [Expansion.fields, List.mem_append, List.mem_cons] at hf
    obtain hf | rfl | hf := hf
    · exact hwords f (List.mem_append_left _ hf)
    · exact hwords e.current.field (List.mem_append_right _ List.mem_cons_self)
    · exact hwords f (List.mem_append_right _ (List.mem_cons_of_mem _ hf))

/-- A type that heads a group gives the field a marker, and alternatives with the same marker. -/
theorem of_group (hwords : ∀ f ∈ e.fields, f.restrictions.choice < Word64.limit)
    (hdependency : ft.isDependency = true) (hgroup : group ft.qname ≠ []) (hf : f = { e.current.field with
      types := f.types
      restrictions.choice := if e.current.field.restrictions.choice = 0 then freshChoice e.fields
        else e.current.field.restrictions.choice
      substitutionGroup := f.substitutionGroup }) :
    e.Along group [ft] (((group ft.qname).map SchemaType.substitute).foldl (Expansion.addMember owner ft.qname)
      { e with current.field := f }) := by
  obtain ⟨warnings, heq⟩ := Expansion.foldl_addMember owner ft.qname (group ft.qname)
    { e with current.field := f }
  have hchoice : f.restrictions.choice =
      if e.current.field.restrictions.choice = 0 then freshChoice e.fields else e.current.field.restrictions.choice :=
    congrArg (·.restrictions.choice) hf
  have hmarked : f.restrictions.choice ≠ 0 ∧ f.restrictions.choice < Word64.limit := by
    rw [hchoice]
    split
    case isTrue => exact freshChoice_ne_zero hwords
    case isFalse hne => exact ⟨hne, hwords _ (List.mem_append_right _ List.mem_cons_self)⟩
  rw [heq]
  constructor
  case before => rfl
  case after => rfl
  case heads => rfl
  case field => rw [hf]
  case kept =>
    rintro (hne | hall)
    · exact hchoice.trans (if_neg hne)
    · exact absurd (hall ft (List.mem_singleton_self ft) hdependency) hgroup
  case marked => exact fun _ => hmarked.1
  case found =>
    refine ⟨_, rfl, ?_⟩
    rw [List.flatMap_singleton, Derived.candidatesOf, if_pos hdependency, List.forall₂_map_left_iff,
      List.forall₂_map_right_iff, List.forall₂_same]
    exact fun m _ => ⟨f.alternative_substitute ft.qname m, rfl⟩
  case words =>
    intro g hg
    simp only [Expansion.fields, List.mem_append, List.mem_cons, List.map_append] at hg
    obtain hg | rfl | (hg | hg) | hg := hg
    · exact hwords g (List.mem_append_left _ hg)
    · exact hmarked.2
    · refine hwords g (List.mem_append_right _ (List.mem_cons_of_mem _ ?_))
      rw [List.map_append]
      exact List.mem_append_left _ hg
    · obtain ⟨a, ha, rfl⟩ := List.mem_map.mp hg
      obtain ⟨m, -, rfl⟩ := List.mem_map.mp ha
      exact hmarked.2
    · refine hwords g (List.mem_append_right _ (List.mem_cons_of_mem _ ?_))
      rw [List.map_append]
      exact List.mem_append_right _ hg

/-- One type is expanded, and marked. -/
theorem expandType (owner : QName) (hsubstitutes : GroupedBy substitutes group)
    (hwords : ∀ f ∈ e.fields, f.restrictions.choice < Word64.limit) {done rest : List FieldType}
    (htypes : e.current.field.types = done ++ ft :: rest) (hft : ft.substituted = false) :
    e.Along group [ft] (e.expandType owner substitutes done.length) ∧
      (e.expandType owner substitutes done.length).current.field.types = done ++ ft.expanded :: rest := by
  have hget : e.current.field.types[done.length]? = some ft := by simp [htypes]
  unfold Expansion.expandType
  dsimp only
  rw [hget]
  dsimp only
  rw [hsubstitutes, htypes, Lists.modify_append_cons, FieldType.expanded]
  split
  case isTrue hskip =>
    have hnot : ft.isDependency = false := by simpa [hft] using hskip
    have hsame : { e with current.field := { e.current.field with types := e.current.field.types } } = e := by
      rcases e with ⟨before, ⟨f, heads⟩, found, after, warnings⟩
      cases f
      rfl
    have halong := of_none hwords group ft (by simp [hnot]) e.current.field.types
    rw [hsame] at halong
    exact ⟨halong, by rw [htypes, hnot]; rfl⟩
  case isFalse hdependency =>
    have hdependency : ft.isDependency = true := by simpa [hft] using hdependency
    rw [hdependency, if_pos rfl]
    split
    case isTrue hempty =>
      have hnone : group ft.qname = [] := by simpa using hempty
      exact ⟨of_none hwords group ft (fun _ => hnone) _, rfl⟩
    case isFalse hsome =>
      have hgroup : group ft.qname ≠ [] := by simpa using hsome
      refine ⟨of_group hwords hdependency hgroup rfl, ?_⟩
      obtain ⟨warnings, heq⟩ := Expansion.foldl_addMember owner ft.qname (group ft.qname) _
      rw [heq]

/-- All types from a position on are expanded, one after the other. -/
theorem foldl_expandType (owner : QName) (hsubstitutes : GroupedBy substitutes group)
    (hwords : ∀ f ∈ e.fields, f.restrictions.choice < Word64.limit) (done : List FieldType) {rest : List FieldType}
    (htypes : e.current.field.types = done ++ rest) (hrest : ∀ ft ∈ rest, ft.substituted = false) :
    e.Along group rest ((List.range' done.length rest.length).foldl (Expansion.expandType owner substitutes) e) ∧
      ((List.range' done.length rest.length).foldl (Expansion.expandType owner substitutes) e).current.field.types =
        done ++ rest.map FieldType.expanded := by
  induction rest generalizing done e with
  | nil => exact ⟨refl hwords, htypes⟩
  | cons ft rest ih =>
    obtain ⟨hft, hrest⟩ := List.forall_mem_cons.mp hrest
    obtain ⟨hone, hmarked⟩ := expandType owner hsubstitutes hwords htypes hft
    rw [← List.singleton_append, ← List.append_assoc] at hmarked
    obtain ⟨hall, hend⟩ := ih hone.words _ hmarked hrest
    rw [List.length_append, List.length_singleton] at hall hend
    rw [List.length_cons, List.range'_succ, List.foldl_cons, hend]
    refine ⟨hone.trans hall, ?_⟩
    rw [List.append_assoc, List.singleton_append, List.map_cons]

end Expansion.Along

-- ---------------------------------------------------------------------------
-- The expansion of all fields
-- ---------------------------------------------------------------------------

/-- Fields that are still to be expanded are expanded into what the relation says. -/
theorem expandsTo_of_some (hsubstitutes : GroupedBy substitutes group) {rounds : Nat} {before fields : List Field}
    {warnings warnings' : List Diagnostic}
    (hwords : ∀ f ∈ before ++ ds.map (·.field), f.restrictions.choice < Word64.limit)
    (hds : ∀ d ∈ ds, ∀ ft ∈ d.field.types, ft.substituted = false)
    (h : expandSubstitutes owner substitutes rounds before ds warnings = some (fields, warnings')) :
    ∃ parts, List.Forall₂ (Derived.ExpandsTo group) ds parts ∧ fields = before ++ parts.flatten := by
  induction rounds generalizing before ds warnings with
  | zero =>
    cases ds with
    | nil =>
      rw [expandSubstitutes] at h
      obtain ⟨rfl, -⟩ := Prod.mk.inj (Option.some.inj h)
      exact ⟨[], .nil, (List.append_nil _).symm⟩
    | cons d after => cases h
  | succ rounds ih =>
    cases ds with
    | nil =>
      rw [expandSubstitutes] at h
      obtain ⟨rfl, -⟩ := Prod.mk.inj (Option.some.inj h)
      exact ⟨[], .nil, (List.append_nil _).symm⟩
    | cons d after =>
      obtain ⟨hd, hafter⟩ := List.forall_mem_cons.mp hds
      rw [List.map_cons] at hwords
      rw [expandSubstitutes] at h
      split at h
      case isTrue helement =>
        obtain ⟨halong, htypes⟩ := Expansion.Along.foldl_expandType owner hsubstitutes
          (e := { before, current := d, after, warnings }) hwords [] rfl hd
        rw [List.length_nil, ← List.range_eq_range'] at halong htypes
        generalize (List.range d.field.types.length).foldl (Expansion.expandType owner substitutes)
          { before, current := d, after, warnings } = e at halong htypes h
        obtain ⟨alternatives, hfound, halternatives⟩ := halong.found
        dsimp only at h
        rw [halong.after] at h
        have hfresh : ∀ a ∈ e.found ++ after, ∀ ft ∈ a.field.types, ft.substituted = false := by
          refine List.forall_mem_append.mpr ⟨fun a ha ft hft => ?_, hafter⟩
          rw [hfound, List.nil_append] at ha
          obtain ⟨p, -, halternative, -⟩ := Lists.exists_mem_of_forall₂ halternatives ha
          rw [halternative.types, List.mem_singleton] at hft
          rw [hft]
          rfl
        have hwords' := halong.words
        rw [Expansion.fields, halong.before, halong.after, List.append_cons] at hwords'
        obtain ⟨parts, hparts, rfl⟩ := ih hwords' hfresh h
        obtain ⟨parts, rest, rfl, hparts, hrest⟩ := Lists.exists_of_forall₂_append hparts
        rw [hfound, List.nil_append] at hparts
        refine ⟨(e.current.field :: parts.flatten) :: rest, .cons ?_ hrest, by simp⟩
        refine .element helement ⟨?_, halong.kept, halong.marked⟩ halternatives hparts
        have hfield := halong.field
        rw [htypes] at hfield
        exact hfield
      case isFalse hother =>
        obtain ⟨parts, hparts, rfl⟩ := ih (by rwa [List.append_assoc]) hafter h
        exact ⟨[d.field] :: parts, .cons (.other (Bool.eq_false_iff.mpr hother)) hparts, by simp⟩

/-- The expansion of a type ends, and makes of its fields, in their order, what the groups at the start say. -/
theorem addSubstitutes_expands (hs : s.Sound) (ht : s.Holds t)
    (hwords : ∀ f ∈ t.fields, f.restrictions.choice < Word64.limit)
    (hfresh : ∀ f ∈ t.fields, ∀ ft ∈ f.types, ft.substituted = false) :
    ∃ parts, List.Forall₂ (fun f part => Derived.ExpandsTo s.groupOf { field := f } part) t.fields parts ∧
      Eventually fun n => wp (prepareSubstitutes >>= fun _ => addSubstitutes n t.id)
        (fun _ s' => s'.Holds { t with fields := parts.flatten } ∧
          s'.types = s.types.map (·.updateAt t.id fun u => { u with fields := parts.flatten }))
        (fun _ _ => False) s := by
  have hmembers : ∀ p ∈ s.substitutions.1, ∃ ft, p.2.types = [ft] := by
    intro p hp
    obtain ⟨⟨head, t⟩, -, rfl⟩ := List.mem_map.mp hp
    exact ⟨_, rfl⟩
  obtain ⟨⟨fields, warnings⟩, N, hN⟩ := expandable_fields t.qname hmembers t.fields [] []
  obtain ⟨parts, hparts, rfl⟩ := expandsTo_of_some (groupedBy_substitutions hs)
    (by simpa using hwords) (by simpa using hfresh) (hN N (Nat.le_refl N))
  refine ⟨parts, List.forall₂_map_left_iff.mp hparts, N, fun n hn => ?_⟩
  unfold prepareSubstitutes addSubstitutes
  beta_reduce
  rw [wp_bind, wp_bind, wp_get, wp_bind]
  refine wp_forM_record _ fun journal => ?_
  have hget : Store.get? { s with journal, memory.substitutes := s.substitutions.1 } t.id = some t :=
    get?_of_holds hs.handles ht
  rw [wp_modify, wp_bind, wp_typeOf hget, wp_bind, wp_get, hN n hn]
  dsimp only
  rw [wp_bind, wp_update]
  refine wp_forM_record _ fun journal' => ⟨?_, ?_⟩
  · have hg : Extends (fun u => { u with fields := parts.flatten }) [] :=
      ⟨fun _ => rfl, fun _ => rfl, fun _ => rfl, fun _ => (List.append_nil _).symm⟩
    have hheld := holds_update (h := t.id) hg hs.handles ht
    rw [updateAt_of_eq rfl] at hheld
    exact hheld
  · exact types_update s t.id _

namespace Substituted

/-- A root that belongs to the groups of some heads. -/
def member (id : Handle) (name : String) (heads : List String) : SchemaType :=
  { id, qname := ⟨"urn:t", name⟩, tag := .element, substitutions := heads.map fun head => ⟨"urn:t", head⟩ }

def record : SchemaType :=
  Shadowed.record 3 "A" [{ tag := .element, name := "f", types := [.ofDependency ⟨"urn:t", "H"⟩] }] []

/-- Two groups in a circle, one of which has a member twice. -/
def store : Store :=
  Shadowed.storeOf [member 1 "H" ["H", "M"], member 2 "M" ["H", "H", "N"], record]

theorem record_expands : store.Sound ∧ store.Holds record ∧
    (∀ f ∈ record.fields, f.restrictions.choice < Word64.limit) ∧
    (∀ f ∈ record.fields, ∀ ft ∈ f.types, ft.substituted = false) ∧
    (∃ parts, List.Forall₂ (fun f part => Derived.ExpandsTo store.groupOf { field := f } part) record.fields parts ∧
      Eventually fun n => wp (prepareSubstitutes >>= fun _ => addSubstitutes n record.id)
        (fun _ s' => s'.Holds { record with fields := parts.flatten }) (fun _ _ => False) store) ∧
    wp (prepareSubstitutes >>= fun _ => addSubstitutes 4 record.id)
      (fun _ s' => (s'.get? record.id).map (fun t => t.fields.map fun f => (f.name, f.restrictions.choice)) =
        some [("f", 1), ("M", 1), ("M", 1)]) (fun _ _ => False) store := by
  have hregular : store.Regular :=
    Shadowed.regular_storeOf (by decide +kernel) (by decide +kernel) (by decide +kernel)
  have hroots : store.types = [member 1 "H" ["H", "M"], member 2 "M" ["H", "H", "N"], record] := rfl
  have hheld : store.Holds record := holds_of_mem_types (hroots ▸ by simp)
  have hwords : ∀ f ∈ record.fields, f.restrictions.choice < Word64.limit := by decide
  have hfresh : ∀ f ∈ record.fields, ∀ ft ∈ f.types, ft.substituted = false := by decide
  obtain ⟨parts, hparts, hrun⟩ := addSubstitutes_expands hregular.sound hheld hwords hfresh
  refine ⟨hregular.sound, hheld, hwords, hfresh, ⟨parts, hparts, hrun.mono fun n hn => ?_⟩, by decide +kernel⟩
  exact wp_mono hn (fun _ _ h => h.1) fun _ _ h => h

end Substituted

end Schemata
