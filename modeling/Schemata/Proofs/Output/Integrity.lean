import Mathlib.Data.List.Nodup
import Mathlib.Logic.Basic
import Schemata.Output.Integrity
import Schemata.Proofs.Model.Trees

/-!
# What integrity promises

The check works on labelled parts. Labels aside, the parts of a forest are its types, so every
reference that passes the check leads to a type of the name that it gives.

The holdings are the labels of all parts in another order, so a part is held twice exactly when its
label occurs twice. As long as different types have different handles, a reference is bound exactly
when it leads to a type of its name. Main statement: the check passes exactly the sound forests, and
names the first of the three rules that a forest breaks.
-/

-- ---------------------------------------------------------------------------
-- References that pass
-- ---------------------------------------------------------------------------

namespace Schemata

variable {types : List SchemaType} {h : Handle} {q : QName}

theorem map_type_ofTypes (types : List FieldType) (n : Nat) :
    (ReferencePart.ofTypes types n).1.map (·.type) = types := by
  simp [ReferencePart.ofTypes, Function.comp_def, List.zipIdx_map_fst]

mutual

theorem references_ofField : (f : Field) → (n : Nat) → (FieldPart.ofField f n).1.references = f.allTypes
  | ⟨_, _, _, _, types, choices, _, _, _, _, _, _, _, _, _⟩, n => by
    simp only [FieldPart.ofField, FieldPart.references, map_type_ofTypes, Field.allTypes]
    rw [referencesOf_ofFields choices]

theorem referencesOf_ofFields : (fs : List Field) → (n : Nat) →
    FieldPart.referencesOf (FieldPart.ofFields fs n).1 = Field.allTypesOf fs
  | [], _ => rfl
  | f :: fs, n => by
    simp only [FieldPart.ofFields, FieldPart.referencesOf, Field.allTypesOf]
    rw [references_ofField f, referencesOf_ofFields fs]

end

theorem referencesOf_eq_flatMap (fs : List FieldPart) :
    FieldPart.referencesOf fs = fs.flatMap FieldPart.references := by
  induction fs with
  | nil => rfl
  | cons f fs ih => simp [FieldPart.referencesOf, ih]

theorem map_type_ofExtensions (extensions : List Extension) (n : Nat) :
    (BasePart.ofExtensions extensions n).1.map (·.type.type) = extensions.map (·.type) := by
  simp only [BasePart.ofExtensions, List.map_map, Function.comp_def]
  have hfst := congrArg (List.map Extension.type) (List.zipIdx_map_fst 0 extensions)
  rwa [List.map_map] at hfst

/-- What a part of a type says about the type. -/
def TypePart.facts (p : TypePart) : Handle × QName × List FieldType :=
  (p.handle, p.qname, p.references)

mutual

theorem map_facts_walk : (t : SchemaType) → (n : Nat) →
    (TypePart.ofType t n).1.walk.map TypePart.facts = t.walk.map fun u => (u.id, u.qname, u.fieldTypes)
  | ⟨id, qname, _, _, _, _, _, _, _, _, _, _, _, _, fields, extensions, inner, _, _, _⟩, n => by
    simp only [TypePart.ofType, TypePart.walk, SchemaType.walk, List.map_cons]
    rw [map_facts_walkAll inner]
    simp only [TypePart.facts, TypePart.references, SchemaType.fieldTypes, map_type_ofExtensions,
      ← referencesOf_eq_flatMap, referencesOf_ofFields, Field.allTypesOf_eq_flatMap]

theorem map_facts_walkAll : (ts : List SchemaType) → (n : Nat) →
    (TypePart.walkAll (TypePart.ofTypes ts n).1).map TypePart.facts =
      (SchemaType.walkAll ts).map fun u => (u.id, u.qname, u.fieldTypes)
  | [], _ => rfl
  | t :: ts, n => by
    simp only [TypePart.ofTypes, TypePart.walkAll, SchemaType.walkAll, List.map_append]
    rw [map_facts_walk t, map_facts_walkAll ts]

end

mutual

/-- The handles of a tree are those of its types, in another order. -/
theorem bindings_perm : (p : TypePart) →
    p.bindings.Perm (p.walk.map fun u => (u.handle, u.qname))
  | ⟨_, _, _, _, _, _, inner⟩ => by
    simp only [TypePart.bindings, TypePart.walk, List.map_cons]
    exact (bindingsOf_perm inner).cons _

theorem bindingsOf_perm : (ps : List TypePart) →
    (TypePart.bindingsOf ps).Perm ((TypePart.walkAll ps).map fun u => (u.handle, u.qname))
  | [] => .nil
  | p :: ps => by
    simp only [TypePart.bindingsOf, TypePart.walkAll, List.map_append]
    exact List.perm_append_comm.trans ((bindings_perm p).append (bindingsOf_perm ps))

end

theorem bindings_roots_perm (roots : List TypePart) : (roots.flatMap TypePart.bindings).Perm
    ((TypePart.walkAll roots).map fun u => (u.handle, u.qname)) := by
  induction roots with
  | nil => exact .nil
  | cons p roots ih =>
    rw [List.flatMap_cons, TypePart.walkAll, List.map_append]
    exact (bindings_perm p).append ih

theorem mem_bindings_iff {roots : List TypePart} :
    (h, q) ∈ roots.flatMap TypePart.bindings ↔
      ∃ u ∈ TypePart.walkAll roots, u.handle = h ∧ u.qname = q := by
  simp only [(bindings_roots_perm roots).mem_iff, List.mem_map, Prod.mk.injEq]

/-- As long as handles differ a handle stands for the name of the type that has it. -/
theorem Forest.nameOf?_eq_some_iff {forest : Forest}
    (hnodup : ((TypePart.walkAll forest.roots).map (·.handle)).Nodup) :
    forest.nameOf? h = some q ↔ ∃ u ∈ TypePart.walkAll forest.roots, u.handle = h ∧ u.qname = q := by
  have hkeys : ((forest.roots.flatMap TypePart.bindings).reverse.map (·.1)).Nodup := by
    rw [List.map_reverse, List.nodup_reverse,
      ((bindings_roots_perm forest.roots).map (·.1)).nodup_iff, List.map_map]
    exact hnodup
  rw [← mem_bindings_iff, ← List.mem_reverse]
  unfold Forest.nameOf?
  constructor
  · intro hname
    obtain ⟨late, early, heq, -⟩ := List.lookup_eq_some_iff.mp hname
    exact heq ▸ List.mem_append_right _ List.mem_cons_self
  · intro hpair
    obtain ⟨late, early, heq⟩ := List.append_of_mem hpair
    refine List.lookup_eq_some_iff.mpr ⟨late, early, heq, fun p hp => ?_⟩
    rw [heq, List.map_append, List.nodup_append] at hkeys
    have hne := hkeys.2.2 p.1 (List.mem_map_of_mem hp) h List.mem_cons_self
    exact bne_iff_ne.mpr hne.symm

/-- A handle that stands for a name belongs to a type of the name. -/
theorem exists_of_nameOf? (hname : (Forest.ofTypes types).nameOf? h = some q) :
    ∃ u ∈ SchemaType.walkAll types, u.id = h ∧ u.qname = q := by
  obtain ⟨late, early, heq, -⟩ := List.lookup_eq_some_iff.mp hname
  have hmem : (h, q) ∈ (Forest.ofTypes types).roots.flatMap TypePart.bindings := by
    rw [← List.mem_reverse, heq]
    exact List.mem_append_right _ List.mem_cons_self
  obtain ⟨p, hp, hhandle, hqname⟩ := mem_bindings_iff.mp hmem
  have hfacts := List.mem_map_of_mem (f := TypePart.facts) hp
  rw [Forest.ofTypes, map_facts_walkAll] at hfacts
  obtain ⟨u, hu, hufacts⟩ := List.mem_map.mp hfacts
  simp only [TypePart.facts, Prod.mk.injEq] at hufacts
  exact ⟨u, hu, hufacts.1.trans hhandle, hufacts.2.1.trans hqname⟩

theorem unbound?_eq_none_of_integrity (hi : integrityViolation? types = none) :
    (Forest.ofTypes types).unbound? = none := by
  unfold integrityViolation? Forest.violation? at hi
  split at hi
  case h_1 => cases hi
  case h_2 =>
    split at hi
    case h_1 => cases hi
    case h_2 hunbound => exact hunbound

/-- After the check every reference that is not native leads to a type of its name. -/
theorem exists_target_of_integrity {t : SchemaType} {ft : FieldType}
    (hi : integrityViolation? types = none) (ht : t ∈ types) (href : t.Refers ft)
    (hnative : ft.native = false) :
    ∃ u ∈ SchemaType.walkAll types, u.id = ft.reference ∧ u.qname = ft.qname := by
  obtain ⟨d, hd, hdecl⟩ := href
  have hdmem : d ∈ SchemaType.walkAll types := SchemaType.mem_walkAll_iff.mpr ⟨t, ht, hd⟩
  have hfacts : (d.id, d.qname, d.fieldTypes) ∈
      (TypePart.walkAll (Forest.ofTypes types).roots).map TypePart.facts := by
    rw [Forest.ofTypes, map_facts_walkAll]
    exact List.mem_map_of_mem (f := fun u => (u.id, u.qname, u.fieldTypes)) hdmem
  obtain ⟨p, hp, hpfacts⟩ := List.mem_map.mp hfacts
  simp only [TypePart.facts, Prod.mk.injEq] at hpfacts
  have hunbound := List.findSome?_eq_none_iff.mp (unbound?_eq_none_of_integrity hi) p hp
  rw [Option.map_eq_none_iff, List.find?_eq_none] at hunbound
  have hbound := hunbound ft (hpfacts.2.2 ▸ SchemaType.mem_fieldTypes_iff.mpr hdecl)
  simp only [isBound, hnative, Bool.false_or, Bool.not_eq_true', Bool.not_eq_false, beq_iff_eq]
    at hbound
  exact exists_of_nameOf? hbound

end Schemata

-- ---------------------------------------------------------------------------
-- What the check finds
-- ---------------------------------------------------------------------------

namespace Schemata

variable {forest : Forest} {root : String} {path : TypePath}

-- ---------------------------------------------------------------------------
-- Sound forests
-- ---------------------------------------------------------------------------

mutual

/-- The labels of a field, its references and its choices. -/
def FieldPart.labels : FieldPart → List Nat
  | ⟨label, _, types, choices⟩ => label :: types.map (·.label) ++ labelsOf choices

def FieldPart.labelsOf : List FieldPart → List Nat
  | [] => []
  | f :: fs => f.labels ++ labelsOf fs

end

/-- The labels of a type and of its own parts, without inner types. -/
def TypePart.labels (t : TypePart) : List Nat :=
  t.label :: t.fields.flatMap FieldPart.labels ++ t.bases.flatMap fun b => [b.label, b.type.label]

namespace Forest

/-- The types of the forest, nested ones included. -/
def types (forest : Forest) : List TypePart :=
  TypePart.walkAll forest.roots

/-- The labels that are met on a walk over the roots. -/
def labels (forest : Forest) : List Nat :=
  forest.types.flatMap TypePart.labels

/-- No part has two owners. -/
def Owned (forest : Forest) : Prop :=
  forest.labels.Nodup

/-- A type of the forest has the handle and the name that a reference gives. -/
def Leads (forest : Forest) (ft : FieldType) : Prop :=
  ft.reference ≠ 0 ∧ ∃ u ∈ forest.types, u.handle = ft.reference ∧ u.qname = ft.qname

/-- Every reference that is not native leads to a type of the forest. -/
def AllBound (forest : Forest) : Prop :=
  ∀ t ∈ forest.types, ∀ ft ∈ t.references, ft.native = false → forest.Leads ft

/-- No two roots have the same module and names of the same key. -/
def Apart (forest : Forest) : Prop :=
  (forest.roots.map TypePart.slot).Nodup

/-- Every type has a handle, and no two types have the same one. -/
structure Identified (forest : Forest) : Prop where
  handle_ne_zero : ∀ t ∈ forest.types, t.handle ≠ 0
  distinct : ∀ t ∈ forest.types, ∀ u ∈ forest.types, t.handle = u.handle → t.label = u.label

end Forest

/-- The failure reports that types violate a rule. -/
def Failure.Reports (f : Failure) (rule : Rule) : Prop :=
  f.compile?.map (·.rule) = some rule

-- ---------------------------------------------------------------------------
-- Holdings
-- ---------------------------------------------------------------------------

mutual

theorem map_label_holdings_field (root : String) : (f : FieldPart) → (path : TypePath) →
    (f.holdings root path).map (·.label) = f.labels
  | ⟨label, name, types, choices⟩, path => by
    simp only [FieldPart.holdings, FieldPart.labels, List.map_append, List.map_cons, List.map_map,
      map_label_holdingsOfChoices root choices path]
    rfl

theorem map_label_holdingsOfChoices (root : String) : (fs : List FieldPart) → (path : TypePath) →
    (FieldPart.holdingsOfChoices root path fs).map (·.label) = FieldPart.labelsOf fs
  | [], _ => rfl
  | f :: fs, path => by
    rw [FieldPart.holdingsOfChoices, FieldPart.labelsOf, List.map_append,
      map_label_holdings_field root f, map_label_holdingsOfChoices root fs]

end

theorem map_label_holdings_bases (root : String) (path : TypePath) (bases : List BasePart) :
    (bases.zipIdx.flatMap fun (b, i) => b.holdings root (path.base i)).map (·.label) =
      bases.flatMap fun b => [b.label, b.type.label] := by
  rw [List.map_flatMap]
  calc (bases.zipIdx.flatMap fun p => (p.1.holdings root (path.base p.2)).map (·.label))
      = bases.zipIdx.flatMap fun p => [p.1.label, p.1.type.label] := rfl
    _ = (bases.zipIdx.map (·.1)).flatMap fun b => [b.label, b.type.label] := by
      rw [List.flatMap_map]
    _ = bases.flatMap fun b => [b.label, b.type.label] := by rw [List.zipIdx_map_fst]

mutual

/-- The holdings of a tree are the labels of its parts, in another order. -/
theorem holdings_perm (root : String) : (t : TypePart) → (path : TypePath) →
    ((t.holdings root path).map (·.label)).Perm (t.walk.flatMap TypePart.labels)
  | ⟨label, handle, qname, modulePath, fields, bases, inner⟩, path => by
    rw [TypePart.walk, List.flatMap_cons, TypePart.holdings, List.map_append, List.map_append,
      map_label_holdings_bases, List.map_cons, List.map_flatMap]
    simp only [map_label_holdings_field]
    exact (holdingsOfInner_perm root inner path).append_left _

theorem holdingsOfInner_perm (root : String) : (ts : List TypePart) → (path : TypePath) →
    ((TypePart.holdingsOfInner root path ts).map (·.label)).Perm
      ((TypePart.walkAll ts).flatMap TypePart.labels)
  | [], _ => .nil
  | t :: ts, path => by
    rw [TypePart.holdingsOfInner, TypePart.walkAll, List.map_append, List.flatMap_append]
    exact List.perm_append_comm.trans
      ((holdings_perm root t _).append (holdingsOfInner_perm root ts path))

end

theorem Forest.holdings_perm (forest : Forest) :
    (forest.holdings.map (·.label)).Perm forest.labels := by
  unfold Forest.holdings Forest.labels Forest.types
  induction forest.roots with
  | nil => exact .nil
  | cons t roots ih =>
    rw [List.flatMap_cons, TypePart.walkAll, List.map_append, List.flatMap_append]
    exact (Schemata.holdings_perm _ t _).append ih

-- ---------------------------------------------------------------------------
-- The three rules
-- ---------------------------------------------------------------------------

section Keys

variable {α κ : Type} {f : α → κ}

/-- Keys that differ among themselves and from earlier ones, seen from the first. -/
theorem keys_apart_cons_iff {x : α} {earlier xs : List α} :
    (((x :: xs).map f).Nodup ∧ ∀ y ∈ x :: xs, f y ∉ earlier.map f) ↔
      f x ∉ earlier.map f ∧ (xs.map f).Nodup ∧ ∀ y ∈ xs, f y ∉ (x :: earlier).map f := by
  simp only [List.map_cons, List.nodup_cons, List.mem_cons, forall_eq_or_imp, not_or, forall_and]
  constructor
  · rintro ⟨⟨hx, hxs⟩, hxe, hrest⟩
    exact ⟨hxe, hxs, fun y hy heq => hx (heq ▸ List.mem_map_of_mem hy), hrest⟩
  · rintro ⟨hxe, hxs, hne, hrest⟩
    refine ⟨⟨fun hmem => ?_, hxs⟩, hxe, hrest⟩
    obtain ⟨y, hy, heq⟩ := List.mem_map.mp hmem
    exact hne y hy heq

theorem find?_key_eq_none_iff [BEq κ] [LawfulBEq κ] {k : κ} {xs : List α} :
    xs.find? (f · == k) = none ↔ k ∉ xs.map f := by
  simp only [List.find?_eq_none, beq_iff_eq, List.mem_map, not_exists, not_and]

end Keys

theorem firstShared?_eq_none_iff {earlier cs : List Holding} :
    firstShared? earlier cs = none ↔
      (cs.map (·.label)).Nodup ∧ ∀ c ∈ cs, c.label ∉ earlier.map (·.label) := by
  induction cs generalizing earlier with
  | nil => simp [firstShared?]
  | cons c cs ih =>
    rw [keys_apart_cons_iff (f := Holding.label), ← ih, firstShared?, ← find?_key_eq_none_iff]
    split
    case h_1 howner => simp [howner]
    case h_2 hnone => simp [hnone]

theorem firstCollision?_eq_none_iff {earlier ts : List TypePart} :
    firstCollision? earlier ts = none ↔
      (ts.map TypePart.slot).Nodup ∧ ∀ t ∈ ts, t.slot ∉ earlier.map TypePart.slot := by
  induction ts generalizing earlier with
  | nil => simp [firstCollision?]
  | cons t ts ih =>
    rw [keys_apart_cons_iff (f := TypePart.slot), ← ih, firstCollision?, ← find?_key_eq_none_iff]
    split
    case h_1 howner => simp [howner]
    case h_2 hnone => simp [hnone]

namespace Forest

theorem firstShared?_holdings_eq_none_iff : firstShared? [] forest.holdings = none ↔ forest.Owned := by
  rw [firstShared?_eq_none_iff, forest.holdings_perm.nodup_iff]
  exact and_iff_left fun _ _ => List.not_mem_nil

theorem firstCollision?_roots_eq_none_iff : firstCollision? [] forest.roots = none ↔ forest.Apart := by
  rw [firstCollision?_eq_none_iff]
  exact and_iff_left fun _ _ => List.not_mem_nil

/-- In an identified forest that owns its parts no handle occurs twice. -/
theorem Identified.nodup_handles (h : forest.Identified) (howned : forest.Owned) :
    (forest.types.map (·.handle)).Nodup := by
  have hlabels : (forest.types.map (·.label)).Nodup := by
    refine howned.sublist ?_
    unfold labels
    induction forest.types with
    | nil => exact .slnil
    | cons t ts ih =>
      rw [List.map_cons, List.flatMap_cons]
      exact ((List.nil_sublist _).cons_cons t.label).append ih
  refine (List.nodup_map_iff_inj_on (List.Nodup.of_map _ hlabels)).mpr fun t ht u hu heq => ?_
  exact List.inj_on_of_nodup_map hlabels ht hu (h.distinct t ht u hu heq)

theorem unbound?_eq_none_iff (h : forest.Identified) (howned : forest.Owned) :
    forest.unbound? = none ↔ forest.AllBound := by
  simp only [unbound?, List.findSome?_eq_none_iff, Option.map_eq_none_iff, List.find?_eq_none,
    Bool.not_eq_true', Bool.not_eq_false, AllBound, types]
  refine forall₂_congr fun t ht => forall₂_congr fun ft hft => ?_
  simp only [isBound, Bool.or_eq_true, beq_iff_eq, nameOf?_eq_some_iff (h.nodup_handles howned), Leads]
  cases ft.native with
  | true => simp
  | false =>
    simp only [Bool.false_eq_true, false_or, forall_const]
    refine ⟨?_, And.right⟩
    rintro ⟨u, hu, hhandle, hname⟩
    exact ⟨hhandle ▸ h.handle_ne_zero u hu, u, hu, hhandle, hname⟩

/-- The check of an identified forest passes exactly if the forest is sound, and otherwise reports the
first rule that it breaks. -/
theorem violation?_reports (h : forest.Identified) :
    (forest.violation? = none ↔ forest.Owned ∧ forest.AllBound ∧ forest.Apart) ∧
      (¬ forest.Owned → ∃ f, forest.violation? = some f ∧ f.Reports .crossReference) ∧
      (forest.Owned → ¬ forest.AllBound →
        ∃ f, forest.violation? = some f ∧ f.Reports .unresolvedReference) ∧
      (forest.Owned → forest.AllBound → ¬ forest.Apart →
        ∃ f, forest.violation? = some f ∧ f.Reports .duplicateType) := by
  unfold violation?
  by_cases howned : forest.Owned
  case neg =>
    have hshared := mt firstShared?_holdings_eq_none_iff.mp howned
    obtain ⟨⟨owner, other⟩, hsome⟩ := Option.ne_none_iff_exists'.mp hshared
    simp [hsome, howned, Failure.Reports, sharedFailure, Failure.ofCompile, Failure.compile?]
  simp only [firstShared?_holdings_eq_none_iff.mpr howned, howned, true_and, not_true_eq_false,
    false_implies, forall_const]
  by_cases hbound : forest.AllBound
  case neg =>
    have hunbound := mt (unbound?_eq_none_iff h howned).mp hbound
    obtain ⟨⟨owner, ft⟩, hsome⟩ := Option.ne_none_iff_exists'.mp hunbound
    simp [hsome, hbound, Failure.Reports, Failure.ofCompile, Failure.compile?]
  simp only [(unbound?_eq_none_iff h howned).mpr hbound, hbound, true_and, not_true_eq_false,
    false_implies, forall_const]
  by_cases hapart : forest.Apart
  case neg =>
    have hcollision := mt firstCollision?_roots_eq_none_iff.mp hapart
    obtain ⟨⟨owner, t⟩, hsome⟩ := Option.ne_none_iff_exists'.mp hcollision
    simp [hsome, hapart, Failure.Reports, Failure.ofCompile, Failure.compile?]
  simp [firstCollision?_roots_eq_none_iff.mpr hapart, hapart]

end Forest

namespace Torn

/-- An order with a reference to nothing, and an invoice of another namespace under the same name that
shares the field. -/
def parts : Forest :=
  let item : FieldPart := ⟨1, "item", [⟨2, { qname := ⟨"urn:o", "Item"⟩, reference := 7 }⟩], []⟩
  { roots :=
      [ { label := 0, handle := 1, qname := ⟨"urn:o", "Order"⟩, modulePath := "generated", fields := [item] },
        { label := 3, handle := 2, qname := ⟨"urn:i", "order"⟩, modulePath := "generated", fields := [item] } ]
    next := 4 }

/-- The forest breaks all three rules, and the check reports the first. -/
theorem reports_shared : parts.Identified ∧ ¬ parts.Owned ∧ ¬ parts.AllBound ∧ ¬ parts.Apart ∧
    ∃ f, parts.violation? = some f ∧ f.Reports .crossReference := by
  have hidentified : parts.Identified := ⟨by decide, by decide⟩
  have howned : ¬ parts.Owned := by unfold Forest.Owned; decide
  refine ⟨hidentified, howned, ?_, ?_, (Forest.violation?_reports hidentified).2.1 howned⟩
  · unfold Forest.AllBound Forest.Leads
    decide
  · unfold Forest.Apart
    decide

end Torn

end Schemata
