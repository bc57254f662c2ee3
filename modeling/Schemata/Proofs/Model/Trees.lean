import Mathlib.Logic.Basic
import Schemata.Model.SchemaType

/-!
# Trees of types and fields

Fields hold alternatives and types hold inner types, to any depth. `Field.Refers` and
`SchemaType.Within` say what is inside what without an order; `allTypes` and `walk` list the same
things in one.
-/

namespace Schemata

theorem FieldType.native_eq_false {ft : FieldType} (h : ft.isDependency = true) :
    ft.native = false := by
  simp only [isDependency, Bool.and_eq_true, Bool.not_eq_true'] at h
  exact h.1

namespace Field

variable {f : Field} {ft : FieldType}

/-- A reference of a field: one of its own, or one of an alternative at any depth. -/
inductive Refers (ft : FieldType) : Field → Prop
  | own {f : Field} (h : ft ∈ f.types) : Refers ft f
  | choice {f c : Field} (hc : c ∈ f.choices) (h : Refers ft c) : Refers ft f

theorem allTypes_eq (f : Field) : f.allTypes = f.types ++ allTypesOf f.choices := by
  cases f
  rfl

theorem allTypesOf_eq_flatMap (fs : List Field) : allTypesOf fs = fs.flatMap allTypes := by
  induction fs with
  | nil => rfl
  | cons f fs ih => simp [allTypesOf, ih]

mutual

theorem refers_of_mem_allTypes : (f : Field) → ft ∈ f.allTypes → Refers ft f
  | ⟨_, _, _, _, _, choices, _, _, _, _, _, _, _, _, _⟩, h => by
    obtain h | h := List.mem_append.mp h
    · exact .own h
    · obtain ⟨c, hc, h⟩ := refers_of_mem_allTypesOf choices h
      exact .choice hc h

theorem refers_of_mem_allTypesOf : (fs : List Field) → ft ∈ allTypesOf fs → ∃ f ∈ fs, Refers ft f
  | [], h => absurd h List.not_mem_nil
  | f :: fs, h => by
    obtain h | h := List.mem_append.mp h
    · exact ⟨f, List.mem_cons_self, refers_of_mem_allTypes f h⟩
    · obtain ⟨c, hc, h⟩ := refers_of_mem_allTypesOf fs h
      exact ⟨c, List.mem_cons_of_mem _ hc, h⟩

end

theorem mem_allTypes_iff : ft ∈ f.allTypes ↔ Refers ft f := by
  refine ⟨refers_of_mem_allTypes f, fun h => ?_⟩
  induction h with
  | own h =>
    rw [allTypes_eq]
    exact List.mem_append_left _ h
  | choice hc _ ih =>
    rw [allTypes_eq, allTypesOf_eq_flatMap]
    exact List.mem_append_right _ (List.mem_flatMap.mpr ⟨_, hc, ih⟩)

end Field

namespace SchemaType

variable {t u v : SchemaType} {ft : FieldType}

/-- The type itself, or a type nested in it at any depth. -/
inductive Within (u : SchemaType) : SchemaType → Prop
  | self : Within u u
  | inner {t s : SchemaType} (hs : s ∈ t.inner) (h : Within u s) : Within u t

theorem walk_eq (t : SchemaType) : t.walk = t :: walkAll t.inner := by
  cases t
  rfl

theorem walkAll_eq_flatMap (ts : List SchemaType) : walkAll ts = ts.flatMap walk := by
  induction ts with
  | nil => rfl
  | cons t ts ih => simp [walkAll, ih]

mutual

/-- What holds of a type as soon as it holds of its inner types holds of every type. -/
@[elab_as_elim]
theorem induct {motive : SchemaType → Prop}
    (type : ∀ t, (∀ u ∈ t.inner, motive u) → motive t) : (t : SchemaType) → motive t
  | ⟨_, _, _, _, _, _, _, _, _, _, _, _, _, _, _, _, inner, _, _, _⟩ =>
    type _ (inductAll type inner)

theorem inductAll {motive : SchemaType → Prop}
    (type : ∀ t, (∀ u ∈ t.inner, motive u) → motive t) : (ts : List SchemaType) → ∀ u ∈ ts, motive u
  | [], _, hu => absurd hu List.not_mem_nil
  | t :: ts, u, hu => by
    obtain heq | hu := List.mem_cons.mp hu
    · exact heq ▸ induct type t
    · exact inductAll type ts u hu

end

theorem mem_walk_iff : u ∈ t.walk ↔ Within u t := by
  constructor
  · intro h
    induction t using induct with
    | type t ih =>
      rw [walk_eq, walkAll_eq_flatMap] at h
      obtain rfl | h := List.mem_cons.mp h
      · exact .self
      · obtain ⟨s, hs, h⟩ := List.mem_flatMap.mp h
        exact .inner hs (ih s hs h)
  · intro h
    induction h with
    | self =>
      rw [walk_eq]
      exact List.mem_cons_self
    | inner hs _ ih =>
      rw [walk_eq, walkAll_eq_flatMap]
      exact List.mem_cons_of_mem _ (List.mem_flatMap.mpr ⟨_, hs, ih⟩)

theorem mem_walkAll_iff {ts : List SchemaType} : u ∈ walkAll ts ↔ ∃ t ∈ ts, Within u t := by
  simp only [walkAll_eq_flatMap, List.mem_flatMap, mem_walk_iff]

theorem Within.trans (h : Within u v) (h' : Within v t) : Within u t := by
  induction h' with
  | self => exact h
  | inner hs _ ih => exact .inner hs ih

/-- A reference of the type itself, of one of its fields or bases. -/
def Declares (t : SchemaType) (ft : FieldType) : Prop :=
  (∃ f ∈ t.fields, f.Refers ft) ∨ ∃ e ∈ t.extensions, e.type = ft

/-- A reference of the type or of a type nested in it. -/
def Refers (t : SchemaType) (ft : FieldType) : Prop :=
  ∃ u, Within u t ∧ u.Declares ft

theorem mem_fieldTypes_iff : ft ∈ t.fieldTypes ↔ t.Declares ft := by
  simp only [fieldTypes, Declares, List.mem_append, List.mem_flatMap, Field.mem_allTypes_iff,
    List.mem_map]

theorem mem_flatMap_fieldTypes_iff : ft ∈ t.walk.flatMap fieldTypes ↔ t.Refers ft := by
  simp only [Refers, List.mem_flatMap, mem_walk_iff, mem_fieldTypes_iff]

end SchemaType

end Schemata
