import Schemata.Model.Facet

/-!
# Facets of restrictions

The facets of restrictions are independent of each other: each has a place of its own, that is read (`get`)
and written (`set`) without regard to the rest. A text sets the facet of a name by making a new value out of
the one that the facet has; how, depends on the kind of the facet alone. A text that gives no value leaves the
restrictions as they are, but for truth values, which become false.
-/

namespace Schemata

namespace Facet

-- ---------------------------------------------------------------------------
-- Kinds of facets
-- ---------------------------------------------------------------------------

inductive Kind where
  /-- A number, or no bound. -/
  | bound
  | number
  | text
  /-- A text; further texts are alternatives to it. -/
  | alternatives
  /-- A text, empty if the facet is not set. -/
  | plain
  | truth
deriving DecidableEq, Repr

def kind : Facet → Kind
  | minOccurs | maxOccurs => .bound
  | minLength | maxLength | length | totalDigits | fractionDigits => .number
  | minExclusive | minInclusive | maxExclusive | maxInclusive | whiteSpace | explicitTimezone => .text
  | pattern => .alternatives
  | processContents => .plain
  | nillable | tokens => .truth

namespace Kind

/-- The values of the facets of a kind. -/
def Value : Kind → Type
  | bound | number => Option Int
  | text | alternatives => Option String
  | plain => String
  | truth => Bool

/-- The value that a text makes of an earlier one. -/
def read : (kind : Kind) → kind.Value → String → Except Text.LexError kind.Value
  | bound, _, value =>
    if value = "unbounded" then .ok (some Occurs.unbounded) else (Text.readInt value).map some
  | number, _, value => (Text.readInt value).map some
  | text, _, value => .ok (some value)
  | alternatives, none, value => .ok (some value)
  | alternatives, some earlier, value => .ok (some (earlier ++ "|" ++ value))
  | plain, _, value => .ok value
  | truth, _, value => Text.readBool value

/-- What a text that gives no value leaves of an earlier one. -/
def afterFailure : (kind : Kind) → kind.Value → kind.Value
  | truth, _ => false
  | bound, earlier | number, earlier | text, earlier | alternatives, earlier | plain, earlier => earlier

end Kind

def complaint (facet : Facet) (value : String) (cause : Text.LexError) : FacetError :=
  match facet.kind with
  | .truth => .badBoolean facet value cause
  | _ => .badInteger facet value cause

theorem name_injective {facet other : Facet} (hname : facet.name = other.name) : facet = other := by
  revert hname
  cases facet <;> cases other <;> decide

theorem mem_all (facet : Facet) : facet ∈ all := by
  cases facet <;> decide

theorem name_of_ofName? {facet : Facet} {name : String} (hfound : ofName? name = some facet) :
    facet.name = name := by
  unfold ofName? at hfound
  have hname := List.find?_some hfound
  exact beq_iff_eq.mp hname

theorem ofName?_eq_some_iff {facet : Facet} {name : String} :
    ofName? name = some facet ↔ facet.name = name := by
  refine ⟨name_of_ofName?, fun hname => ?_⟩
  cases hfound : ofName? name with
  | none => exact absurd (beq_iff_eq.mpr hname) (List.find?_eq_none.mp hfound facet facet.mem_all)
  | some other => rw [name_injective ((name_of_ofName? hfound).trans hname.symm)]

theorem ofName?_eq_none_iff {name : String} : ofName? name = none ↔ ∀ facet : Facet, facet.name ≠ name := by
  simp only [Option.eq_none_iff_forall_ne_some, ne_eq, ofName?_eq_some_iff]

end Facet

namespace Restrictions

variable {r r' : Restrictions} {facet other : Facet} {name value : String}

-- ---------------------------------------------------------------------------
-- Places of facets
-- ---------------------------------------------------------------------------

/-- The value of a facet. -/
def get (r : Restrictions) : (facet : Facet) → facet.kind.Value
  | .minOccurs => r.minOccurs
  | .maxOccurs => r.maxOccurs
  | .minExclusive => r.minExclusive
  | .minInclusive => r.minInclusive
  | .maxExclusive => r.maxExclusive
  | .maxInclusive => r.maxInclusive
  | .minLength => r.minLength
  | .maxLength => r.maxLength
  | .length => r.length
  | .totalDigits => r.totalDigits
  | .fractionDigits => r.fractionDigits
  | .whiteSpace => r.whiteSpace
  | .pattern => r.pattern
  | .explicitTimezone => r.explicitTimezone
  | .processContents => r.processContents
  | .nillable => r.nillable
  | .tokens => r.tokens

/-- The restrictions with another value of a facet. -/
def set (r : Restrictions) : (facet : Facet) → facet.kind.Value → Restrictions
  | .minOccurs, v => { r with minOccurs := v }
  | .maxOccurs, v => { r with maxOccurs := v }
  | .minExclusive, v => { r with minExclusive := v }
  | .minInclusive, v => { r with minInclusive := v }
  | .maxExclusive, v => { r with maxExclusive := v }
  | .maxInclusive, v => { r with maxInclusive := v }
  | .minLength, v => { r with minLength := v }
  | .maxLength, v => { r with maxLength := v }
  | .length, v => { r with length := v }
  | .totalDigits, v => { r with totalDigits := v }
  | .fractionDigits, v => { r with fractionDigits := v }
  | .whiteSpace, v => { r with whiteSpace := v }
  | .pattern, v => { r with pattern := v }
  | .explicitTimezone, v => { r with explicitTimezone := v }
  | .processContents, v => { r with processContents := v }
  | .nillable, v => { r with nillable := v }
  | .tokens, v => { r with tokens := v }

/-- What is not a facet: the markers and the path. -/
def outline (r : Restrictions) : Int × Int × Int × List PathEntry :=
  (r.sequence, r.choice, r.group, r.path)

@[simp] theorem get_set (r : Restrictions) (facet : Facet) (v : facet.kind.Value) :
    (r.set facet v).get facet = v := by
  cases facet <;> rfl

theorem get_set_of_ne (hne : other ≠ facet) (r : Restrictions) (v : facet.kind.Value) :
    (r.set facet v).get other = r.get other := by
  revert hne
  cases facet <;> cases other <;> first | exact fun _ => rfl | exact fun hne => absurd rfl hne

@[simp] theorem outline_set (r : Restrictions) (facet : Facet) (v : facet.kind.Value) :
    (r.set facet v).outline = r.outline := by
  cases facet <;> rfl

/-- The restrictions differ in nothing but the facet of a name, if there is one. -/
structure SameBut (name : String) (r r' : Restrictions) : Prop where
  facets : ∀ other : Facet, other.name ≠ name → r'.get other = r.get other
  outline : r'.outline = r.outline

theorem sameBut_set (r : Restrictions) (facet : Facet) (v : facet.kind.Value) :
    SameBut facet.name r (r.set facet v) where
  facets _ hne := get_set_of_ne (fun heq => hne (congrArg Facet.name heq)) r v
  outline := outline_set r facet v

-- ---------------------------------------------------------------------------
-- Facets from texts
-- ---------------------------------------------------------------------------

/-- A facet is set by reading the text in view of its value. -/
theorem setFacet_eq (r : Restrictions) (facet : Facet) (value : String) : r.setFacet facet value =
    match facet.kind.read (r.get facet) value with
    | .ok v => (r.set facet v, none)
    | .error cause =>
      (r.set facet (facet.kind.afterFailure (r.get facet)), some (facet.complaint value cause)) := by
  cases facet
  case minOccurs | maxOccurs =>
    simp only [setFacet, setBound, setInteger, Facet.kind, Facet.Kind.read]
    by_cases hvalue : value = "unbounded"
    · simp only [if_pos hvalue]
      rfl
    · simp only [if_neg hvalue]
      cases Text.readInt value <;> rfl
  case minLength | maxLength | length | totalDigits | fractionDigits =>
    simp only [setFacet, setInteger, Facet.kind, Facet.Kind.read]
    cases Text.readInt value <;> rfl
  case pattern =>
    simp only [setFacet, get]
    cases r.pattern <;> rfl
  case nillable | tokens =>
    simp only [setFacet, setBoolean, Facet.kind, Facet.Kind.read]
    cases Text.readBool value <;> rfl
  all_goals rfl

/-- What is left of restrictions after a text that gives the facet of a name no value. -/
def afterFailure (r : Restrictions) (name : String) : Restrictions :=
  { r with
    nillable := r.nillable && name != "nillable"
    tokens := r.tokens && name != "tokens" }

theorem set_afterFailure (r : Restrictions) (facet : Facet) :
    r.set facet (facet.kind.afterFailure (r.get facet)) = r.afterFailure facet.name := by
  cases facet <;> simp [set, get, afterFailure, Facet.kind, Facet.Kind.afterFailure, Facet.name]

theorem afterFailure_eq_self_iff : r.afterFailure name = r ↔
    ¬(name = "nillable" ∧ r.nillable = true) ∧ ¬(name = "tokens" ∧ r.tokens = true) := by
  cases r
  simp only [afterFailure, mk.injEq, true_and, and_true, Bool.and_eq_left_iff_imp, bne_iff_ne, not_and']

/-- A facet is set, a text gives it no value, or there is no such facet. -/
theorem setFacetNamed_cases (r : Restrictions) (name value : String) :
    (∃ (facet : Facet) (v : facet.kind.Value), facet.name = name ∧
      facet.kind.read (r.get facet) value = .ok v ∧ r.setFacetNamed name value = (r.set facet v, none)) ∨
    (∃ (facet : Facet) (cause : Text.LexError), facet.name = name ∧
      facet.kind.read (r.get facet) value = .error cause ∧
      r.setFacetNamed name value = (r.afterFailure name, some (facet.complaint value cause))) ∨
    ((∀ facet : Facet, facet.name ≠ name) ∧ r.setFacetNamed name value = (r, some (.unknown name))) := by
  unfold setFacetNamed
  cases hfound : Facet.ofName? name with
  | none => exact .inr (.inr ⟨Facet.ofName?_eq_none_iff.mp hfound, rfl⟩)
  | some facet =>
    obtain rfl := Facet.ofName?_eq_some_iff.mp hfound
    simp only [setFacet_eq, set_afterFailure]
    cases hread : facet.kind.read (r.get facet) value with
    | ok v => exact .inl ⟨facet, v, rfl, hread, rfl⟩
    | error cause => exact .inr (.inl ⟨facet, cause, rfl, hread, rfl⟩)

/-- Setting a facet fails without a trace, but for a truth value that was set: it is lost. It succeeds
exactly if there is a facet of the name and the text gives it a value, and changes nothing else. -/
theorem setFacetNamed_atomic (r : Restrictions) (name value : String) :
    (∀ e, (r.setFacetNamed name value).2 = some e →
      (r.setFacetNamed name value).1 = r.afterFailure name ∧
      ((r.setFacetNamed name value).1 = r ↔
        ¬(name = "nillable" ∧ r.nillable = true) ∧ ¬(name = "tokens" ∧ r.tokens = true))) ∧
    ((r.setFacetNamed name value).2 = none ↔ ∃ facet : Facet, facet.name = name ∧
      facet.kind.read (r.get facet) value = .ok ((r.setFacetNamed name value).1.get facet) ∧
      SameBut name r (r.setFacetNamed name value).1) := by
  obtain ⟨facet, v, rfl, hread, heq⟩ | ⟨facet, cause, rfl, hread, heq⟩ | ⟨hname, heq⟩ :=
    setFacetNamed_cases r name value
  · rw [heq]
    refine ⟨fun e he => absurd he (by simp), fun _ => ⟨facet, rfl, ?_, sameBut_set r facet v⟩, fun _ => rfl⟩
    rw [hread, get_set]
  · rw [heq]
    refine ⟨fun e _ => ⟨rfl, afterFailure_eq_self_iff⟩, fun hnone => absurd hnone (by simp), ?_⟩
    rintro ⟨other, hname, hread', -⟩
    obtain rfl := Facet.name_injective hname
    rw [hread] at hread'
    cases hread'
  · rw [heq]
    have hsame : r.afterFailure name = r :=
      afterFailure_eq_self_iff.mpr ⟨fun h => hname .nillable h.1.symm, fun h => hname .tokens h.1.symm⟩
    refine ⟨fun e _ => ⟨hsame.symm, ?_⟩, fun hnone => absurd hnone (by simp), ?_⟩
    · rw [← afterFailure_eq_self_iff, hsame]
    · rintro ⟨facet, hfacet, -⟩
      exact absurd hfacet (hname facet)

end Restrictions

namespace Flagged

/-- Restrictions with a truth value among their facets. -/
def restrictions : Restrictions where
  minLength := some 3
  pattern := some "[a-z]+"
  nillable := true
  sequence := 4

theorem setFacetNamed_atomic_flagged :
    (restrictions.setFacetNamed "minLength" "few").2 = some (.badInteger .minLength "few" .syntaxError) ∧
    (restrictions.setFacetNamed "minLength" "few").1 = restrictions ∧
    (restrictions.setFacetNamed "pattern" "[0-9]+").2 = none ∧
    restrictions.SameBut "pattern" (restrictions.setFacetNamed "pattern" "[0-9]+").1 := by
  have hfails : (restrictions.setFacetNamed "minLength" "few").2 =
      some (.badInteger .minLength "few" .syntaxError) := by decide
  have hsets : (restrictions.setFacetNamed "pattern" "[0-9]+").2 = none := by decide
  obtain ⟨-, -, -, hsame⟩ := (Restrictions.setFacetNamed_atomic restrictions "pattern" "[0-9]+").2.mp hsets
  exact ⟨hfails, ((Restrictions.setFacetNamed_atomic restrictions _ _).1 _ hfails).2.mpr (by decide), hsets,
    hsame⟩

/-- The truth value is lost for a text that is none. -/
theorem setFacetNamed_loses_truth :
    (restrictions.setFacetNamed "nillable" "maybe").2 = some (.badBoolean .nillable "maybe" .syntaxError) ∧
    (restrictions.setFacetNamed "nillable" "maybe").1 = { restrictions with nillable := false } ∧
    (restrictions.setFacetNamed "nillable" "maybe").1 ≠ restrictions := by
  decide

end Flagged

end Schemata
