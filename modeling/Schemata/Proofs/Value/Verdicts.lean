import Schemata.Proofs.Inherit.Steady

/-!
# What becomes of a default

A default is looked for in the enumerations among the types of its field first. If there are any, their
verdict is final: a default that none of them has is dropped, even if another type of the field would
take it. Only without enumerations the other types are asked, and if none of them takes the default the
field becomes a string. So an acceptable default is lost exactly if only natives take it and one of the
other types is an enumeration.
-/

namespace Schemata

open SchemaType

variable {u v enum owner : SchemaType} {f f' : Field} {look : FieldType → Option SchemaType}
  {enums : List SchemaType} {ds : List Diagnostic}

-- ---------------------------------------------------------------------------
-- Values
-- ---------------------------------------------------------------------------

/-- The enumeration that a type of a field is, given what references lead to. -/
def FieldType.enumeration? (look : FieldType → Option SchemaType) (ft : FieldType) : Option SchemaType :=
  if ft.native then none else (look ft).filter (·.isEnumeration)

namespace Field

/-- The enumerations among the types of a field. -/
def enumerations (look : FieldType → Option SchemaType) (f : Field) : List SchemaType :=
  f.types.filterMap (·.enumeration? look)

/-- What has to be a value of a type: the default, or each word of it. -/
def defaultValues (f : Field) : List String :=
  if f.restrictions.tokens then Text.words f.defaultValue else [f.defaultValue]

end Field

/-- Every text that the default of a field comes to is the value of a member. -/
def SchemaType.HasDefault (enum : SchemaType) (f : Field) : Prop :=
  f.defaultValues ≠ [] ∧ ∀ value ∈ f.defaultValues, ∃ member ∈ enum.fields, member.defaultValue = value

namespace Field

/-- One of the types of a field takes its default: an enumeration that has it, or a native. -/
def Acceptable (look : FieldType → Option SchemaType) (f : Field) : Prop :=
  (∃ enum ∈ f.enumerations look, enum.HasDefault f) ∨
    ∃ ft ∈ f.types, ft.native = true ∧ ∀ value ∈ f.defaultValues, Lexical.accepts ft.kind value = true

theorem acceptsDefault_iff : f.acceptsDefault = true ↔ ∃ ft ∈ f.types, ft.native = false ∨
    ∀ value ∈ f.defaultValues, Lexical.accepts ft.kind value = true := by
  simp only [acceptsDefault, defaultValues, List.any_eq_true, Bool.or_eq_true, Bool.not_eq_true',
    List.all_eq_true]

theorem hasAllTokens_iff (htokens : f.restrictions.tokens = true) :
    enum.hasAllTokens f.defaultValue = true ↔ enum.HasDefault f := by
  simp only [hasAllTokens, HasDefault, defaultValues, htokens, if_true, Bool.and_eq_true,
    Bool.not_eq_true', List.isEmpty_eq_false_iff, List.all_eq_true, List.any_eq_true, beq_iff_eq]

theorem hasDefault_iff_of_scalar (htokens : f.restrictions.tokens = false) :
    enum.HasDefault f ↔ ∃ member ∈ enum.fields, member.defaultValue = f.defaultValue := by
  simp [HasDefault, defaultValues, htokens]

theorem alignDefault_eq_self (hdefault : f.defaultValue ≠ "") (hcan : f.cannotDefault = false) :
    f.alignDefault = f := by
  have hrequired : f.shouldBeOptional = false := by
    simp [shouldBeOptional, hdefault]
  simp only [alignDefault, hrequired, Bool.false_eq_true, if_false, hcan]

/-- A default that has been left by the rule on lists and optional elements has not been touched. -/
theorem alignDefault_eq_self_of_left (h : f.alignDefault.defaultValue ≠ "") : f.alignDefault = f := by
  have hdefault : f.defaultValue ≠ "" := defaultValue_alignDefault h ▸ h
  have hrequired : f.shouldBeOptional = false := by
    simp [shouldBeOptional, hdefault]
  simp only [alignDefault, hrequired, Bool.false_eq_true, if_false] at h ⊢
  split at h
  case isTrue => exact absurd rfl h
  case isFalse hcan => rw [if_neg hcan]

-- ---------------------------------------------------------------------------
-- Verdicts
-- ---------------------------------------------------------------------------

/-- What a default that an enumeration has is bound to: its member, if it is one. -/
def BoundTo (f : Field) (enum : SchemaType) (value : Option EnumValue) : Prop :=
  if f.restrictions.tokens then value = f.defaultEnum
  else ∃ member ∈ enum.fields, member.defaultValue = f.defaultValue ∧
    value = some ⟨enum.qname, enum.id, member.name⟩

/-- The warning that no enumeration has a default. -/
def enumWarning (owner : SchemaType) (f : Field) : Diagnostic :=
  { severity := .warning
    code := Code.defaultEnumMismatch
    message := "default value " ++ Text.quote f.defaultValue ++ " matches no enumeration member, dropped"
    type := owner.qname.text
    field := f.name }

/-- The warning that no type takes a default. -/
def typeWarning (owner : SchemaType) (f : Field) : Diagnostic :=
  { severity := .warning
    code := Code.defaultTypeMismatch
    message := "default value " ++ Text.quote f.defaultValue ++
      " matches none of the field types, reset to " ++ Native.string.text
    type := owner.qname.text
    field := f.name }

/-- What becomes of a field whose types have the given enumerations among them, and the warnings. -/
inductive Checked (enums : List SchemaType) (owner : SchemaType) (f : Field) :
    Field → List Diagnostic → Prop
  | member (hmember : f.isEnumeration = true) : Checked enums owner f f []
  | empty (hmember : f.isEnumeration = false) (hempty : f.alignDefault.defaultValue = "") :
      Checked enums owner f f.alignDefault []
  | bound {enum : SchemaType} {value : Option EnumValue} (hmember : f.isEnumeration = false)
      (hleft : f.alignDefault = f) (henum : enum ∈ enums) (hhas : enum.HasDefault f)
      (hvalue : f.BoundTo enum value) : Checked enums owner f { f with defaultEnum := value } []
  | dropped (hmember : f.isEnumeration = false) (hleft : f.alignDefault = f) (hsome : enums ≠ [])
      (hnone : ∀ enum ∈ enums, ¬ enum.HasDefault f) :
      Checked enums owner f f.withoutDefault [enumWarning owner f]
  | fits (hmember : f.isEnumeration = false) (hleft : f.alignDefault = f) (hnone : enums = [])
      (haccepts : f.acceptsDefault = true) : Checked enums owner f f []
  | retyped (hmember : f.isEnumeration = false) (hleft : f.alignDefault = f) (hnone : enums = [])
      (haccepts : f.acceptsDefault = false) : Checked enums owner f
        { f with types := [.ofNative Native.string], restrictions.tokens := false } [typeWarning owner f]

/-- What a check says on a default that the rule on lists and optional elements leaves. -/
structure Judged (look : FieldType → Option SchemaType) (f f' : Field) (ds : List Diagnostic) : Prop where
  /-- An acceptable default stays, with its types and without a warning, unless only natives take it and there
  is an enumeration. -/
  acceptable : f.Acceptable look → ((f'.defaultValue = f.defaultValue ∧ f'.types = f.types ∧ ds = []) ↔
    (f.enumerations look = [] ∨ ∃ enum ∈ f.enumerations look, enum.HasDefault f))
  /-- A default is dropped only for an enumeration. -/
  dropped : f'.defaultValue ≠ f.defaultValue →
    f'.defaultValue = "" ∧ f'.types = f.types ∧ f.enumerations look ≠ []
  /-- The types change only without an enumeration, and if no type takes the default. -/
  retyped : f'.types ≠ f.types → f'.types = [.ofNative Native.string] ∧
    f'.defaultValue = f.defaultValue ∧ f.enumerations look = [] ∧ ¬ f.Acceptable look

theorem Checked.judged
    (h : f.Checked (f.enumerations look) owner f' ds) (hmember : f.isEnumeration = false)
    (hdefault : f.defaultValue ≠ "") (hcan : f.cannotDefault = false) : f.Judged look f' ds := by
  have haligned := alignDefault_eq_self hdefault hcan
  cases h with
  | member h => exact absurd (hmember.symm.trans h) Bool.false_ne_true
  | empty _ hempty => exact absurd (haligned ▸ hempty) hdefault
  | bound _ _ henum hhas =>
    exact ⟨fun _ => iff_of_true ⟨rfl, rfl, rfl⟩ (.inr ⟨_, henum, hhas⟩), fun h => absurd rfl h,
      fun h => absurd rfl h⟩
  | dropped _ _ hsome hnone =>
    refine ⟨fun _ => iff_of_false (fun h => hdefault h.1.symm) ?_, fun _ => ⟨rfl, rfl, hsome⟩,
      fun h => absurd rfl h⟩
    rintro (hempty | ⟨enum, henum, hhas⟩)
    · exact hsome hempty
    · exact hnone enum henum hhas
  | fits _ _ hnone =>
    exact ⟨fun _ => iff_of_true ⟨rfl, rfl, rfl⟩ (.inl hnone), fun h => absurd rfl h,
      fun h => absurd rfl h⟩
  | retyped _ _ hnone haccepts =>
    have hunacceptable : ¬ f.Acceptable look := by
      rintro (⟨enum, henum, -⟩ | ⟨ft, hft, -, hall⟩)
      · exact absurd (hnone ▸ henum) List.not_mem_nil
      · exact Bool.false_ne_true (haccepts.symm.trans (acceptsDefault_iff.mpr ⟨ft, hft, .inr hall⟩))
    exact ⟨fun h => absurd h hunacceptable, fun h => absurd rfl h,
      fun _ => ⟨rfl, rfl, hnone, hunacceptable⟩⟩

-- ---------------------------------------------------------------------------
-- The search among enumerations
-- ---------------------------------------------------------------------------

/-- Looks for the default of a field in enumerations. -/
def matchAmong (f : Field) : EnumMatch → List SchemaType → EnumMatch × Option EnumValue
  | sofar, [] => (sofar, f.defaultEnum)
  | _, enum :: rest =>
    if f.restrictions.tokens then
      if enum.hasAllTokens f.defaultValue then (.found, f.defaultEnum) else f.matchAmong .noMember rest
    else
      match enum.fields.find? (·.defaultValue == f.defaultValue) with
      | some member => (.found, some ⟨enum.qname, enum.id, member.name⟩)
      | none => f.matchAmong .noMember rest

/-- The first enumeration that has the default decides; if none has it, it is left as it is. -/
theorem matchAmong_cases (f : Field) (sofar : EnumMatch) (enums : List SchemaType) :
    (∃ enum ∈ enums, enum.HasDefault f ∧ (f.matchAmong sofar enums).1 = .found ∧
      f.BoundTo enum (f.matchAmong sofar enums).2) ∨
    ((∀ enum ∈ enums, ¬ enum.HasDefault f) ∧
      f.matchAmong sofar enums = (if enums.isEmpty then sofar else .noMember, f.defaultEnum)) := by
  induction enums generalizing sofar with
  | nil => exact .inr ⟨fun _ h => absurd h List.not_mem_nil, rfl⟩
  | cons enum enums ih =>
    have hrest : ¬ enum.HasDefault f → f.matchAmong sofar (enum :: enums) = f.matchAmong .noMember enums →
        (∃ enum' ∈ enum :: enums, enum'.HasDefault f ∧ (f.matchAmong sofar (enum :: enums)).1 = .found ∧
          f.BoundTo enum' (f.matchAmong sofar (enum :: enums)).2) ∨
        ((∀ enum' ∈ enum :: enums, ¬ enum'.HasDefault f) ∧
          f.matchAmong sofar (enum :: enums) = (.noMember, f.defaultEnum)) := by
      intro hnot heq
      rw [heq]
      obtain ⟨enum', henum', hhas⟩ | ⟨hnone, hend⟩ := ih .noMember
      · exact .inl ⟨enum', List.mem_cons_of_mem _ henum', hhas⟩
      · refine .inr ⟨List.forall_mem_cons.mpr ⟨hnot, hnone⟩, hend.trans ?_⟩
        rw [ite_self]
    cases htokens : f.restrictions.tokens with
    | true =>
      cases hhas : enum.hasAllTokens f.defaultValue with
      | true =>
        refine .inl ⟨enum, List.mem_cons_self, (hasAllTokens_iff htokens).mp hhas, ?_⟩
        simp [matchAmong, BoundTo, htokens, hhas]
      | false =>
        refine hrest (fun h => ?_) (by simp [matchAmong, htokens, hhas])
        exact Bool.false_ne_true (hhas.symm.trans ((hasAllTokens_iff htokens).mpr h))
    | false =>
      cases hfind : enum.fields.find? (·.defaultValue == f.defaultValue) with
      | some member =>
        have hmem := List.mem_of_find?_eq_some hfind
        have hvalue : member.defaultValue = f.defaultValue := by simpa using List.find?_some hfind
        refine .inl ⟨enum, List.mem_cons_self, (hasDefault_iff_of_scalar htokens).mpr ⟨member, hmem, hvalue⟩, ?_⟩
        simp only [matchAmong, BoundTo, htokens, hfind, Bool.false_eq_true, if_false]
        exact ⟨trivial, member, hmem, hvalue, rfl⟩
      | none =>
        refine hrest (fun h => ?_) (by simp [matchAmong, htokens, hfind])
        obtain ⟨member, hmem, hvalue⟩ := (hasDefault_iff_of_scalar htokens).mp h
        simpa [hvalue] using List.find?_eq_none.mp hfind member hmem

/-- Only a search that ends with a member binds a default. -/
theorem unbound_of_matchAmong {sofar result : EnumMatch} {value : Option EnumValue}
    (hmatch : f.matchAmong sofar enums = (result, value)) (hne : result ≠ .found) :
    value = f.defaultEnum := by
  obtain ⟨-, -, -, hfound, -⟩ | ⟨-, hend⟩ := f.matchAmong_cases sofar enums
  · rw [hmatch] at hfound
    exact absurd hfound hne
  · exact congrArg (·.2) (hmatch.symm.trans hend)

/-- What a check makes of a field whose types have the given enumerations among them, and the warnings. -/
def verdict (enums : List SchemaType) (owner : SchemaType) (f : Field) : Field × List Diagnostic :=
  if f.isEnumeration then (f, [])
  else
    let f := f.alignDefault
    if f.defaultValue = "" then (f, [])
    else
      match f.matchAmong .noEnumeration enums with
      | (.found, value) => ({ f with defaultEnum := value }, [])
      | (.noMember, _) => (f.withoutDefault, [enumWarning owner f])
      | (.noEnumeration, _) =>
        if f.acceptsDefault then (f, [])
        else ({ f with types := [.ofNative Native.string], restrictions.tokens := false },
          [typeWarning owner f])

theorem checked_verdict (enums : List SchemaType) (owner : SchemaType) (f : Field) :
    f.Checked enums owner (f.verdict enums owner).1 (f.verdict enums owner).2 := by
  unfold verdict
  cases hmember : f.isEnumeration with
  | true => exact .member hmember
  | false =>
    rw [if_neg Bool.false_ne_true]
    dsimp only
    split
    case isTrue hempty => exact .empty hmember hempty
    case isFalse hdefault =>
      have hleft := alignDefault_eq_self_of_left hdefault
      rw [hleft]
      obtain ⟨enum, henum, hhas, hfound, hvalue⟩ | ⟨hnone, hend⟩ := f.matchAmong_cases .noEnumeration enums
      · rcases hmatch : f.matchAmong .noEnumeration enums with ⟨result, value⟩
        rw [hmatch] at hfound hvalue
        obtain rfl : result = .found := hfound
        exact .bound hmember hleft henum hhas hvalue
      · rw [hend]
        cases enums with
        | nil =>
          cases haccepts : f.acceptsDefault with
          | true => exact .fits hmember hleft rfl haccepts
          | false => exact .retyped hmember hleft rfl haccepts
        | cons enum enums => exact .dropped hmember hleft (List.cons_ne_nil _ _) hnone

/-- What a check makes of a field of a type, and the warnings, given what references lead to. -/
def judge (look : FieldType → Option SchemaType) (owner : SchemaType) (f : Field) :
    Field × List Diagnostic :=
  f.verdict (f.enumerations look) owner

/-- What the check of a type makes of a field and its choices, and the warnings. -/
def judgeWhole (look : FieldType → Option SchemaType) (owner : SchemaType) (f : Field) :
    Field × List Diagnostic :=
  ({ (f.judge look owner).1 with choices := f.choices.map fun c => (c.judge look owner).1 },
    (f.judge look owner).2 ++ f.choices.flatMap fun c => (c.judge look owner).2)

-- ---------------------------------------------------------------------------
-- Members
-- ---------------------------------------------------------------------------

/-- A field that counts as the same member of an enumeration. -/
structure SameMember (f f' : Field) : Prop where
  tag : f'.tag = f.tag
  member : f.isEnumeration = true → f'.name = f.name ∧ f'.defaultValue = f.defaultValue

namespace SameMember

theorem refl (f : Field) : f.SameMember f :=
  ⟨rfl, fun _ => ⟨rfl, rfl⟩⟩

theorem of_tag (hmember : f.isEnumeration = false) (htag : f'.tag = f.tag) : f.SameMember f' :=
  ⟨htag, fun h => absurd (hmember.symm.trans h) Bool.false_ne_true⟩

end SameMember

theorem Checked.akin (h : f.Checked enums owner f' ds) : f.Akin f' := by
  cases h with
  | empty => exact f.akin_alignDefault
  | member => exact ⟨rfl, rfl, rfl, rfl⟩
  | bound => exact ⟨rfl, rfl, rfl, rfl⟩
  | dropped => exact ⟨rfl, rfl, rfl, rfl⟩
  | fits => exact ⟨rfl, rfl, rfl, rfl⟩
  | retyped => exact ⟨rfl, rfl, rfl, rfl⟩

theorem Checked.sameMember (h : f.Checked enums owner f' ds) : f.SameMember f' := by
  cases hmember : f.isEnumeration with
  | true =>
    cases h with
    | member => exact .refl f
    | _ hnot => exact absurd (hnot.symm.trans hmember) Bool.false_ne_true
  | false => exact .of_tag hmember h.akin.tag

theorem sameMember_judgeWhole (look : FieldType → Option SchemaType) (owner : SchemaType) (f : Field) :
    f.SameMember (f.judgeWhole look owner).1 := by
  have hown := (f.checked_verdict (f.enumerations look) owner).sameMember
  exact ⟨hown.tag, hown.member⟩

end Field

theorem isEnumeration_of_sameMembers (h : List.Forall₂ Field.SameMember u.fields v.fields) :
    v.isEnumeration = u.isEnumeration := by
  have htags := Lists.map_eq_of_forall₂ (h.imp fun _ _ hf => hf.tag)
  have hwith : ∀ w : SchemaType, w.isEnumeration =
      (!(w.fields.map (·.tag)).isEmpty && (w.fields.map (·.tag)).all (· == .enumeration)) := by
    intro w
    rw [SchemaType.isEnumeration, List.isEmpty_map, List.all_map]
    rfl
  rw [hwith, hwith, htags]

/-- In an enumeration the same members are found. -/
theorem members_of_sameMembers (h : List.Forall₂ Field.SameMember u.fields v.fields)
    (henum : u.isEnumeration = true) :
    v.fields.map (fun f => (f.name, f.defaultValue)) = u.fields.map fun f => (f.name, f.defaultValue) := by
  have hmember : ∀ f ∈ u.fields, f.isEnumeration = true := by
    rw [SchemaType.isEnumeration, Bool.and_eq_true, List.all_eq_true] at henum
    exact henum.2
  refine Lists.map_eq_of_forall₂ ?_
  generalize v.fields = fs at h
  generalize u.fields = gs at h hmember
  induction h with
  | nil => exact .nil
  | cons hf _ ih =>
    obtain ⟨hmember, hmembers⟩ := List.forall_mem_cons.mp hmember
    obtain ⟨hname, hvalue⟩ := hf.member hmember
    exact .cons (by rw [hname, hvalue]) (ih hmembers)

/-- The search among enumerations sees no more of them than their names and members. -/
theorem Field.matchAmong_congr {rest : List SchemaType} {sofar : EnumMatch} (hqname : v.qname = u.qname)
    (hid : v.id = u.id) (h : List.Forall₂ Field.SameMember u.fields v.fields)
    (henum : u.isEnumeration = true) :
    f.matchAmong sofar (v :: rest) = f.matchAmong sofar (u :: rest) := by
  have hmembers := members_of_sameMembers h henum
  have htokens : v.hasAllTokens f.defaultValue = u.hasAllTokens f.defaultValue := by
    have hany : ∀ w : SchemaType, ∀ word : String, w.fields.any (·.defaultValue == word) =
        (w.fields.map fun f => (f.name, f.defaultValue)).any (·.2 == word) := by
      intro w word
      rw [List.any_map]
      rfl
    simp only [hasAllTokens, hany, hmembers]
  have hfind : ∀ w : SchemaType, (w.fields.find? (·.defaultValue == f.defaultValue)).map (·.name) =
      ((w.fields.map fun f => (f.name, f.defaultValue)).find? (·.2 == f.defaultValue)).map (·.1) := by
    intro w
    rw [List.find?_map, Option.map_map]
    rfl
  have hname : (v.fields.find? (·.defaultValue == f.defaultValue)).map (·.name) =
      (u.fields.find? (·.defaultValue == f.defaultValue)).map (·.name) := by
    rw [hfind, hfind, hmembers]
  rw [Field.matchAmong, Field.matchAmong, htokens, hqname, hid]
  cases hv : v.fields.find? (·.defaultValue == f.defaultValue) with
  | none =>
    rw [hv, Option.map_none, eq_comm, Option.map_eq_none_iff] at hname
    rw [hname]
  | some member =>
    rw [hv, Option.map_some, eq_comm, Option.map_eq_some_iff] at hname
    obtain ⟨member', hu, hsame⟩ := hname
    rw [hu]
    simp only [hsame]

end Schemata
