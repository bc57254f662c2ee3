import Schemata.Model.SchemaType

/-!
# Drafts of types

What has been read of a type. Lists may have holes, and a base may lack its type; a draft without
holes is complete and stands for a type.
-/

namespace Schemata

/-- An extension whose base is `base`, if that is set. -/
structure ExtensionDraft where
  extension : Extension := {}
  base : Option FieldType := none

/-- A field whose types and choices are those of the draft. -/
structure FieldDraft where
  field : Field := {}
  types : List (Option FieldType) := []
  choices : List (Option FieldDraft) := []

/-- A type whose fields, extensions and inner types are those of the draft. -/
structure TypeDraft where
  type : SchemaType := {}
  fields : List (Option FieldDraft) := []
  extensions : List (Option ExtensionDraft) := []
  inner : List (Option TypeDraft) := []

/-- The items of a list without holes. -/
def filled? {α : Type} : List (Option α) → Option (List α)
  | [] => some []
  | a :: rest => do
    let a ← a
    return a :: (← filled? rest)

/-- The extension that a draft with a base stands for. -/
def ExtensionDraft.complete? (d : ExtensionDraft) : Option Extension :=
  d.base.map fun type => { d.extension with type }

namespace FieldDraft

mutual

/-- The field that a draft without holes stands for. -/
def complete? : FieldDraft → Option Field
  | ⟨field, types, choices⟩ => do
    let types ← filled? types
    let choices ← completeAll? choices
    return { field with types, choices }

/-- The fields that drafts without holes stand for. -/
def completeAll? : List (Option FieldDraft) → Option (List Field)
  | [] => some []
  | none :: _ => none
  | some d :: rest => do
    let field ← complete? d
    return field :: (← completeAll? rest)

end

end FieldDraft

namespace TypeDraft

mutual

/-- The type that a draft without holes stands for. -/
def complete? : TypeDraft → Option SchemaType
  | ⟨type, fields, extensions, inner⟩ => do
    let fields ← FieldDraft.completeAll? fields
    let extensions ← (← filled? extensions).mapM ExtensionDraft.complete?
    let inner ← completeAll? inner
    return { type with fields, extensions, inner }

/-- The types that drafts without holes stand for. -/
def completeAll? : List (Option TypeDraft) → Option (List SchemaType)
  | [] => some []
  | none :: _ => none
  | some d :: rest => do
    let type ← complete? d
    return type :: (← completeAll? rest)

end

end TypeDraft

end Schemata
