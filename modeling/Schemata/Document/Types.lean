import Schemata.Document.Draft
import Schemata.Document.Source

/-!
# Reading types

Every record of a type document has one slot for each key. The depth to which fields and types are
read is bounded by a number that the caller takes from the length of the text.
-/

namespace Schemata

namespace Reads

variable {m : Type → Type} [Monad m] [Source m]

def parseTag (w : Word) : Except ReadError Tag :=
  match Tag.parse? w.text with
  | some tag => .ok tag
  | none => .error (.unknownTag w.text)

def parseStatus (w : Word) : Except ReadError Status :=
  match Status.parse? w.text with
  | some status => .ok status
  | none => .error (.unknownStatus w.text)

def parseName (w : Word) : Except ReadError QName :=
  match QName.parse w.text with
  | .ok q => .ok q
  | .error e => .error (.badName e)

def tag (old : Tag) : m Tag :=
  coded parseTag (fun _ => .ok .unknown) old

def status (old : Status) : m Status :=
  coded parseStatus (fun _ => .ok .raw) old

/-- The parts of a qualified name. -/
def nameSlots : List (Slot m QName) :=
  [ ⟨"namespace", fun q => return { q with ns := ← text q.ns }⟩,
    ⟨"local", fun q => return { q with name := ← text q.name }⟩ ]

/-- A name that is taken back stays, unless it has a namespace. -/
def keepName (q : QName) : Except ReadError QName :=
  if q.ns = "" then .ok q else .error .tornName

/-- A qualified name by its text or, where it is spelled out, by its parts. -/
def qname (old : QName) : m QName := do
  if ← Source.spelledOut then Source.record {} nameSlots old
  else coded parseName keepName old

/-- Small records do not care for the case of keys. -/
def anyCase : Keys :=
  { exact := false }

def fieldTypeSlots : List (Slot m FieldType) :=
  [ ⟨"qname", fun t => return { t with qname := ← qname t.qname }⟩,
    ⟨"reference", fun t => return { t with reference := ← int t.reference }⟩,
    ⟨"native", fun t => return { t with native := ← bool t.native }⟩,
    ⟨"forward", fun t => return { t with forward := ← bool t.forward }⟩,
    ⟨"circular", fun t => return { t with circular := ← bool t.circular }⟩,
    ⟨"substituted", fun t => return { t with substituted := ← bool t.substituted }⟩ ]

def fieldType (old : FieldType) : m FieldType :=
  Source.record anyCase fieldTypeSlots old

def enumValueSlots : List (Slot m EnumValue) :=
  [ ⟨"type", fun e => return { e with type := ← qname e.type }⟩,
    ⟨"ref", fun e => return { e with ref := ← int e.ref }⟩,
    ⟨"member", fun e => return { e with member := ← text e.member }⟩ ]

/-- The default of a field that is a member of an enumeration, if it is set. -/
def enumValue (old : Option EnumValue) : m (Option EnumValue) :=
  optional (fun old => return some (← Source.record anyCase enumValueSlots (old.getD {}))) old

def pathEntrySlots : List (Slot m PathEntry) :=
  [ ⟨"kind", fun p => return { p with kind := .ofText (← text p.kind.text) }⟩,
    ⟨"id", fun p => return { p with id := ← int p.id }⟩,
    ⟨"min", fun p => return { p with min := ← int p.min }⟩,
    ⟨"max", fun p => return { p with max := ← int p.max }⟩ ]

def pathEntry (old : PathEntry) : m PathEntry :=
  Source.record anyCase pathEntrySlots old

def restrictionSlots : List (Slot m Restrictions) :=
  [ ⟨"minOccurs", fun r => return { r with minOccurs := ← optionalInt r.minOccurs }⟩,
    ⟨"maxOccurs", fun r => return { r with maxOccurs := ← optionalInt r.maxOccurs }⟩,
    ⟨"minExclusive", fun r => return { r with minExclusive := ← optionalText r.minExclusive }⟩,
    ⟨"minInclusive", fun r => return { r with minInclusive := ← optionalText r.minInclusive }⟩,
    ⟨"maxExclusive", fun r => return { r with maxExclusive := ← optionalText r.maxExclusive }⟩,
    ⟨"maxInclusive", fun r => return { r with maxInclusive := ← optionalText r.maxInclusive }⟩,
    ⟨"minLength", fun r => return { r with minLength := ← optionalInt r.minLength }⟩,
    ⟨"maxLength", fun r => return { r with maxLength := ← optionalInt r.maxLength }⟩,
    ⟨"length", fun r => return { r with length := ← optionalInt r.length }⟩,
    ⟨"totalDigits", fun r => return { r with totalDigits := ← optionalInt r.totalDigits }⟩,
    ⟨"fractionDigits", fun r => return { r with fractionDigits := ← optionalInt r.fractionDigits }⟩,
    ⟨"whiteSpace", fun r => return { r with whiteSpace := ← optionalText r.whiteSpace }⟩,
    ⟨"pattern", fun r => return { r with pattern := ← optionalText r.pattern }⟩,
    ⟨"explicitTimezone", fun r =>
      return { r with explicitTimezone := ← optionalText r.explicitTimezone }⟩,
    ⟨"processContents", fun r => return { r with processContents := ← text r.processContents }⟩,
    ⟨"nillable", fun r => return { r with nillable := ← bool r.nillable }⟩,
    ⟨"tokens", fun r => return { r with tokens := ← bool r.tokens }⟩,
    ⟨"sequence", fun r => return { r with sequence := ← int r.sequence }⟩,
    ⟨"choice", fun r => return { r with choice := ← int r.choice }⟩,
    ⟨"group", fun r => return { r with group := ← int r.group }⟩,
    ⟨"path", fun r => return { r with path := ← Source.list (plain pathEntry {}) r.path }⟩ ]

def restrictions (old : Restrictions) : m Restrictions :=
  Source.record {} restrictionSlots old

/-- The base of an extension, if it is set. -/
def baseType (old : Option FieldType) : m (Option FieldType) :=
  optional (fun old => return some (← fieldType (old.getD {}))) old

def extensionSlots : List (Slot m ExtensionDraft) :=
  [ ⟨"tag", fun d => return { d with extension.tag := ← tag d.extension.tag }⟩,
    ⟨"type", fun d => return { d with base := ← baseType d.base }⟩,
    ⟨"restrictions", fun d =>
      return { d with extension.restrictions := ← restrictions d.extension.restrictions }⟩ ]

def extension (old : ExtensionDraft) : m ExtensionDraft :=
  Source.record anyCase extensionSlots old

/-- The slots of a field, given how its choices are read. -/
def fieldSlots (choice : FieldDraft → m FieldDraft) : List (Slot m FieldDraft) :=
  [ ⟨"tag", fun d => return { d with field.tag := ← tag d.field.tag }⟩,
    ⟨"name", fun d => return { d with field.name := ← text d.field.name }⟩,
    ⟨"localName", fun d => return { d with field.localName := ← text d.field.localName }⟩,
    ⟨"index", fun d => return { d with field.index := ← int d.field.index }⟩,
    ⟨"types", fun d => return { d with types := ← Source.list (required fieldType {}) d.types }⟩,
    ⟨"choices", fun d => return { d with choices := ← Source.list (required choice {}) d.choices }⟩,
    ⟨"namespace", fun d => return { d with field.ns := ← text d.field.ns }⟩,
    ⟨"restrictions", fun d =>
      return { d with field.restrictions := ← restrictions d.field.restrictions }⟩,
    ⟨"default", fun d => return { d with field.defaultValue := ← text d.field.defaultValue }⟩,
    ⟨"fixed", fun d => return { d with field.fixed := ← bool d.field.fixed }⟩,
    ⟨"mixed", fun d => return { d with field.mixed := ← bool d.field.mixed }⟩,
    ⟨"help", fun d => return { d with field.help := ← text d.field.help }⟩,
    ⟨"wrapper", fun d => return { d with field.wrapper := ← text d.field.wrapper }⟩,
    ⟨"substitutionGroup", fun d =>
      return { d with field.substitutionGroup := ← text d.field.substitutionGroup }⟩,
    ⟨"defaultEnum", fun d =>
      return { d with field.defaultEnum := ← enumValue d.field.defaultEnum }⟩ ]

/-- A field, with choices down to a depth. -/
def field : Nat → FieldDraft → m FieldDraft
  | 0, _ => Source.refuse .unreadable
  | depth + 1, old => Source.record anyCase (fieldSlots (field depth)) old

/-- The slots of a type, given how its fields and inner types are read. -/
def typeSlots (readField : FieldDraft → m FieldDraft) (readInner : TypeDraft → m TypeDraft) :
    List (Slot m TypeDraft) :=
  [ ⟨"id", fun d => return { d with type.id := ← int d.type.id }⟩,
    ⟨"qname", fun d => return { d with type.qname := ← qname d.type.qname }⟩,
    ⟨"tag", fun d => return { d with type.tag := ← tag d.type.tag }⟩,
    ⟨"location", fun d => return { d with type.location := ← text d.type.location }⟩,
    ⟨"container", fun d => return { d with type.container := ← tag d.type.container }⟩,
    ⟨"abstract", fun d => return { d with type.isAbstract := ← bool d.type.isAbstract }⟩,
    ⟨"mixed", fun d => return { d with type.mixed := ← bool d.type.mixed }⟩,
    ⟨"nillable", fun d => return { d with type.nillable := ← bool d.type.nillable }⟩,
    ⟨"localType", fun d => return { d with type.localType := ← bool d.type.localType }⟩,
    ⟨"status", fun d => return { d with type.status := ← status d.type.status }⟩,
    ⟨"default", fun d => return { d with type.defaultValue := ← text d.type.defaultValue }⟩,
    ⟨"fixed", fun d => return { d with type.fixed := ← bool d.type.fixed }⟩,
    ⟨"help", fun d => return { d with type.help := ← text d.type.help }⟩,
    ⟨"nsMap", fun d => return { d with type.nsMap := ← Source.pairs d.type.nsMap }⟩,
    ⟨"fields", fun d => return { d with fields := ← Source.list (required readField {}) d.fields }⟩,
    ⟨"extensions", fun d =>
      return { d with extensions := ← Source.list (required extension {}) d.extensions }⟩,
    ⟨"inner", fun d => return { d with inner := ← Source.list (required readInner {}) d.inner }⟩,
    ⟨"substitutions", fun d =>
      return { d with type.substitutions := ← Source.list (plain qname {}) d.type.substitutions }⟩,
    ⟨"package", fun d => return { d with type.package := ← text d.type.package }⟩,
    ⟨"module", fun d => return { d with type.moduleName := ← text d.type.moduleName }⟩ ]

/-- A type, with fields and inner types down to a depth. -/
def schemaType : Nat → TypeDraft → m TypeDraft
  | 0, _ => Source.refuse .unreadable
  | depth + 1, old => Source.record {} (typeSlots (field depth) (schemaType depth)) old

/-- The slot of a document. -/
def documentSlots (depth : Nat) : List (Slot m (List (Option TypeDraft))) :=
  [ ⟨"types", fun roots => Source.list (required (schemaType depth) {}) roots⟩ ]

/-- The roots of a document. -/
def documentRoots (depth : Nat) : m (List (Option TypeDraft)) :=
  Source.record anyCase (documentSlots depth) []

end Reads

end Schemata
