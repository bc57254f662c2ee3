import Mathlib.Data.Option.Basic
import Schemata.Document.Codec
import Schemata.Proofs.Document.Reading

/-!
# What types come back as

A written type comes back as the type that `reread` makes of it, part by part. It comes back as it was
if and only if all its `leaves` do: the names, texts, numbers, handles, particles and pairs in it. What
becomes of a handle is a parameter, because handles are taken back once a document has been read.
-/

namespace Schemata

open Json JsonReads

variable {handle : Handle → Option Handle} {α β : Type}

-- ---------------------------------------------------------------------------
-- Leaves
-- ---------------------------------------------------------------------------

/-- What a name comes back as, if its text form can be read. -/
def QName.reread (q : QName) : Option QName :=
  (QName.parse q.text).toOption

/-- What can come back as something else. -/
inductive Leaf where
  | name (q : QName)
  | text (s : String)
  | number (n : Int)
  | handle (h : Handle)
  | particle (p : Particle)
  | pairs (ps : List (String × String))

namespace Leaf

/-- Whether a leaf comes back as it was. -/
def Kept (handle : Handle → Option Handle) : Leaf → Prop
  | name q => q.reread = some q
  | text s => reread s = s
  | number n => number? n = some n
  | .handle h => handle h = some h
  | particle p => .ofText (reread p.text) = p
  | pairs ps => ps.foldl insertReread [] = ps

@[simp] theorem kept_name {q : QName} : (name q).Kept handle ↔ q.reread = some q :=
  Iff.rfl

@[simp] theorem kept_text {s : String} : (text s).Kept handle ↔ reread s = s :=
  Iff.rfl

@[simp] theorem kept_number {n : Int} : (number n).Kept handle ↔ number? n = some n :=
  Iff.rfl

@[simp] theorem kept_handle {h : Handle} : (Leaf.handle h).Kept handle ↔ handle h = some h :=
  Iff.rfl

@[simp] theorem kept_particle {p : Particle} :
    (particle p).Kept handle ↔ .ofText (reread p.text) = p :=
  Iff.rfl

@[simp] theorem kept_pairs {ps : List (String × String)} :
    (pairs ps).Kept handle ↔ ps.foldl insertReread [] = ps :=
  Iff.rfl

end Leaf

/-- The leaf of a part that may be unset. -/
def leafIf (leaf : α → Leaf) (a : Option α) : List Leaf :=
  a.toList.map leaf

theorem mapM_number?_eq_some_iff {n : Option Int} :
    n.mapM number? = some n ↔ ∀ l ∈ leafIf .number n, l.Kept handle := by
  cases n <;> simp [leafIf]

theorem map_reread_eq_iff {s : Option String} :
    s.map reread = s ↔ ∀ l ∈ leafIf .text s, l.Kept handle := by
  cases s <;> simp [leafIf]

theorem mapM_eq_some_self_iff {f : α → Option α} {xs : List α} :
    xs.mapM f = some xs ↔ ∀ x ∈ xs, f x = some x := by
  induction xs with
  | nil => simp
  | cons x xs ih => simp [Option.bind_eq_some_iff, ih]

theorem mapM_map {γ : Type} {f : α → Option β} {g : β → γ} {xs : List α} :
    xs.mapM (fun x => (f x).map g) = (xs.mapM f).map (List.map g) := by
  induction xs with
  | nil => rfl
  | cons x xs ih => simp [ih, Option.map_bind, Option.bind_map]

theorem forall_mem_flatMap_iff {f : α → List β} {xs : List α} {P : β → Prop} :
    (∀ b ∈ xs.flatMap f, P b) ↔ ∀ x ∈ xs, ∀ b ∈ f x, P b := by
  simp only [List.mem_flatMap]
  grind

-- ---------------------------------------------------------------------------
-- Readings of small values and of lists
-- ---------------------------------------------------------------------------

namespace JsonReads

namespace Reading

variable {v : Json}

theorem tag (old t : Tag) : Reading (Reads.tag old) (.text t.text) (some t) := by
  have h : Reading (Reads.tag old) (.text t.text) _ := coded t.text
  rwa [show (Reads.parseTag { line := 1, text := t.text }).toOption = some t by cases t <;> rfl] at h

theorem status (old s : Status) : Reading (Reads.status old) (.text s.text) (some s) := by
  have h : Reading (Reads.status old) (.text s.text) _ := coded s.text
  rwa [show (Reads.parseStatus { line := 1, text := s.text }).toOption = some s by cases s <;> rfl] at h

theorem qname (old q : QName) : Reading (Reads.qname old) (.text q.text) q.reread := by
  have h : Reading (Reads.coded Reads.parseName Reads.keepName old) (.text q.text) _ := coded q.text
  have hparse : (Reads.parseName { line := 1, text := q.text }).toOption = q.reread := by
    rw [Reads.parseName, QName.reread]
    cases QName.parse q.text <;> rfl
  rw [hparse] at h
  exact h

theorem required {read : α → JsonReads α} {zero : α} {r : Option α} (hv : Told v)
    (h : Reading (read zero) v r) :
    Reading (Reads.required read zero none) v (r.map fun a => some (some a)) :=
  ite_nothing hv (h.bind_pure _)

theorem plain {read : α → JsonReads α} {zero : α} {r : Option α} (h : Reading (read zero) v r) :
    Reading (Reads.plain read zero none) v (r.map some) :=
  h.bind_pure some

end Reading

theorem Contributes.required {γ δ ε : Type} {slots : List (Reads.Slot JsonReads α)} {key : String} {a : α}
    {get : α → List (Option γ)} {set : α → List (Option γ) → α} {read : γ → JsonReads γ} {zero : γ} (i : Nat)
    (hslot : slots[i]? = some ⟨key, fun a => do
      let y ← Source.list (Reads.required read zero) (get a)
      return set a y⟩) (hget : get a = []) (hset : set a [] = a) {f : δ → Json} {g : δ → Option ε}
    {draft : ε → γ} {bs : List δ}
    (h : ∀ b ∈ bs, Told (f b) ∧ Reading (read zero) (f b) ((g b).map draft)) :
    Contributes slots (Tree.many key (bs.map f)) a
      ((bs.mapM g).map fun ys => set a (ys.map fun y => some (draft y))) := by
  have hitems : ∀ b ∈ bs, Told (f b) ∧ Reading (Reads.required read zero none) (f b)
      (((g b).map fun y => some (draft y)).map some) := by
    intro b hb
    obtain ⟨hv, hread⟩ := h b hb
    refine ⟨hv, ?_⟩
    have hitem := hread.required hv
    rwa [Option.map_map] at hitem ⊢
  have hmany := many i hslot hget hset hitems
  rwa [mapM_map, Option.map_map] at hmany

/-- Items that are drafts of themselves. -/
theorem Contributes.filled {γ δ : Type} {slots : List (Reads.Slot JsonReads α)} {key : String} {a : α}
    {get : α → List (Option γ)} {set : α → List (Option γ) → α} {read : γ → JsonReads γ} {zero : γ} (i : Nat)
    (hslot : slots[i]? = some ⟨key, fun a => do
      let y ← Source.list (Reads.required read zero) (get a)
      return set a y⟩) (hget : get a = []) (hset : set a [] = a) {f : δ → Json} {g : δ → Option γ}
    {bs : List δ} (h : ∀ b ∈ bs, Told (f b) ∧ Reading (read zero) (f b) (g b)) :
    Contributes slots (Tree.many key (bs.map f)) a ((bs.mapM g).map fun ys => set a (ys.map some)) :=
  required i hslot hget hset fun b hb => by simpa only [Option.map_id_fun', id] using h b hb

variable {slots : List (Reads.Slot JsonReads α)} {ms : List (String × Json)} {a : α} {r : Option α}

theorem Follows.of_eq {r' : Option α} (h : Follows slots ms a r) (hr : r = r') : Follows slots ms a r' :=
  hr ▸ h

/-- What is known of a record by now. -/
theorem Follows.known (b : α) (hb : a = b) (h : Follows slots ms b r) : Follows slots ms a r :=
  hb ▸ h

end JsonReads

-- ---------------------------------------------------------------------------
-- References and restrictions
-- ---------------------------------------------------------------------------

namespace FieldType

/-- What a reference comes back as, given what becomes of its handle. -/
def reread (handle : Handle → Option Handle) (t : FieldType) : Option FieldType := do
  return { t with qname := ← t.qname.reread, reference := ← handle t.reference }

def leaves (t : FieldType) : List Leaf :=
  [.name t.qname, .handle t.reference]

theorem reread_eq_some_iff {t : FieldType} :
    t.reread handle = some t ↔ ∀ l ∈ t.leaves, l.Kept handle := by
  cases t
  simp [reread, leaves, Option.bind_eq_some_iff]

theorem reading (t : FieldType) :
    Reading (Reads.fieldType {}) (Tree.fieldType t) (t.reread number?) := by
  refine .record (by decide +kernel) ?_
  simp only [List.append_assoc]
  exact .of_eq (.bind (.member 0 rfl (told_text _) (.qname _ _)) fun _ =>
    .bind (.number 1 rfl rfl _) fun _ =>
    .bind (.flag 2 rfl rfl _) fun _ =>
    .bind (.flag 3 rfl rfl _) fun _ =>
    .bind (.flag 4 rfl rfl _) fun _ =>
    .last (.flag 5 rfl rfl _)) rfl

end FieldType

namespace EnumValue

def reread (handle : Handle → Option Handle) (v : EnumValue) : Option EnumValue := do
  return {
    type := ← v.type.reread
    ref := ← handle v.ref
    member := JsonReads.reread v.member }

def leaves (v : EnumValue) : List Leaf :=
  [.name v.type, .handle v.ref, .text v.member]

theorem reread_eq_some_iff {v : EnumValue} :
    v.reread handle = some v ↔ ∀ l ∈ v.leaves, l.Kept handle := by
  cases v
  simp [reread, leaves, Option.bind_eq_some_iff]

theorem reading (v : EnumValue) :
    Reading (Source.record Reads.anyCase Reads.enumValueSlots {}) (Tree.enumValue v)
      (v.reread number?) := by
  refine .record (by decide +kernel) ?_
  change Follows _ ([_] ++ ([_] ++ [_])) _ _
  exact .of_eq (.bind (.member 0 rfl (told_text _) (.qname _ _)) fun _ =>
    .bind (.member 1 rfl (told_int _) (.int _ _)) fun _ =>
    .last (.member 2 rfl (told_text _) (.text _ _))) rfl

end EnumValue

namespace PathEntry

def reread (p : PathEntry) : Option PathEntry := do
  return {
    kind := .ofText (JsonReads.reread p.kind.text)
    id := ← number? p.id
    min := ← number? p.min
    max := ← number? p.max }

def leaves (p : PathEntry) : List Leaf :=
  [.particle p.kind, .number p.id, .number p.min, .number p.max]

theorem reread_eq_some_iff {p : PathEntry} : p.reread = some p ↔ ∀ l ∈ p.leaves, l.Kept handle := by
  cases p
  simp [reread, leaves, Option.bind_eq_some_iff, and_comm, and_left_comm, and_assoc]

theorem reading (p : PathEntry) : Reading (Reads.pathEntry {}) (Tree.pathEntry p) p.reread := by
  refine .record (by decide +kernel) ?_
  change Follows _ ([_] ++ ([_] ++ ([_] ++ [_]))) _ _
  exact .of_eq (.bind (.member 0 rfl (told_text _) (.text _ _)) fun _ =>
    .bind (.member 1 rfl (told_int _) (.int _ _)) fun _ =>
    .bind (.member 2 rfl (told_int _) (.int _ _)) fun _ =>
    .last (.member 3 rfl (told_int _) (.int _ _))) rfl

end PathEntry

namespace Restrictions

def reread (r : Restrictions) : Option Restrictions := do
  return { r with
    minOccurs := ← r.minOccurs.mapM number?
    maxOccurs := ← r.maxOccurs.mapM number?
    minExclusive := r.minExclusive.map JsonReads.reread
    minInclusive := r.minInclusive.map JsonReads.reread
    maxExclusive := r.maxExclusive.map JsonReads.reread
    maxInclusive := r.maxInclusive.map JsonReads.reread
    minLength := ← r.minLength.mapM number?
    maxLength := ← r.maxLength.mapM number?
    length := ← r.length.mapM number?
    totalDigits := ← r.totalDigits.mapM number?
    fractionDigits := ← r.fractionDigits.mapM number?
    whiteSpace := r.whiteSpace.map JsonReads.reread
    pattern := r.pattern.map JsonReads.reread
    explicitTimezone := r.explicitTimezone.map JsonReads.reread
    processContents := JsonReads.reread r.processContents
    sequence := ← number? r.sequence
    choice := ← number? r.choice
    group := ← number? r.group
    path := ← r.path.mapM PathEntry.reread }

def leaves (r : Restrictions) : List Leaf :=
  [r.minOccurs, r.maxOccurs, r.minLength, r.maxLength, r.length, r.totalDigits,
      r.fractionDigits].flatMap (leafIf .number) ++
    [r.minExclusive, r.minInclusive, r.maxExclusive, r.maxInclusive, r.whiteSpace, r.pattern,
      r.explicitTimezone].flatMap (leafIf .text) ++
    [.text r.processContents, .number r.sequence, .number r.choice, .number r.group] ++
    r.path.flatMap PathEntry.leaves

theorem reread_eq_some_iff {r : Restrictions} : r.reread = some r ↔ ∀ l ∈ r.leaves, l.Kept handle := by
  cases r
  simp only [leaves, List.forall_mem_append, forall_mem_flatMap_iff, List.forall_mem_cons,
    Leaf.kept_number, Leaf.kept_text, ← mapM_number?_eq_some_iff, ← map_reread_eq_iff,
    ← PathEntry.reread_eq_some_iff]
  simp [reread, Option.bind_eq_some_iff, and_assoc, mapM_eq_some_self_iff]
  grind

theorem told (r : Restrictions) : Told (Tree.restrictions r) :=
  told_object _

theorem reading (r : Restrictions) :
    Reading (Reads.restrictions {}) (Tree.restrictions r) r.reread := by
  refine .record (by decide +kernel) ?_
  simp only [List.append_assoc]
  exact .of_eq (.bind (.numberIf 0 rfl rfl _) fun _ =>
    .bind (.numberIf 1 rfl rfl _) fun _ =>
    .bind (.wordIf 2 rfl rfl _) fun _ =>
    .bind (.wordIf 3 rfl rfl _) fun _ =>
    .bind (.wordIf 4 rfl rfl _) fun _ =>
    .bind (.wordIf 5 rfl rfl _) fun _ =>
    .bind (.numberIf 6 rfl rfl _) fun _ =>
    .bind (.numberIf 7 rfl rfl _) fun _ =>
    .bind (.numberIf 8 rfl rfl _) fun _ =>
    .bind (.numberIf 9 rfl rfl _) fun _ =>
    .bind (.numberIf 10 rfl rfl _) fun _ =>
    .bind (.wordIf 11 rfl rfl _) fun _ =>
    .bind (.wordIf 12 rfl rfl _) fun _ =>
    .bind (.wordIf 13 rfl rfl _) fun _ =>
    .bind (.word 14 rfl rfl _) fun _ =>
    .bind (.flag 15 rfl rfl _) fun _ =>
    .bind (.flag 16 rfl rfl _) fun _ =>
    .bind (.number 17 rfl rfl _) fun _ =>
    .bind (.number 18 rfl rfl _) fun _ =>
    .bind (.number 19 rfl rfl _) fun _ =>
    .last (.many 20 rfl rfl rfl fun (p : PathEntry) _ => ⟨told_object _, p.reading.plain⟩))
    (by simp only [reread, Option.bind_some, Option.bind_eq_bind, Option.pure_def])

end Restrictions

-- ---------------------------------------------------------------------------
-- Bases
-- ---------------------------------------------------------------------------

namespace Extension

def reread (handle : Handle → Option Handle) (e : Extension) : Option Extension := do
  return { e with type := ← e.type.reread handle, restrictions := ← e.restrictions.reread }

def leaves (e : Extension) : List Leaf :=
  e.type.leaves ++ e.restrictions.leaves

theorem reread_eq_some_iff {e : Extension} :
    e.reread handle = some e ↔ ∀ l ∈ e.leaves, l.Kept handle := by
  cases e
  simp only [leaves, List.forall_mem_append, ← FieldType.reread_eq_some_iff,
    ← Restrictions.reread_eq_some_iff]
  simp [reread, Option.bind_eq_some_iff]

/-- The draft that stands for a base. -/
def draft (e : Extension) : ExtensionDraft where
  extension := { e with type := {} }
  base := some e.type

theorem complete?_draft (e : Extension) : e.draft.complete? = some e :=
  rfl

theorem reading (e : Extension) :
    Reading (Reads.extension {}) (Tree.base e) ((e.reread number?).map draft) := by
  have hbase : Reading (Reads.baseType none) (Tree.fieldType e.type)
      ((e.type.reread number?).map some) :=
    .optional (told_object _) (e.type.reading.bind_pure some)
  refine .record (by decide +kernel) ?_
  change Follows _ ([_] ++ ([_] ++ [_])) _ _
  exact .of_eq (.bind (.member 0 rfl (told_text _) (.tag _ _)) fun _ =>
    .bind (.part 1 rfl (told_object _) hbase rfl) fun _ =>
    .last (.part 2 rfl e.restrictions.told e.restrictions.reading rfl))
    (by simp [reread, draft, Option.map_bind, Option.bind_map, Function.comp_def])

end Extension

-- ---------------------------------------------------------------------------
-- Fields
-- ---------------------------------------------------------------------------

namespace Field

mutual

def reread (handle : Handle → Option Handle) : Field → Option Field
  | ⟨tag, name, localName, index, types, choices, ns, restrictions, defaultValue, fixed, mixed, help, wrapper,
      substitutionGroup, defaultEnum⟩ => do
    let index ← number? index
    let types ← types.mapM (FieldType.reread handle)
    let choices ← rereadAll handle choices
    let restrictions ← restrictions.reread
    let defaultEnum ← defaultEnum.mapM (EnumValue.reread handle)
    return ⟨tag, JsonReads.reread name, JsonReads.reread localName, index, types, choices,
      JsonReads.reread ns, restrictions, JsonReads.reread defaultValue, fixed, mixed, JsonReads.reread help,
      JsonReads.reread wrapper, JsonReads.reread substitutionGroup, defaultEnum⟩

def rereadAll (handle : Handle → Option Handle) : List Field → Option (List Field)
  | [] => some []
  | f :: fs => do
    let f ← reread handle f
    return f :: (← rereadAll handle fs)

end

theorem rereadAll_eq (fs : List Field) : rereadAll handle fs = fs.mapM (reread handle) := by
  induction fs with
  | nil => rfl
  | cons f fs ih => rw [rereadAll, ih, List.mapM_cons]

mutual

def leaves : Field → List Leaf
  | ⟨_, name, localName, index, types, choices, ns, restrictions, defaultValue, _, _, help, wrapper,
      substitutionGroup, defaultEnum⟩ =>
    [.text name, .text localName, .number index, .text ns, .text defaultValue, .text help, .text wrapper,
      .text substitutionGroup] ++ types.flatMap FieldType.leaves ++ leavesOf choices ++
      restrictions.leaves ++ defaultEnum.toList.flatMap EnumValue.leaves

def leavesOf : List Field → List Leaf
  | [] => []
  | f :: fs => leaves f ++ leavesOf fs

end

theorem leavesOf_eq (fs : List Field) : leavesOf fs = fs.flatMap leaves := by
  induction fs with
  | nil => rfl
  | cons f fs ih => rw [leavesOf, ih, List.flatMap_cons]

mutual

theorem reread_eq_some_iff : (f : Field) → (f.reread handle = some f ↔ ∀ l ∈ f.leaves, l.Kept handle)
  | ⟨tag, name, localName, index, types, choices, ns, restrictions, defaultValue, fixed, mixed, help, wrapper,
      substitutionGroup, defaultEnum⟩ => by
    have hdefault : defaultEnum.mapM (EnumValue.reread handle) = some defaultEnum ↔
        defaultEnum.toList.mapM (EnumValue.reread handle) = some defaultEnum.toList := by
      cases defaultEnum <;> simp [Option.bind_eq_some_iff]
    simp only [leaves, List.forall_mem_append, forall_mem_flatMap_iff, List.forall_mem_cons,
      Leaf.kept_number, Leaf.kept_text, ← FieldType.reread_eq_some_iff, ← rereadAll_eq_some_iff choices,
      ← Restrictions.reread_eq_some_iff, ← EnumValue.reread_eq_some_iff,
      ← mapM_eq_some_self_iff, ← hdefault]
    simp [reread, Option.bind_eq_some_iff]
    grind

theorem rereadAll_eq_some_iff :
    (fs : List Field) → (rereadAll handle fs = some fs ↔ ∀ l ∈ leavesOf fs, l.Kept handle)
  | [] => by simp [rereadAll, leavesOf]
  | f :: fs => by
    simp only [leavesOf, List.forall_mem_append, ← reread_eq_some_iff f, ← rereadAll_eq_some_iff fs]
    simp [rereadAll, Option.bind_eq_some_iff]

end

mutual

/-- The draft that stands for a field. -/
def draft : Field → FieldDraft
  | ⟨tag, name, localName, index, types, choices, ns, restrictions, defaultValue, fixed, mixed, help, wrapper,
      substitutionGroup, defaultEnum⟩ =>
    { field := ⟨tag, name, localName, index, [], [], ns, restrictions, defaultValue, fixed, mixed, help, wrapper,
        substitutionGroup, defaultEnum⟩
      types := types.map some
      choices := draftAll choices }

def draftAll : List Field → List (Option FieldDraft)
  | [] => []
  | f :: fs => some (draft f) :: draftAll fs

end

theorem draftAll_eq (fs : List Field) : draftAll fs = fs.map fun f => some (draft f) := by
  induction fs with
  | nil => rfl
  | cons f fs ih => rw [draftAll, ih, List.map_cons]

end Field

theorem filled?_map_some (as : List α) : filled? (as.map some) = some as := by
  induction as with
  | nil => rfl
  | cons a as ih => simp [filled?, ih]

namespace Field

mutual

theorem complete?_draft : (f : Field) → f.draft.complete? = some f
  | ⟨tag, name, localName, index, types, choices, ns, restrictions, defaultValue, fixed, mixed, help, wrapper,
      substitutionGroup, defaultEnum⟩ => by
    simp [draft, FieldDraft.complete?, filled?_map_some, completeAll?_draftAll choices]

theorem completeAll?_draftAll : (fs : List Field) → FieldDraft.completeAll? (draftAll fs) = some fs
  | [] => rfl
  | f :: fs => by simp [draftAll, FieldDraft.completeAll?, complete?_draft f, completeAll?_draftAll fs]

end

end Field

theorem Tree.fields_eq (fs : List Field) : Tree.fields fs = fs.map Tree.field := by
  induction fs with
  | nil => rfl
  | cons f fs ih => rw [Tree.fields, ih, List.map_cons]

theorem Tree.mem_many {key : String} {v : Json} {vs : List Json} (hv : v ∈ vs) :
    (key, .list vs) ∈ Tree.many key vs := by
  rw [Tree.many, if_neg (by simpa using List.ne_nil_of_mem hv)]
  exact List.mem_singleton_self _

/-- A default that is a member of an enumeration is left out if it is not set. -/
theorem JsonReads.contributes_enumValue {slots : List (Reads.Slot JsonReads α)} {key : String} {a : α}
    {get : α → Option EnumValue} {set : α → Option EnumValue → α} (i : Nat)
    (hslot : slots[i]? = some ⟨key, fun a => do
      let y ← Reads.enumValue (get a)
      return set a y⟩) (hget : get a = none) (hset : set a none = a) (v : Option EnumValue) :
    Contributes slots (v.map fun v => (key, Tree.enumValue v)).toList a
      ((v.mapM (EnumValue.reread number?)).map (set a)) := by
  cases v with
  | none => exact .inl ⟨rfl, congrArg some hset⟩
  | some v =>
    have hread : Reading (Reads.enumValue none) (Tree.enumValue v) ((v.reread number?).map some) :=
      .optional (told_object _) (v.reading.bind_pure some)
    exact .part i hslot (told_object _) hread hget

namespace Field

theorem told (f : Field) : Told (Tree.field f) := by
  cases f
  exact told_object _

theorem depth_lt_of_mem_choices {c f : Field} (hc : c ∈ f.choices) :
    (Tree.field c).depth < (Tree.field f).depth := by
  obtain ⟨_, _, _, _, _, choices, _, _, _, _, _, _, _, _, _⟩ := f
  have hmem : Tree.field c ∈ Tree.fields choices := Tree.fields_eq choices ▸ List.mem_map_of_mem hc
  have hmember : ("choices", _) ∈ Tree.many _ _ := Tree.mem_many hmem
  refine Nat.lt_trans (depth_lt_of_mem_list hmem) (depth_lt_of_mem_object (m := ("choices", _)) ?_)
  simp only [List.mem_append, hmember, true_or, or_true]

theorem soundKeys_fieldSlots (choice : FieldDraft → JsonReads FieldDraft) :
    SoundKeys ((Reads.fieldSlots choice).map (·.key)) := by
  change SoundKeys ["tag", "name", "localName", "index", "types", "choices", "namespace", "restrictions",
    "default", "fixed", "mixed", "help", "wrapper", "substitutionGroup", "defaultEnum"]
  decide +kernel

theorem reading (depth : Nat) (f : Field) (hdepth : (Tree.field f).depth < depth) :
    Reading (Reads.field depth {}) (Tree.field f) ((f.reread number?).map draft) := by
  induction depth generalizing f with
  | zero => exact absurd hdepth (Nat.not_lt_zero _)
  | succ depth ih =>
    obtain ⟨tag, name, localName, index, types, choices, ns, restrictions, defaultValue, fixed, mixed, help, wrapper,
      substitutionGroup, defaultEnum⟩ := f
    have hchoices : ∀ c ∈ choices, Told (Tree.field c) ∧
        Reading (Reads.field depth {}) (Tree.field c) ((c.reread number?).map draft) := by
      refine fun c hc => ⟨c.told, ih c ?_⟩
      have hlt := depth_lt_of_mem_choices (f := ⟨tag, name, localName, index, types, choices, ns, restrictions,
        defaultValue, fixed, mixed, help, wrapper, substitutionGroup, defaultEnum⟩) hc
      exact Nat.lt_of_lt_of_le hlt (Nat.le_of_lt_succ hdepth)
    refine .record (soundKeys_fieldSlots _) ?_
    simp only [List.append_assoc, Tree.fields_eq]
    change Follows _ ([_] ++ ([_] ++ _)) _ _
    refine .of_eq (.bind (.member 0 rfl (told_text _) (.tag _ _)) fun tag =>
      .bind (.member 1 rfl (told_text _) (.text _ _)) fun name =>
      .bind (.word 2 rfl rfl _) fun localName =>
      .bind (.member 3 rfl (told_int _) (.int _ _)) fun index =>
      .known ⟨{ tag, name, localName, index }, [], []⟩ rfl <|
      .bind (.filled 4 rfl rfl rfl fun (t : FieldType) _ => ⟨told_object _, t.reading⟩) fun types =>
      .bind (.required 5 rfl rfl rfl hchoices) fun choices =>
      .known ⟨{ tag, name, localName, index }, types.map some, choices.map fun c => some c.draft⟩ rfl <|
      .bind (.word 6 rfl rfl _) fun ns =>
      .bind (.part 7 rfl restrictions.told restrictions.reading rfl) fun restrictions =>
      .bind (.word 8 rfl rfl _) fun defaultValue =>
      .bind (.flag 9 rfl rfl _) fun fixed =>
      .bind (.flag 10 rfl rfl _) fun mixed =>
      .bind (.word 11 rfl rfl _) fun help =>
      .known ⟨{ tag, name, localName, index, ns, restrictions, defaultValue, fixed, mixed, help },
        types.map some, choices.map fun c => some c.draft⟩ rfl <|
      .bind (.word 12 rfl rfl _) fun wrapper =>
      .bind (.word 13 rfl rfl _) fun substitutionGroup =>
      .last (contributes_enumValue 14 rfl rfl rfl _)) ?_
    simp [reread, draft, Option.map_bind, rereadAll_eq, draftAll_eq]

end Field

end Schemata
