import Mathlib.Data.List.TakeWhile
import Schemata.Proofs.Document.Rereading
import Schemata.Proofs.Model.Changes
import Schemata.Proofs.Name.QName

/-!
# What documents come back as

Types that are written in JSON can be read again up to the nesting that reading allows, and come back
as `SchemaType.reread` has it, without their handles. So a document holds the same types again if and
only if all their leaves are kept. This is about all types, whether or not a document can hold them.
-/

namespace Schemata

open Json JsonReads

variable {handle : Handle → Option Handle} {α β : Type}

-- ---------------------------------------------------------------------------
-- Types
-- ---------------------------------------------------------------------------

namespace SchemaType

mutual

/-- What a type comes back as, given what becomes of handles. -/
def reread (handle : Handle → Option Handle) : SchemaType → Option SchemaType
  | ⟨id, qname, tag, location, container, isAbstract, mixed, nillable, localType, status, defaultValue, fixed, help,
      nsMap, fields, extensions, inner, substitutions, package, moduleName⟩ => do
    let id ← handle id
    let qname ← qname.reread
    let fields ← fields.mapM (Field.reread handle)
    let extensions ← extensions.mapM (Extension.reread handle)
    let inner ← rereadAll handle inner
    let substitutions ← substitutions.mapM QName.reread
    return ⟨id, qname, tag, JsonReads.reread location, container, isAbstract, mixed, nillable, localType, status,
      JsonReads.reread defaultValue, fixed, JsonReads.reread help, nsMap.foldl insertReread [], fields, extensions,
      inner, substitutions, JsonReads.reread package, JsonReads.reread moduleName⟩

def rereadAll (handle : Handle → Option Handle) : List SchemaType → Option (List SchemaType)
  | [] => some []
  | t :: ts => do
    let t ← reread handle t
    return t :: (← rereadAll handle ts)

end

theorem rereadAll_eq (ts : List SchemaType) : rereadAll handle ts = ts.mapM (reread handle) := by
  induction ts with
  | nil => rfl
  | cons t ts ih => rw [rereadAll, ih, List.mapM_cons]

mutual

def leaves : SchemaType → List Leaf
  | ⟨id, qname, _, location, _, _, _, _, _, _, defaultValue, _, help, nsMap, fields, extensions, inner, substitutions,
      package, moduleName⟩ =>
    [.handle id, .name qname, .text location, .text defaultValue, .text help, .pairs nsMap, .text package,
      .text moduleName] ++ substitutions.map .name ++ fields.flatMap Field.leaves ++
      extensions.flatMap Extension.leaves ++ leavesOf inner

def leavesOf : List SchemaType → List Leaf
  | [] => []
  | t :: ts => leaves t ++ leavesOf ts

end

theorem leavesOf_eq (ts : List SchemaType) : leavesOf ts = ts.flatMap leaves := by
  induction ts with
  | nil => rfl
  | cons t ts ih => rw [leavesOf, ih, List.flatMap_cons]

mutual

theorem reread_eq_some_iff : (t : SchemaType) → (t.reread handle = some t ↔ ∀ l ∈ t.leaves, l.Kept handle)
  | ⟨id, qname, tag, location, container, isAbstract, mixed, nillable, localType, status, defaultValue, fixed, help,
      nsMap, fields, extensions, inner, substitutions, package, moduleName⟩ => by
    simp only [leaves, List.forall_mem_append, forall_mem_flatMap_iff, List.forall_mem_cons, List.forall_mem_map,
      Leaf.kept_handle, Leaf.kept_name, Leaf.kept_text, Leaf.kept_pairs, ← rereadAll_eq_some_iff inner,
      ← Field.reread_eq_some_iff, ← Extension.reread_eq_some_iff, ← mapM_eq_some_self_iff]
    simp [reread, Option.bind_eq_some_iff]
    grind

theorem rereadAll_eq_some_iff :
    (ts : List SchemaType) → (rereadAll handle ts = some ts ↔ ∀ l ∈ leavesOf ts, l.Kept handle)
  | [] => by simp [rereadAll, leavesOf]
  | t :: ts => by
    simp only [leavesOf, List.forall_mem_append, ← reread_eq_some_iff t, ← rereadAll_eq_some_iff ts]
    simp [rereadAll, Option.bind_eq_some_iff]

end

mutual

/-- The draft that stands for a type. -/
def draft : SchemaType → TypeDraft
  | ⟨id, qname, tag, location, container, isAbstract, mixed, nillable, localType, status, defaultValue, fixed, help,
      nsMap, fields, extensions, inner, substitutions, package, moduleName⟩ =>
    { type := ⟨id, qname, tag, location, container, isAbstract, mixed, nillable, localType, status, defaultValue,
        fixed, help, nsMap, [], [], [], substitutions, package, moduleName⟩
      fields := fields.map fun f => some f.draft
      extensions := extensions.map fun e => some e.draft
      inner := draftAll inner }

def draftAll : List SchemaType → List (Option TypeDraft)
  | [] => []
  | t :: ts => some (draft t) :: draftAll ts

end

theorem draftAll_eq (ts : List SchemaType) : draftAll ts = ts.map fun t => some (draft t) := by
  induction ts with
  | nil => rfl
  | cons t ts ih => rw [draftAll, ih, List.map_cons]

theorem draft_name (t : SchemaType) : t.draft.type.name = t.name := by
  cases t
  rfl

mutual

theorem complete?_draft : (t : SchemaType) → t.draft.complete? = some t
  | ⟨id, qname, tag, location, container, isAbstract, mixed, nillable, localType, status, defaultValue, fixed, help,
      nsMap, fields, extensions, inner, substitutions, package, moduleName⟩ => by
    have hfields : FieldDraft.completeAll? (fields.map fun f => some f.draft) = some fields := by
      rw [← Field.draftAll_eq, Field.completeAll?_draftAll]
    have hfilled : filled? (extensions.map fun e => some e.draft) = some (extensions.map Extension.draft) := by
      rw [← filled?_map_some, List.map_map]
      rfl
    have hextensions : (extensions.map Extension.draft).mapM ExtensionDraft.complete? = some extensions := by
      rw [List.mapM_map, mapM_eq_some_self_iff]
      exact fun e _ => e.complete?_draft
    simp [draft, TypeDraft.complete?, hfields, hfilled, hextensions, completeAll?_draftAll inner]

theorem completeAll?_draftAll : (ts : List SchemaType) → TypeDraft.completeAll? (draftAll ts) = some ts
  | [] => rfl
  | t :: ts => by simp [draftAll, TypeDraft.completeAll?, complete?_draft t, completeAll?_draftAll ts]

end

theorem told (e : Tree.Emphasis) (t : SchemaType) : Told (Tree.schemaType e t) := by
  cases t
  exact told_object _

end SchemaType

theorem Tree.schemaTypes_eq (e : Emphasis) (ts : List SchemaType) :
    Tree.schemaTypes e ts = ts.map (Tree.schemaType e) := by
  induction ts with
  | nil => rfl
  | cons t ts ih => rw [Tree.schemaTypes, ih, List.map_cons]

theorem JsonReads.contributes_pairs {slots : List (Reads.Slot JsonReads α)} {a : α}
    {get : α → List (String × String)} {set : α → List (String × String) → α} (i : Nat)
    (hslot : slots[i]? = some ⟨"nsMap", fun a => do
      let y ← Source.pairs (get a)
      return set a y⟩) (hget : get a = []) (hset : set a [] = a) (ps : List (String × String)) :
    Contributes slots (Tree.nsMap { standing := true } ps) a ((some (ps.foldl insertReread [])).map (set a)) := by
  refine .leftOut ?_ (.part i hslot (told_object _) (.pairs ps) hget)
  intro hempty
  rw [List.isEmpty_iff] at hempty
  subst hempty
  exact congrArg some hset

namespace SchemaType

theorem depth_lt_of_mem_fields {t : SchemaType} {f : Field} (hf : f ∈ t.fields) :
    (Tree.field f).depth < (Tree.schemaType { standing := true } t).depth := by
  obtain ⟨_, _, _, _, _, _, _, _, _, _, _, _, _, _, fields, _, _, _, _, _⟩ := t
  have hmem : Tree.field f ∈ Tree.fields fields := Tree.fields_eq fields ▸ List.mem_map_of_mem hf
  have hmember : ("fields", _) ∈ Tree.many _ _ := Tree.mem_many hmem
  refine Nat.lt_trans (depth_lt_of_mem_list hmem) (depth_lt_of_mem_object (m := ("fields", _)) ?_)
  simp only [List.mem_append, hmember, true_or, or_true]

theorem depth_lt_of_mem_inner {t u : SchemaType} (hu : u ∈ t.inner) :
    (Tree.schemaType { standing := true } u).depth < (Tree.schemaType { standing := true } t).depth := by
  obtain ⟨_, _, _, _, _, _, _, _, _, _, _, _, _, _, _, _, inner, _, _, _⟩ := t
  have hmem : Tree.schemaType { standing := true } u ∈ Tree.schemaTypes { standing := true } inner :=
    Tree.schemaTypes_eq _ inner ▸ List.mem_map_of_mem hu
  have hmember : ("inner", _) ∈ Tree.many _ _ := Tree.mem_many hmem
  refine Nat.lt_trans (depth_lt_of_mem_list hmem) (depth_lt_of_mem_object (m := ("inner", _)) ?_)
  simp only [List.mem_append, hmember, true_or, or_true]

theorem soundKeys_typeSlots (readField : FieldDraft → JsonReads FieldDraft)
    (readInner : TypeDraft → JsonReads TypeDraft) :
    SoundKeys ((Reads.typeSlots readField readInner).map (·.key)) := by
  change SoundKeys ["id", "qname", "tag", "location", "container", "abstract", "mixed", "nillable", "localType",
    "status", "default", "fixed", "help", "nsMap", "fields", "extensions", "inner", "substitutions", "package",
    "module"]
  decide +kernel

theorem reading (depth : Nat) (t : SchemaType)
    (hdepth : (Tree.schemaType { standing := true } t).depth < depth) :
    Reading (Reads.schemaType depth {}) (Tree.schemaType { standing := true } t)
      ((t.reread number?).map draft) := by
  induction depth generalizing t with
  | zero => exact absurd hdepth (Nat.not_lt_zero _)
  | succ depth ih =>
    have hfields : ∀ f ∈ t.fields, Told (Tree.field f) ∧
        Reading (Reads.field depth {}) (Tree.field f) ((f.reread number?).map Field.draft) :=
      fun f hf => ⟨f.told, f.reading depth
        (Nat.lt_of_lt_of_le (depth_lt_of_mem_fields hf) (Nat.le_of_lt_succ hdepth))⟩
    have hinner : ∀ u ∈ t.inner, Told (Tree.schemaType { standing := true } u) ∧
        Reading (Reads.schemaType depth {}) (Tree.schemaType { standing := true } u)
          ((u.reread number?).map draft) :=
      fun u hu => ⟨u.told _, ih u (Nat.lt_of_lt_of_le (depth_lt_of_mem_inner hu) (Nat.le_of_lt_succ hdepth))⟩
    obtain ⟨id, qname, tag, location, container, isAbstract, mixed, nillable, localType, status, defaultValue, fixed,
      help, nsMap, fields, extensions, inner, substitutions, package, moduleName⟩ := t
    refine .record (soundKeys_typeSlots _ _) ?_
    simp only [List.append_assoc, Tree.fields_eq, Tree.schemaTypes_eq]
    change Follows _ (_ ++ ([_] ++ ([_] ++ (_ ++ ([_] ++ (_ ++ (_ ++ (_ ++ (_ ++ ([_] ++ _)))))))))) _ _
    refine .of_eq (.bind (.number 0 rfl rfl _) fun id =>
      .bind (.member 1 rfl (told_text _) (.qname _ _)) fun qname =>
      .bind (.member 2 rfl (told_text _) (.tag _ _)) fun tag =>
      .bind (.word 3 rfl rfl _) fun location =>
      .bind (.member 4 rfl (told_text _) (.tag _ _)) fun container =>
      .bind (.flag 5 rfl rfl _) fun isAbstract =>
      .bind (.flag 6 rfl rfl _) fun mixed =>
      .bind (.flag 7 rfl rfl _) fun nillable =>
      .bind (.flag 8 rfl rfl _) fun localType =>
      .bind (.member 9 rfl (told_text _) (.status _ _)) fun status =>
      .known ⟨⟨id, qname, tag, location, container, isAbstract, mixed, nillable, localType, status, "", false, "", [],
        [], [], [], [], "", ""⟩, [], [], []⟩ rfl <|
      .bind (.word 10 rfl rfl _) fun defaultValue =>
      .bind (.flag 11 rfl rfl _) fun fixed =>
      .bind (.word 12 rfl rfl _) fun help =>
      .bind (contributes_pairs 13 rfl rfl rfl _) fun nsMap =>
      .known ⟨⟨id, qname, tag, location, container, isAbstract, mixed, nillable, localType, status, defaultValue,
        fixed, help, nsMap, [], [], [], [], "", ""⟩, [], [], []⟩ rfl <|
      .bind (.required 14 rfl rfl rfl hfields) fun fields =>
      .bind (.required 15 rfl rfl rfl fun (e : Extension) _ => ⟨told_object _, e.reading⟩) fun extensions =>
      .bind (.required 16 rfl rfl rfl hinner) fun inner =>
      .known ⟨⟨id, qname, tag, location, container, isAbstract, mixed, nillable, localType, status, defaultValue,
        fixed, help, nsMap, [], [], [], [], "", ""⟩, fields.map fun f => some f.draft, extensions.map fun e => some e.draft,
        inner.map fun t => some t.draft⟩ rfl <|
      .bind (.many 17 rfl rfl rfl fun (q : QName) _ => ⟨told_text _, (Reading.qname _ q).plain⟩) fun substitutions =>
      .bind (.word 18 rfl rfl _) fun package =>
      .last (.word 19 rfl rfl _)) ?_
    simp [reread, draft, Option.map_bind, rereadAll_eq, draftAll_eq]

end SchemaType

-- ---------------------------------------------------------------------------
-- Clear values
-- ---------------------------------------------------------------------------

namespace Tree

/-- Members whose values are printed without the character that ends a text. -/
def ClearMembers (ms : Members) : Prop :=
  ∀ m ∈ ms, Clear m.2

@[simp] theorem clearMembers_nil : ClearMembers [] :=
  fun _ h => absurd h List.not_mem_nil

@[simp] theorem clearMembers_cons {m : String × Json} {ms : Members} :
    ClearMembers (m :: ms) ↔ Clear m.2 ∧ ClearMembers ms :=
  List.forall_mem_cons

@[simp] theorem clearMembers_append {ms ms' : Members} :
    ClearMembers (ms ++ ms') ↔ ClearMembers ms ∧ ClearMembers ms' :=
  List.forall_mem_append

variable {key : String}

theorem clearMembers_ite {p : Prop} [Decidable p] {v : Json} (h : Clear v) :
    ClearMembers (if p then [] else [(key, v)]) := by
  split <;> simp [h]

@[simp] theorem clear_flag (b : Bool) : ClearMembers (flag key b) := by
  cases b <;> simp [flag, clear_true]

@[simp] theorem clear_number (n : Int) : ClearMembers (number key n) :=
  clearMembers_ite (clear_int n)

@[simp] theorem clear_word (s : String) : ClearMembers (word key s) :=
  clearMembers_ite (clear_text s)

@[simp] theorem clear_numberIf (n : Option Int) : ClearMembers (numberIf key n) := by
  cases n <;> simp [numberIf, clear_int]

@[simp] theorem clear_wordIf (s : Option String) : ClearMembers (wordIf key s) := by
  cases s <;> simp [wordIf, clear_text]

theorem clear_many {items : List Json} (h : ∀ v ∈ items, Clear v) : ClearMembers (many key items) :=
  clearMembers_ite (clear_list h)

@[simp] theorem clear_fieldType (t : FieldType) : Clear (fieldType t) :=
  clear_object (show ClearMembers _ by simp [clear_text])

@[simp] theorem clear_pathEntry (p : PathEntry) : Clear (pathEntry p) :=
  clear_object (show ClearMembers _ by simp [clear_text, clear_int])

@[simp] theorem clear_restrictions (r : Restrictions) : Clear (restrictions r) := by
  have hpath : ClearMembers (many "path" (r.path.map pathEntry)) := clear_many (by simp)
  exact clear_object (show ClearMembers _ by simp [hpath])

@[simp] theorem clear_base (e : Extension) : Clear (base e) :=
  clear_object (show ClearMembers _ by simp [clear_text])

@[simp] theorem clear_enumValue (v : EnumValue) : Clear (enumValue v) :=
  clear_object (show ClearMembers _ by simp [clear_text, clear_int])

mutual

theorem clear_field : (f : Field) → Clear (field f)
  | ⟨_, _, _, _, types, choices, _, _, _, _, _, _, _, _, defaultEnum⟩ => by
    have htypes : ClearMembers (many "types" (types.map fieldType)) := clear_many (by simp)
    have hchoices : ClearMembers (many "choices" (fields choices)) := clear_many (clear_fields choices)
    have hdefault : ClearMembers (defaultEnum.map fun v => ("defaultEnum", enumValue v)).toList := by
      cases defaultEnum <;> simp
    exact clear_object (show ClearMembers _ by simp [clear_text, clear_int, htypes, hchoices, hdefault])

theorem clear_fields : (fs : List Field) → ∀ v ∈ fields fs, Clear v
  | [] => by simp [fields]
  | f :: fs => List.forall_mem_cons.mpr ⟨clear_field f, clear_fields fs⟩

end

theorem clear_nsMap (e : Emphasis) (ps : List (String × String)) : ClearMembers (nsMap e ps) := by
  refine clearMembers_ite (clear_object (List.forall_mem_map.mpr fun p _ => ?_))
  exact clear_text p.2

theorem clear_container (e : Emphasis) (tag : Tag) : ClearMembers (container e tag) := by
  unfold container
  split <;> simp [clear_text]

theorem clear_status (e : Emphasis) (s : Status) : ClearMembers (status e s) := by
  unfold status
  split <;> simp [clear_text]

mutual

theorem clear_schemaType (e : Emphasis) : (t : SchemaType) → Clear (schemaType e t)
  | ⟨_, _, _, _, _, _, _, _, _, _, _, _, _, _, fields, extensions, inner, substitutions, _, _⟩ => by
    have hfields : ClearMembers (many "fields" (Tree.fields fields)) := clear_many (clear_fields fields)
    have hextensions : ClearMembers (many "extensions" (extensions.map base)) := clear_many (by simp)
    have hinner : ClearMembers (many "inner" (schemaTypes e inner)) := clear_many (clear_schemaTypes e inner)
    have hsubstitutions : ClearMembers (many "substitutions" (substitutions.map fun q => .text q.text)) :=
      clear_many (by simp [clear_text])
    exact clear_object (show ClearMembers _ by
      simp [clear_text, clear_container, clear_status, clear_nsMap, hfields, hextensions, hinner, hsubstitutions])

theorem clear_schemaTypes (e : Emphasis) : (ts : List SchemaType) → ∀ v ∈ schemaTypes e ts, Clear v
  | [] => by simp [schemaTypes]
  | t :: ts => List.forall_mem_cons.mpr ⟨clear_schemaType e t, clear_schemaTypes e ts⟩

end

end Tree

-- ---------------------------------------------------------------------------
-- Documents
-- ---------------------------------------------------------------------------

namespace Document

/-- A document in JSON as a value. -/
def value (ts : List SchemaType) : Json :=
  .object [("types", .list (Tree.schemaTypes { standing := true } ts))]

theorem encode_json (ts : List SchemaType) : encode .json ts = Json.pretty (value ts) :=
  rfl

theorem clear_value (ts : List SchemaType) : Clear (value ts) :=
  clear_object (by simpa using clear_list (Tree.clear_schemaTypes _ ts))

theorem toList_pretty (v : Json) : (Json.pretty v).toList = printed 0 v ++ ['\n'] := by
  rw [Json.pretty, String.toList_append]
  rfl

theorem depth_lt_of_mem {t : SchemaType} {ts : List SchemaType} (ht : t ∈ ts) :
    (Tree.schemaType { standing := true } t).depth < (value ts).depth := by
  have hmem : Tree.schemaType { standing := true } t ∈ Tree.schemaTypes { standing := true } ts :=
    Tree.schemaTypes_eq _ ts ▸ List.mem_map_of_mem ht
  exact Nat.lt_trans (depth_lt_of_mem_list hmem)
    (depth_lt_of_mem_object (m := ("types", _)) (List.mem_singleton_self _))

theorem reading_value (depth : Nat) (ts : List SchemaType) (hdepth : (value ts).depth ≤ depth) :
    Reading (Reads.documentRoots depth) (value ts)
      ((ts.mapM (SchemaType.reread number?)).map (List.map fun t => some t.draft)) := by
  have hitems : ∀ t ∈ ts, Told (Tree.schemaType { standing := true } t) ∧
      Reading (Reads.required (Reads.schemaType depth) {} none) (Tree.schemaType { standing := true } t)
        (((t.reread number?).map fun t => some t.draft).map some) := by
    intro t ht
    refine ⟨t.told _, ?_⟩
    have h := (t.reading depth (Nat.lt_of_lt_of_le (depth_lt_of_mem ht) hdepth)).required (t.told _)
    rwa [Option.map_map] at h ⊢
  have hlist := Reading.list hitems
  rw [mapM_map, ← Tree.schemaTypes_eq] at hlist
  refine .record (by change SoundKeys ["types"]; decide +kernel) ?_
  refine (Follows.cons (k := some) (List.mem_singleton_self _) (told_list _) hlist fun _ _ => .nil _).of_eq ?_
  simp

theorem printed_object (level : Nat) (ms : List (String × Json)) :
    ∃ cs, printed level (.object ms) = '\x7b' :: cs := by
  cases ms with
  | nil => exact ⟨_, printed_object_nil⟩
  | cons => exact ⟨_, printed_object_cons⟩

/-- What reading a printed object comes to. -/
theorem toOption_run {x : JsonReads α} {ms : List (String × Json)} {r : Option α}
    (hread : Reading x (.object ms) r) (hclear : Clear (.object ms)) :
    (run x (Json.pretty (.object ms))).toOption =
      if (Json.object ms).depth ≤ maxLevels then r.map some else none := by
  obtain ⟨cs, hprinted⟩ := printed_object 0 ms
  have hwhole : (Json.pretty (.object ms)).toList.takeWhile (· != Char.ofNat 0) =
      '\x7b' :: (cs ++ ['\n']) := by
    rw [toList_pretty, List.takeWhile_eq_self_iff.mpr, hprinted, List.cons_append]
    intro c hc
    rw [bne_iff_ne]
    rintro rfl
    obtain hc | hc := List.mem_append.mp hc
    · exact hclear 0 hc
    · exact absurd hc (by decide)
  have hsize : (printed 0 (.object ms)).length ≤ (Json.pretty (.object ms)).length := by
    rw [← String.length_toList, toList_pretty, List.length_append]
    exact Nat.le_add_right _ _
  have hanswer := hread { levels := maxLevels, size := (Json.pretty (.object ms)).length }
    ('\x7b' :: (cs ++ ['\n'])) ['\n'] 0 (by rw [hprinted]; exact skipBlanks_cons rfl)
    (by rintro c ⟨⟩; rfl) hsize
  have hrun : run x (Json.pretty (.object ms)) =
      (x { levels := maxLevels, size := (Json.pretty (.object ms)).length } ('\x7b' :: (cs ++ ['\n']))).map
        fun p => some p.1 := by
    have hnul : ¬ (('\x7b' :: (cs ++ ['\n'])) == "nul".toList) = true := by
      rw [beq_iff_eq]
      exact fun heq => absurd (List.cons.inj heq).1 (by decide)
    rw [run, hwhole, skipBlanks_cons rfl]
    dsimp only
    rw [if_neg (show ¬ ('\x7b' == ',' || '\x7b' == ':') = true by decide), skipBlanks_cons rfl, if_neg hnul]
    cases x _ _ <;> rfl
  have hmap : ∀ e : Except ReadError (α × List Char),
      (e.map fun p => some p.1).toOption = e.toOption.map fun p => some p.1 := fun e => by cases e <;> rfl
  rw [hrun, hmap]
  rw [answer] at hanswer
  rw [hanswer]
  split
  · rw [Option.map_map]
    rfl
  · rfl

/-- Drafts of types with names are sound. -/
theorem sound_draft {ts : List SchemaType} (h : ∀ t ∈ ts, t.name ≠ "") (i : Nat) :
    sound i (ts.map fun t => some t.draft) = .ok ts := by
  induction ts generalizing i with
  | nil => rfl
  | cons t ts ih =>
    obtain ⟨hname, hnames⟩ := List.forall_mem_cons.mp h
    rw [List.map_cons, sound, t.draft_name, if_neg hname, t.complete?_draft]
    dsimp only
    rw [ih hnames]
    rfl

end Document

theorem QName.name_ne_of_reread {q q' : QName} (h : q.reread = some q') : q'.name ≠ "" := by
  unfold QName.reread at h
  cases hparse : QName.parse q.text with
  | ok p =>
    rw [hparse] at h
    exact Option.some.inj h ▸ QName.name_ne_of_parse hparse
  | error => simp [hparse, Except.toOption] at h

theorem exists_mem_of_mapM_eq_some {f : α → Option β} {xs : List α} {ys : List β} (h : xs.mapM f = some ys) :
    ∀ y ∈ ys, ∃ x ∈ xs, f x = some y := by
  induction xs generalizing ys with
  | nil =>
    obtain rfl : ys = [] := by simpa [eq_comm] using h
    simp
  | cons x xs ih =>
    simp only [List.mapM_cons, Option.bind_eq_bind, Option.pure_def, Option.bind_eq_some_iff] at h
    obtain ⟨y, hy, zs, hzs, heq⟩ := h
    rw [← Option.some.inj heq]
    refine List.forall_mem_cons.mpr ⟨⟨x, List.mem_cons_self, hy⟩, fun z hz => ?_⟩
    obtain ⟨w, hw, hwz⟩ := ih hzs z hz
    exact ⟨w, List.mem_cons_of_mem _ hw, hwz⟩

theorem SchemaType.name_ne_of_reread {t u : SchemaType} (h : t.reread handle = some u) : u.name ≠ "" := by
  cases t
  simp only [reread, Option.bind_eq_bind, Option.pure_def, Option.bind_eq_some_iff] at h
  obtain ⟨_, -, q, hq, _, -, _, -, _, -, _, -, heq⟩ := h
  rw [← Option.some.inj heq]
  exact QName.name_ne_of_reread hq

namespace Document

/-- A text is decoded if it can be read and what is read is sound. -/
theorem decode_json_eq_ok_iff {s : String} {us : List SchemaType} : decode .json s = .ok us ↔
    ∃ (drafts : Option (List (Option TypeDraft))) (ts : List SchemaType),
      (run (Reads.documentRoots (s.length + 1)) s).toOption = some drafts ∧
      sound 0 (drafts.getD []) = .ok ts ∧ us = ts.map unbind := by
  unfold decode
  change ((ofJsonText s).bind fun types => .ok (types.map unbind)) = .ok us ↔ _
  rw [ofJsonText]
  cases run (Reads.documentRoots (s.length + 1)) s with
  | error e =>
    have hroots : ∃ e', rootsOf .json (.error e) = .error e' := by
      cases e <;> exact ⟨_, rfl⟩
    obtain ⟨e', heq⟩ := hroots
    rw [Except.map, heq]
    simp [Except.bind, Except.toOption]
  | ok drafts =>
    change ((sound 0 (drafts.getD [])).bind fun types => .ok (types.map unbind)) = .ok us ↔ _
    cases hsound : sound 0 (drafts.getD []) <;> simp [Except.bind, Except.toOption, hsound, eq_comm]

/-- Decoding an encoded document comes to what its types come back as, unless it is nested too deep. -/
theorem decode_encode_eq_ok_iff {ts us : List SchemaType} : decode .json (encode .json ts) = .ok us ↔
    (value ts).depth ≤ maxLevels ∧ ∃ vs, ts.mapM (SchemaType.reread number?) = some vs ∧ us = vs.map unbind := by
  have hlength : (value ts).depth ≤ (encode .json ts).length + 1 := by
    have hpretty : (printed 0 (value ts)).length ≤ (encode .json ts).length := by
      rw [encode_json, ← String.length_toList, toList_pretty, List.length_append]
      exact Nat.le_add_right _ _
    exact Nat.le_succ_of_le (Nat.le_trans (depth_le_length _ 0) hpretty)
  have hrun := toOption_run (reading_value _ ts hlength) (clear_value ts)
  rw [← show encode .json ts = Json.pretty (.object _) from encode_json ts] at hrun
  rw [decode_json_eq_ok_iff, hrun]
  change (∃ drafts us', (if (value ts).depth ≤ maxLevels then _ else none) = some drafts ∧ _) ↔ _
  by_cases hdepth : (value ts).depth ≤ maxLevels
  · rw [if_pos hdepth]
    cases hreread : ts.mapM (SchemaType.reread number?) with
    | none => simp
    | some vs =>
      have hnames : ∀ v ∈ vs, v.name ≠ "" := by
        intro v hv
        obtain ⟨t, -, ht⟩ := exists_mem_of_mapM_eq_some hreread v hv
        exact SchemaType.name_ne_of_reread ht
      simp [sound_draft hnames, hdepth]
  · rw [if_neg hdepth]
    simp [hdepth]

end Document

-- ---------------------------------------------------------------------------
-- Handles
-- ---------------------------------------------------------------------------

/-- What becomes of handles that are taken back after reading. -/
def unbound (handle : Handle → Option Handle) (h : Handle) : Option Handle :=
  (handle h).map fun _ => 0

def FieldType.release (t : FieldType) : FieldType :=
  { t with reference := 0 }

def EnumValue.release (v : EnumValue) : EnumValue :=
  { v with ref := 0 }

theorem FieldType.map_release_reread (t : FieldType) :
    (t.reread handle).map release = t.reread (unbound handle) := by
  cases t
  simp [reread, unbound, release, Option.map_bind, Option.bind_map, Function.comp_def]

theorem EnumValue.map_release_reread (v : EnumValue) :
    (v.reread handle).map release = v.reread (unbound handle) := by
  cases v
  simp [reread, unbound, release, Option.map_bind, Option.bind_map, Function.comp_def]

theorem map_mapM {γ : Type} {f : α → Option β} {g : β → γ} {h : α → Option γ}
    (hf : ∀ a, (f a).map g = h a) (xs : List α) : (xs.mapM f).map (List.map g) = xs.mapM h := by
  rw [← mapM_map]
  exact congrArg (List.mapM · xs) (funext hf)

namespace Field

/-- A field whose references and defaults are unbound. -/
def release (f : Field) : Field :=
  (f.mapTypes FieldType.release).mapEnums EnumValue.release

def releaseAll (fs : List Field) : List Field :=
  mapEnumsOf EnumValue.release (mapTypesOf FieldType.release fs)

mutual

theorem map_release_reread : (f : Field) → (f.reread handle).map release = f.reread (unbound handle)
  | ⟨tag, name, localName, index, types, choices, ns, restrictions, defaultValue, fixed, mixed, help, wrapper,
      substitutionGroup, defaultEnum⟩ => by
    have htypes : (types.mapM (FieldType.reread handle)).map (List.map FieldType.release) =
        types.mapM (FieldType.reread (unbound handle)) := map_mapM FieldType.map_release_reread types
    have hchoices := map_release_rereadAll choices
    have hdefault : (defaultEnum.mapM (EnumValue.reread handle)).map (Option.map EnumValue.release) =
        defaultEnum.mapM (EnumValue.reread (unbound handle)) := by
      cases defaultEnum with
      | none => rfl
      | some v => simp [← EnumValue.map_release_reread v, Function.comp_def]
    simp only [reread]
    rw [← htypes, ← hchoices, ← hdefault]
    simp [release, releaseAll, mapTypes, mapEnums, Option.map_bind, Option.bind_map, Function.comp_def]

theorem map_release_rereadAll :
    (fs : List Field) → (rereadAll handle fs).map releaseAll = rereadAll (unbound handle) fs
  | [] => rfl
  | f :: fs => by
    simp only [rereadAll]
    rw [← map_release_reread f, ← map_release_rereadAll fs]
    simp [release, releaseAll, mapTypesOf, mapEnumsOf, Option.map_bind, Option.bind_map, Function.comp_def]

end

end Field

theorem Extension.map_release_reread (e : Extension) :
    (e.reread handle).map (fun e => { e with type := e.type.release }) = e.reread (unbound handle) := by
  cases e
  simp only [reread]
  rw [← FieldType.map_release_reread]
  simp [Option.map_bind, Option.bind_map]

namespace SchemaType

theorem unbindOwn_eq (t : SchemaType) : Document.unbindOwn t =
    { t with
      id := 0
      fields := t.fields.map Field.release
      extensions := t.extensions.map fun e => { e with type := e.type.release } } := by
  unfold Document.unbindOwn mapFieldTypes
  dsimp only
  rw [List.map_map]
  rfl

mutual

theorem map_unbind_reread : (t : SchemaType) → (t.reread handle).map Document.unbind = t.reread (unbound handle)
  | ⟨id, qname, tag, location, container, isAbstract, mixed, nillable, localType, status, defaultValue, fixed, help,
      nsMap, fields, extensions, inner, substitutions, package, moduleName⟩ => by
    have hfields : (fields.mapM (Field.reread handle)).map (List.map Field.release) =
        fields.mapM (Field.reread (unbound handle)) := map_mapM Field.map_release_reread fields
    have hextensions : (extensions.mapM (Extension.reread handle)).map
          (List.map fun e => { e with type := e.type.release }) =
        extensions.mapM (Extension.reread (unbound handle)) := map_mapM Extension.map_release_reread extensions
    have hinner := map_unbind_rereadAll inner
    simp only [reread]
    rw [← hfields, ← hextensions, ← hinner]
    simp [Document.unbind, unbindOwn_eq, mapTree, unbound, Option.map_bind, Option.bind_map]

theorem map_unbind_rereadAll :
    (ts : List SchemaType) → (rereadAll handle ts).map (mapTrees Document.unbindOwn) = rereadAll (unbound handle) ts
  | [] => rfl
  | t :: ts => by
    simp only [rereadAll]
    rw [← map_unbind_reread t, ← map_unbind_rereadAll ts]
    simp [Document.unbind, mapTrees, Option.map_bind, Option.bind_map, Function.comp_def]

end

end SchemaType

namespace Document

/-- A document comes back as it was exactly if its leaves do and it is not nested too deep. -/
theorem decode_encode_eq_ok_self_iff {ts : List SchemaType} : decode .json (encode .json ts) = .ok ts ↔
    (value ts).depth ≤ maxLevels ∧ ∀ t ∈ ts, ∀ l ∈ t.leaves, l.Kept (unbound number?) := by
  have hself : (∃ vs, ts.mapM (SchemaType.reread number?) = some vs ∧ ts = vs.map unbind) ↔
      ts.mapM (SchemaType.reread (unbound number?)) = some ts := by
    rw [← map_mapM SchemaType.map_unbind_reread, Option.map_eq_some_iff]
    simp only [eq_comm]
  rw [decode_encode_eq_ok_iff, hself, mapM_eq_some_self_iff]
  simp only [SchemaType.reread_eq_some_iff]

end Document

end Schemata
