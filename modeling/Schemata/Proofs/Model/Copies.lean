import Mathlib.Data.Set.Function
import Schemata.Proofs.Model.Changes

/-!
# Copies of trees

A copy has new handles, in ascending order from the first free one on, and otherwise holds what the
tree holds, progress included; only its references may lead elsewhere. It is the tree under a renaming of
handles: each handle of the tree becomes a new one and every other handle stays. The renaming reaches the
types and their references, those of alternatives and bases included. It does not reach the enumeration
defaults, which lead to the enumerations of the tree and not to the copies of these.
-/

namespace Schemata.SchemaType

variable {t v : SchemaType} {next : Handle}

/-- A reference to a group or an attribute group that is not expanded. -/
def HasGroupField (t : SchemaType) : Prop :=
  ∃ f ∈ t.fields, f.isGroup = true

/-- Handles in ascending order, from one handle on and below another. -/
structure Numbered (hs : List Int) (first last : Int) : Prop where
  le : first ≤ last
  ascending : hs.Pairwise (· < ·)
  bounds : ∀ h ∈ hs, first ≤ h ∧ h < last

theorem Numbered.append {hs hs' : List Int} {a b c : Int} (h : Numbered hs a b)
    (h' : Numbered hs' b c) : Numbered (hs ++ hs') a c where
  le := Int.le_trans h.le h'.le
  ascending := by
    refine List.pairwise_append.mpr ⟨h.ascending, h'.ascending, fun x hx y hy => ?_⟩
    exact Int.lt_of_lt_of_le (h.bounds x hx).2 (h'.bounds y hy).1
  bounds x hx := by
    have hab := h.le
    have hbc := h'.le
    obtain hx | hx := List.mem_append.mp hx
    · have hbounds := h.bounds x hx
      omega
    · have hbounds := h'.bounds x hx
      omega

theorem Numbered.single (a : Int) : Numbered [a] a (a + 1) where
  le := by omega
  ascending := List.pairwise_singleton _ _
  bounds x hx := by
    rw [List.mem_singleton.mp hx]
    omega

theorem Numbered.nil (a : Int) : Numbered [] a a :=
  ⟨Int.le_refl a, List.Pairwise.nil, fun _ hh => absurd hh List.not_mem_nil⟩

theorem Numbered.nodup {hs : List Int} {a b : Int} (h : Numbered hs a b) : hs.Nodup :=
  h.ascending.imp fun hlt heq => by omega

mutual

theorem numbered_renumber : (t : SchemaType) → (next : Handle) →
    Numbered (t.renumber (fun _ => true) next).1.handles next (t.renumber (fun _ => true) next).2
  | ⟨_, _, _, _, _, _, _, _, _, _, _, _, _, _, _, _, inner, _, _, _⟩, next => by
    simp only [renumber, handles_eq, if_true]
    exact (Numbered.single next).append (numbered_renumberAll inner (next + 1))

theorem numbered_renumberAll : (ts : List SchemaType) → (next : Handle) →
    Numbered ((renumberAll (fun _ => true) ts next).1.flatMap handles) next
      (renumberAll (fun _ => true) ts next).2
  | [], next => .nil next
  | t :: ts, next => by
    simp only [renumberAll, List.flatMap_cons]
    exact (numbered_renumber t next).append (numbered_renumberAll ts _)

end

mutual

theorem renumber_of_due {due : Handle → Bool} : (t : SchemaType) → (next : Handle) →
    (∀ h ∈ t.handles, due h = true) → t.renumber due next = t.renumber (fun _ => true) next
  | ⟨id, _, _, _, _, _, _, _, _, _, _, _, _, _, _, _, inner, _, _, _⟩, next, hdue => by
    rw [handles_eq] at hdue
    simp only [renumber, hdue id List.mem_cons_self, if_true]
    rw [renumberAll_of_due inner (next + 1) fun h hh => hdue h (List.mem_cons_of_mem _ hh)]

theorem renumberAll_of_due {due : Handle → Bool} : (ts : List SchemaType) → (next : Handle) →
    (∀ h ∈ ts.flatMap handles, due h = true) →
      renumberAll due ts next = renumberAll (fun _ => true) ts next
  | [], _, _ => rfl
  | t :: ts, next, hdue => by
    rw [List.flatMap_cons] at hdue
    simp only [renumberAll]
    rw [renumber_of_due t next fun h hh => hdue h (List.mem_append_left _ hh),
      renumberAll_of_due ts _ fun h hh => hdue h (List.mem_append_right _ hh)]

end

theorem numbered_assignHandles (ht : ∀ h ∈ t.handles, h = 0) (next : Handle) :
    Numbered (t.assignHandles next).1.handles next (t.assignHandles next).2 := by
  unfold assignHandles
  rw [renumber_of_due t next fun h hh => beq_iff_eq.mpr (ht h hh)]
  exact numbered_renumber t next

theorem status_assignHandles (t : SchemaType) (next : Handle) :
    (t.assignHandles next).1.status = t.status := by
  cases t
  rfl

mutual

theorem names_renumber {due : Handle → Bool} : (t : SchemaType) → (next : Handle) →
    (t.renumber due next).1.walk.map (·.qname) = t.walk.map (·.qname)
  | ⟨_, _, _, _, _, _, _, _, _, _, _, _, _, _, _, _, inner, _, _, _⟩, next => by
    simp only [renumber, walk, List.map_cons]
    rw [names_renumberAll inner _]

theorem names_renumberAll {due : Handle → Bool} : (ts : List SchemaType) → (next : Handle) →
    (walkAll (renumberAll due ts next).1).map (·.qname) = (walkAll ts).map (·.qname)
  | [], _ => rfl
  | t :: ts, next => by
    simp only [renumberAll, walkAll, List.map_append]
    rw [names_renumber t next, names_renumberAll ts _]

end

mutual

theorem within_renumber {due : Handle → Bool} : (t : SchemaType) → (next : Handle) →
    Within v (t.renumber due next).1 →
      ∃ u, Within u t ∧ v.status = u.status ∧ v.fields = u.fields ∧ v.extensions = u.extensions ∧
        (walkAll v.inner).map (·.qname) = (walkAll u.inner).map (·.qname)
  | ⟨_, _, _, _, _, _, _, _, _, _, _, _, _, _, _, _, inner, _, _, _⟩, next, hv => by
    simp only [renumber] at hv
    cases hv with
    | self => exact ⟨_, .self, rfl, rfl, rfl, names_renumberAll inner _⟩
    | inner hc hv =>
      obtain ⟨d, hd, u, hu, heq⟩ := within_renumberAll inner _ hc hv
      exact ⟨u, .inner hd hu, heq⟩

theorem within_renumberAll {due : Handle → Bool} {c : SchemaType} : (ts : List SchemaType) →
    (next : Handle) → c ∈ (renumberAll due ts next).1 → Within v c →
      ∃ t ∈ ts, ∃ u, Within u t ∧ v.status = u.status ∧ v.fields = u.fields ∧
        v.extensions = u.extensions ∧
        (walkAll v.inner).map (·.qname) = (walkAll u.inner).map (·.qname)
  | [], _, hc, _ => absurd hc List.not_mem_nil
  | t :: ts, next, hc, hv => by
    simp only [renumberAll] at hc
    obtain rfl | hc := List.mem_cons.mp hc
    · obtain ⟨u, hu, heq⟩ := within_renumber t next hv
      exact ⟨t, List.mem_cons_self, u, hu, heq⟩
    · obtain ⟨d, hd, hu⟩ := within_renumberAll ts _ hc hv
      exact ⟨d, List.mem_cons_of_mem _ hd, hu⟩

end

theorem shallow_mapFieldTypes (g : FieldType → FieldType) : Shallow (mapFieldTypes g) where
  id _ := rfl
  withInner _ _ := rfl

theorem numbered_clone (t : SchemaType) (next : Handle) :
    Numbered (t.clone next).1.handles next (t.clone next).2 := by
  simp only [clone, (shallow_mapFieldTypes _).handles_mapTree]
  exact numbered_renumber t next

/-- References to types outside the tree lead where they have led. -/
theorem renamed_of_not_mem {old new : List SchemaType} {h : Handle} (hh : h ∉ old.map (·.id)) :
    renamed old new h = h := by
  have hnone : ((old.map (·.id)).zip (new.map (·.id))).reverse.lookup h = none := by
    rw [List.lookup_eq_none_iff]
    rintro ⟨k, k'⟩ hk
    have hmem := (List.of_mem_zip (List.mem_reverse.mp hk)).1
    exact bne_iff_ne.mpr fun heq => hh (heq ▸ hmem)
  unfold renamed
  split
  case isTrue hzero => exact hzero.symm
  case isFalse => rw [hnone, Option.getD_none]

/-- A copy holds what the tree holds, as far as that has come; only references into the tree lead
elsewhere. -/
theorem exists_of_within_clone (hv : Within v (t.clone next).1) :
    ∃ u, Within u t ∧ ∃ move : Handle → Handle, (∀ h ∉ t.handles, move h = h) ∧ v.status = u.status ∧
      v.fields = u.fields.map (Field.mapTypes fun ft => { ft with reference := move ft.reference }) ∧
      v.extensions =
        u.extensions.map (fun e => { e with type := { e.type with reference := move e.type.reference } }) ∧
      (walkAll v.inner).map (·.qname) = (walkAll u.inner).map (·.qname) := by
  simp only [clone] at hv
  obtain ⟨w, hw, rfl⟩ := (shallow_mapFieldTypes _).within_mapTree_iff.mp hv
  obtain ⟨u, hu, hstatus, hfields, hbases, hnames⟩ := within_renumber t next hw
  refine ⟨u, hu, renamed t.walk (t.renumber (fun _ => true) next).1.walk,
    fun h hh => renamed_of_not_mem hh, ?_⟩
  rw [(shallow_mapFieldTypes _).mapTree_eq_withInner]
  refine ⟨hstatus, congrArg _ hfields, congrArg _ hbases, ?_⟩
  rw [← hnames, withInner_inner, walkAll_eq_flatMap, walkAll_eq_flatMap, List.flatMap_map, List.map_flatMap,
    List.map_flatMap]
  refine List.flatMap_congr fun c _ => ?_
  rw [(shallow_mapFieldTypes _).walk_mapTree, List.map_map]
  refine List.map_congr_left fun d _ => ?_
  rw [Function.comp_apply, (shallow_mapFieldTypes _).mapTree_eq_withInner]
  rfl

/-- What a copy holds stands for something that the tree holds, as far as that has come. -/
theorem within_clone (hv : Within v (t.clone next).1) :
    ∃ u, Within u t ∧ v.status = u.status ∧ (v.HasGroupField ↔ u.HasGroupField) := by
  obtain ⟨u, hu, move, -, hstatus, hfields, -⟩ := exists_of_within_clone hv
  have htag : ∀ (g : FieldType → FieldType) (f : Field), (f.mapTypes g).isGroup = f.isGroup := by
    intro g f
    cases f
    rfl
  exact ⟨u, hu, hstatus, by simp [HasGroupField, htag, hfields]⟩

/-- The bases of a copy are those of the type that it stands for. -/
theorem extensions_of_within_clone (hv : Within v (t.clone next).1) :
    ∃ u, Within u t ∧ v.status = u.status ∧ ∀ e ∈ v.extensions, ∃ a ∈ u.extensions,
      e.type.qname = a.type.qname ∧ e.type.native = a.type.native ∧
      (a.type.reference ∉ t.handles → e.type.reference = a.type.reference) := by
  obtain ⟨u, hu, move, hmove, hstatus, -, hbases, -⟩ := exists_of_within_clone hv
  refine ⟨u, hu, hstatus, fun e he => ?_⟩
  rw [hbases] at he
  obtain ⟨a, ha, rfl⟩ := List.mem_map.mp he
  exact ⟨a, ha, rfl, rfl, hmove _⟩

@[simp] theorem qname_clone (t : SchemaType) (next : Handle) : (t.clone next).1.qname = t.qname := by
  simp only [clone]
  rw [(shallow_mapFieldTypes _).mapTree_eq_withInner]
  cases t
  rfl

/-- A type that refers to the same names as another, and to a nested one only if the other does. -/
def SpeaksAs (v u : SchemaType) : Prop :=
  ∀ ft, v.Declares ft → ∃ ft', u.Declares ft' ∧ ft'.qname = ft.qname ∧ ft'.forward = ft.forward ∧
    ft'.circular = ft.circular

/-- A copy refers to the names that the tree refers to, and what is nested in it has the names that it
has in the tree. -/
theorem speaksAs_of_within_clone (hv : Within v (t.clone next).1) :
    ∃ u, Within u t ∧ v.SpeaksAs u ∧
      (walkAll v.inner).map (·.qname) = (walkAll u.inner).map (·.qname) := by
  obtain ⟨u, hu, move, -, -, hfields, hbases, hnames⟩ := exists_of_within_clone hv
  refine ⟨u, hu, fun ft hft => ?_, hnames⟩
  have hmapped : (u.mapFieldTypes fun ft => { ft with reference := move ft.reference }).Declares ft := by
    rwa [Declares, hfields, hbases] at hft
  obtain ⟨ft', hft', rfl⟩ := declares_mapFieldTypes_iff.mp hmapped
  exact ⟨ft', hft', rfl, rfl, rfl⟩

end Schemata.SchemaType

namespace Schemata

variable {t u : SchemaType} {next : Handle} {move : Handle → Handle}

-- ---------------------------------------------------------------------------
-- Renaming of handles
-- ---------------------------------------------------------------------------

def FieldType.moved (move : Handle → Handle) (ft : FieldType) : FieldType :=
  { ft with reference := move ft.reference }

def EnumValue.moved (move : Handle → Handle) (v : EnumValue) : EnumValue :=
  { v with ref := move v.ref }

namespace Field

mutual

/-- The enumeration default of the field, followed by those of its choices. -/
def allDefaults : Field → List EnumValue
  | ⟨_, _, _, _, _, choices, _, _, _, _, _, _, _, _, defaultEnum⟩ =>
    defaultEnum.toList ++ allDefaultsOf choices

def allDefaultsOf : List Field → List EnumValue
  | [] => []
  | f :: fs => allDefaults f ++ allDefaultsOf fs

end

mutual

theorem allDefaults_mapTypes (g : FieldType → FieldType) :
    (f : Field) → (f.mapTypes g).allDefaults = f.allDefaults
  | ⟨_, _, _, _, _, choices, _, _, _, _, _, _, _, _, _⟩ => by
    simp only [mapTypes, allDefaults]
    rw [allDefaultsOf_mapTypesOf g choices]

theorem allDefaultsOf_mapTypesOf (g : FieldType → FieldType) :
    (fs : List Field) → allDefaultsOf (mapTypesOf g fs) = allDefaultsOf fs
  | [] => rfl
  | f :: fs => by
    simp only [mapTypesOf, allDefaultsOf]
    rw [allDefaults_mapTypes g f, allDefaultsOf_mapTypesOf g fs]

end

mutual

/-- A field stays as it is exactly if each of its enumeration defaults does. -/
theorem mapEnums_eq_self_iff {g : EnumValue → EnumValue} :
    (f : Field) → (f.mapEnums g = f ↔ ∀ d ∈ f.allDefaults, g d = d)
  | ⟨_, _, _, _, _, choices, _, _, _, _, _, _, _, _, defaultEnum⟩ => by
    simp only [mapEnums, allDefaults, mk.injEq, true_and, List.forall_mem_append]
    rw [mapEnumsOf_eq_self_iff choices, and_comm]
    cases defaultEnum <;> simp

theorem mapEnumsOf_eq_self_iff {g : EnumValue → EnumValue} :
    (fs : List Field) → (mapEnumsOf g fs = fs ↔ ∀ d ∈ allDefaultsOf fs, g d = d)
  | [] => by simp [mapEnumsOf, allDefaultsOf]
  | f :: fs => by
    simp only [mapEnumsOf, allDefaultsOf, List.cons.injEq, List.forall_mem_append]
    rw [mapEnums_eq_self_iff f, mapEnumsOf_eq_self_iff fs]

end

end Field

namespace SchemaType

/-- The enumeration defaults of the type itself. -/
def allDefaults (t : SchemaType) : List EnumValue :=
  t.fields.flatMap Field.allDefaults

/-- The type with its handle and those of its references renamed. -/
def moved (move : Handle → Handle) (t : SchemaType) : SchemaType :=
  { t.mapFieldTypes (FieldType.moved move) with id := move t.id }

/-- The type with the handles of its enumeration defaults renamed. -/
def movedDefaults (move : Handle → Handle) (t : SchemaType) : SchemaType :=
  { t with fields := t.fields.map (Field.mapEnums (EnumValue.moved move)) }

/-- The tree with all handles renamed. -/
def renameHandles (move : Handle → Handle) (t : SchemaType) : SchemaType :=
  t.mapTree fun u => (u.moved move).movedDefaults move

-- ---------------------------------------------------------------------------
-- Comparison of changed trees
-- ---------------------------------------------------------------------------

variable {g k : SchemaType → SchemaType}

theorem superficial_moved (move : Handle → Handle) : Superficial (moved move) :=
  fun _ _ => rfl

theorem withInner_eq_iff {inner inner' : List SchemaType} : t.withInner inner = u.withInner inner' ↔
    t.withInner [] = u.withInner [] ∧ inner = inner' := by
  cases t
  cases u
  simp [withInner, and_assoc, and_comm, and_left_comm]

/-- Two changes make the same of a tree exactly if they make the same of every type in it. -/
theorem Superficial.mapTree_eq_iff (hg : Superficial g) (hk : Superficial k) (t : SchemaType) :
    t.mapTree g = t.mapTree k ↔ ∀ u, Within u t → (g u).withInner [] = (k u).withInner [] := by
  induction t using induct with
  | type t ih =>
    rw [hg.mapTree_eq_withInner, hk.mapTree_eq_withInner, withInner_eq_iff, List.map_inj_left]
    constructor
    · rintro ⟨htop, hinner⟩ u hu
      cases hu with
      | self => exact htop
      | inner hc hu => exact (ih _ hc).mp (hinner _ hc) u hu
    · exact fun h => ⟨h t .self, fun c hc => (ih c hc).mpr fun u hu => h u (.inner hc hu)⟩

/-- The tree without the enumeration defaults renamed is the tree with them renamed exactly if none of them
is given another handle. -/
theorem mapTree_moved_eq_iff : t.mapTree (moved move) = t.renameHandles move ↔
    ∀ d ∈ t.walk.flatMap allDefaults, move d.ref = d.ref := by
  have hmoved : ∀ d : EnumValue, d.moved move = d ↔ move d.ref = d.ref := fun d => by
    cases d
    simp [EnumValue.moved]
  have htop : ∀ u : SchemaType,
      (u.moved move).withInner [] = ((u.moved move).movedDefaults move).withInner [] ↔
      (u.moved move).fields.map (Field.mapEnums (EnumValue.moved move)) = (u.moved move).fields := fun u => by
    simp [moved, movedDefaults, withInner, mapFieldTypes, eq_comm]
  have hfields : ∀ u : SchemaType,
      ((u.moved move).fields.map (Field.mapEnums (EnumValue.moved move)) = (u.moved move).fields ↔
        ∀ d ∈ u.allDefaults, move d.ref = d.ref) := fun u => by
    simp only [moved, mapFieldTypes, List.map_map, List.map_inj_left, Function.comp_apply,
      Field.mapEnums_eq_self_iff, Field.allDefaults_mapTypes, hmoved, allDefaults, List.forall_mem_flatMap]
  rw [renameHandles, (superficial_moved move).mapTree_eq_iff (fun _ _ => rfl)]
  simp only [htop, hfields, List.forall_mem_flatMap, mem_walk_iff]

-- ---------------------------------------------------------------------------
-- The renaming of a copy
-- ---------------------------------------------------------------------------

theorem length_handles_renumber (t : SchemaType) (next : Handle) :
    (t.renumber (fun _ => true) next).1.handles.length = t.handles.length := by
  have hnames : (t.renumber (fun _ => true) next).1.walk.map (·.qname) = t.walk.map (·.qname) :=
    names_renumber t next
  simpa [handles] using congrArg List.length hnames

mutual

/-- A tree with new handles is the tree renamed, if the renaming gives these handles. -/
theorem renumber_eq_mapTree : (t : SchemaType) → (next : Handle) →
    t.handles.map move = (t.renumber (fun _ => true) next).1.handles →
      (t.renumber (fun _ => true) next).1 = t.mapTree fun u => { u with id := move u.id }
  | ⟨_, _, _, _, _, _, _, _, _, _, _, _, _, _, _, _, inner, _, _, _⟩, next, hmove => by
    simp only [renumber, handles_eq, if_true, List.map_cons, List.cons.injEq] at hmove
    simp only [renumber, mapTree, if_true, hmove.1]
    rw [renumberAll_eq_mapTrees inner _ hmove.2]

theorem renumberAll_eq_mapTrees : (ts : List SchemaType) → (next : Handle) →
    (ts.flatMap handles).map move = (renumberAll (fun _ => true) ts next).1.flatMap handles →
      (renumberAll (fun _ => true) ts next).1 = mapTrees (fun u => { u with id := move u.id }) ts
  | [], _, _ => rfl
  | t :: ts, next, hmove => by
    simp only [renumberAll, List.flatMap_cons, List.map_append] at hmove
    obtain ⟨hfirst, hrest⟩ := List.append_inj hmove (by rw [List.length_map, length_handles_renumber])
    simp only [renumberAll, mapTrees]
    rw [renumber_eq_mapTree t _ hfirst, renumberAll_eq_mapTrees ts _ hrest]

end

theorem lookup_of_mem {ps : List (Handle × Handle)} (hkeys : (ps.map (·.1)).Nodup) {h h' : Handle}
    (hmem : (h, h') ∈ ps) : ps.lookup h = some h' := by
  obtain ⟨before, after, rfl⟩ := List.append_of_mem hmem
  refine List.lookup_eq_some_iff.mpr ⟨before, after, rfl, fun p hp => ?_⟩
  rw [List.map_append, List.nodup_append] at hkeys
  have hne := hkeys.2.2 p.1 (List.mem_map_of_mem hp) h List.mem_cons_self
  exact bne_iff_ne.mpr (Ne.symm hne)

/-- With handles that tell types apart each handle becomes the one in its place. -/
theorem map_renamed {old new : List SchemaType} (hnodup : (old.map (·.id)).Nodup)
    (hzero : 0 ∉ old.map (·.id)) (hlength : new.length = old.length) :
    (old.map (·.id)).map (renamed old new) = new.map (·.id) := by
  have hkeys : ((((old.map (·.id)).zip (new.map (·.id))).reverse).map (·.1)).Nodup := by
    rw [List.map_reverse, List.nodup_reverse, List.map_fst_zip (by simp [hlength])]
    exact hnodup
  refine List.ext_getElem (by simp [hlength]) fun i hi hi' => ?_
  rw [List.length_map] at hi
  have hmem : ((old.map (·.id))[i], (new.map (·.id))[i]) ∈
      ((old.map (·.id)).zip (new.map (·.id))).reverse := by
    rw [List.mem_reverse, List.mem_iff_getElem]
    exact ⟨i, by rw [List.length_zip]; exact Nat.lt_min.mpr ⟨hi, hi'⟩, List.getElem_zip⟩
  have hne : (old.map (·.id))[i] ≠ 0 := fun heq => hzero (heq ▸ List.getElem_mem _)
  rw [List.getElem_map, renamed, if_neg hne, lookup_of_mem hkeys hmem, Option.getD_some]

/-- The renaming that makes a copy out of a tree. -/
structure Renames (t : SchemaType) (next : Handle) (move : Handle → Handle) : Prop where
  new : ∀ h ∈ t.handles, next ≤ move h ∧ move h < (t.clone next).2
  others : ∀ h ∉ t.handles, move h = h
  injective : Set.InjOn move {h | h < next}

/-- A copy is the tree under a renaming of its handles, but for the enumeration defaults. -/
theorem exists_renames (hnodup : t.handles.Nodup) (hzero : 0 ∉ t.handles) (next : Handle) :
    ∃ move, t.Renames next move ∧ (t.clone next).1 = t.mapTree (moved move) := by
  have hnumbered := numbered_renumber t next
  have hlength : (t.renumber (fun _ => true) next).1.walk.length = t.walk.length := by
    simpa [handles] using length_handles_renumber t next
  have hmap : t.handles.map (renamed t.walk (t.renumber (fun _ => true) next).1.walk) =
      (t.renumber (fun _ => true) next).1.handles := map_renamed hnodup hzero hlength
  have hothers : ∀ h ∉ t.handles, renamed t.walk (t.renumber (fun _ => true) next).1.walk h = h :=
    fun h hh => renamed_of_not_mem hh
  have hrenumber := renumber_eq_mapTree t next hmap
  have hclone : (t.clone next).1 = (t.renumber (fun _ => true) next).1.mapTree
    (mapFieldTypes (FieldType.moved (renamed t.walk (t.renumber (fun _ => true) next).1.walk))) := rfl
  generalize renamed t.walk (t.renumber (fun _ => true) next).1.walk = move at hmap hothers hrenumber hclone
  have hnew : ∀ h ∈ t.handles, next ≤ move h ∧ move h < (t.clone next).2 := fun h hh =>
    hnumbered.bounds _ (hmap ▸ List.mem_map_of_mem hh)
  refine ⟨move, ⟨hnew, hothers, fun h hh h' hh' heq => ?_⟩, ?_⟩
  · by_cases hmem : h ∈ t.handles <;> by_cases hmem' : h' ∈ t.handles
    · refine List.inj_on_of_nodup_map ?_ hmem hmem' heq
      exact hmap ▸ hnumbered.nodup
    · rw [hothers h' hmem'] at heq
      exact absurd (heq ▸ (hnew h hmem).1) (Int.not_le.mpr hh')
    · rw [hothers h hmem] at heq
      exact absurd (heq ▸ (hnew h' hmem').1) (Int.not_le.mpr hh)
    · rwa [hothers h hmem, hothers h' hmem'] at heq
  · rw [hclone, hrenumber]
    exact Superficial.mapTree_mapTree (fun _ _ => rfl) t

namespace Renames

theorem move_eq_iff (hmove : t.Renames next move) (hbelow : ∀ h ∈ t.handles, h < next) {h : Handle} :
    move h = h ↔ h ∉ t.handles := by
  refine ⟨fun heq hh => ?_, hmove.others h⟩
  have hnew := (hmove.new h hh).1
  rw [heq] at hnew
  exact absurd (hbelow h hh) (Int.not_lt.mpr hnew)

/-- A renaming is known from what it makes of the handles of the tree. -/
theorem eq_of_map {move' : Handle → Handle} (hmove : t.Renames next move) (hmove' : t.Renames next move')
    (heq : t.handles.map move = t.handles.map move') : move = move' := by
  funext h
  by_cases hh : h ∈ t.handles
  · exact List.map_inj_left.mp heq h hh
  · rw [hmove.others h hh, hmove'.others h hh]

end Renames

/-- A copy is the tree with all handles renamed exactly if no enumeration default leads into the tree. -/
theorem exists_clone_eq_renameHandles_iff (hnodup : t.handles.Nodup) (hzero : 0 ∉ t.handles)
    (hbelow : ∀ h ∈ t.handles, h < next) :
    (∃ move, t.Renames next move ∧ (t.clone next).1 = t.renameHandles move) ↔
      ∀ d ∈ t.walk.flatMap allDefaults, d.ref ∉ t.handles := by
  obtain ⟨move, hmove, hcopy⟩ := exists_renames hnodup hzero next
  constructor
  · rintro ⟨move', hmove', hcopy'⟩ d hd
    have hsame : t.mapTree (moved move) = t.renameHandles move' := hcopy.symm.trans hcopy'
    have heq : move = move' := by
      refine hmove.eq_of_map hmove' ?_
      rw [← (superficial_moved move).handles_mapTree (fun _ => rfl), hsame]
      exact Superficial.handles_mapTree (fun _ _ => rfl) (fun _ => rfl) t
    subst heq
    exact (hmove.move_eq_iff hbelow).mp (mapTree_moved_eq_iff.mp hsame d hd)
  · intro houtside
    refine ⟨move, hmove, hcopy.trans (mapTree_moved_eq_iff.mpr fun d hd => ?_)⟩
    exact (hmove.move_eq_iff hbelow).mpr (houtside d hd)

/-- A copy is the tree under a renaming of handles that gives each type of it a new handle and leaves those of
all other types, up to the enumeration defaults, which stay. So it is the tree with all handles renamed
exactly if no default leads into the tree. -/
theorem clone_renames (hnodup : t.handles.Nodup) (hzero : 0 ∉ t.handles)
    (hbelow : ∀ h ∈ t.handles, h < next) :
    (∃ move, t.Renames next move ∧ (t.clone next).1 = t.mapTree (moved move)) ∧
    ((∃ move, t.Renames next move ∧ (t.clone next).1 = t.renameHandles move) ↔
      ∀ d ∈ t.walk.flatMap allDefaults, d.ref ∉ t.handles) :=
  ⟨exists_renames hnodup hzero next, exists_clone_eq_renameHandles_iff hnodup hzero hbelow⟩

end SchemaType

namespace Painted

def shade : SchemaType where
  id := 2
  qname := ⟨"urn:t", "Shade"⟩
  tag := .simpleType
  fields := [
    { name := "red", tag := .enumeration, types := [.ofNative ⟨Native.ns, "string"⟩], defaultValue := "red" }]

def part : SchemaType where
  id := 3
  qname := ⟨"urn:t", "Part"⟩
  tag := .complexType
  fields := [{ name := "of", tag := .element, types := [{ qname := ⟨"urn:t", "Item"⟩, reference := 1 }] }]

/-- A record with an enumeration and a record nested in it, that refers to both, to itself and to a type
elsewhere. The default of its shade is a member of the enumeration with a handle. -/
def item (enumeration : Handle) : SchemaType where
  id := 1
  qname := ⟨"urn:t", "Item"⟩
  tag := .complexType
  fields := [
    { name := "shade", tag := .attr, types := [.ofForward shade.qname 2], defaultValue := "red",
      defaultEnum := some { type := shade.qname, ref := enumeration, member := "red" } },
    { name := "content", tag := .choice, choices := [
      { name := "part", tag := .element, types := [.ofForward part.qname 3] },
      { name := "item", tag := .element, types := [{ qname := ⟨"urn:t", "Item"⟩, reference := 1 }] }] }]
  extensions := [{ tag := .extension, type := { qname := ⟨"urn:t", "Base"⟩, reference := 7 } }]
  inner := [shade, part]

/-- A default that leads elsewhere. -/
theorem clone_renames_elsewhere :
    (item 9).handles.Nodup ∧ 0 ∉ (item 9).handles ∧ (∀ h ∈ (item 9).handles, h < 10) ∧
    ∃ move, (item 9).Renames 10 move ∧ ((item 9).clone 10).1 = (item 9).renameHandles move := by
  have hnodup : (item 9).handles.Nodup := by decide
  have hzero : 0 ∉ (item 9).handles := by decide
  have hbelow : ∀ h ∈ (item 9).handles, h < 10 := by decide
  exact ⟨hnodup, hzero, hbelow, (SchemaType.clone_renames hnodup hzero hbelow).2.mpr (by decide)⟩

/-- The default of the copy is a member of the enumeration of the original. -/
theorem clone_keeps_default :
    (item 2).handles.Nodup ∧ 0 ∉ (item 2).handles ∧ (∀ h ∈ (item 2).handles, h < 10) ∧
    ((item 2).clone 10).1.handles = [10, 11, 12] ∧
    ((item 2).clone 10).1.allDefaults = [{ type := shade.qname, ref := 2, member := "red" }] ∧
    ¬∃ move, (item 2).Renames 10 move ∧ ((item 2).clone 10).1 = (item 2).renameHandles move := by
  have hnodup : (item 2).handles.Nodup := by decide
  have hzero : 0 ∉ (item 2).handles := by decide
  have hbelow : ∀ h ∈ (item 2).handles, h < 10 := by decide
  refine ⟨hnodup, hzero, hbelow, by decide, by decide, ?_⟩
  rw [SchemaType.exists_clone_eq_renameHandles_iff hnodup hzero hbelow]
  decide

end Painted

end Schemata
