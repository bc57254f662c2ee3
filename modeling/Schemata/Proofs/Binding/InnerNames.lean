import Schemata.Binding.Inner
import Schemata.Proofs.Model.Changes

/-!
# Names of inner types

Vacuuming leaves inner types that hold something and are not called like their parent. One that was
called so gets the name that is set aside for it, without a look at the others. Two types may come to
share that name, and a later one that has it from the start is taken for a duplicate.
-/

namespace Schemata

open SchemaType

variable {t c d : SchemaType} {past rest : List SchemaType} {v w : Vacuumed} {q : QName}

-- ---------------------------------------------------------------------------
-- Names
-- ---------------------------------------------------------------------------

namespace SchemaType

/-- The name that an inner type gets if it is called like its parent. -/
def spareName (t : SchemaType) : QName :=
  t.qname.withName (t.name ++ "_Inner")

/-- The name by which an inner type is kept, if it is. -/
def givenName (t c : SchemaType) : QName :=
  if c.qname = t.qname then t.spareName else c.qname

/-- An inner type that holds something and is called like its parent. -/
def Namesake (t c : SchemaType) : Prop :=
  c.isEmpty = false ∧ c.qname = t.qname

/-- The second of two inner types is not given the name of the first. -/
def Apart (t d c : SchemaType) : Prop :=
  d.isEmpty = false → t.Namesake c → t.givenName d ≠ t.spareName

/-- The inner types that come before one of them. -/
def innerBefore (t c : SchemaType) : List SchemaType :=
  t.inner.takeWhile (·.id != c.id)

/-- A type that comes earlier has been given the name that the inner type has. -/
def Ousted (t c : SchemaType) : Prop :=
  c.qname = t.spareName ∧ ∃ d ∈ t.innerBefore c, t.Namesake d

/-- An inner type is still there, maybe by another name, and what led to it leads to it. -/
def Retains (t t' c : SchemaType) : Prop :=
  ∃ c' ∈ t'.inner, c' = c.withQName c'.qname ∧
    List.Forall₂ (fun ft ft' => ft.forward = true → ft.reference = c.id →
      ft' = { ft with qname := ft'.qname } ∧ (ft.qname = c.qname → ft'.qname = c'.qname))
      t.fieldTypes t'.fieldTypes

theorem spareName_ne (t : SchemaType) : t.spareName ≠ t.qname := by
  intro heq
  have hlength := congrArg (fun q : QName => q.name.length) heq
  have hinner : "_Inner".length = 6 := by decide
  simp only [spareName, QName.withName, name, String.length_append] at hlength
  omega

theorem givenName_ne (t c : SchemaType) : t.givenName c ≠ t.qname := by
  unfold givenName
  split
  · exact t.spareName_ne
  case isFalse hname => exact hname

theorem innerBefore_eq (hids : (t.inner.map (·.id)).Nodup) {pre post : List SchemaType}
    (hsplit : t.inner = pre ++ c :: post) : t.innerBefore c = pre := by
  rw [hsplit, List.map_append, List.map_cons, List.nodup_append] at hids
  have hpre : ∀ d ∈ pre, (d.id != c.id) = true := fun d hd =>
    bne_iff_ne.mpr (hids.2.2 d.id (List.mem_map_of_mem hd) c.id List.mem_cons_self)
  rw [innerBefore, hsplit, List.takeWhile_append_of_pos hpre, List.takeWhile_cons_of_neg (by simp),
    List.append_nil]

end SchemaType

namespace Vacuumed

-- ---------------------------------------------------------------------------
-- One inner type
-- ---------------------------------------------------------------------------

/-- What becomes of an inner type, and of the references that lead to it. -/
inductive Fate (v : Vacuumed) (c : SchemaType) : Vacuumed → Prop
  | duplicate (first : SchemaType) (hfirst : first ∈ v.standing) (hname : first.qname = c.qname) :
      Fate v c { v with parent := v.parent.redirect c.id first.qname first.id }
  | blank (hempty : c.isEmpty = true) : Fate v c { v with parent := v.parent.release c.id }
  | renamed (hholds : c.isEmpty = false) (hname : c.qname = v.parent.qname) :
      Fate v c ({ v with parent := v.parent.redirect c.id v.parent.spareName c.id }.keep
        (c.withQName v.parent.spareName))
  | stays (hnew : ∀ d ∈ v.standing, d.qname ≠ c.qname) (hholds : c.isEmpty = false)
      (hname : c.qname ≠ v.parent.qname) : Fate v c (v.keep c)

theorem fate_step (v : Vacuumed) (c : SchemaType) : Fate v c (v.step c) := by
  unfold step
  split
  case h_1 first hfirst =>
    exact .duplicate first (List.mem_of_find?_eq_some hfirst) (by simpa using List.find?_some hfirst)
  case h_2 hnone =>
    split
    case isTrue hempty => exact .blank hempty
    case isFalse hholds =>
      rw [Bool.not_eq_true] at hholds
      split
      case isTrue hname =>
        have hspare : c.qname.withName (c.name ++ "_Inner") = v.parent.spareName := by
          rw [spareName, name, name, hname]
        dsimp only
        rw [hspare]
        exact .renamed hholds hname
      case isFalse hname => exact .stays (by simpa using hnone) hholds hname

theorem kept_step (v : Vacuumed) (c : SchemaType) :
    (v.step c).kept = v.kept ∨ ∃ q, (v.step c).kept = v.kept ++ [c.withQName q] := by
  have hfate := fate_step v c
  generalize v.step c = w at hfate
  cases hfate with
  | duplicate => exact .inl rfl
  | blank => exact .inl rfl
  | renamed => exact .inr ⟨_, rfl⟩
  | stays => exact .inr ⟨c.qname, by rw [c.withQName_self]; rfl⟩

/-- Only references that lead to the inner type change. -/
theorem fieldTypes_step (v : Vacuumed) (c : SchemaType) : ∃ g : FieldType → FieldType,
    (v.step c).parent.fieldTypes = v.parent.fieldTypes.map g ∧
      ∀ ft, (ft.forward = true → ft.reference ≠ c.id) → g ft = ft := by
  have hother : ∀ {ft ft' : FieldType}, (ft.forward = true → ft.reference ≠ c.id) →
      (if ft.forward && ft.reference == c.id then ft' else ft) = ft :=
    fun hne => if_neg (by simpa using hne)
  have hfate := fate_step v c
  generalize v.step c = w at hfate
  cases hfate with
  | duplicate => exact ⟨_, fieldTypes_mapFieldTypes _ _, fun ft => hother⟩
  | blank => exact ⟨_, fieldTypes_mapFieldTypes _ _, fun ft => hother⟩
  | renamed => exact ⟨_, fieldTypes_mapFieldTypes _ _, fun ft => hother⟩
  | stays => exact ⟨id, (List.map_id _).symm, fun _ _ => rfl⟩

-- ---------------------------------------------------------------------------
-- All inner types
-- ---------------------------------------------------------------------------

theorem kept_foldl (rest : List SchemaType) (v : Vacuumed) : ∃ more,
    (rest.foldl step v).kept = v.kept ++ more ∧ ∀ d ∈ more, d.id ∈ rest.map (·.id) := by
  induction rest generalizing v with
  | nil => exact ⟨[], (List.append_nil _).symm, fun d hd => absurd hd List.not_mem_nil⟩
  | cons c rest ih =>
    obtain ⟨more, hmore, hids⟩ := ih (v.step c)
    have hlater : ∀ d ∈ more, d.id ∈ (c :: rest).map (·.id) := fun d hd =>
      List.mem_cons_of_mem _ (hids d hd)
    rw [List.foldl_cons, hmore]
    obtain hkept | ⟨q, hkept⟩ := kept_step v c
    · exact ⟨more, by rw [hkept], hlater⟩
    · refine ⟨c.withQName q :: more, by rw [hkept, List.append_assoc]; rfl, ?_⟩
      exact List.forall_mem_cons.mpr ⟨List.mem_cons_self, hlater⟩

theorem fieldTypes_foldl (rest : List SchemaType) (v : Vacuumed) : ∃ g : FieldType → FieldType,
    (rest.foldl step v).parent.fieldTypes = v.parent.fieldTypes.map g ∧
      ∀ ft, (ft.forward = true → ft.reference ∉ rest.map (·.id)) → g ft = ft := by
  induction rest generalizing v with
  | nil => exact ⟨id, (List.map_id _).symm, fun _ _ => rfl⟩
  | cons c rest ih =>
    obtain ⟨g, hg, hgfix⟩ := fieldTypes_step v c
    obtain ⟨k, hk, hkfix⟩ := ih (v.step c)
    refine ⟨k ∘ g, by rw [List.foldl_cons, hk, hg, List.map_map], fun ft hft => ?_⟩
    simp only [List.map_cons, List.mem_cons, not_or] at hft
    rw [Function.comp_apply, hgfix ft fun hforward => (hft hforward).1,
      hkfix ft fun hforward => (hft hforward).2]

/-- What vacuuming has come to after some of the inner types: the names that are held are those that the
types that hold something were given. -/
structure Course (t : SchemaType) (past : List SchemaType) (v : Vacuumed) : Prop where
  qname : v.parent.qname = t.qname
  standing : v.standing = v.kept.reverse
  sound : ∀ c ∈ v.kept, c.qname ≠ t.qname ∧ c.isEmpty = false
  held : ∀ q, (∃ c ∈ v.kept, c.qname = q) ↔ ∃ d ∈ past, d.isEmpty = false ∧ t.givenName d = q
  distinct : (v.kept.map (·.qname)).Nodup ↔ past.Pairwise t.Apart

namespace Course

theorem start (t : SchemaType) : Course t [] { parent := t } where
  qname := rfl
  standing := rfl
  sound _ hc := absurd hc List.not_mem_nil
  held _ := by simp
  distinct := by simp

theorem spareName (h : Course t past v) : v.parent.spareName = t.spareName := by
  rw [SchemaType.spareName, SchemaType.spareName, SchemaType.name, SchemaType.name, h.qname]

/-- An inner type is left out that is empty or has a name that is held. -/
theorem skip (h : Course t past v) {p : SchemaType} (hp : p.qname = v.parent.qname)
    (hout : c.isEmpty = true ∨ ∃ d ∈ v.kept, d.qname = c.qname) :
    Course t (past ++ [c]) { v with parent := p } where
  qname := hp.trans h.qname
  standing := h.standing
  sound := h.sound
  held q := by
    rw [h.held]
    constructor
    · rintro ⟨d, hd, hgiven⟩
      exact ⟨d, List.mem_append_left _ hd, hgiven⟩
    · rintro ⟨d, hd, hholds, rfl⟩
      obtain hd | hd := List.mem_append.mp hd
      · exact ⟨d, hd, hholds, rfl⟩
      · obtain rfl := List.mem_singleton.mp hd
        obtain hempty | ⟨k, hk, hname⟩ := hout
        · rw [hempty] at hholds
          cases hholds
        · have hgiven : t.givenName d = d.qname := if_neg (hname ▸ (h.sound k hk).1)
          rw [hgiven]
          exact (h.held d.qname).mp ⟨k, hk, hname⟩
  distinct := by
    have hsame : ∀ d ∈ past, t.Apart d c := by
      rintro d - - ⟨hholds, hname⟩
      obtain hempty | ⟨k, hk, hkname⟩ := hout
      · rw [hempty] at hholds
        cases hholds
      · exact absurd (hkname.trans hname) (h.sound k hk).1
    rw [List.pairwise_append]
    simp only [List.pairwise_singleton, List.mem_singleton, forall_eq, true_and]
    exact h.distinct.trans ⟨fun hpast => ⟨hpast, hsame⟩, fun hboth => hboth.1⟩

/-- An inner type is kept that holds something. -/
theorem add (h : Course t past v) {p : SchemaType} (hp : p.qname = v.parent.qname)
    (hholds : c.isEmpty = false)
    (hnew : c.qname ≠ t.qname → ∀ d ∈ v.kept, d.qname ≠ c.qname) :
    Course t (past ++ [c]) ({ v with parent := p }.keep (c.withQName (t.givenName c))) where
  qname := hp.trans h.qname
  standing := by
    rw [keep, List.reverse_append, ← h.standing]
    rfl
  sound d hd := by
    obtain hd | hd := List.mem_append.mp hd
    · exact h.sound d hd
    · rw [List.mem_singleton.mp hd]
      exact ⟨t.givenName_ne c, hholds⟩
  held q := by
    simp only [keep, List.mem_append, List.mem_singleton, or_and_right, exists_or, exists_eq_left, h.held,
      withQName_qname, hholds, true_and]
  distinct := by
    have hfresh : t.givenName c ∉ v.kept.map (·.qname) ↔ ∀ d ∈ past, t.Apart d c := by
      rw [List.mem_map, h.held]
      by_cases hname : c.qname = t.qname
      · have hgiven : t.givenName c = t.spareName := if_pos hname
        simp [hgiven, SchemaType.Apart, Namesake, hholds, hname]
      · have hgiven : t.givenName c = c.qname := if_neg hname
        refine iff_of_true (fun hheld => ?_) fun d _ _ hc => absurd hc.2 hname
        obtain ⟨d, hd, hdname⟩ := (h.held _).mpr hheld
        exact hnew hname d hd (hdname.trans hgiven)
    rw [keep, List.map_append, List.nodup_append, List.pairwise_append, h.distinct]
    simpa [List.mem_map] using fun _ => hfresh

theorem step (h : Course t past v) (c : SchemaType) : Course t (past ++ [c]) (v.step c) := by
  have hfate := fate_step v c
  generalize v.step c = w at hfate
  cases hfate with
  | duplicate first hfirst hname =>
    refine h.skip rfl (.inr ⟨first, ?_, hname⟩)
    rwa [h.standing, List.mem_reverse] at hfirst
  | blank hempty => exact h.skip rfl (.inl hempty)
  | renamed hholds hname =>
    rw [h.qname] at hname
    have hgiven : t.givenName c = v.parent.spareName := (if_pos hname).trans h.spareName.symm
    rw [← hgiven]
    exact h.add rfl hholds fun hne => absurd hname hne
  | stays hnew hholds hname =>
    rw [h.qname] at hname
    have hadd := h.add (p := v.parent) (c := c) rfl hholds fun _ d hd => hnew d (by
      rwa [h.standing, List.mem_reverse])
    have hgiven : t.givenName c = c.qname := if_neg hname
    rwa [hgiven, c.withQName_self] at hadd

theorem foldl (h : Course t past v) (rest : List SchemaType) :
    Course t (past ++ rest) (rest.foldl Vacuumed.step v) := by
  induction rest generalizing past v with
  | nil => rwa [List.append_nil]
  | cons c rest ih =>
    rw [List.foldl_cons, List.append_cons]
    exact ih (h.step c)

end Course

end Vacuumed

namespace SchemaType

theorem course_vacuum (t : SchemaType) :
    Vacuumed.Course t t.inner (t.inner.foldl Vacuumed.step { parent := t }) :=
  (Vacuumed.Course.start t).foldl t.inner

/-- An inner type that holds something and shares its name with no other is kept, with what leads to it,
unless another one has been given its name. -/
theorem retains_vacuum_iff (hids : (t.inner.map (·.id)).Nodup) (hc : c ∈ t.inner) (hholds : c.isEmpty = false)
    (honly : ∀ d ∈ t.inner, d.qname = c.qname → d.id = c.id) : t.Retains t.vacuum c ↔ ¬ t.Ousted c := by
  obtain ⟨pre, post, hsplit⟩ := List.append_of_mem hc
  have hbefore := innerBefore_eq hids hsplit
  rw [hsplit, List.map_append, List.map_cons, List.nodup_append, List.nodup_cons] at hids
  have hpre : c.id ∉ pre.map (·.id) := fun hmem => hids.2.2 _ hmem _ List.mem_cons_self rfl
  have hpost : c.id ∉ post.map (·.id) := hids.2.1.1
  -- the course before the inner type, and what happens after it
  have hcourse := (Vacuumed.Course.start t).foldl pre
  rw [List.nil_append] at hcourse
  obtain ⟨before, hbeforeKept, hbeforeIds⟩ := Vacuumed.kept_foldl pre { parent := t }
  obtain ⟨g, hg, hgfix⟩ := Vacuumed.fieldTypes_foldl pre { parent := t }
  have hfate := Vacuumed.fate_step (pre.foldl Vacuumed.step { parent := t }) c
  have hinner : t.vacuum.inner = (post.foldl Vacuumed.step
      ((pre.foldl Vacuumed.step { parent := t }).step c)).kept := by
    rw [vacuum, hsplit, List.foldl_append, List.foldl_cons]
  have hfieldTypes : t.vacuum.fieldTypes = (post.foldl Vacuumed.step
      ((pre.foldl Vacuumed.step { parent := t }).step c)).parent.fieldTypes := by
    rw [vacuum, hsplit, List.foldl_append, List.foldl_cons]
    rfl
  generalize pre.foldl Vacuumed.step { parent := t } = v at *
  generalize v.step c = w at *
  obtain ⟨after, hafter, hafterIds⟩ := Vacuumed.kept_foldl post w
  obtain ⟨k, hk, hkfix⟩ := Vacuumed.fieldTypes_foldl post w
  have hkept : ∀ q, w.kept = v.kept ++ [c.withQName q] → c.withQName q ∈ t.vacuum.inner := fun q hw => by
    rw [hinner, hafter, hw]
    simp
  have hreferences : ∀ r : FieldType → FieldType, w.parent.fieldTypes = v.parent.fieldTypes.map r →
      t.vacuum.fieldTypes = t.fieldTypes.map (k ∘ r ∘ g) := fun r hr => by
    rw [hfieldTypes, hk, hr, hg, List.map_map, List.map_map]
    rfl
  have hbeforeFix : ∀ ft : FieldType, ft.reference = c.id → g ft = ft := fun ft href =>
    hgfix ft fun _ => href ▸ hpre
  have hafterFix : ∀ ft : FieldType, ft.reference = c.id → k ft = ft := fun ft href =>
    hkfix ft fun _ => href ▸ hpost
  cases hfate with
  | duplicate first hfirst hname =>
    -- only a name that was given anew can be that of the inner type
    rw [hcourse.standing, List.mem_reverse] at hfirst
    obtain ⟨d, hd, hdholds, hgiven⟩ := (hcourse.held c.qname).mp ⟨first, hfirst, hname⟩
    have hdname : d.qname = t.qname := by
      by_contra hne
      rw [givenName, if_neg hne] at hgiven
      have hid := honly d (hsplit ▸ List.mem_append_left _ hd) hgiven
      exact hpre (hid ▸ List.mem_map_of_mem hd)
    rw [givenName, if_pos hdname] at hgiven
    refine iff_of_false ?_ (not_not_intro ⟨hgiven.symm, d, hbefore ▸ hd, hdholds, hdname⟩)
    rintro ⟨c', hc', heq, -⟩
    have hid : c'.id = c.id := congrArg (·.id) heq
    rw [hinner, hafter, List.mem_append] at hc'
    obtain hc' | hc' := hc'
    · rw [hbeforeKept] at hc'
      exact hpre (hid ▸ hbeforeIds c' hc')
    · exact hpost (hid ▸ hafterIds c' hc')
  | blank hempty =>
    rw [hempty] at hholds
    cases hholds
  | renamed _ hname =>
    rw [hcourse.qname] at hname
    refine iff_of_true ⟨_, hkept _ rfl, rfl, ?_⟩ fun housted => t.spareName_ne (housted.1 ▸ hname)
    rw [hreferences _ (fieldTypes_mapFieldTypes _ _), List.forall₂_map_right_iff, List.forall₂_same]
    intro ft _ hforward href
    simp only [Function.comp_apply, hbeforeFix ft href, hforward, href, beq_self_eq_true, Bool.and_self, if_true]
    rw [hafterFix _ rfl]
    exact ⟨by rw [← href], fun _ => rfl⟩
  | stays hnew _ hname =>
    rw [hcourse.qname] at hname
    have hselfKept := hkept c.qname (by rw [c.withQName_self]; rfl)
    rw [c.withQName_self] at hselfKept
    refine iff_of_true ⟨c, hselfKept, c.withQName_self.symm, ?_⟩ ?_
    · rw [hreferences (fun ft => ft) (List.map_id' _).symm, List.forall₂_map_right_iff, List.forall₂_same]
      intro ft _ _ href
      rw [Function.comp_apply, Function.comp_apply, hbeforeFix ft href, hafterFix ft href]
      exact ⟨rfl, fun hq => hq⟩
    · rintro ⟨hspare, d, hd, hdholds, hdname⟩
      obtain ⟨first, hfirst, hq⟩ := (hcourse.held c.qname).mpr
        ⟨d, hbefore ▸ hd, hdholds, by rw [givenName, if_pos hdname, hspare]⟩
      exact hnew first (by rwa [hcourse.standing, List.mem_reverse]) hq

/-- Vacuuming leaves inner types that hold something under names other than their parent's. The names
differ exactly if no type is given the name of an earlier one; and a type that holds something and shares
its name with no other stays, with all that leads to it, exactly if its name is not given to an earlier
one. -/
theorem vacuum_tidies (t : SchemaType) (hids : (t.inner.map (·.id)).Nodup) :
    (∀ c ∈ t.vacuum.inner, c.qname ≠ t.qname ∧ c.isEmpty = false) ∧
    ((t.vacuum.inner.map (·.qname)).Nodup ↔ t.inner.Pairwise t.Apart) ∧
    ∀ c ∈ t.inner, c.isEmpty = false → (∀ d ∈ t.inner, d.qname = c.qname → d.id = c.id) →
      (t.Retains t.vacuum c ↔ ¬ t.Ousted c) :=
  ⟨t.course_vacuum.sound, t.course_vacuum.distinct, fun _ hc hholds honly =>
    retains_vacuum_iff hids hc hholds honly⟩

end SchemaType

namespace Usurped

def record (id : Handle) (name field : String) : SchemaType :=
  { id, qname := ⟨"urn:t", name⟩, tag := .complexType
    fields := [{ name := field, tag := .element, types := [.ofNative Native.string] }] }

def forwardTo (field name : String) (h : Handle) : Field :=
  { name := field, tag := .element, types := [.ofForward ⟨"urn:t", name⟩ h] }

/-- An inner type is called like its parent, and a later one by the name that this one gets. -/
def parent : SchemaType :=
  { id := 1, qname := ⟨"urn:t", "A"⟩, tag := .complexType
    fields := [forwardTo "a" "A" 2, forwardTo "b" "A_Inner" 3]
    inner := [record 2 "A" "x", record 3 "A_Inner" "y"] }

/-- The type that holds its name from the start goes, and what led to it leads to the other one. In the
other order both stay, by one name. -/
theorem vacuum_usurps :
    parent.handles.Nodup ∧ (record 3 "A_Inner" "y").isEmpty = false ∧
    (∀ d ∈ parent.inner, d.qname = (record 3 "A_Inner" "y").qname → d.id = 3) ∧
    parent.fieldTypes.map (·.reference) = [2, 3] ∧
    parent.vacuum.fieldTypes.map (·.reference) = [2, 2] ∧ parent.vacuum.inner.map (·.id) = [2] ∧
    (SchemaType.vacuum { parent with inner := parent.inner.reverse }).inner.map (·.qname.name) =
      ["A_Inner", "A_Inner"] := by
  decide

/-- The same with a duplicate and an empty type, and no type by the name that is given. -/
def spared : SchemaType :=
  { parent with
    inner := [record 4 "Line" "x", record 5 "Line" "y", { id := 6, qname := ⟨"urn:t", "Empty"⟩ },
      record 2 "A" "x"] }

theorem vacuum_spares :
    (spared.inner.map (·.id)).Nodup ∧ (spared.vacuum.inner.map (·.qname)).Nodup ∧
    (∀ c ∈ spared.vacuum.inner, c.qname ≠ spared.qname ∧ c.isEmpty = false) ∧
    spared.Retains spared.vacuum (record 2 "A" "x") := by
  have h := spared.vacuum_tidies (by decide)
  refine ⟨by decide, h.2.1.mpr ?_, h.1, (h.2.2 _ (.tail _ (.tail _ (.tail _ (.head _)))) ?_ ?_).mpr ?_⟩
  · unfold SchemaType.Apart SchemaType.Namesake
    decide
  · decide
  · decide
  · exact fun housted => absurd housted.1 (by decide)

end Usurped

end Schemata
