import Schemata.Output.Integrity
import Schemata.Proofs.Output.Designation
import Schemata.Proofs.Output.Integrity
import Schemata.Proofs.Unique.Relabelling

/-!
# Names are unique in their scopes

After naming no two roots of one scope have names of one key, so naming again finds nothing to do.
Scopes are what designation later makes modules of: types of one module path are of one scope, and
the check of the names in a module accepts the roots.
-/

namespace Schemata

open Compile

variable {s s' : Store} {rs : List Renaming} {e e' : Entry}

-- ---------------------------------------------------------------------------
-- The check of the names in a module
-- ---------------------------------------------------------------------------

/-- The module and the key of a type, which must differ between two roots. -/
def SchemaType.slot (t : SchemaType) : String × String :=
  (t.modulePath, Name.key t.name)

theorem map_slot_ofTypes (ts : List SchemaType) (n : Nat) :
    (TypePart.ofTypes ts n).1.map TypePart.slot = ts.map SchemaType.slot := by
  induction ts generalizing n with
  | nil => rfl
  | cons t ts ih =>
    obtain ⟨_, _, _, _, _, _, _, _, _, _, _, _, _, _, _, _, _, _, _, _⟩ := t
    rw [TypePart.ofTypes, List.map_cons, List.map_cons]
    exact congrArg₂ _ rfl (ih _)

theorem firstCollision?_eq_none {earlier ts : List TypePart}
    (hslots : ((earlier.map TypePart.slot).reverse ++ ts.map TypePart.slot).Nodup) :
    firstCollision? earlier ts = none := by
  obtain ⟨-, hnodup, hdisjoint⟩ := List.nodup_append.mp hslots
  refine firstCollision?_eq_none_iff.mpr ⟨hnodup, fun t ht hmem => ?_⟩
  exact hdisjoint _ (List.mem_reverse.mpr hmem) _ (List.mem_map_of_mem ht) rfl

-- ---------------------------------------------------------------------------
-- Scopes and names after a run
-- ---------------------------------------------------------------------------

namespace Store

/-- No two roots of one scope have names of one key. -/
def Separated (s : Store) : Prop :=
  ∀ e ∈ s.roots, ∀ e' ∈ s.roots, e.key ≠ e'.key → s.scopeOf e = s.scopeOf e' →
    Name.key e.type.name ≠ Name.key e'.type.name

/-- A root is renamed and has the new name, or keeps its own. -/
theorem qname_relabel_cases (hkeys : (s.roots.map (·.key)).Nodup)
    (hids : (s.roots.map (·.type.id)).Nodup) (hplan : s.Plan rs) (he : e ∈ s.roots) :
    (∃ r ∈ rs, r.entry = e ∧ (e.relabel (labelOf? rs)).type.qname = r.qname) ∨
      (e.key ∉ rs.map (·.entry.key) ∧ (e.relabel (labelOf? rs)).type.qname = e.type.qname) := by
  change (∃ r ∈ rs, r.entry = e ∧ (labelOf? rs e.type.id).getD e.type.qname = r.qname) ∨
    (_ ∧ (labelOf? rs e.type.id).getD e.type.qname = e.type.qname)
  unfold labelOf?
  cases hfind : rs.findRev? (·.entry.type.id == e.type.id) with
  | none =>
    refine .inr ⟨fun hmem => ?_, rfl⟩
    rw [List.findRev?_eq_find?_reverse, List.find?_eq_none] at hfind
    obtain ⟨r, hr, hkey⟩ := List.mem_map.mp hmem
    obtain rfl := List.inj_on_of_nodup_map hkeys (hplan.roots r hr) he hkey
    exact hfind r (List.mem_reverse.mpr hr) (beq_self_eq_true _)
  | some r =>
    rw [List.findRev?_eq_find?_reverse] at hfind
    have hr : r ∈ rs := List.mem_reverse.mp (List.mem_of_find?_eq_some hfind)
    have hid : r.entry.type.id = e.type.id :=
      beq_iff_eq.mp (List.find?_some (p := fun r : Renaming => r.entry.type.id == e.type.id) hfind)
    exact .inl ⟨r, hr, List.inj_on_of_nodup_map hids (hplan.roots r hr) he hid, rfl⟩

/-- Names are given within scopes, so every root stays in its scope. -/
theorem scopeOf_relabel (hkeys : (s.roots.map (·.key)).Nodup) (hids : (s.roots.map (·.type.id)).Nodup)
    (hplan : s.Plan rs) (hs : s.Relabels rs s') (he : e ∈ s.roots) :
    s'.scopeOf (e.relabel (labelOf? rs)) = s.scopeOf e := by
  have hlocation : ∀ e : Entry, (e.relabel (labelOf? rs)).type.location = e.type.location := by
    intro e
    rw [Entry.relabel, (SchemaType.shallow_relabel _).mapTree_eq_withInner]
    rfl
  have hns : (e.relabel (labelOf? rs)).type.ns = e.type.ns := by
    obtain ⟨r, -, rfl, hqname⟩ | ⟨-, hqname⟩ := qname_relabel_cases hkeys hids hplan he
    · rw [SchemaType.ns, hqname]
      rfl
    · rw [SchemaType.ns, hqname]
      rfl
  have hshared : sharedDirectories s'.types = sharedDirectories s.types := by
    unfold sharedDirectories types
    rw [hs.roots]
    simp only [List.map_map, List.filter_map, Function.comp_def, hlocation]
  have hconfig : s'.config = s.config := by
    obtain ⟨aside, byName, rfl⟩ := hs.frame
    rfl
  simp only [scopeOf, OutputConfig.scope, hconfig, hshared, hns, hlocation]

/-- A plan that settles every clash keeps the roots of a scope apart. -/
theorem separated_of_plan (hkeys : (s.roots.map (·.key)).Nodup) (hids : (s.roots.map (·.type.id)).Nodup)
    (hplan : s.Plan rs) (hsettling : s.Settling rs) (hs : s.Relabels rs s') : s'.Separated := by
  intro e₁' he₁' e₂' he₂' hne hscope hkey
  rw [hs.roots] at he₁' he₂'
  obtain ⟨e₁, he₁, rfl⟩ := List.mem_map.mp he₁'
  obtain ⟨e₂, he₂, rfl⟩ := List.mem_map.mp he₂'
  rw [scopeOf_relabel hkeys hids hplan hs he₁, scopeOf_relabel hkeys hids hplan hs he₂] at hscope
  rw [SchemaType.name, SchemaType.name] at hkey
  obtain ⟨r₁, hr₁, rfl, hqname₁⟩ | ⟨hkept₁, hqname₁⟩ := qname_relabel_cases hkeys hids hplan he₁
  · rw [hqname₁] at hkey
    obtain ⟨r₂, hr₂, rfl, hqname₂⟩ | ⟨-, hqname₂⟩ := qname_relabel_cases hkeys hids hplan he₂
    · -- two new names
      rw [hqname₂] at hkey
      have hsymm : Std.Symm fun r r' : Renaming =>
          s.scopeOf r.entry = s.scopeOf r'.entry → Name.key r.name ≠ Name.key r'.name :=
        ⟨fun _ _ h hscope hkey => h hscope.symm hkey.symm⟩
      exact hplan.apart.forall hr₁ hr₂ (fun heq => hne (congrArg (·.entry.key) heq)) hscope hkey
    · rw [hqname₂] at hkey
      exact hplan.new r₁ hr₁ e₂ he₂ hscope.symm hkey.symm
  · rw [hqname₁] at hkey
    obtain ⟨r₂, hr₂, rfl, hqname₂⟩ | ⟨hkept₂, hqname₂⟩ := qname_relabel_cases hkeys hids hplan he₂
    · rw [hqname₂] at hkey
      exact hplan.new r₂ hr₂ e₁ he₁ hscope hkey
    · -- two old names: one of the roots would have been renamed
      rw [hqname₂] at hkey
      have hslot : s.slot e₁ = s.slot e₂ := Prod.ext hscope hkey
      exact (hsettling e₁ he₁ e₂ he₂ hne hslot).elim hkept₁ hkept₂

theorem nameTypes_of_separated (hkeys : (s.roots.map (·.key)).Nodup) (hs : s.Separated) :
    s.nameTypes = s := by
  obtain ⟨rs, hplan, -, hnames⟩ := exists_plan hkeys
  cases rs with
  | nil => exact hnames
  | cons r rs =>
    obtain ⟨e, he, hne, hslot⟩ := hplan.clashes r List.mem_cons_self
    obtain ⟨hscope, hkey⟩ := Prod.mk.inj hslot
    exact absurd hkey (hs e he r.entry (hplan.roots r List.mem_cons_self) hne hscope)

/-- Modules that fit their scopes hold no two roots with names of one key. -/
theorem Separated.nodup_slots (hkeys : (s.roots.map (·.key)).Nodup) (hs : s.Separated)
    (hs' : s.Houses s') : (s'.types.map SchemaType.slot).Nodup := by
  have hkeys' : (s'.roots.map (·.key)).Nodup := hs'.keys ▸ hkeys
  rw [types, List.map_map]
  refine List.Nodup.map_on (fun e₁' he₁' e₂' he₂' hslot => ?_) hkeys'.of_map
  obtain ⟨hpath, hkey⟩ := Prod.mk.inj hslot
  obtain ⟨e₁, he₁, hkey₁, hqname₁, hfits₁⟩ := hs'.placed e₁' he₁'
  obtain ⟨e₂, he₂, hkey₂, hqname₂, hfits₂⟩ := hs'.placed e₂' he₂'
  refine List.inj_on_of_nodup_map hkeys' he₁' he₂' ?_
  rw [hkey₁, hkey₂]
  by_contra hne
  rw [hpath] at hfits₁
  rw [SchemaType.name, SchemaType.name, hqname₁, hqname₂] at hkey
  exact hs e₁ he₁ e₂ he₂ hne (scopeOf_eq_of_fits hfits₁ hfits₂) hkey

/-- Names are unique in their scopes after naming, another run changes nothing, and when designation
succeeds no two roots of a module have names of one key: the check of the names accepts them. -/
theorem nameTypes_separates (hkeys : (s.roots.map (·.key)).Nodup) (hhandles : s.handles.Nodup) :
    s.nameTypes.Separated ∧ s.nameTypes.nameTypes = s.nameTypes ∧
      wp designate (fun _ s' => (s'.types.map SchemaType.slot).Nodup ∧
        firstCollision? [] (Forest.ofTypes s'.types).roots = none) (fun _ _ => True) s.nameTypes := by
  have hids := nodup_root_ids hhandles
  obtain ⟨rs, hplan, hsettling, hnames⟩ := exists_plan hkeys
  have hrelabels := relabels_renameAll hkeys hids hplan.roots hplan.once
  rw [← hnames] at hrelabels
  have hseparated := separated_of_plan hkeys hids hplan hsettling hrelabels
  have hkeys' : (s.nameTypes.roots.map (·.key)).Nodup := by
    rw [hrelabels.roots, List.map_map]
    exact hkeys
  refine ⟨hseparated, nameTypes_of_separated hkeys' hseparated, ?_⟩
  refine wp_mono (houses_of_designate hkeys') (fun _ s' hs' => ?_) fun _ _ _ => trivial
  have hslots := hseparated.nodup_slots hkeys' hs'
  refine ⟨hslots, firstCollision?_eq_none ?_⟩
  rw [List.map_nil, List.reverse_nil, List.nil_append, Forest.ofTypes, map_slot_ofTypes]
  exact hslots

end Store

namespace Crowded

/-- Three types of two namespaces that share a package. The first two have names of one key, and the
third has taken the name that would tell the second apart. -/
def store : Store :=
  ({ config := { output := { layout := .namespaceClusters } } } : Store).insertAll [
    { qname := ⟨"urn:t", "Item"⟩, tag := .element
      fields := [{ name := "part", tag := .element, types := [{ qname := ⟨"urn:T", "item"⟩, reference := 2 }] }] },
    { qname := ⟨"urn:T", "item"⟩, tag := .complexType },
    { qname := ⟨"urn:t", "item_type"⟩, tag := .simpleType }]

theorem designated :
    store.nameTypes.types.map (·.qname) = [⟨"urn:t", "Item"⟩, ⟨"urn:T", "item_1"⟩, ⟨"urn:t", "item_type"⟩] ∧
    wp designate (fun _ s => s.types.map (·.modulePath) =
      ["generated.t.item", "generated.t.item_1", "generated.t.item_type"]) (fun _ _ => False) store.nameTypes ∧
    store.nameTypes.Separated ∧ store.nameTypes.nameTypes = store.nameTypes ∧
      wp designate (fun _ s => (s.types.map SchemaType.slot).Nodup ∧
        firstCollision? [] (Forest.ofTypes s.types).roots = none) (fun _ _ => True) store.nameTypes := by
  have hsound : store.Sound := .insertAll (.empty _) (.empty _) (by decide)
  exact ⟨by decide +kernel, by decide +kernel, Store.nameTypes_separates hsound.keys hsound.handles⟩

end Crowded

end Schemata
