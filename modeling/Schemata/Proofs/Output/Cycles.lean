import Schemata.Proofs.Binding.Circular
import Schemata.Proofs.Output.Resolution
import Schemata.Proofs.Store.Index

/-!
# Cycles after the last step

A module cannot be ordered when roots need each other in a cycle by references that are not flagged.
A reference is flagged by what leads back to the type that declares it, and a cycle of roots leads
back to each of its roots. So every step of such a cycle is declared by a nested type that its root
does not lead to: flags prevent cycles as long as no such type has dependencies.
-/

namespace Schemata

open Compile SchemaType Relation

variable {types part : List SchemaType} {registry : Registry} {a b u : SchemaType} {ft : FieldType}
  {p q : QName}

/-- The resolution of a module fails for a cycle. -/
def FailsForCycle (registry : Registry) (types : List SchemaType) : Prop :=
  ∃ detail qnames,
    (resolveModule registry types).2 = some (.ofCompile .dependencyCycle detail qnames)

/-- In a part of the roots, one root needs another by a reference that does not lead back to the type
that declares it. -/
def OpenStep (types part : List SchemaType) (a b : SchemaType) : Prop :=
  a ∈ part ∧ b ∈ part ∧ b ≠ a ∧ ∃ u ft, Within u a ∧ u.Declares ft ∧ ft.isDependency = true ∧
    ft.qname = b.qname ∧ ¬ LeadsTo types ft.reference u.id

/-- In a part of the roots, one root needs another by a reference of a type nested in it that it does
not lead to. -/
def HiddenStep (types part : List SchemaType) (a b : SchemaType) : Prop :=
  a ∈ part ∧ b ∈ part ∧ b ≠ a ∧ ∃ u ft, Within u a ∧ u.Declares ft ∧ ft.isDependency = true ∧
    ft.qname = b.qname ∧ ¬ LeadsTo types a.id u.id

/-- All dependencies are bound. -/
def DependenciesBound (types : List SchemaType) : Prop :=
  ∀ root ∈ types, ∀ u, Within u root → ∀ ft, u.Declares ft → ft.isDependency = true →
    ft.reference ≠ 0

/-- A dependency on the name of a root is bound to the root. -/
def BoundByName (types : List SchemaType) : Prop :=
  ∀ root ∈ types, ∀ u, Within u root → ∀ ft, u.Declares ft → ft.isDependency = true →
    ∀ b ∈ types, ft.qname = b.qname → ft.reference = b.id

-- ---------------------------------------------------------------------------
-- Cycles of names and of roots
-- ---------------------------------------------------------------------------

theorem orderedAfter_iff (hflagged : Flagged types) (hbound : DependenciesBound types)
    (ha : a ∈ types) :
    a.OrderedAfter q ↔ ∃ u ft, Within u a ∧ u.Declares ft ∧ ft.isDependency = true ∧
      ft.qname = q ∧ ¬ LeadsTo types ft.reference u.id := by
  constructor
  · rintro ⟨ft, ⟨u, hu, hft⟩, hdep, hcircular, hq⟩
    refine ⟨u, ft, hu, hft, hdep, hq, fun hleads => ?_⟩
    rw [← hflagged a ha u hu ft hft hdep (hbound a ha u hu ft hft hdep), hcircular] at hleads
    cases hleads
  · rintro ⟨u, ft, hu, hft, hdep, hq, hleads⟩
    refine ⟨ft, ⟨u, hu, hft⟩, hdep, ?_, hq⟩
    rwa [← hflagged a ha u hu ft hft hdep (hbound a ha u hu ft hft hdep), Bool.not_eq_true] at hleads

theorem openStep_iff (hflagged : Flagged types) (hbound : DependenciesBound types)
    (hpart : part ⊆ types) :
    OpenStep types part a b ↔ a ∈ part ∧ b ∈ part ∧ b ≠ a ∧ a.OrderedAfter b.qname := by
  unfold OpenStep
  refine and_congr_right fun ha => and_congr_right fun _ => and_congr_right fun _ => ?_
  rw [orderedAfter_iff hflagged hbound (hpart ha)]

/-- A way over names that ends at a root is a way over roots. -/
theorem exists_root_of_nameAfter (hflagged : Flagged types) (hbound : DependenciesBound types)
    (hpart : part ⊆ types)
    (hway : TransGen (fun p q => NameAfter part p q ∧ q ≠ p) p q) :
    ∀ b ∈ part, b.qname = q → ∃ a ∈ part, a.qname = p ∧ TransGen (OpenStep types part) a b := by
  induction hway with
  | single hstep =>
    rintro b hb rfl
    obtain ⟨⟨a, ha, rfl, hafter⟩, hne⟩ := hstep
    refine ⟨a, ha, rfl, .single ((openStep_iff hflagged hbound hpart).mpr ⟨ha, hb, ?_, hafter⟩)⟩
    exact fun hba => hne (congrArg SchemaType.qname hba)
  | tail _ hstep ih =>
    rintro c hc rfl
    obtain ⟨⟨b, hb, rfl, hafter⟩, hne⟩ := hstep
    obtain ⟨a, ha, hp, hab⟩ := ih b hb rfl
    refine ⟨a, ha, hp, hab.tail ((openStep_iff hflagged hbound hpart).mpr ⟨hb, hc, ?_, hafter⟩)⟩
    exact fun hcb => hne (congrArg SchemaType.qname hcb)

theorem failsForCycle_iff_open (hflagged : Flagged types) (hbound : DependenciesBound types)
    (hpart : part ⊆ types) (hnames : (part.map (·.qname)).Nodup) :
    FailsForCycle registry part ↔ ∃ a, TransGen (OpenStep types part) a a := by
  have heq : ∀ {a b}, a ∈ part → b ∈ part → a.qname = b.qname → a = b :=
    fun ha hb => List.inj_on_of_nodup_map hnames ha hb
  rw [show FailsForCycle registry part ↔ _ from resolveModule_dependencyCycle_iff,
    and_iff_right hnames]
  constructor
  · rintro ⟨q, hcycle⟩
    obtain ⟨_, ⟨⟨b, hb, rfl, -⟩, -⟩, -⟩ := TransGen.head'_iff.mp hcycle
    obtain ⟨a, ha, hab, hway⟩ := exists_root_of_nameAfter hflagged hbound hpart hcycle b hb rfl
    obtain rfl := heq ha hb hab
    exact ⟨a, hway⟩
  · rintro ⟨a, hcycle⟩
    refine ⟨a.qname, hcycle.lift SchemaType.qname fun a b hstep => ?_⟩
    obtain ⟨ha, hb, hne, hafter⟩ := (openStep_iff hflagged hbound hpart).mp hstep
    exact ⟨⟨a, ha, rfl, hafter⟩, fun hba => hne (heq hb ha hba)⟩

-- ---------------------------------------------------------------------------
-- Hidden types
-- ---------------------------------------------------------------------------

/-- On the way from `x` to `y` and back every step can be gone back. -/
theorem transGen_and_back {α : Type} {r : α → α → Prop} {x y : α} (hway : TransGen r x y)
    (hback : ReflTransGen r y x) : TransGen (fun a b => r a b ∧ ReflTransGen r b a) x y := by
  induction hway with
  | single hstep => exact .single ⟨hstep, hback⟩
  | tail hxb hbc ih =>
    exact .tail (ih (.head hbc hback)) ⟨hbc, hback.trans hxb.to_reflTransGen⟩

/-- A root is bound to what it or a type nested in it depends on. -/
theorem boundTo_of_dependency (hbound : DependenciesBound types) (hroots : BoundByName types)
    (ha : a ∈ types) (hb : b ∈ types) (hu : Within u a) (hft : u.Declares ft)
    (hdep : ft.isDependency = true) (hq : ft.qname = b.qname) : BoundTo types a.id b.id := by
  exact ⟨a, ha, u, hu, .inr rfl, ft, hft, FieldType.native_eq_false hdep,
    hbound a ha u hu ft hft hdep, hroots a ha u hu ft hft hdep b hb hq⟩

/-- An open step that can be gone back is hidden. -/
theorem hiddenStep_of_openStep (hbound : DependenciesBound types) (hroots : BoundByName types)
    (hpart : part ⊆ types) (hstep : OpenStep types part a b)
    (hback : ReflTransGen (OpenStep types part) b a) : HiddenStep types part a b := by
  have hleads : LeadsTo types b.id a.id := by
    refine hback.lift SchemaType.id fun x y hxy => ?_
    obtain ⟨hx, hy, -, u, ft, hu, hft, hdep, hq, -⟩ := hxy
    exact boundTo_of_dependency hbound hroots (hpart hx) (hpart hy) hu hft hdep hq
  obtain ⟨ha, hb, hne, u, ft, hu, hft, hdep, hq, hopen⟩ := hstep
  refine ⟨ha, hb, hne, u, ft, hu, hft, hdep, hq, fun hau => hopen ?_⟩
  rw [hroots a (hpart ha) u hu ft hft hdep b (hpart hb) hq]
  exact hleads.trans hau

theorem openStep_of_hiddenStep (hbound : DependenciesBound types) (hroots : BoundByName types)
    (hpart : part ⊆ types) (hstep : HiddenStep types part a b) : OpenStep types part a b := by
  obtain ⟨ha, hb, hne, u, ft, hu, hft, hdep, hq, hhidden⟩ := hstep
  refine ⟨ha, hb, hne, u, ft, hu, hft, hdep, hq, fun hbu => hhidden ?_⟩
  rw [hroots a (hpart ha) u hu ft hft hdep b (hpart hb) hq] at hbu
  exact .head (boundTo_of_dependency hbound hroots (hpart ha) (hpart hb) hu hft hdep hq) hbu

theorem exists_open_cycle_iff (hbound : DependenciesBound types) (hroots : BoundByName types)
    (hpart : part ⊆ types) :
    (∃ a, TransGen (OpenStep types part) a a) ↔ ∃ a, TransGen (HiddenStep types part) a a := by
  refine exists_congr fun a => ⟨fun hcycle => ?_, fun hcycle => ?_⟩
  · refine TransGen.mono (fun x y hxy => ?_) _ _ (transGen_and_back hcycle .refl)
    exact hiddenStep_of_openStep hbound hroots hpart hxy.1 hxy.2
  · exact TransGen.mono (fun x y hxy => openStep_of_hiddenStep hbound hroots hpart hxy) _ _ hcycle

-- ---------------------------------------------------------------------------
-- The last step
-- ---------------------------------------------------------------------------

/-- Handles tell the types apart, and every reference that is not native is bound to a type of the name
that it gives. -/
structure WellBound (types : List SchemaType) : Prop where
  handles : ((walkAll types).map (·.id)).Nodup
  nonzero : ∀ u ∈ walkAll types, u.id ≠ 0
  bound : ∀ u ∈ walkAll types, ∀ ft, u.Declares ft → ft.native = false →
    ∃ v ∈ walkAll types, v.id = ft.reference ∧ v.qname = ft.qname

theorem mapTree_finalized_qname (g : KeyedGraph Handle) (t : SchemaType) :
    (t.mapTree (finalized g)).qname = t.qname := by
  rw [(shallow_finalized g).mapTree_eq_withInner]
  rfl

namespace WellBound

variable {g : KeyedGraph Handle}

theorem dependenciesBound (h : WellBound types) :
    DependenciesBound (types.map (mapTree (finalized g))) := by
  intro _ hroot _ hu _ hft hdep
  obtain ⟨root, hroot₀, rfl⟩ := List.mem_map.mp hroot
  obtain ⟨u, hu₀, rfl⟩ := (shallow_finalized g).within_mapTree_iff.mp hu
  obtain ⟨ft, hft₀, rfl⟩ := declares_finalized_iff.mp hft
  rw [FieldType.flagged_isDependency] at hdep
  obtain ⟨v, hv, hid, -⟩ := h.bound u (mem_walkAll_iff.mpr ⟨root, hroot₀, hu₀⟩) ft hft₀
    (FieldType.native_eq_false hdep)
  rw [FieldType.flagged_reference, ← hid]
  exact h.nonzero v hv

/-- When no nested type has the name of a root, the name of a root leads to the root. -/
theorem boundByName (h : WellBound types)
    (hnested : ∀ u ∈ walkAll types, ∀ root ∈ types, u.qname = root.qname → u = root) :
    BoundByName (types.map (mapTree (finalized g))) := by
  intro _ hroot _ hu _ hft hdep _ hb hq
  obtain ⟨root, hroot₀, rfl⟩ := List.mem_map.mp hroot
  obtain ⟨u, hu₀, rfl⟩ := (shallow_finalized g).within_mapTree_iff.mp hu
  obtain ⟨ft, hft₀, rfl⟩ := declares_finalized_iff.mp hft
  obtain ⟨b, hb₀, rfl⟩ := List.mem_map.mp hb
  rw [FieldType.flagged_isDependency] at hdep
  rw [FieldType.flagged_qname, mapTree_finalized_qname] at hq
  obtain ⟨v, hv, hid, hvq⟩ := h.bound u (mem_walkAll_iff.mpr ⟨root, hroot₀, hu₀⟩) ft hft₀
    (FieldType.native_eq_false hdep)
  obtain rfl := hnested v hv b hb₀ (hvq.trans hq)
  rw [FieldType.flagged_reference, ← hid, (shallow_finalized g).mapTree_id]

end WellBound

theorem WellBound.types_insertAll (h : WellBound types) (config : Config) :
    (({ config } : Store).insertAll types).types = types := by
  rw [Store.types_insertAll (.empty config) types fun t ht hzero => ?_]
  · rfl
  · obtain ⟨u, hu, hid⟩ := mem_handles_iff.mp hzero
    exact h.nonzero u (mem_walkAll_iff.mpr ⟨t, ht, hu⟩) hid

/-- Types that are inserted with their handles are all finalized. -/
theorem wp_finalize_insertAll (config : Config) (h : WellBound types)
    (hstatus : ∀ u ∈ walkAll types, u.status < .finalizing) :
    wp (Step.finalize.run false)
      (fun _ s' => s'.types = types.map
        (mapTree (finalized (({ config } : Store).insertAll types).referenceGraph)))
      (fun _ _ => False) (({ config } : Store).insertAll types) := by
  have hfresh := (Store.Fresh.empty config).insertAll types
  have htypes := h.types_insertAll config
  generalize ({ config } : Store).insertAll types = s at hfresh htypes
  subst htypes
  exact wp_finalize (s.map_id_walkAll ▸ h.handles) hfresh.nodup fun u hu =>
    hstatus u (Store.holds_iff_mem_walkAll.mp hu)

/-- When the flags of the last step leave a cycle. The types may be nested and refer to each other in
any way. The step ends without failure, and whichever roots make up a module, the module fails for a
cycle exactly when its roots need each other in a cycle by references that do not lead back to the
types that declare them. When no nested type has the name of a root, these are references of nested
types that their roots do not lead to. -/
theorem finalize_leaves_cycle_iff (config : Config) (h : WellBound types)
    (hnames : (types.map (·.qname)).Nodup)
    (hstatus : ∀ u ∈ walkAll types, u.status < .finalizing) :
    wp (Step.finalize.run false)
      (fun _ s' => s'.types.map (·.qname) = types.map (·.qname) ∧ Flagged s'.types ∧
        ∀ registry part, part.Sublist s'.types →
          (FailsForCycle registry part ↔ ∃ a, TransGen (OpenStep s'.types part) a a) ∧
          ((∀ u ∈ walkAll types, ∀ root ∈ types, u.qname = root.qname → u = root) →
            (FailsForCycle registry part ↔ ∃ a, TransGen (HiddenStep s'.types part) a a)))
      (fun _ _ => False) (({ config } : Store).insertAll types) := by
  refine wp_mono (wp_finalize_insertAll config h hstatus) ?_ fun _ _ hfalse => hfalse
  intro _ s' htypes
  have hqnames : s'.types.map (·.qname) = types.map (·.qname) := by
    rw [htypes, List.map_map]
    exact List.map_congr_left fun t _ => mapTree_finalized_qname _ t
  have hflagged : Flagged s'.types := by
    have hflagged := flagged_finalized (({ config } : Store).insertAll types)
    rwa [h.types_insertAll config, ← htypes] at hflagged
  have hbound : DependenciesBound s'.types := htypes ▸ h.dependenciesBound
  refine ⟨hqnames, hflagged, fun registry part hpart => ?_⟩
  have hopen : FailsForCycle registry part ↔ ∃ a, TransGen (OpenStep s'.types part) a a :=
    failsForCycle_iff_open hflagged hbound hpart.subset
      ((hpart.map _).nodup (hqnames ▸ hnames))
  refine ⟨hopen, fun hnested => hopen.trans ?_⟩
  exact exists_open_cycle_iff hbound (htypes ▸ h.boundByName hnested) hpart.subset

namespace Hidden

/-- Nothing refers to its inner type, which needs the second root. -/
def first : SchemaType :=
  { id := 1, qname := ⟨"urn:t", "A"⟩
    inner := [
      { id := 2, qname := ⟨"urn:t", "X"⟩
        fields := [{ name := "b", types := [{ qname := ⟨"urn:t", "B"⟩, reference := 3 }] }] }] }

/-- Nothing refers to its inner type, which needs the first root. -/
def second : SchemaType :=
  { id := 3, qname := ⟨"urn:t", "B"⟩
    inner := [
      { id := 4, qname := ⟨"urn:t", "Y"⟩
        fields := [{ name := "a", types := [{ qname := ⟨"urn:t", "A"⟩, reference := 1 }] }] }] }

theorem wellBound : WellBound [first, second] where
  handles := by decide
  nonzero := by decide
  bound := by
    simp only [← mem_fieldTypes_iff]
    decide

/-- The flags do not always prevent cycles: here neither reference leads back to the inner type that
declares it, so neither is flagged, and the two roots need each other. -/
theorem finalize_leaves_cycle :
    WellBound [first, second] ∧ ([first, second].map (·.qname)).Nodup ∧
    (∀ u ∈ walkAll [first, second], u.status < .finalizing) ∧
    wp (Step.finalize.run false) (fun _ s' => FailsForCycle [] s'.types) (fun _ _ => False)
      (({} : Store).insertAll [first, second]) := by
  have hstatus : ∀ u ∈ walkAll [first, second], u.status < .finalizing := by decide
  refine ⟨wellBound, by decide, hstatus, ?_⟩
  refine wp_mono (wp_finalize_insertAll {} wellBound hstatus) ?_ fun _ _ hfalse => hfalse
  intro _ s' htypes
  refine ⟨"cycle detected: nodes [0 1]", [], ?_⟩
  rw [htypes]
  decide +kernel

theorem finalize_leaves_cycle_iff_hidden :
    WellBound [first, second] ∧ ([first, second].map (·.qname)).Nodup ∧
    (∀ u ∈ walkAll [first, second], u.status < .finalizing) ∧
    wp (Step.finalize.run false)
      (fun _ s' => FailsForCycle [] s'.types ↔ ∃ a, TransGen (HiddenStep s'.types s'.types) a a)
      (fun _ _ => False) (({} : Store).insertAll [first, second]) := by
  have hstatus : ∀ u ∈ walkAll [first, second], u.status < .finalizing := by decide
  refine ⟨wellBound, by decide, hstatus, ?_⟩
  refine wp_mono (finalize_leaves_cycle_iff {} wellBound (by decide) hstatus) ?_
    fun _ _ hfalse => hfalse
  rintro _ s' ⟨-, -, hcycle⟩
  refine (hcycle [] s'.types (.refl _)).2 fun u hu root hroot => ?_
  simp only [walkAll, walk, first, second, List.cons_append, List.nil_append, List.append_nil,
    List.mem_cons, List.not_mem_nil, or_false] at hu hroot
  obtain rfl | rfl | rfl | rfl := hu <;> obtain rfl | rfl := hroot <;> simp

end Hidden

end Schemata
