import Schemata.Pipeline.Stage
import Schemata.Proofs.Content.Sequences
import Schemata.Proofs.Digraph.Keyed
import Schemata.Proofs.Step.Independent

/-!
# Circular references

The last step flags a dependency as circular exactly when its target leads back to the type that
declares it. References lead from type to type; those of a nested type also lead from its root, but
nothing leads from a root to what is nested in it unless a reference does. The flags do not depend on
the order in which the types are worked on.
-/

namespace Schemata

open Compile SchemaType Relation

variable {types : List SchemaType} {s : Store} {t u : SchemaType} {ft : FieldType}

/-- A type, or a root that the type is nested in, is bound to another type by a reference. -/
def BoundTo (types : List SchemaType) (a b : Handle) : Prop :=
  ∃ root ∈ types, ∃ u, Within u root ∧ (a = u.id ∨ a = root.id) ∧
    ∃ ft, u.Declares ft ∧ ft.native = false ∧ ft.reference ≠ 0 ∧ ft.reference = b

/-- References lead from one type to another, or it is the same type. -/
def LeadsTo (types : List SchemaType) : Handle → Handle → Prop :=
  ReflTransGen (BoundTo types)

-- ---------------------------------------------------------------------------
-- The graph
-- ---------------------------------------------------------------------------

theorem mem_boundRefs_iff {b : Handle} : b ∈ t.boundRefs ↔
    ∃ ft, t.Declares ft ∧ ft.native = false ∧ ft.reference ≠ 0 ∧ ft.reference = b := by
  simp [boundRefs, mem_fieldTypes_iff, and_assoc]

/-- The edges that one reference of a type of a tree adds. -/
theorem addReference_represents {g : KeyedGraph Handle} {E : Handle → Handle → Prop}
    (hg : ∃ V, g.Represents V E) (root own ref : Handle) :
    ∃ V, (if own = root then g.addEdge own ref
      else (g.addEdge own ref).addEdge root ref).Represents V
        (fun a b => E a b ∨ (a = own ∨ a = root) ∧ b = ref) := by
  obtain ⟨V, hV⟩ := hg
  have hedge := hV.addEdge own ref
  split
  case isTrue hroot => exact ⟨_, hedge.congr (fun _ => .rfl) (by simp [hroot])⟩
  case isFalse =>
    refine ⟨_, (hedge.addEdge root ref).congr (fun _ => .rfl) fun a b => ?_⟩
    rw [or_and_right, or_assoc]

/-- The edges that a type of a tree adds. -/
theorem addReferences_represents {g : KeyedGraph Handle} {E : Handle → Handle → Prop}
    (hg : ∃ V, g.Represents V E) (root : Handle) (u : SchemaType) :
    ∃ V, (addReferences root g u).Represents V
      (fun a b => E a b ∨ (a = u.id ∨ a = root) ∧ b ∈ u.boundRefs) := by
  obtain ⟨V, hg⟩ := hg
  unfold addReferences
  generalize u.boundRefs = refs
  have hstart : ∃ V, (g.addNode u.id).Represents V E := ⟨_, hg.addNode u.id⟩
  generalize g.addNode u.id = g' at hstart
  clear hg
  induction refs generalizing g' E with
  | nil =>
    obtain ⟨V, hV⟩ := hstart
    exact ⟨V, hV.congr (fun _ => .rfl) (by simp)⟩
  | cons ref refs ih =>
    obtain ⟨V, hV⟩ := ih _ (addReference_represents hstart root u.id ref)
    refine ⟨V, hV.congr (fun _ => .rfl) fun a b => ?_⟩
    rw [List.mem_cons, and_or_left, or_assoc]

theorem foldl_addReferences_represents {g : KeyedGraph Handle} {E : Handle → Handle → Prop}
    (hg : ∃ V, g.Represents V E) (root : Handle) (us : List SchemaType) :
    ∃ V, (us.foldl (addReferences root) g).Represents V
      (fun a b => E a b ∨ ∃ u ∈ us, (a = u.id ∨ a = root) ∧ b ∈ u.boundRefs) := by
  induction us generalizing g E with
  | nil =>
    obtain ⟨V, hV⟩ := hg
    exact ⟨V, hV.congr (fun _ => .rfl) (by simp)⟩
  | cons u us ih =>
    obtain ⟨V, hV⟩ := ih (addReferences_represents hg root u)
    refine ⟨V, hV.congr (fun _ => .rfl) fun a b => ?_⟩
    simp only [List.mem_cons, exists_eq_or_imp, or_assoc]

theorem foldl_roots_represents {g : KeyedGraph Handle} {E : Handle → Handle → Prop}
    (hg : ∃ V, g.Represents V E) (types : List SchemaType) :
    ∃ V, (types.foldl (fun g root => root.walk.foldl (addReferences root.id) g) g).Represents V
      (fun a b => E a b ∨ BoundTo types a b) := by
  induction types generalizing g E with
  | nil =>
    obtain ⟨V, hV⟩ := hg
    exact ⟨V, hV.congr (fun _ => .rfl) (by simp [BoundTo])⟩
  | cons root types ih =>
    obtain ⟨V, hV⟩ := ih (foldl_addReferences_represents hg root.id root.walk)
    refine ⟨V, hV.congr (fun _ => .rfl) fun a b => ?_⟩
    simp only [BoundTo, List.mem_cons, exists_eq_or_imp, or_assoc, mem_walk_iff, mem_boundRefs_iff]

theorem referenceGraph_represents (s : Store) :
    ∃ V, s.referenceGraph.Represents V (BoundTo s.types) := by
  obtain ⟨V, hV⟩ := foldl_roots_represents ⟨_, KeyedGraph.Represents.empty⟩ s.types
  exact ⟨V, hV.congr (fun _ => .rfl) (by simp)⟩

/-- A bound reference is circular exactly when its target leads back. -/
theorem isCircular_iff {declaring target : Handle} (hbound : target ≠ 0) :
    isCircular s.referenceGraph declaring target = true ↔ LeadsTo s.types target declaring := by
  obtain ⟨V, hV⟩ := referenceGraph_represents s
  simp only [isCircular, Bool.and_eq_true, bne_iff_ne, ne_eq, hbound, not_false_eq_true, true_and,
    Bool.or_eq_true, beq_iff_eq, hV.reachable_iff, LeadsTo, reflTransGen_iff_eq_or_transGen,
    eq_comm (a := declaring)]

-- ---------------------------------------------------------------------------
-- The step
-- ---------------------------------------------------------------------------

/-- What the last step makes of a type. -/
def finalized (g : KeyedGraph Handle) (t : SchemaType) : SchemaType :=
  { (({ t with status := .finalizing } : SchemaType).flagCircular g).renumberFields with
    status := .finalized }

theorem shallow_finalized (g : KeyedGraph Handle) : Shallow (finalized g) where
  id _ := rfl
  withInner _ _ := rfl

/-- Working on a type in the last step changes nothing but the type. -/
theorem wp_finalize_apply {rounds : Nat} {finder : Finder} {h : Handle} {Q : Unit → Store → Prop}
    (hQ : Q () (s.update h (finalized s.memory.references))) :
    wp (Step.finalize.apply rounds finder h) Q (fun _ _ => False) s := by
  have hfuse : ∀ (f g : SchemaType → SchemaType) (s : Store), (∀ t, (f t).id = t.id) →
      (s.update h f).update h g = s.update h (g ∘ f) := by
    intro f g s hf
    simp only [Store.update, List.map_map, Function.comp_def, updateAt_updateAt hf]
  simp only [Step.apply, Step.finalize, runPasses, Pass.flagCircular, Pass.renumberFields,
    Pass.onType, wp_bind, wp_update, wp_tryCatch, wp_get, wp_pure]
  rw [hfuse, hfuse, hfuse]
  · exact hQ
  · exact fun _ => rfl
  · exact fun _ => rfl
  · exact fun _ => rfl

theorem independent_finalize (hs : s.handles.Nodup)
    (hpending : ∀ u, s.Holds u → u.status < .finalizing) (rounds : Nat) (finder : Finder) :
    Independent .finalizing (finalized s.memory.references) s
      (Step.finalize.apply rounds finder) where
  handles := hs
  shallow := shallow_finalized _
  pending := hpending
  done u := by
    change ¬ Status.finalized < Status.finalizing
    decide
  apply hmemory hQ := wp_finalize_apply (by rwa [hmemory])

theorem wp_finalize_prepare {Q : Unit → Store → Prop} {E : Failure → Store → Prop} :
    wp (Step.finalize.passes.forM Pass.prepare) Q E s ↔
      Q () { s with memory.references := s.referenceGraph } := by
  simp only [Step.finalize, List.forM_eq_forM, List.forM_cons, List.forM_nil, Pass.flagCircular,
    Pass.renumberFields, Pass.onType, wp_bind, wp_modify, wp_pure]

/-- One sweep over all roots is enough. -/
theorem wp_finalize_sweep (hs : s.handles.Nodup) (hkeys : (s.roots.map (·.key)).Nodup)
    (hpending : ∀ u, s.Holds u → u.status < .finalizing) (n number : Nat) :
    wp (Step.finalize.sweepRoots (n + 2) (s.roots.map (·.key)))
      (fun _ => wp (Step.finalize.sweep (n + 2) false (n + 1) number)
        (fun _ s' => s'.types = s.types.map (mapTree (finalized s.memory.references)))
        (fun _ _ => False))
      (fun _ _ => False) s := by
  refine wp_mono (Independent.sweepRoots rfl (independent_finalize hs hpending (n + 2) .plain) hkeys
    s.roots (List.Subset.refl _) (Reached.start _ _)) ?_ fun _ _ hfalse => hfalse
  rintro _ s' ⟨D, hr, -, hD⟩
  have htypes := hr.types_of_all hD
  have hnone : s'.roots.filter (·.type.status < Step.finalize.busy) = [] := by
    refine List.filter_eq_nil_iff.mpr fun e he => ?_
    have hmem : e.type ∈ s'.types := List.mem_map_of_mem he
    rw [htypes] at hmem
    obtain ⟨t, -, ht⟩ := List.mem_map.mp hmem
    rw [← ht, (shallow_finalized _).mapTree_eq_withInner]
    change ¬ decide (Status.finalized < Status.finalizing) = true
    decide
  rw [Step.sweep, wp_bind, wp_get, hnone]
  simpa using htypes

/-- The last step finalizes every type, with the references as they are before. -/
theorem wp_finalize (hs : s.handles.Nodup) (hkeys : (s.roots.map (·.key)).Nodup)
    (hpending : ∀ u, s.Holds u → u.status < .finalizing) :
    wp (Step.finalize.run false)
      (fun _ s' => s'.types = s.types.map (mapTree (finalized s.referenceGraph)))
      (fun _ _ => False) s := by
  refine wp_run fun bound hbound _ => ?_
  obtain ⟨n, rfl⟩ : ∃ n, bound = n + 2 := ⟨bound - 2, by omega⟩
  have hall : s.roots.filter (·.type.status < Step.finalize.busy) = s.roots :=
    List.filter_eq_self.mpr fun e he => decide_eq_true
      (hpending e.type (Store.holds_of_mem_types (List.mem_map_of_mem he)))
  rw [Step.runWithin, wp_bind, wp_modify, Step.sweep, wp_bind, wp_get]
  dsimp only
  rw [hall]
  split
  case isTrue hnone =>
    rw [List.isEmpty_iff, List.map_eq_nil_iff] at hnone
    rw [wp_pure]
    simp [Store.types, hnone]
  case isFalse =>
    simp only [Bool.false_eq_true, if_false, wp_bind, wp_finalize_prepare, wp_modify]
    generalize hstart : Store.record _ _ = start
    have hroots : start.roots = s.roots := by rw [← hstart]; rfl
    have htypes : start.types = s.types := congrArg (List.map Entry.type) hroots
    have hgraph : start.memory.references = s.referenceGraph := by rw [← hstart]; rfl
    rw [← hroots, ← htypes, ← hgraph]
    refine wp_finalize_sweep ?_ (hroots ▸ hkeys) (fun u hu => hpending u ?_) n _
    · rw [Store.handles, htypes]
      exact hs
    · rw [Store.Holds, htypes] at hu
      exact hu

-- ---------------------------------------------------------------------------
-- Flags
-- ---------------------------------------------------------------------------

/-- A reference with its flag, as a type declares it. -/
def FieldType.flagged (ft : FieldType) (g : KeyedGraph Handle) (declaring : Handle) : FieldType :=
  if ft.native || ft.forward then ft
  else { ft with circular := isCircular g declaring ft.reference }

@[simp] theorem FieldType.flagged_native (g : KeyedGraph Handle) (h : Handle) :
    (ft.flagged g h).native = ft.native := by
  unfold flagged
  split <;> rfl

@[simp] theorem FieldType.flagged_reference (g : KeyedGraph Handle) (h : Handle) :
    (ft.flagged g h).reference = ft.reference := by
  unfold flagged
  split <;> rfl

@[simp] theorem FieldType.flagged_isDependency (g : KeyedGraph Handle) (h : Handle) :
    (ft.flagged g h).isDependency = ft.isDependency := by
  unfold flagged
  split <;> rfl

@[simp] theorem FieldType.flagged_qname (g : KeyedGraph Handle) (h : Handle) :
    (ft.flagged g h).qname = ft.qname := by
  unfold flagged
  split <;> rfl

theorem FieldType.flagged_circular (hdep : ft.isDependency = true) (g : KeyedGraph Handle)
    (h : Handle) : (ft.flagged g h).circular = isCircular g h ft.reference := by
  have hnot : (ft.native || ft.forward) = false := by
    simpa [isDependency] using hdep
  simp [flagged, hnot]

theorem declares_renumberFields_iff : t.renumberFields.Declares ft ↔ t.Declares ft := by
  rw [← mem_fieldTypes_iff, ← mem_fieldTypes_iff, fieldTypes_renumberFields]

theorem declares_finalized_iff {g : KeyedGraph Handle} :
    (u.mapTree (finalized g)).Declares ft ↔ ∃ ft', u.Declares ft' ∧ ft'.flagged g u.id = ft := by
  rw [(shallow_finalized g).mapTree_eq_withInner]
  change (({ u with status := .finalizing } : SchemaType).flagCircular g).renumberFields.Declares ft ↔ _
  rw [declares_renumberFields_iff, flagCircular, declares_mapFieldTypes_iff]
  rfl

/-- What flags references and changes nothing else about them leaves the bindings as they are. -/
theorem boundTo_mapTree_iff {g : KeyedGraph Handle} {F : SchemaType → SchemaType} (hF : Shallow F)
    (hdeclares : ∀ (u : SchemaType) (ft : FieldType),
      (u.mapTree F).Declares ft ↔ ∃ ft', u.Declares ft' ∧ ft'.flagged g u.id = ft)
    {a b : Handle} : BoundTo (types.map (mapTree F)) a b ↔ BoundTo types a b := by
  have hid := hF.mapTree_id
  constructor
  · rintro ⟨_, hroot, _, hu, ha, _, hft, hnative, hne, hb⟩
    obtain ⟨root, hroot₀, rfl⟩ := List.mem_map.mp hroot
    obtain ⟨u, hu₀, rfl⟩ := hF.within_mapTree_iff.mp hu
    obtain ⟨ft, hft₀, rfl⟩ := (hdeclares u _).mp hft
    rw [hid, hid] at ha
    simp only [FieldType.flagged_native, FieldType.flagged_reference] at hnative hne hb
    exact ⟨root, hroot₀, u, hu₀, ha, ft, hft₀, hnative, hne, hb⟩
  · rintro ⟨root, hroot, u, hu, ha, ft, hft, hnative, hne, hb⟩
    rw [← hid root, ← hid u] at ha
    refine ⟨_, List.mem_map_of_mem hroot, _, hF.within_mapTree hu, ha, _,
      (hdeclares u _).mpr ⟨ft, hft, rfl⟩, ?_⟩
    simp only [FieldType.flagged_native, FieldType.flagged_reference]
    exact ⟨hnative, hne, hb⟩

theorem leadsTo_mapTree_eq {g : KeyedGraph Handle} {F : SchemaType → SchemaType} (hF : Shallow F)
    (hdeclares : ∀ (u : SchemaType) (ft : FieldType),
      (u.mapTree F).Declares ft ↔ ∃ ft', u.Declares ft' ∧ ft'.flagged g u.id = ft) :
    LeadsTo (types.map (mapTree F)) = LeadsTo types :=
  congrArg ReflTransGen (funext fun _ => funext fun _ => propext (boundTo_mapTree_iff hF hdeclares))

/-- Every bound dependency is flagged exactly when its target leads back to the type that declares
it. -/
def Flagged (types : List SchemaType) : Prop :=
  ∀ root ∈ types, ∀ u, Within u root → ∀ ft, u.Declares ft → ft.isDependency = true →
    ft.reference ≠ 0 → (ft.circular = true ↔ LeadsTo types ft.reference u.id)

theorem flagged_finalized (s : Store) :
    Flagged (s.types.map (mapTree (finalized s.referenceGraph))) := by
  intro _ hroot _ hu _ hft hdep hne
  obtain ⟨root, -, rfl⟩ := List.mem_map.mp hroot
  obtain ⟨u, -, rfl⟩ := (shallow_finalized _).within_mapTree_iff.mp hu
  obtain ⟨ft, -, rfl⟩ := declares_finalized_iff.mp hft
  rw [FieldType.flagged_isDependency] at hdep
  rw [FieldType.flagged_reference] at hne
  rw [FieldType.flagged_circular hdep, FieldType.flagged_reference, isCircular_iff hne,
    leadsTo_mapTree_eq (shallow_finalized _) fun _ _ => declares_finalized_iff,
    (shallow_finalized _).mapTree_id]

-- ---------------------------------------------------------------------------
-- Any order
-- ---------------------------------------------------------------------------

theorem shallow_flagCircular (g : KeyedGraph Handle) : Shallow (·.flagCircular g) where
  id _ := rfl
  withInner _ _ := rfl

theorem FieldType.flagged_flagged (g : KeyedGraph Handle) (h : Handle) :
    (ft.flagged g h).flagged g h = ft.flagged g h := by
  unfold flagged
  split <;> rfl

theorem flagCircular_eq (g : KeyedGraph Handle) (t : SchemaType) :
    t.flagCircular g = t.mapFieldTypes fun ft => ft.flagged g t.id := rfl

theorem flagCircular_flagCircular (g : KeyedGraph Handle) (t : SchemaType) :
    (t.flagCircular g).flagCircular g = t.flagCircular g := by
  rw [flagCircular_eq, flagCircular_eq, mapFieldTypes_mapFieldTypes]
  exact congrArg t.mapFieldTypes (funext fun ft => ft.flagged_flagged g t.id)

theorem declares_mapTree_flagCircular_iff {g : KeyedGraph Handle} (u : SchemaType) (ft : FieldType) :
    (u.mapTree (·.flagCircular g)).Declares ft ↔ ∃ ft', u.Declares ft' ∧ ft'.flagged g u.id = ft := by
  rw [(shallow_flagCircular g).mapTree_eq_withInner]
  exact declares_mapFieldTypes_iff

open Classical in
/-- Every dependency of the type is flagged exactly if it is bound and its target leads back to the
type; nothing else is touched. -/
noncomputable def SchemaType.exactlyFlagged (types : List SchemaType) (t : SchemaType) : SchemaType :=
  t.mapFieldTypes fun ft =>
    if ft.isDependency then
      { ft with circular := decide (ft.reference ≠ 0 ∧ LeadsTo types ft.reference t.id) }
    else ft

theorem flagCircular_referenceGraph (s : Store) (t : SchemaType) :
    t.flagCircular s.referenceGraph = t.exactlyFlagged s.types := by
  classical
  refine congrArg t.mapFieldTypes (funext fun ft => ?_)
  have hdep : ft.isDependency = !(ft.native || ft.forward) := by simp [FieldType.isDependency]
  have hcircular : isCircular s.referenceGraph t.id ft.reference =
      decide (ft.reference ≠ 0 ∧ LeadsTo s.types ft.reference t.id) := by
    by_cases hbound : ft.reference = 0
    · simp [isCircular, hbound]
    · rw [Bool.eq_iff_iff, isCircular_iff hbound, decide_eq_true_iff, and_iff_right hbound]
  rw [hdep, hcircular]
  cases ft.native || ft.forward
  · simp
  · simp

/-- Flagging the types once more, by the references as they are then, makes no difference. -/
theorem flagCircular_again {s' : Store}
    (hs' : s'.types = s.types.map (mapTree (·.flagCircular s.referenceGraph))) :
    ∀ t ∈ s'.types, ∀ u, Within u t → u.flagCircular s'.referenceGraph = u := by
  have hshallow := shallow_flagCircular s.referenceGraph
  have hleads : LeadsTo s'.types = LeadsTo s.types := by
    rw [hs', leadsTo_mapTree_eq hshallow declares_mapTree_flagCircular_iff]
  intro t ht u hu
  rw [hs'] at ht
  obtain ⟨t, -, rfl⟩ := List.mem_map.mp ht
  obtain ⟨u, -, rfl⟩ := hshallow.within_mapTree_iff.mp hu
  have hsame : ∀ v : SchemaType, v.flagCircular s'.referenceGraph = v.flagCircular s.referenceGraph := by
    intro v
    rw [flagCircular_referenceGraph, flagCircular_referenceGraph, exactlyFlagged, exactlyFlagged, hleads]
  rw [hsame, hshallow.mapTree_eq_withInner, hshallow.withInner, flagCircular_flagCircular]

/-- Prepares a pass and works on types one after the other. -/
def Pass.over (pass : Pass) (rounds : Nat) (finder : Finder) (order : List Handle) : Compile Unit := do
  pass.prepare
  order.forM (pass.run rounds finder)

theorem reached_flagCircular {start s' : Store} {D : List Handle} (hstart : start.handles.Nodup)
    (order : List Handle) (rounds : Nat) (finder : Finder)
    (hr : Reached start (·.flagCircular start.memory.references) D s') :
    wp (order.forM (Pass.flagCircular.run rounds finder))
      (fun _ s'' => Reached start (·.flagCircular start.memory.references) (order.reverse ++ D) s'')
      (fun _ _ => False) s' := by
  induction order generalizing D s' with
  | nil => simpa [wp_pure] using hr
  | cons h order ih =>
    have hnext := hr.update (h := h) (shallow_flagCircular _) hstart (.inr (flagCircular_flagCircular _))
    have hrest := ih hnext
    simp only [List.forM_eq_forM] at hrest
    simp only [List.forM_eq_forM, List.forM_cons, Pass.flagCircular, wp_bind, wp_get, wp_update,
      hr.memory, List.reverse_cons, List.append_assoc, List.singleton_append]
    exact hrest

theorem wp_over_flagCircular (hs : s.handles.Nodup) (rounds : Nat) (finder : Finder)
    (order : List Handle) :
    wp (Pass.flagCircular.over rounds finder order)
      (fun _ s' => s'.types = s.types.map (mapTree (upTo order.reverse (·.flagCircular s.referenceGraph))))
      (fun _ _ => False) s := by
  rw [Pass.over, wp_bind]
  change wp (modify fun s => { s with memory.references := s.referenceGraph }) _ _ s
  rw [wp_modify]
  generalize hstart : ({ s with memory.references := s.referenceGraph } : Store) = start
  have htypes : start.types = s.types := by rw [← hstart]; rfl
  have hgraph : start.memory.references = s.referenceGraph := by rw [← hstart]
  have hhandles : start.handles.Nodup := by rwa [Store.handles, htypes]
  refine wp_mono (reached_flagCircular hhandles order rounds finder (Reached.start _ _)) ?_ fun _ _ h => h
  intro _ s' hr
  rw [hr.types, htypes, hgraph, List.append_nil]

/-- Flagging all types, one after the other, flags exactly the dependencies that lead back, in whatever
order and however often it is done, and doing it all again changes nothing. As long as handles tell types
apart this is what the pass does when it is given all of them. -/
theorem flagCircular_exact (s : Store) {places : List (Nat × List Nat)}
    (hall : CoversAll places s.types) :
    places.foldl (changeAmong (·.flagCircular s.referenceGraph)) s.types =
      s.types.map (mapTree (exactlyFlagged s.types)) ∧
    (∀ s' : Store, s'.types = s.types.map (mapTree (exactlyFlagged s.types)) →
      ∀ again : List (Nat × List Nat),
      again.foldl (changeAmong (·.flagCircular s'.referenceGraph)) s'.types = s'.types) ∧
    (s.handles.Nodup → ∀ rounds finder order, s.handles ⊆ order →
      wp (Pass.flagCircular.over rounds finder order)
        (fun _ s' => s'.types = s.types.map (mapTree (exactlyFlagged s.types)) ∧ ∀ again,
          wp (Pass.flagCircular.over rounds finder again) (fun _ s'' => s''.types = s'.types)
            (fun _ _ => False) s')
        (fun _ _ => False) s) := by
  have hexact : (fun t : SchemaType => t.flagCircular s.referenceGraph) = exactlyFlagged s.types :=
    funext fun t => flagCircular_referenceGraph s t
  rw [← hexact]
  have hshallow := shallow_flagCircular s.referenceGraph
  refine ⟨hshallow.foldl_changeAmong (flagCircular_flagCircular _) hall, ?_, ?_⟩
  · exact fun s' hs' again => foldl_changeAmong_of_fixed (flagCircular_again hs') again
  · intro hs rounds finder order horder
    refine wp_mono (wp_over_flagCircular hs rounds finder order) ?_ fun _ _ h => h
    intro _ s' hs'
    have htypes : s'.types = s.types.map (mapTree (·.flagCircular s.referenceGraph)) := by
      rw [hs']
      refine List.map_congr_left fun t ht => mapTree_congr fun u hu => if_pos ?_
      exact List.mem_reverse.mpr (horder (List.mem_flatMap.mpr ⟨t, ht, hu⟩))
    refine ⟨htypes, fun again => ?_⟩
    have hhandles : s'.handles.Nodup := Store.handles_of_mapTree hshallow htypes ▸ hs
    refine wp_mono (wp_over_flagCircular hhandles rounds finder again) ?_ fun _ _ h => h
    intro _ s'' hs''
    rw [hs'']
    refine (List.map_congr_left fun t ht => mapTree_of_fixed fun u hu => ?_).trans (List.map_id _)
    unfold upTo
    split
    · exact flagCircular_again htypes t ht u hu
    · rfl

namespace Encircled

/-- It refers to the second root and to its inner type, which refers back. -/
def first : SchemaType :=
  { id := 1, qname := ⟨"urn:t", "A"⟩
    fields := [
      { name := "b", types := [{ qname := ⟨"urn:t", "B"⟩, reference := 3 }] },
      { name := "x", types := [{ qname := ⟨"urn:t", "X"⟩, reference := 2, forward := true }] }]
    inner := [
      { id := 2, qname := ⟨"urn:t", "X"⟩
        fields := [{ name := "a", types := [{ qname := ⟨"urn:t", "A"⟩, reference := 1 }] }] }] }

/-- Nothing refers back to it. -/
def second : SchemaType :=
  { id := 3, qname := ⟨"urn:t", "B"⟩ }

def store : Store := ({} : Store).insertAll [first, second]

/-- The nested type first, the first root twice. -/
def order : List (Nat × List Nat) := [(0, [0]), (0, []), (1, []), (0, [])]

theorem coversAll : CoversAll order [first, second] := by
  rintro ⟨n, way⟩ u hu
  match n, way with
  | 0, [] => decide
  | 0, [0] => decide
  | 1, [] => decide
  | 0, 0 :: _ :: _ => simp [among?, at?, first] at hu
  | 0, (n + 1) :: _ => simp [among?, at?, first] at hu
  | 1, _ :: _ => simp [among?, at?, second] at hu
  | n + 2, _ => simp [among?] at hu

/-- Only the reference of the nested type leads back to the type that declares it. -/
theorem flagCircular_exact_twice :
    CoversAll order store.types ∧
    order.foldl (changeAmong (·.flagCircular store.referenceGraph)) store.types =
      store.types.map (mapTree (exactlyFlagged store.types)) ∧
    (walkAll (order.foldl (changeAmong (·.flagCircular store.referenceGraph)) store.types)).map
      (fun t => t.fieldTypes.map (·.circular)) = [[false, false], [true], []] := by
  have htypes : store.types = [first, second] := rfl
  have hall : CoversAll order store.types := htypes ▸ coversAll
  exact ⟨hall, (flagCircular_exact store hall).1, by decide +kernel⟩

end Encircled

end Schemata
