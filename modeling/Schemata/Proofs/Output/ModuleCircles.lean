import Schemata.Proofs.Output.Clusters

/-!
# Modules that depend on each other

A module depends on another one when a root in it uses a root in the other. Designation compares the
modules of roots that lead to each other, so no circle of references leads through several modules.
Modules can be circular nevertheless: the references that close the circle may start at other roots
than those that it has come to. Where a module holds nothing but roots that lead to each other this
cannot happen, and where modules are by namespace or by location nothing prevents it.
-/

namespace Schemata

open Compile Relation SchemaType

variable {s s' : Store} {e e' : Entry} {moduleOf : Entry → ModuleId} {scope scope' : Entry → String}

namespace Store

/-- Of the groups into which a function puts the roots, one depends on another. -/
def DependsOn (s : Store) (scope : Entry → String) (p p' : String) : Prop :=
  p ≠ p' ∧ ∃ e e', s.Uses e e' ∧ scope e = p ∧ scope e' = p'

/-- The groups into which a function puts the roots depend on each other in a circle. -/
def Circular (s : Store) (scope : Entry → String) : Prop :=
  ∃ p, TransGen (s.DependsOn scope) p p

theorem circular_congr (hscope : ∀ e ∈ s.roots, scope e = scope' e) :
    s.Circular scope ↔ s.Circular scope' := by
  have hedges : s.DependsOn scope = s.DependsOn scope' := by
    funext p p'
    refine propext (and_congr_right fun _ => exists_congr fun e => exists_congr fun e' =>
      and_congr_right fun huses => ?_)
    rw [hscope e huses.1, hscope e' huses.2.1]
  rw [Circular, Circular, hedges]

theorem Places.circular_iff (hs' : s.Places moduleOf s') :
    s'.Circular (·.type.modulePath) ↔ s.Circular fun e => (moduleOf e).path := by
  have hedges : s'.DependsOn (·.type.modulePath) = s.DependsOn fun e => (moduleOf e).path := by
    funext p p'
    refine propext (and_congr_right fun _ => ?_)
    simp only [hs'.uses_iff]
    constructor
    · rintro ⟨_, _, ⟨e, e', huses, rfl, rfl⟩, rfl, rfl⟩
      exact ⟨e, e', huses, (e.modulePath_placed _).symm, (e'.modulePath_placed _).symm⟩
    · rintro ⟨e, e', huses, rfl, rfl⟩
      exact ⟨_, _, ⟨e, e', huses, rfl, rfl⟩, e.modulePath_placed _, e'.modulePath_placed _⟩
  rw [Circular, Circular, hedges]

theorem not_circular_const (p : String) : ¬ s.Circular fun _ => p := by
  rintro ⟨q, hcircle⟩
  obtain ⟨_, ⟨hne, e, e', -, hp, hp'⟩, -⟩ := TransGen.head'_iff.mp hcircle
  exact hne (hp.symm.trans hp')

/-- A way between groups can be gone from any root of the first one, if the roots of a group lead to
each other. -/
theorem exists_reflTransGen_uses
    (hscope : ∀ e ∈ s.roots, ∀ e' ∈ s.roots, scope e = scope e' → Mutual s.Uses e e') {p p' : String}
    (hway : ReflTransGen (s.DependsOn scope) p p') (he : e ∈ s.roots) (hp : scope e = p) :
    ∃ e' ∈ s.roots, scope e' = p' ∧ ReflTransGen s.Uses e e' := by
  induction hway with
  | refl => exact ⟨e, he, hp, .refl⟩
  | tail _ hstep ih =>
    obtain ⟨d, hd, hscoped, hleads⟩ := ih
    obtain ⟨-, a, b, huses, ha, rfl⟩ := hstep
    have hmutual := hscope d hd a huses.1 (hscoped.trans ha.symm)
    exact ⟨b, huses.2.1, rfl, (hleads.trans hmutual.1).tail huses⟩

/-- Groups of the roots that lead to each other are never circular. -/
theorem Clustered.not_circular (hs : s.Clustered moduleOf) :
    ¬ s.Circular fun e => (moduleOf e).path := by
  rintro ⟨p, hcircle⟩
  obtain ⟨_, ⟨hne, e, e', huses, rfl, rfl⟩, hback⟩ := TransGen.head'_iff.mp hcircle
  -- the circle leads back to the group of its first root, and so to that root
  obtain ⟨d, hd, hscoped, hleads⟩ := exists_reflTransGen_uses
    (fun e he e' he' => (hs e he e' he').mp) hback huses.2.1 rfl
  have hmutual := (hs d hd e huses.1).mp hscoped
  exact hne ((hs e huses.1 e' huses.2.1).mpr ⟨.single huses, hleads.trans hmutual.1⟩)

/-- The layouts that take the module of a root from its namespace or its location. -/
def ByOrigin (s : Store) : Prop :=
  s.config.output.layout = .filenames ∨ s.config.output.layout = .namespaces

/-- Roots that lead to each other cannot share a module: they are of different namespaces where
clusters are in the packages of their namespaces, or belong to different modules by their origin. -/
def Torn (s : Store) : Prop :=
  s.config.output.layout = .namespaceClusters ∧ s.MixesNamespaces ∨
    s.ByOrigin ∧ ∃ e ∈ s.roots, ∃ e' ∈ s.roots, Mutual s.Uses e e' ∧ s.scopeOf e ≠ s.scopeOf e'

/-- Modules by origin are the scopes of names. -/
theorem LaidOut.path_eq_scopeOf (hlaid : s.LaidOut moduleOf) (horigin : s.ByOrigin) :
    ∀ e ∈ s.roots, (moduleOf e).path = s.scopeOf e := by
  rcases horigin with hlayout | hlayout
  all_goals simpa only [LaidOut, hlayout] using hlaid

/-- All other modules separate no roots that lead to each other, and are not circular. -/
theorem LaidOut.united (hlaid : s.LaidOut moduleOf) (horigin : ¬ s.ByOrigin) :
    (∀ e ∈ s.roots, ∀ e' ∈ s.roots, Mutual s.Uses e e' → (moduleOf e).path = (moduleOf e').path) ∧
      (¬ s.Circular fun e => (moduleOf e).path) ∧
      ¬ (s.config.output.layout = .namespaceClusters ∧ s.MixesNamespaces) := by
  have hclustered : s.Clustered moduleOf → (∀ e ∈ s.roots, ∀ e' ∈ s.roots,
      Mutual s.Uses e e' → (moduleOf e).path = (moduleOf e').path) ∧
      ¬ s.Circular fun e => (moduleOf e).path :=
    fun hs => ⟨fun e he e' he' => (hs e he e' he').mpr, hs.not_circular⟩
  unfold LaidOut at hlaid
  cases hlayout : s.config.output.layout with
  | single =>
    simp only [hlayout] at hlaid
    have hpath : ∀ e ∈ s.roots, (moduleOf e).path = (ModuleId.ofPath s.config.output.package).path :=
      fun e he => congrArg ModuleId.path (hlaid e he)
    refine ⟨fun e he e' he' _ => (hpath e he).trans (hpath e' he').symm, ?_, fun hmixed => nomatch hmixed.1⟩
    rw [circular_congr hpath]
    exact not_circular_const _
  | clusters =>
    simp only [hlayout] at hlaid
    obtain ⟨hunited, hcircular⟩ := hclustered hlaid
    exact ⟨hunited, hcircular, fun hmixed => nomatch hmixed.1⟩
  | namespaceClusters =>
    simp only [hlayout] at hlaid
    obtain ⟨hunited, hcircular⟩ := hclustered hlaid.1
    exact ⟨hunited, hcircular, fun hmixed => hlaid.2 hmixed.2⟩
  | filenames => exact absurd (.inl hlayout) horigin
  | namespaces => exact absurd (.inr hlayout) horigin

end Store

/-- Designation fails exactly for roots that lead to each other and cannot share a module. When it
succeeds, no circle of references leads through several modules; the modules themselves are circular
exactly when they are by namespace or by location and the namespaces or locations are. -/
theorem designate_leaves_circle_iff (hkeys : (s.roots.map (·.key)).Nodup) (hhandles : s.handles.Nodup) :
    wp designate
      (fun _ s' => ¬ s.Torn ∧ (∃ moduleOf, s.Places moduleOf s') ∧
        (∀ e ∈ s'.roots, ∀ e' ∈ s'.roots, Mutual s'.Uses e e' → e.type.modulePath = e'.type.modulePath) ∧
        (s'.Circular (·.type.modulePath) ↔ s.ByOrigin ∧ s.Circular s.scopeOf))
      (fun f _ => f.ReportsCircle ∧ s.Torn) s := by
  refine wp_mono (laidOut_designate hkeys hhandles) ?_ ?_
  · rintro _ s' ⟨moduleOf, hlaid, hplaces, hunited⟩
    have hwhole : ∀ e ∈ s'.roots, ∀ e' ∈ s'.roots, Mutual s'.Uses e e' →
        e.type.modulePath = e'.type.modulePath := by
      intro a ha b hb hmutual
      rw [hplaces] at ha hb
      obtain ⟨e, he, rfl⟩ := List.mem_map.mp ha
      obtain ⟨e', he', rfl⟩ := List.mem_map.mp hb
      rw [e.modulePath_placed, e'.modulePath_placed]
      exact hunited e he e' he' ((hplaces.mutual_iff hkeys he he').mp hmutual)
    rw [hplaces.circular_iff]
    by_cases horigin : s.ByOrigin
    · have hpath := hlaid.path_eq_scopeOf horigin
      rw [Store.circular_congr hpath]
      refine ⟨?_, ⟨moduleOf, hplaces⟩, hwhole, (and_iff_right horigin).symm⟩
      rintro (⟨hlayout, -⟩ | ⟨-, e, he, e', he', hmutual, hne⟩)
      · rcases horigin with horigin | horigin
        all_goals exact nomatch hlayout.symm.trans horigin
      · exact hne (hpath e he ▸ hpath e' he' ▸ hunited e he e' he' hmutual)
    · obtain ⟨-, hcircular, hunmixed⟩ := hlaid.united horigin
      refine ⟨?_, ⟨moduleOf, hplaces⟩, hwhole, iff_of_false hcircular fun h => horigin h.1⟩
      exact fun htorn => htorn.elim hunmixed fun h => horigin h.1
  · rintro f _ ⟨hreports, hmixed | ⟨moduleOf, hlaid, e, he, e', he', hmutual, hne⟩⟩
    · exact ⟨hreports, .inl hmixed⟩
    · refine ⟨hreports, .inr ?_⟩
      by_cases horigin : s.ByOrigin
      · have hpath := hlaid.path_eq_scopeOf horigin
        exact ⟨horigin, e, he, e', he', hmutual, hpath e he ▸ hpath e' he' ▸ hne⟩
      · exact absurd ((hlaid.united horigin).1 e he e' he' hmutual) hne

namespace Interlocked

/-- Each of two namespaces has a root that uses one of the other. -/
def order : SchemaType :=
  { id := 1, qname := ⟨"urn:a", "Order"⟩, tag := .complexType
    fields := [{ name := "price", tag := .element, types := [{ qname := ⟨"urn:b", "Price"⟩, reference := 2 }] }] }

def price : SchemaType :=
  { id := 2, qname := ⟨"urn:b", "Price"⟩, tag := .complexType }

def invoice : SchemaType :=
  { id := 3, qname := ⟨"urn:b", "Invoice"⟩, tag := .complexType
    fields := [{ name := "address", tag := .element, types := [{ qname := ⟨"urn:a", "Address"⟩, reference := 4 }] }] }

def address : SchemaType :=
  { id := 4, qname := ⟨"urn:a", "Address"⟩, tag := .complexType }

def store (layout : Structure) : Store :=
  ({ config := { output := { layout := layout } } } : Store).insertAll [order, price, invoice, address]

/-- Designation does not rule out circular modules: no root leads back to itself here, but the modules
of the two namespaces depend on each other. -/
theorem designate_leaves_circle :
    wp designate (fun _ s' => s'.Circular (·.type.modulePath)) (fun _ _ => False) (store .namespaces) := by
  have hsucceeds : wp designate (fun _ _ => True) (fun _ _ => False) (store .namespaces) := by
    decide +kernel
  have hlaidOut := laidOut_designate (s := store .namespaces) (by decide) (by decide)
  refine wp_mono (wp_and hsucceeds hlaidOut) ?_ fun _ _ h => h.1
  rintro _ s' ⟨-, moduleOf, hlaid, hplaces, -⟩
  rw [hplaces.circular_iff, Store.circular_congr hlaid]
  have hthere : (store .namespaces).DependsOn (store .namespaces).scopeOf "generated.a" "generated.b" :=
    ⟨by decide, ⟨0, order⟩, ⟨1, price⟩, ⟨.head _, .tail _ (.head _), by decide⟩, by decide, by decide⟩
  have hback : (store .namespaces).DependsOn (store .namespaces).scopeOf "generated.b" "generated.a" :=
    ⟨by decide, ⟨2, invoice⟩, ⟨3, address⟩,
      ⟨.tail _ (.tail _ (.head _)), .tail _ (.tail _ (.tail _ (.head _))), by decide⟩, by decide, by decide⟩
  exact ⟨_, .tail (.single hthere) hback⟩

theorem designate_clusters_apart :
    wp designate
      (fun _ s' => ¬ (store .clusters).Torn ∧ (∃ moduleOf, (store .clusters).Places moduleOf s') ∧
        (∀ e ∈ s'.roots, ∀ e' ∈ s'.roots, Mutual s'.Uses e e' → e.type.modulePath = e'.type.modulePath) ∧
        (s'.Circular (·.type.modulePath) ↔
          (store .clusters).ByOrigin ∧ (store .clusters).Circular (store .clusters).scopeOf))
      (fun f _ => f.ReportsCircle ∧ (store .clusters).Torn) (store .clusters) :=
  designate_leaves_circle_iff (by decide) (by decide)

end Interlocked

end Schemata
