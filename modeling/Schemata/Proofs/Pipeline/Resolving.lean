import Schemata.Pipeline.Stage
import Schemata.Proofs.Inherit.Steady
import Schemata.Proofs.Pipeline.Validation
import Schemata.Proofs.Step.Sequential
import Schemata.Proofs.Store.Dressed

/-!
# What the resolve step makes of a store

The resolve step changes nothing but the fields and the status of types. As long as what is inherited is
settled, what it makes of a type is said by the store that it starts with: `Reached` says how far it
has come with a type, the step keeps that of all types, and in the end every type has the fields that
`resolvedFields` gives.
-/

namespace Schemata

open Compile SchemaType

variable {α β : Type} {s₀ s s' s'' : Store} {d d' : Dress} {t u v : SchemaType} {h : Handle}
  {q : QName} {f g : Field} {fs : List Field} {active : Option Handle} {n : Nat}

namespace Store

/-- A store in which the step can begin. -/
structure Ready (s : Store) : Prop where
  sound : s.Sound
  index : s.IndexedByHandle
  pending : ∀ u, s.Holds u → u.status < .resolving
  sheltered : ∀ u, s.Holds u → u.Sheltered
  steady : s.Steady

/-- How far the step has come with a type. -/
inductive Reached (s₀ : Store) (u : SchemaType) : List Field × Status → Prop
  | waiting {status : Status} (hstatus : status < .resolving) : Reached s₀ u (u.fields, status)
  | busy {fs : List Field} (hmembers : u.hasEnumerations = false)
      (hfs : List.Forall₂ (s₀.Underway u) u.fields fs) : Reached s₀ u (fs, .resolving)
  | done : Reached s₀ u (s₀.resolvedFields u, .resolved)

namespace Reached

theorem fields_eq {dress : List Field × Status} (h : s₀.Reached u dress)
    (hwaiting : dress.2 < .resolving) : dress.1 = u.fields := by
  have hbusy : ¬ Status.resolving < .resolving := by decide
  have hdone : ¬ Status.resolved < .resolving := by decide
  cases h with
  | waiting => rfl
  | busy => exact absurd hwaiting hbusy
  | done => exact absurd hwaiting hdone

theorem shows {dress : List Field × Status} (h : s₀.Reached u dress) : s₀.Shows u dress.1 := by
  cases h with
  | waiting => exact .underway (List.forall₂_same.mpr fun f _ => .refl s₀ u f)
  | busy _ hfs => exact .underway hfs
  | done => exact .done rfl

/-- Whatever has been begun is an enumeration from then on if it is one in the end, with the same
members. -/
theorem isEnumeration (hsteady : s₀.Steady) (hu : s₀.Holds u) {dress : List Field × Status}
    (h : s₀.Reached u dress) (hbegun : ¬ dress.2 < .resolving) (ht : t.fields = dress.1) :
    t.isEnumeration = (s₀.memberType u).isEnumeration ∧
      (t.isEnumeration = true → t.fields = (s₀.memberType u).fields) := by
  have hnone : u.hasEnumerations = false → t.hasEnumerations = false →
      t.isEnumeration = (s₀.memberType u).isEnumeration ∧
        (t.isEnumeration = true → t.fields = (s₀.memberType u).fields) := by
    intro hmembers hnone
    rw [isEnumeration_eq_false hnone, memberType,
      isEnumeration_eq_false (hasEnumerations_checkOverrides hmembers)]
    exact ⟨rfl, nofun⟩
  cases h with
  | waiting hstatus => exact absurd hstatus hbegun
  | busy hmembers hfs =>
    refine hnone hmembers ?_
    have htags := hasEnumerations_of_tags hmembers (hfs.imp fun f f' hf => hf.tag)
    rwa [hasEnumerations, ht]
  | done =>
    cases hmembers : u.hasEnumerations with
    | true =>
      rw [hsteady.resolvedFields_of_members hu hmembers] at ht
      exact ⟨by simp only [SchemaType.isEnumeration, ht], fun _ => ht⟩
    | false =>
      refine hnone hmembers ?_
      have htags := hasEnumerations_of_tags hmembers
        (forall₂_checkedWhole fun f _ => (s₀.akin_checkedField u f).tag)
      have hkept := hasEnumerations_checkOverrides (s := s₀) htags
      rwa [hasEnumerations, ht]

end Reached

/-- What the step has made of a store on its way, while it works on the type `active`. -/
structure Resolving (s₀ : Store) (active : Option Handle) (d : Dress) (s : Store) : Prop where
  dressed : s₀.Dressed d s
  reached : ∀ u, s₀.Holds u → some u.id ≠ active → s₀.Reached u (d u.id)
  begun : ∀ u, s₀.Holds u → ¬ (d u.id).2 < .resolving → ∀ v, Within v u → ¬ (d v.id).2 < .resolving

/-- What becomes of a store: no type that is begun changes but the one that is worked on, and no other
is left at work. -/
structure Proceeds (active : Option Handle) (s s' : Store) : Prop where
  grows : s.Grows .resolving s'
  begun : ∀ u, s.Holds u → ¬ u.status < .resolving → some u.id ≠ active →
    ∃ u', s'.Holds u' ∧ u'.id = u.id ∧ u'.fields = u.fields ∧ u'.status = u.status
  busy : ∀ u', s'.Holds u' → u'.status = .resolving → some u'.id ≠ active →
    ∃ u, s.Holds u ∧ u.id = u'.id ∧ u.status = .resolving

namespace Proceeds

/-- Nothing but the types is of consequence. -/
theorem of_roots (h : s'.roots = s.roots) : Proceeds active s s' := by
  have hholds : ∀ u, s'.Holds u ↔ s.Holds u := fun u => by rw [Holds, Holds, types, types, h]
  refine ⟨⟨by rw [h], fun u hu => ⟨u, (hholds u).mpr hu, rfl, List.Subset.refl _⟩⟩, ?_, ?_⟩
  · exact fun u hu _ _ => ⟨u, (hholds u).mpr hu, rfl, rfl, rfl⟩
  · exact fun u hu hbusy _ => ⟨u, (hholds u).mp hu, rfl, hbusy⟩

theorem trans (hp : Proceeds active s s') (hp' : Proceeds active s' s'') : Proceeds active s s'' where
  grows := hp.grows.trans hp'.grows
  begun u hu hbegun hne := by
    obtain ⟨u', hu', hid, hfields, hstatus⟩ := hp.begun u hu hbegun hne
    obtain ⟨u'', hu'', hid', hfields', hstatus'⟩ := hp'.begun u' hu' (hstatus ▸ hbegun) (hid ▸ hne)
    exact ⟨u'', hu'', hid'.trans hid, hfields'.trans hfields, hstatus'.trans hstatus⟩
  busy u'' hu'' hbusy hne := by
    obtain ⟨u', hu', hid, hbusy'⟩ := hp'.busy u'' hu'' hbusy hne
    obtain ⟨u, hu, hid', hbusy''⟩ := hp.busy u' hu' hbusy' (hid ▸ hne)
    exact ⟨u, hu, hid'.trans hid, hbusy''⟩

theorem of_none (hp : Proceeds none s s') (active : Option Handle) : Proceeds active s s' :=
  ⟨hp.grows, fun u hu hbegun _ => hp.begun u hu hbegun (Option.some_ne_none _),
    fun u hu hbusy _ => hp.busy u hu hbusy (Option.some_ne_none _)⟩

/-- The work on a type is done. -/
theorem finish (hp : Proceeds (some h) s s') (hs : ∀ u, s.Holds u → u.id = h → u.status < .resolving)
    (hs' : ∀ u, s'.Holds u → u.id = h → u.status ≠ .resolving) : Proceeds none s s' where
  grows := hp.grows
  begun u hu hbegun _ := by
    refine hp.begun u hu hbegun fun heq => hbegun (hs u hu (Option.some.inj heq))
  busy u hu hbusy _ := by
    refine hp.busy u hu hbusy fun heq => hs' u hu (Option.some.inj heq) hbusy

end Proceeds

theorem Dressed.grows {busy : Status} (hd : s₀.Dressed d s) (hd' : s₀.Dressed d' s')
    (hbegun : ∀ u, s₀.Holds u → ¬ (d u.id).2 < busy → ¬ (d' u.id).2 < busy) :
    s.Grows busy s' := by
  refine ⟨hd'.outline.trans hd.outline.symm, fun w hw => ?_⟩
  obtain ⟨u, hu, rfl⟩ := hd.holds_iff.mp hw
  refine ⟨u.dressed d', hd'.holds hu, by simp, fun k hk => ?_⟩
  obtain ⟨v', hv', hlt, rfl⟩ := SchemaType.mem_pending_iff.mp hk
  obtain ⟨v, hv, rfl⟩ := within_dressed_iff.mp hv'
  rw [dressed_status] at hlt
  refine SchemaType.mem_pending_iff.mpr ⟨v.dressed d, within_dressed_iff.mpr ⟨v, hv, rfl⟩, ?_, by simp⟩
  rw [dressed_status]
  exact not_not.mp fun hnot => hbegun v (hu.within hv) hnot hlt

theorem Dressed.closed {busy : Status} (hd : s₀.Dressed d s)
    (hbegun : ∀ u, s₀.Holds u → ¬ (d u.id).2 < busy → ∀ v, Within v u → ¬ (d v.id).2 < busy) :
    s.Closed busy := by
  intro w hw hlt
  obtain ⟨u, hu, rfl⟩ := hd.holds_iff.mp hw
  rw [dressed_status] at hlt
  refine SchemaType.pending_eq_nil_iff.mpr fun w hw => ?_
  obtain ⟨v, hv, rfl⟩ := within_dressed_iff.mp hw
  rw [dressed_status]
  exact hbegun u hu hlt v hv

theorem Dressed.mem_pending_iff {busy : Status} (hs₀ : s₀.Sound) (hd : s₀.Dressed d s) (hu : s₀.Holds u) :
    u.id ∈ s.pending busy ↔ (d u.id).2 < busy := by
  have hiff : (u.dressed d).id ∈ s.pending busy ↔ (u.dressed d).status < busy :=
    (hd.holds hu).mem_pending_iff (hd.sound hs₀).handles
  rwa [dressed_id, dressed_status] at hiff

/-- What is nested in types that are begun is begun, also when one more of them is. -/
theorem begun_update {busy status : Status} (hs₀ : s₀.Sound) (hu : s₀.Holds u)
    (hbegun : ∀ v, s₀.Holds v → ¬ (d v.id).2 < busy → ∀ w, Within w v → ¬ (d w.id).2 < busy)
    (hinner : ∀ c ∈ u.inner, ∀ v, Within v c → ¬ (d v.id).2 < busy) (hstatus : ¬ status < busy)
    (hv : s₀.Holds v) (hlt : ¬ (Function.update d u.id (fs, status) v.id).2 < busy) {w : SchemaType}
    (hw : Within w v) : ¬ (Function.update d u.id (fs, status) w.id).2 < busy := by
  have hkeeps : ∀ x : SchemaType, ¬ (d x.id).2 < busy →
      ¬ (Function.update d u.id (fs, status) x.id).2 < busy := by
    intro x hx
    rw [Function.update_apply]
    split
    · exact hstatus
    · exact hx
  by_cases hid : v.id = u.id
  · obtain rfl := hv.eq_of_id hs₀.handles hu hid
    cases hw with
    | self => rwa [Function.update_self]
    | inner hc hw => exact hkeeps w (hinner _ hc w hw)
  · rw [Function.update_of_ne hid] at hlt
    exact hkeeps w (hbegun v hv hlt w hw)

/-- A change of the type that is worked on, which it leaves begun. -/
theorem Dressed.proceeds (hd : s₀.Dressed d s) (hd' : s₀.Dressed d' s')
    (hothers : ∀ u, s₀.Holds u → some u.id ≠ active → d' u.id = d u.id)
    (hactive : ∀ u, s₀.Holds u → some u.id = active → ¬ (d' u.id).2 < .resolving) :
    Proceeds active s s' where
  grows := by
    refine hd.grows hd' fun u hu hbegun => ?_
    by_cases hid : some u.id = active
    · exact hactive u hu hid
    · rwa [hothers u hu hid]
  begun w hw _ hne := by
    obtain ⟨u, hu, rfl⟩ := hd.holds_iff.mp hw
    rw [dressed_id] at hne
    exact ⟨u.dressed d', hd'.holds hu, by simp, by simp [hothers u hu hne], by simp [hothers u hu hne]⟩
  busy w hw hbusy hne := by
    obtain ⟨u, hu, rfl⟩ := hd'.holds_iff.mp hw
    rw [dressed_id] at hne
    refine ⟨u.dressed d, hd.holds hu, by simp, ?_⟩
    rw [dressed_status, hothers u hu hne] at hbusy
    rw [dressed_status, hbusy]

namespace Resolving

theorem sound (hs₀ : s₀.Ready) (hs : s₀.Resolving active d s) : s.Sound :=
  hs.dressed.sound hs₀.sound

theorem closed (hs : s₀.Resolving active d s) : s.Closed .resolving :=
  hs.dressed.closed hs.begun

theorem of_none (hs : s₀.Resolving none d s) (active : Option Handle) : s₀.Resolving active d s :=
  { hs with reached := fun u hu _ => hs.reached u hu (Option.some_ne_none _) }

theorem eq_dressed (hs₀ : s₀.Ready) (hs : s₀.Resolving active d s) (hu : s₀.Holds u) (ht : s.Holds t)
    (hid : t.id = u.id) : t = u.dressed d :=
  ht.eq_of_id (hs.sound hs₀).handles (hs.dressed.holds hu) (hid.trans (dressed_id d u).symm)

/-- The type that is worked on is as the others again. -/
theorem release (hs₀ : s₀.Ready) (hs : s₀.Resolving (some u.id) d s) (hu : s₀.Holds u)
    (hreached : s₀.Reached u (d u.id)) : s₀.Resolving none d s := by
  refine { hs with reached := fun v hv _ => ?_ }
  by_cases hid : v.id = u.id
  · rwa [hv.eq_of_id hs₀.sound.handles hu hid]
  · exact hs.reached v hv fun heq => hid (Option.some.inj heq)

/-- A change of the fields and the status of a type that leaves it begun. -/
theorem update (hs₀ : s₀.Ready) (hs : s₀.Resolving active d s)
    (hactive : active = none ∨ active = some u.id) (hu : s₀.Holds u)
    (hinner : ∀ c ∈ u.inner, ∀ v, Within v c → ¬ (d v.id).2 < .resolving)
    {g : SchemaType → SchemaType} {status : Status}
    (hg : g (u.dressed d) = { u.dressed d with fields := fs, status }) (hstatus : ¬ status < .resolving) :
    s₀.Resolving (some u.id) (Function.update d u.id (fs, status)) (s.update u.id g) ∧
      Proceeds (some u.id) s (s.update u.id g) := by
  have hd := hs.dressed.update hs₀.sound hu hg
  have hself : Function.update d u.id (fs, status) u.id = (fs, status) := Function.update_self ..
  have hother : ∀ v : SchemaType, v.id ≠ u.id → Function.update d u.id (fs, status) v.id = d v.id :=
    fun v hne => Function.update_of_ne hne ..
  refine ⟨⟨hd, fun v hv hne => ?_, fun v hv hlt w hw => ?_⟩, hs.dressed.proceeds hd ?_ ?_⟩
  · have hid : v.id ≠ u.id := fun heq => hne (congrArg some heq)
    rw [hother v hid]
    refine hs.reached v hv ?_
    obtain rfl | rfl := hactive
    · exact nofun
    · exact hne
  · exact begun_update hs₀.sound hu hs.begun hinner hstatus hv hlt hw
  · exact fun v _ hne => hother v fun heq => hne (congrArg some heq)
  · intro v _ heq
    rwa [Option.some.inj heq, hself]

theorem mem_pending_iff (hs₀ : s₀.Ready) (hs : s₀.Resolving active d s) (hu : s₀.Holds u) :
    u.id ∈ s.pending .resolving ↔ (d u.id).2 < .resolving :=
  hs.dressed.mem_pending_iff hs₀.sound hu

/-- A type is begun or done. -/
theorem setStatus (hs₀ : s₀.Ready) (hs : s₀.Resolving active d s)
    (hactive : active = none ∨ active = some u.id) (hu : s₀.Holds u)
    (hinner : ∀ c ∈ u.inner, ∀ v, Within v c → ¬ (d v.id).2 < .resolving)
    {status : Status} (hstatus : ¬ status < .resolving) :
    ∃ d', s₀.Resolving (some u.id) d' (s.update u.id fun t => { t with status }) ∧
      Proceeds (some u.id) s (s.update u.id fun t => { t with status }) ∧
      d' u.id = ((d u.id).1, status) := by
  have hfields : { u.dressed d with status } = { u.dressed d with fields := (d u.id).1, status } := by
    rw [← dressed_fields d u]
  obtain ⟨hs', hp⟩ := hs.update hs₀ hactive hu hinner (g := fun t => { t with status }) hfields hstatus
  exact ⟨_, hs', hp, Function.update_self ..⟩

end Resolving

-- ---------------------------------------------------------------------------
-- The discipline of the step
-- ---------------------------------------------------------------------------

/-- While the step works on the type `active`, it keeps what it has made of all others. It does not
fail. -/
def resolving (hs₀ : s₀.Ready) (active : Option Handle) : Discipline where
  busy := .resolving
  Inv s := ∃ d, s₀.Resolving active d s
  Leads := Proceeds active
  Allowed _ := False
  sound := fun ⟨_, hs⟩ => hs.sound hs₀
  closed := fun ⟨_, hs⟩ => hs.closed
  refl := fun _ => Proceeds.of_roots rfl
  trans := Proceeds.trans
  grows := Proceeds.grows
  quiet := fun _ _ _ ⟨d, hs⟩ =>
    ⟨⟨d, ⟨hs.dressed.roots, hs.dressed.byName, hs.dressed.byHandle, hs.dressed.nextHandle⟩,
      hs.reached, hs.begun⟩, Proceeds.of_roots rfl⟩

end Store

end Schemata
