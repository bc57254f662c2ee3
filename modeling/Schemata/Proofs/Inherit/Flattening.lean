import Schemata.Proofs.Inherit.Hierarchy

/-!
# Stores while bases are settled

Every type descends from what it was, except the type that is worked on, which is described apart. A
type that is done has all its bases bound. What is not from the start is a copy of something begun.
-/

namespace Schemata

open Compile SchemaType Relation

variable {s₀ s s' : Store} {price : QName → Nat} {active : Option Handle} {t u u₀ : SchemaType}
  {h next : Handle} {g : SchemaType → SchemaType} {extra : List SchemaType}

namespace SchemaType

/-- What has become of a type of the store `s₀`. -/
structure Descends (s₀ : Store) (price : QName → Nat) (u₀ u : SchemaType) : Prop where
  descent : Descent s₀ price u₀ u.fields u.extensions
  raw : u.status < .flattening → u.status = .raw
  bound : u.status = .flattened → ∀ e ∈ u.extensions, s₀.BindsBase e

/-- The type descends from one that was there, or is a copy and begun. -/
def FromStart (s₀ : Store) (price : QName → Nat) (u : SchemaType) : Prop :=
  (∃ u₀, s₀.Holds u₀ ∧ u₀.id = u.id ∧ Descends s₀ price u₀ u) ∨
    u.id ∉ s₀.handles ∧ ¬ u.status < .flattening

theorem FromStart.withInner (hu : u.FromStart s₀ price) (inner : List SchemaType) :
    (u.withInner inner).FromStart s₀ price := by
  obtain ⟨u₀, hu₀, hid, hdescends⟩ | hcopy := hu
  · exact .inl ⟨u₀, hu₀, hid, ⟨hdescends.descent, hdescends.raw, hdescends.bound⟩⟩
  · exact .inr hcopy

end SchemaType

namespace Store

/-- What holds of a store while its bases are settled; `s₀` is the store that this started with. -/
structure Flattening (s₀ : Store) (price : QName → Nat) (active : Option Handle) (s : Store) :
    Prop where
  sound : s.Sound
  closed : s.Closed .flattening
  outline : s.roots.map Entry.outline = s₀.roots.map Entry.outline
  kept : s₀.handles ⊆ s.handles
  types : ∀ u, s.Holds u → some u.id ≠ active → u.FromStart s₀ price

namespace Flattening

theorem of_none (hs : s₀.Flattening price none s) (active : Option Handle) :
    s₀.Flattening price active s :=
  { hs with types := fun u hu _ => hs.types u hu nofun }

/-- When the type that is worked on descends from what it was, it is like the others. -/
theorem none_of_descends (hs : s₀.Flattening price (some h) s) (ht : s.Holds t) (hth : t.id = h)
    (hu₀ : s₀.Holds u₀) (hid : u₀.id = h) (hdescends : Descends s₀ price u₀ t) :
    s₀.Flattening price none s :=
  { hs with
    types := fun u hu _ => by
      by_cases huh : u.id = h
      · obtain rfl := hu.eq_of_id hs.sound.handles ht (huh.trans hth.symm)
        exact .inl ⟨u₀, hu₀, hid.trans huh.symm, hdescends⟩
      · exact hs.types u hu fun heq => huh (Option.some.inj heq) }

theorem descends (hs : s₀.Flattening price active s) (hu : s.Holds u) (hne : some u.id ≠ active)
    (hh : u.id ∈ s₀.handles) : ∃ u₀, s₀.Holds u₀ ∧ u₀.id = u.id ∧ Descends s₀ price u₀ u :=
  (hs.types u hu hne).resolve_right fun hcopy => hcopy.1 hh

/-- Roots descend from the roots of their names. -/
theorem descends_root (hs₀ : s₀.Sound) (hs : s₀.Flattening price active s) (ht : t ∈ s.types)
    (hne : some t.id ≠ active) :
    ∃ t₀ ∈ s₀.types, t₀.id = t.id ∧ t₀.qname = t.qname ∧ t₀.tag = t.tag ∧
      Descends s₀ price t₀ t := by
  obtain ⟨t₀, ht₀, hid, hname, htag⟩ := exists_of_outline hs.outline ht
  have hheld := holds_of_mem_types ht₀
  obtain ⟨t₁, ht₁, hid₁, hdescends⟩ :=
    hs.descends (holds_of_mem_types ht) hne (mem_handles_iff.mpr ⟨t₀, hheld, hid⟩)
  obtain rfl := ht₁.eq_of_id hs₀.handles hheld (hid₁.trans hid.symm)
  exact ⟨t₁, ht₀, hid, hname, htag, hdescends⟩

theorem start (hs : s.Sound) (hh : s.Hierarchy) (hraw : ∀ u, s.Holds u → u.status = .raw) :
    s.Flattening price none s where
  sound := hs
  closed u hu hbegun := by
    rw [hraw u hu] at hbegun
    exact absurd (by decide) hbegun
  outline := rfl
  kept := List.Subset.refl _
  types u hu _ := by
    refine .inl ⟨u, hu, rfl, .start hh hu, fun _ => hraw u hu, fun hdone => ?_⟩
    rw [hraw u hu] at hdone
    cases hdone

/-- A change of the type that is worked on. -/
theorem change (hs : s₀.Flattening price active s) (hactive : active = none ∨ active = some t.id)
    (hc : s.Change .flattening g extra next) (ht : s.Holds t)
    (hinner : t.inner.flatMap (SchemaType.pending .flattening) = []) :
    s₀.Flattening price (some t.id) ({ s with nextHandle := next }.update t.id g) where
  sound := hc.sound hs.sound ht
  closed := hc.closed hs.sound hs.closed ht hinner
  outline := (outline_update hc.keeps _ t.id).trans hs.outline
  kept := List.Subset.trans hs.kept (hc.progress .flattened hs.sound.handles t.id).grows.handles_subset
  types := by
    refine hc.forall_holds hs.sound ht (P := fun v => some v.id ≠ some t.id → v.FromStart s₀ price)
      (fun u inner hu hne => (hu hne).withInner inner) (fun u hu hid _ => ?_)
      (fun hne => absurd (congrArg some (hc.keeps.id t)) hne) fun x hx v hv _ => .inr ⟨?_, ?_⟩
    · refine hs.types u hu ?_
      obtain rfl | rfl := hactive
      · exact nofun
      · exact fun heq => hid (Option.some.inj heq)
    · -- handles of copies are new
      intro hold
      have hlt := hs.sound.below _ (hs.kept hold)
      have hmem : v.id ∈ extra.flatMap SchemaType.handles :=
        List.mem_flatMap.mpr ⟨x, hx, SchemaType.mem_handles_iff.mpr ⟨v, hv, rfl⟩⟩
      exact absurd hlt (Int.not_lt.mpr (hc.numbered.bounds _ hmem).1)
    · exact hc.begun x hx v hv

end Flattening

/-- In a hierarchy no base leads back. -/
theorem leadsTo_eq_false (hs₀ : s₀.Sound) (hh : s₀.Hierarchy) (hs : s₀.Flattening price none s)
    (hu₀ : s₀.Holds u₀) {q : QName}
    (hq : ∃ b ∈ s₀.types, b.qname = q ∧ TransGen s₀.BaseNamed u₀ b) :
    s.leadsTo q u₀.id = false := by
  have hfollow : ∀ steps queue seen,
      (∀ q ∈ queue, ∃ b ∈ s₀.types, b.qname = q ∧ TransGen s₀.BaseNamed u₀ b) →
      s.basesLead u₀.id steps queue seen = false := by
    intro steps
    induction steps with
    | zero =>
      intro queue seen _
      cases queue <;> rfl
    | succ steps ih =>
      intro queue seen hqueue
      cases queue with
      | nil => rfl
      | cons q queue =>
        obtain ⟨⟨b, hb, hname, hreach⟩, hrest⟩ := List.forall_mem_cons.mp hqueue
        rw [basesLead]
        split
        · exact ih queue seen hrest
        · cases hfound : s.preferred? q .complexType with
          | none => exact ih queue _ hrest
          | some r =>
            obtain ⟨hr, hrq⟩ := hs.sound.preferred? hfound
            obtain ⟨r₀, hr₀, hid, hrname, -, hdescends⟩ := hs.descends_root hs₀ hr nofun
            obtain rfl := hh.eq_of_qname hb hr₀ (hname.trans (hrq.symm.trans hrname.symm))
            have hne : r.id ≠ u₀.id := by
              intro heq
              obtain rfl := (holds_of_mem_types hb).eq_of_id hs₀.handles hu₀ (hid.trans heq)
              exact hh.acyclic b hreach
            simp only [beq_eq_false_iff_ne.mpr hne, Bool.false_or]
            refine ih _ _ fun q hq => ?_
            obtain hq | hq := List.mem_append.mp hq
            · exact hrest q hq
            · obtain ⟨e, he, rfl⟩ := List.mem_map.mp hq
              obtain ⟨-, -, c, hc, hcq, hreach'⟩ :=
                hdescends.descent.bases e (List.mem_of_mem_filter he)
              exact ⟨c, hc, hcq, hreach.trans hreach'⟩
  refine hfollow _ _ _ fun q' hq' => ?_
  rwa [List.mem_singleton.mp hq']

end Store

-- ---------------------------------------------------------------------------
-- What becomes of a base
-- ---------------------------------------------------------------------------

namespace SchemaType

theorem isEnumeration_eq_false (hplain : ∀ f ∈ t.fields, f.isEnumeration = false) :
    t.isEnumeration = false := by
  cases hfields : t.fields with
  | nil => simp [isEnumeration, hfields]
  | cons f fs => simp [isEnumeration, hfields, hplain f (hfields ▸ List.mem_cons_self)]

/-- A base is dropped when the type has all its fields. -/
theorem hasField_of_fateOf_eq_drop {b : SchemaType} (hdrop : t.fateOf b = .drop) :
    ∀ f ∈ b.fields, t.HasField f.name := by
  intro f hf
  simp only [fateOf] at hdrop
  split at hdrop
  · cases hdrop
  · split at hdrop
    case isTrue hmissing =>
      rw [List.isEmpty_iff, List.filter_eq_nil_iff] at hmissing
      simpa [HasField] using hmissing f hf
    case isFalse => split at hdrop <;> cases hdrop

/-- Dissolving a base changes the fields and nothing else. -/
theorem dissolveNative_eq (t : SchemaType) (e : Extension) :
    t.dissolveNative e = { t with fields := (t.dissolveNative e).fields } := by
  unfold dissolveNative retypeMembers addValue
  split
  · rfl
  · split <;> rfl

theorem dissolveEnumeration_eq (t b : SchemaType) (e : Extension) :
    t.dissolveEnumeration b e = { t with fields := (t.dissolveEnumeration b e).fields } := by
  unfold dissolveEnumeration addMembers completeMembers addValue
  split
  · split
    · split <;> cases t <;> rfl
    · split <;> rfl
  · split
    · rfl
    · split <;> rfl

theorem addBases_eq (t : SchemaType) (bases : List Extension) (r : Restrictions) :
    t.addBases bases r = { t with extensions := (t.addBases bases r).extensions } := by
  unfold addBases
  induction bases generalizing t with
  | nil => cases t; rfl
  | cons b bases ih =>
    rw [List.foldl_cons, ih]
    split <;> rfl

section

variable (t : SchemaType) (bases : List Extension) (r : Restrictions)

@[simp] theorem addBases_id : (t.addBases bases r).id = t.id := by rw [addBases_eq]

@[simp] theorem addBases_qname : (t.addBases bases r).qname = t.qname := by rw [addBases_eq]

@[simp] theorem addBases_tag : (t.addBases bases r).tag = t.tag := by rw [addBases_eq]

@[simp] theorem addBases_status : (t.addBases bases r).status = t.status := by rw [addBases_eq]

@[simp] theorem addBases_fields : (t.addBases bases r).fields = t.fields := by rw [addBases_eq]

@[simp] theorem addBases_inner : (t.addBases bases r).inner = t.inner := by rw [addBases_eq]

end

/-- The bases that are added are bases of the base. -/
theorem exists_addBases (price : QName → Nat) (t : SchemaType) (bases : List Extension)
    (r : Restrictions) :
    ∃ added, (t.addBases bases r).extensions = t.extensions ++ added ∧
      (∀ a ∈ added, ∃ c ∈ bases, c.type = a.type) ∧ cost price added ≤ cost price bases := by
  unfold addBases
  induction bases generalizing t with
  | nil => exact ⟨[], by simp, by simp, Nat.le_refl _⟩
  | cons b bases ih =>
    rw [List.foldl_cons]
    split
    · obtain ⟨added, hext, hadded, hcost⟩ := ih t
      refine ⟨added, hext, fun a ha => ?_, ?_⟩
      · obtain ⟨c, hc, htype⟩ := hadded a ha
        exact ⟨c, List.mem_cons_of_mem _ hc, htype⟩
      · rw [cost_cons]
        omega
    · obtain ⟨added, hext, hadded, hcost⟩ := ih { t with
        extensions := t.extensions ++ [{ b with restrictions := b.restrictions.merge r }] }
      refine ⟨{ b with restrictions := b.restrictions.merge r } :: added, ?_, fun a ha => ?_, ?_⟩
      · rw [hext, List.append_assoc, List.singleton_append]
      · obtain rfl | ha := List.mem_cons.mp ha
        · exact ⟨b, List.mem_cons_self, rfl⟩
        · obtain ⟨c, hc, htype⟩ := hadded a ha
          exact ⟨c, List.mem_cons_of_mem _ hc, htype⟩
      · rw [cost_cons, cost_cons]
        exact Nat.add_le_add_left hcost _

/-- The bases that are added differ in their names from each other and from those that are there. -/
theorem nodup_addBases (t : SchemaType) (bases : List Extension) (r : Restrictions)
    {added : List Extension} (hext : (t.addBases bases r).extensions = t.extensions ++ added) :
    (added.map (·.type.qname)).Nodup ∧
      ∀ a ∈ added, ∀ e ∈ t.extensions, e.type.qname ≠ a.type.qname := by
  unfold addBases at hext
  induction bases generalizing t added with
  | nil =>
    obtain rfl : added = [] := by simpa using hext
    exact ⟨List.nodup_nil, by simp⟩
  | cons b bases ih =>
    rw [List.foldl_cons] at hext
    split at hext
    · exact ih t hext
    case isFalse hnew =>
      obtain ⟨later, hlater, -⟩ := exists_addBases (fun _ => 0) { t with
        extensions := t.extensions ++ [{ b with restrictions := b.restrictions.merge r }] } bases r
      obtain ⟨hnodup, hothers⟩ := ih _ hlater
      unfold addBases at hlater
      rw [hlater, List.append_assoc, List.append_cancel_left_eq, List.singleton_append] at hext
      subst hext
      refine ⟨List.nodup_cons.mpr ⟨fun hmem => ?_, hnodup⟩, fun a ha e he => ?_⟩
      · obtain ⟨a, ha, hqname⟩ := List.mem_map.mp hmem
        exact hothers a ha _ (List.mem_append_right _ (List.mem_singleton_self _)) hqname.symm
      · obtain rfl | ha := List.mem_cons.mp ha
        · exact fun heq => hnew (List.any_eq_true.mpr ⟨e, he, beq_iff_eq.mpr heq⟩)
        · exact hothers a ha e (List.mem_append_left _ he)

end SchemaType

end Schemata
