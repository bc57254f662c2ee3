import Schemata.Proofs.Inherit.Leads
import Schemata.Proofs.Step.Ends
import Schemata.Proofs.Store.Flat

/-!
# Flat stores while bases are settled

The circles of bases are cut as types are begun: when the first base of a type is settled, nothing else
has happened to the type, and if no other of its bases leads back to it, it is on no circle from then
on. `Orderly` is what holds between look-ups. `Active` adds the type that is worked on, and `Mild` are
the computations that come to an end while they work on it and leave its bases alone.
-/

namespace Schemata

open Compile SchemaType Relation

variable {α β : Type} {roots : List Handle} {s s' s'' : Store} {t t' u : SchemaType} {q : QName}
  {h k : Handle} {p : Nat} {fresh active : Option Handle} {g : SchemaType → SchemaType}

namespace Store

/-- What holds of a flat store with the given roots while bases are settled. What has been begun is on
no circle, except the type `fresh` of which no base has been settled. -/
structure Orderly (roots : List Handle) (fresh : Option Handle) (s : Store) : Prop where
  sound : s.Sound
  flat : s.Flat
  handles : s.types.map (·.id) = roots
  members : ∀ p ∈ s.memory.substitutes, ∃ ft, p.2.types = [ft]
  begun : ∀ t ∈ s.types, ¬ t.status < .flattening → some t.id ≠ fresh → ¬ TransGen s.Next t.id t.id
  waiting : ∀ t ∈ s.types, t.status < .flattening → ∀ e ∈ t.extensions.tail, e.type.native = false →
    ¬ s.Leads e.type.qname t.id

/-- The number of types that have not been begun. -/
def remaining (s : Store) : Nat :=
  (s.pending .flattening).length

/-- What flattening makes of a store. -/
structure Advances (active : Option Handle) (s s' : Store) : Prop where
  moves : Moves active s s'
  shrinks : Shrinks s s'

theorem Advances.refl (active : Option Handle) (s : Store) : Advances active s s :=
  ⟨.refl active s, .refl s⟩

theorem Advances.trans (hadv : Advances active s s') (hadv' : Advances active s' s'') :
    Advances active s s'' :=
  ⟨hadv.moves.trans hadv'.moves, hadv.shrinks.trans hadv'.shrinks⟩

theorem Advances.of_none (hadv : Advances none s s') (active : Option Handle) : Advances active s s' :=
  ⟨hadv.moves.of_none active, hadv.shrinks⟩

theorem Advances.quiet (active : Option Handle) (s : Store) (memory : Memory) (journal : List Event) :
    Advances active s { s with memory, journal } :=
  ⟨⟨rfl, fun _ ht _ => .inl ht⟩, rfl, fun _ _ hnext => .single hnext, Finset.Subset.refl _⟩

theorem pending_subset (hs' : s'.Flat) (hmoves : Moves active s s')
    (hactive : ∀ u ∈ s'.types, some u.id = active → ¬ u.status < .flattening) :
    s'.pending .flattening ⊆ s.pending .flattening := by
  intro k hk
  obtain ⟨u, hu, hlt, rfl⟩ := mem_pending_iff.mp hk
  have hu := hs'.holds_iff.mp hu
  obtain hold | ⟨hdone, -⟩ := hmoves.types u hu fun heq => hactive u hu heq hlt
  · exact mem_pending_iff.mpr ⟨u, holds_of_mem_types hold, hlt, rfl⟩
  · rw [hdone] at hlt
    exact absurd hlt (by decide)

/-- Nothing comes to be worked on anew. -/
theorem Advances.pending_subset (hadv : Advances none s s') (hs' : s'.Flat) :
    s'.pending .flattening ⊆ s.pending .flattening :=
  Store.pending_subset hs' hadv.moves fun _ _ hnone => (Option.some_ne_none _ hnone).elim

theorem remaining_le (hs' : s'.Sound) (hsub : s'.pending .flattening ⊆ s.pending .flattening) :
    s'.remaining ≤ s.remaining :=
  (List.subperm_of_subset (nodup_pending hs'.handles) hsub).length_le

theorem remaining_lt (hs' : s'.Sound) (hsub : s'.pending .flattening ⊆ s.pending .flattening)
    (hk : k ∈ s.pending .flattening) (hend : k ∉ s'.pending .flattening) : s'.remaining < s.remaining := by
  have hnodup : (k :: s'.pending .flattening).Nodup :=
    List.nodup_cons.mpr ⟨hend, nodup_pending hs'.handles⟩
  exact (List.subperm_of_subset hnodup (List.cons_subset.mpr ⟨hk, hsub⟩)).length_le

namespace Orderly

theorem mem_roots (hs : s.Orderly roots fresh) (ht : t ∈ s.types) : t.id ∈ roots :=
  hs.handles ▸ List.mem_map_of_mem ht

theorem exists_root (hs : s.Orderly roots fresh) (hk : k ∈ roots) : ∃ t ∈ s.types, t.id = k :=
  List.mem_map.mp (hs.handles.symm ▸ hk)

/-- A change of the type that is worked on, after which its bases lead nowhere else. -/
theorem update (hs : s.Orderly roots fresh) (fresh' : Option Handle) (ht : t ∈ s.types)
    (halike : Alike t (g t)) (hstatus : ¬ (g t).status < .flattening)
    (hnext : ∀ e ∈ (g t).extensions, e.type.native = false → ∀ k, s.Target e.type.qname k →
      TransGen s.Next t.id k)
    (hnames : ∀ e ∈ (g t).extensions, e.type.qname ∈ s.baseNames)
    (hself : some t.id ≠ fresh' → ¬ TransGen s.Next t.id t.id)
    (hothers : ∀ k, k ≠ t.id → some k ≠ fresh' → some k ≠ fresh) :
    (s.update t.id g).Orderly roots fresh' ∧ Advances (some t.id) s (s.update t.id g) ∧
      (∀ {u}, u ∈ (s.update t.id g).types ↔ u = g t ∨ u ∈ s.types ∧ u.id ≠ t.id) := by
  have hmem : ∀ {u}, u ∈ (s.update t.id g).types ↔ u = g t ∨ u ∈ s.types ∧ u.id ≠ t.id :=
    hs.flat.mem_update hs.sound ht
  have hmoves := Moves.update hs.sound hs.flat ht halike
  have hsound : (s.update t.id g).Sound := hs.sound.update_alike fun u hu hid => by
    rw [hs.sound.eq_of_id (hs.flat.holds_iff.mp hu) ht hid]
    exact halike
  have hshrinks : Shrinks s (s.update t.id g) := by
    refine ⟨hmoves.outline, ?_, fun q hq => ?_⟩
    · rintro _ k ⟨u, hu, rfl, e, he, hnative, htarget⟩
      rw [Target, hs.sound.preferred?_id hsound hmoves.outline] at htarget
      obtain rfl | ⟨hu, -⟩ := hmem.mp hu
      · rw [halike.id]
        exact hnext e he hnative k htarget
      · exact .single ⟨u, hu, rfl, e, he, hnative, htarget⟩
    · obtain ⟨u, hu, e, he, rfl⟩ := mem_baseNames_iff.mp hq
      obtain rfl | ⟨hu, -⟩ := hmem.mp hu
      · exact hnames e he
      · exact mem_baseNames_iff.mpr ⟨u, hu, e, he, rfl⟩
  refine ⟨⟨hsound, ?_, ?_, hs.members, ?_, ?_⟩, ⟨hmoves, hshrinks⟩, hmem⟩
  · intro u hu
    obtain rfl | ⟨hu, -⟩ := hmem.mp hu
    · exact halike.inner.trans (hs.flat t ht)
    · exact hs.flat u hu
  · rw [map_id_of_outline hmoves.outline, hs.handles]
  · intro u hu hnot hne hcircle
    have hcircle := hshrinks.transGen hcircle
    obtain rfl | ⟨hu, hid⟩ := hmem.mp hu
    · rw [halike.id] at hne hcircle
      exact hself hne hcircle
    · exact hs.begun u hu hnot (hothers u.id hid hne) hcircle
  · intro u hu hlt e he hnative hlead
    obtain rfl | ⟨hu, -⟩ := hmem.mp hu
    · exact hstatus hlt
    · exact hs.waiting u hu hlt e he hnative (hshrinks.leads hs.sound hsound hlead)

/-- A type is settled when none of its bases leads back to it. -/
theorem settle (hs : s.Orderly roots (some t.id)) (ht : t ∈ s.types)
    (hbases : ∀ e ∈ t.extensions, e.type.native = false → ¬ s.Leads e.type.qname t.id) :
    s.Orderly roots none := by
  refine ⟨hs.sound, hs.flat, hs.handles, hs.members, fun u hu hnot _ hcircle => ?_, hs.waiting⟩
  by_cases hid : u.id = t.id
  · obtain ⟨v, hv, hvid, e, he, hnative, hlead⟩ := transGen_next_iff.mp hcircle
    obtain rfl := hs.sound.eq_of_id hv ht (hvid.trans hid)
    exact hbases e he hnative (hid ▸ hlead)
  · exact hs.begun u hu hnot (fun heq => hid (Option.some.inj heq)) hcircle

theorem quiet (hs : s.Orderly roots fresh) (memory : Memory) (journal : List Event)
    (hmemory : ∀ p ∈ memory.substitutes, ∃ ft, p.2.types = [ft]) :
    ({ s with memory, journal } : Store).Orderly roots fresh where
  sound := ⟨hs.sound.keys, hs.sound.handles, hs.sound.below, hs.sound.byName, hs.sound.byHandle⟩
  flat := hs.flat
  handles := hs.handles
  members := hmemory
  begun := hs.begun
  waiting := hs.waiting

end Orderly

end Store

open Store

-- ---------------------------------------------------------------------------
-- The type that is worked on
-- ---------------------------------------------------------------------------

/-- The type of a handle is being worked on, and fewer than a number of types have not been begun. -/
structure Active (roots : List Handle) (p : Nat) (fresh : Option Handle) (h : Handle) (s : Store)
    (t : SchemaType) : Prop where
  orderly : s.Orderly roots fresh
  mem : t ∈ s.types
  id : t.id = h
  busy : t.status = .flattening
  few : s.remaining < p

namespace Active

theorem get? (ht : Active roots p fresh h s t) : s.get? h = some t := by
  rw [← ht.id]
  exact ht.orderly.sound.get?_root ht.mem

theorem mem_roots (ht : Active roots p fresh h s t) : h ∈ roots :=
  ht.id ▸ ht.orderly.mem_roots ht.mem

theorem begun (ht : Active roots p fresh h s t) : ¬ t.status < .flattening := by
  rw [ht.busy]
  decide

/-- What happens meanwhile to other types is of no consequence. -/
theorem advances (ht : Active roots p none h s t) (hs' : s'.Orderly roots none)
    (hadv : Advances none s s') : Active roots p none h s' t where
  orderly := hs'
  mem := hadv.moves.begun ht.orderly.sound ht.mem ht.begun (Option.some_ne_none _)
  id := ht.id
  busy := ht.busy
  few := Nat.lt_of_le_of_lt (remaining_le hs'.sound (hadv.pending_subset hs'.flat)) ht.few

theorem update (ht : Active roots p fresh h s t) (halike : Alike t (g t))
    (hstatus : (g t).status = t.status)
    (hnext : ∀ e ∈ (g t).extensions, e.type.native = false → ∀ k, s.Target e.type.qname k →
      TransGen s.Next h k)
    (hnames : ∀ e ∈ (g t).extensions, e.type.qname ∈ s.baseNames) :
    Active roots p fresh h (s.update h g) (g t) ∧ Advances (some h) s (s.update h g) := by
  obtain rfl := ht.id
  have hbusy := hstatus.trans ht.busy
  have hbegun : ¬ (g t).status < .flattening := by
    rw [hbusy]
    decide
  obtain ⟨hs', hadv, hmem⟩ := ht.orderly.update fresh ht.mem halike hbegun hnext hnames
    (ht.orderly.begun t ht.mem ht.begun) fun _ _ hne => hne
  refine ⟨⟨hs', hmem.mpr (.inl rfl), halike.id, hbusy, ?_⟩, hadv⟩
  refine Nat.lt_of_le_of_lt (remaining_le hs'.sound (pending_subset hs'.flat hadv.moves ?_)) ht.few
  intro u hu hid
  obtain rfl | ⟨-, hne⟩ := hmem.mp hu
  · exact hbegun
  · exact absurd (Option.some.inj hid) hne

/-- A change that adds no base. -/
theorem update_sub (ht : Active roots p fresh h s t) (halike : Alike t (g t))
    (hstatus : (g t).status = t.status)
    (hsub : ∀ e ∈ (g t).extensions, ∃ e' ∈ t.extensions,
      e'.type.native = e.type.native ∧ e'.type.qname = e.type.qname) :
    Active roots p fresh h (s.update h g) (g t) ∧ Advances (some h) s (s.update h g) := by
  refine ht.update halike hstatus (fun e he hnative k htarget => ?_) fun e he => ?_
  · obtain ⟨e', he', hnative', hqname⟩ := hsub e he
    exact .single ⟨t, ht.mem, ht.id, e', he', hnative'.trans hnative, hqname ▸ htarget⟩
  · obtain ⟨e', he', -, hqname⟩ := hsub e he
    exact mem_baseNames_iff.mpr ⟨t, ht.mem, e', he', hqname⟩

theorem quiet (ht : Active roots p fresh h s t) (journal : List Event) :
    Active roots p fresh h { s with journal } t ∧ Advances (some h) s { s with journal } :=
  ⟨⟨ht.orderly.quiet s.memory journal ht.orderly.members, ht.mem, ht.id, ht.busy, ht.few⟩,
    .quiet _ s s.memory journal⟩

end Active

/-- What a look-up comes to: the handle of what is found, which has been begun. -/
def Located (q : QName) (c : SchemaType → Bool) (r : Option Handle) (s : Store) : Prop :=
  match r with
  | some k => ∃ t, s.lookup? q c = some t ∧ t.id = k ∧ ¬ t.status < .flattening
  | none => s.lookup? q c = none

/-- Look-ups come to an end as long as fewer than a number of types have not been begun; nothing is
found nested in a root. -/
structure Reaches (roots : List Handle) (p : Nat) (finder : Nat → Finder) : Prop where
  find : ∀ ⦃s⦄ q c, s.Orderly roots none → s.remaining < p → Ends (fun n => (finder n).find q c) s
    fun r s' => s'.Orderly roots none ∧ Advances none s s' ∧ Located q c r s'
  findInner : ∀ ⦃s fresh k⦄ q, s.Orderly roots fresh → k ∈ roots →
    Ends (fun n => (finder n).findInner k q) s fun _ _ => False

namespace Reaches

variable {finder : Nat → Finder}

theorem find_active (hfinder : Reaches roots p finder) (q : QName) (c : SchemaType → Bool)
    (ht : Active roots p none h s t) : Ends (fun n => (finder n).find q c) s fun r s' =>
      Active roots p none h s' t ∧ Advances none s s' ∧ Located q c r s' := by
  refine (hfinder.find q c ht.orderly ht.few).mono ?_
  rintro r s' ⟨hs', hadv, hr⟩
  exact ⟨ht.advances hs' hadv, hadv, hr⟩

/-- What a construct prefers is found. -/
theorem findPreferred (hfinder : Reaches roots p finder) (q : QName) (tag : Tag)
    (ht : Active roots p none h s t) : Ends (fun n => (finder n).findPreferred q tag) s fun r s' =>
      Active roots p none h s' t ∧ Advances none s s' ∧
        ∀ k, r = some k → ∃ u, s'.preferred? q tag = some u ∧ u.id = k ∧ ¬ u.status < .flattening := by
  have hgo : ∀ (cs : List (SchemaType → Bool)) {s}, Active roots p none h s t →
      (∀ c ∈ cs, ∀ t, c t = c { id := t.id, tag := t.tag }) →
      Ends (fun n => Finder.findPreferred.go (finder n) q cs) s fun r s' =>
        Active roots p none h s' t ∧ Advances none s s' ∧ ∀ k, r = some k →
          ∃ u, cs.findSome? (s'.lookup? q) = some u ∧ u.id = k ∧ ¬ u.status < .flattening := by
    intro cs
    induction cs with
    | nil => exact fun ht _ => .pure ⟨ht, .refl _ _, by simp⟩
    | cons c cs ih =>
      intro s ht hcs
      obtain ⟨hc, hcs⟩ := List.forall_mem_cons.mp hcs
      refine .bind (hfinder.find_active q c ht) ?_
      rintro r s₁ ⟨ht₁, hadv₁, hr⟩
      cases r with
      | some k =>
        obtain ⟨u, hlookup, hid, hbegun⟩ := hr
        refine .pure ⟨ht₁, hadv₁, fun k' hk' => ?_⟩
        rw [List.findSome?_cons, hlookup]
        exact ⟨u, rfl, hid.trans (Option.some.inj hk'), hbegun⟩
      | none =>
        refine (ih ht₁ hcs).mono ?_
        rintro r s₂ ⟨ht₂, hadv₂, hr'⟩
        -- there is nothing to be found by the first condition later either
        have hid := ht₁.orderly.sound.lookup?_id ht₂.orderly.sound hadv₂.moves.outline hc q
        rw [show s₁.lookup? q c = none from hr, Option.map_none, Option.map_eq_none_iff] at hid
        refine ⟨ht₂, hadv₁.trans hadv₂, fun k hk => ?_⟩
        rw [List.findSome?_cons, hid]
        exact hr' k hk
  exact hgo (preferences tag) ht (by simp [preferences, isComplex])

end Reaches

-- ---------------------------------------------------------------------------
-- What leaves the store as it is
-- ---------------------------------------------------------------------------

/-- The computation comes to an end and leaves the store as it is. -/
def Still (roots : List Handle) (x : Nat → Compile α) : Prop :=
  ∀ ⦃s fresh⦄, s.Orderly roots fresh → Ends x s fun _ s' => s' = s

namespace Still

variable {x : Nat → Compile α} {f : Nat → α → Compile β} {finder : Nat → Finder}

theorem pure {a : α} : Still roots fun _ => Pure.pure a :=
  fun _ _ _ => .pure rfl

theorem bind (hx : Still roots x) (hf : ∀ a, Still roots fun n => f n a) :
    Still roots fun n => x n >>= f n := by
  intro s fresh hs
  refine .bind (hx hs) ?_
  rintro a s rfl
  exact hf a hs

/-- A root is read; nothing is nested in it. -/
theorem typeOf_bind {f : Nat → SchemaType → Compile β} (hk : k ∈ roots)
    (hf : ∀ t, t.inner = [] → Still roots fun n => f n t) : Still roots fun n => typeOf k >>= f n := by
  intro s fresh hs
  obtain ⟨t, ht, rfl⟩ := hs.exists_root hk
  exact .typeOf_bind (hs.sound.get?_root ht) (hf t (hs.flat t ht) hs)

theorem fieldOf_bind {f : Nat → Field → Compile β} {i : Nat} (hk : k ∈ roots)
    (hf : ∀ fld, Still roots fun n => f n fld) : Still roots fun n => fieldOf k i >>= f n := by
  unfold fieldOf
  simp only [bind_assoc, pure_bind]
  exact typeOf_bind hk fun t _ => hf _

theorem mapM {γ : Type} {g : Nat → γ → Compile γ} (xs : List γ) (hg : ∀ x, Still roots fun n => g n x) :
    Still roots fun n => xs.mapM (g n) := by
  induction xs with
  | nil => exact pure
  | cons x xs ih =>
    simp only [List.mapM_cons]
    exact bind (hg x) fun _ => bind ih fun _ => pure

mutual

theorem mapTypesM {g : Nat → FieldType → Compile FieldType} (hg : ∀ ft, Still roots fun n => g n ft) :
    (f : Field) → Still roots fun n => f.mapTypesM (g n)
  | ⟨_, _, _, _, types, choices, _, _, _, _, _, _, _, _, _⟩ => by
    simp only [Field.mapTypesM]
    exact bind (mapM types hg) fun _ => bind (mapTypesOfM hg choices) fun _ => pure

theorem mapTypesOfM {g : Nat → FieldType → Compile FieldType} (hg : ∀ ft, Still roots fun n => g n ft) :
    (fs : List Field) → Still roots fun n => Field.mapTypesOfM (g n) fs
  | [] => pure
  | f :: fs => by
    simp only [Field.mapTypesOfM]
    exact bind (mapTypesM hg f) fun _ => bind (mapTypesOfM hg fs) fun _ => pure

end

/-- Nothing can be borrowed from a type in which nothing is nested. -/
theorem borrow (hfinder : Reaches roots p finder) (hk : k ∈ roots) (hh : h ∈ roots) (q : QName) :
    Still roots fun n => Schemata.borrow (finder n) k h q := by
  unfold Schemata.borrow
  refine typeOf_bind hh fun t hinner => ?_
  intro s fresh hs
  have hnone : t.innerNamed? q = none := by
    rw [innerNamed?, hinner]
    rfl
  rw [hnone]
  exact .bind (hfinder.findInner q hs hk) fun _ _ hfalse => hfalse.elim

theorem borrowTypes (hfinder : Reaches roots p finder) (hk : k ∈ roots) (hh : h ∈ roots) (f : Field) :
    Still roots fun n => Schemata.borrowTypes (finder n) k h f := by
  refine mapTypesM (fun ft => ?_) f
  unfold borrowType
  split
  · exact bind (borrow hfinder hk hh ft.qname) fun _ => pure
  · exact pure

end Still

-- ---------------------------------------------------------------------------
-- What leaves bases alone
-- ---------------------------------------------------------------------------

/-- The computation comes to an end with a value that satisfies `P` while a type is worked on, and
leaves the bases of the type alone. -/
def Mild (roots : List Handle) (p : Nat) (fresh : Option Handle) (h : Handle) (x : Nat → Compile α) (P : α → Prop) : Prop :=
  ∀ ⦃s t⦄, Active roots p fresh h s t → Ends x s fun a s' =>
    ∃ t', Active roots p fresh h s' t' ∧ Advances (some h) s s' ∧ t'.extensions = t.extensions ∧ P a

namespace Mild

variable {x : Nat → Compile α} {f : Nat → α → Compile β} {finder : Nat → Finder} {P : α → Prop}
  {Q : β → Prop}

theorem bind (hx : Mild roots p fresh h x P) (hf : ∀ a, P a → Mild roots p fresh h (fun n => f n a) Q) :
    Mild roots p fresh h (fun n => x n >>= f n) Q := by
  intro s t ht
  refine .bind (hx ht) ?_
  rintro a s₁ ⟨t₁, ht₁, hadv₁, hext₁, ha⟩
  refine (hf a ha ht₁).mono ?_
  rintro b s₂ ⟨t₂, ht₂, hadv₂, hext₂, hb⟩
  exact ⟨t₂, ht₂, hadv₁.trans hadv₂, hext₂.trans hext₁, hb⟩

theorem pure {a : α} (ha : P a) : Mild roots p fresh h (fun _ => Pure.pure a) P :=
  fun s t ht => .pure ⟨t, ht, .refl _ s, rfl, ha⟩

theorem of_still (hx : Still roots x) : Mild roots p fresh h x fun _ => True := by
  intro s t ht
  refine (hx ht.orderly).mono ?_
  rintro _ s rfl
  exact ⟨t, ht, .refl _ s, rfl, trivial⟩

theorem get_bind {f : Nat → Store → Compile β} (hf : ∀ s, Mild roots p fresh h (fun n => f n s) Q) :
    Mild roots p fresh h (fun n => get >>= f n) Q :=
  fun s _ ht => .get_bind (hf s ht)

/-- A root is read; nothing is nested in it. -/
theorem typeOf_bind {f : Nat → SchemaType → Compile β} (hk : k ∈ roots)
    (hf : ∀ t, t.inner = [] → Mild roots p fresh h (fun n => f n t) Q) :
    Mild roots p fresh h (fun n => typeOf k >>= f n) Q := by
  intro s t ht
  obtain ⟨u, hu, rfl⟩ := ht.orderly.exists_root hk
  exact .typeOf_bind (ht.orderly.sound.get?_root hu) (hf u (ht.orderly.flat u hu) ht)

theorem fieldOf_bind {f : Nat → Field → Compile β} {i : Nat} (hk : k ∈ roots)
    (hf : ∀ fld, Mild roots p fresh h (fun n => f n fld) Q) :
    Mild roots p fresh h (fun n => fieldOf k i >>= f n) Q := by
  unfold fieldOf
  simp only [bind_assoc, pure_bind]
  exact typeOf_bind hk fun t _ => hf _

theorem update (hg : ∀ t, t.inner = [] → Alike t (g t) ∧ (g t).status = t.status ∧
    (g t).extensions = t.extensions) : Mild roots p fresh h (fun _ => Compile.update h g) fun _ => True := by
  intro s t ht
  obtain ⟨halike, hstatus, hext⟩ := hg t (ht.orderly.flat t ht.mem)
  obtain ⟨ht', hadv⟩ := ht.update_sub halike hstatus fun e he => ⟨e, hext ▸ he, rfl, rfl⟩
  exact .const (wp_update.mpr ⟨g t, ht', hadv, hext, trivial⟩)

theorem update_fields (hg : ∀ t, g t = { t with fields := (g t).fields }) :
    Mild roots p fresh h (fun _ => Compile.update h g) fun _ => True := by
  refine update fun t _ => ?_
  rw [hg t]
  exact ⟨⟨rfl, rfl, rfl, rfl⟩, rfl, rfl⟩

theorem updateField {i : Nat} {change : Field → Field} :
    Mild roots p fresh h (fun _ => Compile.updateField h i change) fun _ => True :=
  update_fields fun _ => rfl

theorem note {g : Store → Store} (hg : ∀ s, g s = { s with journal := (g s).journal }) :
    Mild roots p fresh h (fun _ => modify g) fun _ => True := by
  intro s t ht
  obtain ⟨ht', hadv⟩ := ht.quiet (g s).journal
  rw [← hg s] at ht' hadv
  exact .const (wp_modify.mpr ⟨t, ht', hadv, rfl, trivial⟩)

theorem forM {γ : Type} {g : Nat → γ → Compile Unit} (xs : List γ)
    (hg : ∀ x, Mild roots p fresh h (fun n => g n x) fun _ => True) :
    Mild roots p fresh h (fun n => xs.forM (g n)) fun _ => True := by
  induction xs with
  | nil => exact pure trivial
  | cons x xs ih =>
    simp only [List.forM_eq_forM, List.forM_cons]
    exact bind (hg x) fun _ _ => ih

/-- What is found is a root. -/
def FoundRoot (roots : List Handle) (r : Option Handle) : Prop :=
  ∀ k, r = some k → k ∈ roots

theorem find (hfinder : Reaches roots p finder) (q : QName) (c : SchemaType → Bool) :
    Mild roots p none h (fun n => (finder n).find q c) (FoundRoot roots) := by
  intro s t ht
  refine (hfinder.find_active q c ht).mono ?_
  rintro r s' ⟨ht', hadv, hr⟩
  refine ⟨t, ht', hadv.of_none _, rfl, ?_⟩
  rintro k rfl
  obtain ⟨u, hlookup, rfl, -⟩ := hr
  exact ht'.orderly.mem_roots (ht'.orderly.sound.mem_of_lookup? hlookup).1

theorem findPreferred (hfinder : Reaches roots p finder) (q : QName) (tag : Tag) :
    Mild roots p none h (fun n => (finder n).findPreferred q tag) (FoundRoot roots) := by
  intro s t ht
  refine (hfinder.findPreferred q tag ht).mono ?_
  rintro r s' ⟨ht', hadv, hr⟩
  refine ⟨t, ht', hadv.of_none _, rfl, fun k hk => ?_⟩
  obtain ⟨u, hfound, rfl, -⟩ := hr k hk
  exact ht'.orderly.mem_roots (ht'.orderly.sound.preferred? hfound).1

/-- Nothing is nested in a root, so that nothing comes after a look-up among what is nested in it. -/
theorem findInner_bind (hfinder : Reaches roots p finder) (hk : k ∈ roots) (q : QName)
    {f : Nat → Handle → Compile β} :
    Mild roots p fresh h (fun n => (finder n).findInner k q >>= f n) Q :=
  fun _ _ ht => .bind (hfinder.findInner q ht.orderly hk) fun _ _ hfalse => hfalse.elim

end Mild

end Schemata
