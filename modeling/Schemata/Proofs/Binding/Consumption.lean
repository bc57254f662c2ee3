import Schemata.Binding.Wrappers
import Schemata.Proofs.Model.Fields
import Schemata.Proofs.Step.WeakestPre
import Schemata.Proofs.Store.Outtakes

/-!
# Types that are used up

Binding a field may use an inner type up: a type that only wraps a value is taken out once it has been
seen through, and so is the wrapper of a list. What else refers to it is stranded. This happens only to
references of its name, and not at all as long as every inner type is referred to once.
-/

namespace Schemata

open Compile SchemaType

variable {α β : Type} {key : Nat} {alone : Prop} {P P' : List QName} {s s' s'' : Store}
  {t t' t'' u v S : SchemaType} {f : Field} {ft : FieldType} {i : Nat} {h : Handle} {q : QName}

-- ---------------------------------------------------------------------------
-- What is kept up
-- ---------------------------------------------------------------------------

/-- The names of the nested types that a field refers to. -/
def Field.forwardNames (f : Field) : List QName :=
  (f.types.filter (·.forward)).map (·.qname)

/-- The type gives way to what it holds. -/
def SchemaType.GivesWay (t : SchemaType) : Prop :=
  t.isTransparent = true ∨ t.wrapped?.isSome = true

instance (t : SchemaType) : Decidable t.GivesWay :=
  inferInstanceAs (Decidable (_ ∨ _))

/-- While a type is worked on, a name that another type refers to is met: by a type nested there, by one
that has been taken out, or by an inner type of the type that is worked on. -/
def Store.Meets (s : Store) (key : Nat) (t u : SchemaType) (q : QName) : Prop :=
  (∃ k, s.Near key u k q) ∨ ∃ c ∈ t.inner, c.qname = q

/-- An inner type that gives way has at most one reference and takes nothing along. No two nested types
share a name, and none has the name of one that has been taken out. -/
structure Unshared (key : Nat) (s : Store) (t : SchemaType) : Prop where
  names : ((walkAll t.inner).map (·.qname)).Nodup
  once : ∀ c ∈ t.inner, c.GivesWay → (t.fields.flatMap Field.forwardNames).count c.qname ≤ 1
  direct : ∀ q ∈ t.fields.flatMap Field.forwardNames, ∃ c ∈ t.inner, c.qname = q
  apart : ∀ v ∈ walkAll (s.taken key), ∀ w ∈ walkAll t.inner, v.qname ≠ w.qname
  light : ∀ u, s.Knows u → u.id ≠ t.id → u.GivesWay → ∀ ft, u.Declares ft → ft.forward = false

/-- What holds while `t` is worked on, with references to the names `P` still to be met. -/
structure Tended (key : Nat) (alone : Prop) (P : List QName) (s : Store) (t : SchemaType) : Prop where
  whole : s.Whole
  le : key ≤ s.nextKey
  held : s.Holds t
  meets : ∀ u, s.Knows u → ∀ ft, u.Declares ft → ft.forward = true →
    ft.circular = false ∧ (s.Meets key t u ft.qname ∨ ft.qname ∈ P)
  unshared : alone → Unshared key s t

/-- What working on `t` does to the store. -/
structure Alters (key : Nat) (s : Store) (t : SchemaType) (s' : Store) (t' : SchemaType) : Prop where
  id : t'.id = t.id
  own : ∀ k q, s.Near key t k q → s'.Near key t' k q
  others : ∀ u, s.Knows u → u.id ≠ t.id → ∃ u', s'.Knows u' ∧ u'.id = u.id ∧ u'.fields = u.fields ∧
    ∀ q, s.Meets key t u q → s'.Meets key t' u' q

/-- The failure for a name that a type has had which is taken out, unless nothing is shared. -/
def Bereft (key : Nat) (alone : Prop) (e : Failure) (s : Store) : Prop :=
  ¬ alone ∧ ∃ parent q, e = innerNotFound parent q ∧ ∃ v ∈ walkAll (s.taken key), v.qname = q

/-- The computation works on `t`, and `Q` holds in the end. -/
def Tends (key : Nat) (alone : Prop) (P : List QName) (x : Compile α) (s : Store) (t : SchemaType)
    (Q : α → Store → SchemaType → Prop) : Prop :=
  wp x (fun a s' => ∃ t', Tended key alone P s' t' ∧ Alters key s t s' t' ∧ Q a s' t')
    (Bereft key alone) s

theorem Alters.refl (key : Nat) (s : Store) (t : SchemaType) : Alters key s t s t where
  id := rfl
  own _ _ hkq := hkq
  others u hu _ := ⟨u, hu, rfl, rfl, fun _ hq => hq⟩

theorem Alters.trans (h : Alters key s t s' t') (h' : Alters key s' t' s'' t'') : Alters key s t s'' t'' where
  id := h'.id.trans h.id
  own k q hkq := h'.own k q (h.own k q hkq)
  others u hu hne := by
    obtain ⟨u', hu', hid, hfields, hmeets⟩ := h.others u hu hne
    obtain ⟨u'', hu'', hid', hfields', hmeets'⟩ := h'.others u' hu' (by rwa [hid, h.id])
    exact ⟨u'', hu'', hid'.trans hid, hfields'.trans hfields, fun q hq => hmeets' q (hmeets q hq)⟩

theorem Tended.get? (hi : Tended key alone P s t) : s.get? t.id = some t :=
  (Store.get?_eq_some_iff hi.whole).mpr ⟨hi.held.knows, rfl⟩

namespace Tends

variable {x : Compile α} {y : α → Compile β} {Q : α → Store → SchemaType → Prop}
  {Q' : β → Store → SchemaType → Prop}

theorem pure {a : α} (hi : Tended key alone P s t) (hQ : Q a s t) :
    Tends key alone P (Pure.pure a) s t Q := by
  unfold Tends
  rw [wp_pure]
  exact ⟨t, hi, .refl key s t, hQ⟩

theorem bind (hx : Tends key alone P x s t Q)
    (hy : ∀ a s' t', Tended key alone P s' t' → Alters key s t s' t' → Q a s' t' →
      Tends key alone P' (y a) s' t' Q') : Tends key alone P' (x >>= y) s t Q' := by
  unfold Tends
  rw [wp_bind]
  refine wp_mono hx ?_ fun _ _ h => h
  rintro a s' ⟨t', hi, halters, hQ⟩
  refine wp_mono (hy a s' t' hi halters hQ) ?_ fun _ _ h => h
  rintro b s'' ⟨t'', hi', halters', hQ'⟩
  exact ⟨t'', hi', halters.trans halters', hQ'⟩

theorem mono {Q' : α → Store → SchemaType → Prop} (hx : Tends key alone P x s t Q)
    (hQ : ∀ a s' t', Tended key alone P s' t' → Alters key s t s' t' → Q a s' t' → Q' a s' t') :
    Tends key alone P x s t Q' := by
  refine wp_mono hx ?_ fun _ _ h => h
  rintro a s' ⟨t', hi, halters, ha⟩
  exact ⟨t', hi, halters, hQ a s' t' hi halters ha⟩

theorem get_bind {y : Store → Compile β} (hy : Tends key alone P (y s) s t Q') :
    Tends key alone P (get >>= y) s t Q' := by
  unfold Tends
  rw [wp_bind, wp_get]
  exact hy

theorem typeOf_bind {y : SchemaType → Compile β} (hs : s.Whole) (hu : s.Knows u) (hid : u.id = h)
    (hy : Tends key alone P (y u) s t Q') : Tends key alone P (typeOf h >>= y) s t Q' := by
  subst hid
  unfold Tends
  rw [wp_bind, wp_typeOf ((Store.get?_eq_some_iff hs).mpr ⟨hu, rfl⟩)]
  exact hy

theorem fieldOf_bind {y : Field → Compile β} (hs : s.Whole) (hu : s.Knows u) (hid : u.id = h)
    (hy : Tends key alone P (y (u.fields[i]?.getD {})) s t Q') :
    Tends key alone P (fieldOf h i >>= y) s t Q' := by
  unfold fieldOf
  rw [bind_assoc]
  refine typeOf_bind hs hu hid ?_
  rw [pure_bind]
  exact hy

theorem throw (halone : ¬ alone) {parent : SchemaType} (hv : v ∈ walkAll (s.taken key)) :
    Tends key alone P (MonadExcept.throw (innerNotFound parent v.qname) : Compile α) s t Q := by
  unfold Tends
  rw [wp_throw]
  exact ⟨halone, parent, v.qname, rfl, v, hv, rfl⟩

end Tends

-- ---------------------------------------------------------------------------
-- Changes of the type that is worked on
-- ---------------------------------------------------------------------------

theorem Store.Near.meets {k : Handle} (h : s.Near key u k q) : s.Meets key t u q :=
  .inl ⟨k, h⟩

namespace Store.Reworks

variable {extra : List SchemaType}

theorem meets (h : Reworks key extra s t s' t') {u' : SchemaType}
    (hnear : ∀ k q, s.Near key u k q → ∃ k', s'.Near key u' k' q) (hq : s.Meets key t u q) :
    s'.Meets key t' u' q := by
  obtain ⟨k, hk⟩ | ⟨c, hc, rfl⟩ := hq
  · exact .inl (hnear k q hk)
  · obtain hc | hc := h.inner c hc
    · exact .inr ⟨c, hc, rfl⟩
    · exact (Near.of_taken (mem_walkAll_iff.mpr ⟨c, hc, .self⟩) u').meets

theorem meets_own (h : Reworks key extra s t s' t') (hq : s.Meets key t t q) : s'.Meets key t' t' q :=
  h.meets (fun k q hkq => ⟨k, h.own k q hkq⟩) hq

theorem alters (h : Reworks key extra s t s' t') : Alters key s t s' t' where
  id := h.id
  own := h.own
  others u hu hne := by
    obtain ⟨u', hu', hid, hfields, hnear⟩ := h.others u hu hne
    exact ⟨u', hu', hid, hfields, fun q => h.meets fun k q hkq => ⟨k, hnear k q hkq⟩⟩

/-- What is left to see to when the type that is worked on has been changed: its own references, and that
nothing is shared if nothing was. -/
theorem tended (h : Reworks key extra s t s' t') (hi : Tended key alone P s t) (hP : P ⊆ P')
    (hmeets : ∀ ft, t'.Declares ft → ft.forward = true →
      ft.circular = false ∧ (s'.Meets key t' t' ft.qname ∨ ft.qname ∈ P'))
    (hunshared : alone → Unshared key s' t') : Tended key alone P' s' t' where
  whole := h.whole
  le := Nat.le_trans hi.le h.le
  held := h.held
  meets u' hu' ft hft hforward := by
    by_cases hid : u'.id = t.id
    · obtain rfl := hu'.eq_of_id h.whole h.held.knows (hid.trans h.id.symm)
      exact hmeets ft hft hforward
    · obtain ⟨u, inner, hu, rfl, hnear⟩ | ⟨-, u, hu, hspeaks, hnear⟩ := h.sources u' hu' hid
      · obtain ⟨hcircular, hq⟩ := hi.meets u hu ft hft hforward
        exact ⟨hcircular, hq.imp (h.meets fun k q hkq => ⟨k, hnear k q hkq⟩) fun hq => hP hq⟩
      · obtain ⟨ft', hft', hname, hforward', hcircular'⟩ := hspeaks ft hft
        obtain ⟨hcircular, hq⟩ := hi.meets u hu ft' hft' (hforward'.trans hforward)
        rw [hname] at hq
        exact ⟨hcircular' ▸ hcircular, hq.imp (h.meets hnear) fun hq => hP hq⟩
  unshared := hunshared

/-- What gives way is as light as before, if nothing has been copied. -/
theorem light (h : Reworks key [] s t s' t') (hu : Unshared key s t) :
    ∀ u', s'.Knows u' → u'.id ≠ t'.id → u'.GivesWay → ∀ ft, u'.Declares ft → ft.forward = false := by
  intro u' hu' hne
  rw [h.id] at hne
  obtain ⟨u, inner, hknows, rfl, -⟩ | ⟨⟨x, hx, -⟩, -⟩ := h.sources u' hu' hne
  · exact hu.light u hknows hne
  · exact absurd hx List.not_mem_nil

end Store.Reworks

theorem forwardNames_set_sublist {fields : List Field} {f' : Field} (hf : fields[i]? = some f)
    (hsub : f'.forwardNames.Sublist f.forwardNames) :
    ((fields.set i f').flatMap Field.forwardNames).Sublist (fields.flatMap Field.forwardNames) := by
  obtain ⟨hlt, rfl⟩ := List.getElem?_eq_some_iff.mp hf
  rw [List.set_eq_take_append_cons_drop, if_pos hlt]
  conv_rhs => rw [← List.take_append_drop i fields, List.drop_eq_getElem_cons hlt]
  simp only [List.flatMap_append, List.flatMap_cons]
  exact (hsub.append_right _).append_left _

namespace Tended

theorem meets_own (hi : Tended key alone P s t) (hf : t.fields[i]? = some f) (hft : f.Refers ft)
    (hforward : ft.forward = true) :
    ft.circular = false ∧ (s.Meets key t t ft.qname ∨ ft.qname ∈ P) :=
  hi.meets t hi.held.knows ft (.inl ⟨f, List.mem_of_getElem? hf, hft⟩) hforward

/-- All names that were still to be met are those of inner types. -/
theorem settle (hi : Tended key alone P s t) (hP : ∀ q ∈ P, ∃ c ∈ t.inner, c.qname = q) :
    Tended key alone [] s t where
  whole := hi.whole
  le := hi.le
  held := hi.held
  meets u hu ft hft hforward := by
    obtain ⟨hcircular, hq⟩ := hi.meets u hu ft hft hforward
    exact ⟨hcircular, .inl (hq.elim (fun hq => hq) fun hq => .inr (hP _ hq))⟩
  unshared := hi.unshared

/-- A change of a field. What its references name has to be met, or is still to be. -/
theorem updateField (hi : Tended key alone P s t) (ht : t.id = h) (hf : t.fields[i]? = some f)
    (g : Field → Field) (hP : P ⊆ P') (hrefs : ∀ ft, (g f).Refers ft → ft.forward = true →
      ft.circular = false ∧ (s.Meets key t t ft.qname ∨ ft.qname ∈ P'))
    (hnames : alone → (g f).forwardNames.Sublist f.forwardNames) :
    Tends key alone P' (updateField h i g) s t fun _ _ t' =>
      t' = t.setField i (g f) := by
  subst ht
  have hextends : Extends (fun t => { t with fields := t.fields.modify i g }) [] :=
    ⟨fun _ => rfl, fun _ => rfl, fun _ => rfl, fun _ => (List.append_nil _).symm⟩
  have hreworks := hi.whole.reworks_update hi.held hextends (.nil _) (by simp) key
  have heq : ({ t with fields := t.fields.modify i g } : SchemaType) = t.setField i (g f) := by
    rw [List.modify_eq_set_getElem?, hf]
    rfl
  rw [heq] at hreworks
  unfold Tends Compile.updateField
  rw [wp_update]
  refine ⟨_, hreworks.tended hi hP ?_ fun halone => ?_, hreworks.alters, rfl⟩
  · rintro ft (⟨f', hf', hft⟩ | hft) hforward
    · obtain hf' | rfl := List.mem_or_eq_of_mem_set hf'
      · obtain ⟨hcircular, hq⟩ := hi.meets t hi.held.knows ft (.inl ⟨f', hf', hft⟩) hforward
        exact ⟨hcircular, hq.imp hreworks.meets_own fun hq => hP hq⟩
      · obtain ⟨hcircular, hq⟩ := hrefs ft hft hforward
        exact ⟨hcircular, hq.imp_left hreworks.meets_own⟩
    · obtain ⟨hcircular, hq⟩ := hi.meets t hi.held.knows ft (.inr hft) hforward
      exact ⟨hcircular, hq.imp hreworks.meets_own fun hq => hP hq⟩
  · have hu := hi.unshared halone
    have hsub := forwardNames_set_sublist hf (hnames halone)
    refine ⟨hu.names, fun c hc hgives => Nat.le_trans (hsub.count_le _) (hu.once c hc hgives),
      fun q hq => hu.direct q (hsub.subset hq), ?_, hreworks.light hu⟩
    have htaken := hi.whole.taken_update hi.held
      (fun t => { t with fields := t.fields.modify i g }) s.nextHandle key
    rw [htaken]
    exact hu.apart

/-- A note changes nothing that matters. -/
theorem note (hi : Tended key alone P s t) {g : Store → Store} {journal : List Event}
    (hg : g s = { s with journal }) : Tends key alone P (modify g) s t fun _ _ t' => t' = t := by
  unfold Tends
  rw [wp_modify, hg]
  refine ⟨t, ⟨⟨hi.whole.keys, hi.whole.keysBelow, hi.whole.handles⟩, hi.le, hi.held, hi.meets, ?_⟩,
    ⟨rfl, fun _ _ hkq => hkq, fun u hu _ => ⟨u, hu, rfl, rfl, fun _ hq => hq⟩⟩, rfl⟩
  intro halone
  obtain ⟨hnames, honce, hdirect, hapart, hlight⟩ := hi.unshared halone
  exact ⟨hnames, honce, hdirect, hapart, hlight⟩

end Tended

-- ---------------------------------------------------------------------------
-- Copies
-- ---------------------------------------------------------------------------

/-- Nothing happens to the type but that copies may be put into it. -/
structure Gains (t t' : SchemaType) : Prop where
  fields : t'.fields = t.fields
  inner : t.inner ⊆ t'.inner

theorem Gains.refl (t : SchemaType) : Gains t t :=
  ⟨rfl, List.Subset.refl _⟩

theorem Gains.trans (h : Gains t t') (h' : Gains t' t'') : Gains t t'' :=
  ⟨h'.fields.trans h.fields, List.Subset.trans h.inner h'.inner⟩

namespace Tended

/-- The type found is nested, or all that have the name are taken out. -/
theorem findNested (hi : Tended key alone P s t) (hu : s.Knows u) (hid : u.id = h)
    (hq : (∃ k, s.Near key u k q) ∧ (alone → ∃ v : SchemaType, v.Nested u ∧ v.qname = q)) :
    Tends key alone P (Finder.plain.findInner h q) s t fun k s' t' =>
      s' = s ∧ t' = t ∧ ∃ v : SchemaType, v.Nested u ∧ v.id = k ∧ v.qname = q := by
  unfold Finder.plain Schemata.findNested
  dsimp only
  rw [bind_assoc]
  refine .typeOf_bind hi.whole hu hid ?_
  cases hnested : u.nested? q with
  | some v =>
    have hv : v.Nested u := mem_walkAll_inner_iff.mp (List.mem_of_find?_eq_some hnested)
    have hname := List.find?_some hnested
    exact .pure hi ⟨rfl, rfl, v, hv, rfl, beq_iff_eq.mp hname⟩
  | none =>
    have hnone : ∀ v : SchemaType, v.Nested u → v.qname ≠ q := fun v hv => by
      simpa using List.find?_eq_none.mp hnested v (mem_walkAll_inner_iff.mpr hv)
    obtain ⟨⟨k, v, hv | hv, -, rfl⟩, halone⟩ := hq
    · exact absurd rfl (hnone v hv)
    · refine .bind (P := P) (Q := fun _ _ _ => False) (.throw (fun ha => ?_) hv) fun _ _ _ _ _ h => h.elim
      obtain ⟨w, hw, hname⟩ := halone ha
      exact hnone w hw hname

/-- A copy is put into the type. -/
theorem adopt (hi : Tended key alone P s t) (ht : t.id = h) (halone : ¬ alone) (hv : s.Knows v) :
    Tends key alone P (do
      let copy ← modifyGet (·.copy v)
      Compile.update h fun t => { t with inner := t.inner ++ [copy] }
      Pure.pure copy.id) s t fun k _ t' => Gains t t' ∧ ∃ c ∈ t'.inner, c.id = k ∧ c.qname = v.qname := by
  subst ht
  have hextends : Extends (fun t => { t with inner := t.inner ++ [(v.clone s.nextHandle).1] })
      [(v.clone s.nextHandle).1] := ⟨fun _ => rfl, fun _ => rfl, fun _ => rfl, fun _ => rfl⟩
  have hnumbered : Numbered ([(v.clone s.nextHandle).1].flatMap SchemaType.handles) s.nextHandle
      (v.clone s.nextHandle).2 := by
    rw [List.flatMap_singleton]
    exact numbered_clone v s.nextHandle
  have hreworks := hi.whole.reworks_update hi.held hextends hnumbered (fun x hx w hw => ?_) key
  · unfold Tends
    simp only [wp_bind, wp_modifyGet, wp_update, wp_pure]
    refine ⟨_, hreworks.tended hi (List.Subset.refl P) ?_ (fun ha => absurd ha halone), hreworks.alters,
      ⟨rfl, List.subset_append_left _ _⟩, _, List.mem_append_right _ (List.mem_singleton_self _), rfl,
      qname_clone v _⟩
    intro ft hft hforward
    obtain ⟨hcircular, hq⟩ := hi.meets t hi.held.knows ft hft hforward
    exact ⟨hcircular, hq.imp_left hreworks.meets_own⟩
  · obtain rfl := List.mem_singleton.mp hx
    obtain ⟨w', hw', hspeaks, hnames⟩ := speaksAs_of_within_clone hw
    exact ⟨w', hv.within hw', hspeaks, hnames⟩

/-- A name of a nested type that is taken over is borrowed. -/
theorem borrow {k : Handle} (hi : Tended key alone P s t) (ht : t.id = h) (halone : ¬ alone)
    (hS : s.Knows S) (hk : S.id = k) (hq : s.Meets key t S q) :
    Tends key alone P (borrow .plain k h q) s t fun r _ t' =>
      Gains t t' ∧ ∃ c ∈ t'.inner, c.id = r ∧ c.qname = q := by
  unfold Schemata.borrow
  refine .typeOf_bind hi.whole hi.held.knows ht ?_
  unfold innerNamed?
  cases hnamed : t.inner.find? (·.qname == q) with
  | some c =>
    have hname := List.find?_some hnamed
    exact .pure hi ⟨.refl t, c, List.mem_of_find?_eq_some hnamed, rfl, beq_iff_eq.mp hname⟩
  | none =>
    have hnear : ∃ k, s.Near key S k q := by
      obtain hnear | ⟨c, hc, hname⟩ := hq
      · exact hnear
      · have hne := List.find?_eq_none.mp hnamed c hc
        simp [hname] at hne
    refine .bind (hi.findNested hS hk ⟨hnear, fun ha => absurd ha halone⟩) ?_
    rintro r s' t' hi' - ⟨rfl, rfl, v, hv, hid, rfl⟩
    have hv := hS.within hv.within
    exact .typeOf_bind hi'.whole hv hid (hi'.adopt ht halone hv)

end Tended

/-- The field with other references. -/
def Field.withTypes (f : Field) (types : List FieldType) : Field :=
  { f with types }

@[simp] theorem Field.withTypes_types (f : Field) (types : List FieldType) :
    (f.withTypes types).types = types := rfl

@[simp] theorem Field.withTypes_withTypes (f : Field) (types types' : List FieldType) :
    (f.withTypes types).withTypes types' = f.withTypes types' := rfl

@[simp] theorem Field.withTypes_self (f : Field) : f.withTypes f.types = f := by
  cases f
  rfl

/-- The same reference, maybe bound to another type. -/
def FieldType.Like (ft ft' : FieldType) : Prop :=
  ∃ reference, ft' = { ft with reference }

section Splicing

variable {front mid back : List FieldType} {ft' : FieldType}

/-- When types have taken the place of one of a field's own, the field refers to what it has referred to
and to these. -/
theorem Field.Refers.of_splice (htypes : f.types = front ++ ft :: back)
    (h : (f.withTypes (front ++ (mid ++ back))).Refers ft') : f.Refers ft' ∨ ft' ∈ mid := by
  cases h with
  | own h =>
    obtain hfront | h := List.mem_append.mp h
    · exact .inl (.own (htypes ▸ List.mem_append_left _ hfront))
    obtain hmid | hback := List.mem_append.mp h
    · exact .inr hmid
    · exact .inl (.own (htypes ▸ List.mem_append_right _ (List.mem_cons_of_mem _ hback)))
  | choice hc h => exact .inl (.choice hc h)

theorem forwardNames_splice_sublist (htypes : f.types = front ++ ft :: back)
    (hmid : ((mid.filter (·.forward)).map (·.qname)).Sublist (([ft].filter (·.forward)).map (·.qname))) :
    (f.withTypes (front ++ (mid ++ back))).forwardNames.Sublist f.forwardNames := by
  rw [Field.forwardNames, Field.forwardNames, htypes, Field.withTypes_types, ← List.singleton_append]
  simp only [List.filter_append, List.map_append]
  exact (hmid.append_right _).append_left _

end Splicing

/-- What a field reads as its content belongs to the type. -/
theorem declares_first (S : SchemaType) : ∀ ft ∈ (S.fields[0]?.getD ({} : Field)).types, S.Declares ft := by
  intro ft hft
  cases hfield : S.fields[0]? with
  | none =>
    rw [hfield] at hft
    exact absurd hft List.not_mem_nil
  | some f =>
    rw [hfield] at hft
    exact .inl ⟨f, List.mem_of_getElem? hfield, .own hft⟩

/-- The reference is bound to an inner type of its name. -/
def BoundIn (t : SchemaType) (ft : FieldType) : Prop :=
  ft.forward = true → ∃ c ∈ t.inner, c.id = ft.reference ∧ c.qname = ft.qname

namespace Tended

/-- The reference at a position. -/
theorem refAt_bind {y : FieldType → Compile β} {Q' : β → Store → SchemaType → Prop}
    {front back : List FieldType} (hi : Tended key alone P s t) (ht : t.id = h)
    (hf : t.fields[i]? = some f) (htypes : f.types = front ++ ft :: back)
    (hy : Tends key alone P' (y ft) s t Q') :
    Tends key alone P' (refAt h i front.length >>= y) s t Q' := by
  unfold refAt
  rw [bind_assoc]
  refine .fieldOf_bind hi.whole hi.held.knows ht ?_
  rw [pure_bind, hf, Option.getD_some, htypes]
  simpa using hy

/-- A change of one reference to another that names the same. -/
theorem updateRef {front back : List FieldType} (hi : Tended key alone P s t) (ht : t.id = h)
    (hf : t.fields[i]? = some f) (htypes : f.types = front ++ ft :: back) (g : FieldType → FieldType)
    (hg : (g ft).forward = true → ft.forward = true ∧ (g ft).qname = ft.qname ∧
      (g ft).circular = ft.circular) :
    Tends key alone P (updateRef h i front.length g) s t fun _ _ t' =>
      t' = t.setField i (f.withTypes (front ++ g ft :: back)) := by
  have hmodify : ({ f with types := f.types.modify front.length g } : Field) =
      f.withTypes (front ++ ([g ft] ++ back)) := by rw [htypes, Lists.modify_append_cons]; rfl
  unfold Schemata.updateRef
  refine (hi.updateField ht hf _ (List.Subset.refl P) ?_ fun _ => ?_).mono ?_
  · rw [hmodify]
    intro ft' hft' hforward
    obtain hft' | hft' := hft'.of_splice htypes
    · exact hi.meets_own hf hft' hforward
    · obtain rfl := List.mem_singleton.mp hft'
      obtain ⟨hforward, hname, hcircular⟩ := hg hforward
      rw [hname, hcircular]
      exact hi.meets_own hf (.own (htypes ▸ List.mem_append_right _ List.mem_cons_self)) hforward
  · rw [hmodify]
    refine forwardNames_splice_sublist htypes ?_
    cases hforward : (g ft).forward with
    | true =>
      obtain ⟨hforward', hname, -⟩ := hg hforward
      simp [hforward, hforward', hname]
    | false => simp [hforward]
  · rintro _ s' t' - - rfl
    rw [hmodify, List.singleton_append]

/-- The references that have been taken over from `S` are bound to inner types. -/
theorem bindCopies {k : Handle} {back : List FieldType} (front todo : List FieldType)
    (hi : Tended key alone P s t) (ht : t.id = h) (hS : s.Knows S) (hk : S.id = k) (hne : k ≠ h)
    (hf : t.fields[i]? = some f) (htypes : f.types = front ++ todo ++ back)
    (htodo : ∀ ft ∈ todo, ft.forward = true → ¬ alone ∧ s.Meets key t S ft.qname) :
    Tends key alone P (bindCopies .plain k h i (List.range' front.length todo.length)) s t
      fun _ _ t' => ∃ mid, t'.fields = t.fields.set i (f.withTypes (front ++ mid ++ back)) ∧
        t.inner ⊆ t'.inner ∧ List.Forall₂ FieldType.Like todo mid ∧ ∀ ft ∈ mid, BoundIn t' ft := by
  induction todo generalizing s t S f front with
  | nil =>
    refine .pure hi ⟨[], ?_, List.Subset.refl _, .nil, by simp⟩
    obtain ⟨hlt, rfl⟩ := List.getElem?_eq_some_iff.mp hf
    rw [← htypes, Field.withTypes_self, List.set_getElem_self]
  | cons ft todo ih =>
    have hsplit : f.types = front ++ ft :: (todo ++ back) := by simp [htypes]
    rw [List.length_cons, List.range'_succ, Schemata.bindCopies]
    refine hi.refAt_bind ht hf hsplit ?_
    -- what is left to do once this reference is seen to
    have hrest : ∀ {s' t' ft'}, Tended key alone P s' t' → Alters key s t s' t' →
        t'.fields = t.fields.set i (f.withTypes (front ++ ft' :: (todo ++ back))) →
        t.inner ⊆ t'.inner → ft.Like ft' → BoundIn t' ft' →
        Tends key alone P (Schemata.bindCopies .plain k h i
          (List.range' (front.length + 1) todo.length)) s' t' fun _ _ t'' => ∃ mid,
            t''.fields = t.fields.set i (f.withTypes (front ++ mid ++ back)) ∧
            t.inner ⊆ t''.inner ∧ List.Forall₂ FieldType.Like (ft :: todo) mid ∧
            ∀ ft ∈ mid, BoundIn t'' ft := by
      intro s' t' ft' hi' halters hfields hinner hlike hbound
      obtain ⟨S', hS', hid, -, hmeets⟩ := halters.others S hS (by rw [hk, ht]; exact hne)
      have hlt := (List.getElem?_eq_some_iff.mp hf).1
      have hf' : t'.fields[i]? = some (f.withTypes (front ++ ft' :: (todo ++ back))) := by
        rw [hfields, List.getElem?_set_self hlt]
      have hstep := ih (front ++ [ft']) hi' (halters.id.trans ht) hS' (hid.trans hk) hf'
        (by simp) fun ft hft hforward => by
          obtain ⟨halone, hq⟩ := htodo ft (List.mem_cons_of_mem _ hft) hforward
          exact ⟨halone, hmeets _ hq⟩
      rw [List.length_append, List.length_singleton] at hstep
      refine hstep.mono ?_
      rintro _ s'' t'' - - ⟨mid, hfields', hinner', hlikes, hbounds⟩
      refine ⟨ft' :: mid, ?_, List.Subset.trans hinner hinner', .cons hlike hlikes, ?_⟩
      · rw [hfields', hfields, List.set_set]
        simp
      · rintro ft hft
        obtain rfl | hft := List.mem_cons.mp hft
        · intro hforward
          obtain ⟨c, hc, heq⟩ := hbound hforward
          exact ⟨c, hinner' hc, heq⟩
        · exact hbounds ft hft
    split
    case isTrue hforward =>
      obtain ⟨halone, hq⟩ := htodo ft List.mem_cons_self hforward
      refine .bind (hi.borrow ht halone hS hk hq) ?_
      rintro r s₁ t₁ hi₁ halters₁ ⟨hgains, c, hc, hid, hname⟩
      have hf₁ : t₁.fields[i]? = some f := by rw [hgains.fields, hf]
      refine .bind (hi₁.updateRef (halters₁.id.trans ht) hf₁ hsplit (fun ft => { ft with reference := r })
        fun hforward => ⟨hforward, rfl, rfl⟩) ?_
      rintro _ s₂ t₂ hi₂ halters₂ rfl
      refine hrest hi₂ (halters₁.trans halters₂) ?_ hgains.inner ⟨r, rfl⟩ fun _ => ⟨c, hc, hid, hname⟩
      rw [setField, hgains.fields]
    case isFalse hforward =>
      refine hrest hi (.refl key s t) ?_ (List.Subset.refl _) ⟨ft.reference, rfl⟩ fun h => absurd h hforward
      obtain ⟨hlt, rfl⟩ := List.getElem?_eq_some_iff.mp hf
      rw [← hsplit, Field.withTypes_self, List.set_getElem_self]

end Tended

theorem Field.Refers.of_eq {f' : Field} (h : f'.Refers ft) (htypes : f'.types = f.types)
    (hchoices : f'.choices = f.choices) : f.Refers ft := by
  cases h with
  | own h => exact .own (htypes ▸ h)
  | choice hc h => exact .choice (hchoices ▸ hc) h

theorem forwardNames_eq_nil_iff {types : List FieldType} :
    (types.filter (·.forward)).map (·.qname) = [] ↔ ∀ ft ∈ types, ft.forward = false := by
  simp

/-- What has taken the place of a reference of a field, in which nothing else is changed. -/
structure Replaced (alone : Prop) (t : SchemaType) (i : Nat) (front back mid : List FieldType)
    (t' : SchemaType) : Prop where
  field : ∃ f', t'.fields = t.fields.set i f' ∧ f'.types = front ++ mid ++ back
  inner : t.inner ⊆ t'.inner
  bound : ∀ ft ∈ mid, BoundIn t' ft
  light : alone → ∀ ft ∈ mid, ft.forward = false

namespace Tended

/-- The references of a text type take the place of a reference to it. -/
theorem seeThrough {k : Handle} {front back : List FieldType} (hi : Tended key alone [] s t)
    (ht : t.id = h) (hS : s.Knows S) (hk : S.id = k) (hne : k ≠ h) (hf : t.fields[i]? = some f)
    (htypes : f.types = front ++ ft :: back) (hlight : alone → ∀ ft, S.Declares ft → ft.forward = false) :
    Tends key alone [] (seeThrough .plain k h i front.length) s t fun n _ t' =>
      ∃ mid, n = mid.length ∧ Replaced alone t i front back mid t' := by
  have hlt := (List.getElem?_eq_some_iff.mp hf).1
  unfold Schemata.seeThrough
  refine .fieldOf_bind hi.whole hS hk ?_
  have hdeclares := declares_first S
  generalize S.fields[0]?.getD ({} : Field) = text at hdeclares ⊢
  dsimp only
  have hput : f.withTypes (f.types.take front.length ++ text.types ++ f.types.drop (front.length + 1)) =
      f.withTypes (front ++ text.types ++ back) := by
    rw [htypes, List.take_left, ← List.drop_drop, List.drop_left, List.drop_one, List.tail_cons]
  refine .bind (P := (text.types.filter (·.forward)).map (·.qname))
    (hi.updateField ht hf
      (fun f => f.withTypes (f.types.take front.length ++ text.types ++ f.types.drop (front.length + 1)))
      (List.nil_subset _) ?_ fun halone => ?_) ?_
  · rw [hput, List.append_assoc]
    intro ft' hft' hforward
    obtain hft' | hmid := hft'.of_splice htypes
    · obtain ⟨hcircular, hq⟩ := hi.meets_own hf hft' hforward
      exact ⟨hcircular, hq.imp_right fun h => absurd h List.not_mem_nil⟩
    · refine ⟨(hi.meets S hS ft' (hdeclares ft' hmid) hforward).1, .inr ?_⟩
      exact List.mem_map_of_mem (List.mem_filter.mpr ⟨hmid, hforward⟩)
  · rw [hput, List.append_assoc]
    refine forwardNames_splice_sublist htypes ?_
    rw [forwardNames_eq_nil_iff.mpr fun ft hft => hlight halone ft (hdeclares ft hft)]
    exact List.nil_sublist _
  rintro _ s₁ t₁ hi₁ halters₁ rfl
  rw [hput] at hi₁ halters₁ ⊢
  obtain ⟨S₁, hS₁, hid₁, hfields₁, hmeets₁⟩ := halters₁.others S hS (by rw [hk, ht]; exact hne)
  have hf₁ : (t.setField i (f.withTypes (front ++ text.types ++ back))).fields[i]? =
      some (f.withTypes (front ++ text.types ++ back)) := getElem?_setField hf _
  have hplaces : (List.range text.types.length).map (front.length + ·) =
      List.range' front.length text.types.length := List.range'_eq_map_range.symm
  rw [hplaces]
  refine .bind (hi₁.bindCopies front text.types ht hS₁ (hid₁.trans hk) hne hf₁ rfl ?_) ?_
  · intro ft hft hforward
    refine ⟨fun halone => ?_, ?_⟩
    · rw [hlight halone ft (hdeclares ft hft)] at hforward
      cases hforward
    · obtain ⟨-, hq⟩ := hi.meets S hS ft (hdeclares ft hft) hforward
      exact hmeets₁ _ (hq.resolve_right List.not_mem_nil)
  rintro _ s₂ t₂ hi₂ halters₂ ⟨mid, hfields₂, hinner, hlikes, hbounds⟩
  have hsettled := hi₂.settle fun q hq => by
    obtain ⟨ft, hft, rfl⟩ := List.mem_map.mp hq
    obtain ⟨hft, hforward⟩ := List.mem_filter.mp hft
    obtain ⟨ft', hft', r, rfl⟩ := Lists.exists_mem_of_forall₂ hlikes.flip hft
    obtain ⟨c, hc, -, hname⟩ := hbounds _ hft' hforward
    exact ⟨c, hc, hname⟩
  have hne₁ : S₁.id ≠ t.id := by rw [hid₁, hk, ht]; exact hne
  obtain ⟨S₂, hS₂, hid₂, hfields₂', -⟩ := halters₂.others S₁ hS₁ hne₁
  refine .fieldOf_bind hsettled.whole hS₂ (hid₂.trans (hid₁.trans hk)) ?_
  replace hfields₂ : t₂.fields = t.fields.set i (f.withTypes (front ++ mid ++ back)) := by
    rw [hfields₂, setField, List.set_set, Field.withTypes_withTypes]
  have hf₂ : t₂.fields[i]? = some (f.withTypes (front ++ mid ++ back)) := by
    rw [hfields₂, List.getElem?_set_self hlt]
  refine .bind (P := []) (hsettled.updateField (halters₂.id.trans ht) hf₂ _ (List.Subset.refl _)
    (fun ft hft hforward => hsettled.meets_own hf₂ (hft.of_eq rfl rfl) hforward)
    fun _ => List.Sublist.refl _) ?_
  rintro _ s₃ t₃ hi₃ - rfl
  refine .pure hi₃ ⟨mid, hlikes.length_eq, ?_, hinner, hbounds, fun halone ft hft => ?_⟩
  · rw [setField, hfields₂]
    exact ⟨_, List.set_set _, rfl⟩
  · obtain ⟨ft', hft', r, rfl⟩ := Lists.exists_mem_of_forall₂ hlikes hft
    exact hlight halone ft' (hdeclares ft' hft')

end Tended

-- ---------------------------------------------------------------------------
-- Types that are taken out
-- ---------------------------------------------------------------------------

namespace Unshared

/-- The nested types of a name are one. -/
theorem eq_of_qname (hu : Unshared key s t) (hv : v.Nested t) (hw : u.Nested t) (hname : v.qname = u.qname) :
    v = u :=
  List.inj_on_of_nodup_map hu.names (mem_walkAll_inner_iff.mpr hv) (mem_walkAll_inner_iff.mpr hw) hname

/-- Inner types whose names are not referred to may be taken out. -/
theorem takeOut (hu : Unshared key s t) (hs : s.Whole) (ht : s.Holds t) (hkey : key ≤ s.nextKey)
    {p : SchemaType → Bool}
    (hspent : ∀ c ∈ t.inner, p c = false → c.qname ∉ t.fields.flatMap Field.forwardNames) :
    Unshared key (s.takeOut t p) (t.keeping p) := by
  have hperm : (walkAll (t.inner.filter p) ++ walkAll (t.inner.filter (!p ·))).Perm (walkAll t.inner) := by
    simp only [walkAll_eq_flatMap]
    rw [← List.flatMap_append]
    exact (List.filter_append_perm p t.inner).flatMap_right _
  have hnames := ((hperm.map (·.qname)).nodup_iff).mpr hu.names
  rw [List.map_append] at hnames
  obtain ⟨hkept, -, hdisjoint⟩ := List.nodup_append'.mp hnames
  have htaken : (s.takeOut t p).taken key = s.taken key ++ t.inner.filter (!p ·) := by
    rw [← hs.taken_update ht (keeping p) s.nextHandle key]
    exact Store.taken_setAside (s := s.update t.id (keeping p)) hkey _
  refine ⟨hkept, fun c hc => hu.once c (List.mem_of_mem_filter hc), fun q hq => ?_, fun v hv w hw => ?_,
    (hs.reworks_takeOut ht hkey p).light hu⟩
  · obtain ⟨c, hc, rfl⟩ := hu.direct q hq
    cases hp : p c with
    | true => exact ⟨c, List.mem_filter.mpr ⟨hc, hp⟩, rfl⟩
    | false => exact absurd hq (hspent c hc hp)
  · rw [htaken, walkAll_eq_flatMap, List.flatMap_append, ← walkAll_eq_flatMap, ← walkAll_eq_flatMap] at hv
    obtain hv | hv := List.mem_append.mp hv
    · exact hu.apart v hv w (hperm.subset (List.mem_append_left _ hw))
    · exact fun hname => hdisjoint (List.mem_map_of_mem hw) (hname ▸ List.mem_map_of_mem hv)

end Unshared

/-- An inner type whose name is not referred to is taken out. -/
theorem Tended.drop (hi : Tended key alone [] s t) (ht : t.id = h) {k : Handle}
    (hspent : alone → ∀ c ∈ t.inner, c.id = k → c.qname ∉ t.fields.flatMap Field.forwardNames) :
    Tends key alone [] (dropInner h k) s t fun _ _ t' => t' = t.keeping (·.id != k) := by
  subst ht
  have hreworks := hi.whole.reworks_takeOut hi.held hi.le (·.id != k)
  unfold dropInner
  refine .typeOf_bind hi.whole hi.held.knows rfl ?_
  have hgone : t.inner.filter (·.id == k) = t.inner.filter fun c => !(c.id != k) := by
    simp only [bne, Bool.not_not]
  unfold Tends
  rw [wp_bind, wp_update, wp_modify, hgone]
  refine ⟨_, hreworks.tended hi (List.Subset.refl _) (fun ft hft hforward => ?_) fun halone => ?_,
    hreworks.alters, rfl⟩
  · obtain ⟨hcircular, hq⟩ := hi.meets t hi.held.knows ft hft hforward
    exact ⟨hcircular, hq.imp_left hreworks.meets_own⟩
  · refine (hi.unshared halone).takeOut hi.whole hi.held hi.le fun c hc hp => ?_
    exact hspent halone c hc (by simpa using hp)

-- ---------------------------------------------------------------------------
-- Binding the references of a field
-- ---------------------------------------------------------------------------

/-- Once its only reference has been replaced, nothing names the type. -/
theorem not_mem_forwardNames_set {front back mid : List FieldType} {f' : Field}
    (honce : (t.fields.flatMap Field.forwardNames).count ft.qname ≤ 1) (hf : t.fields[i]? = some f)
    (htypes : f.types = front ++ ft :: back) (hforward : ft.forward = true)
    (htypes' : f'.types = front ++ mid ++ back) (hmid : ∀ ft ∈ mid, ft.forward = false) :
    ft.qname ∉ (t.fields.set i f').flatMap Field.forwardNames := by
  obtain ⟨hlt, rfl⟩ := List.getElem?_eq_some_iff.mp hf
  have hnone := forwardNames_eq_nil_iff.mpr hmid
  have hnames : (ft.qname :: f'.forwardNames).Perm t.fields[i].forwardNames := by
    rw [Field.forwardNames, Field.forwardNames, htypes, htypes']
    simp only [List.filter_append, List.map_append, List.filter_cons, hforward, hnone, List.append_nil,
      if_true, List.map_cons]
    exact List.perm_middle.symm
  have hperm : (ft.qname :: (t.fields.set i f').flatMap Field.forwardNames).Perm
      (t.fields.flatMap Field.forwardNames) := by
    rw [List.set_eq_take_append_cons_drop, if_pos hlt]
    conv_rhs => rw [← List.take_append_drop i t.fields, List.drop_eq_getElem_cons hlt]
    simp only [List.flatMap_append, List.flatMap_cons]
    refine List.perm_middle.symm.trans (List.Perm.append_left _ ?_)
    exact hnames.append_right _
  rw [← hperm.count_eq, List.count_cons_self] at honce
  exact List.count_eq_zero.mp (Nat.le_zero.mp (Nat.le_of_succ_le_succ honce))

/-- The reference is bound to a type of its name that is nested or has been taken out. -/
def Store.BindsNear (s : Store) (key : Nat) (t : SchemaType) (ft : FieldType) : Prop :=
  ft.forward = true → ft.native = false → s.Near key t ft.reference ft.qname

theorem BoundIn.bindsNear (h : BoundIn t ft) : s.BindsNear key t ft := by
  intro hforward _
  obtain ⟨c, hc, hid, hname⟩ := h hforward
  exact ⟨c, .inl ⟨c, hc, .self⟩, hid, hname⟩

theorem Store.BindsNear.alters (h : s.BindsNear key t ft) (halters : Alters key s t s' t') :
    s'.BindsNear key t' ft :=
  fun hforward hnative => halters.own _ _ (h hforward hnative)

/-- A number of references that are bound stand in the place of one. -/
def InPlace (key : Nat) (t : SchemaType) (i : Nat) (front back : List FieldType) (n : Nat) (s' : Store)
    (t' : SchemaType) : Prop :=
  ∃ mid f', n = mid.length ∧ t'.fields = t.fields.set i f' ∧ f'.types = front ++ mid ++ back ∧
    ∀ ft ∈ mid, s'.BindsNear key t' ft

namespace Tended

variable {front back : List FieldType}

/-- A type that the store knows is found, or none. -/
theorem find (hi : Tended key alone P s t) (q : QName) (p : SchemaType → Bool) :
    Tends key alone P (Finder.plain.find q p) s t fun r s' t' =>
      s' = s ∧ t' = t ∧ ∀ k, r = some k → ∃ u, s.Knows u ∧ u.id = k := by
  refine .get_bind (.pure hi ⟨rfl, rfl, fun k hk => ?_⟩)
  obtain ⟨u, hu, rfl⟩ := Option.map_eq_some_iff.mp hk
  exact ⟨u, Store.knows_of_lookup? hu, rfl⟩

theorem findPreferred (hi : Tended key alone P s t) (q : QName) (tag : Tag) :
    Tends key alone P (Finder.plain.findPreferred q tag) s t fun r s' t' =>
      s' = s ∧ t' = t ∧ ∀ k, r = some k → ∃ u, s.Knows u ∧ u.id = k := by
  unfold Finder.findPreferred
  induction preferences tag with
  | nil =>
    unfold Finder.findPreferred.go
    exact .pure hi ⟨rfl, rfl, nofun⟩
  | cons p ps ih =>
    unfold Finder.findPreferred.go
    refine .bind (hi.find q p) ?_
    rintro r s' t' - - ⟨rfl, rfl, hknows⟩
    cases r with
    | none => exact ih
    | some k => exact .pure hi ⟨rfl, rfl, hknows⟩

theorem bindForward (hi : Tended key alone [] s t) (ht : t.id = h) (hf : t.fields[i]? = some f)
    (htypes : f.types = front ++ ft :: back) (hforward : ft.forward = true) :
    Tends key alone [] (bindForward .plain h i front.length ft) s t (InPlace key t i front back) := by
  have hmem : ft ∈ f.types := htypes ▸ List.mem_append_right _ List.mem_cons_self
  obtain ⟨hcircular, hq⟩ := hi.meets_own hf (.own hmem) hforward
  have hdirect : alone → ∃ c ∈ t.inner, c.qname = ft.qname := fun halone =>
    (hi.unshared halone).direct _ (List.mem_flatMap.mpr ⟨f, List.mem_of_getElem? hf,
      List.mem_map_of_mem (List.mem_filter.mpr ⟨hmem, hforward⟩)⟩)
  unfold Schemata.bindForward
  rw [if_neg (by simp [hcircular])]
  refine .bind (hi.findNested hi.held.knows ht ⟨?_, fun halone => ?_⟩) ?_
  · obtain hnear | ⟨c, hc, hname⟩ := hq.resolve_right List.not_mem_nil
    · exact hnear
    · exact ⟨c.id, c, .inl ⟨c, hc, .self⟩, rfl, hname⟩
  · obtain ⟨c, hc, hname⟩ := hdirect halone
    exact ⟨c, ⟨c, hc, .self⟩, hname⟩
  rintro _ s t hi - ⟨rfl, rfl, v, hv, rfl, hname⟩
  have hknows := hi.held.knows.within hv.within
  have hne : v.id ≠ h := fun hid => not_mem_handles_of_nested (hi.held.knows.nodup_handles hi.whole) hv
    (SchemaType.mem_handles_iff.mpr ⟨v, .self, hid.trans ht.symm⟩)
  refine .typeOf_bind hi.whole hknows rfl ?_
  split
  case isTrue htransparent =>
    refine .bind (hi.seeThrough ht hknows rfl hne hf htypes fun halone =>
      (hi.unshared halone).light v hknows (ht ▸ hne) (.inl htransparent)) ?_
    rintro _ s₁ t₁ hi₁ halters₁ ⟨mid, rfl, ⟨f', hfields, htypes'⟩, hinner, hbound, hlight⟩
    refine .bind (hi₁.drop (k := v.id) (halters₁.id.trans ht) fun halone c hc hid => ?_) ?_
    · -- what is taken out is the inner type that the reference named, and nothing else names it
      obtain ⟨d, hd, hname'⟩ := hdirect halone
      obtain rfl := (hi.unshared halone).eq_of_qname ⟨d, hd, .self⟩ hv (hname'.trans hname.symm)
      have hknows₁ := hi₁.held.knows.within (.inner hc .self)
      obtain rfl := hknows₁.eq_of_id hi₁.whole (hi₁.held.knows.within (.inner (hinner hd) .self)) hid
      have honce := (hi.unshared halone).once _ hd (.inl htransparent)
      rw [hname] at honce
      rw [hfields, hname]
      exact not_mem_forwardNames_set honce hf htypes hforward htypes' (hlight halone)
    rintro _ s₂ t₂ hi₂ halters₂ rfl
    exact .pure hi₂ ⟨mid, f', rfl, hfields, htypes', fun ft hft => (hbound ft hft).bindsNear.alters halters₂⟩
  case isFalse =>
    refine .bind (hi.updateRef ht hf htypes (fun ft => { ft with reference := v.id })
      fun hforward => ⟨hforward, rfl, rfl⟩) ?_
    rintro _ s₁ t₁ hi₁ halters₁ rfl
    refine .pure hi₁ ⟨[{ ft with reference := v.id }], _, rfl, rfl, by simp, fun ft' hft' => ?_⟩
    rw [List.mem_singleton.mp hft']
    exact fun _ _ => halters₁.own _ _ ⟨v, .inl hv, rfl, hname⟩

theorem bindDependency (hi : Tended key alone [] s t) (ht : t.id = h) (hf : t.fields[i]? = some f)
    (htypes : f.types = front ++ ft :: back) (hforward : ft.forward = false) :
    Tends key alone [] (bindDependency .plain h i front.length ft) s t (InPlace key t i front back) := by
  unfold Schemata.bindDependency
  refine .fieldOf_bind hi.whole hi.held.knows ht ?_
  refine .bind (hi.findPreferred _ _) ?_
  rintro r s t hi - ⟨rfl, rfl, hfound⟩
  cases r with
  | none =>
    dsimp only
    refine hi.refAt_bind ht hf htypes (.typeOf_bind hi.whole hi.held.knows ht ?_)
    refine .fieldOf_bind hi.whole hi.held.knows ht (.get_bind ?_)
    refine .bind (hi.note rfl) ?_
    rintro _ s₁ t₁ hi₁ - rfl
    refine .bind (hi₁.updateRef ht hf htypes (fun _ => .ofNative Native.string) nofun) ?_
    rintro _ s₂ t₂ hi₂ - rfl
    refine .pure hi₂ ⟨[.ofNative Native.string], _, rfl, rfl, by simp, fun ft' hft' => ?_⟩
    rw [List.mem_singleton.mp hft']
    exact nofun
  | some source =>
    obtain ⟨S, hS, rfl⟩ := hfound source rfl
    dsimp only
    refine .typeOf_bind hi.whole hS rfl ?_
    split
    case isTrue hthrough =>
      obtain ⟨hne, htransparent⟩ := hthrough
      refine (hi.seeThrough ht hS rfl hne hf htypes fun halone =>
        (hi.unshared halone).light S hS (ht ▸ hne) (.inl htransparent)).mono ?_
      rintro _ s₁ t₁ - - ⟨mid, rfl, ⟨f', hfields, htypes'⟩, -, hbound, -⟩
      exact ⟨mid, f', rfl, hfields, htypes', fun ft hft => (hbound ft hft).bindsNear⟩
    case isFalse =>
      refine .bind (hi.updateRef ht hf htypes (fun ft => { ft with reference := S.id })
        fun hforward => ⟨hforward, rfl, rfl⟩) ?_
      rintro _ s₁ t₁ hi₁ - rfl
      refine .pure hi₁ ⟨[{ ft with reference := S.id }], _, rfl, rfl, by simp, fun ft' hft' => ?_⟩
      rw [List.mem_singleton.mp hft']
      exact fun hforward' => absurd (hforward.symm.trans hforward') nofun

/-- The references from a position on are bound, those before it being so. -/
theorem bindFrom (front back : List FieldType) (hi : Tended key alone [] s t)
    (ht : t.id = h) (hf : t.fields[i]? = some f) (htypes : f.types = front ++ back)
    (hfront : ∀ ft ∈ front, s.BindsNear key t ft) :
    Tends key alone [] (bindFrom .plain h i back.length front.length) s t fun _ s' t' =>
      ∃ f', t'.fields = t.fields.set i f' ∧ ∀ ft ∈ f'.types, s'.BindsNear key t' ft := by
  induction back generalizing s t f front with
  | nil =>
    rw [List.append_nil] at htypes
    obtain ⟨hlt, rfl⟩ := List.getElem?_eq_some_iff.mp hf
    exact .pure hi ⟨_, (List.set_getElem_self hlt).symm, htypes ▸ hfront⟩
  | cons ft back ih =>
    have hlt := (List.getElem?_eq_some_iff.mp hf).1
    -- what is left to do once this reference is seen to
    have hrest : ∀ {s' t' n}, Tended key alone [] s' t' → Alters key s t s' t' →
        InPlace key t i front back n s' t' →
        Tends key alone [] (Schemata.bindFrom .plain h i back.length (front.length + n)) s' t'
          fun _ s'' t'' =>
            ∃ f', t''.fields = t.fields.set i f' ∧ ∀ ft ∈ f'.types, s''.BindsNear key t'' ft := by
      rintro s' t' _ hi' halters ⟨mid, f', rfl, hfields, htypes', hmid⟩
      have hf' : t'.fields[i]? = some f' := by rw [hfields, List.getElem?_set_self hlt]
      rw [← List.length_append]
      refine (ih _ hi' (halters.id.trans ht) hf' htypes' fun ft hft => ?_).mono ?_
      · obtain hft | hft := List.mem_append.mp hft
        · exact (hfront ft hft).alters halters
        · exact hmid ft hft
      · rintro _ s'' t'' - - ⟨f'', hfields', hbinds⟩
        exact ⟨f'', by rw [hfields', hfields, List.set_set], hbinds⟩
    rw [List.length_cons, Schemata.bindFrom]
    refine hi.refAt_bind ht hf htypes ?_
    split
    case isTrue hnative =>
      refine .bind (hi.updateRef ht hf htypes (fun ft => { ft with native := true })
        fun hforward => ⟨hforward, rfl, rfl⟩) ?_
      rintro _ s₁ t₁ hi₁ halters₁ rfl
      have hinplace : ∀ s' t' f', t'.fields = t.fields.set i f' →
          f'.types = front ++ { ft with native := true } :: back → InPlace key t i front back 1 s' t' :=
        fun s' t' f' hfields htypes' => ⟨[{ ft with native := true }], f', rfl, hfields, by simp [htypes'],
          fun ft' hft' => by rw [List.mem_singleton.mp hft']; exact nofun⟩
      split
      · have hf₁ := getElem?_setField hf (f.withTypes (front ++ { ft with native := true } :: back))
        refine .bind (P := []) (hi₁.updateField ht hf₁ _ (List.Subset.refl _)
          (fun ft hft hforward => hi₁.meets_own hf₁ (hft.of_eq rfl rfl) hforward)
          fun _ => List.Sublist.refl _) ?_
        rintro _ s₂ t₂ hi₂ halters₂ rfl
        exact hrest hi₂ (halters₁.trans halters₂) (hinplace _ _ _ (List.set_set _) rfl)
      · exact hrest hi₁ halters₁ (hinplace _ _ _ rfl rfl)
    case isFalse =>
      split
      case isTrue hforward =>
        refine .bind (hi.bindForward ht hf htypes hforward) ?_
        rintro n s₁ t₁ hi₁ halters₁ hinplace
        exact hrest hi₁ halters₁ hinplace
      case isFalse hforward =>
        refine .bind (hi.bindDependency ht hf htypes (Bool.not_eq_true _ ▸ hforward)) ?_
        rintro n s₁ t₁ hi₁ halters₁ hinplace
        exact hrest hi₁ halters₁ hinplace

/-- The references of the fields at the given positions are bound; those that were bound stay so. -/
theorem bindFields (places : List Nat) (hi : Tended key alone [] s t) (ht : t.id = h)
    (hplaces : ∀ j ∈ places, j < t.fields.length) :
    Tends key alone [] (bindFields .plain h places) s t fun _ s' t' =>
      t'.fields.length = t.fields.length ∧ ∀ j f', t'.fields[j]? = some f' →
        j ∈ places ∨ (∃ f, t.fields[j]? = some f ∧ ∀ ft ∈ f.types, s.BindsNear key t ft) →
        ∀ ft ∈ f'.types, s'.BindsNear key t' ft := by
  induction places generalizing s t with
  | nil =>
    refine .pure hi ⟨rfl, fun j f' hf' hor => ?_⟩
    obtain hj | ⟨f, hf, hbinds⟩ := hor
    · exact absurd hj List.not_mem_nil
    · exact Option.some.inj (hf.symm.trans hf') ▸ hbinds
  | cons i places ih =>
    obtain ⟨hlt, hrest⟩ := List.forall_mem_cons.mp hplaces
    -- from the field as it is found, with or without its pattern
    have hfield : ∀ {s₁ t₁ f₁}, Tended key alone [] s₁ t₁ → Alters key s t s₁ t₁ → t₁ = t.setField i f₁ →
        Tends key alone [] (do
          Schemata.bindFrom .plain h i (← fieldOf h i).types.length 0
          Compile.updateField h i fun f => { f with types := distinctTypes f.types }
          Schemata.bindFields .plain h places) s₁ t₁ fun _ s' t' =>
            t'.fields.length = t.fields.length ∧ ∀ j f', t'.fields[j]? = some f' →
              j ∈ i :: places ∨ (∃ f, t.fields[j]? = some f ∧ ∀ ft ∈ f.types, s.BindsNear key t ft) →
              ∀ ft ∈ f'.types, s'.BindsNear key t' ft := by
      rintro s₁ _ f₁ hi₁ halters₁ rfl
      have hf₁ : (t.setField i f₁).fields[i]? = some f₁ := List.getElem?_set_self hlt
      refine .fieldOf_bind hi₁.whole hi₁.held.knows ht ?_
      rw [hf₁, Option.getD_some]
      refine .bind (hi₁.bindFrom [] f₁.types ht hf₁ rfl (by simp)) ?_
      rintro _ s₂ t₂ hi₂ halters₂ ⟨f₂, hfields₂, hbinds₂⟩
      replace hfields₂ : t₂.fields = t.fields.set i f₂ := by rw [hfields₂, setField, List.set_set]
      have hf₂ : t₂.fields[i]? = some f₂ := by rw [hfields₂, List.getElem?_set_self hlt]
      have hsub := Field.distinctTypes_sublist f₂.types
      refine .bind (P := []) (hi₂.updateField (halters₂.id.trans ht) hf₂ _ (List.Subset.refl _)
        (fun ft hft hforward => hi₂.meets_own hf₂ ?_ hforward) fun _ => (hsub.filter _).map _) ?_
      · cases hft with
        | own hft => exact .own (hsub.subset hft)
        | choice hc hft => exact .choice hc hft
      rintro _ s₃ _ hi₃ halters₃ rfl
      have halters := (halters₁.trans halters₂).trans halters₃
      have hlength : (t₂.setField i { f₂ with types := distinctTypes f₂.types }).fields.length =
          t.fields.length := by rw [setField, List.length_set, hfields₂, List.length_set]
      refine (ih hi₃ (halters₂.id.trans ht) fun j hj => hlength ▸ hrest j hj).mono ?_
      rintro _ s' t' - - ⟨hlength', hend⟩
      refine ⟨hlength'.trans hlength, fun j f' hf' hor => hend j f' hf' ?_⟩
      by_cases hji : j = i
      · subst hji
        refine .inr ⟨_, getElem?_setField hf₂ _, fun ft hft => ?_⟩
        exact (hbinds₂ ft (hsub.subset hft)).alters halters₃
      · obtain hj | ⟨f, hf, hbinds⟩ := hor
        · exact .inl ((List.mem_cons.mp hj).resolve_left hji)
        · refine .inr ⟨f, ?_, fun ft hft => (hbinds ft hft).alters halters⟩
          rw [setField, hfields₂, List.set_set, List.getElem?_set_ne (Ne.symm hji), hf]
    have hf := List.getElem?_eq_getElem hlt
    rw [Schemata.bindFields]
    refine .get_bind ?_
    split
    · refine .bind (P := []) (hi.updateField ht hf _ (List.Subset.refl _)
        (fun ft hft hforward => hi.meets_own hf (hft.of_eq rfl rfl) hforward)
        fun _ => List.Sublist.refl _) ?_
      rintro _ s₁ _ hi₁ halters₁ rfl
      exact hfield hi₁ halters₁ rfl
    · exact hfield hi (.refl key s t) (setField_self hf).symm

/-- Every forward reference of a field is bound to a type of its name, which is nested or has been taken
out. -/
theorem bindReferences (hi : Tended key alone [] s t) (ht : t.id = h) :
    Tends key alone [] (bindReferences .plain h) s t fun _ s' t' =>
      ∀ f ∈ t'.fields, ∀ ft ∈ f.types, s'.BindsNear key t' ft := by
  unfold Schemata.bindReferences
  refine .typeOf_bind hi.whole hi.held.knows ht ?_
  refine (hi.bindFields _ ht fun i hi => List.mem_range.mp hi).mono ?_
  rintro _ s' t' - - ⟨hlength, hend⟩ f hf
  obtain ⟨j, hj⟩ := List.mem_iff_getElem?.mp hf
  refine hend j f hj (.inl (List.mem_range.mpr ?_))
  rw [← hlength]
  exact (List.getElem?_eq_some_iff.mp hj).1

end Tended

-- ---------------------------------------------------------------------------
-- Wrapped lists
-- ---------------------------------------------------------------------------

namespace Tended

variable {k : Handle}

/-- A reference that comes from `S` is bound to an inner type. -/
theorem borrowType (hi : Tended key alone P s t) (ht : t.id = h) (hS : s.Knows S) (hk : S.id = k)
    (hq : ft.forward = true → ¬ alone ∧ s.Meets key t S ft.qname) :
    Tends key alone P (borrowType .plain k h ft) s t fun ft' _ t' =>
      Gains t t' ∧ ft.Like ft' ∧ BoundIn t' ft' := by
  unfold Schemata.borrowType
  split
  case isTrue hforward =>
    obtain ⟨halone, hq⟩ := hq hforward
    refine .bind (hi.borrow ht halone hS hk hq) ?_
    rintro r s' t' hi' - ⟨hgains, c, hc, hid, hname⟩
    exact .pure hi' ⟨hgains, ⟨r, rfl⟩, fun _ => ⟨c, hc, hid, hname⟩⟩
  case isFalse hforward =>
    exact .pure hi ⟨.refl t, ⟨ft.reference, rfl⟩, fun h => absurd h hforward⟩

theorem mapM_borrowType (fts : List FieldType) (hi : Tended key alone P s t) (ht : t.id = h)
    (hS : s.Knows S) (hk : S.id = k) (hne : k ≠ h)
    (hq : ∀ ft ∈ fts, ft.forward = true → ¬ alone ∧ s.Meets key t S ft.qname) :
    Tends key alone P (fts.mapM (Schemata.borrowType .plain k h)) s t fun fts' _ t' =>
      Gains t t' ∧ List.Forall₂ FieldType.Like fts fts' ∧ ∀ ft ∈ fts', BoundIn t' ft := by
  induction fts generalizing s t S with
  | nil => exact .pure hi ⟨.refl t, .nil, by simp⟩
  | cons ft fts ih =>
    obtain ⟨hft, hfts⟩ := List.forall_mem_cons.mp hq
    rw [List.mapM_cons]
    refine .bind (hi.borrowType ht hS hk hft) ?_
    rintro ft' s₁ t₁ hi₁ halters₁ ⟨hgains₁, hlike, hbound⟩
    obtain ⟨S₁, hS₁, hid₁, -, hmeets₁⟩ := halters₁.others S hS (by rw [hk, ht]; exact hne)
    refine .bind (ih hi₁ (halters₁.id.trans ht) hS₁ (hid₁.trans hk) fun ft hft hforward => ?_) ?_
    · obtain ⟨halone, hq⟩ := hfts ft hft hforward
      exact ⟨halone, hmeets₁ _ hq⟩
    rintro fts' s₂ t₂ hi₂ - ⟨hgains₂, hlikes, hbounds⟩
    refine .pure hi₂ ⟨hgains₁.trans hgains₂, .cons hlike hlikes, List.forall_mem_cons.mpr ⟨?_, hbounds⟩⟩
    intro hforward
    obtain ⟨c, hc, heq⟩ := hbound hforward
    exact ⟨c, hgains₂.inner hc, heq⟩

mutual

/-- The references of a field that comes from `S` are bound to inner types. -/
theorem borrowTypes : (f : Field) → {s : Store} → {t S : SchemaType} → Tended key alone P s t → t.id = h →
    s.Knows S → S.id = k → k ≠ h →
    (∀ ft, f.Refers ft → ft.forward = true → ¬ alone ∧ s.Meets key t S ft.qname) →
    Tends key alone P (f.mapTypesM (Schemata.borrowType .plain k h)) s t fun f' _ t' =>
      Gains t t' ∧ List.Forall₂ FieldType.Like f.types f'.types ∧ ∀ ft ∈ f'.types, BoundIn t' ft
  | ⟨_, _, _, _, types, choices, _, _, _, _, _, _, _, _, _⟩, s, t, S, hi, ht, hS, hk, hne, hq => by
    rw [Field.mapTypesM]
    refine .bind (hi.mapM_borrowType types ht hS hk hne fun ft hft => hq ft (.own hft)) ?_
    rintro types' s₁ t₁ hi₁ halters₁ ⟨hgains₁, hlikes, hbounds⟩
    obtain ⟨S₁, hS₁, hid₁, -, hmeets₁⟩ := halters₁.others S hS (by rw [hk, ht]; exact hne)
    refine .bind (borrowTypesOf choices hi₁ (halters₁.id.trans ht) hS₁ (hid₁.trans hk) hne ?_) ?_
    · intro c hc ft hft hforward
      obtain ⟨halone, hq⟩ := hq ft (.choice hc hft) hforward
      exact ⟨halone, hmeets₁ _ hq⟩
    rintro choices' s₂ t₂ hi₂ - hgains₂
    refine .pure hi₂ ⟨hgains₁.trans hgains₂, hlikes, fun ft hft hforward => ?_⟩
    obtain ⟨c, hc, heq⟩ := hbounds ft hft hforward
    exact ⟨c, hgains₂.inner hc, heq⟩

theorem borrowTypesOf : (fs : List Field) → {s : Store} → {t S : SchemaType} → Tended key alone P s t →
    t.id = h → s.Knows S → S.id = k → k ≠ h →
    (∀ f ∈ fs, ∀ ft, f.Refers ft → ft.forward = true → ¬ alone ∧ s.Meets key t S ft.qname) →
    Tends key alone P (Field.mapTypesOfM (Schemata.borrowType .plain k h) fs) s t fun _ _ t' => Gains t t'
  | [], _, t, _, hi, _, _, _, _, _ => .pure hi (.refl t)
  | f :: fs, s, t, S, hi, ht, hS, hk, hne, hq => by
    obtain ⟨hf, hfs⟩ := List.forall_mem_cons.mp hq
    rw [Field.mapTypesOfM]
    refine .bind (borrowTypes f hi ht hS hk hne hf) ?_
    rintro f' s₁ t₁ hi₁ halters₁ ⟨hgains₁, -, -⟩
    obtain ⟨S₁, hS₁, hid₁, -, hmeets₁⟩ := halters₁.others S hS (by rw [hk, ht]; exact hne)
    refine .bind (borrowTypesOf fs hi₁ (halters₁.id.trans ht) hS₁ (hid₁.trans hk) hne ?_) ?_
    · intro c hc ft hft hforward
      obtain ⟨halone, hq⟩ := hfs c hc ft hft hforward
      exact ⟨halone, hmeets₁ _ hq⟩
    rintro fs' s₂ t₂ hi₂ - hgains₂
    exact .pure hi₂ (hgains₁.trans hgains₂)

end

end Tended

theorem SchemaType.mem_of_wrapped? {item : Field} (hitem : S.wrapped? = some item) : item ∈ S.fields := by
  unfold wrapped? at hitem
  split at hitem
  case h_1 item' hfields =>
    split at hitem
    · rw [hfields, Option.some.inj hitem]
      exact List.mem_singleton_self item
    · cases hitem
  case h_2 => cases hitem

theorem Field.types_of_wrapperRef? (hft : f.wrapperRef? = some ft) : f.types = [ft] ∧ ft.native = false := by
  unfold wrapperRef? at hft
  split at hft
  case h_1 ft' htypes =>
    split at hft
    · rename_i hcond
      obtain rfl := Option.some.inj hft
      simp only [Bool.and_eq_true, Bool.not_eq_true'] at hcond
      exact ⟨htypes, hcond.1.2⟩
    · cases hft
  case h_2 => cases hft

namespace Tended

variable {k : Handle} {item : Field}

/-- The wrapper of a list is used up, if it is an inner type. -/
theorem unwrapField (hi : Tended key alone [] s t) (ht : t.id = h) (hf : t.fields[i]? = some f)
    (htypes : f.types = [ft]) (hbinds : s.BindsNear key t ft) (hnative : ft.native = false)
    (hS : s.Knows S) (hk : S.id = k) (hne : k ≠ h) (hitem : S.wrapped? = some item)
    (hfound : ft.forward = true → S ∈ t.inner ∧ S.qname = ft.qname) :
    Tends key alone [] (unwrapField .plain h i k item) s t fun _ s' t' =>
      ∃ f', t'.fields = t.fields.set i f' ∧ ∀ ft ∈ f'.types, s'.BindsNear key t' ft := by
  have hdeclares : ∀ ft, item.Refers ft → S.Declares ft := fun ft hft =>
    .inl ⟨item, mem_of_wrapped? hitem, hft⟩
  have hlight : alone → ∀ ft, S.Declares ft → ft.forward = false := fun halone =>
    (hi.unshared halone).light S hS (by rw [hk, ht]; exact hne) (.inr (by rw [hitem]; rfl))
  unfold Schemata.unwrapField Schemata.borrowTypes
  refine .bind (hi.borrowTypes item ht hS hk hne fun ft hft hforward => ⟨fun halone => ?_, ?_⟩) ?_
  · rw [hlight halone ft (hdeclares ft hft)] at hforward
    cases hforward
  · exact (hi.meets S hS ft (hdeclares ft hft) hforward).2.resolve_right List.not_mem_nil
  rintro item' s₁ t₁ hi₁ halters₁ ⟨hgains, hlikes, hbounds⟩
  have ht₁ := halters₁.id.trans ht
  have hf₁ : t₁.fields[i]? = some f := by rw [hgains.fields, hf]
  have horigin : ∀ ft' ∈ item'.types, ∃ ft, S.Declares ft ∧ ft.Like ft' := fun ft' hft' => by
    obtain ⟨ft, hft, hlike⟩ := Lists.exists_mem_of_forall₂ hlikes hft'
    exact ⟨ft, hdeclares ft (.own hft), hlike⟩
  have hlight' : alone → ∀ ft ∈ item'.types, ft.forward = false := fun halone ft' hft' => by
    obtain ⟨ft, hft, r, rfl⟩ := horigin ft' hft'
    exact hlight halone ft hft
  refine .fieldOf_bind hi₁.whole hi₁.held.knows ht₁ ?_
  rw [hf₁, Option.getD_some, htypes, List.headD_cons]
  refine .bind (P := []) (hi₁.updateField ht₁ hf₁ (·.unwrap item') (List.Subset.refl _)
    (fun ft' hft' hforward => ?_) fun halone => ?_) ?_
  · cases hft' with
    | own hft' =>
      obtain ⟨ft, hft, r, rfl⟩ := horigin ft' hft'
      obtain ⟨c, hc, -, hname⟩ := hbounds _ hft' hforward
      exact ⟨(hi.meets S hS ft hft hforward).1, .inl (.inr ⟨c, hc, hname⟩)⟩
    | choice hc hft' => exact hi₁.meets_own hf₁ (.choice hc hft') hforward
  · rw [show (f.unwrap item').forwardNames = [] from forwardNames_eq_nil_iff.mpr (hlight' halone)]
    exact List.nil_sublist _
  rintro _ s₂ _ hi₂ halters₂ rfl
  have hfields₂ : (t₁.setField i (f.unwrap item')).fields = t.fields.set i (f.unwrap item') := by
    rw [setField, hgains.fields]
  have hbinds₂ : ∀ ft ∈ (f.unwrap item').types,
      s₂.BindsNear key (t₁.setField i (f.unwrap item')) ft := fun ft hft =>
    BoundIn.bindsNear (hbounds ft hft)
  -- what is left to do is a note
  have hrest : ∀ {s₃ t₃}, Tended key alone [] s₃ t₃ → t₃.id = h →
      t₃.fields = t.fields.set i (f.unwrap item') →
      (∀ ft ∈ (f.unwrap item').types, s₃.BindsNear key t₃ ft) →
      Tends key alone [] (do
        let f ← fieldOf h i
        inform Code.unwrappedList (← typeOf h).qname.text f.name
          ("unwrapped list wrapper " ++ f.wrapper)) s₃ t₃ fun _ s' t' =>
        ∃ f', t'.fields = t.fields.set i f' ∧ ∀ ft ∈ f'.types, s'.BindsNear key t' ft := by
    intro s₃ t₃ hi₃ ht₃ hfields₃ hbinds₃
    refine .fieldOf_bind hi₃.whole hi₃.held.knows ht₃ (.typeOf_bind hi₃.whole hi₃.held.knows ht₃ ?_)
    refine (hi₃.note rfl).mono ?_
    rintro _ s₄ _ - halters₄ rfl
    exact ⟨_, hfields₃, fun ft hft => (hbinds₃ ft hft).alters halters₄⟩
  split
  case isTrue hforward =>
    obtain ⟨hinner, hname⟩ := hfound hforward
    refine .bind (hi₂.drop (k := ft.reference) ht₁ fun halone c hc hid => ?_) ?_
    · -- the reference is bound to the wrapper, and nothing else names it
      have hu := hi.unshared halone
      obtain ⟨v, hv | hv, hvid, hvname⟩ := hbinds hforward hnative
      · obtain rfl := hu.eq_of_qname hv ⟨S, hinner, .self⟩ (hvname.trans hname.symm)
        have hknows : ∀ {c : SchemaType}, c ∈ t₁.inner → s₂.Knows c := fun hc =>
          hi₂.held.knows.within (.inner hc .self)
        obtain rfl := (hknows hc).eq_of_id hi₂.whole (hknows (hgains.inner hinner)) (hid.trans hvid.symm)
        have honce := hu.once _ hinner (.inr (by rw [hitem]; rfl))
        rw [hname] at honce
        have htypes' : (f.unwrap item').types = [] ++ item'.types ++ [] := (List.append_nil _).symm
        rw [hfields₂, hname]
        exact not_mem_forwardNames_set honce hf htypes hforward htypes' (hlight' halone)
      · refine absurd (hvname.trans hname.symm) (hu.apart v hv S ?_)
        exact mem_walkAll_iff.mpr ⟨S, hinner, .self⟩
    rintro _ s₃ _ hi₃ halters₃ rfl
    exact hrest hi₃ ht₁ hfields₂ fun ft hft => (hbinds₂ ft hft).alters halters₃
  case isFalse => exact hrest hi₂ ht₁ hfields₂ hbinds₂

/-- References that are bound stay so while lists are unwrapped. -/
theorem unwrapFields (places : List Nat) (hi : Tended key alone [] s t) (ht : t.id = h)
    (hbinds : ∀ f ∈ t.fields, ∀ ft ∈ f.types, s.BindsNear key t ft) :
    Tends key alone [] (unwrapFields .plain h places) s t fun _ s' t' =>
      ∀ f ∈ t'.fields, ∀ ft ∈ f.types, s'.BindsNear key t' ft := by
  induction places generalizing s t with
  | nil => exact .pure hi hbinds
  | cons i places ih =>
    rw [Schemata.unwrapFields]
    refine .fieldOf_bind hi.whole hi.held.knows ht ?_
    cases href : (t.fields[i]?.getD {}).wrapperRef? with
    | none => exact ih hi ht hbinds
    | some ft =>
      obtain ⟨f, hf⟩ : ∃ f, t.fields[i]? = some f := by
        cases hf : t.fields[i]? with
        | none =>
          rw [hf] at href
          cases href
        | some f => exact ⟨f, rfl⟩
      rw [hf, Option.getD_some] at href
      obtain ⟨htypes, hnative⟩ := Field.types_of_wrapperRef? href
      have hft := hbinds f (List.mem_of_getElem? hf) ft (htypes ▸ List.mem_singleton_self ft)
      -- the field wraps a list
      have hunwrap : ∀ S item, s.Knows S → S.id ≠ h → S.wrapped? = some item →
          (ft.forward = true → S ∈ t.inner ∧ S.qname = ft.qname) →
          Tends key alone [] (Schemata.unwrapField .plain h i S.id item >>= fun _ =>
            Schemata.unwrapFields .plain h places) s t fun _ s' t' =>
              ∀ f ∈ t'.fields, ∀ ft ∈ f.types, s'.BindsNear key t' ft := by
        intro S item hS hne hitem hfound
        refine .bind (hi.unwrapField ht hf htypes hft hnative hS rfl hne hitem hfound) ?_
        rintro _ s₁ t₁ hi₁ halters₁ ⟨f', hfields, hbinds'⟩
        refine ih hi₁ (halters₁.id.trans ht) fun g hg ft' hft' => ?_
        rw [hfields] at hg
        obtain hg | rfl := List.mem_or_eq_of_mem_set hg
        · exact (hbinds g hg ft' hft').alters halters₁
        · exact hbinds' ft' hft'
      dsimp only
      split
      case isTrue hforward =>
        refine .typeOf_bind hi.whole hi.held.knows ht ?_
        cases hnamed : t.innerNamed? ft.qname with
        | none => exact ih hi ht hbinds
        | some S =>
          have hinner := List.mem_of_find?_eq_some hnamed
          have hname := List.find?_some hnamed
          have hS := hi.held.knows.within (.inner hinner .self)
          rw [Option.map_some, pure_bind]
          dsimp only
          split
          case isFalse => exact ih hi ht hbinds
          case isTrue hne =>
            refine .typeOf_bind hi.whole hS rfl ?_
            cases hitem : S.wrapped? with
            | none => exact ih hi ht hbinds
            | some item => exact hunwrap S item hS hne hitem fun _ => ⟨hinner, beq_iff_eq.mp hname⟩
      case isFalse hforward =>
        refine .bind (hi.find _ _) ?_
        rintro r s t - - ⟨rfl, rfl, hfound⟩
        cases r with
        | none => exact ih hi ht hbinds
        | some source =>
          obtain ⟨S, hS, rfl⟩ := hfound source rfl
          dsimp only
          split
          case isFalse => exact ih hi ht hbinds
          case isTrue hne =>
            refine .typeOf_bind hi.whole hS rfl ?_
            cases hitem : S.wrapped? with
            | none => exact ih hi ht hbinds
            | some item => exact hunwrap S item hS hne hitem fun h => absurd h hforward

theorem unwrapLists (hi : Tended key alone [] s t) (ht : t.id = h)
    (hbinds : ∀ f ∈ t.fields, ∀ ft ∈ f.types, s.BindsNear key t ft) :
    Tends key alone [] (unwrapLists .plain h) s t fun _ s' t' =>
      ∀ f ∈ t'.fields, ∀ ft ∈ f.types, s'.BindsNear key t' ft := by
  unfold Schemata.unwrapLists
  refine .get_bind ?_
  split
  · exact .typeOf_bind hi.whole hi.held.knows ht (hi.unwrapFields _ ht hbinds)
  · exact .pure hi hbinds

end Tended

-- ---------------------------------------------------------------------------
-- What is stranded
-- ---------------------------------------------------------------------------

/-- Binding a type's references and unwrapping its lists fails only with the name of a type that has been
used up, and leaves no forward reference that is not bound to a type of its name, nested or used up. If
every inner type that gives way has at most one reference, it does not fail and nothing is bound to what
is used up. -/
theorem strands_only_shared (hs : s.Whole) (ht : s.Holds t)
    (hforward : ∀ u ∈ walkAll s.stock, ∀ ft ∈ u.fieldTypes, ft.forward = true →
      ft.circular = false ∧ ∃ v ∈ walkAll u.inner, v.qname = ft.qname) :
    wp (do bindReferences .plain t.id; unwrapLists .plain t.id)
      (fun _ s' => ∃ t', s'.Holds t' ∧ t'.id = t.id ∧ ∀ f ∈ t'.fields, ∀ ft ∈ f.types,
        ft.forward = true → ft.native = false → s'.Near s.nextKey t' ft.reference ft.qname)
      (fun e s' => ∃ parent q, e = innerNotFound parent q ∧ ∃ v ∈ walkAll (s'.taken s.nextKey), v.qname = q)
      s ∧
    (Unshared s.nextKey s t →
      wp (do bindReferences .plain t.id; unwrapLists .plain t.id)
        (fun _ s' => ∃ t', s'.Holds t' ∧ t'.id = t.id ∧ ∀ f ∈ t'.fields, ∀ ft ∈ f.types,
          ft.forward = true → ft.native = false →
            ∃ v : SchemaType, v.Nested t' ∧ v.id = ft.reference ∧ v.qname = ft.qname)
        (fun _ _ => False) s) := by
  have hmeets : ∀ u, s.Knows u → ∀ ft, u.Declares ft → ft.forward = true →
      ft.circular = false ∧ (s.Meets s.nextKey t u ft.qname ∨ ft.qname ∈ []) := fun u hu ft hft hfwd => by
    obtain ⟨hcircular, v, hv, hname⟩ :=
      hforward u (mem_walkAll_iff.mpr hu) ft (mem_fieldTypes_iff.mpr hft) hfwd
    exact ⟨hcircular, .inl (.inl ⟨v.id, v, .inl (mem_walkAll_inner_iff.mp hv), rfl, hname⟩)⟩
  have hends : ∀ alone : Prop, (alone → Unshared s.nextKey s t) → Tends s.nextKey alone []
      (do bindReferences .plain t.id; unwrapLists .plain t.id) s t fun _ s' t' =>
        ∀ f ∈ t'.fields, ∀ ft ∈ f.types, s'.BindsNear s.nextKey t' ft := fun alone hunshared => by
    have hi : Tended s.nextKey alone [] s t := ⟨hs, Nat.le_refl _, ht, hmeets, hunshared⟩
    refine .bind (hi.bindReferences rfl) ?_
    rintro _ s₁ t₁ hi₁ halters₁ hbinds
    exact hi₁.unwrapLists halters₁.id hbinds
  refine ⟨wp_mono (hends False False.elim) ?_ fun e s' h => h.2, fun hunshared => ?_⟩
  · rintro _ s' ⟨t', hi', halters, hbinds⟩
    exact ⟨t', hi'.held, halters.id, hbinds⟩
  · refine wp_mono (hends True fun _ => hunshared) ?_ fun e s' h => h.1 trivial
    rintro _ s' ⟨t', hi', halters, hbinds⟩
    refine ⟨t', hi'.held, halters.id, fun f hf ft hft hfwd hnative => ?_⟩
    have hu := hi'.unshared trivial
    obtain ⟨v, hv | hv, hid, hname⟩ := hbinds f hf ft hft hfwd hnative
    · exact ⟨v, hv, hid, hname⟩
    · -- what has been taken out shares no name with an inner type
      obtain ⟨c, hc, hname'⟩ := hu.direct ft.qname (List.mem_flatMap.mpr ⟨f, hf,
        List.mem_map_of_mem (List.mem_filter.mpr ⟨hft, hfwd⟩)⟩)
      exact absurd (hname.trans hname'.symm) (hu.apart v hv c (mem_walkAll_iff.mpr ⟨c, hc, .self⟩))

namespace Stranded

/-- A type that only wraps a text value. -/
def code : SchemaType :=
  { id := 2, qname := ⟨"urn:t", "I"⟩, tag := .simpleType
    fields := [{ name := "value", tag := .restriction, types := [.ofNative Native.string] }] }

def record : SchemaType :=
  { id := 3, qname := ⟨"urn:t", "J"⟩, tag := .complexType
    fields := [
      { name := "x", tag := .element, types := [.ofNative Native.string] },
      { name := "y", tag := .element, types := [.ofNative Native.string] }] }

def forwardTo (name inner : String) : Field :=
  { name, tag := .element, types := [.ofForward ⟨"urn:t", inner⟩ 0] }

/-- A root that refers to its two inner types. -/
def root (names : List (String × String)) : SchemaType :=
  { id := 1, qname := ⟨"urn:t", "P"⟩, tag := .complexType
    fields := names.map fun p => forwardTo p.1 p.2
    inner := [code, record] }

def store (names : List (String × String)) : Store :=
  { roots := [⟨0, root names⟩], nextKey := 1, nextHandle := 4 }

/-- One field for the type that gives way. -/
def apart : List (String × String) := [("a", "I"), ("b", "J"), ("c", "J")]

/-- Two fields for the type that gives way. -/
def shared : List (String × String) := [("a", "I"), ("b", "I")]

/-- The inner type is used up for the first field, and not found for the second. -/
theorem bindReferences_strands :
    (∀ u ∈ walkAll (store shared).stock, ∀ ft ∈ u.fieldTypes, ft.forward = true →
      ft.circular = false ∧ ∃ v ∈ walkAll u.inner, v.qname = ft.qname) ∧
    wp (do bindReferences .plain 1; unwrapLists .plain 1) (fun _ _ => False)
      (fun e _ => e = innerNotFound (root shared) ⟨"urn:t", "I"⟩) (store shared) := by
  decide +kernel

theorem unshared : Unshared (store apart).nextKey (store apart) (root apart) where
  names := by decide
  once := by decide
  direct := by decide
  apart := by decide
  light u hu hne _ ft hft := by
    have hlight : ∀ u ∈ walkAll (store apart).stock, u.id ≠ 1 → ∀ ft ∈ u.fieldTypes, ft.forward = false := by
      decide
    exact hlight u (mem_walkAll_iff.mpr hu) hne ft (mem_fieldTypes_iff.mpr hft)

/-- Used up for its only field, the one inner type is missed by none. -/
theorem strands_none :
    Unshared (store apart).nextKey (store apart) (root apart) ∧
    wp (do bindReferences .plain 1; unwrapLists .plain 1)
      (fun _ s' => ∃ t', s'.Holds t' ∧ t'.id = 1 ∧ ∀ f ∈ t'.fields, ∀ ft ∈ f.types,
        ft.forward = true → ft.native = false →
          ∃ v : SchemaType, v.Nested t' ∧ v.id = ft.reference ∧ v.qname = ft.qname)
      (fun _ _ => False) (store apart) :=
  ⟨unshared, (strands_only_shared (t := root apart)
    ⟨by decide, by unfold Store.KeysBelow; decide, by decide, by decide⟩
    ⟨root apart, .head _, .self⟩ (by decide)).2 unshared⟩

end Stranded

end Schemata
