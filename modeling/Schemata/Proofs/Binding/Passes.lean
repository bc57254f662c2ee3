import Schemata.Pipeline.Stage
import Schemata.Proofs.Binding.Bound
import Schemata.Proofs.Step.Upkeep

/-!
# Passes that leave types in their places

Most passes change the fields of the type that they work on and neither what the type is called nor
what is nested in it. All that such a pass can do to links is to drop some, and what admits that is
kept up by it.
-/

namespace Schemata.Upkeep

open Compile SchemaType

variable {U : Upkeep} {P : List Link → List Link → Prop} {s : Store} {h : Handle} {finder : Finder}
  {rounds : Nat} {least : Status}

/-- What is kept up by every change of a type in its place that changes links as `P` says. -/
structure Admits (U : Upkeep) (P : List Link → List Link → Prop) : Prop where
  nodup : ∀ {s}, U.Inv s → s.handles.Nodup
  seek : ∀ {s} q, U.Seek s q
  update : ∀ {s h g}, U.Inv s → (∀ u, s.Holds u → u.id = h → Alike u (g u)) →
    (∀ u, s.Holds u → u.id = h → P u.links (g u).links) →
    U.Inv (s.update h g) ∧ U.Leads s (s.update h g)

namespace Admits

theorem keeps_update (hU : U.Admits P) (hs : U.Inv s) {g : SchemaType → SchemaType}
    (hg : ∀ u, Alike u (g u)) (hlinks : ∀ u, P u.links (g u).links) :
    U.conduct.Runs (Compile.update h g) s fun _ _ => True := by
  have hend := hU.update (h := h) hs (fun u _ _ => hg u) fun u _ _ => hlinks u
  exact .update hend.1 hend.2 trivial

theorem works_onType (hU : U.Admits P) {g : SchemaType → SchemaType} (hg : ∀ u, Alike u (g u))
    (hlinks : ∀ u, P u.links (g u).links) : U.Works ((Pass.onType g).run rounds finder) :=
  fun _ _ hs _ => hU.keeps_update hs hg hlinks

theorem works_setStatus (hU : U.Admits P) (hP : ∀ ls, P ls ls) (status : Status) :
    U.Works fun h => Compile.update h fun t => { t with status } :=
  fun _ _ hs _ => hU.keeps_update hs (fun _ => ⟨rfl, rfl, rfl, rfl⟩) fun _ => hP _

theorem works_noting (hU : U.Admits P) {g : Store → SchemaType → SchemaType × List Diagnostic}
    (hg : ∀ s t, Alike t (g s t).1) (hlinks : ∀ s t, P t.links (g s t).1.links) :
    U.Works ((Pass.noting g).run rounds finder) := by
  intro s h hs _
  refine .get_bind (typeOf_bind fun t ht => ?_)
  refine .bind (Q := fun _ _ => True) ?_ fun _ s₁ hs₁ _ _ => ?_
  · -- the type that is looked up is the only one with its handle
    have heq : ∀ u, s.Holds u → u.id = h → t = u := by
      rintro u hu rfl
      rw [Store.get?_of_holds (hU.nodup hs) hu] at ht
      exact (Option.some.inj ht).symm
    have hend := hU.update (h := h) (g := fun _ => (g s t).1) hs
      (fun u hu hid => heq u hu hid ▸ hg s t) fun u hu hid => heq u hu hid ▸ hlinks s t
    exact .update hend.1 hend.2 trivial
  · exact .forM (J := fun _ => True) _ (fun d _ s hs _ => keeps_quiet hs rfl trivial) hs₁ trivial

theorem keeps_updateFieldAt (hU : U.Admits Store.Fewer) {g : Field → Field}
    (hg : ∀ f, (g f).links ⊆ f.links) (position : FieldPosition) (hs : U.Inv s) :
    U.conduct.Runs (updateFieldAt h position g) s fun _ _ => True := by
  refine hU.keeps_update hs (fun _ => ⟨rfl, rfl, rfl, rfl⟩) fun t => links_modifyField_subset ?_ t
  intro f
  cases position.choice with
  | none => exact hg f
  | some j => exact f.links_modifyChoice_subset hg

theorem keeps_fieldAt_bind {α : Type} {f : Field → Compile α} {Q : α → Store → Prop}
    {position : FieldPosition} (hf : ∀ a, U.conduct.Runs (f a) s Q) :
    U.conduct.Runs (fieldAt h position >>= f) s Q := by
  unfold fieldAt
  rw [bind_assoc]
  refine fieldOf_bind fun t _ => ?_
  cases position.choice with
  | none => exact hf _
  | some j => exact hf _

theorem keeps_matchEnum (hU : U.Admits Store.Fewer) (hfinder : U.Serves least finder)
    (position : FieldPosition) (places : List Nat) (sofar : EnumMatch) (hs : U.Inv s)
    (hh : U.Fit s h) : U.conduct.Runs (matchEnum finder h position sofar places) s fun _ _ => True := by
  induction places generalizing s sofar with
  | nil => exact .pure hs trivial
  | cons i places ih =>
    rw [matchEnum]
    refine keeps_fieldAt_bind fun f => ?_
    dsimp only
    generalize f.types[i]?.getD {} = ft
    split
    · exact ih sofar hs hh
    refine .ite_bind (.bind (Q := fun r s' => ∀ k, r = some k → U.Fit s' k) ?_
      fun source s₁ hs₁ hleads₁ _ => ?_)
    · split
      · rw [map_eq_pure_bind]
        refine .bind (hfinder.findInner ft.qname hs hh) fun k s₁ hs₁ _ hk => .pure hs₁ ?_
        exact fun k' heq => Option.some.inj heq ▸ hk
      · exact (hfinder.find _ _ hs (hU.seek _)).mono fun r s' _ _ hr k hk => (hr k hk).1
    have hh₁ := U.stays hleads₁ hh
    cases source with
    | none => exact ih sofar hs₁ hh₁
    | some source =>
      refine typeOf_bind fun enum _ => keeps_fieldAt_bind fun f => ?_
      split
      · exact ih sofar hs₁ hh₁
      split
      · split
        · exact .pure hs₁ trivial
        · exact ih .noMember hs₁ hh₁
      split
      · refine .bind (hU.keeps_updateFieldAt (fun f => ?_) position hs₁) fun _ s₂ hs₂ _ _ =>
          .pure hs₂ trivial
        exact Field.links_subset rfl rfl
      · exact ih .noMember hs₁ hh₁

theorem keeps_checkDefault (hU : U.Admits Store.Fewer) (hfinder : U.Serves least finder)
    (position : FieldPosition) (hs : U.Inv s) (hh : U.Fit s h) :
    U.conduct.Runs (checkDefault finder h position) s fun _ _ => True := by
  have halign : ∀ f : Field, f.alignDefault.links ⊆ f.links := by
    intro f
    unfold Field.alignDefault
    dsimp only
    split
    · split
      · exact Field.links_subset rfl rfl
      · exact Field.links_subset rfl rfl
    · split
      · exact Field.links_subset rfl rfl
      · exact List.Subset.refl _
  unfold checkDefault
  refine keeps_fieldAt_bind fun f => ?_
  split
  · exact .pure hs trivial
  refine .bind (hU.keeps_updateFieldAt halign position hs) fun _ s₁ hs₁ hleads₁ _ => ?_
  refine keeps_fieldAt_bind fun f => ?_
  split
  · exact .pure hs₁ trivial
  refine .bind (hU.keeps_matchEnum hfinder position _ .noEnumeration hs₁ (U.stays hleads₁ hh))
    fun result s₂ hs₂ _ _ => ?_
  cases result with
  | found => exact .pure hs₂ trivial
  | noMember =>
    refine typeOf_bind fun t _ => .bind (keeps_quiet (Q := fun _ _ => True) hs₂ rfl trivial)
      fun _ s₃ hs₃ _ _ => ?_
    refine hU.keeps_updateFieldAt (fun f => ?_) position hs₃
    exact Field.links_subset rfl rfl
  | noEnumeration =>
    refine keeps_fieldAt_bind fun f => ?_
    split
    · refine typeOf_bind fun t _ => .bind (keeps_quiet (Q := fun _ _ => True) hs₂ rfl trivial)
        fun _ s₃ hs₃ _ _ => ?_
      refine hU.keeps_updateFieldAt (fun f => ?_) position hs₃
      rw [Field.links_eq, Field.links_eq f]
      exact List.subset_append_right _ _
    · exact .pure hs₂ trivial

theorem works_checkDefaults (hU : U.Admits Store.Fewer) (hfinder : U.Serves least finder) :
    U.Works (Pass.checkDefaults.run rounds finder) := by
  have hchoices : ∀ i (places : List Nat) ⦃s h⦄, U.Inv s → U.Fit s h →
      U.conduct.Runs (checkChoices finder h i places) s fun _ _ => True := by
    intro i places
    induction places with
    | nil => exact fun s h hs _ => .pure hs trivial
    | cons j places ih =>
      intro s h hs hh
      refine .bind (hU.keeps_checkDefault hfinder _ hs hh) fun _ s₁ hs₁ hleads₁ _ => ?_
      exact ih hs₁ (U.stays hleads₁ hh)
  have hfields : ∀ (places : List Nat) ⦃s h⦄, U.Inv s → U.Fit s h →
      U.conduct.Runs (checkFields finder h places) s fun _ _ => True := by
    intro places
    induction places with
    | nil => exact fun s h hs _ => .pure hs trivial
    | cons i places ih =>
      intro s h hs hh
      refine .bind (hU.keeps_checkDefault hfinder _ hs hh) fun _ s₁ hs₁ hleads₁ _ => ?_
      have hh₁ := U.stays hleads₁ hh
      refine fieldOf_bind fun t _ => .bind (hchoices i _ hs₁ hh₁) fun _ s₂ hs₂ hleads₂ _ => ?_
      exact ih hs₂ (U.stays hleads₂ hh₁)
  intro s h hs hh
  exact typeOf_bind fun t _ => hfields _ hs hh

-- ---------------------------------------------------------------------------
-- Steps
-- ---------------------------------------------------------------------------

theorem passes_sanitize (hU : U.Admits Store.Fewer) : U.Passes .sanitize where
  prepare pass hpass s hs := by
    simp only [Step.sanitize, List.mem_cons, List.not_mem_nil, or_false] at hpass
    obtain rfl | rfl := hpass
    · exact .pure hs trivial
    · exact .pure hs trivial
  run pass hpass _ rounds finder _ := by
    simp only [Step.sanitize, List.mem_cons, List.not_mem_nil, or_false] at hpass
    obtain rfl | rfl := hpass
    · exact hU.works_onType (fun _ => ⟨rfl, rfl, rfl, rfl⟩) fun t =>
        (List.Perm.of_eq (links_clearSequences t)).subset
    · exact hU.works_noting (fun _ _ => ⟨rfl, rfl, rfl, rfl⟩) fun _ t =>
        (List.Perm.of_eq (links_nameFields t)).subset
  begins := hU.works_setStatus (fun _ => List.Subset.refl _) _
  ends := hU.works_setStatus (fun _ => List.Subset.refl _) _

theorem passes_resolve (hU : U.Admits Store.Fewer) : U.Passes .resolve where
  prepare pass hpass s hs := by
    simp only [Step.resolve, List.mem_cons, List.not_mem_nil, or_false] at hpass
    obtain rfl | rfl := hpass
    · exact .pure hs trivial
    · exact .pure hs trivial
  run pass hpass _ rounds finder hfinder := by
    simp only [Step.resolve, List.mem_cons, List.not_mem_nil, or_false] at hpass
    obtain rfl | rfl := hpass
    · exact hU.works_checkDefaults hfinder
    · exact hU.works_noting (fun _ _ => ⟨rfl, rfl, rfl, rfl⟩) links_checkOverrides_subset
  begins := hU.works_setStatus (fun _ => List.Subset.refl _) _
  ends := hU.works_setStatus (fun _ => List.Subset.refl _) _

theorem passes_finalize (hU : U.Admits Store.Same) : U.Passes .finalize where
  prepare pass hpass s hs := by
    simp only [Step.finalize, List.mem_cons, List.not_mem_nil, or_false] at hpass
    obtain rfl | rfl := hpass
    · exact keeps_quiet hs rfl trivial
    · exact .pure hs trivial
  run pass hpass _ rounds finder _ := by
    simp only [Step.finalize, List.mem_cons, List.not_mem_nil, or_false] at hpass
    obtain rfl | rfl := hpass
    · refine fun s h hs _ => .get_bind (hU.keeps_update hs (fun _ => ⟨rfl, rfl, rfl, rfl⟩) fun t l => ?_)
      rw [links_flagCircular]
    · refine hU.works_onType (fun _ => ⟨rfl, rfl, rfl, rfl⟩) fun t l => ?_
      rw [links_renumberFields]
  begins := hU.works_setStatus (fun _ _ => Iff.rfl) _
  ends := hU.works_setStatus (fun _ _ => Iff.rfl) _

end Admits

end Schemata.Upkeep
