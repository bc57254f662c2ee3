import Schemata.Pipeline.Stage
import Schemata.Proofs.Choice.Expansion
import Schemata.Proofs.Inherit.Settling

/-!
# Passes come to an end

In a flat store the loops of the passes of flattening run over lists, except those over bases and over
substitutes. What passes look up may be worked on first; apart from that they change the type that they
work on, and after its bases have been settled they leave these alone.
-/

namespace Schemata

open Compile SchemaType Store

variable {roots : List Handle} {h : Handle} {p : Nat} {fresh : Option Handle} {finder : Nat → Finder}

-- ---------------------------------------------------------------------------
-- Enumerations
-- ---------------------------------------------------------------------------

theorem mild_unionSources (hfinder : Reaches roots p finder) (hh : h ∈ roots) (places : List Nat) :
    Mild roots p none h (fun n => unionSources (finder n) h places)
      fun r => ∀ sources, r = some sources → ∀ k ∈ sources, k ∈ roots := by
  induction places with
  | nil => exact .pure (by simp)
  | cons i places ih =>
    simp only [unionSources]
    refine .fieldOf_bind hh fun f => ?_
    by_cases hnative : (f.types[i]?.getD {}).native = true
    · simp only [if_pos hnative]
      exact .pure (by simp)
    simp only [if_neg hnative]
    by_cases hforward : (f.types[i]?.getD {}).forward = true
    · simp only [if_pos hforward, map_eq_pure_bind, bind_assoc]
      exact .findInner_bind hfinder hh _
    simp only [if_neg hforward]
    refine .bind (.find hfinder _ _) fun r hr => ?_
    cases r with
    | none => exact .pure (by simp)
    | some source =>
      refine .typeOf_bind (hr source rfl) fun b _ => ?_
      by_cases hmembers : b.isEnumeration = true
      · simp only [if_pos hmembers]
        refine .bind ih fun r hrest => .pure fun sources hsources k hk => ?_
        obtain ⟨rest, rfl, rfl⟩ := Option.map_eq_some_iff.mp hsources
        obtain rfl | hk := List.mem_cons.mp hk
        · exact hr _ rfl
        · exact hrest rest rfl k hk
      · simp only [if_neg hmembers]
        exact .pure (by simp)

theorem still_mapM_typeOf {ks : List Handle} (hks : ∀ k ∈ ks, k ∈ roots) :
    Still roots fun _ => ks.mapM typeOf := by
  induction ks with
  | nil => exact .pure
  | cons k ks ih =>
    obtain ⟨hk, hks⟩ := List.forall_mem_cons.mp hks
    simp only [List.mapM_cons]
    exact .typeOf_bind hk fun _ _ => .bind (ih hks) fun _ => .pure

theorem mild_flattenUnion (hfinder : Reaches roots p finder) (hh : h ∈ roots) :
    Mild roots p none h (fun n => flattenUnion (finder n) h) fun _ => True := by
  unfold flattenUnion
  refine .typeOf_bind hh fun t _ => ?_
  cases t.union? with
  | none => exact .pure trivial
  | some union =>
    refine .bind (mild_unionSources hfinder hh _) fun r hr => ?_
    match r with
    | none => exact .pure trivial
    | some [] => exact .pure trivial
    | some (k :: ks) =>
      refine .bind (.of_still (still_mapM_typeOf (hr _ rfl))) fun bs _ => .typeOf_bind hh fun t ht => ?_
      simp only [ht, List.filter_nil]
      refine .bind (.update fun t ht => ⟨⟨rfl, rfl, rfl, ?_⟩, rfl, rfl⟩) fun _ _ => .note fun _ => rfl
      simp [ht]

theorem mild_settleEnumeration (hfinder : Reaches roots p finder) (hh : h ∈ roots) :
    Mild roots p none h (fun n => settleEnumeration (finder n) h) fun _ => True := by
  unfold settleEnumeration
  refine .bind (.update_fields fun t => ?_) fun _ _ => mild_flattenUnion hfinder hh
  unfold sortOutMembers
  split
  · rfl
  · cases t
    rfl

-- ---------------------------------------------------------------------------
-- Inner types and substitutes
-- ---------------------------------------------------------------------------

/-- There is nothing to promote. -/
theorem mild_promoteInner : Mild roots p none h (fun _ => promoteInner h) fun _ => True := by
  intro s t ht
  have hpromote : ∀ all, t.promote all = (t, []) := by
    have hinner := ht.orderly.flat t ht.mem
    intro all
    cases t
    simp only at hinner
    simp [promote, promotable, hinner]
  unfold promoteInner
  refine .typeOf_bind ht.get? (.get_bind ?_)
  rw [hpromote]
  obtain ⟨ht', hadv⟩ := ht.update_sub (g := fun _ => t) ⟨rfl, rfl, rfl, rfl⟩ rfl fun e he => ⟨e, he, rfl, rfl⟩
  exact .const (wp_bind.mpr (wp_update.mpr (wp_modify.mpr ⟨t, ht', hadv, rfl, trivial⟩)))

theorem mild_addSubstitutes :
    Mild roots p none h (fun n => addSubstitutes n h) fun _ => True := by
  intro s t ht
  unfold addSubstitutes
  refine .typeOf_bind ht.get? (.get_bind ?_)
  obtain ⟨⟨fields, warnings⟩, hexpanded⟩ := expandable_fields t.qname ht.orderly.members t.fields [] []
  have hend : Mild roots p none h (fun _ => do
      update h fun t => { t with fields }
      warnings.forM fun d => modify (·.record (.noted d))) fun _ => True :=
    .bind (.update_fields fun _ => rfl) fun _ _ => .forM _ fun _ => .note fun _ => rfl
  refine .congr (hexpanded.mono fun n hn => ?_) (hend ht)
  rw [hn]

-- ---------------------------------------------------------------------------
-- References of fields
-- ---------------------------------------------------------------------------

section References

variable {i k : Nat}

theorem mild_refAt_bind {α : Type} {f : Nat → FieldType → Compile α} {Q : α → Prop} (hh : h ∈ roots)
    (hf : ∀ ft, Mild roots p fresh h (fun n => f n ft) Q) :
    Mild roots p fresh h (fun n => refAt h i k >>= f n) Q := by
  unfold refAt
  simp only [bind_assoc, pure_bind]
  exact .fieldOf_bind hh fun _ => hf _

theorem mild_bindCopies (hfinder : Reaches roots p finder) {source : Handle} (hsource : source ∈ roots)
    (hh : h ∈ roots) (places : List Nat) :
    Mild roots p none h (fun n => bindCopies (finder n) source h i places) fun _ => True := by
  induction places with
  | nil => exact .pure trivial
  | cons k places ih =>
    simp only [bindCopies]
    refine mild_refAt_bind hh fun ft => ?_
    by_cases hforward : ft.forward = true
    · simp only [if_pos hforward]
      refine .bind (.of_still (.borrow hfinder hsource hh _)) fun _ _ => ?_
      exact .bind .updateField fun _ _ => ih
    · simp only [if_neg hforward]
      exact ih

theorem mild_seeThrough (hfinder : Reaches roots p finder) {source : Handle} (hsource : source ∈ roots)
    (hh : h ∈ roots) : Mild roots p none h (fun n => seeThrough (finder n) source h i k) fun _ => True := by
  unfold seeThrough
  refine .fieldOf_bind hsource fun f => .bind .updateField fun _ _ => ?_
  refine .bind (mild_bindCopies hfinder hsource hh _) fun _ _ => .fieldOf_bind hsource fun _ => ?_
  exact .bind .updateField fun _ _ => .pure trivial

theorem mild_bindForward (hfinder : Reaches roots p finder) (hh : h ∈ roots) (ft : FieldType) :
    Mild roots p none h (fun n => bindForward (finder n) h i k ft) fun _ => True := by
  unfold bindForward
  by_cases hcircular : ft.circular = true
  · simp only [if_pos hcircular]
    exact .bind .updateField fun _ _ => .pure trivial
  · simp only [if_neg hcircular]
    exact .findInner_bind hfinder hh _

theorem mild_bindDependency (hfinder : Reaches roots p finder) (hh : h ∈ roots) (ft : FieldType) :
    Mild roots p none h (fun n => bindDependency (finder n) h i k ft) fun _ => True := by
  unfold bindDependency
  refine .fieldOf_bind hh fun f => .bind (.findPreferred hfinder _ _) fun r hr => ?_
  cases r with
  | none =>
    refine mild_refAt_bind hh fun ft => .typeOf_bind hh fun _ _ => .fieldOf_bind hh fun _ => ?_
    refine .get_bind fun _ => .bind (.note fun _ => rfl) fun _ _ => ?_
    exact .bind .updateField fun _ _ => .pure trivial
  | some source =>
    have hsource := hr source rfl
    refine .typeOf_bind hsource fun b _ => ?_
    by_cases hsee : source ≠ h ∧ b.isTransparent = true
    · simp only [if_pos hsee]
      exact mild_seeThrough hfinder hsource hh
    · simp only [if_neg hsee]
      exact .bind .updateField fun _ _ => .pure trivial

theorem mild_bindFrom (hfinder : Reaches roots p finder) (hh : h ∈ roots) (count : Nat) :
    Mild roots p none h (fun n => bindFrom (finder n) h i count k) fun _ => True := by
  induction count generalizing k with
  | zero => exact .pure trivial
  | succ count ih =>
    simp only [bindFrom]
    refine mild_refAt_bind hh fun ft => ?_
    by_cases hnative : (ft.native || ft.qname.isNative) = true
    · simp only [if_pos hnative]
      refine .bind .updateField fun _ _ => ?_
      by_cases htokens : ft.qname.isTokenList = true
      · simp only [if_pos htokens]
        exact .bind .updateField fun _ _ => ih
      · simp only [if_neg htokens]
        exact ih
    · simp only [if_neg hnative]
      by_cases hforward : ft.forward = true
      · simp only [if_pos hforward]
        exact .bind (mild_bindForward hfinder hh ft) fun _ _ => ih
      · simp only [if_neg hforward]
        exact .bind (mild_bindDependency hfinder hh ft) fun _ _ => ih

theorem mild_bindFields (hfinder : Reaches roots p finder) (hh : h ∈ roots) (places : List Nat) :
    Mild roots p none h (fun n => bindFields (finder n) h places) fun _ => True := by
  induction places with
  | nil => exact .pure trivial
  | cons i places ih =>
    have hbind : Mild roots p none h (fun n => do
        bindFrom (finder n) h i (← fieldOf h i).types.length 0
        updateField h i fun f => { f with types := distinctTypes f.types }
        bindFields (finder n) h places) fun _ => True :=
      .fieldOf_bind hh fun _ => .bind (mild_bindFrom hfinder hh _) fun _ _ => .bind .updateField fun _ _ => ih
    simp only [bindFields]
    refine .get_bind fun s => ?_
    by_cases hpatterns : s.config.output.ignorePatterns = true
    · simp only [if_pos hpatterns]
      exact .bind .updateField fun _ _ => hbind
    · simp only [if_neg hpatterns]
      exact hbind

theorem mild_bindReferences (hfinder : Reaches roots p finder) (hh : h ∈ roots) :
    Mild roots p none h (fun n => bindReferences (finder n) h) fun _ => True :=
  .typeOf_bind hh fun _ _ => mild_bindFields hfinder hh _

end References

-- ---------------------------------------------------------------------------
-- Wrapped lists
-- ---------------------------------------------------------------------------

theorem mild_dropInner (hh : h ∈ roots) (k : Handle) :
    Mild roots p none h (fun _ => dropInner h k) fun _ => True := by
  unfold dropInner
  refine .typeOf_bind hh fun t ht => ?_
  simp only [ht, List.filter_nil]
  refine .bind (.update fun t ht => ⟨⟨rfl, rfl, rfl, ?_⟩, rfl, rfl⟩) fun _ _ => .note fun _ => rfl
  simp [ht]

theorem mild_unwrapField (hfinder : Reaches roots p finder) (hh : h ∈ roots) (i : Nat) {wrapper : Handle}
    (hwrapper : wrapper ∈ roots) (item : Field) :
    Mild roots p none h (fun n => unwrapField (finder n) h i wrapper item) fun _ => True := by
  unfold unwrapField
  refine .bind (.of_still (.borrowTypes hfinder hwrapper hh item)) fun item _ => .fieldOf_bind hh fun f => ?_
  refine .bind .updateField fun _ _ => ?_
  have hinform : Mild roots p none h (fun _ => do
      let f ← fieldOf h i
      inform Code.unwrappedList (← typeOf h).qname.text f.name ("unwrapped list wrapper " ++ f.wrapper))
      fun _ => True :=
    .fieldOf_bind hh fun _ => .typeOf_bind hh fun _ _ => .note fun _ => rfl
  by_cases hforward : (f.types.headD {}).forward = true
  · simp only [if_pos hforward]
    exact .bind (mild_dropInner hh _) fun _ _ => hinform
  · simp only [if_neg hforward]
    exact hinform

theorem mild_unwrapFields (hfinder : Reaches roots p finder) (hh : h ∈ roots) (places : List Nat) :
    Mild roots p none h (fun n => unwrapFields (finder n) h places) fun _ => True := by
  induction places with
  | nil => exact .pure trivial
  | cons i places ih =>
    simp only [unwrapFields]
    refine .fieldOf_bind hh fun f => ?_
    cases f.wrapperRef? with
    | none => exact ih
    | some ft =>
      dsimp only
      by_cases hforward : ft.forward = true
      case pos =>
        simp only [if_pos hforward]
        refine .typeOf_bind hh fun t ht => ?_
        have hnone : t.innerNamed? ft.qname = none := by
          rw [innerNamed?, ht]
          rfl
        rw [hnone]
        refine .bind (.pure (P := (· = none)) rfl) ?_
        rintro _ rfl
        exact ih
      case neg =>
        simp only [if_neg hforward]
        refine .bind (.find hfinder _ _) fun source hsource => ?_
        cases source with
        | none => exact ih
        | some source =>
          dsimp only
          by_cases hself : source ≠ h
          case neg =>
            simp only [if_neg hself]
            exact ih
          simp only [if_pos hself]
          refine .typeOf_bind (hsource source rfl) fun b _ => ?_
          cases b.wrapped? with
          | none => exact ih
          | some item => exact .bind (mild_unwrapField hfinder hh i (hsource source rfl) item) fun _ _ => ih

theorem mild_unwrapLists (hfinder : Reaches roots p finder) (hh : h ∈ roots) :
    Mild roots p none h (fun n => unwrapLists (finder n) h) fun _ => True := by
  unfold unwrapLists
  refine .get_bind fun s => ?_
  by_cases hunwrap : s.config.output.wrappedLists = .unwrap
  · simp only [if_pos hunwrap]
    exact .typeOf_bind hh fun _ _ => mild_unwrapFields hfinder hh _
  · simp only [if_neg hunwrap]
    exact .pure trivial

end Schemata
