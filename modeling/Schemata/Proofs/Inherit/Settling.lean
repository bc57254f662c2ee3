import Schemata.Proofs.Inherit.Flattening
import Schemata.Proofs.Inherit.Orderly

/-!
# Bases are settled one after the other

A base that is copied is replaced by the bases of a type that is on no circle, and these take less than
the base did. So the loop over the bases of a type comes to an end, whatever the look-ups do to other
types meanwhile. Only the first base needs care: while it is settled, the type may still be on a circle.
-/

namespace Schemata

open Compile SchemaType Relation Store

variable {roots : List Handle} {s s' : Store} {t t' b : SchemaType} {h : Handle} {p : Nat}
  {fresh : Option Handle} {finder : Nat → Finder} {rounds : Nat → Nat} {e : Extension}
  {pre post : List Extension}

theorem Store.load_append (s : Store) (es es' : List Extension) :
    s.load (es ++ es') = s.load es + s.load es' := by
  simp [load]

theorem Store.load_cons (s : Store) (e : Extension) (es : List Extension) :
    s.load (e :: es) = s.toll e + s.load es := by
  simp [load]

/-- The type is still worked on, and has these bases. -/
def Leaves (roots : List Handle) (p : Nat) (fresh : Option Handle) (h : Handle) (s s' : Store)
    (bases : List Extension) : Prop :=
  ∃ t, Active roots p fresh h s' t ∧ Advances (some h) s s' ∧ t.extensions = bases

-- ---------------------------------------------------------------------------
-- What becomes of a base
-- ---------------------------------------------------------------------------

namespace SchemaType

/-- The type without the base at a position. -/
def withoutBase (t : SchemaType) (i : Nat) : SchemaType :=
  { t with extensions := t.extensions.eraseIdx i }

/-- The type with copies of the fields of a base in front and its new bases at the end. -/
def absorb (t : SchemaType) (copies : List Field) (b : SchemaType) (r : Restrictions) : SchemaType :=
  let t := { t with fields := copies ++ t.fields }
  let t := t.addBases b.extensions r
  { t with mixed := t.mixed || b.mixed }

theorem extensions_withoutBase (hext : t.extensions = pre ++ e :: post) :
    (t.withoutBase pre.length).extensions = pre ++ post := by
  simp [withoutBase, hext, List.eraseIdx_append_of_length_le]

end SchemaType

theorem ends_dropBase (ht : Active roots p fresh h s t) (hext : t.extensions = pre ++ e :: post) :
    Ends (fun _ => dropBase h pre.length) s fun _ s' => Leaves roots p fresh h s s' (pre ++ post) := by
  obtain ⟨ht', hadv⟩ := ht.update_sub (g := (·.withoutBase pre.length)) ⟨rfl, rfl, rfl, rfl⟩ rfl
    fun a ha => ⟨a, List.mem_of_mem_eraseIdx ha, rfl, rfl⟩
  exact .const (wp_update.mpr ⟨_, ht', hadv, extensions_withoutBase hext⟩)

/-- A base is taken off, and what comes after it leaves the other bases alone. -/
theorem ends_drop {y : Nat → Compile Bool} (ht : Active roots p fresh h s t)
    (hext : t.extensions = pre ++ e :: post) (hy : Mild roots p fresh h y (· = false)) :
    Ends (fun n => dropBase h pre.length >>= fun _ => y n) s fun kept s' =>
      kept = false ∧ Leaves roots p fresh h s s' (pre ++ post) := by
  refine .bind (ends_dropBase ht hext) ?_
  rintro _ s₁ ⟨t₁, ht₁, hadv₁, hext₁⟩
  refine (hy ht₁).mono ?_
  rintro _ s₂ ⟨t₂, ht₂, hadv₂, hext₂, hkept⟩
  exact ⟨hkept, t₂, ht₂, hadv₁.trans hadv₂, hext₂.trans hext₁⟩

/-- What a base leaves in the fields. -/
theorem mild_dissolve {g : SchemaType → SchemaType} (hg : ∀ t, g t = { t with fields := (g t).fields }) :
    Mild roots p fresh h (fun _ => do update h g; pure false) (· = false) :=
  .bind (.update_fields hg) fun _ _ => .pure rfl

theorem mild_warn {code type field message : String} :
    Mild roots p fresh h (fun _ => do warn code type field message; pure false) (· = false) :=
  .bind (.note fun _ => rfl) fun _ _ => .pure rfl

theorem still_copyFields (hfinder : Reaches roots p finder) {k : Handle} (hk : k ∈ roots)
    (hh : h ∈ roots) (r : Restrictions) (taken : List String) (places : List Nat) :
    Still roots fun n => copyFields (finder n) k h r taken places := by
  induction places with
  | nil => exact .pure
  | cons i places ih =>
    simp only [copyFields]
    refine .fieldOf_bind hk fun f => ?_
    by_cases htaken : taken.contains f.name
    · simpa only [if_pos htaken] using ih
    · simp only [if_neg htaken]
      exact .bind (.borrowTypes hfinder hk hh _) fun _ => .bind ih fun _ => .pure

/-- The base gives way to bases of its own, which the type led to before. -/
theorem Active.absorb (ht : Active roots p none h s t) (hext : t.extensions = pre ++ e :: post)
    (hnative : e.type.native = false) (hb : b ∈ s.types) (htarget : s.Target e.type.qname b.id)
    (copies : List Field) (r : Restrictions) :
    ∃ added, Leaves roots p none h s
        ((s.update h (·.withoutBase pre.length)).update h (·.absorb copies b r)) (pre ++ (post ++ added)) ∧
      (∀ a ∈ added, ∃ c ∈ b.extensions, c.type = a.type) ∧ (added.map (·.type.qname)).Nodup := by
  obtain ⟨added, haddedext, hadded, -⟩ := exists_addBases (fun _ => 0)
    { t.withoutBase pre.length with fields := copies ++ t.fields } b.extensions r
  have hbases : ((t.withoutBase pre.length).absorb copies b r).extensions = pre ++ (post ++ added) := by
    rw [← List.append_assoc, ← extensions_withoutBase hext]
    exact haddedext
  have hmem : ∀ a ∈ pre ++ (post ++ added), a ∈ t.extensions ∨ a ∈ added := by
    intro a ha
    rw [hext]
    simp only [List.mem_append, List.mem_cons] at ha ⊢
    tauto
  have halike : Alike t ((t.withoutBase pre.length).absorb copies b r) :=
    ⟨addBases_id _ _ _, addBases_qname _ _ _, addBases_tag _ _ _, addBases_inner _ _ _⟩
  have hnext : ∀ a ∈ pre ++ (post ++ added), a.type.native = false → ∀ k, s.Target a.type.qname k →
      TransGen s.Next h k := by
    intro a ha hanative k hk
    obtain ha | ha := hmem a ha
    · exact .single ⟨t, ht.mem, ht.id, a, ha, hanative, hk⟩
    · -- the base is passed on the way to one of its bases
      obtain ⟨c, hc, htype⟩ := hadded a ha
      rw [← htype] at hanative hk
      exact .head ⟨t, ht.mem, ht.id, e, by simp [hext], hnative, htarget⟩
        (.single ⟨b, hb, rfl, c, hc, hanative, hk⟩)
  have hnames : ∀ a ∈ pre ++ (post ++ added), a.type.qname ∈ s.baseNames := by
    intro a ha
    obtain ha | ha := hmem a ha
    · exact mem_baseNames_iff.mpr ⟨t, ht.mem, a, ha, rfl⟩
    · obtain ⟨c, hc, htype⟩ := hadded a ha
      exact mem_baseNames_iff.mpr ⟨b, hb, c, hc, by rw [htype]⟩
  rw [← hbases] at hnext hnames
  obtain ⟨ht', hadv⟩ := ht.update (g := fun t => (t.withoutBase pre.length).absorb copies b r) halike
    (addBases_status _ _ _) hnext hnames
  rw [update_update (f := (·.withoutBase pre.length)) fun _ => rfl]
  exact ⟨added, ⟨_, ht', hadv, hbases⟩, hadded, (nodup_addBases _ _ _ haddedext).1⟩

/-- A base that is copied is replaced by its bases, as far as they are new. -/
theorem ends_copy (hfinder : Reaches roots p finder) (ht : Active roots p none h s t)
    (hext : t.extensions = pre ++ e :: post) (hnative : e.type.native = false) (hb : b ∈ s.types)
    (htarget : s.Target e.type.qname b.id) (hne : b.id ≠ h) :
    Ends (fun n => do dropBase h pre.length; copyBase (finder n) b.id h e; pure false) s
      fun kept s' => kept = false ∧ ∃ added, Leaves roots p none h s s' (pre ++ (post ++ added)) ∧
        (∀ a ∈ added, ∃ c ∈ b.extensions, c.type = a.type) ∧ (added.map (·.type.qname)).Nodup := by
  obtain ⟨ht₁, -⟩ := ht.update_sub (g := (·.withoutBase pre.length)) ⟨rfl, rfl, rfl, rfl⟩ rfl
    fun a ha => ⟨a, List.mem_of_mem_eraseIdx ha, rfl, rfl⟩
  have hb₁ : b ∈ (s.update h (·.withoutBase pre.length)).types := by
    rw [← ht.id] at hne ⊢
    exact (ht.orderly.flat.mem_update ht.orderly.sound ht.mem).mpr (.inr ⟨hb, hne⟩)
  have hget₁ := ht₁.orderly.sound.get?_root hb₁
  refine .bind (P := fun _ s₁ => s₁ = s.update h (·.withoutBase pre.length)) (.const (wp_update.mpr rfl)) ?_
  rintro _ _ rfl
  refine .bind (P := fun _ s₂ => ∃ copies,
    s₂ = (s.update h (·.withoutBase pre.length)).update h (·.absorb copies b e.restrictions)) ?_ ?_
  · unfold copyBase
    refine .typeOf_bind ht₁.get? (.typeOf_bind hget₁ (.bind (still_copyFields hfinder
      (ht₁.orderly.mem_roots hb₁) ht₁.mem_roots _ _ _ ht₁.orderly) ?_))
    rintro copies _ rfl
    exact .typeOf_bind hget₁ (.const (wp_update.mpr ⟨copies, rfl⟩))
  · rintro _ _ ⟨copies, rfl⟩
    exact .pure ⟨rfl, ht.absorb hext hnative hb htarget copies e.restrictions⟩

/-- A base is kept and bound. -/
theorem ends_keep (ht : Active roots p none h s t) (hext : t.extensions = pre ++ e :: post) (k : Handle) :
    Ends (fun _ => do
      update h fun t => { t with extensions := t.extensions.modify pre.length fun e =>
        { e with type.reference := k } }
      pure true) s fun kept s' => kept = true ∧
        Leaves roots p none h s s' (pre ++ { e with type.reference := k } :: post) := by
  have hmodify : t.extensions.modify pre.length (fun e => { e with type.reference := k }) =
      pre ++ { e with type.reference := k } :: post := by
    rw [hext, List.modify_eq_take_cons_drop (by simp)]
    simp
  obtain ⟨ht', hadv⟩ := ht.update_sub (g := fun t => { t with
      extensions := t.extensions.modify pre.length fun e => { e with type.reference := k } })
    ⟨rfl, rfl, rfl, rfl⟩ rfl fun a ha => by
      dsimp only at ha
      rw [hmodify] at ha
      rw [hext]
      simp only [List.mem_append, List.mem_cons] at ha
      obtain ha | rfl | ha := ha
      · exact ⟨a, by simp [ha], rfl, rfl⟩
      · exact ⟨e, by simp, rfl, rfl⟩
      · exact ⟨a, by simp [ha], rfl, rfl⟩
  refine .bind (P := fun _ s' => Leaves roots p none h s s' _) (.const (wp_update.mpr ⟨_, ht', hadv, hmodify⟩)) ?_
  intro _ s' hleaves
  exact .pure ⟨rfl, hleaves⟩

-- ---------------------------------------------------------------------------
-- One base after the other
-- ---------------------------------------------------------------------------

/-- A base has been dealt with, and what is left to settle takes less. -/
def Lightens (roots : List Handle) (p : Nat) (h : Handle) (s : Store) (pre : List Extension) (load : Nat)
    (kept : Bool) (s' : Store) : Prop :=
  ∃ pre' post', Leaves roots p none h s s' (pre' ++ post') ∧
    (if kept then pre.length + 1 else pre.length) = pre'.length ∧ s'.load post' < load

theorem lightens_of_dropped {kept : Bool} {s₁ : Store} (hs : s.Sound) (hadv : Advances none s s₁)
    (hdropped : kept = false ∧ Leaves roots p none h s₁ s' (pre ++ post)) :
    Lightens roots p h s pre (s.load (e :: post)) kept s' := by
  obtain ⟨rfl, t', ht', hadv', hext'⟩ := hdropped
  have hadv'' := (hadv.of_none _).trans hadv'
  refine ⟨pre, post, ⟨t', ht', hadv'', hext'⟩, rfl, ?_⟩
  have hload := hadv''.shrinks.load_le hs ht'.orderly.sound post
  have hpos := s.toll_pos e
  rw [load_cons]
  omega

theorem ends_settleBase (hfinder : Reaches roots p finder) (ht : Active roots p none h s t)
    (hext : t.extensions = pre ++ e :: post) :
    Ends (fun n => settleBase (finder n) h pre.length e) s
      (Lightens roots p h s pre (s.load (e :: post))) := by
  have hs := ht.orderly.sound
  have hh := ht.mem_roots
  unfold settleBase
  by_cases hnative : (e.type.native || e.type.qname.isNative) = true
  · simp only [if_pos hnative]
    refine (ends_drop ht hext (mild_dissolve fun t => dissolveNative_eq t e)).mono ?_
    exact fun _ _ hdropped => lightens_of_dropped hs (.refl _ s) hdropped
  simp only [if_neg hnative]
  refine .get_bind ?_
  by_cases hcircular : s.leadsTo e.type.qname h = true
  · simp only [if_pos hcircular]
    refine (ends_drop ht hext (.typeOf_bind hh fun _ _ => mild_warn)).mono ?_
    exact fun _ _ hdropped => lightens_of_dropped hs (.refl _ s) hdropped
  simp only [if_neg hcircular]
  refine .bind (hfinder.findPreferred _ _ ht) ?_
  rintro r s₁ ⟨ht₁, hadv₁, hr⟩
  cases r with
  | none =>
    refine (ends_drop ht₁ hext (.typeOf_bind hh fun _ _ => .get_bind fun _ => mild_warn)).mono ?_
    exact fun _ _ hdropped => lightens_of_dropped hs hadv₁ hdropped
  | some source =>
    obtain ⟨b, hfound, rfl, hbegun⟩ := hr source rfl
    have hs₁ := ht₁.orderly.sound
    obtain ⟨hb, -⟩ := hs₁.preferred? hfound
    have htarget : s₁.Target e.type.qname b.id := by rw [Target, hfound, Option.map_some]
    have hne : b.id ≠ h := by
      rintro rfl
      have hlead := hadv₁.shrinks.leads hs hs₁ ⟨b.id, htarget, .refl⟩
      exact not_leads_of_leadsTo hs (Bool.eq_false_iff.mpr hcircular) hlead
    simp only [Bool.or_eq_true, not_or, Bool.not_eq_true] at hnative
    refine .typeOf_bind ht₁.get? (.typeOf_bind (hs₁.get?_root hb) ?_)
    by_cases hmembers : b.isEnumeration = true
    · simp only [if_pos hmembers]
      refine (ends_drop ht₁ hext (mild_dissolve fun t => dissolveEnumeration_eq t b e)).mono ?_
      exact fun _ _ hdropped => lightens_of_dropped hs hadv₁ hdropped
    simp only [if_neg hmembers]
    by_cases hretype : (!b.isComplex && t.isEnumeration) = true
    · simp only [if_pos hretype]
      refine (ends_drop ht₁ hext (mild_dissolve fun t => rfl)).mono ?_
      exact fun _ _ hdropped => lightens_of_dropped hs hadv₁ hdropped
    simp only [if_neg hretype]
    by_cases hcopy : (!b.isComplex || t.mustCopy b || decide (t.fateOf b = .copy)) = true
    · simp only [if_pos hcopy]
      refine (ends_copy hfinder ht₁ hext hnative.1 hb htarget hne).mono ?_
      rintro _ s₂ ⟨rfl, added, ⟨t₂, ht₂, hadv₂, hext₂⟩, hadded, hnodup⟩
      have hadv := (hadv₁.of_none _).trans hadv₂
      refine ⟨pre, post ++ added, ⟨t₂, ht₂, hadv, hext₂⟩, rfl, ?_⟩
      have hcircle := ht₁.orderly.begun b hb hbegun (Option.some_ne_none _)
      have hload := hadv₂.shrinks.load_le hs₁ ht₂.orderly.sound (post ++ added)
      have hless := load_lt_toll hs₁ hb hnative.1 htarget hcircle hadded hnodup
      have hbefore := hadv₁.shrinks.load_le hs hs₁ (e :: post)
      rw [load_append s₁] at hload
      rw [load_cons s₁] at hbefore
      omega
    simp only [if_neg hcopy]
    by_cases hdrop : t.fateOf b = .drop
    · simp only [if_pos hdrop]
      refine (ends_drop ht₁ hext (.pure rfl)).mono ?_
      exact fun _ _ hdropped => lightens_of_dropped hs hadv₁ hdropped
    · simp only [if_neg hdrop]
      refine (ends_keep ht₁ hext b.id).mono ?_
      rintro _ s₂ ⟨rfl, t₂, ht₂, hadv₂, hext₂⟩
      have hadv := (hadv₁.of_none _).trans hadv₂
      refine ⟨pre ++ [{ e with type.reference := b.id }], post, ⟨t₂, ht₂, hadv, ?_⟩, by simp, ?_⟩
      · rw [hext₂, List.append_assoc, List.singleton_append]
      · have hload := hadv.shrinks.load_le hs ht₂.orderly.sound post
        have hpos := s.toll_pos e
        rw [load_cons]
        omega

/-- What is left to settle takes less and less, so that the loop comes to an end. -/
theorem ends_settleFrom (hfinder : Reaches roots p finder) (hrounds : Ample rounds)
    (ht : Active roots p none h s t) (hext : t.extensions = pre ++ post) :
    Ends (fun n => settleFrom (finder n) h (rounds n) pre.length) s fun _ s' =>
      ∃ bases, Leaves roots p none h s s' bases := by
  induction hload : s.load post using Nat.strong_induction_on generalizing s t pre post rounds with
  | _ load ih =>
    refine .round (x := fun n r => settleFrom (finder n) h r pre.length) hrounds fun rest hrest => ?_
    simp only [settleFrom]
    refine .typeOf_bind ht.get? ?_
    cases post with
    | nil =>
      have hnone : t.extensions[pre.length]? = none := by simp [hext]
      rw [hnone]
      exact .pure ⟨_, t, ht, .refl _ s, rfl⟩
    | cons e post =>
      have hsome : t.extensions[pre.length]? = some e := by simp [hext]
      rw [hsome]
      refine .bind (ends_settleBase hfinder ht hext) ?_
      rintro kept s₁ ⟨pre', post', ⟨t₁, ht₁, hadv₁, hext₁⟩, hlength, hless⟩
      rw [hlength]
      refine (ih _ (hload ▸ hless) hrest ht₁ hext₁ rfl).mono ?_
      rintro _ s₂ ⟨bases, t₂, ht₂, hadv₂, hext₂⟩
      exact ⟨bases, t₂, ht₂, hadv₁.trans hadv₂, hext₂⟩

/-- A type of which no base leads back to it is on no circle. -/
theorem ends_settleFrom_fresh (hfinder : Reaches roots p finder) (hrounds : Ample rounds) (hs : s.Sound)
    (ht : Active roots p (some h) h s' t) (hadv : Advances (some h) s s')
    (hbases : ∀ e ∈ t.extensions, e.type.native = false → ¬ s.Leads e.type.qname h) :
    Ends (fun n => settleFrom (finder n) h (rounds n) 0) s' fun _ s'' =>
      ∃ bases, Leaves roots p none h s s'' bases := by
  have horderly : s'.Orderly roots none := by
    have hfresh := ht.orderly
    rw [← ht.id] at hfresh
    refine hfresh.settle ht.mem fun e he hnative hlead => hbases e he hnative ?_
    exact ht.id ▸ hadv.shrinks.leads hs hfresh.sound hlead
  have ht₀ : Active roots p none h s' t := ⟨horderly, ht.mem, ht.id, ht.busy, ht.few⟩
  refine (ends_settleFrom hfinder hrounds ht₀ (List.nil_append _).symm).mono ?_
  rintro _ s'' ⟨bases, t'', ht'', hadv', hext''⟩
  exact ⟨bases, t'', ht'', hadv.trans hadv', hext''⟩

/-- The first base is the only one that may lead back to the type; once it is settled, the type is on no
circle. -/
theorem ends_flattenBases (hfinder : Reaches roots p finder) (hrounds : Ample rounds)
    (ht : Active roots p (some h) h s t)
    (hfirst : ∀ e ∈ t.extensions.tail, e.type.native = false → ¬ s.Leads e.type.qname h) :
    Ends (fun n => flattenBases (rounds n) (finder n) h) s fun _ s' =>
      ∃ bases, Leaves roots p none h s s' bases := by
  have hs := ht.orderly.sound
  unfold flattenBases
  cases hext : t.extensions with
  | nil => exact ends_settleFrom_fresh hfinder hrounds hs ht (.refl _ s) (by simp [hext])
  | cons e post =>
    rw [hext] at hfirst
    have hcons : t.extensions = [] ++ e :: post := hext
    -- a first base that leads back is dropped before anything else happens
    have hdropped : Ends (fun n => settleBase (finder n) h 0 e) s (fun kept s' =>
          kept = false ∧ Leaves roots p (some h) h s s' post) →
        Ends (fun n => settleFrom (finder n) h (rounds n) 0) s fun _ s' =>
          ∃ bases, Leaves roots p none h s s' bases := by
      intro hsettle
      refine .round (x := fun n r => settleFrom (finder n) h r 0) hrounds fun rest hrest => ?_
      simp only [settleFrom]
      refine .typeOf_bind ht.get? ?_
      rw [hext]
      refine .bind hsettle ?_
      rintro _ s₁ ⟨rfl, t₁, ht₁, hadv₁, hext₁⟩
      exact ends_settleFrom_fresh hfinder hrest hs ht₁ hadv₁ (hext₁ ▸ hfirst)
    by_cases hnative : (e.type.native || e.type.qname.isNative) = true
    · refine hdropped ?_
      simp only [settleBase, if_pos hnative]
      refine (ends_drop ht hcons (mild_dissolve fun t => dissolveNative_eq t e)).mono ?_
      exact fun _ _ hleaves => hleaves
    by_cases hcircular : s.leadsTo e.type.qname h = true
    · refine hdropped ?_
      simp only [settleBase, if_neg hnative]
      refine .get_bind ?_
      simp only [if_pos hcircular]
      refine (ends_drop ht hcons (.typeOf_bind ht.mem_roots fun _ _ => mild_warn)).mono ?_
      exact fun _ _ hleaves => hleaves
    · refine ends_settleFrom_fresh hfinder hrounds hs ht (.refl _ s) fun a ha hanative => ?_
      rw [hext] at ha
      obtain rfl | ha := List.mem_cons.mp ha
      · exact not_leads_of_leadsTo hs (Bool.eq_false_iff.mpr hcircular)
      · exact hfirst a ha hanative

end Schemata
