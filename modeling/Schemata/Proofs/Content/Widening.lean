import Schemata.Proofs.Content.Unsplit

/-!
# Merging only widens

What is declared more than once is merged twice: into repeating choices, and then by key and choice marker.
The two ways combine bounds differently, but each lets pass all that the declarations let pass together: the
lower bounds of an element do not add up to more than before, its upper bounds not to less, and no type is
lost.
-/

namespace Schemata

variable {fs fs' gs gs' hs rs es span members : List Field} {f g r : Field} {k : Tag × String × String}
  {stretches : List Stretch} {marker : Int} {t : SchemaType}

-- ---------------------------------------------------------------------------
-- Widening
-- ---------------------------------------------------------------------------

/-- The sum of the upper bounds of the fields with a key. -/
def maxTotal (fs : List Field) (k : Tag × String × String) : Int :=
  Occurs.total ((fs.filter (·.fullKey == k)).map (·.restrictions.max))

/-- The fields with a key let pass whatever they have let pass before. -/
structure Loosens (fs fs' : List Field) (k : Tag × String × String) : Prop where
  lower : minTotal fs' k ≤ minTotal fs k
  upper : min Occurs.unbounded (maxTotal fs k) ≤ min Occurs.unbounded (maxTotal fs' k)
  offers : ∀ q, Offers fs k q → Offers fs' k q

theorem maxTotal_append (fs gs : List Field) (k : Tag × String × String) :
    maxTotal (fs ++ gs) k = maxTotal fs k + maxTotal gs k := by
  simp [maxTotal]

theorem maxTotal_nonneg (h : ∀ f ∈ fs, f.Bounded) : 0 ≤ maxTotal fs k := by
  refine Occurs.total_nonneg fun n hn => ?_
  obtain ⟨f, hf, rfl⟩ := List.mem_map.mp hn
  exact (h f (List.mem_of_mem_filter hf)).max_nonneg

theorem maxTotal_eq_zero (h : ∀ f ∈ fs, f.fullKey ≠ k) : maxTotal fs k = 0 := by
  rw [maxTotal, List.filter_eq_nil_iff.mpr (by simpa using h)]
  rfl

namespace Loosens

theorem refl (fs : List Field) (k : Tag × String × String) : Loosens fs fs k :=
  ⟨Int.le_refl _, le_refl _, fun _ => id⟩

theorem trans (h : Loosens fs gs k) (h' : Loosens gs hs k) : Loosens fs hs k :=
  ⟨h'.lower.trans h.lower, h.upper.trans h'.upper, fun q hq => h'.offers q (h.offers q hq)⟩

theorem append (h : Loosens fs fs' k) (h' : Loosens gs gs' k) (hfs : ∀ f ∈ fs', f.Bounded)
    (hgs : ∀ g ∈ gs', g.Bounded) : Loosens (fs ++ gs) (fs' ++ gs') k := by
  constructor
  case lower =>
    rw [minTotal_append, minTotal_append]
    exact Int.add_le_add h.lower h'.lower
  case upper =>
    rw [maxTotal_append, maxTotal_append]
    have hmax := h.upper
    have hmax' := h'.upper
    have hfs := maxTotal_nonneg (k := k) hfs
    have hgs := maxTotal_nonneg (k := k) hgs
    omega
  case offers =>
    intro q
    rw [offers_append_iff, offers_append_iff]
    exact Or.imp (h.offers q) (h'.offers q)

theorem of_none (h : ∀ f ∈ fs, f.fullKey ≠ k) (h' : ∀ f ∈ fs', f.fullKey ≠ k) : Loosens fs fs' k := by
  constructor
  case lower => rw [minTotal_eq_zero h, minTotal_eq_zero h']
  case upper => rw [maxTotal_eq_zero h, maxTotal_eq_zero h']
  case offers => exact fun q ⟨f, hf, hkey, _⟩ => absurd hkey (h f hf)

/-- Fields with other keys do not matter. -/
theorem of_other (h : ∀ f ∈ gs, f.fullKey ≠ k) : Loosens (fs ++ gs) fs k := by
  constructor
  case lower => rw [minTotal_append, minTotal_eq_zero h, Int.add_zero]
  case upper => rw [maxTotal_append, maxTotal_eq_zero h, Int.add_zero]
  case offers =>
    intro q hq
    exact (offers_append_iff.mp hq).resolve_right fun ⟨f, hf, hkey, _⟩ => h f hf hkey

theorem of_perm (h : fs.Perm fs') : Loosens fs fs' k := by
  have hfiltered := h.filter (·.fullKey == k)
  constructor
  case lower => exact (Occurs.total_perm (hfiltered.map _)).ge
  case upper => exact (congrArg _ (Occurs.total_perm (hfiltered.map _))).le
  case offers => exact fun q ⟨f, hf, hkey, htype⟩ => ⟨f, h.mem_iff.mp hf, hkey, htype⟩

end Loosens

-- ---------------------------------------------------------------------------
-- Repeating choices
-- ---------------------------------------------------------------------------

theorem RepeatingChoice.bounded (h : RepeatingChoice marker span members) (hspan : ∀ f ∈ span, f.Bounded) :
    ∀ g ∈ members, g.Bounded := by
  have hunbounded : 0 ≤ Occurs.unbounded := by decide
  have hsum : 0 ≤ Occurs.total ((span.filter Field.isElement).map (·.restrictions.max)) := by
    refine Occurs.total_nonneg fun n hn => ?_
    obtain ⟨f, hf, rfl⟩ := List.mem_map.mp hn
    exact (hspan f (List.mem_of_mem_filter hf)).max_nonneg
  intro g hg
  have hmin := h.min g hg
  have hmax := h.max g hg
  have htotal := minTotal_nonneg (k := g.fullKey) hspan
  exact ⟨by omega, by omega, by omega, by omega⟩

/-- The maximums of the declarations of an element are among those of all elements. -/
theorem maxTotal_le_total (hspan : ∀ f ∈ span, f.Bounded) (hk : k.1 = .element) :
    maxTotal span k ≤ Occurs.total ((span.filter Field.isElement).map (·.restrictions.max)) := by
  induction span with
  | nil => exact Int.le_refl _
  | cons f span ih =>
    obtain ⟨hf, hspan⟩ := List.forall_mem_cons.mp hspan
    have hrest := ih hspan
    have hpositive := hf.max_nonneg
    unfold maxTotal at hrest ⊢
    by_cases hkey : f.fullKey = k
    · have helement : f.isElement = true := Field.isElement_iff_key.mpr (hkey ▸ hk)
      simp only [List.filter_cons, hkey, beq_self_eq_true, helement, if_true, List.map_cons, Occurs.total_cons]
      omega
    · rw [List.filter_cons_of_neg (by simpa using hkey), List.filter_cons]
      split
      · rw [List.map_cons, Occurs.total_cons]
        omega
      · exact hrest

theorem RepeatingChoice.loosens (h : RepeatingChoice marker span members) (hspan : ∀ f ∈ span, f.Bounded)
    (hk : k.1 = .element) : Loosens span (members ++ span.filter (!·.isElement)) k := by
  have hothers : ∀ f ∈ span.filter (!·.isElement), f.fullKey ≠ k := by
    intro f hf hkey
    have hno := (List.mem_filter.mp hf).2
    rw [Field.isElement_iff_key.mpr (hkey ▸ hk)] at hno
    cases hno
  by_cases hthere : ∃ f ∈ span, f.fullKey = k
  · obtain ⟨f, hf, rfl⟩ := hthere
    obtain ⟨g, hg, hkey⟩ := (h.same _).mpr ⟨f, hf, Field.isElement_iff_key.mpr hk, rfl⟩
    have hone : members.filter (·.fullKey == f.fullKey) = [g] := hkey ▸ Lists.filter_key_eq_singleton h.keys hg
    constructor
    case lower =>
      have hmin := h.min g hg
      rw [minTotal_append, minTotal_eq_zero hothers, minTotal, hone, List.map_singleton, Occurs.total_cons, Occurs.total_nil,
        hmin, hkey]
      omega
    case upper =>
      have hmax := h.max g hg
      have hle := maxTotal_le_total hspan hk
      rw [maxTotal_append, maxTotal_eq_zero hothers, maxTotal, maxTotal, hone, List.map_singleton,
        Occurs.total_cons, Occurs.total_nil, hmax]
      unfold maxTotal at hle
      omega
    case offers =>
      intro q hq
      exact offers_append_iff.mpr (.inl ⟨g, hg, hkey, (h.types g hg q).mpr (hkey ▸ hq)⟩)
  · have hnone : ∀ f ∈ span, f.fullKey ≠ k := fun f hf hkey => hthere ⟨f, hf, hkey⟩
    have hmembers : ∀ g ∈ members, g.fullKey ≠ k := by
      intro g hg hkey
      obtain ⟨f, hf, -, hfkey⟩ := (h.same _).mp ⟨g, hg, hkey⟩
      exact hnone f hf hfkey
    refine .of_none hnone fun f hf => ?_
    exact (List.mem_append.mp hf).elim (hmembers f) (hothers f)

theorem Regrouping.bounded (h : Regrouping fs fs' stretches) (hfs : ∀ f ∈ fs, f.Bounded) :
    ∀ f ∈ fs', f.Bounded := by
  intro f hf
  rw [← h.after] at hf
  obtain ⟨p, hp, hf⟩ := List.mem_flatMap.mp hf
  have hbefore : ∀ f ∈ p.before, f.Bounded := fun f hf =>
    hfs f (h.before ▸ List.mem_flatMap.mpr ⟨p, hp, hf⟩)
  cases p with
  | kept fields => exact hbefore f hf
  | merged marker span members =>
    obtain hf | hf := List.mem_append.mp hf
    · exact (h.merged _ _ _ hp).bounded hbefore f hf
    · exact hbefore f (List.mem_of_mem_filter hf)

theorem Regrouping.loosens (h : Regrouping fs fs' stretches) (hfs : ∀ f ∈ fs, f.Bounded) (hk : k.1 = .element) :
    Loosens fs fs' k := by
  have hafter := h.bounded hfs
  have hmerged := h.merged
  rw [← h.before] at hfs ⊢
  rw [← h.after] at hafter ⊢
  clear h
  induction stretches with
  | nil => exact .refl [] k
  | cons p stretches ih =>
    rw [List.flatMap_cons] at hfs hafter ⊢
    obtain ⟨hp, hfs⟩ := List.forall_mem_append.mp hfs
    obtain ⟨hpafter, hafter⟩ := List.forall_mem_append.mp hafter
    rw [List.flatMap_cons]
    refine .append ?_ (ih hfs hafter fun _ _ _ hmem => hmerged _ _ _ (List.mem_cons_of_mem _ hmem)) hpafter
      hafter
    cases p with
    | kept fields => exact .refl fields k
    | merged marker span members => exact (hmerged _ _ _ List.mem_cons_self).loosens hp hk

-- ---------------------------------------------------------------------------
-- Fields of one key and marker
-- ---------------------------------------------------------------------------

/-- What a field is merged by. -/
def Field.slot (f : Field) : (Tag × String × String) × Int :=
  (f.fullKey, f.restrictions.choice)

@[simp] theorem Field.fullKey_widen (f g : Field) : (f.widen g).fullKey = f.fullKey := rfl

theorem Field.hasType_widen (f g : Field) (q : QName) : (f.widen g).hasType q = (f.hasType q || g.hasType q) :=
  any_names_addTypes f.types g.types q

@[simp] theorem Field.slot_widen (f g : Field) : (f.widen g).slot = f.slot := rfl

theorem Field.bounded_widen (hr : r.Bounded) (hf : f.Bounded) : (r.widen f).Bounded ∧
    (r.widen f).restrictions.min = min r.restrictions.min f.restrictions.min ∧
    (r.widen f).restrictions.max = min Occurs.unbounded (r.restrictions.max + f.restrictions.max) := by
  have hlimit : Occurs.unbounded < (Word64.limit : Int) := by decide
  have hunbounded : 0 ≤ Occurs.unbounded := by decide
  obtain ⟨hrmin, hrmin', hrmax, hrmax'⟩ := hr
  obtain ⟨hfmin, hfmin', hfmax, hfmax'⟩ := hf
  have hmin : (r.widen f).restrictions.min = min r.restrictions.min f.restrictions.min := rfl
  have hsum := Occurs.add_eq_min hrmax (by omega) hfmax (by omega)
  have hmax : (r.widen f).restrictions.max = min Occurs.unbounded (r.restrictions.max + f.restrictions.max) := by
    have hset : (r.widen f).restrictions.max =
        if Occurs.add r.restrictions.max f.restrictions.max > Occurs.unbounded ∨
          Occurs.add r.restrictions.max f.restrictions.max < 0 then Occurs.unbounded
        else Occurs.add r.restrictions.max f.restrictions.max := rfl
    rw [hset, hsum, if_neg (by omega)]
  exact ⟨⟨by omega, by omega, by omega, by omega⟩, hmin, hmax⟩

/-- One field that covers two lets pass what they let pass together. -/
theorem Field.loosens_widen (hr : r.Bounded) (hf : f.Bounded) (hkey : r.fullKey = f.fullKey) :
    Loosens [r, f] [r.widen f] k := by
  obtain ⟨-, hmin, hmax⟩ := Field.bounded_widen hr hf
  have hrmin := hr.min_nonneg
  have hfmin := hf.min_nonneg
  obtain rfl | hk := eq_or_ne f.fullKey k
  · constructor
    case lower =>
      simp only [minTotal, List.filter_cons, Field.fullKey_widen, hkey, beq_self_eq_true, if_true, List.filter_nil,
        List.map_cons, List.map_nil, Occurs.total_cons, Occurs.total_nil, hmin]
      omega
    case upper =>
      simp only [maxTotal, List.filter_cons, Field.fullKey_widen, hkey, beq_self_eq_true, if_true, List.filter_nil,
        List.map_cons, List.map_nil, Occurs.total_cons, Occurs.total_nil, hmax]
      omega
    case offers =>
      rintro q ⟨g, hg, -, hq⟩
      refine ⟨r.widen f, List.mem_singleton_self _, hkey, ?_⟩
      rw [Field.hasType_widen, Bool.or_eq_true]
      obtain rfl | hg := List.mem_cons.mp hg
      · exact .inl hq
      · exact .inr (List.mem_singleton.mp hg ▸ hq)
  · refine .of_none (fun g hg hgk => ?_) fun g hg hgk => ?_
    · obtain rfl | hg := List.mem_cons.mp hg
      · exact hk (hkey.symm.trans hgk)
      · exact hk (List.mem_singleton.mp hg ▸ hgk)
    · obtain rfl := List.mem_singleton.mp hg
      exact hk (hkey.symm.trans hgk)

/-- The fields of a list are merged into others. -/
structure Merged (fs rs : List Field) : Prop where
  slots : (rs.map Field.slot).Nodup
  bounded : ∀ r ∈ rs, r.Bounded
  legible : ∀ r ∈ rs, r.Legible
  loosens : ∀ k, k.1 = .element → Loosens fs rs k

theorem merged_nil : Merged [] [] :=
  ⟨List.nodup_nil, fun _ h => absurd h List.not_mem_nil, fun _ h => absurd h List.not_mem_nil,
    fun k _ => .refl [] k⟩

theorem Merged.mergeField (h : Merged fs rs) (hf : f.Bounded) (hlegible : f.Legible) :
    Merged (fs ++ [f]) (mergeField rs f) := by
  have hloosens : ∀ k, k.1 = .element → Loosens (fs ++ [f]) (rs ++ [f]) k := fun k hk =>
    (h.loosens k hk).append (.refl [f] k) h.bounded (by simpa using hf)
  -- being merged by identity is being merged by key
  have hslot : ∀ r ∈ rs, (r.identity == f.identity && r.restrictions.choice == f.restrictions.choice) = true ↔
      r.slot = f.slot := by
    intro r hr
    simp only [Bool.and_eq_true, beq_iff_eq, Field.identity_eq_iff (h.legible r hr) hlegible, Field.slot,
      Prod.mk.injEq]
  unfold Schemata.mergeField
  cases hfind : rs.findIdx? fun g => g.identity == f.identity && g.restrictions.choice == f.restrictions.choice with
  | none =>
    have hnew : f.slot ∉ rs.map Field.slot := by
      intro hmem
      obtain ⟨r, hr, heq⟩ := List.mem_map.mp hmem
      exact Bool.false_ne_true ((List.findIdx?_eq_none_iff.mp hfind r hr).symm.trans ((hslot r hr).mpr heq))
    exact
      { slots := by
          rw [List.map_append, List.map_singleton]
          exact h.slots.append (List.nodup_singleton _) (List.disjoint_singleton.mpr hnew)
        bounded := List.forall_mem_append.mpr ⟨h.bounded, by simpa using hf⟩
        legible := List.forall_mem_append.mpr ⟨h.legible, by simpa using hlegible⟩
        loosens := hloosens }
  | some i =>
    obtain ⟨hi, hmatch, -⟩ := List.findIdx?_eq_some_iff_getElem.mp hfind
    obtain ⟨front, r, back, rfl, rfl⟩ : ∃ front r back, rs = front ++ r :: back ∧ front.length = i := by
      refine ⟨rs.take i, rs[i], rs.drop (i + 1), ?_, List.length_take_of_le hi.le⟩
      rw [List.getElem_cons_drop, List.take_append_drop]
    have hr : r ∈ front ++ r :: back := List.mem_append_right _ List.mem_cons_self
    have hsame : r.slot = f.slot := (hslot r hr).mp (by simpa using hmatch)
    have hkey : r.fullKey = f.fullKey := congrArg Prod.fst hsame
    dsimp only
    split
    · rename_i hplain
      refine { h with loosens := fun k hk => (hloosens k hk).trans (.of_other fun g hg hgk => ?_) }
      obtain rfl := List.mem_singleton.mp hg
      have helement : g.tag = .element := (congrArg Prod.fst hgk).trans hk
      simp [Field.isAttribute, Field.isEnumeration, Field.isText, helement] at hplain
    · rw [Lists.modify_append_cons]
      obtain ⟨hwiden, -⟩ := Field.bounded_widen (h.bounded r hr) hf
      have hfront := List.forall_mem_append.mp h.bounded
      have hback := List.forall_mem_cons.mp hfront.2
      have hnames := List.forall_mem_append.mp h.legible
      have hnamesBack := List.forall_mem_cons.mp hnames.2
      constructor
      case slots => simpa using h.slots
      case bounded => exact List.forall_mem_append.mpr ⟨hfront.1, List.forall_mem_cons.mpr ⟨hwiden, hback.2⟩⟩
      case legible =>
        refine List.forall_mem_append.mpr ⟨hnames.1, List.forall_mem_cons.mpr ⟨?_, hnamesBack.2⟩⟩
        exact hnamesBack.1.congr (Field.fullKey_widen r f)
      case loosens =>
        intro k hk
        have hone : Loosens (front ++ back ++ [r, f]) (front ++ back ++ [r.widen f]) k :=
          .append (.refl _ _) (Field.loosens_widen hback.1 hf hkey)
            (List.forall_mem_append.mpr ⟨hfront.1, hback.2⟩) (by simpa using hwiden)
        refine ((hloosens k hk).trans (.of_perm ?_)).trans (hone.trans (.of_perm ?_))
        · simpa using List.perm_middle.symm.append_left front
        · simpa using (List.perm_append_singleton (r.widen f) back).append_left front

theorem merged_mergeFields (hfs : ∀ f ∈ fs, f.Bounded ∧ f.Legible) : Merged fs (fs.foldl mergeField []) := by
  induction fs using List.reverseRecOn with
  | nil => exact merged_nil
  | append_singleton fs f ih =>
    obtain ⟨hfs, hf⟩ := List.forall_mem_append.mp hfs
    rw [List.foldl_append, List.foldl_cons, List.foldl_nil]
    have hlast := List.forall_mem_singleton.mp hf
    exact (ih hfs).mergeField hlast.1 hlast.2

namespace SchemaType

/-- Regrouping the repetitions of elements and merging what is declared more than once after that lets pass
whatever the declarations let pass together, and leaves one field of a key and a marker. -/
theorem mergeFields_loosens (t : SchemaType) (hrecord : t.isEnumeration = false)
    (hbounds : ∀ f ∈ t.fields, f.Bounded) (hnames : ∀ f ∈ t.fields, f.Legible) :
    (∀ k : Tag × String × String, k.1 = .element → Loosens t.fields t.groupRepetitions.mergeFields.fields k) ∧
    (t.groupRepetitions.mergeFields.fields.map Field.slot).Nodup := by
  obtain ⟨head, rest, h⟩ := t.exists_regrouped_groupRepetitions hrecord hbounds hnames
  have hmerged := merged_mergeFields fun f hf =>
    ⟨h.regrouping.bounded hbounds f hf, h.regrouping.legible hnames f hf⟩
  exact ⟨fun k hk => (h.regrouping.loosens hbounds hk).trans (hmerged.loosens k hk), hmerged.slots⟩

end SchemaType

namespace Alternating

/-- Two elements that alternate, and one declared twice in a row. -/
def repeating : SchemaType :=
  { record 0 with fields := (record 0).fields ++ [element "c" 1 0, element "c" 3 0] }

theorem repeating_loosens :
    repeating.isEnumeration = false ∧ (∀ f ∈ repeating.fields, f.Bounded ∧ f.Legible) ∧
    Loosens repeating.fields repeating.groupRepetitions.mergeFields.fields (.element, "", "c") ∧
    (repeating.groupRepetitions.mergeFields.fields.map Field.slot).Nodup ∧
    (repeating.groupRepetitions.mergeFields.fields.map fun f =>
      (f.name, f.restrictions.min, f.restrictions.max, f.restrictions.choice)) =
        [("a", 2, 4, -1), ("b", 1, 4, -1), ("x", 1, 1, 0), ("c", 1, 4, 0)] := by
  have hfields : ∀ f ∈ repeating.fields, f.Bounded ∧ f.Legible := by decide +kernel
  obtain ⟨hloosens, hslots⟩ := repeating.mergeFields_loosens (by decide) (fun f hf => (hfields f hf).1)
    fun f hf => (hfields f hf).2
  exact ⟨by decide, hfields, hloosens _ rfl, hslots, by decide +kernel⟩

end Alternating

end Schemata
