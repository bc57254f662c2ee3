import Mathlib.Algebra.BigOperators.Group.List.Basic
import Mathlib.Algebra.BigOperators.Intervals
import Mathlib.Algebra.GroupWithZero.Nat
import Mathlib.Algebra.Order.BigOperators.Group.Finset
import Mathlib.Algebra.Order.BigOperators.Group.List
import Mathlib.Logic.Relation
import Schemata.Proofs.Step.Progress

/-!
# Hierarchies of bases

The names that a type has are those of its own fields and those that its bases have. In a hierarchy
bases are roots that are there, and no type is led back to itself. `Descent` says what the fields and
bases of a type may have become while bases are settled: no field is lost, all names are names that
the type had from the start, and a base that is no longer there has left its fields behind.

In a hierarchy there are prices at which a root costs more than its bases: the price of a name is the
product, over all names that its bases lead to, of the number of their bases and one. It bounds the
number of ways along the bases, and it is less than what a step allows for.
-/

namespace Schemata

open SchemaType Relation

-- ---------------------------------------------------------------------------
-- Names of fields
-- ---------------------------------------------------------------------------

namespace SchemaType

/-- A field of the type itself has the name. -/
def HasField (t : SchemaType) (name : String) : Prop :=
  ∃ f ∈ t.fields, f.name = name

/-- The name of a field of the type, or of one that its bases lead to. -/
inductive Inherits (Base : SchemaType → SchemaType → Prop) (name : String) : SchemaType → Prop
  | own {t : SchemaType} (h : t.HasField name) : Inherits Base name t
  | base {t b : SchemaType} (hb : Base t b) (h : Inherits Base name b) : Inherits Base name t

theorem Inherits.of_transGen {Base : SchemaType → SchemaType → Prop} {name : String}
    {t b : SchemaType} (hbase : TransGen Base t b) (h : Inherits Base name b) :
    Inherits Base name t := by
  induction hbase using TransGen.head_induction_on with
  | single hb => exact .base hb h
  | head hb _ ih => exact .base hb ih

end SchemaType

namespace Store

/-- The second type is a root that the first one names as a base. -/
def BaseNamed (s : Store) (t b : SchemaType) : Prop :=
  b ∈ s.types ∧ ∃ e ∈ t.extensions, e.type.qname = b.qname

/-- A base of the first type is bound to the second. -/
def BaseBound (s : Store) (t b : SchemaType) : Prop :=
  s.Holds b ∧ ∃ e ∈ t.extensions, e.type.reference = b.id

/-- Records of different names that extend others of them. -/
structure Hierarchy (s : Store) : Prop where
  names : (s.types.map (·.qname)).Nodup
  records : ∀ u, s.Holds u → u.tag = .complexType ∨ u.tag = .element
  fields : ∀ u, s.Holds u → ∀ f ∈ u.fields, f.isEnumeration = false ∧ f.isWildcard = false
  bases : ∀ u, s.Holds u → ∀ e ∈ u.extensions, e.tag = .extension ∧ e.type.native = false ∧
    e.type.qname.isNative = false ∧ ∃ b ∈ s.types, b.qname = e.type.qname
  acyclic : ∀ t, ¬ TransGen s.BaseNamed t t

/-- The base is bound to the root of its name. -/
def BindsBase (s : Store) (e : Extension) : Prop :=
  ∃ b ∈ s.types, b.qname = e.type.qname ∧ b.id = e.type.reference

theorem Hierarchy.eq_of_qname {s : Store} (hh : s.Hierarchy) {t u : SchemaType} (ht : t ∈ s.types)
    (hu : u ∈ s.types) (hname : t.qname = u.qname) : t = u :=
  List.inj_on_of_nodup_map hh.names ht hu hname

/-- Bases that are ranked lower lead to no cycle. -/
theorem acyclic_of_rank {s : Store} (rank : SchemaType → Nat)
    (hrank : ∀ t ∈ s.types, ∀ b ∈ s.types, (∃ e ∈ t.extensions, e.type.qname = b.qname) →
      rank b < rank t) (t : SchemaType) : ¬ TransGen s.BaseNamed t t := by
  have hdown : ∀ {t b}, TransGen s.BaseNamed t b → b ∈ s.types ∧ (t ∈ s.types → rank b < rank t) := by
    intro t b hreach
    induction hreach with
    | single hb => exact ⟨hb.1, fun ht => hrank _ ht _ hb.1 hb.2⟩
    | tail _ hb ih => exact ⟨hb.1, fun ht => (hrank _ ih.1 _ hb.1 hb.2).trans (ih.2 ht)⟩
  intro hcycle
  exact Nat.lt_irrefl _ ((hdown hcycle).2 (hdown hcycle).1)

theorem Hierarchy.of_rank {s : Store} (rank : SchemaType → Nat)
    (hnames : (s.types.map (·.qname)).Nodup)
    (htypes : ∀ u ∈ walkAll s.types, (u.tag = .complexType ∨ u.tag = .element) ∧
      (∀ f ∈ u.fields, f.isEnumeration = false ∧ f.isWildcard = false) ∧
      ∀ e ∈ u.extensions, e.tag = .extension ∧ e.type.native = false ∧
        e.type.qname.isNative = false ∧ ∃ b ∈ s.types, b.qname = e.type.qname)
    (hrank : ∀ t ∈ s.types, ∀ b ∈ s.types, (∃ e ∈ t.extensions, e.type.qname = b.qname) →
      rank b < rank t) : s.Hierarchy where
  names := hnames
  records u hu := (htypes u (holds_iff_mem_walkAll.mp hu)).1
  fields u hu := (htypes u (holds_iff_mem_walkAll.mp hu)).2.1
  bases u hu := (htypes u (holds_iff_mem_walkAll.mp hu)).2.2
  acyclic := acyclic_of_rank rank hrank

end Store

/-- What the bases cost, each name at its price. -/
def cost (price : QName → Nat) (es : List Extension) : Nat :=
  (es.map fun e => price e.type.qname).sum

section

variable {price : QName → Nat} {es es' : List Extension} {e : Extension}

@[simp] theorem cost_nil : cost price [] = 0 := rfl

@[simp] theorem cost_cons : cost price (e :: es) = price e.type.qname + cost price es := by
  simp [cost]

@[simp] theorem cost_append : cost price (es ++ es') = cost price es + cost price es' := by
  simp [cost]

/-- A root costs more than its bases. -/
def Store.Priced (price : QName → Nat) (s : Store) : Prop :=
  ∀ t ∈ s.types, cost price t.extensions < price t.qname

end

/-- The fields and bases that have been made of those of a type. -/
structure Descent (s : Store) (price : QName → Nat) (u : SchemaType) (fs : List Field)
    (es : List Extension) : Prop where
  keeps : ∀ name, u.HasField name → ∃ f ∈ fs, f.name = name
  names : ∀ f ∈ fs, Inherits s.BaseNamed f.name u
  plain : ∀ f ∈ fs, f.isEnumeration = false
  bases : ∀ e ∈ es, e.type.native = false ∧ e.type.qname.isNative = false ∧
    ∃ b ∈ s.types, b.qname = e.type.qname ∧ TransGen s.BaseNamed u b
  covers : ∀ b, s.BaseNamed u b →
    (∃ e ∈ es, e.type.qname = b.qname) ∨ ∀ name, b.HasField name → ∃ f ∈ fs, f.name = name
  cost : cost price es ≤ cost price u.extensions

namespace Descent

variable {s : Store} {price : QName → Nat} {u b : SchemaType} {fs bfs : List Field}
  {pre post bes : List Extension} {e : Extension}

theorem start (hs : s.Hierarchy) (hu : s.Holds u) : Descent s price u u.fields u.extensions where
  keeps _ hname := hname
  names f hf := .own ⟨f, hf, rfl⟩
  plain f hf := (hs.fields u hu f hf).1
  bases e he := by
    obtain ⟨-, hnative, hname, b, hb, hq⟩ := hs.bases u hu e he
    exact ⟨hnative, hname, b, hb, hq, .single ⟨hb, e, he, hq.symm⟩⟩
  covers _ hb := .inl hb.2
  cost := Nat.le_refl _

/-- A base is kept, whatever it is bound to. -/
theorem rebind (hd : Descent s price u fs (pre ++ e :: post)) (e' : Extension)
    (hname : e'.type.qname = e.type.qname) (hnative : e'.type.native = e.type.native) :
    Descent s price u fs (pre ++ e' :: post) where
  keeps := hd.keeps
  names := hd.names
  plain := hd.plain
  bases a ha := by
    obtain ha | ha := List.mem_append.mp ha
    · exact hd.bases a (List.mem_append_left _ ha)
    · obtain rfl | ha := List.mem_cons.mp ha
      · rw [hname, hnative]
        exact hd.bases e (List.mem_append_right _ List.mem_cons_self)
      · exact hd.bases a (List.mem_append_right _ (List.mem_cons_of_mem _ ha))
  covers c hc := by
    refine (hd.covers c hc).imp_left ?_
    rintro ⟨a, ha, hq⟩
    obtain ha | ha := List.mem_append.mp ha
    · exact ⟨a, List.mem_append_left _ ha, hq⟩
    · obtain rfl | ha := List.mem_cons.mp ha
      · exact ⟨e', List.mem_append_right _ List.mem_cons_self, hname.trans hq⟩
      · exact ⟨a, List.mem_append_right _ (List.mem_cons_of_mem _ ha), hq⟩
  cost := by simpa [hname] using hd.cost

/-- A base is taken off when the type has its fields; some of its bases may take its place. -/
theorem dissolve (hs : s.Hierarchy) (hprice : s.Priced price)
    (hd : Descent s price u fs (pre ++ e :: post)) (hb : b ∈ s.types)
    (hname : b.qname = e.type.qname) (hbase : Descent s price b bfs bes) (copies : List Field)
    (added : List Extension)
    (hcopies : ∀ f ∈ copies, f.isEnumeration = false ∧ ∃ g ∈ bfs, g.name = f.name)
    (hcovered : ∀ g ∈ bfs, ∃ f ∈ copies ++ fs, f.name = g.name)
    (hadded : ∀ a ∈ added, ∃ c ∈ bes, c.type = a.type)
    (hcost : Schemata.cost price added ≤ Schemata.cost price bes) :
    Descent s price u (copies ++ fs) (pre ++ post ++ added) ∧
      Schemata.cost price (post ++ added) < Schemata.cost price (e :: post) := by
  have hpaid : Schemata.cost price added < price e.type.qname := by
    have hroot := hprice b hb
    have hle := hbase.cost
    rw [← hname]
    omega
  obtain ⟨-, -, c, hc, hq, hreach⟩ := hd.bases e (List.mem_append_right _ List.mem_cons_self)
  obtain rfl := hs.eq_of_qname hc hb (hq.trans hname.symm)
  have hkept : ∀ {name}, (∃ f ∈ fs, f.name = name) → ∃ f ∈ copies ++ fs, f.name = name := by
    rintro name ⟨f, hf, rfl⟩
    exact ⟨f, List.mem_append_right _ hf, rfl⟩
  constructor
  · constructor
    case keeps => exact fun name hown => hkept (hd.keeps name hown)
    case names =>
      intro f hf
      obtain hf | hf := List.mem_append.mp hf
      · obtain ⟨g, hg, hgf⟩ := (hcopies f hf).2
        rw [← hgf]
        exact .of_transGen hreach (hbase.names g hg)
      · exact hd.names f hf
    case plain =>
      intro f hf
      obtain hf | hf := List.mem_append.mp hf
      · exact (hcopies f hf).1
      · exact hd.plain f hf
    case bases =>
      intro a ha
      obtain ha | ha := List.mem_append.mp ha
      · refine hd.bases a ?_
        simp only [List.mem_append, List.mem_cons] at ha ⊢
        exact ha.imp_right .inr
      · obtain ⟨a', ha', htype⟩ := hadded a ha
        obtain ⟨hnative, hnot, d, hd', hq', hreach'⟩ := hbase.bases a' ha'
        rw [← htype]
        exact ⟨hnative, hnot, d, hd', hq', hreach.trans hreach'⟩
    case covers =>
      intro d hd'
      obtain ⟨a, ha, hqa⟩ | hfields := hd.covers d hd'
      · simp only [List.mem_append, List.mem_cons] at ha
        obtain ha | rfl | ha := ha
        · exact .inl ⟨a, by simp [ha], hqa⟩
        · -- the base that is taken off
          obtain rfl := hs.eq_of_qname hb hd'.1 (hname.trans hqa)
          refine .inr fun name hown => ?_
          obtain ⟨g, hg, hgname⟩ := hbase.keeps name hown
          obtain ⟨f, hf, hfname⟩ := hcovered g hg
          exact ⟨f, hf, hfname.trans hgname⟩
        · exact .inl ⟨a, by simp [ha], hqa⟩
      · exact .inr fun name hown => hkept (hfields name hown)
    case cost =>
      have hle := hd.cost
      simp only [cost_append, cost_cons] at hle ⊢
      omega
  · simp only [cost_append, cost_cons]
    omega

end Descent

end Schemata

-- ---------------------------------------------------------------------------
-- Prices of bases
-- ---------------------------------------------------------------------------

namespace Schemata

open SchemaType Relation

variable {s : Store} {t u : SchemaType} {q r : QName}

theorem cost_le_length_mul {price : QName → Nat} {es : List Extension} {m : Nat}
    (hes : ∀ e ∈ es, price e.type.qname ≤ m) : cost price es ≤ es.length * m := by
  induction es with
  | nil => exact Nat.zero_le _
  | cons e es ih =>
    obtain ⟨he, hes⟩ := List.forall_mem_cons.mp hes
    have hle := ih hes
    rw [cost_cons, List.length_cons, Nat.add_mul, Nat.one_mul]
    omega

namespace Store

/-- The first name is that of a root which has the second as the name of a base. -/
def NameBelow (s : Store) (q r : QName) : Prop :=
  ∃ t ∈ s.types, t.qname = q ∧ ∃ b, s.BaseNamed t b ∧ b.qname = r

theorem Hierarchy.transGen_of_names (hh : s.Hierarchy) (ht : t ∈ s.types)
    (hreach : TransGen s.NameBelow t.qname r) :
    ∃ b ∈ s.types, b.qname = r ∧ TransGen s.BaseNamed t b := by
  induction hreach with
  | single hbelow =>
    obtain ⟨t', ht', hname, b, hb, hr⟩ := hbelow
    obtain rfl := hh.eq_of_qname ht' ht hname
    exact ⟨b, hb.1, hr, .single hb⟩
  | tail _ hbelow ih =>
    obtain ⟨c, hc, hcname, hreach⟩ := ih
    obtain ⟨c', hc', hname, b, hb, hr⟩ := hbelow
    obtain rfl := hh.eq_of_qname hc' hc (hname.trans hcname.symm)
    exact ⟨b, hb.1, hr, hreach.tail hb⟩

/-- The number of bases of the root of a name. -/
def degree (s : Store) (q : QName) : Nat :=
  (s.types.find? (·.qname == q)).elim 0 (·.extensions.length)

theorem Hierarchy.degree_qname (hh : s.Hierarchy) (ht : t ∈ s.types) :
    s.degree t.qname = t.extensions.length := by
  rw [degree, (Lists.find?_key_eq_some_iff hh.names).mpr ⟨ht, rfl⟩, Option.elim_some]

open Classical in
/-- The names of roots that are related to a name. -/
noncomputable def namesAfter (s : Store) (after : QName → QName → Prop) (q : QName) : Finset QName :=
  (s.types.map (·.qname)).toFinset.filter (after q)

/-- The price of a name. -/
noncomputable def price (s : Store) (q : QName) : Nat :=
  ∏ r ∈ s.namesAfter (ReflTransGen s.NameBelow) q, (1 + s.degree r)

theorem namesAfter_eq_insert (ht : t ∈ s.types) :
    s.namesAfter (ReflTransGen s.NameBelow) t.qname =
      Insert.insert t.qname (s.namesAfter (TransGen s.NameBelow) t.qname) := by
  have hmem : ∃ t' ∈ s.types, t'.qname = t.qname := ⟨t, ht, rfl⟩
  ext r
  simp only [namesAfter, Finset.mem_filter, Finset.mem_insert, List.mem_toFinset, List.mem_map,
    reflTransGen_iff_eq_or_transGen]
  constructor
  · rintro ⟨hr, rfl | hreach⟩
    · exact .inl rfl
    · exact .inr ⟨hr, hreach⟩
  · rintro (rfl | ⟨hr, hreach⟩)
    · exact ⟨hmem, .inl rfl⟩
    · exact ⟨hr, .inr hreach⟩

/-- The bases of a root lead to less than the root, so each costs at most what they cost together. -/
theorem Hierarchy.priced (hh : s.Hierarchy) : s.Priced s.price := by
  intro t ht
  have hnot : t.qname ∉ s.namesAfter (TransGen s.NameBelow) t.qname := by
    simp only [namesAfter, Finset.mem_filter, not_and]
    intro _ hreach
    obtain ⟨b, hb, hname, hcycle⟩ := hh.transGen_of_names ht hreach
    obtain rfl := hh.eq_of_qname hb ht hname
    exact hh.acyclic b hcycle
  have heach : ∀ e ∈ t.extensions,
      s.price e.type.qname ≤ ∏ r ∈ s.namesAfter (TransGen s.NameBelow) t.qname, (1 + s.degree r) := by
    intro e he
    obtain ⟨-, -, -, b, hb, hname⟩ := hh.bases t (holds_of_mem_types ht) e he
    have hbelow : s.NameBelow t.qname e.type.qname := ⟨t, ht, rfl, b, ⟨hb, e, he, hname.symm⟩, hname⟩
    refine Finset.prod_le_prod_of_subset_of_one_le' (fun r hr => ?_) fun r _ _ => Nat.le_add_right 1 _
    simp only [namesAfter, Finset.mem_filter] at hr ⊢
    exact ⟨hr.1, TransGen.head' hbelow hr.2⟩
  have hsum := cost_le_length_mul heach
  have hpos : 1 ≤ ∏ r ∈ s.namesAfter (TransGen s.NameBelow) t.qname, (1 + s.degree r) :=
    Finset.one_le_prod' fun r _ => Nat.le_add_right 1 _
  rw [price, namesAfter_eq_insert ht, Finset.prod_insert hnot, hh.degree_qname ht]
  rw [Nat.add_mul, Nat.one_mul]
  omega

/-- No price is higher than two to the power of the number of all bases of roots. -/
theorem Hierarchy.price_le (hh : s.Hierarchy) (q : QName) :
    s.price q ≤ 2 ^ (s.types.map (·.extensions.length)).sum := by
  have hdegrees : ∀ ts ⊆ s.types, (ts.map fun t => 1 + s.degree t.qname).prod ≤
      2 ^ (ts.map (·.extensions.length)).sum := by
    intro ts hts
    induction ts with
    | nil => exact Nat.le_refl _
    | cons t ts ih =>
      obtain ⟨ht, hts⟩ := List.cons_subset.mp hts
      have hone : 1 + t.extensions.length ≤ 2 ^ t.extensions.length := by
        rw [Nat.add_comm]
        exact Nat.lt_two_pow_self
      simp only [List.map_cons, List.prod_cons, List.sum_cons, hh.degree_qname ht, Nat.pow_add]
      exact Nat.mul_le_mul hone (ih hts)
  have hsub : s.namesAfter (ReflTransGen s.NameBelow) q ⊆ (s.types.map (·.qname)).toFinset := by
    intro r hr
    simp only [namesAfter, Finset.mem_filter] at hr
    exact hr.1
  calc s.price q
      ≤ ∏ r ∈ (s.types.map (·.qname)).toFinset, (1 + s.degree r) :=
        Finset.prod_le_prod_of_subset_of_one_le' hsub fun r _ _ => Nat.le_add_right 1 _
    _ = (s.types.map fun t => 1 + s.degree t.qname).prod := by
        rw [List.prod_toFinset _ hh.names, List.map_map]
        rfl
    _ ≤ _ := hdegrees s.types (List.Subset.refl _)

end Store

theorem length_extensions_le (ts : List SchemaType) : (ts.map (·.extensions.length)).sum ≤
    ((walkAll ts).map (·.extensions.length)).sum := by
  induction ts with
  | nil => exact Nat.le_refl _
  | cons t ts ih =>
    simp only [walkAll, walk_eq, List.map_append, List.map_cons, List.sum_append, List.sum_cons]
    omega

/-- A nested type has its bases besides those of the roots. -/
theorem length_extensions_add_le (ts : List SchemaType) (hu : u ∈ walkAll ts) (hnot : u ∉ ts) :
    u.extensions.length + (ts.map (·.extensions.length)).sum ≤
      ((walkAll ts).map (·.extensions.length)).sum := by
  induction ts with
  | nil => exact absurd hu List.not_mem_nil
  | cons t ts ih =>
    rw [List.mem_cons, not_or] at hnot
    rw [walkAll, walk_eq, List.mem_append, List.mem_cons, or_assoc] at hu
    simp only [walkAll, walk_eq, List.map_append, List.map_cons, List.sum_append, List.sum_cons]
    obtain heq | hu | hu := hu
    · exact absurd heq hnot.1
    · have hmem := List.single_le_sum (l := (walkAll t.inner).map (·.extensions.length))
        (fun x _ => Nat.zero_le x) _ (List.mem_map_of_mem hu)
      have hle := length_extensions_le ts
      omega
    · have hle := ih hu hnot.2
      omega

theorem Store.sum_extensions_le_weight (s : Store) :
    ((walkAll s.types).map (·.extensions.length)).sum ≤ s.weight := by
  unfold Store.weight
  induction walkAll s.types with
  | nil => exact Nat.le_refl _
  | cons t ts ih =>
    simp only [List.map_cons, List.sum_cons, Lists.total, SchemaType.weight]
    omega

/-- The bases of a type cost less than what a step allows for. -/
theorem Store.Hierarchy.cost_le (hh : s.Hierarchy) (hu : s.Holds u) :
    cost s.price u.extensions ≤ 2 ^ s.weight := by
  have hweight := s.sum_extensions_le_weight
  have hmem := holds_iff_mem_walkAll.mp hu
  by_cases hroot : u ∈ s.types
  · have hroots := length_extensions_le s.types
    calc cost s.price u.extensions
        ≤ s.price u.qname := Nat.le_of_lt (hh.priced u hroot)
      _ ≤ 2 ^ (s.types.map (·.extensions.length)).sum := hh.price_le u.qname
      _ ≤ 2 ^ s.weight := Nat.pow_le_pow_right (by decide) (by omega)
  · have hnested := length_extensions_add_le s.types hmem hroot
    calc cost s.price u.extensions
        ≤ u.extensions.length * 2 ^ (s.types.map (·.extensions.length)).sum :=
          cost_le_length_mul fun e _ => hh.price_le e.type.qname
      _ ≤ 2 ^ u.extensions.length * 2 ^ (s.types.map (·.extensions.length)).sum :=
          Nat.mul_le_mul_right _ (Nat.le_of_lt Nat.lt_two_pow_self)
      _ = 2 ^ (u.extensions.length + (s.types.map (·.extensions.length)).sum) :=
          (Nat.pow_add 2 _ _).symm
      _ ≤ 2 ^ s.weight := Nat.pow_le_pow_right (by decide) (by omega)

end Schemata
