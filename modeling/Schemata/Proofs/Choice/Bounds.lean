import Mathlib.Algebra.BigOperators.Ring.List
import Mathlib.Algebra.Order.BigOperators.GroupWithZero.List
import Mathlib.Algebra.Order.Ring.Int
import Mathlib.Data.List.Infix
import Schemata.Proofs.Choice.Grouping

/-!
# Lower bounds of compound fields

The lower bound of a compound is that of its choice particle: the product of the minimums down to the
choice, which stops at `unbounded`. That the choice may itself be an alternative of another choice does
not show in it, although it shows in the lower bounds of the members.
-/

namespace Schemata

variable {s : Store} {t : SchemaType} {f g : Field} {e : PathEntry} {way path : List PathEntry} {m a b : Int}

-- ---------------------------------------------------------------------------
-- Products that stop
-- ---------------------------------------------------------------------------

namespace Occurs

theorem mul_eq_min (ha : 0 ≤ a) (hb : 0 ≤ b) : mul a b = min unbounded (a * b) := by
  have hpositive : 0 ≤ unbounded := by decide
  unfold mul
  split
  case isTrue hzero =>
    have hproduct : a * b = 0 := Int.mul_eq_zero.mpr hzero
    rw [hproduct, min_eq_right hpositive]
  case isFalse hzero =>
    obtain ⟨ha0, hb0⟩ := not_or.mp hzero
    have ha1 : 1 ≤ a := by omega
    have hb1 : 1 ≤ b := by omega
    simp only [Int.tdiv_eq_ediv_of_nonneg hpositive, gt_iff_lt, Int.ediv_lt_iff_lt_mul hb1]
    split
    case isTrue hlarge =>
      refine (min_eq_left ?_).symm
      obtain hlarge | hlarge | hlarge := hlarge
      · exact hlarge.trans (le_mul_of_one_le_right ha hb1)
      · exact hlarge.trans (le_mul_of_one_le_left hb ha1)
      · exact hlarge.le
    case isFalse hsmall =>
      have hle : a * b ≤ unbounded := by omega
      rw [min_eq_right hle]
      refine Word64.wrap_of_mem_range ?_ (lt_of_le_of_lt hle (by decide))
      exact le_trans (by decide) (Int.mul_nonneg ha hb)

/-- Stopping on the way does not change where a product stops. -/
theorem mul_min (ha : 0 ≤ a) (hb : 0 ≤ b) : mul (min unbounded a) b = min unbounded (a * b) := by
  rw [mul_eq_min (le_min (by decide) ha) hb]
  obtain rfl | hb1 : b = 0 ∨ 1 ≤ b := by omega
  · rw [Int.mul_zero, Int.mul_zero]
  · rw [min_mul_of_nonneg _ _ hb, ← min_assoc, min_eq_left (le_mul_of_one_le_right (by decide) hb1)]

end Occurs

/-- The product of a bound of the particles on a path, elements apart. -/
def pathProduct (bound : PathEntry → Int) (path : List PathEntry) : Int :=
  ((path.filter (·.kind != .element)).map bound).prod

theorem pathProduct_cons (bound : PathEntry → Int) (e : PathEntry) (path : List PathEntry) :
    pathProduct bound (e :: path) = (if e.kind = .element then 1 else bound e) * pathProduct bound path := by
  by_cases he : e.kind = .element <;> simp [pathProduct, he]

theorem pathProduct_nonneg {bound : PathEntry → Int} (hpath : ∀ e ∈ path, 0 ≤ bound e) :
    0 ≤ pathProduct bound path := by
  refine List.prod_nonneg fun n hn => ?_
  obtain ⟨e, he, rfl⟩ := List.mem_map.mp hn
  exact hpath e (List.mem_of_mem_filter he)

theorem pathProduct_eq_zero_iff (bound : PathEntry → Int) :
    pathProduct bound path = 0 ↔ ∃ e ∈ path, e.kind ≠ .element ∧ bound e = 0 := by
  simp [pathProduct, List.prod_eq_zero_iff, and_assoc]

/-- The first entry of a choice on a path gives its lower bound. -/
theorem choiceMin?_go_eq (hpath : ∀ x ∈ way ++ [e], 0 ≤ x.min) (hb : 0 ≤ b)
    (hway : ∀ x ∈ way, x.kind = .choice → x.id ≠ e.id) (he : e.kind = .choice) (rest : List PathEntry) :
    choiceMin?.go e.id (min Occurs.unbounded b) (way ++ e :: rest) =
      some (min Occurs.unbounded (b * pathProduct (·.min) (way ++ [e]))) := by
  induction way generalizing b with
  | nil =>
    obtain hmin := hpath e List.mem_cons_self
    simp [choiceMin?.go, he, Occurs.mul_min hb hmin, pathProduct]
  | cons x way ih =>
    obtain ⟨hx, hpath⟩ := List.forall_mem_cons.mp hpath
    obtain ⟨hxid, hway⟩ := List.forall_mem_cons.mp hway
    rw [List.cons_append, List.cons_append, pathProduct_cons, choiceMin?.go]
    by_cases hkind : x.kind = .element
    · rw [if_pos hkind, if_pos hkind, Int.one_mul]
      exact ih hpath hb hway
    · have hother : ¬(x.kind = .choice ∧ x.id = e.id) := fun ⟨hchoice, hid⟩ => hxid hchoice hid
      simp only [if_neg hkind, if_neg hother, Occurs.mul_min hb hx]
      rw [ih hpath (Int.mul_nonneg hb hx) hway, Int.mul_assoc]

-- ---------------------------------------------------------------------------
-- Paths of fields
-- ---------------------------------------------------------------------------

/-- Particles on the paths of fields can be told apart by their numbers, and no minimum is negative. -/
structure PathsIdentified (fs : List Field) : Prop where
  positive : ∀ f ∈ fs, ∀ e ∈ f.restrictions.path, e.kind ≠ .element → 0 < e.id
  minimums : ∀ f ∈ fs, ∀ e ∈ f.restrictions.path, 0 ≤ e.min
  unique : ∀ f ∈ fs, ∀ g ∈ fs, ∀ way e way' e', way ++ [e] <+: f.restrictions.path →
    way' ++ [e'] <+: g.restrictions.path → e.kind ≠ .element → e'.kind ≠ .element → e.id = e'.id →
    way = way' ∧ e = e'

theorem PathFold.path_foldl (path : List PathEntry) (p : PathFold) :
    (path.foldl step p).restrictions.path = p.restrictions.path := by
  induction path generalizing p with
  | nil => rfl
  | cons e path ih =>
    rw [List.foldl_cons, ih]
    unfold step
    split <;> rfl

@[simp] theorem Field.path_foldPath (f : Field) : f.foldPath.restrictions.path = f.restrictions.path := by
  unfold foldPath
  dsimp only
  split
  · rfl
  · exact PathFold.path_foldl _ _

theorem PathsIdentified.foldPaths (h : PathsIdentified t.fields) : PathsIdentified t.foldPaths.fields := by
  have hmem : ∀ f ∈ t.foldPaths.fields, ∃ f₀ ∈ t.fields, f.restrictions.path = f₀.restrictions.path := by
    intro f hf
    obtain ⟨f₀, hf₀, rfl⟩ := List.mem_map.mp hf
    exact ⟨f₀, hf₀, f₀.path_foldPath⟩
  refine ⟨fun f hf => ?_, fun f hf => ?_, fun f hf g hg => ?_⟩
  · obtain ⟨f₀, hf₀, heq⟩ := hmem f hf
    exact heq ▸ h.positive f₀ hf₀
  · obtain ⟨f₀, hf₀, heq⟩ := hmem f hf
    exact heq ▸ h.minimums f₀ hf₀
  · obtain ⟨f₀, hf₀, heq⟩ := hmem f hf
    obtain ⟨g₀, hg₀, heq'⟩ := hmem g hg
    exact heq ▸ heq' ▸ h.unique f₀ hf₀ g₀ hg₀

/-- A field is in a choice, to which its path leads by the way given. -/
structure Field.InChoice (f : Field) (way : List PathEntry) (e : PathEntry) : Prop where
  kind : e.kind = .choice
  path : way ++ [e] <+: f.restrictions.path

namespace PathsIdentified

variable {fs : List Field}

theorem id_ne_of_mem_way (h : PathsIdentified fs) (hf : f ∈ fs) (hin : f.InChoice way e) :
    ∀ x ∈ way, x.kind = .choice → x.id ≠ e.id := by
  intro x hx hkind hid
  obtain ⟨before, after, rfl⟩ := List.append_of_mem hx
  have hbefore : before ++ [x] <+: f.restrictions.path :=
    List.IsPrefix.trans ⟨after ++ [e], by simp⟩ hin.path
  have hchoice : ∀ y : PathEntry, y.kind = .choice → y.kind ≠ .element := fun y hy => by simp [hy]
  -- one number stands for one way, but the way to `x` is shorter
  have hway := (h.unique f hf f hf _ _ _ _ hbefore hin.path (hchoice x hkind) (hchoice e hin.kind) hid).1
  have hlength := congrArg List.length hway
  simp at hlength

/-- The bound of a choice particle is the product of the minimums down to it. -/
theorem choiceMin?_eq (h : PathsIdentified fs) (hf : f ∈ fs) (hin : f.InChoice way e) :
    choiceMin? e.id f.restrictions.path = some (min Occurs.unbounded (pathProduct (·.min) (way ++ [e]))) := by
  obtain ⟨rest, hpath⟩ := hin.path
  have hmin : ∀ x ∈ way ++ [e], 0 ≤ x.min := fun x hx => h.minimums f hf x (hin.path.subset hx)
  have hgo := choiceMin?_go_eq (b := 1) hmin (by decide) (h.id_ne_of_mem_way hf hin) hin.kind rest
  rwa [Int.one_mul, min_eq_right (by decide), List.append_cons, hpath] at hgo

end PathsIdentified

-- ---------------------------------------------------------------------------
-- Compounds of choices
-- ---------------------------------------------------------------------------

/-- A compound made of the alternatives of a choice has the product of the minimums down to that choice
for its lower bound. So a choice within a choice may be left out exactly when one of these is zero. -/
theorem Store.compoundFields_minOccurs (henabled : s.config.compoundFields.enabled = true)
    (hpaths : PathsIdentified t.fields) : ∃ merged : Int → Field,
      s.compoundFields t.foldPaths = { t.foldPaths with
        fields := t.foldPaths.fields.zipIdx.filterMap (placeCompound t.foldPaths.fields merged) } ∧
      ∀ m, 2 ≤ (choiceMembers t.foldPaths.fields m).length →
        (∀ f ∈ choiceMembers t.foldPaths.fields m, ∃ way e, f.InChoice way e ∧ e.id = m) →
        ∀ f ∈ choiceMembers t.foldPaths.fields m, ∀ way e, f.InChoice way e → e.id = m →
          (merged m).restrictions.minOccurs = some (min Occurs.unbounded (pathProduct (·.min) (way ++ [e]))) ∧
          ((∃ x ∈ way, x.kind = .choice) → ((merged m).restrictions.minOccurs = some 0 ↔
            ∃ x ∈ way ++ [e], x.kind ≠ .element ∧ x.min = 0)) := by
  obtain ⟨merged, heq, hnew, -⟩ := t.foldPaths.compound_eq s.config.compoundFields (s.baseFields t.foldPaths)
  rw [Store.compoundFields, if_pos henabled]
  refine ⟨merged, heq, fun m hseveral hall f hf way e hin hid => ?_⟩
  have hpaths := hpaths.foldPaths
  have hmem : ∀ g ∈ choiceMembers t.foldPaths.fields m, g ∈ t.foldPaths.fields := fun g hg =>
    (List.mem_filter.mp hg).1
  have hbound : (merged m).restrictions.minOccurs =
      some (min Occurs.unbounded (pathProduct (·.min) (way ++ [e]))) := by
    obtain ⟨name, -, hcompound, -⟩ := hnew m hseveral
    obtain ⟨first, others, hmembers⟩ := List.exists_cons_of_length_pos (Nat.zero_lt_two.trans_le hseveral)
    have hfirst : first ∈ choiceMembers t.foldPaths.fields m := hmembers ▸ List.mem_cons_self
    -- the path of the first member leads by the same way to the same choice
    obtain ⟨way', e', hin', hid'⟩ := hall first hfirst
    have helement : ∀ x : PathEntry, x.kind = .choice → x.kind ≠ .element := fun x hx => by simp [hx]
    obtain ⟨rfl, rfl⟩ := hpaths.unique f (hmem f hf) first (hmem first hfirst) way e way' e' hin.path hin'.path
      (helement e hin.kind) (helement e' hin'.kind) (hid.trans hid'.symm)
    have hpositive : m > 0 :=
      hid ▸ hpaths.positive f (hmem f hf) e (hin.path.subset (by simp)) (helement e hin.kind)
    have hmin := hpaths.choiceMin?_eq (hmem first hfirst) hin'
    rw [hid] at hmin
    rw [hcompound, hmembers]
    simp [compoundField, compoundBounds, Restrictions.occurs, hpositive, hmin]
  have hnonneg : 0 ≤ pathProduct (·.min) (way ++ [e]) := pathProduct_nonneg fun x hx =>
    hpaths.minimums f (hmem f hf) x (hin.path.subset hx)
  refine ⟨hbound, fun _ => ?_⟩
  rw [hbound, ← pathProduct_eq_zero_iff (·.min), Option.some.injEq]
  have hpositive : 0 < Occurs.unbounded := by decide
  omega

-- ---------------------------------------------------------------------------
-- A choice within a choice
-- ---------------------------------------------------------------------------

namespace NestedChoice

def outer : PathEntry :=
  { kind := .choice, id := 1, min := 1, max := 1 }

def inner : PathEntry :=
  { kind := .choice, id := 2, min := 1, max := 1 }

def store : Store :=
  { config.compoundFields := { enabled := true } }

/-- Two alternatives of a choice that is itself one alternative of a choice. -/
def type : SchemaType :=
  { fields := ["a", "b"].map fun name => { name, restrictions.path := [outer, inner] } }

theorem way_cases (h : way ++ [e] <+: [outer, inner]) :
    way = [] ∧ e = outer ∨ way = [outer] ∧ e = inner := by
  cases way with
  | nil => exact .inl ⟨rfl, (List.cons_prefix_cons.mp h).1⟩
  | cons x way =>
    obtain ⟨rfl, hrest⟩ := List.cons_prefix_cons.mp h
    cases way with
    | nil => exact .inr ⟨rfl, (List.cons_prefix_cons.mp hrest).1⟩
    | cons y way => simp [List.prefix_cons_iff] at hrest

theorem path_eq (hf : f ∈ type.fields) : f.restrictions.path = [outer, inner] := by
  obtain ⟨name, -, rfl⟩ := List.mem_map.mp hf
  rfl

theorem pathsIdentified : PathsIdentified type.fields := by
  refine ⟨fun f hf => ?_, fun f hf => ?_, fun f hf g hg way e way' e' hway hway' _ _ hid => ?_⟩
  · rw [path_eq hf]
    decide
  · rw [path_eq hf]
    decide
  · rw [path_eq hf] at hway
    rw [path_eq hg] at hway'
    obtain ⟨rfl, rfl⟩ | ⟨rfl, rfl⟩ := way_cases hway <;> obtain ⟨rfl, rfl⟩ | ⟨rfl, rfl⟩ := way_cases hway'
    · exact ⟨rfl, rfl⟩
    · exact absurd hid (by decide)
    · exact absurd hid (by decide)
    · exact ⟨rfl, rfl⟩

theorem inChoice (hf : f ∈ type.foldPaths.fields) : f.InChoice [outer] inner := by
  obtain ⟨f₀, hf₀, rfl⟩ := List.mem_map.mp hf
  exact ⟨rfl, by rw [Field.path_foldPath, path_eq hf₀, List.singleton_append]⟩

/-- The alternatives may be absent, but the compound of the inner choice is required, although the
outer choice may be made otherwise. -/
theorem nested_choice_required : PathsIdentified type.fields ∧ outer.kind = .choice ∧
    (∀ f ∈ type.foldPaths.fields, f.InChoice [outer] inner) ∧
    type.foldPaths.fields.map (·.restrictions.min) = [0, 0] ∧
    (store.compoundFields type.foldPaths).fields.map
      (fun f => (f.tag, f.choices.map (·.name), f.restrictions.minOccurs)) =
        [(.choice, ["a", "b"], some 1)] :=
  ⟨pathsIdentified, rfl, fun _ hf => inChoice hf, by decide, by decide +kernel⟩

theorem compoundFields_nested : PathsIdentified type.fields ∧ ∃ merged : Int → Field,
    (store.compoundFields type.foldPaths).fields = [merged 2] ∧
    (merged 2).restrictions.minOccurs = some 1 := by
  obtain ⟨merged, heq, hbound⟩ := Store.compoundFields_minOccurs (s := store) rfl pathsIdentified
  have hmembers : choiceMembers type.foldPaths.fields 2 = type.foldPaths.fields := rfl
  obtain ⟨f, hf⟩ := List.exists_mem_of_length_pos (l := type.foldPaths.fields) (by decide)
  have hall := hbound 2 (by decide) fun g hg => ⟨[outer], inner, inChoice (hmembers ▸ hg), rfl⟩
  exact ⟨pathsIdentified, merged, congrArg SchemaType.fields heq,
    (hall f (hmembers ▸ hf) [outer] inner (inChoice hf) rfl).1⟩

end NestedChoice

end Schemata
