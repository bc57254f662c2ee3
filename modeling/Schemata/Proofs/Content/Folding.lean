import Schemata.Proofs.Choice.Bounds
import Schemata.Proofs.Content.Regrouping

/-!
# Folded bounds are exact

Bounds are words that stop at `unbounded`. Stopping early or late comes to the same: a product or a sum is
the exact one, stopped once, and none of the operations that it takes leaves the words. So a path multiplies
the exact product of its bounds into those of the field, however long it is and however often the product
stops on the way.
-/

namespace Schemata

variable {a b c d n m : Int} {path : List PathEntry} {r : Restrictions} {p : PathFold}

-- ---------------------------------------------------------------------------
-- Operations within the words
-- ---------------------------------------------------------------------------

namespace Word64

/-- The number, if it is a word. -/
def fit? (n : Int) : Option Int :=
  if Fits n then some n else none

/-- The quotient, if there is one and it is a word. -/
def div? (a b : Int) : Option Int :=
  if b = 0 then none else fit? (a.tdiv b)

theorem fit?_of_range (hn : 0 ≤ n) (hn' : n ≤ Occurs.unbounded) : fit? n = some n :=
  if_pos ⟨le_trans (by decide) hn, lt_of_le_of_lt hn' (by decide)⟩

theorem fit?_eq_some_iff : fit? n = some m ↔ Fits n ∧ n = m := by
  simp [fit?]

theorem wrap_of_fit? (h : fit? n = some m) : wrap n = m := by
  obtain ⟨⟨below, above⟩, rfl⟩ := fit?_eq_some_iff.mp h
  exact wrap_of_mem_range below above

end Word64

namespace Occurs

/-- The product of two bounds by operations that have no result beyond the words. -/
def mul? (a b : Int) : Option Int :=
  if a = 0 ∨ b = 0 then some 0
  else if a ≥ unbounded ∨ b ≥ unbounded then some unbounded
  else do
    let room ← Word64.div? unbounded b
    if a > room then some unbounded else Word64.fit? (a * b)

/-- The sum of two bounds by operations that have no result beyond the words. -/
def add? (a b : Int) : Option Int := do
  let room ← Word64.fit? (unbounded - b)
  if a ≥ room then some unbounded else Word64.fit? (a + b)

theorem mul_of_mul? (h : mul? a b = some c) : mul a b = c := by
  unfold mul? at h
  unfold mul
  split at h
  case isTrue hzero => exact (if_pos hzero).trans (Option.some.inj h)
  case isFalse hzero =>
    rw [if_neg hzero]
    split at h
    case isTrue hlarge =>
      exact (if_pos (hlarge.imp_right .inl)).trans (Option.some.inj h)
    case isFalse hsmall =>
      obtain ⟨hasmall, hbsmall⟩ := not_or.mp hsmall
      obtain ⟨room, hroom, h⟩ := Option.bind_eq_some_iff.mp h
      rw [Word64.div?, if_neg fun hb => hzero (.inr hb), Word64.fit?_eq_some_iff] at hroom
      obtain ⟨-, rfl⟩ := hroom
      split at h
      case isTrue hbeyond => exact (if_pos (.inr (.inr hbeyond))).trans (Option.some.inj h)
      case isFalse hwithin =>
        rw [if_neg (not_or.mpr ⟨hasmall, not_or.mpr ⟨hbsmall, hwithin⟩⟩)]
        exact Word64.wrap_of_fit? h

theorem add_of_add? (h : add? a b = some c) : add a b = c := by
  obtain ⟨room, hroom, h⟩ := Option.bind_eq_some_iff.mp h
  unfold add
  rw [Word64.wrap_of_fit? hroom]
  split at h
  case isTrue hlarge => exact (if_pos hlarge).trans (Option.some.inj h)
  case isFalse hsmall =>
    rw [if_neg hsmall]
    exact Word64.wrap_of_fit? h

/-- No operation leaves the words. -/
theorem exists_mul? (ha : 0 ≤ a) (hb : 0 ≤ b) : ∃ c, mul? a b = some c := by
  unfold mul?
  split
  case isTrue => exact ⟨_, rfl⟩
  case isFalse hzero =>
    have hpositive : 0 ≤ unbounded := by decide
    obtain ⟨-, hb0⟩ := not_or.mp hzero
    have hb1 : 0 < b := by omega
    split
    case isTrue => exact ⟨_, rfl⟩
    case isFalse =>
      have hroom : Word64.div? unbounded b = some (unbounded / b) := by
        rw [Word64.div?, if_neg hb0, Int.tdiv_eq_ediv_of_nonneg hpositive]
        exact Word64.fit?_of_range (Int.ediv_nonneg hpositive hb) (Int.ediv_le_self b hpositive)
      rw [hroom, Option.bind_eq_bind, Option.bind_some]
      split
      case isTrue => exact ⟨_, rfl⟩
      case isFalse hwithin =>
        have hle : a * b ≤ unbounded := (Int.le_ediv_iff_mul_le hb1).mp (Int.not_lt.mp hwithin)
        exact ⟨_, Word64.fit?_of_range (Int.mul_nonneg ha hb) hle⟩

theorem exists_add? (ha : 0 ≤ a) (hb : 0 ≤ b) (hb' : b < Word64.limit) : ∃ c, add? a b = some c := by
  have hroom : Word64.fit? (unbounded - b) = some (unbounded - b) := by
    refine if_pos ?_
    simp only [Word64.Fits, unbounded, Word64.limit] at hb' ⊢
    omega
  unfold add?
  rw [hroom, Option.bind_eq_bind, Option.bind_some]
  split
  case isTrue => exact ⟨_, rfl⟩
  case isFalse hsmall => exact ⟨_, Word64.fit?_of_range (Int.add_nonneg ha hb) (by omega)⟩

theorem mul?_eq_some_min (ha : 0 ≤ a) (hb : 0 ≤ b) : mul? a b = some (min unbounded (a * b)) := by
  obtain ⟨c, hc⟩ := exists_mul? ha hb
  rw [hc, ← mul_eq_min ha hb, mul_of_mul? hc]

theorem add?_eq_some_min (ha : 0 ≤ a) (ha' : a < Word64.limit) (hb : 0 ≤ b) (hb' : b < Word64.limit) :
    add? a b = some (min unbounded (a + b)) := by
  obtain ⟨c, hc⟩ := exists_add? ha hb hb'
  rw [hc, ← add_eq_min ha ha' hb hb', add_of_add? hc]

theorem mul_min_right (ha : 0 ≤ a) (hb : 0 ≤ b) : mul a (min unbounded b) = min unbounded (a * b) := by
  have hmin : 0 ≤ min unbounded b := le_min (by decide) hb
  rw [mul_eq_min ha hmin, Int.mul_comm, ← mul_eq_min hmin ha, mul_min hb ha, Int.mul_comm]

end Occurs

-- ---------------------------------------------------------------------------
-- Paths
-- ---------------------------------------------------------------------------

/-- What the last entry of a kind on a path has, or else what is given. -/
def lastOf (kind : Particle) (value : PathEntry → Int) (path : List PathEntry) (given : Int) : Int :=
  ((path.filter (·.kind == kind)).getLast?.map value).getD given

theorem lastOf_cons (kind : Particle) (value : PathEntry → Int) (e : PathEntry) (path : List PathEntry)
    (given : Int) : lastOf kind value (e :: path) given =
      lastOf kind value path (if e.kind = kind then value e else given) := by
  by_cases he : e.kind = kind
  · simp only [lastOf, List.filter_cons, he, beq_self_eq_true, if_true, List.getLast?_cons]
    cases (path.filter (·.kind == kind)).getLast? <;> rfl
  · simp [lastOf, he]

theorem lastOf_nonneg (kind : Particle) {value : PathEntry → Int} (hpath : ∀ e ∈ path, 0 ≤ value e)
    (hgiven : 0 ≤ d) : 0 ≤ lastOf kind value path d := by
  induction path generalizing d with
  | nil => exact hgiven
  | cons e path ih =>
    obtain ⟨he, hpath⟩ := List.forall_mem_cons.mp hpath
    rw [lastOf_cons]
    refine ih hpath ?_
    split
    · exact he
    · exact hgiven

/-- What has been gathered when the rest of a path is done: it does not matter how often the products have
stopped before. -/
theorem PathFold.foldl_eq (hpath : ∀ e ∈ path, 0 ≤ e.min ∧ 0 ≤ e.max) (ha : 0 ≤ a) (hb : 0 ≤ b)
    (hmin : p.outerMin = min Occurs.unbounded a) (hmax : p.outerMax = min Occurs.unbounded b) :
    path.foldl step p =
      { restrictions := { p.restrictions with
          sequence := lastOf .sequence (·.id) path p.restrictions.sequence
          choice := lastOf .choice (·.id) path p.restrictions.choice
          group := lastOf .group (·.id) path p.restrictions.group }
        ownMin := lastOf .element (·.min) path p.ownMin
        ownMax := lastOf .element (·.max) path p.ownMax
        outerMin := min Occurs.unbounded (a * pathProduct (·.min) path)
        outerMax := min Occurs.unbounded (b * pathProduct (·.max) path)
        inChoice := p.inChoice || path.any (·.kind = .choice) } := by
  induction path generalizing p a b with
  | nil => simp [lastOf, pathProduct, ← hmin, ← hmax]
  | cons e path ih =>
    obtain ⟨⟨hemin, hemax⟩, hpath⟩ := List.forall_mem_cons.mp hpath
    have hamin : Occurs.mul p.outerMin e.min = min Occurs.unbounded (a * e.min) := by
      rw [hmin, Occurs.mul_min ha hemin]
    have hbmax : Occurs.mul p.outerMax e.max = min Occurs.unbounded (b * e.max) := by
      rw [hmax, Occurs.mul_min hb hemax]
    simp only [lastOf_cons, pathProduct_cons, List.any_cons, ← Int.mul_assoc, List.foldl_cons]
    cases hkind : e.kind with
    | element =>
      rw [ih hpath (p := step p e) ha hb (by simpa [step, hkind] using hmin)
        (by simpa [step, hkind] using hmax)]
      simp [step, hkind]
    | _ =>
      rw [ih hpath (p := step p e) (Int.mul_nonneg ha hemin) (Int.mul_nonneg hb hemax)
        (by simpa [step, hkind, enclose] using hamin) (by simpa [step, hkind, enclose] using hbmax)]
      simp [step, hkind, enclose]

namespace Restrictions

/-- No bound of the field or of a particle on its path is negative. -/
structure Nonneg (r : Restrictions) : Prop where
  min : 0 ≤ r.min
  max : 0 ≤ r.max
  path : ∀ e ∈ r.path, 0 ≤ e.min ∧ 0 ≤ e.max

/-- The restrictions with the path folded into them, whether or not there are particles on it. -/
def foldPath (r : Restrictions) : Restrictions :=
  (r.path.foldl PathFold.step { restrictions := r, ownMin := r.min, ownMax := r.max }).result

theorem setMax_min (hn : 0 ≤ n) (r : Restrictions) :
    r.setMax (Min.min Occurs.unbounded n) = { r with maxOccurs := some (Min.min Occurs.unbounded n) } := by
  have hmin : 0 ≤ Min.min Occurs.unbounded n := le_min (by decide) hn
  rw [setMax, if_neg]
  have hle := min_le_left Occurs.unbounded n
  omega

theorem foldPath_eq (hr : r.Nonneg) : r.foldPath =
    { r with
      minOccurs := some (if ∃ e ∈ r.path, e.kind = .choice then 0
        else Min.min Occurs.unbounded (lastOf .element (·.min) r.path r.min * pathProduct (·.min) r.path))
      maxOccurs := some
        (Min.min Occurs.unbounded (lastOf .element (·.max) r.path r.max * pathProduct (·.max) r.path))
      sequence := lastOf .sequence (·.id) r.path r.sequence
      choice := lastOf .choice (·.id) r.path r.choice
      group := lastOf .group (·.id) r.path r.group } := by
  have hownMin := lastOf_nonneg .element (fun e he => (hr.path e he).1) hr.min
  have hownMax := lastOf_nonneg .element (fun e he => (hr.path e he).2) hr.max
  have hminimum := pathProduct_nonneg fun e he => (hr.path e he).1
  have hmaximum := pathProduct_nonneg fun e he => (hr.path e he).2
  unfold foldPath
  rw [PathFold.foldl_eq (a := 1) (b := 1) hr.path (by decide) (by decide) rfl rfl]
  simp only [PathFold.result, Int.one_mul, Bool.false_or, List.any_eq_true, decide_eq_true_eq, setMin,
    Occurs.mul_min_right hownMin hminimum, Occurs.mul_min_right hownMax hmaximum,
    setMax_min (Int.mul_nonneg hownMax hmaximum)]

end Restrictions

/-- Products and sums of bounds are the exact ones, stopped at `unbounded`, without leaving the words on
the way. So the upper bound that a path gives a field is the exact product of the upper bounds of the
particles and of the field's own, and the lower bound likewise, unless the path leads through a choice: then
it is zero. The own bounds are those of the last element entry, if there is one, and each marker is the
number of the last entry of its kind. -/
theorem foldPath_exact :
    (∀ a b : Int, 0 ≤ a → a < Word64.limit → 0 ≤ b → b < Word64.limit →
      Occurs.mul? a b = some (min Occurs.unbounded (a * b)) ∧
      Occurs.mul a b = min Occurs.unbounded (a * b) ∧
      Occurs.add? a b = some (min Occurs.unbounded (a + b)) ∧
      Occurs.add a b = min Occurs.unbounded (a + b)) ∧
    (∀ r : Restrictions, r.Nonneg → r.foldPath =
      { r with
        minOccurs := some (if ∃ e ∈ r.path, e.kind = .choice then 0
          else min Occurs.unbounded (lastOf .element (·.min) r.path r.min * pathProduct (·.min) r.path))
        maxOccurs := some
          (min Occurs.unbounded (lastOf .element (·.max) r.path r.max * pathProduct (·.max) r.path))
        sequence := lastOf .sequence (·.id) r.path r.sequence
        choice := lastOf .choice (·.id) r.path r.choice
        group := lastOf .group (·.id) r.path r.group }) ∧
    ∀ f : Field, f.foldPath =
      if f.restrictions.path = [] then f else { f with restrictions := f.restrictions.foldPath } := by
  refine ⟨fun a b ha ha' hb hb' => ?_, fun r hr => Restrictions.foldPath_eq hr, fun f => ?_⟩
  · exact ⟨Occurs.mul?_eq_some_min ha hb, Occurs.mul_eq_min ha hb, Occurs.add?_eq_some_min ha ha' hb hb',
      Occurs.add_eq_min ha ha' hb hb'⟩
  · simp only [Field.foldPath, List.isEmpty_iff]
    rfl

namespace Stopping

/-- A path on which the product of the upper bounds stops and that of the lower bounds does not. -/
def restrictions : Restrictions where
  maxOccurs := some 4
  sequence := 8
  path := [{ kind := .sequence, id := 1, min := 2, max := 46341 },
    { kind := .element, id := 2, min := 3, max := 5 }, { kind := .group, id := 3, min := 1, max := 46341 },
    { kind := .sequence, id := 4, min := 5, max := Occurs.unbounded },
    { kind := .element, id := 5, min := 7, max := 9223372036854775807 }]

theorem foldPath_exact_stopping : restrictions.Nonneg ∧
    restrictions.foldPath =
      { restrictions with
        minOccurs := some 70
        maxOccurs := some Occurs.unbounded
        sequence := 4
        group := 3 } ∧
    Occurs.mul? 46341 46341 = some Occurs.unbounded ∧
    Occurs.add? 9223372036854775807 1 = some Occurs.unbounded := by
  have hr : restrictions.Nonneg := ⟨by decide, by decide, by decide⟩
  have hmul := (foldPath_exact.1 46341 46341 (by decide) (by decide) (by decide) (by decide)).1
  have hadd := (foldPath_exact.1 9223372036854775807 1 (by decide) (by decide) (by decide) (by decide)).2.2.1
  exact ⟨hr, (foldPath_exact.2.1 restrictions hr).trans (by decide), hmul.trans (by decide),
    hadd.trans (by decide)⟩

end Stopping

end Schemata
