import Schemata.Proofs.Inherit.Leads
import Schemata.Proofs.Store.Dressed

/-!
# Bases, nearest first

The bases of a type are followed by a queue, within a bound and past circles. `Visits` is that search
without the bound, which suffices whatever the bases are. The ancestry of a type says the same without
a queue: the type, then its bases, then the bases of those, and so on, each where it is met first.
-/

namespace Schemata

variable {s : Store} {t u b : SchemaType} {queue rest es : List Extension} {seen : List Handle}
  {r met : List SchemaType}

namespace Store

/-- The type that a base refers to, if it is one of the store. -/
def base? (s : Store) (ext : Extension) : Option SchemaType :=
  if ext.type.native || ext.type.reference == 0 then none else s.ofHandle? ext.type.reference

def basesOf (s : Store) (t : SchemaType) : List SchemaType :=
  t.extensions.filterMap s.base?

/-- A type is met once. -/
def meet (met : List SchemaType) (u : SchemaType) : List SchemaType :=
  if met.any (·.id == u.id) then met else met ++ [u]

/-- The type and what is at most a number of steps above it, nearest first. -/
def ancestry (s : Store) (t : SchemaType) : Nat → List SchemaType
  | 0 => [t]
  | n + 1 => ((s.ancestry t n).flatMap s.basesOf).foldl meet (s.ancestry t n)

-- ---------------------------------------------------------------------------
-- Visits
-- ---------------------------------------------------------------------------

/-- The bases that are found from those in the queue, if the given handles have been seen. -/
inductive Visits (s : Store) : List Extension → List Handle → List SchemaType → Prop
  | done {seen : List Handle} : Visits s [] seen []
  | skip {ext : Extension} {queue : List Extension} {seen : List Handle} {r : List SchemaType}
      (hskip : (ext.type.native || ext.type.reference == 0 || seen.contains ext.type.reference) = true)
      (hrest : Visits s queue seen r) : Visits s (ext :: queue) seen r
  | lost {ext : Extension} {queue : List Extension} {seen : List Handle} {r : List SchemaType}
      (hnew : (ext.type.native || ext.type.reference == 0 || seen.contains ext.type.reference) = false)
      (hnone : s.ofHandle? ext.type.reference = none)
      (hrest : Visits s queue (ext.type.reference :: seen) r) : Visits s (ext :: queue) seen r
  | base {ext : Extension} {queue : List Extension} {seen : List Handle} {b : SchemaType}
      {r : List SchemaType}
      (hnew : (ext.type.native || ext.type.reference == 0 || seen.contains ext.type.reference) = false)
      (hbase : s.ofHandle? ext.type.reference = some b)
      (hrest : Visits s (queue ++ b.extensions) (ext.type.reference :: seen) r) :
      Visits s (ext :: queue) seen (b :: r)

/-- The number of bases of the types that have not been seen. -/
def unseen (s : Store) (seen : List Handle) : Nat :=
  Lists.total (((SchemaType.walkAll s.types).filter fun u => u.id ∉ seen).map (·.extensions.length))

theorem unseen_cons_le (s : Store) (h : Handle) (seen : List Handle) :
    s.unseen (h :: seen) ≤ s.unseen seen := by
  refine total_filter_le (fun u hu => ?_) _ _
  rw [decide_eq_true_eq] at hu ⊢
  exact fun hmem => hu (List.mem_cons_of_mem _ hmem)

theorem unseen_cons_add_le (hb : s.Holds b) (hnew : b.id ∉ seen) :
    s.unseen (b.id :: seen) + b.extensions.length ≤ s.unseen seen := by
  refine total_filter_add_le (fun u hu => ?_) (fun u : SchemaType => u.extensions.length)
    (holds_iff_mem_walkAll.mp hb) ?_ ?_
  · rw [decide_eq_true_eq] at hu ⊢
    exact fun hmem => hu (List.mem_cons_of_mem _ hmem)
  · exact decide_eq_true hnew
  · exact decide_eq_false (not_not_intro List.mem_cons_self)

/-- A bound that leaves room for every base that has not been seen is not reached. -/
theorem visits_lineageFrom (hs : s.Sound) (hindex : s.IndexedByHandle) {steps : Nat}
    (hsteps : queue.length + s.unseen seen ≤ steps) :
    s.Visits queue seen (s.lineageFrom steps queue seen) := by
  induction steps generalizing queue seen with
  | zero =>
    obtain rfl : queue = [] := List.eq_nil_of_length_eq_zero (by omega)
    exact .done
  | succ steps ih =>
    cases queue with
    | nil => exact .done
    | cons ext queue =>
      rw [List.length_cons] at hsteps
      rw [lineageFrom]
      split
      case isTrue hskip => exact .skip hskip (ih (by omega))
      case isFalse hnew =>
        rw [Bool.not_eq_true] at hnew
        cases hbase : s.ofHandle? ext.type.reference with
        | none =>
          have hle := s.unseen_cons_le ext.type.reference seen
          exact .lost hnew hbase (ih (by omega))
        | some b =>
          obtain ⟨hb, hid⟩ := holds_of_ofHandle? hs hindex hbase
          have hnot : b.id ∉ seen := by
            rw [hid]
            simp_all
          have hle := unseen_cons_add_le hb hnot
          rw [hid] at hle
          exact .base hnew hbase (ih (by rw [List.length_append]; omega))

theorem visits_lineage (hs : s.Sound) (hindex : s.IndexedByHandle) (t : SchemaType) :
    s.Visits t.extensions [t.id] (s.lineage t) := by
  refine visits_lineageFrom hs hindex ?_
  have hle : s.unseen [t.id] ≤ Lists.total ((SchemaType.walkAll s.types).map (·.extensions.length)) := by
    have hle := total_filter_le (p := fun _ => true) (fun u (_ : decide (u.id ∉ [t.id]) = true) => rfl)
      (fun u : SchemaType => u.extensions.length) (SchemaType.walkAll s.types)
    rwa [List.filter_true] at hle
  unfold inheritanceBound
  omega

-- ---------------------------------------------------------------------------
-- Ancestry
-- ---------------------------------------------------------------------------

/-- Of the handles that lead to types, those of the types that have been met have been seen. -/
def Met (s : Store) (seen : List Handle) (met : List SchemaType) : Prop :=
  ∀ h u, s.ofHandle? h = some u → (h ∈ seen ↔ met.any (·.id == u.id) = true)

theorem any_meet : (meet met u).any (·.id == b.id) = (met.any (·.id == b.id) || u.id == b.id) := by
  rw [meet]
  split
  case isTrue hmet =>
    cases hid : u.id == b.id with
    | false => rw [Bool.or_false]
    | true => rw [← beq_iff_eq.mp hid, hmet, Bool.true_or]
  case isFalse => simp

theorem foldl_meet_of_met {us : List SchemaType} (hus : ∀ u ∈ us, met.any (·.id == u.id) = true) :
    us.foldl meet met = met := by
  induction us with
  | nil => rfl
  | cons u us ih =>
    obtain ⟨hu, hus⟩ := List.forall_mem_cons.mp hus
    rw [List.foldl_cons, meet, if_pos hu, ih hus]

theorem any_foldl_meet {us : List SchemaType} (hu : u ∈ us) :
    (us.foldl meet met).any (·.id == u.id) = true := by
  have hany : ∀ us : List SchemaType, ∀ met : List SchemaType,
      met.any (·.id == u.id) = true → (us.foldl meet met).any (·.id == u.id) = true := by
    intro us
    induction us with
    | nil => exact fun _ h => h
    | cons v us ih => exact fun met h => ih _ (by rw [any_meet, h, Bool.true_or])
  induction us generalizing met with
  | nil => exact absurd hu List.not_mem_nil
  | cons v us ih =>
    obtain rfl | hu := List.mem_cons.mp hu
    · exact hany us _ (by rw [any_meet, beq_self_eq_true, Bool.or_true])
    · exact ih hu

theorem Met.cons (hs : s.Sound) (hindex : s.IndexedByHandle) (hmet : s.Met seen met) {h : Handle}
    (hb : s.ofHandle? h = some b) : s.Met (h :: seen) (met ++ [b]) := by
  intro k u hu
  obtain ⟨-, hbid⟩ := holds_of_ofHandle? hs hindex hb
  obtain ⟨-, huid⟩ := holds_of_ofHandle? hs hindex hu
  rw [List.mem_cons, hmet k u hu, List.any_append, Bool.or_eq_true, List.any_cons, List.any_nil,
    Bool.or_false, beq_iff_eq, hbid, huid, or_comm, eq_comm (a := k)]

theorem Met.lost (hmet : s.Met seen met) {h : Handle} (hnone : s.ofHandle? h = none) :
    s.Met (h :: seen) met := by
  intro k u hu
  have hne : k ≠ h := fun heq => Option.some_ne_none u (hu.symm.trans (heq ▸ hnone))
  rw [List.mem_cons, or_iff_right hne, hmet k u hu]

/-- What is at the front of the queue meets its types before anything that comes behind it. -/
theorem Visits.append (hs : s.Sound) (hindex : s.IndexedByHandle) (hr : s.Visits (es ++ rest) seen r)
    (hmet : s.Met seen met) : ∃ new seen' r', r = new ++ r' ∧
      s.Visits (rest ++ new.flatMap (·.extensions)) seen' r' ∧
      (es.filterMap s.base?).foldl meet met = met ++ new ∧ s.Met seen' (met ++ new) := by
  induction es generalizing rest seen r met with
  | nil => exact ⟨[], seen, r, rfl, by simpa using hr, by simp, by simpa using hmet⟩
  | cons ext es ih =>
    have hbase? : ext.type.native = false → ext.type.reference ≠ 0 →
        s.base? ext = s.ofHandle? ext.type.reference := by
      intro hnative href
      rw [base?, hnative, Bool.false_or, if_neg (by simpa using href)]
    cases hr with
    | skip hskip hrest =>
      obtain ⟨new, seen', r', hsplit, hvisits, hfold, hmet'⟩ := ih hrest hmet
      refine ⟨new, seen', r', hsplit, hvisits, ?_, hmet'⟩
      -- there is no such base, or it has been met
      cases hb : s.base? ext with
      | none => rwa [List.filterMap_cons_none hb]
      | some b =>
        have hfound : s.ofHandle? ext.type.reference = some b ∧ ext.type.reference ∈ seen := by
          unfold base? at hb
          split at hb
          case isTrue => cases hb
          case isFalse hneither => exact ⟨hb, by simp_all⟩
        have hmem := (hmet _ b hfound.1).mp hfound.2
        rwa [List.filterMap_cons_some hb, List.foldl_cons, meet, if_pos hmem]
    | lost hnew hnone hrest =>
      obtain ⟨new, seen', r', hsplit, hvisits, hfold, hmet'⟩ := ih hrest (hmet.lost hnone)
      rw [Bool.or_eq_false_iff, Bool.or_eq_false_iff, beq_eq_false_iff_ne] at hnew
      have hb := (hbase? hnew.1.1 hnew.1.2).trans hnone
      exact ⟨new, seen', r', hsplit, hvisits, by rwa [List.filterMap_cons_none hb], hmet'⟩
    | @base _ _ _ b r hnew hbase hrest =>
      obtain ⟨new, seen', r', rfl, hvisits, hfold, hmet'⟩ :=
        ih (List.append_assoc es rest _ ▸ hrest) (hmet.cons hs hindex hbase)
      rw [Bool.or_eq_false_iff, Bool.or_eq_false_iff, beq_eq_false_iff_ne] at hnew
      have hb := (hbase? hnew.1.1 hnew.1.2).trans hbase
      have hnot : ¬ met.any (·.id == b.id) = true := by
        rw [← hmet _ b hbase]
        simpa using hnew.2
      rw [List.append_assoc] at hvisits
      refine ⟨b :: new, seen', r', rfl, by rwa [List.flatMap_cons], ?_, by simpa using hmet'⟩
      rw [List.filterMap_cons_some hb, List.foldl_cons, meet, if_neg hnot, hfold, List.append_assoc,
        List.singleton_append]

/-- How far a search has come when everything up to some distance has been found. -/
structure Reaches (s : Store) (t : SchemaType) (n : Nat) (old new r : List SchemaType) : Prop where
  ancestry : s.ancestry t n = old ++ new
  lineage : t :: s.lineage t = old ++ new ++ r
  /-- The bases of all but the last ones have been met. -/
  closed : ∀ u ∈ old, ∀ b ∈ s.basesOf u, (old ++ new).any (·.id == b.id) = true
  rest : ∃ seen, s.Met seen (old ++ new) ∧ s.Visits (new.flatMap (·.extensions)) seen r
  left : r.length ≤ (s.lineage t).length - n

theorem Reaches.start (hs : s.Sound) (hindex : s.IndexedByHandle) (t : SchemaType) :
    s.Reaches t 0 [] [t] (s.lineage t) where
  ancestry := rfl
  lineage := rfl
  closed _ hu := absurd hu List.not_mem_nil
  rest := by
    refine ⟨[t.id], fun h u hu => ?_, by simpa using visits_lineage hs hindex t⟩
    obtain ⟨-, hid⟩ := holds_of_ofHandle? hs hindex hu
    rw [List.nil_append, List.any_cons, List.any_nil, Bool.or_false, beq_iff_eq, List.mem_singleton, hid,
      eq_comm]
  left := Nat.le_refl _

theorem Reaches.step (hs : s.Sound) (hindex : s.IndexedByHandle) {n : Nat} {old new : List SchemaType}
    (h : s.Reaches t n old new r) : ∃ new' r', s.Reaches t (n + 1) (old ++ new) new' r' := by
  obtain ⟨seen, hmet, hvisits⟩ := h.rest
  rw [← List.append_nil (new.flatMap _)] at hvisits
  obtain ⟨new', seen', r', rfl, hvisits', hfold, hmet'⟩ := hvisits.append hs hindex hmet
  rw [List.nil_append] at hvisits'
  have hbases : (new.flatMap (·.extensions)).filterMap s.base? = new.flatMap s.basesOf := by
    rw [List.filterMap_flatMap]
    rfl
  rw [hbases] at hfold
  refine ⟨new', r', ?_, ?_, fun u hu b hb => ?_, ⟨seen', hmet', hvisits'⟩, ?_⟩
  · have hold : (old.flatMap s.basesOf).foldl meet (old ++ new) = old ++ new := by
      refine foldl_meet_of_met fun b hb => ?_
      obtain ⟨u, hu, hb⟩ := List.mem_flatMap.mp hb
      exact h.closed u hu b hb
    rw [Store.ancestry, h.ancestry, List.flatMap_append, List.foldl_append, hold, hfold]
  · rw [h.lineage, List.append_assoc _ new']
  · rw [← hfold]
    obtain hu | hu := List.mem_append.mp hu
    · rw [hfold, List.any_append, h.closed u hu b hb, Bool.true_or]
    · exact any_foldl_meet (List.mem_flatMap.mpr ⟨u, hu, hb⟩)
  · -- a round that meets nothing is the last one
    have hleft := h.left
    rw [List.length_append] at hleft
    cases new' with
    | nil =>
      cases hvisits' with
      | done => exact Nat.zero_le _
    | cons =>
      rw [List.length_cons] at hleft
      omega

theorem exists_reaches (hs : s.Sound) (hindex : s.IndexedByHandle) (t : SchemaType) (n : Nat) :
    ∃ old new r, s.Reaches t n old new r := by
  induction n with
  | zero => exact ⟨_, _, _, .start hs hindex t⟩
  | succ n ih =>
    obtain ⟨old, new, r, h⟩ := ih
    obtain ⟨new', r', h'⟩ := h.step hs hindex
    exact ⟨_, _, _, h'⟩

/-- The bases of a type are followed nearest first, and none of them is missed. -/
theorem ancestry_eq_lineage (hs : s.Sound) (hindex : s.IndexedByHandle) {n : Nat}
    (hn : (s.lineage t).length ≤ n) : s.ancestry t n = t :: s.lineage t := by
  obtain ⟨old, new, r, h⟩ := exists_reaches hs hindex t n
  have hleft := h.left
  obtain rfl : r = [] := List.eq_nil_of_length_eq_zero (by omega)
  rw [h.ancestry, h.lineage, List.append_nil]

end Store

end Schemata
