import Mathlib.Algebra.Order.BigOperators.Group.List
import Mathlib.Data.Set.Card
import Mathlib.Logic.Relation
import Schemata.Inherit.Bases
import Schemata.Proofs.Step.Sequential

/-!
# Where bases lead

A base leads to the type that its name stands for, and on to the bases of this type. The check for
circular bases finds out whether a name leads to a type: it follows every name once, and the steps it
is given are enough for this. While bases are dropped, kept and copied, names lead to fewer and fewer
types.
-/

namespace Schemata.Store

open SchemaType Relation

variable {s s' s'' : Store} {t u : SchemaType} {q c : QName} {h k : Handle}

/-- The type that a base of a name stands for. -/
def Target (s : Store) (q : QName) (k : Handle) : Prop :=
  (s.preferred? q .complexType).map (·.id) = some k

/-- A type has a base that stands for another type. -/
def Next (s : Store) (h k : Handle) : Prop :=
  ∃ t ∈ s.types, t.id = h ∧ ∃ e ∈ t.extensions, e.type.native = false ∧ s.Target e.type.qname k

/-- Bases lead from a name to a type. -/
def Leads (s : Store) (q : QName) (h : Handle) : Prop :=
  ∃ k, s.Target q k ∧ ReflTransGen s.Next k h

theorem Sound.exists_of_target (hs : s.Sound) (hq : s.Target q k) :
    ∃ t ∈ s.types, s.preferred? q .complexType = some t ∧ t.id = k ∧ t.qname = q := by
  obtain ⟨t, hfound, hid⟩ := Option.map_eq_some_iff.mp hq
  obtain ⟨ht, hname⟩ := hs.preferred? hfound
  exact ⟨t, ht, hfound, hid, hname⟩

/-- Bases lead to roots. -/
theorem Sound.exists_of_leads (hs : s.Sound) (hlead : s.Leads q k) : ∃ t ∈ s.types, t.id = k := by
  have hroot : ∀ {q k}, s.Target q k → ∃ t ∈ s.types, t.id = k := by
    intro q k htarget
    obtain ⟨t, ht, -, hid, -⟩ := hs.exists_of_target htarget
    exact ⟨t, ht, hid⟩
  obtain ⟨l, hl, hpath⟩ := hlead
  obtain rfl | ⟨_, -, -, -, -, e, -, -, htarget⟩ := hpath.cases_tail
  · exact hroot hl
  · exact hroot htarget

theorem Leads.step (ht : t ∈ s.types) (hq : s.Target q t.id) {e : Extension} (he : e ∈ t.extensions)
    (hnative : e.type.native = false) (hlead : s.Leads e.type.qname k) : s.Leads q k := by
  obtain ⟨l, hl, hpath⟩ := hlead
  exact ⟨t.id, hq, .head ⟨t, ht, rfl, e, he, hnative, hl⟩ hpath⟩

/-- A type is on a circle when one of its bases leads to it. -/
theorem transGen_next_iff : TransGen s.Next h k ↔
    ∃ t ∈ s.types, t.id = h ∧ ∃ e ∈ t.extensions, e.type.native = false ∧ s.Leads e.type.qname k := by
  rw [TransGen.head'_iff]
  constructor
  · rintro ⟨l, ⟨t, ht, rfl, e, he, hnative, hl⟩, hpath⟩
    exact ⟨t, ht, rfl, e, he, hnative, l, hl, hpath⟩
  · rintro ⟨t, ht, rfl, e, he, hnative, l, hl, hpath⟩
    exact ⟨l, ⟨t, ht, rfl, e, he, hnative, hl⟩, hpath⟩

-- ---------------------------------------------------------------------------
-- The check
-- ---------------------------------------------------------------------------

/-- The number of bases of the types whose names have not been followed. -/
def unfollowed (s : Store) (seen : List QName) : Nat :=
  Lists.total ((s.types.filter fun t => t.qname ∉ seen).map (·.extensions.length))

theorem total_filter_le {p p' : SchemaType → Bool} (hp : ∀ t, p' t = true → p t = true)
    (f : SchemaType → Nat) (ts : List SchemaType) :
    Lists.total ((ts.filter p').map f) ≤ Lists.total ((ts.filter p).map f) := by
  induction ts with
  | nil => exact Nat.le_refl 0
  | cons t ts ih =>
    simp only [List.filter_cons]
    split
    case isTrue hp' =>
      rw [if_pos (hp t hp')]
      exact Nat.add_le_add_left ih _
    case isFalse =>
      split
      · exact Nat.le_trans ih (Nat.le_add_left _ _)
      · exact ih

theorem total_filter_add_le {p p' : SchemaType → Bool} (hp : ∀ t, p' t = true → p t = true)
    (f : SchemaType → Nat) {ts : List SchemaType} (ht : t ∈ ts) (htp : p t = true)
    (htp' : p' t = false) :
    Lists.total ((ts.filter p').map f) + f t ≤ Lists.total ((ts.filter p).map f) := by
  induction ts with
  | nil => exact absurd ht List.not_mem_nil
  | cons u ts ih =>
    obtain rfl | ht := List.mem_cons.mp ht
    · rw [List.filter_cons_of_pos htp, List.filter_cons_of_neg (by rw [htp']; exact Bool.false_ne_true),
        List.map_cons, Lists.total, Nat.add_comm]
      exact Nat.add_le_add_left (total_filter_le hp f ts) _
    · have hle := ih ht
      simp only [List.filter_cons]
      split
      case isTrue hp' =>
        rw [if_pos (hp u hp'), List.map_cons, List.map_cons, Lists.total, Lists.total]
        omega
      case isFalse =>
        split
        · rw [List.map_cons, Lists.total]
          omega
        · exact hle

/-- What is closed under bases, and does not have a name of a type, does not lead to the type. -/
theorem not_leads_of_closed (hs : s.Sound) {V : QName → Prop}
    (hV : ∀ q, V q → ∀ t, s.preferred? q .complexType = some t → t.id ≠ h ∧
      ∀ e ∈ t.extensions, e.type.native = false → V e.type.qname) (hq : V q) : ¬ s.Leads q h := by
  rintro ⟨k, htarget, hpath⟩
  induction hpath using ReflTransGen.head_induction_on generalizing q with
  | refl =>
    obtain ⟨t, -, hfound, hid, -⟩ := hs.exists_of_target htarget
    exact (hV q hq t hfound).1 hid
  | head hnext _ ih =>
    obtain ⟨t, ht, rfl, e, he, hnative, hl⟩ := hnext
    obtain ⟨t', ht', hfound, hid, -⟩ := hs.exists_of_target htarget
    obtain rfl := (holds_of_mem_types ht').eq_of_id hs.handles (holds_of_mem_types ht) hid
    exact ih ((hV q hq t' hfound).2 e he hnative) hl

theorem not_leads_of_basesLead (hs : s.Sound) {steps : Nat} {queue seen : List QName}
    (hfalse : s.basesLead h steps queue seen = false) (hsteps : queue.length + s.unfollowed seen ≤ steps)
    (hseen : ∀ q ∈ seen, ∀ t, s.preferred? q .complexType = some t → t.id ≠ h ∧
      ∀ e ∈ t.extensions, e.type.native = false → e.type.qname ∈ seen ∨ e.type.qname ∈ queue)
    (hq : q ∈ seen ∨ q ∈ queue) : ¬ s.Leads q h := by
  induction steps generalizing queue seen with
  | zero =>
    obtain rfl : queue = [] := List.eq_nil_of_length_eq_zero (by omega)
    simp only [List.not_mem_nil, or_false] at hq hseen
    exact not_leads_of_closed (V := (· ∈ seen)) hs hseen hq
  | succ steps ih =>
    cases queue with
    | nil =>
      simp only [List.not_mem_nil, or_false] at hq hseen
      exact not_leads_of_closed (V := (· ∈ seen)) hs hseen hq
    | cons p queue =>
      rw [basesLead] at hfalse
      rw [List.length_cons] at hsteps
      have hmono : s.unfollowed (p :: seen) ≤ s.unfollowed seen :=
        total_filter_le (fun t ht => by simp at ht ⊢; exact ht.2) _ _
      split at hfalse
      case isTrue hp =>
        have hskip : ∀ {q'}, q' ∈ seen ∨ q' ∈ p :: queue → q' ∈ seen ∨ q' ∈ queue := by
          rintro q' (hin | hin)
          · exact .inl hin
          · obtain rfl | hin := List.mem_cons.mp hin
            · exact .inl hp
            · exact .inr hin
        refine ih hfalse (by omega) (fun q' hq' t ht => ?_) (hskip hq)
        obtain ⟨hne, hbases⟩ := hseen q' hq' t ht
        exact ⟨hne, fun e he hnative => hskip (hbases e he hnative)⟩
      case isFalse hp =>
        have hmove : ∀ {q'}, q' ∈ seen ∨ q' ∈ p :: queue → q' ∈ p :: seen ∨ q' ∈ queue := by
          rintro q' (hin | hin)
          · exact .inl (List.mem_cons_of_mem _ hin)
          · obtain rfl | hin := List.mem_cons.mp hin
            · exact .inl List.mem_cons_self
            · exact .inr hin
        cases hfound : s.preferred? p .complexType with
        | none =>
          rw [hfound] at hfalse
          refine ih hfalse (by omega) (fun q' hq' t ht => ?_) (hmove hq)
          obtain rfl | hq' := List.mem_cons.mp hq'
          · rw [hfound] at ht
            cases ht
          · obtain ⟨hne, hbases⟩ := hseen q' hq' t ht
            exact ⟨hne, fun e he hnative => hmove (hbases e he hnative)⟩
        | some r =>
          rw [hfound] at hfalse
          simp only [Bool.or_eq_false_iff, beq_eq_false_iff_ne] at hfalse
          obtain ⟨hr, rfl⟩ := hs.preferred? hfound
          have hless : s.unfollowed (r.qname :: seen) + r.extensions.length ≤ s.unfollowed seen :=
            total_filter_add_le (fun t ht => by simp at ht ⊢; exact ht.2) _ hr (by simpa using hp)
              (by simp)
          have hlength : ((r.extensions.filter (!·.type.native)).map (·.type.qname)).length ≤
              r.extensions.length := by
            rw [List.length_map]
            exact List.length_filter_le _ _
          refine ih hfalse.2 (by rw [List.length_append]; omega) (fun q' hq' t ht => ?_) ?_
          · obtain rfl | hq' := List.mem_cons.mp hq'
            · obtain rfl := Option.some.inj (hfound.symm.trans ht)
              refine ⟨hfalse.1, fun e he hnative => .inr (List.mem_append_right _ ?_)⟩
              exact List.mem_map_of_mem (List.mem_filter.mpr ⟨he, by rw [hnative]; rfl⟩)
            · obtain ⟨hne, hbases⟩ := hseen q' hq' t ht
              exact ⟨hne, fun e he hnative => (hmove (hbases e he hnative)).imp_right
                (List.mem_append_left _)⟩
          · exact (hmove hq).imp_right (List.mem_append_left _)

/-- The check for circular bases misses none. -/
theorem not_leads_of_leadsTo (hs : s.Sound) (hfalse : s.leadsTo q h = false) : ¬ s.Leads q h := by
  refine not_leads_of_basesLead hs hfalse ?_ (by simp) (.inr (List.mem_singleton_self q))
  simp [unfollowed]

-- ---------------------------------------------------------------------------
-- Names lead to fewer and fewer types
-- ---------------------------------------------------------------------------

/-- Which root is preferred is a matter of the outlines. -/
theorem Sound.preferred?_id (hs : s.Sound) (hs' : s'.Sound)
    (houtline : s'.roots.map Entry.outline = s.roots.map Entry.outline) (q : QName) (tag : Tag) :
    (s'.preferred? q tag).map (·.id) = (s.preferred? q tag).map (·.id) := by
  have hgo : ∀ ps : List (SchemaType → Bool), (∀ p ∈ ps, ∀ t, p t = p { id := t.id, tag := t.tag }) →
      (ps.findSome? (s'.lookup? q)).map (·.id) = (ps.findSome? (s.lookup? q)).map (·.id) := by
    intro ps hps
    induction ps with
    | nil => rfl
    | cons p ps ih =>
      obtain ⟨hp, hps⟩ := List.forall_mem_cons.mp hps
      have hid := hs.lookup?_id hs' houtline hp q
      rw [List.findSome?_cons, List.findSome?_cons]
      cases hfound : s.lookup? q p with
      | none =>
        rw [hfound, Option.map_none, Option.map_eq_none_iff] at hid
        rw [hid]
        exact ih hps
      | some t =>
        rw [hfound, Option.map_some, Option.map_eq_some_iff] at hid
        obtain ⟨t', hfound', hid⟩ := hid
        rw [hfound']
        exact congrArg some hid
  exact hgo (preferences tag) (by simp [preferences, isComplex])

/-- The names of all bases. -/
def baseNames (s : Store) : Finset QName :=
  ((s.types.flatMap (·.extensions)).map (·.type.qname)).toFinset

theorem mem_baseNames_iff : q ∈ s.baseNames ↔ ∃ t ∈ s.types, ∃ e ∈ t.extensions, e.type.qname = q := by
  simp only [baseNames, List.mem_toFinset, List.mem_map, List.mem_flatMap]
  constructor
  · rintro ⟨e, ⟨t, ht, he⟩, rfl⟩
    exact ⟨t, ht, e, he, rfl⟩
  · rintro ⟨t, ht, e, he, rfl⟩
    exact ⟨e, ⟨t, ht, he⟩, rfl⟩

/-- The roots are the same, and their bases lead nowhere that they have not led before. -/
structure Shrinks (s s' : Store) : Prop where
  outline : s'.roots.map Entry.outline = s.roots.map Entry.outline
  next : ∀ h k, s'.Next h k → TransGen s.Next h k
  names : s'.baseNames ⊆ s.baseNames

namespace Shrinks

theorem refl (s : Store) : Shrinks s s :=
  ⟨rfl, fun _ _ hnext => .single hnext, Finset.Subset.refl _⟩

theorem transGen (hshrinks : Shrinks s s') (hpath : TransGen s'.Next h k) : TransGen s.Next h k :=
  hpath.lift' (fun h => h) hshrinks.next

theorem trans (hshrinks : Shrinks s s') (hshrinks' : Shrinks s' s'') : Shrinks s s'' :=
  ⟨hshrinks'.outline.trans hshrinks.outline,
    fun h k hnext => hshrinks.transGen (hshrinks'.next h k hnext),
    hshrinks'.names.trans hshrinks.names⟩

theorem target_iff (hshrinks : Shrinks s s') (hs : s.Sound) (hs' : s'.Sound) :
    s'.Target q k ↔ s.Target q k := by
  rw [Target, hs.preferred?_id hs' hshrinks.outline, Target]

theorem leads (hshrinks : Shrinks s s') (hs : s.Sound) (hs' : s'.Sound) (hlead : s'.Leads q k) :
    s.Leads q k := by
  obtain ⟨l, hl, hpath⟩ := hlead
  exact ⟨l, (hshrinks.target_iff hs hs').mp hl,
    hpath.lift' (fun h => h) fun h k hnext => (hshrinks.next h k hnext).to_reflTransGen⟩

end Shrinks

-- ---------------------------------------------------------------------------
-- What it takes to settle bases
-- ---------------------------------------------------------------------------

/-- The number of types that a name leads to. -/
noncomputable def rank (s : Store) (q : QName) : Nat :=
  Set.ncard {k | s.Leads q k}

/-- A base that is copied is replaced by its bases, which have different names and lead to fewer
types. -/
noncomputable def toll (s : Store) (e : Extension) : Nat :=
  if e.type.native then 1 else (s.baseNames.card + 1) ^ s.rank e.type.qname

noncomputable def load (s : Store) (es : List Extension) : Nat :=
  (es.map s.toll).sum

theorem finite_leads (hs : s.Sound) (q : QName) : {k | s.Leads q k}.Finite := by
  refine (s.types.map (·.id)).toFinset.finite_toSet.subset ?_
  intro k hlead
  obtain ⟨t, ht, rfl⟩ := hs.exists_of_leads hlead
  rw [Finset.mem_coe, List.mem_toFinset]
  exact List.mem_map_of_mem ht

theorem Shrinks.toll_le (hshrinks : Shrinks s s') (hs : s.Sound) (hs' : s'.Sound) (e : Extension) :
    s'.toll e ≤ s.toll e := by
  unfold toll
  split
  · exact Nat.le_refl 1
  · have hnames := Finset.card_le_card hshrinks.names
    have hrank : s'.rank e.type.qname ≤ s.rank e.type.qname :=
      Set.ncard_le_ncard (fun k hlead => hshrinks.leads hs hs' hlead) (finite_leads hs _)
    exact (Nat.pow_le_pow_left (Nat.succ_le_succ hnames) _).trans
      (Nat.pow_le_pow_right (Nat.succ_pos _) hrank)

theorem Shrinks.load_le (hshrinks : Shrinks s s') (hs : s.Sound) (hs' : s'.Sound) (es : List Extension) :
    s'.load es ≤ s.load es :=
  List.sum_le_sum fun e _ => hshrinks.toll_le hs hs' e

theorem toll_pos (s : Store) (e : Extension) : 0 < s.toll e := by
  unfold toll
  split
  · exact Nat.one_pos
  · exact Nat.pow_pos (Nat.succ_pos _)

/-- The bases of a base that is not on a circle take less than the base. -/
theorem load_lt_toll (hs : s.Sound) (ht : t ∈ s.types) {e : Extension} (hnative : e.type.native = false)
    (htarget : s.Target e.type.qname t.id) (hacyclic : ¬ TransGen s.Next t.id t.id)
    {added : List Extension} (hadded : ∀ a ∈ added, ∃ c ∈ t.extensions, c.type = a.type)
    (hnodup : (added.map (·.type.qname)).Nodup) : s.load added < s.toll e := by
  have hself : s.Leads e.type.qname t.id := ⟨t.id, htarget, .refl⟩
  -- a base of the base does not lead to the base
  have hrank : ∀ c ∈ t.extensions, c.type.native = false → s.rank c.type.qname < s.rank e.type.qname := by
    intro c hc hcnative
    refine Set.ncard_lt_ncard ⟨fun k hlead => ?_, fun hsub => ?_⟩ (finite_leads hs _)
    · exact Leads.step ht htarget hc hcnative hlead
    · exact hacyclic (transGen_next_iff.mpr ⟨t, ht, rfl, c, hc, hcnative, hsub hself⟩)
  have hpositive : 0 < s.rank e.type.qname := by
    unfold rank
    rw [Set.ncard_pos (finite_leads hs _)]
    exact ⟨t.id, hself⟩
  have htoll : ∀ a ∈ added, s.toll a ≤ (s.baseNames.card + 1) ^ (s.rank e.type.qname - 1) := by
    intro a ha
    obtain ⟨c, hc, htype⟩ := hadded a ha
    unfold toll
    split
    · exact Nat.pow_pos (Nat.succ_pos _)
    case isFalse hnot =>
      rw [← htype] at hnot ⊢
      have hlt := hrank c hc (Bool.eq_false_iff.mpr hnot)
      exact Nat.pow_le_pow_right (Nat.succ_pos _) (by omega)
  have hlength : added.length ≤ s.baseNames.card := by
    have hsub : (added.map (·.type.qname)).toFinset ⊆ s.baseNames := by
      intro q hq
      obtain ⟨a, ha, rfl⟩ := List.mem_map.mp (List.mem_toFinset.mp hq)
      obtain ⟨c, hc, htype⟩ := hadded a ha
      exact mem_baseNames_iff.mpr ⟨t, ht, c, hc, by rw [htype]⟩
    have hcard := Finset.card_le_card hsub
    rwa [List.toFinset_card_of_nodup hnodup, List.length_map] at hcard
  calc s.load added
      ≤ (added.map s.toll).length • (s.baseNames.card + 1) ^ (s.rank e.type.qname - 1) :=
        List.sum_le_card_nsmul _ _ (by simpa using htoll)
    _ = added.length * (s.baseNames.card + 1) ^ (s.rank e.type.qname - 1) := by
        rw [List.length_map, Nat.nsmul_eq_mul]
    _ < (s.baseNames.card + 1) * (s.baseNames.card + 1) ^ (s.rank e.type.qname - 1) :=
        Nat.mul_lt_mul_of_pos_right (Nat.lt_succ_of_le hlength) (Nat.pow_pos (Nat.succ_pos _))
    _ = (s.baseNames.card + 1) ^ s.rank e.type.qname := by
        rw [← Nat.pow_succ', Nat.succ_eq_add_one, Nat.sub_add_cancel hpositive]
    _ = s.toll e := by
        rw [toll, hnative]
        rfl

end Schemata.Store
