import Schemata.Proofs.Choice.Shadowing

/-!
# Distinguishable alternatives

Choices that share a target are wrapped one by one. What counts is how often a target occurs among the
choices as they are at the start: a choice that is left alone has targets that no other choice has, and a
wrapped one has only its wrapper, whose handle is new. The wrappers of all compounds of a type share one
place, and each gets a name that nothing in that place has.
-/

namespace Schemata

open Compile SchemaType Store

variable {s s' : Store} {t t' w : SchemaType} {f f' c c' : Field} {fs choices choices' : List Field} {h r : Handle}

-- ---------------------------------------------------------------------------
-- Targets of choices
-- ---------------------------------------------------------------------------

theorem Field.exists_of_bound_mem_targetKeys (h : .bound r ∈ c.targetKeys) :
    ∃ ft ∈ c.types, ft.native = false ∧ ft.reference = r := by
  obtain ⟨ft, hft, hkey⟩ := List.mem_map.mp h
  unfold FieldType.targetKey at hkey
  split at hkey
  case isTrue => cases hkey
  case isFalse hnative =>
    split at hkey
    case isTrue => exact ⟨ft, hft, Bool.eq_false_iff.mpr hnative, TargetKey.bound.inj hkey⟩
    case isFalse => cases hkey

/-- A choice has a target that occurs more than once among the targets of all choices. -/
def Recurs (choices : List Field) (c : Field) : Prop :=
  ∃ k ∈ c.targetKeys, 1 < (choices.flatMap Field.targetKeys).count k

theorem isAmbiguous_iff : isAmbiguous choices c = true ↔ Recurs choices c := by
  simp [isAmbiguous, Recurs]

theorem nodup_targetKeys_of_not_recurs (hc : c ∈ choices) (h : ¬ Recurs choices c) : c.targetKeys.Nodup := by
  refine List.nodup_iff_count_le_one.mpr fun k => ?_
  by_cases hk : k ∈ c.targetKeys
  · have hall : (choices.flatMap Field.targetKeys).count k ≤ 1 := Nat.le_of_not_lt fun hlt => h ⟨k, hk, hlt⟩
    have hsub := Lists.flatMap_sublist (List.singleton_sublist.mpr hc) Field.targetKeys
    rw [List.flatMap_singleton] at hsub
    exact (hsub.count_le k).trans hall
  · exact (List.count_eq_zero.mpr hk).le.trans (Nat.zero_le 1)

/-- Choices none of whose targets recur share none. -/
theorem pairwise_disjoint_of_not_recurs (choices : List Field) :
    choices.Pairwise fun c d => ¬ Recurs choices c → c.targetKeys.Disjoint d.targetKeys := by
  refine List.pairwise_iff_forall_sublist.mpr fun {c d} hsub hc k hkc hkd => hc ⟨k, hkc, ?_⟩
  have hcount := (Lists.flatMap_sublist hsub Field.targetKeys).count_le k
  rw [List.flatMap_cons, List.flatMap_singleton, List.count_append] at hcount
  have hcpos := List.count_pos_iff.mpr hkc
  have hdpos := List.count_pos_iff.mpr hkd
  omega

/-- The positions of the choices that are wrapped. -/
def Field.ambiguous (f : Field) : List Nat :=
  if f.isChoice && f.choices.length > 1 then
    (f.choices.zipIdx.filter fun p => isAmbiguous f.choices p.1).map (·.2)
  else []

theorem Field.mem_ambiguous_iff {j : Nat} : j ∈ f.ambiguous ↔
    (f.isChoice = true ∧ 1 < f.choices.length) ∧ ∃ c, f.choices[j]? = some c ∧ Recurs f.choices c := by
  unfold ambiguous
  split
  case isTrue hsome =>
    rw [Bool.and_eq_true, decide_eq_true_eq] at hsome
    simp only [hsome, List.mem_map, List.mem_filter, isAmbiguous_iff, Prod.exists, exists_eq_right,
      List.mk_mem_zipIdx_iff_getElem?, and_self, true_and]
  case isFalse hnone =>
    rw [Bool.and_eq_true, decide_eq_true_eq] at hnone
    exact iff_of_false List.not_mem_nil fun h => hnone h.1

theorem Field.nodup_ambiguous (f : Field) : f.ambiguous.Nodup := by
  unfold ambiguous
  split
  · refine (List.filter_sublist.map _).nodup ?_
    rw [List.zipIdx_map_snd]
    exact List.nodup_range'
  · exact List.nodup_nil

-- ---------------------------------------------------------------------------
-- Wrapped choices
-- ---------------------------------------------------------------------------

/-- How a wrapped choice refers to its wrapper: a nested one is referred to forward. -/
def FieldType.ofWrapper (nested : Bool) (w : SchemaType) : FieldType :=
  if nested then .ofForward w.qname w.id else { FieldType.ofDependency w.qname with reference := w.id }

theorem FieldType.ofWrapper_fields (nested : Bool) (w : SchemaType) :
    (FieldType.ofWrapper nested w).native = false ∧ (FieldType.ofWrapper nested w).reference = w.id ∧
      (FieldType.ofWrapper nested w).qname = w.qname := by
  cases nested
  · exact ⟨rfl, rfl, rfl⟩
  · exact ⟨rfl, rfl, rfl⟩

/-- A choice that has become a reference to a wrapper: the text of the wrapper has the native types of the
choice, and its bases are the others, in order. -/
structure Field.WrappedIn (c : Field) (w : SchemaType) (c' : Field) : Prop where
  reference : ∃ ft, c'.types = [ft] ∧ ft.native = false ∧ ft.reference = w.id ∧ ft.qname = w.qname
  rest : c' = { c with types := c'.types, defaultValue := "", fixed := false, defaultEnum := none }
  text : w.fields.map (·.types) = if c.types.filter (·.native) = [] then [] else [c.types.filter (·.native)]
  isText : ∀ f ∈ w.fields, f.tag = .extension ∧ f.name = valueFieldName
  bases : w.extensions.map (·.type) = c.types.filter (!·.native)

theorem Field.WrappedIn.targetKeys (h : c.WrappedIn w c') (hid : w.id ≠ 0) : c'.targetKeys = [.bound w.id] := by
  obtain ⟨ft, htypes, hnative, hreference, -⟩ := h.reference
  simp [Field.targetKeys, htypes, FieldType.targetKey, hnative, hreference, hid]

theorem Field.wrappedIn_wrapperType (c : Field) (owner : SchemaType) (nested : Bool)
    (hw : w.fields = (c.wrapperType owner w.qname).fields)
    (hextensions : w.extensions = (c.wrapperType owner w.qname).extensions) :
    c.WrappedIn w (c.referTo (.ofWrapper nested w)) := by
  obtain ⟨hnative, hreference, hqname⟩ := FieldType.ofWrapper_fields nested w
  constructor
  case reference => exact ⟨_, rfl, hnative, hreference, hqname⟩
  case rest => rfl
  case text =>
    rw [hw, Field.wrapperType, Field.wrappedValue?]
    split
    case h_1 hnone => rw [if_pos hnone]; rfl
    case h_2 hsome => rw [if_neg hsome]; rfl
  case isText =>
    rw [hw, Field.wrapperType, Field.wrappedValue?]
    split
    · simp
    · simp
  case bases =>
    rw [hextensions, Field.wrapperType, List.map_map]
    exact List.map_id _

-- ---------------------------------------------------------------------------
-- What has been wrapped so far
-- ---------------------------------------------------------------------------

/-- The wrappers made so far, each with the positions of the field and of the choice that it is for. -/
abbrev WrapLog := List ((Nat × Nat) × SchemaType)

namespace WrapLog

variable {log : WrapLog} {i j : Nat}

def wrappers (log : WrapLog) : List SchemaType :=
  log.map (·.2)

def places (log : WrapLog) : List (Nat × Nat) :=
  log.map (·.1)

/-- A choice with its reference to the wrapper that was made for it, if one was. -/
def refer (log : WrapLog) (nested : Bool) (i j : Nat) (c : Field) : Field :=
  (log.lookup (i, j)).elim c fun w => c.referTo (.ofWrapper nested w)

def rewire (log : WrapLog) (nested : Bool) (fs : List Field) : List Field :=
  fs.mapIdx fun i f => { f with choices := f.choices.mapIdx fun j c => log.refer nested i j c }

theorem lookup_eq_none_iff : log.lookup (i, j) = none ↔ (i, j) ∉ log.places := by
  rw [List.lookup_eq_none_iff, places, List.mem_map, not_exists]
  refine forall_congr' fun p => ?_
  rw [not_and, bne_iff_ne, ne_comm]

theorem refer_of_not_mem {nested : Bool} (h : (i, j) ∉ log.places) (c : Field) : log.refer nested i j c = c := by
  rw [refer, lookup_eq_none_iff.mpr h]
  rfl

theorem refer_append {nested : Bool} (h : (i, j) ∉ log.places) (i' j' : Nat) (c : Field) :
    refer (log ++ [((i, j), w)]) nested i' j' c =
      if (i', j') = (i, j) then c.referTo (.ofWrapper nested w) else log.refer nested i' j' c := by
  rw [refer, List.lookup_append, List.lookup_cons, List.lookup_nil]
  by_cases heq : (i', j') = (i, j)
  · rw [if_pos heq, heq, lookup_eq_none_iff.mpr h, beq_self_eq_true]
    rfl
  · rw [if_neg heq, beq_eq_false_iff_ne.mpr heq, Option.or_none]
    rfl

/-- Another choice is wrapped. -/
theorem rewire_append {nested : Bool} (h : (i, j) ∉ log.places) (fs : List Field) :
    rewire (log ++ [((i, j), w)]) nested fs = (log.rewire nested fs).modify i fun f =>
      { f with choices := f.choices.modify j (·.referTo (.ofWrapper nested w)) } := by
  refine List.ext_getElem? fun i' => ?_
  simp only [List.getElem?_modify, rewire, List.getElem?_mapIdx, refer_append h]
  cases fs[i']? with
  | none => rfl
  | some f =>
    by_cases hi : i = i'
    · subst hi
      have hchoices : (f.choices.mapIdx fun j' c =>
          if j' = j then c.referTo (.ofWrapper nested w) else log.refer nested i j' c) =
            (f.choices.mapIdx fun j' c => log.refer nested i j' c).modify j
              (·.referTo (.ofWrapper nested w)) := by
        refine List.ext_getElem? fun j' => ?_
        simp only [List.getElem?_modify, List.getElem?_mapIdx]
        by_cases hj : j = j'
        · subst hj
          simp [refer_of_not_mem h]
        · simp [hj, Ne.symm hj]
      simp only [Option.map_some, Option.map_eq_map, Prod.mk.injEq, true_and, hchoices, if_true]
    · simp [hi, Ne.symm hi]

end WrapLog

theorem SchemaType.updateAt_same (h : Handle) (t : SchemaType) : (t.updateAt h fun u => u) = t := by
  induction t using induct with
  | type t ih =>
    rw [updateAt_eq]
    split
    · rfl
    · rw [List.map_congr_left ih, List.map_id', withInner_self]

/-- A type that has taken the place of another one is changed. -/
theorem SchemaType.updateAt_replaced {g : SchemaType → SchemaType} (hid : t'.id = h) (u : SchemaType) :
    (u.updateAt h fun _ => t').updateAt h g = u.updateAt h fun _ => g t' := by
  have hsame : ∀ v : SchemaType, v.id = h → { t' with id := v.id } = t' := by
    intro v hv
    rw [hv, ← hid]
    cases t'
    rfl
  have hconst : u.updateAt h (fun _ => t') = u.updateAt h fun v => { t' with id := v.id } :=
    updateAt_congr fun v _ hv => (hsame v hv).symm
  rw [hconst]
  refine (updateAt_updateAt (f := fun v => { t' with id := v.id }) (fun _ => rfl) u).trans ?_
  exact updateAt_congr fun v _ hv => congrArg g (hsame v hv)

/-- Two wrappers, or a wrapper and what was in their place before, have different names. -/
def NamesApart (nested : Bool) (u w : SchemaType) : Prop :=
  if nested then Name.key u.name ≠ Name.key w.name else u.qname ≠ w.qname

/-- A name that nothing in the place of the wrappers has. -/
theorem Store.freeRootName_ne (hs : s.Sound) (q : QName) {u : SchemaType} (hu : u ∈ s.types) :
    u.qname ≠ s.freeRootName q := by
  unfold freeRootName
  split
  case h_1 hnone =>
    intro heq
    exact Bool.false_ne_true (hs.of_lookup?_eq_none hnone hu heq).symm
  case h_2 =>
    intro heq
    dsimp only at heq
    generalize htaken : (s.types.filter (·.ns == q.ns)).map (fun t => Name.key t.name) = taken at heq
    have hns : u.ns = q.ns := by
      rw [SchemaType.ns, heq]
      rfl
    have hname : u.name = (Name.nextFree q.name taken).1 := congrArg QName.name heq
    refine Name.key_nextFree_not_mem q.name taken ?_
    rw [← hname, ← htaken]
    exact List.mem_map.mpr ⟨u, List.mem_filter.mpr ⟨hu, beq_iff_eq.mpr hns⟩, rfl⟩

theorem SchemaType.key_freeInnerName_ne (t : SchemaType) (q : QName) {u : SchemaType} (hu : u ∈ t.inner) :
    Name.key u.name ≠ Name.key (t.freeInnerName q).name := by
  intro heq
  refine Name.key_unique_not_mem q.name (t.inner.map fun u => Name.key u.name) ?_
  rw [show (Name.unique q.name (t.inner.map fun u => Name.key u.name)).1 = (t.freeInnerName q).name from rfl, ← heq]
  exact List.mem_map.mpr ⟨u, hu, rfl⟩

/-- A store in which some choices of a type have been wrapped. -/
structure Separating (nested : Bool) (s : Store) (t : SchemaType) (log : WrapLog) (s' : Store) (t' : SchemaType) :
    Prop where
  start : s.Regular
  held : s.Holds t
  regular : s'.Regular
  config : s'.config = s.config
  holds : s'.Holds t'
  type : t' = { t with
    fields := log.rewire nested t.fields
    inner := t.inner ++ if nested then log.wrappers else [] }
  types : s'.types = s.types.map (·.updateAt t.id fun _ => t') ++ if nested then [] else log.wrappers
  next : s'.nextHandle = s.nextHandle + log.length
  handles : log.wrappers.map (·.id) = (List.range log.length).map fun (n : Nat) => s.nextHandle + n
  wrapped : ∀ p ∈ log, p.2 =
    { (t.choiceAt p.1.1 p.1.2).wrapperType t p.2.qname with id := p.2.id, localType := !nested }
  apart : log.wrappers.Pairwise (NamesApart nested)
  names : ∀ w ∈ log.wrappers, ∀ u ∈ if nested then t.inner else s.types, NamesApart nested u w

theorem WrapLog.rewire_of_not_mem (nested : Bool) (fs : List Field) {log : WrapLog} {i : Nat} (h : ∀ j, (i, j) ∉ log.places) :
    (log.rewire nested fs)[i]? = fs[i]? := by
  rw [rewire, List.getElem?_mapIdx]
  cases fs[i]? with
  | none => rfl
  | some f =>
    have hchoices : (f.choices.mapIdx fun j c => log.refer nested i j c) = f.choices := by
      refine List.ext_getElem? fun j => ?_
      rw [List.getElem?_mapIdx]
      cases f.choices[j]? with
      | none => rfl
      | some c => exact congrArg some (refer_of_not_mem (h j) c)
    rw [Option.map_some, hchoices]
    cases f
    rfl

theorem WrapLog.rewire_nil (nested : Bool) (fs : List Field) : WrapLog.rewire [] nested fs = fs := by
  exact List.ext_getElem? fun i => rewire_of_not_mem nested fs fun j => List.not_mem_nil

theorem separating_nil (nested : Bool) (hs : s.Regular) (ht : s.Holds t) : Separating nested s t [] s t := by
  have hsame : ∀ u ∈ s.types, (u.updateAt t.id fun _ => t) = u := by
    intro u hu
    have hcongr : (u.updateAt t.id fun _ => t) = u.updateAt t.id fun v => v :=
      updateAt_congr fun v hv hid => (Store.Holds.eq_of_id hs.sound.handles ⟨u, hu, hv⟩ ht hid).symm
    rw [hcongr, updateAt_same]
  constructor
  case start => exact hs
  case held => exact ht
  case regular => exact hs
  case config => rfl
  case holds => exact ht
  case type =>
    rw [WrapLog.rewire_nil, WrapLog.wrappers, List.map_nil, ite_self, List.append_nil]
    cases t
    rfl
  case types => rw [WrapLog.wrappers, List.map_nil, ite_self, List.append_nil, List.map_congr_left hsame, List.map_id']
  case next => simp
  case handles => rfl
  case wrapped => exact fun p hp => absurd hp List.not_mem_nil
  case apart => exact .nil
  case names => exact fun w hw => absurd hw List.not_mem_nil

namespace Separating

variable {nested : Bool} {log : WrapLog} {i j : Nat}

theorem owner_id (h : Separating nested s t log s' t') : t'.id = t.id := by
  rw [h.type]

theorem choiceAt (h : Separating nested s t log s' t') (hplace : (i, j) ∉ log.places) :
    t'.choiceAt i j = t.choiceAt i j := by
  rw [h.type, SchemaType.choiceAt, SchemaType.choiceAt]
  simp only [WrapLog.rewire, List.getElem?_mapIdx]
  cases t.fields[i]? with
  | none => rfl
  | some f =>
    simp only [Option.map_some, Option.getD_some, List.getElem?_mapIdx, WrapLog.refer_of_not_mem hplace]
    cases f.choices[j]? with
    | none => rfl
    | some c => rfl

/-- The next wrapper, with the handle that is next. -/
theorem handles_append (h : Separating nested s t log s' t') (hid : w.id = s'.nextHandle) :
    (WrapLog.wrappers (log ++ [((i, j), w)])).map (·.id) =
      (List.range (log ++ [((i, j), w)]).length).map fun (n : Nat) => s.nextHandle + n := by
  rw [List.length_append, List.length_singleton, List.range_succ, List.map_append, ← h.handles, WrapLog.wrappers,
    List.map_append, List.map_append, List.map_singleton, List.map_singleton, List.map_singleton, hid, h.next]
  rfl

theorem wrapped_append (h : Separating nested s t log s' t') (hplace : (i, j) ∉ log.places)
    (hw : w = { (t'.choiceAt i j).wrapperType t' w.qname with id := w.id, localType := !nested }) :
    ∀ p ∈ log ++ [((i, j), w)], p.2 =
      { (t.choiceAt p.1.1 p.1.2).wrapperType t p.2.qname with id := p.2.id, localType := !nested } := by
  intro p hp
  obtain hp | hp := List.mem_append.mp hp
  · exact h.wrapped p hp
  · obtain rfl := List.mem_singleton.mp hp
    rw [h.choiceAt hplace, h.type] at hw
    exact hw

theorem qname_updateAt (h : Separating nested s t log s' t') {u : SchemaType} (hu : u ∈ s.types) :
    (u.updateAt t.id fun _ => t').qname = u.qname := by
  by_cases hid : u.id = t.id
  · obtain rfl := Store.Holds.eq_of_id h.start.sound.handles (Store.holds_of_mem_types hu) h.held hid
    rw [updateAt_of_eq rfl, h.type]
  · rw [updateAt_of_ne hid]
    rfl

/-- A wrapper with a name that nothing in its place has is apart from all. -/
theorem apart_append (h : Separating nested s t log s' t')
    (hw : ∀ u ∈ if nested then t'.inner else s'.types, NamesApart nested u w) :
    (WrapLog.wrappers (log ++ [((i, j), w)])).Pairwise (NamesApart nested) ∧
      ∀ v ∈ WrapLog.wrappers (log ++ [((i, j), w)]), ∀ u ∈ if nested then t.inner else s.types,
        NamesApart nested u v := by
  have hwrappers : WrapLog.wrappers (log ++ [((i, j), w)]) = log.wrappers ++ [w] := by
    rw [WrapLog.wrappers, List.map_append, List.map_singleton]
    rfl
  rw [hwrappers]
  constructor
  · refine List.pairwise_append.mpr ⟨h.apart, List.pairwise_singleton _ _, fun v hv w' hw' => ?_⟩
    obtain rfl := List.mem_singleton.mp hw'
    refine hw v ?_
    cases nested with
    | true =>
      rw [h.type]
      exact List.mem_append_right _ hv
    | false =>
      rw [if_neg Bool.false_ne_true, h.types]
      exact List.mem_append_right _ hv
  · intro v hv u hu
    obtain hv | hv := List.mem_append.mp hv
    · exact h.names v hv u hu
    · obtain rfl := List.mem_singleton.mp hv
      cases nested with
      | true =>
        refine hw u ?_
        rw [h.type]
        exact List.mem_append_left _ hu
      | false =>
        have hnew := hw (u.updateAt t.id fun _ => t') (by
          rw [if_neg Bool.false_ne_true, h.types]
          exact List.mem_append_left _ (List.mem_map_of_mem hu))
        rwa [NamesApart, if_neg Bool.false_ne_true, h.qname_updateAt hu] at hnew

theorem wrappers_append (log : WrapLog) (i j : Nat) (w : SchemaType) :
    WrapLog.wrappers (log ++ [((i, j), w)]) = log.wrappers ++ [w] := by
  rw [WrapLog.wrappers, List.map_append, List.map_singleton]
  rfl

theorem lt_next (h : Separating nested s t log s' t') : t.id < s'.nextHandle := by
  have hlt := h.start.sound.below _ (mem_handles_iff.mpr ⟨t, h.held, rfl⟩)
  rw [h.next]
  exact Int.lt_of_lt_of_le hlt (Int.le_add_of_nonneg_right (Int.natCast_nonneg _))

/-- Nothing of a wrapper is changed at the handle of the type. -/
theorem updateAt_wrapper {g : SchemaType → SchemaType} (h : Separating nested s t log s' t')
    {p : (Nat × Nat) × SchemaType} (hp : p ∈ log) : p.2.updateAt t.id g = p.2 := by
  have hinner : p.2.inner = [] := by
    rw [h.wrapped p hp]
    rfl
  have hid : p.2.id ∈ log.wrappers.map (·.id) := List.mem_map_of_mem (List.mem_map_of_mem hp)
  rw [h.handles] at hid
  obtain ⟨n, -, hn⟩ := List.mem_map.mp hid
  have hlt := Int.lt_of_lt_of_le (h.start.sound.below _ (mem_handles_iff.mpr ⟨t, h.held, rfl⟩))
    (Int.le_add_of_nonneg_right (Int.natCast_nonneg n))
  rw [hn] at hlt
  rw [updateAt_of_ne (Int.ne_of_gt hlt), hinner, List.map_nil, ← hinner, withInner_self]

/-- A choice is wrapped in a new inner type. -/
theorem append_nested (h : Separating true s t log s' t') (hplace : (i, j) ∉ log.places)
    (hw : w = { (t'.choiceAt i j).wrapperType t' w.qname with id := w.id, localType := false })
    (hid : w.id = s'.nextHandle) (hname : ∀ u ∈ t'.inner, Name.key u.name ≠ Name.key w.name) :
    Separating true s t (log ++ [((i, j), w)])
      (({ s' with nextHandle := s'.nextHandle + 1 }.update t.id fun u => { u with inner := u.inner ++ [w] }).update t.id
        (referAt i j (.ofWrapper true w)))
      (referAt i j (.ofWrapper true w) { t' with inner := t'.inner ++ [w] }) := by
  have hinner : w.inner = [] := by
    rw [hw]
    rfl
  have hh : t.id ∈ s'.handles := mem_handles_iff.mpr ⟨t', h.holds, h.owner_id⟩
  obtain ⟨hapart, hnames⟩ := h.apart_append (w := w) (i := i) (j := j) hname
  have hg : Extends (referAt i j (.ofWrapper true w) ∘ fun u => { u with inner := u.inner ++ [w] }) [w] :=
    ⟨fun _ => rfl, fun _ => rfl, fun _ => rfl, fun _ => rfl⟩
  have hupdate := update_update (f := fun u : SchemaType => { u with inner := u.inner ++ [w] })
    (g := referAt i j (.ofWrapper true w)) (fun _ => rfl) { s' with nextHandle := s'.nextHandle + 1 } t.id
  constructor
  case start => exact h.start
  case held => exact h.held
  case regular => exact (h.regular.wrap_inner hh hinner hid).1
  case config => exact h.config
  case holds =>
    rw [hupdate]
    have hholds := holds_update (h := t.id) hg (s := { s' with nextHandle := s'.nextHandle + 1 })
      h.regular.sound.handles h.holds
    rwa [updateAt_of_eq h.owner_id] at hholds
  case type =>
    rw [wrappers_append, WrapLog.rewire_append hplace, referAt, h.type]
    simp
  case types =>
    rw [hupdate, types_update, if_pos rfl, List.append_nil]
    change s'.types.map _ = _
    rw [h.types, if_pos rfl, List.append_nil, List.map_map]
    exact List.map_congr_left fun u _ => updateAt_replaced h.owner_id u
  case next =>
    change s'.nextHandle + 1 = _
    rw [h.next, List.length_append, List.length_singleton, Int.natCast_add, Int.add_assoc]
    rfl
  case handles => exact h.handles_append hid
  case wrapped => exact h.wrapped_append hplace hw
  case apart => exact hapart
  case names => exact hnames

/-- A choice is wrapped in a new root. -/
theorem append_root (h : Separating false s t log s' t') (hplace : (i, j) ∉ log.places)
    (hw : w = { (t'.choiceAt i j).wrapperType t' w.qname with id := w.id, localType := true })
    (hid : w.id = s'.nextHandle) (hname : ∀ u ∈ s'.types, u.qname ≠ w.qname) :
    Separating false s t (log ++ [((i, j), w)])
      (({ s' with nextHandle := s'.nextHandle + 1 }.insert w).update t.id (referAt i j (.ofWrapper false w)))
      (referAt i j (.ofWrapper false w) t') := by
  have hinner : w.inner = [] := by
    rw [hw]
    rfl
  obtain ⟨hapart, hnames⟩ := h.apart_append (w := w) (i := i) (j := j) hname
  have hhandles : w.handles = [s'.nextHandle] := by
    rw [handles_eq, hinner, hid, List.flatMap_nil]
  have hinsert : ({ s' with nextHandle := s'.nextHandle + 1 }.insert w).types = s'.types ++ [w] ∧
      ({ s' with nextHandle := s'.nextHandle + 1 }.insert w).nextHandle = s'.nextHandle + 1 ∧
      ({ s' with nextHandle := s'.nextHandle + 1 }.insert w).config = s'.config := by
    rw [insert_eq (s := { s' with nextHandle := s'.nextHandle + 1 }) h.regular.keys,
      assignHandles_of_handles (h.regular.zero_not_mem hhandles)]
    exact ⟨List.map_append, rfl, rfl⟩
  obtain ⟨htypes, hnext, hconfig⟩ := hinsert
  have hsame : w.updateAt t.id (referAt i j (.ofWrapper false w)) = w := by
    rw [updateAt_of_ne (hid ▸ Int.ne_of_gt h.lt_next), hinner, List.map_nil, ← hinner, withInner_self]
  constructor
  case start => exact h.start
  case held => exact h.held
  case regular => exact (h.regular.wrap_root hinner hid).1
  case config => exact hconfig.trans h.config
  case holds =>
    obtain ⟨r, hr, hwithin⟩ := h.holds
    have hholds := holds_update (h := t.id) (extends_referAt i j (.ofWrapper false w))
      (h.regular.insert hhandles).sound.handles ⟨r, htypes ▸ List.mem_append_left _ hr, hwithin⟩
    rwa [updateAt_of_eq h.owner_id] at hholds
  case type =>
    rw [WrapLog.rewire_append hplace, referAt, h.type]
    simp
  case types =>
    rw [types_update, htypes, List.map_append, List.map_singleton, hsame, h.types, wrappers_append,
      if_neg Bool.false_ne_true, if_neg Bool.false_ne_true, List.map_append, List.map_map, List.append_assoc]
    congr 1
    · exact List.map_congr_left fun u _ => updateAt_replaced h.owner_id u
    · congr 1
      refine (List.map_congr_left fun v hv => ?_).trans (List.map_id' _)
      obtain ⟨p, hp, rfl⟩ := List.mem_map.mp hv
      exact h.updateAt_wrapper hp
  case next =>
    refine hnext.trans ?_
    rw [h.next, List.length_append, List.length_singleton, Int.natCast_add, Int.add_assoc]
    rfl
  case handles => exact h.handles_append hid
  case wrapped => exact h.wrapped_append hplace hw
  case apart => exact hapart
  case names => exact hnames

/-- Wrapping a choice that has not been wrapped yet. -/
theorem wp_wrapChoice (h : Separating nested s t log s' t') (hplace : (i, j) ∉ log.places)
    (hnested : s.config.output.unnestClasses = !nested) :
    wp (wrapChoice t.id i j) (fun _ s'' => ∃ w t'', Separating nested s t (log ++ [((i, j), w)]) s'' t'')
      (fun _ _ => False) s' := by
  have hget : s'.get? t.id = some t' := h.owner_id ▸ get?_of_holds h.regular.sound.handles h.holds
  unfold wrapChoice fieldOf
  rw [wp_bind, wp_typeOf hget, wp_bind, wp_bind, wp_typeOf hget, wp_pure, wp_bind, wp_modifyGet, wp_bind, wp_get]
  cases nested with
  | true =>
    rw [if_neg (by rw [h.config, hnested]; decide), wp_bind, wp_update]
    unfold updateField
    rw [wp_update]
    exact ⟨_, _, h.append_nested hplace rfl rfl fun u hu => t'.key_freeInnerName_ne _ hu⟩
  | false =>
    rw [if_pos (by rw [h.config, hnested]; decide), wp_bind, wp_get, wp_bind, wp_modify]
    unfold updateField
    rw [wp_update]
    exact ⟨_, _, h.append_root hplace rfl rfl fun u hu => freeRootName_ne h.regular.sound _ hu⟩

/-- Wrapping some choices of a field. -/
theorem wp_forM_wrapChoice (h : Separating nested s t log s' t')
    (hnested : s.config.output.unnestClasses = !nested) {js : List Nat} (hjs : js.Nodup)
    (hplaces : ∀ j ∈ js, (i, j) ∉ log.places) :
    wp (js.forM (wrapChoice t.id i)) (fun _ s'' => ∃ log' t'', Separating nested s t log' s'' t'' ∧
      log'.places = log.places ++ js.map fun j => (i, j)) (fun _ _ => False) s' := by
  induction js generalizing log s' t' with
  | nil =>
    rw [List.forM_eq_forM, List.forM_nil, wp_pure]
    exact ⟨log, t', h, (List.append_nil _).symm⟩
  | cons j js ih =>
    obtain ⟨hj, hjs⟩ := List.nodup_cons.mp hjs
    obtain ⟨hplace, hplaces⟩ := List.forall_mem_cons.mp hplaces
    rw [List.forM_eq_forM, List.forM_cons, wp_bind]
    refine wp_mono (h.wp_wrapChoice hplace hnested) ?_ fun _ _ => id
    rintro - s'' ⟨w, t'', h'⟩
    have hlog : WrapLog.places (log ++ [((i, j), w)]) = log.places ++ [(i, j)] := by
      rw [WrapLog.places, List.map_append, List.map_singleton]
      rfl
    refine wp_mono (ih h' hjs fun j' hj' hmem => ?_) ?_ fun _ _ => id
    · rw [hlog] at hmem
      obtain hmem | hmem := List.mem_append.mp hmem
      · exact hplaces j' hj' hmem
      · obtain rfl : j' = j := congrArg Prod.snd (List.mem_singleton.mp hmem)
        exact hj hj'
    · rintro - s₃ ⟨log', t₃, h₃, hplaces'⟩
      refine ⟨log', t₃, h₃, ?_⟩
      rw [hplaces', hlog, List.append_assoc, List.map_cons]
      rfl

theorem wp_separateChoices (h : Separating nested s t log s' t') (hnested : s.config.output.unnestClasses = !nested)
    (hi : t.fields[i]? = some f) (hplaces : ∀ j, (i, j) ∉ log.places) :
    wp (separateChoices t.id i) (fun _ s'' => ∃ log' t'', Separating nested s t log' s'' t'' ∧
      log'.places = log.places ++ f.ambiguous.map fun j => (i, j)) (fun _ _ => False) s' := by
  have hget : s'.get? t.id = some t' := h.owner_id ▸ get?_of_holds h.regular.sound.handles h.holds
  have hfield : t'.fields[i]? = some f := by
    rw [h.type]
    exact (WrapLog.rewire_of_not_mem nested t.fields hplaces).trans hi
  unfold separateChoices fieldOf
  rw [wp_bind, wp_bind, wp_typeOf hget, wp_pure, hfield, Option.getD_some]
  have hwrap := h.wp_forM_wrapChoice hnested f.nodup_ambiguous fun j _ => hplaces j
  unfold Field.ambiguous at hwrap ⊢
  split
  case isTrue hsome =>
    rw [if_pos hsome] at hwrap
    exact hwrap
  case isFalse hnone =>
    rw [wp_pure]
    exact ⟨log, t', h, (List.append_nil _).symm⟩

theorem wp_forM_separateChoices (h : Separating nested s t log s' t')
    (hnested : s.config.output.unnestClasses = !nested) {is : List Nat} (his : is.Nodup)
    (hbelow : ∀ i ∈ is, i < t.fields.length) (hplaces : ∀ i ∈ is, ∀ j, (i, j) ∉ log.places) :
    wp (is.forM (separateChoices t.id)) (fun _ s'' => ∃ log' t'', Separating nested s t log' s'' t'' ∧
      log'.places = log.places ++ is.flatMap fun i => (t.fields[i]?.getD {}).ambiguous.map fun j => (i, j))
      (fun _ _ => False) s' := by
  induction is generalizing log s' t' with
  | nil =>
    rw [List.forM_eq_forM, List.forM_nil, wp_pure]
    exact ⟨log, t', h, (List.append_nil _).symm⟩
  | cons i is ih =>
    obtain ⟨hi, his⟩ := List.nodup_cons.mp his
    obtain ⟨hlt, hbelow⟩ := List.forall_mem_cons.mp hbelow
    obtain ⟨hplace, hplaces⟩ := List.forall_mem_cons.mp hplaces
    have hfield := List.getElem?_eq_getElem hlt
    rw [List.forM_eq_forM, List.forM_cons, wp_bind]
    refine wp_mono (h.wp_separateChoices hnested hfield hplace) ?_ fun _ _ => id
    rintro - s'' ⟨log', t'', h', hlog⟩
    refine wp_mono (ih h' his hbelow fun i' hi' j hmem => ?_) ?_ fun _ _ => id
    · rw [hlog] at hmem
      obtain hmem | hmem := List.mem_append.mp hmem
      · exact hplaces i' hi' j hmem
      · obtain ⟨j', -, heq⟩ := List.mem_map.mp hmem
        obtain rfl : i = i' := congrArg Prod.fst heq
        exact hi hi'
    · rintro - s₃ ⟨log₃, t₃, h₃, hlog₃⟩
      refine ⟨log₃, t₃, h₃, ?_⟩
      rw [hlog₃, hlog, List.append_assoc, List.flatMap_cons, hfield, Option.getD_some]

/-- A choice has been wrapped exactly if it is ambiguous. -/
theorem mem_places_iff (hplaces : log.places =
    (List.range t.fields.length).flatMap fun i => (t.fields[i]?.getD {}).ambiguous.map fun j => (i, j))
    (hi : t.fields[i]? = some f) : (i, j) ∈ log.places ↔ j ∈ f.ambiguous := by
  have hlt : i < t.fields.length := (List.getElem?_eq_some_iff.mp hi).1
  simp only [hplaces, List.mem_flatMap, List.mem_range, List.mem_map, Prod.mk.injEq]
  constructor
  · rintro ⟨i', -, j', hj', rfl, rfl⟩
    rwa [hi] at hj'
  · exact fun hj => ⟨i, hlt, j, by rwa [hi], rfl, rfl⟩

theorem mem_of_lookup {p : Nat × Nat} (hp : log.lookup p = some w) : (p, w) ∈ log := by
  obtain ⟨l₁, l₂, rfl, -⟩ := List.lookup_eq_some_iff.mp hp
  exact List.mem_append_right _ List.mem_cons_self

theorem refer_cases (h : Separating nested s t log s' t') (hi : t.fields[i]? = some f) (hj : f.choices[j]? = some c) :
    (i, j) ∉ log.places ∧ log.refer nested i j c = c ∨
    ∃ w, ((i, j), w) ∈ log ∧ c.WrappedIn w (log.refer nested i j c) := by
  cases hlookup : log.lookup (i, j) with
  | none =>
    have hnot := WrapLog.lookup_eq_none_iff.mp hlookup
    exact .inl ⟨hnot, WrapLog.refer_of_not_mem hnot c⟩
  | some w =>
    have hmem := mem_of_lookup hlookup
    have hw := h.wrapped _ hmem
    have hchoice : t.choiceAt i j = c := by simp [SchemaType.choiceAt, hi, hj]
    refine .inr ⟨w, hmem, ?_⟩
    rw [WrapLog.refer, hlookup]
    dsimp only at hw
    rw [hchoice] at hw
    exact c.wrappedIn_wrapperType t nested (by rw [hw]; rfl) (by rw [hw]; rfl)

theorem next_le (h : Separating nested s t log s' t') {p : (Nat × Nat) × SchemaType} (hp : p ∈ log) :
    s.nextHandle ≤ p.2.id := by
  have hid : p.2.id ∈ log.wrappers.map (·.id) := List.mem_map_of_mem (List.mem_map_of_mem hp)
  rw [h.handles] at hid
  obtain ⟨n, -, hn⟩ := List.mem_map.mp hid
  rw [← hn]
  exact Int.le_add_of_nonneg_right (Int.natCast_nonneg n)

theorem eq_of_handle_eq (h : Separating nested s t log s' t') {p p' : (Nat × Nat) × SchemaType} (hp : p ∈ log)
    (hp' : p' ∈ log) (hid : p.2.id = p'.2.id) : p = p' := by
  have hnodup : (log.map fun p => p.2.id).Nodup := by
    have hhandles := h.handles
    rw [WrapLog.wrappers, List.map_map] at hhandles
    change (log.map ((·.id) ∘ (·.2))).Nodup
    rw [hhandles]
    refine List.Nodup.map (fun a b hab => ?_) List.nodup_range
    exact Int.ofNat_inj.mp (Int.add_left_cancel hab)
  exact List.inj_on_of_nodup_map hnodup hp hp' hid

/-- After all ambiguous choices of a compound have been wrapped, no target occurs twice. -/
theorem nodup_targetKeys (h : Separating nested s t log s' t') (hi : t.fields[i]? = some f)
    (hplaces : ∀ j, (i, j) ∈ log.places ↔ ∃ c, f.choices[j]? = some c ∧ Recurs f.choices c)
    (hbound : ∀ c ∈ f.choices, ∀ ft ∈ c.types, ft.native = false → ft.reference ∈ s.handles) :
    ((f.choices.mapIdx fun j c => log.refer nested i j c).flatMap Field.targetKeys).Nodup := by
  have hkept : ∀ j c, f.choices[j]? = some c → (i, j) ∉ log.places → ¬ Recurs f.choices c := fun j c hj hnot hrecurs =>
    hnot ((hplaces j).mpr ⟨c, hj, hrecurs⟩)
  have hkeys : ∀ j c w, ((i, j), w) ∈ log → c.WrappedIn w (log.refer nested i j c) →
      (log.refer nested i j c).targetKeys = [.bound w.id] := fun j c w hw hwrapped =>
    hwrapped.targetKeys (Int.ne_of_gt (Int.lt_of_lt_of_le h.start.positive (h.next_le hw)))
  -- a choice that is left alone is bound to a type that was there before
  have hold : ∀ c ∈ f.choices, ∀ w p, (p, w) ∈ log → TargetKey.bound w.id ∉ c.targetKeys := by
    intro c hc w p hp hmem
    obtain ⟨ft, hft, hnative, hreference⟩ := Field.exists_of_bound_mem_targetKeys hmem
    have hlt := h.start.sound.below _ (hbound c hc ft hft hnative)
    rw [hreference] at hlt
    exact Int.lt_irrefl _ (Int.lt_of_lt_of_le hlt (h.next_le hp))
  refine List.nodup_flatMap.mpr ⟨fun c' hc' => ?_, List.pairwise_iff_getElem.mpr fun a b ha hb hab => ?_⟩
  · obtain ⟨j, hj, rfl⟩ := List.mem_mapIdx.mp hc'
    have hget := List.getElem?_eq_getElem hj
    obtain ⟨hnot, heq⟩ | ⟨w, hw, hwrapped⟩ := h.refer_cases hi hget
    · rw [heq]
      exact nodup_targetKeys_of_not_recurs (List.getElem_mem hj) (hkept j _ hget hnot)
    · rw [hkeys j _ w hw hwrapped]
      exact List.nodup_singleton _
  · rw [List.length_mapIdx] at ha hb
    rw [List.getElem_mapIdx, List.getElem_mapIdx, Function.onFun_apply]
    have hgeta := List.getElem?_eq_getElem ha
    have hgetb := List.getElem?_eq_getElem hb
    obtain ⟨hnota, heqa⟩ | ⟨w, hw, hwrapped⟩ := h.refer_cases hi hgeta <;>
      obtain ⟨hnotb, heqb⟩ | ⟨v, hv, hwrapped'⟩ := h.refer_cases hi hgetb
    case inl.inl =>
      have hpairs := List.pairwise_iff_getElem.mp (pairwise_disjoint_of_not_recurs f.choices) a b ha hb hab
      rw [heqa, heqb]
      exact hpairs (hkept a _ hgeta hnota)
    case inl.inr =>
      rw [heqa, hkeys b _ v hv hwrapped']
      exact List.disjoint_singleton.mpr (hold _ (List.getElem_mem ha) v _ hv)
    case inr.inl =>
      rw [heqb, hkeys a _ w hw hwrapped]
      exact List.singleton_disjoint.mpr (hold _ (List.getElem_mem hb) w _ hw)
    case inr.inr =>
      rw [hkeys a _ w hw hwrapped, hkeys b _ v hv hwrapped']
      refine List.singleton_disjoint.mpr fun hmem => ?_
      have hid : w.id = v.id := TargetKey.bound.inj (List.mem_singleton.mp hmem)
      have heq := congrArg (fun p : (Nat × Nat) × SchemaType => p.1.2) (h.eq_of_handle_eq hw hv hid)
      exact absurd heq (Nat.ne_of_lt hab)

end Separating

-- ---------------------------------------------------------------------------
-- The pass
-- ---------------------------------------------------------------------------

/-- A field of which the choices can be told apart: of a compound with several choices, those with a target
that recurs have been wrapped, and nothing else has changed. -/
structure Field.Distinguished (wrappers : List SchemaType) (f f' : Field) : Prop where
  same : f' = { f with choices := f'.choices }
  plain : ¬ (f.isChoice = true ∧ 1 < f.choices.length) → f' = f
  keys : f.isChoice = true → 1 < f.choices.length → (f'.choices.flatMap Field.targetKeys).Nodup
  choices : f.isChoice = true → 1 < f.choices.length →
    List.Forall₂ (fun c c' => (¬ Recurs f.choices c ∧ c' = c) ∨
      (Recurs f.choices c ∧ ∃ w ∈ wrappers, c.WrappedIn w c')) f.choices f'.choices

/-- A store in which the choices of a type can be told apart. All that has changed is the type, and the
wrappers have come in: as roots, or as inner types of the type if they are nested. They have new handles, and
names that nothing else in their place has. -/
structure Store.Distinguished (s : Store) (t : SchemaType) (wrappers : List SchemaType) (s' : Store)
    (t' : SchemaType) : Prop where
  regular : s'.Regular
  holds : s'.Holds t'
  type : t' = { t with
    fields := t'.fields
    inner := t.inner ++ if s.config.output.unnestClasses then [] else wrappers }
  types : s'.types = s.types.map (·.updateAt t.id fun _ => t') ++
    if s.config.output.unnestClasses then wrappers else []
  fields : List.Forall₂ (Field.Distinguished wrappers) t.fields t'.fields
  new : ∀ w ∈ wrappers, w.id ∉ s.handles
  distinct : (wrappers.map (·.id)).Nodup
  rootNames : s.config.output.unnestClasses = true → ∀ w ∈ wrappers, ∀ u ∈ s'.types, u ≠ w → u.qname ≠ w.qname
  innerNames : s.config.output.unnestClasses = false → ∀ w ∈ wrappers, ∀ u ∈ t'.inner, u ≠ w →
    Name.key u.name ≠ Name.key w.name

theorem Separating.distinguished_fields {nested : Bool} {log : WrapLog} (h : Separating nested s t log s' t')
    (hplaces : log.places =
      (List.range t.fields.length).flatMap fun i => (t.fields[i]?.getD {}).ambiguous.map fun j => (i, j))
    (hbound : ∀ f ∈ t.fields, ∀ c ∈ f.choices, ∀ ft ∈ c.types, ft.native = false → ft.reference ∈ s.handles) :
    List.Forall₂ (Field.Distinguished log.wrappers) t.fields t'.fields := by
  rw [h.type]
  refine Lists.forall₂_mapIdx fun i f hi => ?_
  have hplace : ∀ j, (i, j) ∈ log.places ↔
      (f.isChoice = true ∧ 1 < f.choices.length) ∧ ∃ c, f.choices[j]? = some c ∧ Recurs f.choices c := fun j =>
    (mem_places_iff hplaces hi).trans Field.mem_ambiguous_iff
  constructor
  case same => rfl
  case plain =>
    intro hplain
    have hnot : ∀ j, (i, j) ∉ log.places := fun j hmem => hplain ((hplace j).mp hmem).1
    have hsame := WrapLog.rewire_of_not_mem nested t.fields hnot
    rw [WrapLog.rewire, List.getElem?_mapIdx, hi, Option.map_some] at hsame
    exact Option.some.inj hsame
  case keys =>
    intro hchoice hseveral
    refine h.nodup_targetKeys hi (fun j => ?_) (hbound f (List.mem_of_getElem? hi))
    exact (hplace j).trans (and_iff_right ⟨hchoice, hseveral⟩)
  case choices =>
    intro hchoice hseveral
    refine Lists.forall₂_mapIdx fun j c hj => ?_
    have hrecurs : (i, j) ∈ log.places ↔ Recurs f.choices c := by
      rw [hplace, and_iff_right ⟨hchoice, hseveral⟩]
      simp [hj]
    obtain ⟨hnot, heq⟩ | ⟨w, hw, hwrapped⟩ := h.refer_cases hi hj
    · exact .inl ⟨fun hr => hnot (hrecurs.mpr hr), heq⟩
    · exact .inr ⟨hrecurs.mp (List.mem_map_of_mem hw), w, List.mem_map_of_mem hw, hwrapped⟩

instance (nested : Bool) : Std.Symm (NamesApart nested) where
  symm u w h := by
    unfold NamesApart at h ⊢
    split
    · rw [if_pos ‹_›] at h
      exact h.symm
    · rw [if_neg ‹_›] at h
      exact h.symm

/-- Different wrappers have different names, whichever comes first. -/
theorem Separating.wrappers_apart {nested : Bool} {log : WrapLog} (h : Separating nested s t log s' t')
    {u : SchemaType} (hu : u ∈ log.wrappers) (hw : w ∈ log.wrappers) (hne : u ≠ w) : NamesApart nested u w :=
  h.apart.forall hu hw hne

/-- The choices of the compounds of a type can be told apart when the pass has ended, by kind of value or by
the type that they are bound to. -/
theorem separateAlternatives_distinguishes (hs : s.Regular) (ht : s.Holds t)
    (hbound : ∀ f ∈ t.fields, ∀ c ∈ f.choices, ∀ ft ∈ c.types, ft.native = false → ft.reference ∈ s.handles) :
    wp (separateAlternatives t.id) (fun _ s' => ∃ wrappers t', s.Distinguished t wrappers s' t')
      (fun _ _ => False) s := by
  generalize hnested : (!s.config.output.unnestClasses) = nested
  have hunnest : s.config.output.unnestClasses = !nested := by rw [← hnested, Bool.not_not]
  have hget : s.get? t.id = some t := get?_of_holds hs.sound.handles ht
  unfold separateAlternatives
  rw [wp_bind, wp_typeOf hget]
  refine wp_mono ((separating_nil nested hs ht).wp_forM_separateChoices hunnest List.nodup_range
    (fun i hi => List.mem_range.mp hi) fun i _ j => List.not_mem_nil) ?_ fun _ _ => id
  rintro - s' ⟨log, t', h, hplaces⟩
  refine ⟨log.wrappers, t', ?_⟩
  constructor
  case regular => exact h.regular
  case holds => exact h.holds
  case type =>
    rw [hunnest]
    cases nested
    · exact h.type ▸ rfl
    · exact h.type ▸ rfl
  case types =>
    rw [hunnest, h.types]
    cases nested
    · rfl
    · rfl
  case fields => exact h.distinguished_fields hplaces hbound
  case new =>
    intro w hw hmem
    obtain ⟨p, hp, rfl⟩ := List.mem_map.mp hw
    exact Int.lt_irrefl _ (Int.lt_of_lt_of_le (hs.sound.below _ hmem) (h.next_le hp))
  case distinct =>
    rw [h.handles]
    exact List.Nodup.map (fun a b hab => Int.ofNat_inj.mp (Int.add_left_cancel hab)) List.nodup_range
  case rootNames =>
    intro htrue w hw u hu hne
    obtain rfl : nested = false := by rw [← hnested, htrue]; rfl
    rw [h.types] at hu
    obtain hu | hu := List.mem_append.mp hu
    · obtain ⟨u₀, hu₀, rfl⟩ := List.mem_map.mp hu
      rw [h.qname_updateAt hu₀]
      exact h.names w hw u₀ hu₀
    · exact h.wrappers_apart hu hw hne
  case innerNames =>
    intro hfalse w hw u hu hne
    obtain rfl : nested = true := by rw [← hnested, hfalse]; rfl
    rw [h.type] at hu
    obtain hu | hu := List.mem_append.mp hu
    · exact h.names w hw u hu
    · exact h.wrappers_apart hu hw hne

namespace Separated

def base : SchemaType :=
  Shadowed.record 1 "B" [] []

def choice (name : String) (types : List FieldType) : Field :=
  { tag := .element, name, types }

/-- Two of the choices have a type of the same kind, and one of these has another type too. -/
def owner : SchemaType :=
  Shadowed.record 2 "A"
    [{ tag := .choice, name := "choice", choices :=
      [choice "a" [.ofNative Native.string],
        choice "b" [.ofNative ⟨Native.ns, "token"⟩, { qname := base.qname, reference := base.id }],
        choice "c" [.ofNative ⟨Native.ns, "boolean"⟩]] }] []

def store : Store :=
  Shadowed.storeOf [base, owner]

/-- The types of each choice, and the texts and the bases of each inner type, by name. -/
structure Shape where
  choices : List (List QName)
  wrappers : List (List QName × List QName)
deriving DecidableEq

def shape (t : SchemaType) : Shape where
  choices := t.fields.flatMap fun f => f.choices.map fun c => c.types.map (·.qname)
  wrappers := t.inner.map fun w =>
    (w.fields.flatMap fun f => f.types.map (·.qname), w.extensions.map (·.type.qname))

theorem owner_distinguished : store.Regular ∧ store.Holds owner ∧
    (∀ f ∈ owner.fields, ∀ c ∈ f.choices, ∀ ft ∈ c.types, ft.native = false → ft.reference ∈ store.handles) ∧
    wp (separateAlternatives owner.id) (fun _ s' => ∃ wrappers t', store.Distinguished owner wrappers s' t' ∧
      shape t' = ⟨[[⟨"urn:t", "a"⟩], [⟨"urn:t", "b"⟩], [⟨Native.ns, "boolean"⟩]],
        [([Native.string], []), ([⟨Native.ns, "token"⟩], [base.qname])]⟩) (fun _ _ => False) store := by
  have hregular : store.Regular :=
    Shadowed.regular_storeOf (by decide +kernel) (by decide +kernel) (by decide +kernel)
  have hroots : store.types = [base, owner] := rfl
  have hheld : store.Holds owner := Store.holds_of_mem_types (hroots ▸ List.mem_cons_of_mem _ List.mem_cons_self)
  have hbound : ∀ f ∈ owner.fields, ∀ c ∈ f.choices, ∀ ft ∈ c.types, ft.native = false →
      ft.reference ∈ store.handles := by
    decide +kernel
  have hrun : wp (separateAlternatives owner.id) (fun _ s' => (s'.get? owner.id).map shape =
      some ⟨[[⟨"urn:t", "a"⟩], [⟨"urn:t", "b"⟩], [⟨Native.ns, "boolean"⟩]],
        [([Native.string], []), ([⟨Native.ns, "token"⟩], [base.qname])]⟩) (fun _ _ => False) store := by
    decide +kernel
  refine ⟨hregular, hheld, hbound, wp_mono (wp_and hrun
    (separateAlternatives_distinguishes hregular hheld hbound)) ?_ fun _ _ h => h.1⟩
  rintro - s' ⟨hshape, wrappers, t', h⟩
  have hid : t'.id = owner.id := by rw [h.type]
  refine ⟨wrappers, t', h, ?_⟩
  rw [← hid, get?_of_holds h.regular.sound.handles h.holds] at hshape
  exact Option.some.inj hshape

end Separated

end Schemata
