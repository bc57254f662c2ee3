import Schemata.Proofs.Step.Sequential

/-!
# Progress of a sequential step

A step that works on the types one by one, from raw to done, leaves every other type as it is or done.
`Store.Progress` says so of a part of a run, `active` being the type that is worked on meanwhile.
`Store.Change` is a change at one type that begins it or leaves it begun, and may give it copies of
begun types as inner types.
-/

namespace Schemata

open Compile SchemaType

/-- Nothing has been done with the type, or all of it. -/
def SchemaType.Advances (done : Status) (u u' : SchemaType) : Prop :=
  u'.status = u.status ∧ u'.fields = u.fields ∧ u'.extensions = u.extensions ∨
    u.status = .raw ∧ u'.status = done

theorem SchemaType.Advances.trans {done : Status} {u u' u'' : SchemaType} (hdone : done ≠ .raw)
    (h : Advances done u u') (h' : Advances done u' u'') : Advances done u u'' := by
  obtain ⟨hstatus, hfields, hbases⟩ | ⟨hraw, hend⟩ := h
  · obtain ⟨hstatus', hfields', hbases'⟩ | ⟨hraw', hend'⟩ := h'
    · exact .inl ⟨hstatus'.trans hstatus, hfields'.trans hfields, hbases'.trans hbases⟩
    · exact .inr ⟨hstatus ▸ hraw', hend'⟩
  · obtain ⟨hstatus', -⟩ | ⟨hraw', -⟩ := h'
    · exact .inr ⟨hraw, hstatus'.trans hend⟩
    · exact absurd (hend.symm.trans hraw') hdone

namespace Store

variable {busy done : Status} {s s' s'' : Store} {t u v : SchemaType} {active : Option Handle}
  {h next : Handle} {g : SchemaType → SchemaType} {extra : List SchemaType}

/-- What a step makes of a store, while it works on the type `active`. -/
structure Progress (busy done : Status) (active : Option Handle) (s s' : Store) : Prop where
  outline : s'.roots.map Entry.outline = s.roots.map Entry.outline
  types : ∀ u, s.Holds u → ∃ u', s'.Holds u' ∧ u'.id = u.id ∧
    u'.pending busy ⊆ u.pending busy ∧ (some u.id ≠ active → u.Advances done u')

namespace Progress

theorem refl (active : Option Handle) (s : Store) : Progress busy done active s s :=
  ⟨rfl, fun u hu => ⟨u, hu, rfl, List.Subset.refl _, fun _ => .inl ⟨rfl, rfl, rfl⟩⟩⟩

theorem trans (hdone : done ≠ .raw) (h : Progress busy done active s s')
    (h' : Progress busy done active s' s'') : Progress busy done active s s'' := by
  refine ⟨h'.outline.trans h.outline, fun u hu => ?_⟩
  obtain ⟨u', hu', hid, hsub, hadvances⟩ := h.types u hu
  obtain ⟨u'', hu'', hid', hsub', hadvances'⟩ := h'.types u' hu'
  refine ⟨u'', hu'', hid'.trans hid, List.Subset.trans hsub' hsub, fun hne => ?_⟩
  exact (hadvances hne).trans hdone (hadvances' (hid ▸ hne))

theorem grows (h : Progress busy done active s s') : s.Grows busy s' := by
  refine ⟨h.outline, fun u hu => ?_⟩
  obtain ⟨u', hu', hid, hsub, -⟩ := h.types u hu
  exact ⟨u', hu', hid, hsub⟩

theorem of_none (hnone : Progress busy done none s s') (active : Option Handle) :
    Progress busy done active s s' := by
  refine ⟨hnone.outline, fun u hu => ?_⟩
  obtain ⟨u', hu', hid, hsub, hadvances⟩ := hnone.types u hu
  exact ⟨u', hu', hid, hsub, fun _ => hadvances nofun⟩

/-- What is begun stays as it is, except the type that is worked on. -/
theorem begun (hprogress : Progress busy done active s s') (hbusy : Status.raw < busy)
    (hu : s.Holds u) (hbegun : ¬ u.status < busy) (hne : some u.id ≠ active) :
    ∃ u', s'.Holds u' ∧ u'.id = u.id ∧ u'.status = u.status ∧ u'.fields = u.fields ∧
      u'.extensions = u.extensions := by
  obtain ⟨u', hu', hid, -, hadvances⟩ := hprogress.types u hu
  obtain hsame | ⟨hraw, -⟩ := hadvances hne
  · exact ⟨u', hu', hid, hsame⟩
  · exact absurd (hraw ▸ hbusy) hbegun

/-- When the work on a type has come to its end, all types have advanced. -/
theorem finish (hs : s.Sound) (hs' : s'.Sound) (hsome : Progress busy done (some t.id) s s')
    (ht : s.Holds t) (hraw : t.status = .raw) (hu : s'.Holds u) (hid : u.id = t.id)
    (hdone : u.status = done) : Progress busy done none s s' := by
  refine ⟨hsome.outline, fun v hv => ?_⟩
  obtain ⟨v', hv', hid', hsub, hadvances⟩ := hsome.types v hv
  refine ⟨v', hv', hid', hsub, fun _ => ?_⟩
  by_cases hvt : v.id = t.id
  · obtain rfl := hv.eq_of_id hs.handles ht hvt
    obtain rfl := hv'.eq_of_id hs'.handles hu (hid'.trans hid.symm)
    exact .inr ⟨hraw, hdone⟩
  · exact hadvances fun heq => hvt (Option.some.inj heq)

theorem length_pending_lt (hs' : s'.handles.Nodup) (hprogress : Progress busy done active s s')
    (hh : h ∈ s.pending busy) (hend : h ∉ s'.pending busy) :
    (s'.pending busy).length < (s.pending busy).length :=
  hprogress.grows.length_pending_lt hs' hh hend

end Progress

/-- A change of a type that begins it or leaves it begun. What it adds has new handles and is begun. -/
structure Change (busy : Status) (s : Store) (g : SchemaType → SchemaType)
    (extra : List SchemaType) (next : Handle) : Prop where
  keeps : Extends g extra
  status : ∀ u, (g u).status < busy → u.status < busy
  numbered : Numbered (extra.flatMap SchemaType.handles) s.nextHandle next
  begun : ∀ x ∈ extra, ∀ v, Within v x → ¬ v.status < busy

namespace Change

theorem plain (s : Store) (hg : Extends g [])
    (hstatus : ∀ u, (g u).status < busy → u.status < busy) :
    s.Change busy g [] s.nextHandle where
  keeps := hg
  status := hstatus
  numbered := ⟨Int.le_refl _, .nil, fun _ hh => absurd hh List.not_mem_nil⟩
  begun _ hx := absurd hx List.not_mem_nil

theorem setStatus (s : Store) {st : Status} (hst : ¬ st < busy) :
    s.Change busy (fun t => { t with status := st }) [] s.nextHandle :=
  .plain s ⟨fun _ => rfl, fun _ => rfl, fun _ => rfl, fun t => (List.append_nil t.inner).symm⟩
    fun _ hlt => absurd hlt hst

/-- A copy of a type with nothing to do in it can be added. -/
theorem copy (s : Store) (hv : v.pending busy = []) :
    s.Change busy (fun t => { t with inner := t.inner ++ [(v.clone s.nextHandle).1] })
      [(v.clone s.nextHandle).1] (v.clone s.nextHandle).2 where
  keeps := ⟨fun _ => rfl, fun _ => rfl, fun _ => rfl, fun _ => rfl⟩
  status _ hlt := hlt
  numbered := by
    rw [List.flatMap_singleton]
    exact numbered_clone v s.nextHandle
  begun x hx w hw := by
    rw [List.mem_singleton.mp hx] at hw
    obtain ⟨u, hu, hstatus, -⟩ := within_clone hw
    rw [hstatus]
    exact pending_eq_nil_iff.mp hv u hu

theorem pending_subset (hc : s.Change busy g extra next) (h : Handle) (u : SchemaType) :
    (u.updateAt h g).pending busy ⊆ u.pending busy := by
  have hextra : extra.flatMap (SchemaType.pending busy) = [] :=
    List.flatMap_eq_nil_iff.mpr fun x hx => pending_eq_nil_iff.mpr (hc.begun x hx)
  exact (hc.keeps.widens.pending_updateAt_sublist (fun u _ => hc.status u) hextra u).subset

theorem progress (hc : s.Change busy g extra next) (done : Status) (hs : s.handles.Nodup)
    (h : Handle) :
    Progress busy done (some h) s ({ s with nextHandle := next }.update h g) := by
  refine ⟨outline_update hc.keeps _ h, fun u hu => ?_⟩
  refine ⟨u.updateAt h g, holds_update hc.keeps hs hu, hc.keeps.widens.updateAt_id u, hc.pending_subset h u,
    fun hne => ?_⟩
  rw [updateAt_of_ne fun hid => hne (congrArg some hid)]
  exact .inl ⟨rfl, rfl, rfl⟩

theorem sound (hc : s.Change busy g extra next) (hs : s.Sound) (ht : s.Holds t) :
    Sound ({ s with nextHandle := next }.update t.id g) :=
  hs.update hc.keeps (mem_handles_iff.mpr ⟨t, ht, rfl⟩) hc.numbered

theorem holds (hc : s.Change busy g extra next) (hs : s.Sound) (ht : s.Holds t) :
    ({ s with nextHandle := next }.update t.id g).Holds (g t) := by
  have hheld := holds_update (s := { s with nextHandle := next }) (h := t.id) hc.keeps hs.handles ht
  rwa [updateAt_of_eq rfl] at hheld

/-- What holds of every type, whatever is nested in it, holds after the change if it holds of the
changed type and of what is added. -/
theorem forall_holds (hc : s.Change busy g extra next) (hs : s.Sound) (ht : s.Holds t)
    {P : SchemaType → Prop} (hP : ∀ u inner, P u → P (u.withInner inner))
    (htypes : ∀ u, s.Holds u → u.id ≠ t.id → P u) (hself : P (g t))
    (hextra : ∀ x ∈ extra, ∀ v, Within v x → P v) (v : SchemaType)
    (hv : ({ s with nextHandle := next }.update t.id g).Holds v) : P v := by
  obtain ⟨u, hu, rfl⟩ | ⟨x, hx, hv⟩ := holds_of_update hc.keeps hs.handles hv
  · by_cases hid : u.id = t.id
    · obtain rfl := hu.eq_of_id hs.handles ht hid
      rwa [updateAt_of_eq rfl]
    · rw [updateAt_of_ne hid]
      exact hP _ _ (htypes u hu hid)
  · exact hextra x hx v hv

/-- What is nested in begun types stays begun, when this is so of the changed type. -/
theorem closed (hc : s.Change busy g extra next) (hs : s.Sound) (hclosed : s.Closed busy)
    (ht : s.Holds t) (hinner : t.inner.flatMap (SchemaType.pending busy) = []) :
    Closed busy ({ s with nextHandle := next }.update t.id g) := by
  intro v hv hbegun
  obtain ⟨u, hu, rfl⟩ | ⟨x, hx, hv⟩ := holds_of_update hc.keeps hs.handles hv
  · by_cases hid : u.id = t.id
    · obtain rfl := hu.eq_of_id hs.handles ht hid
      rw [updateAt_of_eq rfl] at hbegun ⊢
      rw [SchemaType.pending_eq, if_neg hbegun, hc.keeps.inner, List.flatMap_append, hinner,
        List.nil_append, List.nil_append]
      exact List.flatMap_eq_nil_iff.mpr fun x hx => pending_eq_nil_iff.mpr (hc.begun x hx)
    · have hsub := hc.pending_subset t.id u
      rw [updateAt_of_ne hid] at hsub hbegun ⊢
      exact List.subset_nil.mp (hclosed u hu hbegun ▸ hsub)
  · exact pending_eq_nil_iff.mpr fun w hw => hc.begun x hx w (hw.trans hv)

end Change

theorem Closed.inner_pending (hclosed : s.Closed busy) (ht : s.Holds t) (hbegun : ¬ t.status < busy) :
    t.inner.flatMap (SchemaType.pending busy) = [] := by
  have hnil := hclosed t ht hbegun
  rw [SchemaType.pending_eq] at hnil
  exact (List.append_eq_nil_iff.mp hnil).2

end Store

namespace Discipline

variable {D : Discipline} {s : Store} {t src : SchemaType} {rounds : Nat}
  {process : Handle → Compile Unit} {J : Store → Prop}

/-- The store in which a copy of a type has been added to the inner types of another. -/
def withCopy (s : Store) (h : Handle) (v : SchemaType) : Store :=
  { s with nextHandle := (v.clone s.nextHandle).2 }.update h fun t =>
    { t with inner := t.inner ++ [(v.clone s.nextHandle).1] }

/-- Borrowing from a begun type adds a copy of something nested in it, or nothing. -/
theorem runs_borrow (hs : D.Inv s) (ht : s.Holds t) (hsrc : s.Holds src)
    (hbegun : ¬ src.status < D.busy) (q : QName) (hallowed : D.Allowed (innerNotFound src q).cause)
    (hJ : J s) (hcopy : ∀ c ∈ src.inner, ∀ v, Within v c → v.pending D.busy = [] →
      D.Inv (withCopy s t.id v) ∧ D.Leads s (withCopy s t.id v) ∧ J (withCopy s t.id v)) :
    D.conduct.Runs (borrow (.processing D.busy rounds process) src.id t.id q) s fun _ => J := by
  unfold Schemata.borrow
  refine Discipline.typeOf_bind hs ht ?_
  cases t.innerNamed? q with
  | some c => exact .pure hs hJ
  | none =>
    refine .bind (Discipline.findInner hs hsrc hbegun q hallowed rounds) fun r s' _ _ hr => ?_
    obtain ⟨rfl, c, hc, v, hv, rfl⟩ := hr
    refine Discipline.typeOf_bind hs (hsrc.within (.inner hc hv)) ?_
    have hdone : v.pending D.busy = [] := pending_eq_nil_iff.mpr fun w hw =>
      pending_eq_nil_iff.mp (D.closed hs src hsrc hbegun) w (hw.trans (.inner hc hv))
    unfold Conduct.Runs
    rw [wp_bind, wp_modifyGet, wp_bind, wp_update, wp_pure]
    exact hcopy c hc v hv hdone

end Discipline

end Schemata
