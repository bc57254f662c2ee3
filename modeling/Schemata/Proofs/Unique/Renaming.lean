import Schemata.Proofs.Binding.Vacuum
import Schemata.Proofs.Store.Whole

/-!
# Renaming of roots

A root that gets another name takes all links along that lead to its handle. Since none of these was
unbound, renaming binds no link and unbinds none.
-/

namespace Schemata

open SchemaType

variable {s s' : Store} {t u : SchemaType} {e : Entry} {h : Handle} {q : QName} {b : Prop}

namespace SchemaType

theorem shallow_retarget (h : Handle) (q : QName) : Shallow (retarget h q) :=
  ⟨fun _ => rfl, fun _ _ => rfl⟩

/-- What renaming makes of a type. -/
def following (h : Handle) (q : QName) (t : SchemaType) : SchemaType :=
  retarget h q { t with qname := if t.id = h then q else t.qname }

theorem shallow_following (h : Handle) (q : QName) : Shallow (following h q) :=
  ⟨fun _ => rfl, fun _ _ => rfl⟩

theorem qname_following (h : Handle) (q : QName) (t : SchemaType) :
    (t.mapTree (following h q)).qname = if t.id = h then q else t.qname := by
  rw [(shallow_following h q).mapTree_eq_withInner]
  rfl

theorem links_following (h : Handle) (q : QName) (t : SchemaType) :
    (t.mapTree (following h q)).links = t.links.map (Link.follow h q) := by
  rw [(shallow_following h q).mapTree_eq_withInner]
  exact links_retarget h q { t with qname := if t.id = h then q else t.qname }

end SchemaType

namespace Store

/-- A store after the root with a handle got another name and the links to it have followed. -/
structure Renames (h : Handle) (q : QName) (s s' : Store) : Prop where
  sound : s'.Sound
  keys : s'.KeysBelow
  nextHandle : s'.nextHandle = s.nextHandle
  rootKeys : s'.roots.map (·.key) = s.roots.map (·.key)
  root : ∃ t ∈ s.types, t.id = h
  forth : ∀ ⦃u⦄, s.Holds u → ∃ u', s'.Holds u' ∧ u'.id = u.id ∧
    u'.qname = (if u.id = h then q else u.qname) ∧ u'.links = u.links.map (Link.follow h q)
  back : ∀ ⦃u'⦄, s'.Holds u' → ∃ u, s.Holds u ∧ u'.id = u.id ∧
    u'.qname = (if u.id = h then q else u.qname) ∧ u'.links = u.links.map (Link.follow h q)
  roots : ∀ t' ∈ s'.types, ∃ t ∈ s.types, t'.id = t.id ∧
    t'.qname = if t.id = h then q else t.qname

theorem Renames.has_iff (hr : Renames h q s s') {k : Handle} {p : QName} :
    s'.Has k p ↔ if k = h then p = q else s.Has k p := by
  split
  case isTrue hk =>
    constructor
    · rintro ⟨v', hv', hid, rfl⟩
      obtain ⟨v, -, hid', hqname, -⟩ := hr.back hv'
      rw [hqname, if_pos (hid'.symm.trans (hid.trans hk))]
    · rintro rfl
      obtain ⟨t, ht, hid⟩ := hr.root
      obtain ⟨t', ht', hid', hqname, -⟩ := hr.forth (holds_of_mem_types ht)
      exact ⟨t', ht', hid'.trans (hid.trans hk.symm), hqname.trans (if_pos hid)⟩
  case isFalse hk =>
    constructor
    · rintro ⟨v', hv', rfl, rfl⟩
      obtain ⟨v, hv, hid, hqname, -⟩ := hr.back hv'
      exact ⟨v, hv, hid.symm, by rw [hqname, if_neg (hid ▸ hk)]⟩
    · rintro ⟨v, hv, rfl, rfl⟩
      obtain ⟨v', hv', hid, hqname, -⟩ := hr.forth hv
      exact ⟨v', hv', hid, hqname.trans (if_neg hk)⟩

theorem Settled.renames (hs : Settled b s) (hr : Renames h q s s') : Settled b s' where
  sound := hr.sound
  keys := hr.keys
  positive := hr.nextHandle ▸ hs.positive
  below u' hu' l' hl' := by
    obtain ⟨u, hu, -, -, hlinks⟩ := hr.back hu'
    obtain ⟨l, hl, rfl⟩ := List.mem_map.mp (hlinks ▸ hl')
    have htarget : (l.follow h q).target = l.target := by
      unfold Link.follow
      split
      · rfl
      · rfl
    rw [htarget, hr.nextHandle]
    exact hs.below hu l hl
  named u' hu' l' hl' t' ht' hid := by
    obtain ⟨u, hu, -, -, hlinks⟩ := hr.back hu'
    obtain ⟨l, hl, rfl⟩ := List.mem_map.mp (hlinks ▸ hl')
    obtain ⟨t, ht, hid', hqname⟩ := hr.roots t' ht'
    unfold Link.follow at hid ⊢
    split at hid
    case isTrue htarget =>
      rw [if_pos htarget, hqname, if_pos (hid'.symm.trans (hid.trans htarget))]
    case isFalse htarget =>
      rw [if_neg htarget, hqname, if_neg fun heq => htarget (hid.symm.trans (hid'.trans heq))]
      exact hs.named hu l hl t ht (hid'.symm.trans hid)
  allBound := by
    refine Iff.trans ?_ hs.allBound
    have hfollow : ∀ ⦃u⦄, s.Holds u → ∀ l ∈ u.links,
        (s'.Has (l.follow h q).target (l.follow h q).qname ↔ s.Has l.target l.qname) := by
      intro u hu l hl
      unfold Link.follow
      split
      case isTrue htarget =>
        rw [hr.has_iff, if_pos htarget]
        obtain ⟨t, ht, hid⟩ := hr.root
        exact iff_of_true rfl ⟨t, holds_of_mem_types ht, hid.trans htarget.symm,
          hs.named hu l hl t ht (hid.trans htarget.symm)⟩
      case isFalse htarget => rw [hr.has_iff, if_neg htarget]
    constructor
    · intro hall u hu l hl
      obtain ⟨u', hu', -, -, hlinks⟩ := hr.forth hu
      exact (hfollow hu l hl).mp (hall hu' _ (hlinks ▸ List.mem_map_of_mem hl))
    · intro hall u' hu' l' hl'
      obtain ⟨u, hu, -, -, hlinks⟩ := hr.back hu'
      obtain ⟨l, hl, rfl⟩ := List.mem_map.mp (hlinks ▸ hl')
      exact (hfollow hu l hl).mpr (hall hu l hl)

/-- The roots after one of them has been renamed: since handles differ, it is the only type that the
new name goes to. -/
theorem types_retarget_rename (hs : s.Sound) (he : e ∈ s.roots) (q : QName) :
    ((s.rename e.key q).retarget e.type.id q).roots =
      s.roots.map fun e' => { e' with type := e'.type.mapTree (following e.type.id q) } := by
  have hrename : (s.rename e.key q).roots = s.roots.map fun e' =>
      if e'.key = e.key then { e' with type := { e'.type with qname := q } } else e' := by
    obtain ⟨byName, heq⟩ := rename_eq hs.keys he q
    rw [heq]
    rfl
  rw [retarget, hrename, List.map_map]
  refine List.map_congr_left fun e' he' => ?_
  rw [Function.comp_apply]
  have hmem := List.mem_map_of_mem (f := Entry.type) he
  have hmem' := List.mem_map_of_mem (f := Entry.type) he'
  have hself := SchemaType.mem_handles_iff.mpr ⟨e.type, .self, rfl⟩
  -- below the root nothing has its handle
  have hbelow : ∀ t : SchemaType, e.type.id ∉ t.handles →
      t.mapTree (SchemaType.retarget e.type.id q) = t.mapTree (following e.type.id q) := by
    intro t ht
    refine mapTree_congr fun u hu => ?_
    have hne : u.id ≠ e.type.id := fun hid => ht (hid ▸ hu)
    unfold following
    rw [if_neg hne]
    cases u
    rfl
  by_cases hkey : e'.key = e.key
  · obtain rfl := List.inj_on_of_nodup_map hs.keys he' he hkey
    have hinner : e'.type.inner.map (mapTree (SchemaType.retarget e'.type.id q)) =
        e'.type.inner.map (mapTree (following e'.type.id q)) :=
      List.map_congr_left fun c hc =>
        hbelow c (not_mem_handles_inner (nodup_handles_of_mem hs.handles hmem) hc)
    rw [if_pos rfl, (shallow_following _ q).mapTree_eq_withInner, ← hinner,
      (shallow_retarget _ q).mapTree_eq_withInner]
    unfold following
    rw [if_pos rfl]
  · rw [if_neg hkey, hbelow _ fun hmem'' => ?_]
    obtain heq := eq_of_mem_handles hs.handles hmem' hmem hmem'' hself
    exact hkey (eq_of_root_id hs he' he (congrArg (·.id) heq))

theorem Sound.rename (hs : s.Sound) (he : e ∈ s.roots) (q : QName) : (s.rename e.key q).Sound := by
  obtain ⟨byName, hrename⟩ := rename_eq hs.keys he q
  have hkeys : (s.updateEntry e.key fun t => { t with qname := q }).roots.map (·.key) =
      s.roots.map (·.key) := by
    simp only [updateEntry, List.map_map]
    refine List.map_congr_left fun e' _ => ?_
    rw [Function.comp_apply]
    split
    · rfl
    · rfl
  have hhandles : (s.updateEntry e.key fun t => { t with qname := q }).handles = s.handles := by
    simp only [Store.handles, types, updateEntry, List.map_map, List.flatMap_map]
    refine List.flatMap_congr fun e' _ => ?_
    rw [Function.comp_apply]
    split
    · rw [handles_eq, handles_eq e'.type]
    · rfl
  rw [hrename]
  constructor
  case keys => exact hkeys ▸ hs.keys
  case handles => exact (congrArg List.Nodup hhandles).mpr hs.handles
  case below => exact fun h hh => hs.below h (hhandles ▸ hh)
  case byName => exact hrename ▸ Indexed.rename hs.keys hs.byName e.key q
  case byHandle =>
    intro e' he'
    simp only [updateEntry, List.mem_map] at he'
    obtain ⟨e₀, he₀, rfl⟩ := he'
    refine Eq.trans ?_ (hs.byHandle e₀ he₀ |>.trans ?_)
    · split
      · rfl
      · rfl
    · split
      · rfl
      · rfl

theorem renameRoot_eq (hkeys : (s.roots.map (·.key)).Nodup) (he : e ∈ s.roots) (name : String) :
    s.renameRoot e.key name =
      ((s.rename e.key (e.type.qname.withName name)).retarget e.type.id
        (e.type.qname.withName name)).inform Code.renamedType e.type.qname.text ""
        ("renamed type " ++ e.type.qname.text ++ " to " ++ (e.type.qname.withName name).text) := by
  unfold renameRoot
  rw [typeOfKey?_of_mem hkeys he]

theorem Sound.retarget (hs : s.Sound) (h : Handle) (q : QName) : (s.retarget h q).Sound := by
  have hshallow := shallow_retarget h q
  have htypes : (s.retarget h q).types = s.types.map (mapTree (SchemaType.retarget h q)) := by
    rw [types, types, Store.retarget, List.map_map, List.map_map]
    rfl
  refine hs.of_outline ?_ (handles_of_mapTree hshallow htypes ▸ List.Sublist.refl _) rfl rfl rfl
  rw [Store.retarget, List.map_map]
  refine List.map_congr_left fun e _ => ?_
  simp only [Function.comp_apply, Entry.outline, hshallow.mapTree_eq_withInner]
  rfl

theorem KeysBelow.retarget (hs : s.KeysBelow) (h : Handle) (q : QName) : (s.retarget h q).KeysBelow := by
  intro e he
  obtain he | he := List.mem_append.mp he
  · obtain ⟨e₀, he₀, rfl⟩ := List.mem_map.mp he
    exact hs e₀ (List.mem_append_left _ he₀)
  · exact hs e (List.mem_append_right _ he)

/-- The roots after one of them has been renamed and the links to it have followed. -/
theorem types_renameRoot (hs : s.Sound) (he : e ∈ s.roots) (name : String) :
    (s.renameRoot e.key name).types =
      s.types.map (mapTree (following e.type.id (e.type.qname.withName name))) := by
  rw [renameRoot_eq hs.keys he]
  change ((s.rename e.key _).retarget e.type.id _).roots.map (·.type) = _
  rw [types_retarget_rename hs he, List.map_map, types, List.map_map]
  rfl

theorem Sound.renameRoot (hs : s.Sound) (he : e ∈ s.roots) (name : String) :
    (s.renameRoot e.key name).Sound := by
  rw [renameRoot_eq hs.keys he]
  have hretarget := (hs.rename he (e.type.qname.withName name)).retarget e.type.id (e.type.qname.withName name)
  exact ⟨hretarget.keys, hretarget.handles, hretarget.below, hretarget.byName, hretarget.byHandle⟩

theorem renames_renameRoot (hs : s.Sound) (hkeys : s.KeysBelow) (he : e ∈ s.roots) (name : String) :
    Renames e.type.id (e.type.qname.withName name) s (s.renameRoot e.key name) := by
  have heq := renameRoot_eq hs.keys he name
  have htypes := types_renameRoot hs he name
  have hsound := hs.renameRoot he name
  have hroots := types_retarget_rename hs he (e.type.qname.withName name)
  obtain ⟨byName, hrename⟩ := rename_eq hs.keys he (e.type.qname.withName name)
  generalize e.type.qname.withName name = q at heq htypes hroots hrename
  have hshallow := shallow_following e.type.id q
  constructor
  case sound => exact hsound
  case keys =>
    rw [heq, hrename]
    exact (hkeys.updateEntry e.key fun t => { t with qname := q }).retarget e.type.id q
  case nextHandle =>
    rw [heq, hrename]
    rfl
  case rootKeys =>
    rw [heq]
    change ((s.rename e.key q).retarget e.type.id q).roots.map (·.key) = _
    rw [hroots, List.map_map]
    rfl
  case root => exact ⟨e.type, List.mem_map_of_mem he, rfl⟩
  case forth =>
    intro u hu
    exact ⟨_, (holds_iff_of_mapTree hshallow htypes).mpr ⟨u, hu, rfl⟩, hshallow.mapTree_id u,
      qname_following _ _ u, links_following _ _ u⟩
  case back =>
    intro u' hu'
    obtain ⟨u, hu, rfl⟩ := (holds_iff_of_mapTree hshallow htypes).mp hu'
    exact ⟨u, hu, hshallow.mapTree_id u, qname_following _ _ u, links_following _ _ u⟩
  case roots =>
    intro t' ht'
    rw [htypes] at ht'
    obtain ⟨t, ht, rfl⟩ := List.mem_map.mp ht'
    exact ⟨t, ht, hshallow.mapTree_id t, qname_following _ _ t⟩

end Store

-- ---------------------------------------------------------------------------
-- All roots
-- ---------------------------------------------------------------------------

namespace TypeNaming

variable {n : TypeNaming} {scope : String} {group : List Entry}

/-- Naming in a store in which links are settled. Roots are renamed by entry number, and these are
the same all the time. -/
structure Settles (b : Prop) (s : Store) (n : TypeNaming) : Prop where
  settled : n.store.Settled b
  keys : n.store.roots.map (·.key) = s.roots.map (·.key)

theorem Settles.rename (hn : Settles b s n) (he : e ∈ s.roots) (name : String) :
    Settles b s (n.rename e name) := by
  obtain ⟨e', he', hkey⟩ := List.mem_map.mp (hn.keys ▸ List.mem_map_of_mem (f := Entry.key) he)
  have hrenames := Store.renames_renameRoot hn.settled.sound hn.settled.keys he' name
  rw [hkey] at hrenames
  exact ⟨hn.settled.renames hrenames, hrenames.rootKeys.trans hn.keys⟩

theorem Settles.take (hn : Settles b s n) (keys : List String) : Settles b s (n.take scope keys) :=
  ⟨hn.settled, hn.keys⟩

theorem Settles.numberOthers (hn : Settles b s n) (hgroup : group ⊆ s.roots) :
    Settles b s (n.numberOthers scope group) := by
  unfold TypeNaming.numberOthers
  dsimp only
  generalize hothers : group.filter _ = others
  have hsub : others ⊆ s.roots := hothers ▸ List.Subset.trans (List.filter_subset_self _) hgroup
  clear hothers
  induction others generalizing n with
  | nil => exact hn
  | cons e others ih =>
    obtain ⟨he, hsub⟩ := List.cons_subset.mp hsub
    exact ih ((hn.take _).rename he _) hsub

theorem Settles.settle (hn : Settles b s n) (hgroup : group ⊆ s.roots) :
    Settles b s (n.settle scope group) := by
  unfold TypeNaming.settle
  split
  case h_1 => exact hn
  case h_2 => exact hn
  case h_3 e e' =>
    cases htold : n.tellApart? scope e e' with
    | none => exact hn.numberOthers hgroup
    | some n' =>
      have htarget : (if e'.type.isElement then e else e') ∈ s.roots := by
        split
        · exact hgroup List.mem_cons_self
        · exact hgroup (List.mem_cons_of_mem _ List.mem_cons_self)
      unfold tellApart? at htold
      generalize (if e'.type.isElement then e else e') = target at htold htarget
      split at htold
      · cases htold
      dsimp only at htold
      split at htold
      · cases htold
      rw [← Option.some.inj htold]
      exact (hn.take _).rename htarget _
  case h_4 => exact hn.numberOthers hgroup

end TypeNaming

/-- Names of roots are given out without binding or unbinding a link. -/
theorem Store.Settled.nameTypes (hs : s.Settled b) : s.nameTypes.Settled b := by
  unfold Store.nameTypes
  dsimp only
  generalize hplaced : s.roots.map (fun e =>
    ((s.config.output.scope (sharedDirectories s.types) e.type, Name.key e.type.name), e)) = placed
  have hsub : ∀ group, (placed.filter (·.1 == group)).map (·.2) ⊆ s.roots := by
    intro group e he
    obtain ⟨p, hp, rfl⟩ := List.mem_map.mp he
    rw [← hplaced] at hp
    obtain ⟨e', he', rfl⟩ := List.mem_map.mp (List.mem_of_mem_filter hp)
    exact he'
  generalize (placed.map (·.1)).eraseDups = groups
  generalize hstart : TypeNaming.mk s _ = n
  have hn : n.Settles b s := hstart ▸ ⟨hs, rfl⟩
  clear hstart
  induction groups generalizing n with
  | nil => exact hn.settled
  | cons group groups ih => exact ih _ (hn.settle (hsub group))

end Schemata
