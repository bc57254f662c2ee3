import Schemata.Pipeline.Validation
import Schemata.Proofs.Store.Whole

/-!
# What validation does to references

Validation drops roots and changes others in two ways: a redefinition takes in the references of other
definitions of its name and construct, and a complex type becomes the element that names it. What is
nested in a root is never touched, so a reference to a nested type that was taken in can be left without
it. No other reference is: all else of a root was its own before.
-/

namespace Schemata

variable {s s' : Store} {e : Entry} {q : QName} {keys : List Nat}

namespace SchemaType

/-- Every reference to a nested type names a type that is nested in the type. -/
def Sheltered (t : SchemaType) : Prop :=
  ∀ ft ∈ t.fieldTypes, ft.forward = true → (t.nested? ft.qname).isSome

theorem fieldTypes_takeIn_subset (t earlier : SchemaType) :
    (t.takeIn earlier).fieldTypes ⊆ t.fieldTypes ++ earlier.fieldTypes := by
  intro ft hft
  simp only [fieldTypes, takeIn, List.mem_append, List.mem_flatMap, List.mem_map] at hft ⊢
  obtain ⟨f, ⟨g, hg, hf⟩, hft⟩ | ⟨b, ⟨b', hb', hb⟩, rfl⟩ := hft
  · split at hf
    · exact .inr (.inl ⟨f, hf, hft⟩)
    · obtain rfl := List.mem_singleton.mp hf
      obtain ⟨-, -, hinherited⟩ | hown := hg
      · exact .inr (.inl ⟨f, hinherited, hft⟩)
      · exact .inl (.inl ⟨f, hown, hft⟩)
  · split at hb
    · exact .inr (.inr ⟨b, hb, rfl⟩)
    · obtain rfl := List.mem_singleton.mp hb
      exact .inl (.inr ⟨b, hb', rfl⟩)

end SchemaType

/-- A root is another definition of the construct that a root defines. -/
structure Entry.Restates (e' e : Entry) : Prop where
  other : e'.key ≠ e.key
  qname : e'.type.qname = e.type.qname
  tag : e'.type.tag = e.type.tag

/-- A root as validation leaves it: references are its own or, in a redefinition, those of another
definition. -/
structure Entry.Derives (s : Store) (e₀ e : Entry) : Prop where
  key : e.key = e₀.key
  id : e.type.id = e₀.type.id
  qname : e.type.qname = e₀.type.qname
  container : e.type.container = e₀.type.container
  inner : e.type.inner = e₀.type.inner
  references : ∀ ft ∈ e.type.fieldTypes, ft ∈ e₀.type.fieldTypes ∨
    (e₀.type.container = .redefine ∧ ∃ e' ∈ s.roots, e'.Restates e₀ ∧ ft ∈ e'.type.fieldTypes)

theorem Entry.Derives.refl (s : Store) (e : Entry) : e.Derives s e :=
  ⟨rfl, rfl, rfl, rfl, rfl, fun _ hft => .inl hft⟩

namespace Store

/-- A store on the way through the definitions of a name: some roots are gone, those of the name have
changed and no others. -/
structure Sifts (s : Store) (q : QName) (s' : Store) : Prop where
  sound : s'.Sound
  derives : ∀ e ∈ s'.roots, ∃ e₀ ∈ s.roots, e₀.Derives s e
  others : ∀ e ∈ s'.roots, e.type.qname ≠ q → e ∈ s.roots

theorem Sifts.refl (hs : s.Sound) (q : QName) : s.Sifts q s :=
  ⟨hs, fun e he => ⟨e, he, .refl s e⟩, fun _ he _ => he⟩

theorem Sound.note (hs : s.Sound) (severity : Severity) (code type field message : String) :
    (s.note severity code type field message).Sound :=
  ⟨hs.keys, hs.handles, hs.below, hs.byName, hs.byHandle⟩

theorem Sifts.note (h : s.Sifts q s') (severity : Severity) (code type field message : String) :
    s.Sifts q (s'.note severity code type field message) :=
  ⟨h.sound.note severity code type field message, h.derives, h.others⟩

theorem Sifts.remove (h : s.Sifts q s') (hkeys : ∀ k ∈ keys, ∃ e ∈ s'.roots, e.key = k) :
    s.Sifts q (s'.remove keys) := by
  have hroots := roots_remove h.sound hkeys
  refine ⟨h.sound.remove hkeys, fun e he => ?_, fun e he => ?_⟩
  · rw [hroots] at he
    exact h.derives e (List.mem_of_mem_filter he)
  · rw [hroots] at he
    exact h.others e (List.mem_of_mem_filter he)

/-- A change of a type that keeps what it is found by and what is nested in it. -/
structure Keeps (g : SchemaType → SchemaType) : Prop where
  id : ∀ t, (g t).id = t.id
  qname : ∀ t, (g t).qname = t.qname
  inner : ∀ t, (g t).inner = t.inner
  container : ∀ t, (g t).container = t.container

theorem mem_roots_updateEntry {g : SchemaType → SchemaType} {key : Nat}
    (he : e ∈ (s.updateEntry key g).roots) :
    ∃ e₀ ∈ s.roots, e = if e₀.key = key then { e₀ with type := g e₀.type } else e₀ := by
  obtain ⟨e₀, he₀, rfl⟩ := List.mem_map.mp he
  exact ⟨e₀, he₀, rfl⟩

theorem Sound.changeEntry {g : SchemaType → SchemaType} (hs : s.Sound) (hg : Keeps g) (key : Nat) :
    (s.updateEntry key g).Sound := by
  have hentry : ∀ e : Entry, let e' := if e.key = key then { e with type := g e.type } else e
      e'.key = e.key ∧ e'.type.id = e.type.id ∧ e'.type.qname = e.type.qname ∧
        e'.type.inner = e.type.inner := by
    intro e
    dsimp only
    split
    · exact ⟨rfl, hg.id _, hg.qname _, hg.inner _⟩
    · exact ⟨rfl, rfl, rfl, rfl⟩
  have hkeys : (s.updateEntry key g).roots.map (·.key) = s.roots.map (·.key) := by
    rw [Store.updateEntry, List.map_map]
    exact List.map_congr_left fun e _ => (hentry e).1
  have hhandles : (s.updateEntry key g).handles = s.handles := by
    simp only [Store.handles, types, Store.updateEntry, List.map_map, List.flatMap_map]
    refine List.flatMap_congr fun e _ => ?_
    obtain ⟨-, hid, -, hinner⟩ := hentry e
    rw [SchemaType.handles_eq e.type, Function.comp_apply, SchemaType.handles_eq, hid, hinner]
  constructor
  case keys => exact hkeys ▸ hs.keys
  case handles => exact hhandles ▸ hs.handles
  case below => exact fun h hh => hs.below h (hhandles ▸ hh)
  case byName =>
    intro q
    refine (hs.byName q).trans ?_
    rw [namesakes, namesakes, Store.updateEntry, List.filter_map, List.map_map]
    have hfilter : s.roots.filter (·.type.qname == q) = s.roots.filter ((·.type.qname == q) ∘ fun e =>
        if e.key = key then { e with type := g e.type } else e) :=
      List.filter_congr fun e _ => by rw [Function.comp_apply, (hentry e).2.2.1]
    rw [hfilter]
    exact List.map_congr_left fun e _ => (hentry e).1.symm
  case byHandle =>
    intro e he
    obtain ⟨e₀, he₀, rfl⟩ := mem_roots_updateEntry he
    obtain ⟨hkey, hid, -, -⟩ := hentry e₀
    rw [hid, hkey]
    exact hs.byHandle e₀ he₀

/-- A root of the name is changed: what it refers to then has to be accounted for. -/
theorem Sifts.updateEntry {g : SchemaType → SchemaType} (h : s.Sifts q s') (hg : Keeps g)
    (he : e ∈ s.roots) (hq : e.type.qname = q)
    (hreferences : ∀ t : SchemaType, ∀ ft ∈ (g t).fieldTypes, ft ∈ t.fieldTypes ∨
      (e.type.container = .redefine ∧ ∃ e' ∈ s.roots, e'.Restates e ∧ ft ∈ e'.type.fieldTypes))
    (hkeys : (s.roots.map (·.key)).Nodup) : s.Sifts q (s'.updateEntry e.key g) where
  sound := h.sound.changeEntry hg e.key
  derives e' he' := by
    obtain ⟨e₁, he₁, rfl⟩ := mem_roots_updateEntry he'
    obtain ⟨e₀, he₀, hd⟩ := h.derives e₁ he₁
    split
    case isTrue hkey =>
      obtain rfl : e₀ = e := List.inj_on_of_nodup_map hkeys he₀ he (hd.key.symm.trans hkey)
      refine ⟨e₀, he₀, hd.key, (hg.id _).trans hd.id, (hg.qname _).trans hd.qname,
        (hg.container _).trans hd.container, (hg.inner _).trans hd.inner, fun ft hft => ?_⟩
      obtain hft | hft := hreferences e₁.type ft hft
      · exact hd.references ft hft
      · exact .inr hft
    case isFalse => exact ⟨e₀, he₀, hd⟩
  others e' he' hne := by
    obtain ⟨e₁, he₁, rfl⟩ := mem_roots_updateEntry he'
    split at hne
    case isTrue hkey =>
      obtain ⟨e₀, he₀, hd⟩ := h.derives e₁ he₁
      obtain rfl : e₀ = e := List.inj_on_of_nodup_map hkeys he₀ he (hd.key.symm.trans hkey)
      exact absurd ((hg.qname _).trans (hd.qname.trans hq)) hne
    case isFalse hkey =>
      rw [if_neg hkey]
      exact h.others e₁ he₁ hne

theorem keeps_takeIn (earlier : SchemaType) : Keeps (·.takeIn earlier) :=
  ⟨fun _ => rfl, fun _ => rfl, fun _ => rfl, fun _ => rfl⟩

theorem keeps_asElement (el : SchemaType) : Keeps (·.asElement el) :=
  ⟨fun _ => rfl, fun _ => rfl, fun _ => rfl, fun _ => rfl⟩

/-- A redefinition takes in other definitions. -/
theorem Sifts.takeIn {others : List Entry} (h : s.Sifts q s') (hkeys : (s.roots.map (·.key)).Nodup)
    (he : e ∈ s.roots) (hq : e.type.qname = q) (hredefine : e.type.container = .redefine)
    (hothers : ∀ e' ∈ others, e' ∈ s.roots ∧ e'.Restates e) :
    s.Sifts q (others.foldl (fun s e' => s.updateEntry e.key (·.takeIn e'.type)) s') := by
  induction others generalizing s' with
  | nil => exact h
  | cons e' others ih =>
    obtain ⟨he', hothers⟩ := List.forall_mem_cons.mp hothers
    refine ih (h.updateEntry (keeps_takeIn e'.type) he hq (fun t ft hft => ?_) hkeys) hothers
    obtain hft | hft := List.mem_append.mp (t.fieldTypes_takeIn_subset e'.type hft)
    · exact .inl hft
    · exact .inr ⟨hredefine, e', he'.1, he'.2, hft⟩

-- ---------------------------------------------------------------------------
-- The definitions of one name
-- ---------------------------------------------------------------------------

/-- Entries of a name that are roots all along, as they were at the start. -/
structure Candidates (s : Store) (q : QName) (s' : Store) (entries : List Entry) : Prop where
  given : entries.Sublist (s.roots.filter (·.type.qname == q))
  present : ∀ e ∈ entries, ∃ e' ∈ s'.roots, e'.key = e.key

theorem Candidates.mem {entries : List Entry} (h : s.Candidates q s' entries) (he : e ∈ entries) :
    e ∈ s.roots ∧ e.type.qname = q := by
  have hmem := List.mem_filter.mp (h.given.subset he)
  exact ⟨hmem.1, beq_iff_eq.mp hmem.2⟩

theorem sifts_dropInvalid (hs : s.Sound) {entries : List Entry}
    (hentries : entries = s.roots.filter (·.type.qname == q)) :
    s.Sifts q (s.dropInvalid entries).2 ∧
      s.Candidates q (s.dropInvalid entries).2 (s.dropInvalid entries).1 := by
  have hnotes : ∀ (es : List Entry) (f : Entry → String) (s₁ : Store), s.Sifts q s₁ →
      s₁.roots = s.roots → s.Sifts q (es.foldl (fun s e => s.warn Code.droppedInvalidType
        e.type.qname.text "" (f e)) s₁) ∧ (es.foldl (fun s e => s.warn Code.droppedInvalidType
        e.type.qname.text "" (f e)) s₁).roots = s.roots := by
    intro es f
    induction es with
    | nil => exact fun s₁ h hroots => ⟨h, hroots⟩
    | cons e es ih => exact fun s₁ h hroots => ih _ (h.note _ _ _ _ _) hroots
  unfold dropInvalid
  dsimp only
  obtain ⟨hsifts, hroots⟩ := hnotes (entries.filter fun e => s.hasDanglingBase e.type) _ s (.refl hs q) rfl
  generalize List.foldl _ s _ = s₁ at hsifts hroots
  have hsub : entries ⊆ s.roots := hentries ▸ List.filter_subset_self _
  have hdropped : ∀ k ∈ (entries.filter fun e => s.hasDanglingBase e.type).map (·.key),
      ∃ e ∈ s₁.roots, e.key = k := by
    intro k hk
    obtain ⟨e, he, rfl⟩ := List.mem_map.mp hk
    exact ⟨e, hroots ▸ hsub (List.mem_of_mem_filter he), rfl⟩
  refine ⟨hsifts.remove hdropped, hentries ▸ List.filter_sublist, fun e he => ⟨e, ?_, rfl⟩⟩
  obtain ⟨he, hkept⟩ := List.mem_filter.mp he
  rw [roots_remove hsifts.sound hdropped, hroots, List.mem_filter]
  refine ⟨hsub he, ?_⟩
  rw [Bool.not_eq_true', Bool.eq_false_iff, ne_eq, List.contains_iff_mem]
  intro hmem
  obtain ⟨e', he', hkey⟩ := List.mem_map.mp hmem
  obtain ⟨he', hdangling⟩ := List.mem_filter.mp he'
  obtain rfl := List.inj_on_of_nodup_map hs.keys (hsub he') (hsub he) hkey
  simp [hdangling] at hkept

theorem keys_foldl_updateEntry (s : Store) (key : Nat) (es : List Entry) (g : Entry → SchemaType → SchemaType) :
    (es.foldl (fun s e => s.updateEntry key (g e)) s).roots.map (·.key) = s.roots.map (·.key) := by
  induction es generalizing s with
  | nil => rfl
  | cons e es ih =>
    rw [List.foldl_cons, ih, updateEntry, List.map_map]
    refine List.map_congr_left fun e' _ => ?_
    rw [Function.comp_apply]
    split
    · rfl
    · rfl

theorem winner_mem {group : List Entry} (hne : group ≠ []) :
    ∃ won, group[(winner? group).getD (group.length - 1)]? = some won := by
  have hlt : (winner? group).getD (group.length - 1) < group.length := by
    cases hwinner : winner? group with
    | none => exact Nat.sub_lt (List.length_pos_iff.mpr hne) Nat.one_pos
    | some i =>
      rw [winner?, Option.or_eq_some_iff] at hwinner
      obtain hfind | ⟨-, hfind⟩ := hwinner
      · exact (List.findIdx?_eq_some_iff_getElem.mp hfind).1
      · exact (List.findIdx?_eq_some_iff_getElem.mp hfind).1
  exact ⟨_, List.getElem?_eq_getElem hlt⟩

/-- What is elected is a definition of the group, and what it takes in are the others. -/
theorem sifts_elect (h : s.Sifts q s') {tag : Tag} {group : List Entry} (hkeys : (s.roots.map (·.key)).Nodup)
    (hgroup : ∀ e ∈ group, e ∈ s.roots ∧ e.type.qname = q ∧ e.type.tag = tag)
    (hnodup : (group.map (·.key)).Nodup) (hne : group ≠ []) :
    s.Sifts q (s'.elect tag group).2 ∧
      (s'.elect tag group).2.roots.map (·.key) = s'.roots.map (·.key) := by
  obtain ⟨won, hwon⟩ := winner_mem hne
  have hmem : won ∈ group := List.mem_of_getElem? hwon
  obtain ⟨hroot, hq, htag⟩ := hgroup won hmem
  have hothers : ∀ e' ∈ group.eraseIdx ((winner? group).getD (group.length - 1)),
      e' ∈ s.roots ∧ e'.Restates won := by
    intro e' he'
    rw [List.mem_eraseIdx_iff_getElem?] at he'
    obtain ⟨j, hj, he'⟩ := he'
    obtain ⟨hroot', hq', htag'⟩ := hgroup e' (List.mem_of_getElem? he')
    refine ⟨hroot', fun hkey => hj ?_, hq'.trans hq.symm, htag'.trans htag.symm⟩
    have hlt : j < (group.map (·.key)).length := by
      rw [List.length_map]
      exact (List.getElem?_eq_some_iff.mp he').1
    refine (List.getElem?_inj hlt hnodup).mp ?_
    rw [List.getElem?_map, List.getElem?_map, he', hwon, Option.map_some, Option.map_some, hkey]
  have hstart : ∃ s₁, (if (winner? group).isSome then s' else s'.warn Code.duplicateType won.type.qname.text ""
      (toString group.length ++ " " ++ tag.text ++ " definitions, keeping the last one from " ++
        won.type.origin)) = s₁ ∧ s.Sifts q s₁ ∧ s₁.roots = s'.roots := by
    refine ⟨_, rfl, ?_⟩
    split
    · exact ⟨h, rfl⟩
    · exact ⟨h.note _ _ _ _ _, rfl⟩
  obtain ⟨s₁, hs₁, hsifts, hroots⟩ := hstart
  unfold elect
  dsimp only
  rw [hwon, Option.getD_some, hs₁]
  refine ⟨?_, ?_⟩
  · split
    · exact hsifts.takeIn hkeys hroot hq ‹_› hothers
    · exact hsifts
  · split
    · rw [keys_foldl_updateEntry, hroots]
    · rw [hroots]

/-- The definition that is kept of a construct, after those kept of others. -/
def electFor (entries : List Entry) (p : List Nat × Store) (tag : Tag) : List Nat × Store :=
  match entries.filter (·.type.tag == tag) with
  | [only] => (p.1 ++ [only.key], p.2)
  | group => (p.1 ++ [(p.2.elect tag group).1], (p.2.elect tag group).2)

theorem resolveDuplicates_eq (s : Store) (entries : List Entry) : s.resolveDuplicates entries =
    let p := (entries.map (·.type.tag)).eraseDups.foldl (electFor entries) ([], s)
    let s' := p.2.remove ((entries.map (·.key)).filter (!p.1.contains ·))
    ((entries.map (·.key)).filter p.1.contains |>.filterMap fun key =>
      (s'.typeOfKey? key).map fun t => ⟨key, t⟩, s') :=
  rfl

theorem sifts_foldl_electFor (hkeys : (s.roots.map (·.key)).Nodup) {entries : List Entry}
    (hentries : ∀ e ∈ entries, e ∈ s.roots ∧ e.type.qname = q) (hnodup : (entries.map (·.key)).Nodup)
    (tags : List Tag) (htags : tags ⊆ entries.map (·.type.tag)) {p : List Nat × Store}
    (h : s.Sifts q p.2) :
    s.Sifts q (tags.foldl (electFor entries) p).2 ∧
      (tags.foldl (electFor entries) p).2.roots.map (·.key) = p.2.roots.map (·.key) := by
  induction tags generalizing p with
  | nil => exact ⟨h, rfl⟩
  | cons tag tags ih =>
    obtain ⟨htag, htags⟩ := List.cons_subset.mp htags
    have hstep : s.Sifts q (electFor entries p tag).2 ∧
        (electFor entries p tag).2.roots.map (·.key) = p.2.roots.map (·.key) := by
      unfold electFor
      split
      case h_1 => exact ⟨h, rfl⟩
      case h_2 =>
        have hmembers : ∀ e ∈ entries.filter (·.type.tag == tag),
            e ∈ s.roots ∧ e.type.qname = q ∧ e.type.tag = tag := by
          intro e he
          obtain ⟨he, htag⟩ := List.mem_filter.mp he
          exact ⟨(hentries e he).1, (hentries e he).2, beq_iff_eq.mp htag⟩
        have hne : entries.filter (·.type.tag == tag) ≠ [] := by
          obtain ⟨e, he, rfl⟩ := List.mem_map.mp htag
          exact List.ne_nil_of_mem (List.mem_filter.mpr ⟨he, beq_self_eq_true _⟩)
        exact sifts_elect h hkeys hmembers (hnodup.sublist (List.filter_sublist.map _)) hne
    obtain ⟨hsifts, hsame⟩ := ih htags hstep.1
    exact ⟨hsifts, hsame.trans hstep.2⟩

theorem sifts_resolveDuplicates (hkeys : (s.roots.map (·.key)).Nodup) (h : s.Sifts q s')
    {entries : List Entry} (hc : s.Candidates q s' entries) :
    s.Sifts q (s'.resolveDuplicates entries).2 ∧
      ∀ e ∈ (s'.resolveDuplicates entries).1, e ∈ (s'.resolveDuplicates entries).2.roots ∧
        e.type.qname = q := by
  have hnodup : (entries.map (·.key)).Nodup :=
    hkeys.sublist ((hc.given.trans List.filter_sublist).map _)
  obtain ⟨hsifts, hsame⟩ := sifts_foldl_electFor hkeys (fun e he => hc.mem he) hnodup
    (entries.map (·.type.tag)).eraseDups (fun t ht => List.mem_eraseDups.mp ht) (p := ([], s')) h
  rw [resolveDuplicates_eq]
  generalize (entries.map (·.type.tag)).eraseDups.foldl (electFor entries) ([], s') = p at hsifts hsame
  obtain ⟨kept, s₁⟩ := p
  dsimp only at hsifts hsame ⊢
  have hpresent : ∀ k ∈ entries.map (·.key), ∃ e ∈ s₁.roots, e.key = k := by
    intro k hk
    obtain ⟨e, he, rfl⟩ := List.mem_map.mp hk
    obtain ⟨e', he', hkey⟩ := hc.present e he
    exact List.mem_map.mp (hsame ▸ hkey ▸ List.mem_map_of_mem (f := Entry.key) he')
  have hlosers : ∀ k ∈ (entries.map (·.key)).filter (!kept.contains ·), ∃ e ∈ s₁.roots, e.key = k :=
    fun k hk => hpresent k (List.mem_of_mem_filter hk)
  have hremove := hsifts.remove hlosers
  refine ⟨hremove, fun e he => ?_⟩
  obtain ⟨k, hk, he⟩ := List.mem_filterMap.mp he
  obtain ⟨hk, hkept⟩ := List.mem_filter.mp hk
  obtain ⟨e₁, he₁, rfl⟩ := hpresent k hk
  -- what is kept is still a root, and is found as it is
  have hmem : e₁ ∈ (s₁.remove ((entries.map (·.key)).filter (!kept.contains ·))).roots := by
    rw [roots_remove hsifts.sound hlosers, List.mem_filter]
    exact ⟨he₁, by simp [List.contains_iff_mem.mp hkept]⟩
  rw [typeOfKey?_of_mem hremove.sound.keys hmem, Option.map_some, Option.some.injEq] at he
  obtain rfl : e₁ = e := he
  refine ⟨hmem, ?_⟩
  obtain ⟨e₀, he₀, hd⟩ := hremove.derives e₁ hmem
  obtain ⟨e', he', hkey⟩ := List.mem_map.mp hk
  obtain ⟨hroot, hq⟩ := hc.mem he'
  obtain rfl := List.inj_on_of_nodup_map hkeys he₀ hroot (hd.key.symm.trans hkey.symm)
  exact hd.qname.trans hq

theorem sifts_mergeGlobal (hkeys : (s.roots.map (·.key)).Nodup) (h : s.Sifts q s') {entries : List Entry}
    (hentries : ∀ e ∈ entries, e ∈ s'.roots ∧ e.type.qname = q) : s.Sifts q (s'.mergeGlobal entries) := by
  unfold mergeGlobal
  split
  case h_1 el ct hel hct =>
    split
    case isTrue =>
      dsimp only
      have hel := hentries el (List.mem_of_find?_eq_some hel)
      have hct := hentries ct (List.mem_of_find?_eq_some hct)
      obtain ⟨e₀, he₀, hd⟩ := h.derives ct hct.1
      have hupdate := h.updateEntry (keeps_asElement el.type) he₀ (hd.qname.symm.trans hct.2)
        (fun t ft hft => .inl hft) hkeys
      rw [← hd.key] at hupdate
      refine (hupdate.note _ _ _ _ _).remove fun k hk => ?_
      obtain rfl := List.mem_singleton.mp hk
      refine ⟨_, List.mem_map_of_mem hel.1, ?_⟩
      split
      · rfl
      · rfl
    case isFalse => exact h
  case h_2 => exact h

theorem sifts_validateName (hs : s.Sound) (q : QName) : s.Sifts q (s.validateName q) := by
  unfold validateName
  dsimp only
  split
  case isTrue => exact .refl hs q
  case isFalse =>
    obtain ⟨hsifts, hkept⟩ := sifts_dropInvalid hs (hs.bucket q)
    split
    case isTrue => exact hsifts
    case isFalse =>
      obtain ⟨hsifts, hentries⟩ := sifts_resolveDuplicates hs.keys hsifts hkept
      exact sifts_mergeGlobal hs.keys hsifts hentries

-- ---------------------------------------------------------------------------
-- All names
-- ---------------------------------------------------------------------------

/-- A store on the way through the names: a root whose name is still to come is as it was. -/
structure Sorts (s : Store) (done : List QName) (s' : Store) : Prop where
  sound : s'.Sound
  derives : ∀ e ∈ s'.roots, ∃ e₀ ∈ s.roots, e₀.Derives s e
  waiting : ∀ e ∈ s'.roots, e.type.qname ∉ done → e ∈ s.roots

/-- Every name is come to once, so what its definitions take in is as it was at the start. -/
theorem Sorts.validateName {done : List QName} (h : s.Sorts done s') (hq : q ∉ done) :
    s.Sorts (q :: done) (s'.validateName q) := by
  have hsifts := sifts_validateName h.sound q
  refine ⟨hsifts.sound, fun e he => ?_, fun e he hnot => ?_⟩
  · by_cases hname : e.type.qname = q
    · obtain ⟨e₁, he₁, hd⟩ := hsifts.derives e he
      have hname₁ : e₁.type.qname = q := hd.qname.symm.trans hname
      refine ⟨e₁, h.waiting e₁ he₁ (hname₁ ▸ hq), hd.key, hd.id, hd.qname, hd.container, hd.inner,
        fun ft hft => ?_⟩
      refine (hd.references ft hft).imp_right ?_
      rintro ⟨hredefine, e', he', hrestates, hft⟩
      exact ⟨hredefine, e', h.waiting e' he' (hrestates.qname.trans hname₁ ▸ hq), hrestates, hft⟩
    · exact h.derives e (hsifts.others e he hname)
  · obtain ⟨hne, hnot⟩ := not_or.mp (List.mem_cons.not.mp hnot)
    exact h.waiting e (hsifts.others e he hne) hnot

theorem sorts_validate (hs : s.Sound) : ∃ done, s.Sorts done s.validate := by
  have hrun : ∀ (names done : List QName) (s' : Store), names.Nodup → (∀ q ∈ names, q ∉ done) →
      s.Sorts done s' → ∃ done', s.Sorts done' (names.foldl Store.validateName s') := by
    intro names
    induction names with
    | nil => exact fun done s' _ _ h => ⟨done, h⟩
    | cons q names ih =>
      intro done s' hnodup hnew h
      obtain ⟨hq, hnodup⟩ := List.nodup_cons.mp hnodup
      obtain ⟨hfirst, hnew⟩ := List.forall_mem_cons.mp hnew
      refine ih (q :: done) _ hnodup (fun q' hq' => ?_) (h.validateName hfirst)
      exact List.mem_cons.not.mpr (not_or.mpr ⟨fun heq => hq (heq ▸ hq'), hnew q' hq'⟩)
  exact hrun s.qnames [] s (Lists.nodup_eraseDups _) (fun _ _ => List.not_mem_nil)
    ⟨hs, fun e he => ⟨e, he, .refl s e⟩, fun _ he _ => he⟩

end Store

namespace SchemaType

theorem nested?_congr {t u : SchemaType} (hinner : t.inner = u.inner) (q : QName) :
    t.nested? q = u.nested? q := by
  rw [nested?, nested?, hinner]

end SchemaType

/-- A redefinition that has taken in a reference to a nested type from another definition, which has the
type nested. -/
structure Store.Uprooted (s : Store) (u : SchemaType) (ft : FieldType) (e₀ e' : Entry) : Prop where
  redefinition : e₀ ∈ s.roots
  other : e' ∈ s.roots
  id : e₀.type.id = u.id
  inner : e₀.type.inner = u.inner
  container : e₀.type.container = .redefine
  restates : e'.Restates e₀
  mem : ft ∈ e'.type.fieldTypes
  nested : (e'.type.nested? ft.qname).isSome

/-- Validation loses what a reference leads to only where a redefinition takes the reference in from
another definition, which has it nested. So nothing is lost when, for every redefinition, the references
to nested types of the other definitions find types of their names in it too. -/
theorem validate_shelters (hs : s.Sound) (hsheltered : ∀ ⦃u⦄, s.Holds u → u.Sheltered) :
    (∀ ⦃u⦄, s.validate.Holds u → ∀ ft ∈ u.fieldTypes, ft.forward = true → u.nested? ft.qname = none →
      ∃ e₀ e', s.Uprooted u ft e₀ e') ∧
    ((∀ e₀ ∈ s.roots, e₀.type.container = .redefine → ∀ e' ∈ s.roots, e'.Restates e₀ →
        ∀ ft ∈ e'.type.fieldTypes, ft.forward = true → (e₀.type.nested? ft.qname).isSome) →
      ∀ ⦃u⦄, s.validate.Holds u → u.Sheltered) := by
  have hlost : ∀ ⦃u⦄, s.validate.Holds u → ∀ ft ∈ u.fieldTypes, ft.forward = true →
      u.nested? ft.qname = none → ∃ e₀ e', s.Uprooted u ft e₀ e' := by
    intro u hu ft hft hforward hnone
    obtain ⟨done, hsorts⟩ := Store.sorts_validate hs
    obtain ⟨t, ht, hwithin⟩ := hu
    obtain ⟨e, he, rfl⟩ := List.mem_map.mp ht
    obtain ⟨e₀, he₀, hd⟩ := hsorts.derives e he
    have hroot : ∀ e' ∈ s.roots, s.Holds e'.type := fun e' he' =>
      Store.holds_of_mem_types (List.mem_map_of_mem he')
    cases hwithin with
    | self =>
      obtain hown | ⟨hredefine, e', he', hrestates, hft'⟩ := hd.references ft hft
      · have hsome := hsheltered (hroot e₀ he₀) ft hown hforward
        rw [← SchemaType.nested?_congr hd.inner, hnone] at hsome
        cases hsome
      · exact ⟨e₀, e', he₀, he', hd.id.symm, hd.inner.symm, hredefine, hrestates, hft',
          hsheltered (hroot e' he') ft hft' hforward⟩
    | inner hc hwithin =>
      -- what is nested was nested before
      have hsome := hsheltered ((hroot e₀ he₀).within (.inner (hd.inner ▸ hc) hwithin)) ft hft hforward
      rw [hnone] at hsome
      cases hsome
  refine ⟨hlost, fun hnested u hu ft hft hforward => ?_⟩
  by_contra hnone
  rw [Option.not_isSome_iff_eq_none] at hnone
  obtain ⟨e₀, e', h⟩ := hlost hu ft hft hforward hnone
  have hsome := hnested e₀ h.redefinition h.container e' h.other h.restates ft h.mem hforward
  rw [SchemaType.nested?_congr h.inner, hnone] at hsome
  cases hsome

namespace Uprooted

/-- The definition that is redefined has a type nested. -/
def earlier : SchemaType :=
  { qname := ⟨"urn:t", "A"⟩, tag := .complexType
    fields := [
      { name := "x", tag := .element, types := [{ qname := ⟨"urn:t", "I"⟩, forward := true }] }]
    inner := [{ qname := ⟨"urn:t", "I"⟩, tag := .complexType }] }

def redefinition : SchemaType :=
  { qname := ⟨"urn:t", "A"⟩, tag := .complexType, container := .redefine
    fields := [{ name := "y", tag := .element }]
    extensions := [{ tag := .extension, type := { qname := ⟨"urn:t", "A"⟩ } }] }

def store : Store :=
  ({} : Store).insertAll [earlier, redefinition]

/-- The redefinition that is left refers to a nested type and has none. -/
theorem validate_uproots : store.Sound ∧ (∀ ⦃u⦄, store.Holds u → u.Sheltered) ∧
    ¬ ∀ ⦃u⦄, store.validate.Holds u → u.Sheltered := by
  refine ⟨.insertAll (.empty _) (.empty _) (by decide), ?_⟩
  simp only [Store.holds_iff_mem_walkAll, SchemaType.Sheltered]
  decide +kernel

/-- The same with a redefinition that has a type of that name nested itself. -/
def rooted : Store :=
  ({} : Store).insertAll [earlier,
    { redefinition with inner := [{ qname := ⟨"urn:t", "I"⟩, tag := .complexType }] }]

theorem rooted_shelters : rooted.Sound ∧ (∀ ⦃u⦄, rooted.Holds u → u.Sheltered) ∧
    rooted.validate.types.map (·.fields.map (·.name)) = [["x", "y"]] ∧
    ∀ ⦃u⦄, rooted.validate.Holds u → u.Sheltered := by
  have hsound : rooted.Sound := .insertAll (.empty _) (.empty _) (by decide)
  have hsheltered : ∀ ⦃u⦄, rooted.Holds u → u.Sheltered := by
    simp only [Store.holds_iff_mem_walkAll, SchemaType.Sheltered]
    decide +kernel
  refine ⟨hsound, hsheltered, by decide +kernel, (validate_shelters hsound hsheltered).2 ?_⟩
  intro e₀ he₀ hredefine e' he' hrestates
  have hall : ∀ e₀ ∈ rooted.roots, e₀.type.container = .redefine → ∀ e' ∈ rooted.roots,
      e'.key ≠ e₀.key → ∀ ft ∈ e'.type.fieldTypes, ft.forward = true →
        (e₀.type.nested? ft.qname).isSome := by decide +kernel
  exact hall e₀ he₀ hredefine e' he' hrestates.other

end Uprooted

end Schemata
