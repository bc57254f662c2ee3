import Schemata.Proofs.Pipeline.Validation

/-!
# One definition of each construct

Validation comes to every name once. What it does to the roots of a name leaves all other roots as they
are, and the roots that stay keep their order: those without a base that exists go, of several
definitions of one construct one stays, and an element that is only another name for a complex type goes
when the complex type becomes that element. So no two of the roots that stay define the same construct.
-/

namespace Schemata

variable {s s' s'' : Store} {e : Entry} {q q' : QName} {keys : List Nat}

/-- What a root keeps through validation: entry number, handle and name. -/
def Entry.heading (e : Entry) : Nat × Handle × QName :=
  (e.key, e.type.id, e.type.qname)

namespace Store

/-- Entry numbers and handles tell roots apart, and the index by name says what the roots say. -/
structure Discerned (s : Store) : Prop where
  keys : (s.roots.map (·.key)).Nodup
  ids : (s.roots.map (·.type.id)).Nodup
  index : s.Indexed

/-- The roots of a name. -/
def named (s : Store) (q : QName) : List Entry :=
  s.roots.filter (·.type.qname == q)

theorem Discerned.bucket (hs : s.Discerned) (q : QName) : s.bucket q = s.named q :=
  hs.index.bucket hs.keys q

theorem mem_named_iff : e ∈ s.named q ↔ e ∈ s.roots ∧ e.type.qname = q := by
  rw [named, List.mem_filter, beq_iff_eq]

theorem namesakes_of_heading (hroots : s'.roots.map Entry.heading = s.roots.map Entry.heading) (q : QName) :
    s'.namesakes q = s.namesakes q := by
  have hnamesakes : ∀ s : Store, s.namesakes q =
      ((s.roots.map Entry.heading).filter (·.2.2 == q)).map (·.1) := by
    intro s
    rw [namesakes, List.filter_map, List.map_map]
    rfl
  rw [hnamesakes, hnamesakes, hroots]

theorem Discerned.eq_of_key {e' : Entry} (hs : s.Discerned) (he : e ∈ s.named q) (he' : e' ∈ s.named q')
    (hkey : e.key = e'.key) : e = e' :=
  List.inj_on_of_nodup_map hs.keys (mem_named_iff.mp he).1 (mem_named_iff.mp he').1 hkey

/-- Of a name whose roots are given, only the others stay. -/
theorem named_remove (hs : s.Discerned) (hkeys : ∀ k ∈ keys, ∃ e ∈ s.named q, e.key = k) :
    (s.remove keys).named q = (s.named q).filter fun e => !keys.contains e.key := by
  have hmem : ∀ k ∈ keys, ∃ e ∈ s.roots, e.key = k := fun k hk =>
    (hkeys k hk).imp fun e he => ⟨(mem_named_iff.mp he.1).1, he.2⟩
  rw [named, roots_remove_of_nodup hs.keys hs.ids hmem, List.filter_filter, named, List.filter_filter]
  exact List.filter_congr fun e _ => Bool.and_comm _ _

-- ---------------------------------------------------------------------------
-- Changes to the roots of one name
-- ---------------------------------------------------------------------------

/-- Only roots of the name are changed or go, and those that stay keep their headings and their order. -/
structure Trims (q : QName) (s s' : Store) : Prop where
  discerned : s'.Discerned
  headings : (s'.roots.map Entry.heading).Sublist (s.roots.map Entry.heading)
  others : s'.roots.filter (·.type.qname != q) = s.roots.filter (·.type.qname != q)

namespace Trims

theorem refl (hs : s.Discerned) (q : QName) : s.Trims q s :=
  ⟨hs, .refl _, rfl⟩

theorem trans (h : s.Trims q s') (h' : s'.Trims q s'') : s.Trims q s'' :=
  ⟨h'.discerned, h'.headings.trans h.headings, h'.others.trans h.others⟩

/-- Nothing but the journal changes. -/
theorem quiet (hs : s.Discerned) (q : QName) (journal : List Event) : s.Trims q { s with journal } :=
  ⟨⟨hs.keys, hs.ids, hs.index⟩, .refl _, rfl⟩

theorem named_of_ne (h : s.Trims q s') (hne : q' ≠ q) : s'.named q' = s.named q' := by
  have hnamed : ∀ s : Store,
      s.named q' = (s.roots.filter (·.type.qname != q)).filter (·.type.qname == q') := by
    intro s
    rw [named, List.filter_filter]
    refine List.filter_congr fun e _ => ?_
    by_cases hname : e.type.qname = q'
    · simp [hname, hne]
    · simp [hname]
  rw [hnamed, hnamed, h.others]

theorem remove (hs : s.Discerned) (hkeys : ∀ k ∈ keys, ∃ e ∈ s.named q, e.key = k) :
    s.Trims q (s.remove keys) := by
  have hmem : ∀ k ∈ keys, ∃ e ∈ s.roots, e.key = k := fun k hk =>
    (hkeys k hk).imp fun e he => ⟨(mem_named_iff.mp he.1).1, he.2⟩
  have hroots := roots_remove_of_nodup hs.keys hs.ids hmem
  have hsub : (s.remove keys).roots.Sublist s.roots := hroots ▸ List.filter_sublist
  refine ⟨⟨hs.keys.sublist (hsub.map _), hs.ids.sublist (hsub.map _), ?_⟩, hsub.map _, ?_⟩
  · exact hs.index.remove hs.keys hs.ids hmem
  · rw [hroots, List.filter_filter]
    refine List.filter_congr fun e he => ?_
    by_cases hk : e.key ∈ keys
    · obtain ⟨e', he', hkey⟩ := hkeys _ hk
      obtain ⟨he', hname⟩ := mem_named_iff.mp he'
      obtain rfl := List.inj_on_of_nodup_map hs.keys he' he hkey
      simp [hname]
    · simp [hk]

/-- A root of the name is changed, but not in what it is found by. -/
theorem updateEntry (hs : s.Discerned) {g : SchemaType → SchemaType} (hid : ∀ t, (g t).id = t.id)
    (hqname : ∀ t, (g t).qname = t.qname) (he : e ∈ s.named q) : s.Trims q (s.updateEntry e.key g) := by
  have hheadings : (s.updateEntry e.key g).roots.map Entry.heading = s.roots.map Entry.heading := by
    rw [Store.updateEntry, List.map_map]
    refine List.map_congr_left fun e' _ => ?_
    rw [Function.comp_apply]
    split
    · rw [Entry.heading, hid, hqname]
      rfl
    · rfl
  have hmapped : ∀ {α : Type} (f : Nat × Handle × QName → α),
      (s.updateEntry e.key g).roots.map (f ∘ Entry.heading) = s.roots.map (f ∘ Entry.heading) := by
    intro α f
    rw [← List.map_map, hheadings, List.map_map]
  constructor
  case discerned =>
    exact ⟨(hmapped (·.1)).symm ▸ hs.keys, (hmapped (·.2.1)).symm ▸ hs.ids, fun q' =>
      (hs.index q').trans (namesakes_of_heading hheadings q').symm⟩
  case headings => exact hheadings ▸ .refl _
  case others =>
    obtain ⟨he, hname⟩ := mem_named_iff.mp he
    rw [Store.updateEntry, List.filter_map]
    have hname' : ∀ e' ∈ s.roots, ((·.type.qname != q) ∘ fun e' : Entry =>
        if e'.key = e.key then { e' with type := g e'.type } else e') e' = (e'.type.qname != q) := by
      intro e' _
      rw [Function.comp_apply]
      split
      · rw [hqname]
      · rfl
    rw [List.filter_congr hname']
    refine (List.map_congr_left fun e' he' => ?_).trans (List.map_id _)
    obtain ⟨he', hother⟩ := List.mem_filter.mp he'
    refine if_neg fun hkey => ?_
    obtain rfl := List.inj_on_of_nodup_map hs.keys he' he hkey
    simp [hname] at hother

end Trims

-- ---------------------------------------------------------------------------
-- The definitions of one name
-- ---------------------------------------------------------------------------

/-- No two roots of the name define the same construct. -/
def Definite (s : Store) (q : QName) : Prop :=
  ∀ e ∈ s.named q, ∀ e' ∈ s.named q, e.type.tag = e'.type.tag → e = e'

theorem foldl_warn_eq (s : Store) (es : List Entry) (code : String) (type message : Entry → String) :
    ∃ journal, es.foldl (fun s e => s.warn code (type e) "" (message e)) s = { s with journal } := by
  induction es generalizing s with
  | nil => exact ⟨s.journal, rfl⟩
  | cons e es ih =>
    obtain ⟨journal, heq⟩ := ih (s.warn code (type e) "" (message e))
    exact ⟨journal, heq⟩

/-- The definitions with a base that does not exist go, and no others. -/
theorem trims_dropInvalid (hs : s.Discerned) (q : QName) :
    s.Trims q (s.dropInvalid (s.bucket q)).2 ∧
    (s.dropInvalid (s.bucket q)).1 = (s.dropInvalid (s.bucket q)).2.named q ∧
    ∀ e ∈ s.named q, s.hasDanglingBase e.type = false → e ∈ (s.dropInvalid (s.bucket q)).2.named q := by
  unfold dropInvalid
  dsimp only
  rw [hs.bucket]
  obtain ⟨journal, heq⟩ := s.foldl_warn_eq ((s.named q).filter fun e => s.hasDanglingBase e.type)
    Code.droppedInvalidType (·.type.qname.text)
    (fun e => "dropped duplicate definition from " ++ e.type.origin ++ " with unresolved base")
  rw [heq]
  have hquiet := Trims.quiet hs q journal
  have hdropped : ∀ k ∈ ((s.named q).filter fun e => s.hasDanglingBase e.type).map (·.key),
      ∃ e ∈ { s with journal }.named q, e.key = k := by
    intro k hk
    obtain ⟨e, he, rfl⟩ := List.mem_map.mp hk
    exact ⟨e, List.mem_of_mem_filter he, rfl⟩
  have hnamed : (Store.remove { s with journal }
      (((s.named q).filter fun e => s.hasDanglingBase e.type).map (·.key))).named q =
        (s.named q).filter fun e => !s.hasDanglingBase e.type := by
    rw [named_remove hquiet.discerned hdropped]
    refine List.filter_congr fun e he => congrArg (!·) ?_
    rw [Bool.eq_iff_iff, List.contains_iff_mem, List.mem_map]
    constructor
    · rintro ⟨e', he', hkey⟩
      obtain ⟨he', hdangling⟩ := List.mem_filter.mp he'
      obtain rfl := hs.eq_of_key he' he hkey
      exact hdangling
    · exact fun hdangling => ⟨e, List.mem_filter.mpr ⟨he, hdangling⟩, rfl⟩
  refine ⟨hquiet.trans (.remove hquiet.discerned hdropped), hnamed.symm, fun e he hsound => ?_⟩
  rw [hnamed]
  exact List.mem_filter.mpr ⟨he, by simp [hsound]⟩

/-- The entry number of the definition that stays of several. -/
def elected (group : List Entry) : Nat :=
  (group[(winner? group).getD (group.length - 1)]?.getD default).key

theorem elected_mem {group : List Entry} (hne : group ≠ []) : ∃ e ∈ group, e.key = elected group := by
  obtain ⟨won, hwon⟩ := winner_mem hne
  exact ⟨won, List.mem_of_getElem? hwon, by rw [elected, hwon, Option.getD_some]⟩

theorem exists_elected {entries : List Entry} {tag : Tag} (htag : tag ∈ entries.map (·.type.tag)) :
    ∃ won ∈ entries, won.type.tag = tag ∧ won.key = elected (entries.filter (·.type.tag == tag)) := by
  obtain ⟨e, he, rfl⟩ := List.mem_map.mp htag
  have hgroup : entries.filter (·.type.tag == e.type.tag) ≠ [] :=
    List.ne_nil_of_mem (List.mem_filter.mpr ⟨he, beq_self_eq_true _⟩)
  obtain ⟨won, hwon, hkey⟩ := elected_mem hgroup
  obtain ⟨hwon, hsame⟩ := List.mem_filter.mp hwon
  exact ⟨won, hwon, beq_iff_eq.mp hsame, hkey⟩

theorem elected_singleton (e : Entry) : elected [e] = e.key := by
  obtain ⟨e', he', hkey⟩ := elected_mem (List.cons_ne_nil e [])
  rw [← hkey, List.mem_singleton.mp he']

theorem updateEntry_self (s : Store) (key : Nat) : s.updateEntry key (fun t => t) = s := by
  simp [Store.updateEntry]

theorem updateEntry_updateEntry (s : Store) (key : Nat) (f g : SchemaType → SchemaType) :
    (s.updateEntry key f).updateEntry key g = s.updateEntry key fun t => g (f t) := by
  have hchange : ∀ es : List Entry,
      (es.map fun e => if e.key = key then { e with type := f e.type } else e).map
        (fun e => if e.key = key then { e with type := g e.type } else e) =
        es.map fun e => if e.key = key then { e with type := g (f e.type) } else e := by
    intro es
    rw [List.map_map]
    refine List.map_congr_left fun e _ => ?_
    by_cases hkey : e.key = key <;> simp [hkey]
  rw [Store.updateEntry, Store.updateEntry, Store.updateEntry, hchange, hchange]

/-- A change that keeps what tells a definition from others. -/
structure Faithful (g : SchemaType → SchemaType) : Prop where
  id : ∀ t, (g t).id = t.id
  qname : ∀ t, (g t).qname = t.qname
  tag : ∀ t, (g t).tag = t.tag

/-- What takes in one definition after another is changed once. -/
theorem foldl_takeIn_eq (s : Store) (key : Nat) (es : List Entry) : ∃ g, Faithful g ∧
    es.foldl (fun s e => s.updateEntry key (·.takeIn e.type)) s = s.updateEntry key g := by
  induction es generalizing s with
  | nil => exact ⟨fun t => t, ⟨fun _ => rfl, fun _ => rfl, fun _ => rfl⟩, (s.updateEntry_self key).symm⟩
  | cons e es ih =>
    obtain ⟨g, hg, heq⟩ := ih (s.updateEntry key (·.takeIn e.type))
    refine ⟨fun t => g (t.takeIn e.type), ⟨fun t => hg.id _, fun t => hg.qname _, fun t => hg.tag _⟩, ?_⟩
    rw [List.foldl_cons, heq, updateEntry_updateEntry]

theorem elect_eq (s : Store) (tag : Tag) (group : List Entry) : ∃ journal g, Faithful g ∧
    s.elect tag group = (elected group, { s with journal }.updateEntry (elected group) g) := by
  have hjournal : ∃ journal, (if (winner? group).isSome then s else s.warn Code.duplicateType
      (group[(winner? group).getD (group.length - 1)]?.getD default).type.qname.text ""
      (toString group.length ++ " " ++ tag.text ++ " definitions, keeping the last one from " ++
        (group[(winner? group).getD (group.length - 1)]?.getD default).type.origin)) =
      { s with journal } := by
    split
    · exact ⟨s.journal, rfl⟩
    · exact ⟨_, rfl⟩
  obtain ⟨journal, hjournal⟩ := hjournal
  unfold elect
  dsimp only
  rw [hjournal]
  split
  case isTrue =>
    obtain ⟨g, hg, heq⟩ := foldl_takeIn_eq { s with journal } (elected group)
      (group.eraseIdx ((winner? group).getD (group.length - 1)))
    exact ⟨journal, g, hg, congrArg (Prod.mk _) heq⟩
  case isFalse =>
    refine ⟨journal, fun t => t, ⟨fun _ => rfl, fun _ => rfl, fun _ => rfl⟩, ?_⟩
    rw [updateEntry_self, elected]

/-- What is done for a construct: one of its definitions is marked to stay, and may be changed. -/
theorem electFor_eq (entries : List Entry) (p : List Nat × Store) (tag : Tag) : ∃ journal g, Faithful g ∧
    electFor entries p tag = (p.1 ++ [elected (entries.filter (·.type.tag == tag))],
      { p.2 with journal }.updateEntry (elected (entries.filter (·.type.tag == tag))) g) := by
  unfold electFor
  split
  case h_1 only heq =>
    refine ⟨p.2.journal, fun t => t, ⟨fun _ => rfl, fun _ => rfl, fun _ => rfl⟩, ?_⟩
    rw [heq, elected_singleton, updateEntry_self]
  case h_2 =>
    obtain ⟨journal, g, hg, heq⟩ := p.2.elect_eq tag (entries.filter (·.type.tag == tag))
    exact ⟨journal, g, hg, by rw [heq]⟩

theorem outline_updateEntry {g : SchemaType → SchemaType} (hg : Faithful g) (s : Store) (key : Nat) :
    (s.updateEntry key g).roots.map Entry.outline = s.roots.map Entry.outline := by
  rw [Store.updateEntry, List.map_map]
  refine List.map_congr_left fun e _ => ?_
  rw [Function.comp_apply]
  split
  · rw [Entry.outline, hg.id, hg.qname, hg.tag]
    rfl
  · rfl

/-- Stores of one outline have corresponding roots of a name. -/
theorem exists_named_of_outline (houtline : s'.roots.map Entry.outline = s.roots.map Entry.outline)
    (he : e ∈ s'.named q) : ∃ e₀ ∈ s.named q, e₀.key = e.key ∧ e₀.type.tag = e.type.tag := by
  obtain ⟨he, hname⟩ := mem_named_iff.mp he
  have hmem := List.mem_map_of_mem (f := Entry.outline) he
  rw [houtline] at hmem
  obtain ⟨e₀, he₀, heq⟩ := List.mem_map.mp hmem
  exact ⟨e₀, mem_named_iff.mpr ⟨he₀, (congrArg (·.2.2.1) heq).trans hname⟩, congrArg (·.1) heq,
    congrArg (·.2.2.2) heq⟩

/-- One definition of each construct is marked to stay, and no root goes yet. -/
theorem trims_foldl_electFor {entries : List Entry} (hentries : entries = s.named q) (tags : List Tag)
    (htags : tags ⊆ entries.map (·.type.tag)) {p : List Nat × Store} (h : s.Trims q p.2)
    (houtline : p.2.roots.map Entry.outline = s.roots.map Entry.outline) :
    s.Trims q (tags.foldl (electFor entries) p).2 ∧
    (tags.foldl (electFor entries) p).2.roots.map Entry.outline = s.roots.map Entry.outline ∧
    (tags.foldl (electFor entries) p).1 =
      p.1 ++ tags.map fun tag => elected (entries.filter (·.type.tag == tag)) := by
  induction tags generalizing p with
  | nil => exact ⟨h, houtline, (List.append_nil _).symm⟩
  | cons tag tags ih =>
    obtain ⟨htag, htags⟩ := List.cons_subset.mp htags
    obtain ⟨journal, g, hg, heq⟩ := electFor_eq entries p tag
    obtain ⟨won, hwon, -, hkey⟩ := exists_elected htag
    obtain ⟨e, he, hsame, -⟩ := exists_named_of_outline houtline.symm (hentries ▸ hwon)
    have hquiet := Trims.quiet h.discerned q journal
    have hstep : s.Trims q (electFor entries p tag).2 := by
      rw [heq, ← hkey, ← hsame]
      exact h.trans (hquiet.trans (.updateEntry hquiet.discerned hg.id hg.qname he))
    have hnext := ih htags (p := electFor entries p tag) hstep
      (by rw [heq, outline_updateEntry hg]; exact houtline)
    rw [List.foldl_cons]
    refine ⟨hnext.1, hnext.2.1, hnext.2.2.trans ?_⟩
    rw [heq, List.map_cons, List.append_assoc, List.singleton_append]

/-- A root of the name that is elected at all is elected for its construct. -/
theorem key_eq_elected (hs : s.Discerned) (houtline : s'.roots.map Entry.outline = s.roots.map Entry.outline)
    (he : e ∈ s'.named q) {tags : List Tag} (htags : tags ⊆ (s.named q).map (·.type.tag))
    (hk : e.key ∈ tags.map fun tag => elected ((s.named q).filter (·.type.tag == tag))) :
    e.key = elected ((s.named q).filter (·.type.tag == e.type.tag)) := by
  obtain ⟨tag, htag, hkey⟩ := List.mem_map.mp hk
  obtain ⟨e₀, he₀, hsame, htag₀⟩ := exists_named_of_outline houtline he
  obtain ⟨won, hwon, hwonTag, hwonKey⟩ := exists_elected (htags htag)
  obtain rfl := hs.eq_of_key hwon he₀ (hwonKey.trans (hkey.trans hsame.symm))
  rw [← htag₀, hwonTag, hkey]

/-- Of several definitions of a construct one stays. -/
theorem trims_resolveDuplicates (hs : s.Discerned) {entries : List Entry} (hentries : entries = s.named q) :
    s.Trims q (s.resolveDuplicates entries).2 ∧ (s.resolveDuplicates entries).2.Definite q ∧
    (∀ e ∈ (s.resolveDuplicates entries).1, e ∈ (s.resolveDuplicates entries).2.named q) ∧
    (s.named q ≠ [] → (s.resolveDuplicates entries).2.named q ≠ []) := by
  obtain ⟨htrims, houtline, hkept⟩ := trims_foldl_electFor hentries (entries.map (·.type.tag)).eraseDups
    (fun t ht => List.mem_eraseDups.mp ht) (p := ([], s)) (.refl hs q) rfl
  rw [resolveDuplicates_eq]
  generalize (entries.map (·.type.tag)).eraseDups.foldl (electFor entries) ([], s) = p at htrims houtline hkept
  obtain ⟨kept, s₁⟩ := p
  dsimp only at htrims houtline hkept ⊢
  rw [List.nil_append] at hkept
  have hkeys : ∀ k, k ∈ entries.map (·.key) ↔ ∃ e ∈ s₁.named q, e.key = k := by
    intro k
    rw [hentries, List.mem_map]
    constructor
    · rintro ⟨e, he, rfl⟩
      exact (exists_named_of_outline houtline.symm he).imp fun e' he' => ⟨he'.1, he'.2.1⟩
    · rintro ⟨e, he, rfl⟩
      exact (exists_named_of_outline houtline he).imp fun e' he' => ⟨he'.1, he'.2.1⟩
  -- a root of the name stays if it is the one elected for its construct
  have helected : ∀ e ∈ s₁.named q, e.key ∈ kept →
      e.key = elected (entries.filter (·.type.tag == e.type.tag)) := by
    intro e he hk
    subst hentries
    exact key_eq_elected hs houtline he (fun t ht => List.mem_eraseDups.mp ht) (hkept ▸ hk)
  have hlosers : ∀ k ∈ (entries.map (·.key)).filter (!kept.contains ·), ∃ e ∈ s₁.named q, e.key = k :=
    fun k hk => (hkeys k).mp (List.mem_of_mem_filter hk)
  have hremove := htrims.trans (.remove htrims.discerned hlosers)
  have hnamed : ∀ e, e ∈ (s₁.remove ((entries.map (·.key)).filter (!kept.contains ·))).named q ↔
      e ∈ s₁.named q ∧ e.key ∈ kept := by
    intro e
    rw [named_remove htrims.discerned hlosers, List.mem_filter]
    refine and_congr_right fun he => ?_
    simp [(hkeys e.key).mpr ⟨e, he, rfl⟩]
  refine ⟨hremove, fun e he e' he' htag => ?_, fun e he => ?_, fun hne => ?_⟩
  · obtain ⟨he, hk⟩ := (hnamed e).mp he
    obtain ⟨he', hk'⟩ := (hnamed e').mp he'
    refine htrims.discerned.eq_of_key he he' ?_
    rw [helected e he hk, helected e' he' hk', htag]
  · obtain ⟨k, hk, he⟩ := List.mem_filterMap.mp he
    obtain ⟨hk, hstays⟩ := List.mem_filter.mp hk
    obtain ⟨e₁, he₁, rfl⟩ := (hkeys k).mp hk
    have hmem := (hnamed e₁).mpr ⟨he₁, List.contains_iff_mem.mp hstays⟩
    rw [typeOfKey?_of_mem hremove.discerned.keys (mem_named_iff.mp hmem).1, Option.map_some,
      Option.some.injEq] at he
    exact he ▸ hmem
  · obtain ⟨e, he⟩ := List.exists_mem_of_ne_nil _ hne
    have htag : e.type.tag ∈ entries.map (·.type.tag) := List.mem_map_of_mem (hentries ▸ he)
    obtain ⟨won, hwon, -, hkey⟩ := exists_elected htag
    obtain ⟨e₁, he₁, hkey₁⟩ := (hkeys won.key).mp (List.mem_map_of_mem hwon)
    refine List.ne_nil_of_mem ((hnamed e₁).mpr ⟨he₁, ?_⟩)
    rw [hkept, hkey₁, hkey]
    exact List.mem_map_of_mem (List.mem_eraseDups.mpr htag)

theorem mem_named_updateEntry {g : SchemaType → SchemaType} (hqname : ∀ t, (g t).qname = t.qname)
    {key : Nat} : e ∈ (s.updateEntry key g).named q ↔
      ∃ e₀ ∈ s.named q, e = if e₀.key = key then { e₀ with type := g e₀.type } else e₀ := by
  have hname : ∀ e₀ : Entry,
      (if e₀.key = key then { e₀ with type := g e₀.type } else e₀).type.qname = e₀.type.qname := by
    intro e₀
    split
    · exact hqname _
    · rfl
  rw [mem_named_iff]
  constructor
  · rintro ⟨he, hq⟩
    obtain ⟨e₀, he₀, rfl⟩ := mem_roots_updateEntry he
    exact ⟨e₀, mem_named_iff.mpr ⟨he₀, (hname e₀).symm.trans hq⟩, rfl⟩
  · rintro ⟨e₀, he₀, rfl⟩
    obtain ⟨he₀, hq⟩ := mem_named_iff.mp he₀
    exact ⟨List.mem_map_of_mem he₀, (hname e₀).trans hq⟩

/-- Nothing is merged, or an element goes and a complex type becomes the element. -/
theorem mergeGlobal_cases (s : Store) (entries : List Entry) : s.mergeGlobal entries = s ∨
    ∃ el ∈ entries, ∃ ct ∈ entries, el.type.tag = .element ∧ ct.type.tag = .complexType ∧ ∃ journal,
      s.mergeGlobal entries =
        Store.remove { s.updateEntry ct.key (·.asElement el.type) with journal } [el.key] := by
  unfold mergeGlobal
  split
  case h_1 el ct hel hct =>
    split
    case isTrue =>
      have helTag : el.type.tag = .element := by simpa using List.find?_some hel
      have hctTag : ct.type.tag = .complexType := by simpa using List.find?_some hct
      exact .inr ⟨el, List.mem_of_find?_eq_some hel, ct, List.mem_of_find?_eq_some hct, helTag, hctTag, _, rfl⟩
    case isFalse => exact .inl rfl
  case h_2 => exact .inl rfl

/-- When the element is gone, the complex type is the only element of the name. -/
theorem trims_mergeGlobal (hs : s.Discerned) (hdefinite : s.Definite q) {entries : List Entry}
    (hentries : ∀ e ∈ entries, e ∈ s.named q) : s.Trims q (s.mergeGlobal entries) ∧
    (s.mergeGlobal entries).Definite q ∧ (s.named q ≠ [] → (s.mergeGlobal entries).named q ≠ []) := by
  obtain heq | ⟨el, hel, ct, hct, helTag, hctTag, journal, heq⟩ := s.mergeGlobal_cases entries
  · rw [heq]
    exact ⟨.refl hs q, hdefinite, id⟩
  have hel := hentries el hel
  have hct := hentries ct hct
  have hne : ct.key ≠ el.key := by
    intro hkey
    obtain rfl := hs.eq_of_key hct hel hkey
    rw [hctTag] at helTag
    cases helTag
  have hupdate : s.Trims q (s.updateEntry ct.key (·.asElement el.type)) :=
    .updateEntry hs (fun _ => rfl) (fun _ => rfl) hct
  have hquiet := hupdate.trans (.quiet hupdate.discerned q journal)
  have hnamed : ∀ e, e ∈ (s.updateEntry ct.key (·.asElement el.type)).named q ↔ ∃ e₀ ∈ s.named q,
      e = if e₀.key = ct.key then { e₀ with type := e₀.type.asElement el.type } else e₀ :=
    fun e => mem_named_updateEntry (g := (·.asElement el.type)) fun _ => rfl
  have hkeys : ∀ k ∈ [el.key], ∃ e ∈ (s.updateEntry ct.key (·.asElement el.type)).named q, e.key = k := by
    intro k hk
    rw [List.mem_singleton.mp hk]
    exact ⟨el, (hnamed el).mpr ⟨el, hel, by rw [if_neg hne.symm]⟩, rfl⟩
  have hleft : ∀ e, e ∈ (s.mergeGlobal entries).named q ↔
      (∃ e₀ ∈ s.named q, e = if e₀.key = ct.key then { e₀ with type := e₀.type.asElement el.type } else e₀) ∧
        e.key ≠ el.key := by
    intro e
    rw [heq, named_remove hquiet.discerned hkeys, List.mem_filter, ← hnamed]
    simp [named]
  refine ⟨heq ▸ hquiet.trans (.remove hquiet.discerned hkeys), fun e he e' he' htag => ?_, fun _ => ?_⟩
  · obtain ⟨⟨e₀, he₀, rfl⟩, hkey⟩ := (hleft e).mp he
    obtain ⟨⟨e₀', he₀', rfl⟩, hkey'⟩ := (hleft e').mp he'
    -- no other root of the name that is left is an element
    have hother : ∀ d ∈ s.named q, d.key ≠ el.key → d.type.tag ≠ .element := fun d hd hdkey htag =>
      hdkey (congrArg Entry.key (hdefinite d hd el hel (htag.trans helTag.symm)))
    by_cases hmerged : e₀.key = ct.key <;> by_cases hmerged' : e₀'.key = ct.key
    · obtain rfl := hs.eq_of_key he₀ he₀' (hmerged.trans hmerged'.symm)
      rfl
    · rw [if_pos hmerged, if_neg hmerged'] at htag
      rw [if_neg hmerged'] at hkey'
      exact absurd htag.symm (hother e₀' he₀' hkey')
    · rw [if_neg hmerged, if_pos hmerged'] at htag
      rw [if_neg hmerged] at hkey
      exact absurd htag (hother e₀ he₀ hkey)
    · rw [if_neg hmerged, if_neg hmerged'] at htag ⊢
      exact hdefinite e₀ he₀ e₀' he₀' htag
  · refine List.ne_nil_of_mem ((hleft _).mpr ⟨⟨ct, hct, rfl⟩, ?_⟩)
    rw [if_pos rfl]
    exact hne

/-- What becomes of the roots of a name when validation comes to it. -/
structure Reduces (q : QName) (s s' : Store) : Prop extends s.Trims q s' where
  definite : s'.Definite q
  single : ∀ e, s.named q = [e] → s' = s
  lasting : ∀ e ∈ s.named q, s.hasDanglingBase e.type = false → s'.named q ≠ []

theorem definite_of_length_lt (h : (s.named q).length < 2) : s.Definite q := by
  intro e he e' he' _
  obtain ⟨e₀, hnamed⟩ := List.length_eq_one_iff.mp
    (Nat.le_antisymm (Nat.le_of_lt_succ h) (List.length_pos_of_mem he))
  rw [hnamed, List.mem_singleton] at he he'
  rw [he, he']

theorem reduces_validateName (hs : s.Discerned) (q : QName) : s.Reduces q (s.validateName q) := by
  unfold validateName
  dsimp only
  split
  case isTrue hfew =>
    rw [hs.bucket] at hfew
    exact ⟨.refl hs q, definite_of_length_lt hfew, fun _ _ => rfl, fun e he _ => List.ne_nil_of_mem he⟩
  case isFalse hmany =>
    have hsingle : ∀ s', ∀ e, s.named q = [e] → s' = s := by
      intro s' e he
      rw [hs.bucket, he] at hmany
      exact absurd Nat.one_lt_two hmany
    obtain ⟨hdrop, hkept, hsound⟩ := trims_dropInvalid hs q
    generalize s.dropInvalid (s.bucket q) = p at hdrop hkept hsound
    split
    case isTrue hfew =>
      rw [hkept] at hfew
      exact ⟨hdrop, definite_of_length_lt hfew, hsingle _, fun e he hbase =>
        List.ne_nil_of_mem (hsound e he hbase)⟩
    case isFalse =>
      obtain ⟨hresolve, hdefinite, hentries, hstays⟩ := trims_resolveDuplicates hdrop.discerned hkept
      obtain ⟨hmerge, hdefinite, hstays'⟩ := trims_mergeGlobal hresolve.discerned hdefinite hentries
      exact ⟨(hdrop.trans hresolve).trans hmerge, hdefinite, hsingle _, fun e he hbase =>
        hstays' (hstays (List.ne_nil_of_mem (hsound e he hbase)))⟩

-- ---------------------------------------------------------------------------
-- All names
-- ---------------------------------------------------------------------------

/-- Names that have been come to are definite, whatever comes after. -/
theorem trims_foldl_validateName (names : List QName) (hnames : names.Nodup) (hs : s.Discerned) :
    (names.foldl validateName s).Discerned ∧
    ((names.foldl validateName s).roots.map Entry.heading).Sublist (s.roots.map Entry.heading) ∧
    (∀ q ∈ names, (names.foldl validateName s).Definite q) ∧
    (∀ q ∉ names, (names.foldl validateName s).named q = s.named q) ∧
    ∀ q e, s.named q = [e] → (names.foldl validateName s).named q = [e] := by
  induction names generalizing s with
  | nil => exact ⟨hs, .refl _, nofun, fun _ _ => rfl, fun _ _ => id⟩
  | cons q names ih =>
    obtain ⟨hq, hnames⟩ := List.nodup_cons.mp hnames
    have hfirst := reduces_validateName hs q
    obtain ⟨hdiscerned, hheadings, hdefinite, hothers, hsingle⟩ := ih hnames hfirst.discerned
    rw [List.foldl_cons]
    refine ⟨hdiscerned, hheadings.trans hfirst.headings, fun q' hq' => ?_, fun q' hq' => ?_,
      fun q' e he => hsingle q' e ?_⟩
    · obtain rfl | hq' := List.mem_cons.mp hq'
      · rw [Definite, hothers q' hq]
        exact hfirst.definite
      · exact hdefinite q' hq'
    · obtain ⟨hne, hnot⟩ := not_or.mp (List.mem_cons.not.mp hq')
      exact (hothers q' hnot).trans (hfirst.named_of_ne hne)
    · by_cases hname : q' = q
      · rw [hfirst.single e (hname ▸ he), he]
      · rw [hfirst.named_of_ne hname, he]

/-- The store as it is when validation comes to the name. -/
def ComesTo (s : Store) (q : QName) (s' : Store) : Prop :=
  ∃ before after, s.qnames = before ++ q :: after ∧ s' = before.foldl validateName s

end Store

/-- Validation leaves one root for each name and construct. The roots that stay are in their order and
keep handle and name, a root that is the only one of its name stays as it is, and a name keeps a root if
it has one whose bases exist when validation comes to it. -/
theorem Store.validate_leaves_one (hapart : s.RootsApart) (hindex : s.Indexed)
    (hids : (s.roots.map (·.type.id)).Nodup) :
    (s.validate.types.map fun t => (t.qname, t.tag)).Nodup ∧
    (s.validate.roots.map Entry.heading).Sublist (s.roots.map Entry.heading) ∧
    (∀ q e, s.bucket q = [e] → s.validate.bucket q = [e]) ∧
    ∀ q s', s.ComesTo q s' → (∃ e ∈ s'.bucket q, s'.hasDanglingBase e.type = false) →
      ∃ t ∈ s.validate.types, t.qname = q := by
  have hkeys : (s.roots.map (·.key)).Nodup :=
    List.Nodup.map_on (fun e he e' he' hkey => hapart e he e' he' hkey) (hids.of_map _)
  have hs : s.Discerned := ⟨hkeys, hids, hindex⟩
  obtain ⟨hdiscerned, hheadings, hdefinite, -, hsingle⟩ :=
    Store.trims_foldl_validateName s.qnames (Lists.nodup_eraseDups _) hs
  refine ⟨?_, hheadings, fun q e he => ?_, ?_⟩
  · rw [Store.types, List.map_map]
    refine List.Nodup.map_on (fun e he e' he' hsame => ?_) (hdiscerned.keys.of_map _)
    obtain ⟨hname, htag⟩ := Prod.ext_iff.mp hsame
    obtain ⟨e₀, he₀, heading⟩ := List.mem_map.mp (hheadings.subset (List.mem_map_of_mem he))
    have hq : e.type.qname ∈ s.qnames := List.mem_eraseDups.mpr
      (List.mem_map.mpr ⟨e₀.type, List.mem_map_of_mem he₀, congrArg (·.2.2) heading⟩)
    exact hdefinite _ hq e (Store.mem_named_iff.mpr ⟨he, rfl⟩) e'
      (Store.mem_named_iff.mpr ⟨he', hname.symm⟩) htag
  · rw [hs.bucket] at he
    exact (hdiscerned.bucket q).trans (hsingle q e he)
  · rintro q s' ⟨before, after, hnames, rfl⟩ ⟨e, he, hbase⟩
    have hnodup : (before ++ q :: after).Nodup := hnames ▸ Lists.nodup_eraseDups _
    obtain ⟨hbefore, hnodup, -⟩ := List.nodup_append.mp hnodup
    obtain ⟨hq, hafter⟩ := List.nodup_cons.mp hnodup
    have hcome := (Store.trims_foldl_validateName before hbefore hs).1
    have hvisit := Store.reduces_validateName hcome q
    rw [hcome.bucket] at he
    -- what comes after does not touch the name
    have hlast := (Store.trims_foldl_validateName after hafter hvisit.discerned).2.2.2.1 q hq
    have hend : s.validate.named q ≠ [] := by
      rw [Store.validate, hnames, List.foldl_append, List.foldl_cons, hlast]
      exact hvisit.lasting e he hbase
    obtain ⟨e', he'⟩ := List.exists_mem_of_ne_nil _ hend
    obtain ⟨he', hname⟩ := Store.mem_named_iff.mp he'
    exact ⟨e'.type, List.mem_map_of_mem he', hname⟩

namespace Competing

def definition (name : String) (tag : Tag) (fields bases : List String) : SchemaType where
  qname := ⟨"urn:t", name⟩
  tag := tag
  fields := fields.map fun field => { name := field, tag := .element }
  extensions := bases.map fun base => { tag := .extension, type := { qname := ⟨"urn:t", base⟩ } }

/-- A definition without its base, another one with a redefinition of it, an element that is only another
name for the two, and a definition that is the only one of its name. -/
def store : Store :=
  ({} : Store).insertAll [definition "A" .complexType ["a"] ["missing"],
    definition "A" .complexType ["b"] [],
    { definition "A" .complexType ["c"] ["A"] with container := .redefine },
    definition "A" .element [] ["A"], definition "B" .simpleType [] ["missing"]]

theorem validate_leaves_one_each : store.RootsApart ∧ store.Indexed ∧
    (store.roots.map (·.type.id)).Nodup ∧
    store.validate.types.map (fun t => (t.name, t.tag, t.fields.map (·.name))) =
      [("A", .element, ["b", "c"]), ("B", .simpleType, [])] ∧
    (store.validate.types.map fun t => (t.qname, t.tag)).Nodup ∧
    (store.bucket ⟨"urn:t", "B"⟩).map (·.key) = [4] ∧
    store.validate.bucket ⟨"urn:t", "B"⟩ = store.bucket ⟨"urn:t", "B"⟩ ∧
    store.ComesTo ⟨"urn:t", "A"⟩ store ∧
    (∃ e ∈ store.bucket ⟨"urn:t", "A"⟩, store.hasDanglingBase e.type = false) ∧
    ∃ t ∈ store.validate.types, t.qname = ⟨"urn:t", "A"⟩ := by
  have hsound : store.Sound := .insertAll (.empty _) (.empty _) (by decide)
  have hapart : store.RootsApart := Store.rootsApart_of_nodup hsound.keys
  have hids := Store.nodup_root_ids hsound.handles
  obtain ⟨hnodup, -, hsingle, hlasting⟩ := Store.validate_leaves_one hapart hsound.byName hids
  have hkeys : (store.bucket ⟨"urn:t", "B"⟩).map (·.key) = [4] := by decide +kernel
  obtain ⟨e, hbucket, -⟩ := List.map_eq_singleton_iff.mp hkeys
  have hcomes : store.ComesTo ⟨"urn:t", "A"⟩ store := ⟨[], [⟨"urn:t", "B"⟩], by decide +kernel, rfl⟩
  have hbase : ∃ e ∈ store.bucket ⟨"urn:t", "A"⟩, store.hasDanglingBase e.type = false := by
    decide +kernel
  exact ⟨hapart, hsound.byName, hids, by decide +kernel, hnodup, hkeys,
    (hsingle _ e hbucket).trans hbucket.symm, hcomes, hbase, hlasting _ _ hcomes hbase⟩

end Competing

end Schemata
