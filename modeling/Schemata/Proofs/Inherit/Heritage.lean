import Schemata.Inherit.Overrides
import Schemata.Proofs.Name.Segments

/-!
# What a type inherits

The lineage of a type lists its bases in the order in which they are followed, and what the type
inherits of a key is the first field of that key among theirs. A check of overrides looks at what is
inherited only by its face, so it cannot tell two heritages apart that show the same faces: a field
may have gone from a base, if another one behind it shows the same.
-/

namespace Schemata

/-- What an override is compared with. -/
structure Face where
  tag : Tag
  ns : String
  min : Int
  max : Int
  defaultValue : String
  fixed : Bool
  mixed : Bool
  types : List QName
deriving DecidableEq

namespace Field

variable {f g base base' : Field}

/-- The key of the field's name. -/
abbrev key (f : Field) : String :=
  Name.key f.name

def face (f : Field) : Face where
  tag := f.tag
  ns := f.ns
  min := f.restrictions.min
  max := f.restrictions.max
  defaultValue := f.defaultValue
  fixed := f.fixed
  mixed := f.mixed
  types := f.types.map (·.qname)

theorem overrides_congr (htag : g.tag = f.tag) (hns : g.ns = f.ns) :
    g.overrides base = f.overrides base := by
  simp only [overrides, isAttribute, htag, hns]

theorem overrides_congr_base (h : base'.face = base.face) : f.overrides base' = f.overrides base := by
  simp only [face, Face.mk.injEq] at h
  simp only [overrides, isAttribute, h]

theorem restates_congr_base (h : base'.face = base.face) : f.restates base' = f.restates base := by
  simp only [face, Face.mk.injEq] at h
  simp only [restates, h]

end Field

-- ---------------------------------------------------------------------------
-- Lineage
-- ---------------------------------------------------------------------------

namespace Store

variable {s : Store} {t : SchemaType} {k : String} {f : Field}

/-- The bases in the queue and their bases, in the order in which they are followed. -/
def lineageFrom (s : Store) : Nat → List Extension → List Handle → List SchemaType
  | _, [], _ => []
  | 0, _, _ => []
  | steps + 1, ext :: queue, seen =>
    let ref := ext.type.reference
    if ext.type.native || ref == 0 || seen.contains ref then s.lineageFrom steps queue seen
    else
      match s.ofHandle? ref with
      | none => s.lineageFrom steps queue (ref :: seen)
      | some base => base :: s.lineageFrom steps (queue ++ base.extensions) (ref :: seen)

/-- How many bases there are to be followed at most. -/
def inheritanceBound (s : Store) (t : SchemaType) : Nat :=
  1 + t.extensions.length +
    Lists.total ((SchemaType.walkAll s.types).map (·.extensions.length))

/-- The bases of a type and their bases, in the order in which they are followed. -/
def lineage (s : Store) (t : SchemaType) : List SchemaType :=
  s.lineageFrom (s.inheritanceBound t) t.extensions [t.id]

/-- The fields of the bases of a type, each with its base, nearer bases first. -/
def heritage (s : Store) (t : SchemaType) : List (SchemaType × Field) :=
  (s.lineage t).flatMap fun base => base.fields.map (base, ·)

theorem map_snd_heritage (s : Store) (t : SchemaType) :
    (s.heritage t).map (·.2) = (s.lineage t).flatMap (·.fields) := by
  rw [heritage, List.map_flatMap]
  exact List.flatMap_congr fun base _ => by simp [Function.comp_def]

/-- A field is inherited unless one of its key is. -/
def inheritField (found : List (String × Field)) (f : Field) : List (String × Field) :=
  if found.any (·.1 == f.key) then found else found ++ [(f.key, f)]

theorem gatherFields_eq (steps : Nat) (queue : List Extension) (seen : List Handle)
    (found : List (String × Field)) : s.gatherFields steps queue seen found =
      ((s.lineageFrom steps queue seen).flatMap (·.fields)).foldl inheritField found := by
  induction steps generalizing queue seen found with
  | zero => cases queue <;> rfl
  | succ steps ih =>
    cases queue with
    | nil => rfl
    | cons ext queue =>
      rw [gatherFields, lineageFrom]
      split
      case isTrue => exact ih ..
      case isFalse =>
        cases s.ofHandle? ext.type.reference with
        | none => exact ih ..
        | some base =>
          dsimp only
          rw [ih, List.flatMap_cons, List.foldl_append]
          rfl

theorem isSome_lookup_iff {found : List (String × Field)} :
    (found.lookup k).isSome ↔ ∃ p ∈ found, p.1 = k := by
  simp only [List.lookup_isSome_iff, beq_iff_eq, eq_comm (a := k)]

theorem lookup_inheritField (found : List (String × Field)) :
    (inheritField found f).lookup k =
      (found.lookup k).or (if f.key == k then some f else none) := by
  have hany : found.any (·.1 == f.key) = (found.lookup f.key).isSome := by
    rw [Bool.eq_iff_iff, isSome_lookup_iff, List.any_eq_true]
    simp only [beq_iff_eq]
  rw [inheritField, hany]
  split
  case isTrue hsome =>
    split
    case isTrue hk =>
      obtain rfl := beq_iff_eq.mp hk
      rw [Option.or_of_isSome hsome]
    case isFalse => rw [Option.or_none]
  case isFalse =>
    have hswap : (k == f.key) = (f.key == k) := by
      rw [Bool.eq_iff_iff, beq_iff_eq, beq_iff_eq, eq_comm]
    rw [List.lookup_append, List.lookup_cons, List.lookup_nil, hswap]
    cases f.key == k <;> rfl

theorem lookup_foldl_inheritField (fs : List Field) (found : List (String × Field)) :
    (fs.foldl inheritField found).lookup k = (found.lookup k).or (fs.find? (·.key == k)) := by
  induction fs generalizing found with
  | nil => rw [List.foldl_nil, List.find?_nil, Option.or_none]
  | cons f fs ih =>
    rw [List.foldl_cons, ih, lookup_inheritField, Option.or_assoc, List.find?_cons]
    cases f.key == k <;> rfl

/-- What a type inherits of a key is the first field of the key in its heritage. -/
theorem lookup_inheritedFields (s : Store) (t : SchemaType) (k : String) :
    (s.inheritedFields t).lookup k = ((s.heritage t).map (·.2)).find? (·.key == k) := by
  have hfold := gatherFields_eq (s := s) (s.inheritanceBound t) t.extensions [t.id] []
  rw [map_snd_heritage, lineage]
  exact (congrArg (List.lookup k) hfold).trans (lookup_foldl_inheritField _ _)

end Store

-- ---------------------------------------------------------------------------
-- Checks of overrides
-- ---------------------------------------------------------------------------

namespace OverrideCheck

variable {owner owner' : SchemaType} {inherited inherited' : List (String × Field)} {fs : List Field}
  {c c' : OverrideCheck} {f : Field}

/-- Whether the check drops a field that renames nothing. -/
def drops (inherited : List (String × Field)) (f : Field) : Bool :=
  f.isProhibited || (inherited.lookup f.key).any f.restates

/-- Checks that look the same keep the same. -/
structure Agrees (c c' : OverrideCheck) : Prop where
  kept : c'.kept = c.kept
  taken : ∀ k, k ∈ c'.taken ↔ k ∈ c.taken

theorem Agrees.step (h : Agrees c c')
    (hface : (inherited'.lookup f.key).map Field.face = (inherited.lookup f.key).map Field.face) :
    Agrees (step owner inherited c f) (step owner' inherited' c' f) := by
  have hkeep : Agrees { c with kept := c.kept ++ [f] } { c' with kept := c'.kept ++ [f] } :=
    ⟨congrArg (· ++ [f]) h.kept, h.taken⟩
  unfold OverrideCheck.step
  cases hbase : inherited.lookup f.key with
  | none =>
    rw [hbase, Option.map_none, Option.map_eq_none_iff] at hface
    simp only [hface]
    split
    · exact ⟨h.kept, h.taken⟩
    · exact hkeep
  | some base =>
    rw [hbase, Option.map_some, Option.map_eq_some_iff] at hface
    obtain ⟨base', hbase', hface⟩ := hface
    simp only [hbase', Field.overrides_congr_base hface, Field.restates_congr_base hface]
    split
    · split
      · exact h
      · exact hkeep
    · have hunique := Name.unique_congr (f.name ++ "_" ++ f.tag.suffixWord) h.taken
      refine ⟨?_, fun k => ?_⟩
      · simp only [h.kept, hunique]
      · simp only [Name.unique_snd, hunique, List.mem_cons, h.taken]

theorem Agrees.foldl (h : Agrees c c') (hface : ∀ f ∈ fs,
    (inherited'.lookup f.key).map Field.face = (inherited.lookup f.key).map Field.face) :
    Agrees (fs.foldl (OverrideCheck.step owner inherited) c)
      (fs.foldl (OverrideCheck.step owner' inherited') c') := by
  induction fs generalizing c c' with
  | nil => exact h
  | cons f fs ih =>
    obtain ⟨hf, hfs⟩ := List.forall_mem_cons.mp hface
    exact ih (h.step hf) hfs

/-- As long as every field overrides what is inherited of its key, a check only drops fields. -/
theorem kept_foldl (hoverrides : ∀ f ∈ fs, ∀ base, inherited.lookup f.key = some base →
    f.overrides base = true) (c : OverrideCheck) :
    (fs.foldl (step owner inherited) c).kept = c.kept ++ fs.filter (!drops inherited ·) := by
  induction fs generalizing c with
  | nil => rw [List.foldl_nil, List.filter_nil, List.append_nil]
  | cons f fs ih =>
    obtain ⟨hf, hfs⟩ := List.forall_mem_cons.mp hoverrides
    have hstep : (step owner inherited c f).kept =
        c.kept ++ if drops inherited f then [] else [f] := by
      unfold step drops
      cases hbase : inherited.lookup f.key with
      | none =>
        simp only [Option.any_none, Bool.or_false]
        split <;> simp
      | some base =>
        simp only [hf base hbase, if_true, Option.any_some]
        split <;> simp
    rw [List.foldl_cons, ih hfs, hstep, List.append_assoc]
    cases hdrops : drops inherited f <;> simp [hdrops]

/-- A check keeps the constructs of what it keeps. -/
theorem exists_of_mem_kept (c : OverrideCheck) (hf : f ∈ (fs.foldl (step owner inherited) c).kept) :
    f ∈ c.kept ∨ ∃ g ∈ fs, g.tag = f.tag := by
  induction fs generalizing c with
  | nil => exact .inl hf
  | cons g fs ih =>
    have hstep : ∀ f ∈ (step owner inherited c g).kept, f ∈ c.kept ∨ g.tag = f.tag := by
      have hkeep : ∀ g' : Field, g'.tag = g.tag → ∀ f ∈ c.kept ++ [g'], f ∈ c.kept ∨ g.tag = f.tag := by
        intro g' htag f hf
        obtain hf | hf := List.mem_append.mp hf
        · exact .inl hf
        · exact .inr (List.mem_singleton.mp hf ▸ htag.symm)
      unfold step
      split
      · split
        · exact fun f hf => .inl hf
        · exact hkeep g rfl
      · split
        · split
          · exact fun f hf => .inl hf
          · exact hkeep g rfl
        · exact hkeep _ rfl
    obtain hf | ⟨g', hg', htag⟩ := ih _ hf
    · exact (hstep f hf).imp_right fun htag => ⟨g, List.mem_cons_self, htag⟩
    · exact .inr ⟨g', List.mem_cons_of_mem _ hg', htag⟩

end OverrideCheck

-- ---------------------------------------------------------------------------
-- Fields that stand for others
-- ---------------------------------------------------------------------------

/-- Fields of which some have gone that others behind them stand for. Those of the keys that are heeded
look the same, and no key is lost. -/
inductive Thins (Heeds : String → Prop) : List Field → List Field → Prop
  | nil : Thins Heeds [] []
  | keep {f f' : Field} {fs fs' : List Field} (hkey : f'.key = f.key)
      (hface : Heeds f.key → f'.face = f.face) (hrest : Thins Heeds fs fs') :
      Thins Heeds (f :: fs) (f' :: fs')
  | drop {f g : Field} {fs fs' : List Field} (hfind : fs.find? (·.key == f.key) = some g)
      (hface : Heeds f.key → g.face = f.face) (hrest : Thins Heeds fs fs') : Thins Heeds (f :: fs) fs'

namespace Thins

variable {Heeds Heeds' : String → Prop} {fs fs' : List Field} {k : String}

theorem mono (h : Thins Heeds fs fs') (hheeds : ∀ k, Heeds' k → Heeds k) : Thins Heeds' fs fs' := by
  induction h with
  | nil => exact .nil
  | keep hkey hface _ ih => exact .keep hkey (fun hk => hface (hheeds _ hk)) ih
  | drop hfind hface _ ih => exact .drop hfind (fun hk => hface (hheeds _ hk)) ih

/-- The first field of a key has a counterpart. -/
theorem find? (h : Thins Heeds fs fs') (k : String) :
    Option.Rel (fun f f' => Heeds k → f'.face = f.face) (fs.find? (·.key == k))
      (fs'.find? (·.key == k)) := by
  induction h with
  | nil => exact .none
  | @keep f f' fs fs' hkey hface _ ih =>
    rw [List.find?_cons, List.find?_cons, hkey]
    cases hk : f.key == k with
    | false => exact ih
    | true => exact .some (beq_iff_eq.mp hk ▸ hface)
  | @drop f g fs fs' hfind hface _ ih =>
    rw [List.find?_cons]
    cases hk : f.key == k with
    | false => exact ih
    | true =>
      obtain rfl := beq_iff_eq.mp hk
      rw [hfind] at ih
      dsimp only
      generalize fs'.find? (·.key == f.key) = found at ih
      cases ih with
      | some hg => exact .some fun hheeds => (hg hheeds).trans (hface hheeds)

end Thins

variable {s s' : Store} {t t' : SchemaType}

/-- A check sees no difference between heritages of which one is the other thinned out. -/
theorem Store.checkOverrides_congr (hfields : t'.fields = t.fields)
    (hthins : Thins (fun k => ∃ f ∈ t.fields, f.key = k) ((s.heritage t).map (·.2))
      ((s'.heritage t').map (·.2))) : (s'.checkOverrides t').1 = (s.checkOverrides t).1 := by
  have hrel := hthins.find?
  simp only [← Store.lookup_inheritedFields] at hrel
  have hkeys : ∀ k, k ∈ (s'.inheritedFields t').map (·.1) ↔ k ∈ (s.inheritedFields t).map (·.1) := by
    intro k
    have hk := hrel k
    rw [List.mem_map, List.mem_map, ← Store.isSome_lookup_iff, ← Store.isSome_lookup_iff]
    generalize (s.inheritedFields t).lookup k = found at hk
    generalize (s'.inheritedFields t').lookup k = found' at hk
    cases hk <;> simp
  have htaken : ∀ taken : List String, OverrideCheck.Agrees
      { taken := (s.inheritedFields t).map (·.1) ++ taken }
      { taken := (s'.inheritedFields t').map (·.1) ++ taken } := fun taken =>
    ⟨rfl, fun k => by rw [List.mem_append, List.mem_append, hkeys]⟩
  unfold Store.checkOverrides
  dsimp only
  rw [hfields]
  refine ((htaken _).foldl fun f hf => ?_).kept
  have hk := hrel f.key
  generalize (s.inheritedFields t).lookup f.key = found at hk
  generalize (s'.inheritedFields t').lookup f.key = found' at hk
  cases hk with
  | none => rfl
  | some hface => exact congrArg some (hface ⟨f, hf, rfl⟩)

end Schemata
