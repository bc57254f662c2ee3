import Schemata.Proofs.Document.Encoded

/-!
# What is read

Whatever a text in JSON says, numbers that are read from it fit in 64 bits, the pairs of a mapping are
sorted by their keys, and particles are what their texts stand for. `Yields` carries such a property
through reading, with one rule for each way to put readers together; the rules for records follow
their slots. The leaves of decoded types then have the property, and their handles are unbound.
-/

namespace Schemata

open Json JsonReads

-- ---------------------------------------------------------------------------
-- Sorted pairs
-- ---------------------------------------------------------------------------

/-- Pairs in the order of their keys, which are all different. -/
def SortedPairs (ps : List (String × String)) : Prop :=
  ps.Pairwise (·.1 < ·.1)

theorem mem_insertPair {ps : List (String × String)} {key value : String} {p : String × String}
    (hp : p ∈ insertPair ps key value) : p = (key, value) ∨ p ∈ ps := by
  induction ps with
  | nil => exact .inl (List.mem_singleton.mp hp)
  | cons q ps ih =>
    rw [insertPair] at hp
    grind

theorem SortedPairs.insertPair {ps : List (String × String)} (h : SortedPairs ps) (key value : String) :
    SortedPairs (insertPair ps key value) := by
  induction ps with
  | nil => exact List.pairwise_singleton ..
  | cons p ps ih =>
    obtain ⟨hp, hps⟩ := List.pairwise_cons.mp h
    rw [Schemata.insertPair]
    split
    case isTrue hlt =>
      refine List.pairwise_cons.mpr ⟨List.forall_mem_cons.mpr ⟨hlt, fun q hq => ?_⟩, h⟩
      exact String.lt_trans hlt (hp q hq)
    case isFalse hge =>
      split
      case isTrue heq =>
        subst heq
        exact List.pairwise_cons.mpr ⟨hp, hps⟩
      case isFalse hne =>
        refine List.pairwise_cons.mpr ⟨fun q hq => ?_, ih hps⟩
        obtain rfl | hq := mem_insertPair hq
        · exact Decidable.byContradiction fun hle => hne (String.le_antisymm (String.not_lt.mp hle) (String.not_lt.mp hge))
        · exact hp q hq

-- ---------------------------------------------------------------------------
-- What can be read
-- ---------------------------------------------------------------------------

theorem Particle.text_ofText (s : String) : (ofText s).text = s := by
  unfold ofText
  split <;> rfl

structure PathEntry.Read (p : PathEntry) : Prop where
  kind : Particle.ofText p.kind.text = p.kind
  id : Word64.Fits p.id
  min : Word64.Fits p.min
  max : Word64.Fits p.max

structure Restrictions.Read (r : Restrictions) : Prop where
  minOccurs : ∀ n ∈ r.minOccurs, Word64.Fits n
  maxOccurs : ∀ n ∈ r.maxOccurs, Word64.Fits n
  minLength : ∀ n ∈ r.minLength, Word64.Fits n
  maxLength : ∀ n ∈ r.maxLength, Word64.Fits n
  length : ∀ n ∈ r.length, Word64.Fits n
  totalDigits : ∀ n ∈ r.totalDigits, Word64.Fits n
  fractionDigits : ∀ n ∈ r.fractionDigits, Word64.Fits n
  sequence : Word64.Fits r.sequence
  choice : Word64.Fits r.choice
  group : Word64.Fits r.group
  path : ∀ p ∈ r.path, p.Read

theorem Restrictions.read_zero : Restrictions.Read {} := by
  constructor <;> first | exact Word64.fits_zero | nofun

def ExtensionDraft.Read (d : ExtensionDraft) : Prop :=
  d.extension.restrictions.Read

/-- What can be read of a field down to a depth. -/
def FieldDraft.Read : Nat → FieldDraft → Prop
  | 0, _ => False
  | depth + 1, d => Word64.Fits d.field.index ∧ d.field.restrictions.Read ∧ ∀ c, some c ∈ d.choices → Read depth c

/-- What can be read of a type down to a depth. -/
def TypeDraft.Read : Nat → TypeDraft → Prop
  | 0, _ => False
  | depth + 1, d => SortedPairs d.type.nsMap ∧ (∀ f, some f ∈ d.fields → f.Read depth) ∧
      (∀ e, some e ∈ d.extensions → e.Read) ∧ ∀ t, some t ∈ d.inner → Read depth t

-- ---------------------------------------------------------------------------
-- Yields
-- ---------------------------------------------------------------------------

namespace JsonReads

variable {α β γ : Type} {P : α → Prop} {Q : β → Prop} {x : JsonReads α}

/-- Whatever is read has a property. -/
def Yields (P : α → Prop) (x : JsonReads α) : Prop :=
  ∀ limits cs a rest, answer x limits cs = some (a, rest) → P a

namespace Yields

theorem pure {a : α} (h : P a) : Yields P (Pure.pure a) := by
  intro limits cs b rest heq
  obtain ⟨rfl, -⟩ := Prod.mk.inj (Option.some.inj heq)
  exact h

theorem bind {f : α → JsonReads β} (hx : Yields P x) (hf : ∀ a, P a → Yields Q (f a)) : Yields Q (x >>= f) := by
  intro limits cs b rest heq
  rw [answer_bind, Option.bind_eq_some_iff] at heq
  obtain ⟨⟨a, rest'⟩, ha, hb⟩ := heq
  exact hf a (hx limits cs a rest' ha) limits rest' b rest hb

theorem mono {P' : α → Prop} (hx : Yields P x) (hP : ∀ a, P a → P' a) : Yields P' x :=
  fun limits cs a rest h => hP a (hx limits cs a rest h)

theorem any (x : JsonReads α) : Yields (fun _ => True) x :=
  fun _ _ _ _ _ => trivial

/-- Whatever comes first. -/
theorem after {x : JsonReads β} {f : β → JsonReads α} (hf : ∀ b, Yields P (f b)) : Yields P (x >>= f) :=
  bind (any x) fun b _ => hf b

theorem refuse (e : ReadError) : Yields P (JsonReads.refuse e) :=
  fun _ _ _ _ heq => absurd heq nofun

theorem ite {p : Prop} [Decidable p] {y : JsonReads α} (hx : p → Yields P x) (hy : ¬ p → Yields P y) :
    Yields P (if p then x else y) := by
  split
  case isTrue h => exact hx h
  case isFalse h => exact hy h

theorem deeper (hx : Yields P x) : Yields P (JsonReads.deeper x) := by
  intro limits cs a rest heq
  rw [answer_deeper] at heq
  split at heq
  · exact hx _ cs a rest heq
  · exact absurd heq nofun

theorem take {scan : List Char → Option (α × List Char)} (hscan : ∀ cs a rest, scan cs = some (a, rest) → P a) :
    Yields P (JsonReads.take scan) := by
  intro limits cs a rest heq
  rw [answer_take] at heq
  exact hscan _ a rest heq

/-- An optional answer, if there is one. -/
theorem unlessNothing {scan : List Char → Option (α × List Char)}
    (hscan : ∀ cs a rest, scan cs = some (a, rest) → P a) :
    Yields (fun a => ∀ b ∈ a, P b) (JsonReads.unlessNothing scan) := by
  refine after fun b => ite (fun _ => pure nofun) fun _ => ?_
  refine bind (take hscan) fun a ha => pure ?_
  rintro b ⟨⟩
  exact ha

section Records

theorem mem_of_looseSlot? {slots : List (Reads.Slot JsonReads α)} {slot : Reads.Slot JsonReads α} {key : String}
    {width : Nat} (h : looseSlot? slots key width = some slot) : slot ∈ slots := by
  unfold looseSlot? at h
  split at h
  · exact absurd h nofun
  · have hhead := List.mem_of_head? (Option.filter_eq_some_iff.mp h).1
    rw [(List.mergeSort_perm ..).mem_iff] at hhead
    exact (List.mem_filter.mp hhead).1

variable {keys : Reads.Keys} {slots : List (Reads.Slot JsonReads α)} {old : α}

theorem members (hslots : ∀ slot ∈ slots, ∀ a, P a → Yields P (slot.read a)) (fuel : Nat) (hold : P old) :
    Yields P (JsonReads.members keys slots fuel old) := by
  induction fuel generalizing old with
  | zero => exact refuse _
  | succ fuel ih =>
    refine after fun (key, width) => after fun _ => ?_
    have hrest : ∀ a, P a → Yields P (do
        if ← takeIf '\x7d' then Pure.pure a
        else
          expect ','
          JsonReads.members keys slots fuel a) :=
      fun a ha => after fun _ => ite (fun _ => pure ha) fun _ => after fun _ => ih ha
    dsimp only
    split
    next slot hfound =>
      have hslot : slot ∈ slots := by
        split at hfound
        · exact List.mem_of_find?_eq_some hfound
        · exact mem_of_looseSlot? hfound
      exact bind (hslots slot hslot old hold) hrest
    next =>
      exact ite (fun _ => bind (refuse _) hrest) fun _ => after fun _ => bind (pure hold) hrest

theorem record (hslots : ∀ slot ∈ slots, ∀ a, P a → Yields P (slot.read a)) (hold : P old) :
    Yields P (Source.record keys slots old) := by
  refine deeper (after fun b => ite (fun _ => pure hold) fun _ => ?_)
  refine after fun _ => after fun b => ite (fun _ => pure hold) fun _ => ?_
  exact after fun _ => members hslots _ hold

end Records

section Lists

variable {item : Option α → JsonReads (Option α)} {old : List α}

theorem items (hitem : ∀ old, (∀ a ∈ old, P a) → Yields (fun a => ∀ b ∈ a, P b) (item old)) (fuel : Nat)
    (hold : ∀ a ∈ old, P a) : Yields (fun as => ∀ a ∈ as, P a) (JsonReads.items item fuel old) := by
  induction fuel generalizing old with
  | zero => exact refuse _
  | succ fuel ih =>
    refine bind (hitem _ fun a ha => hold a (List.mem_of_mem_head? ha)) fun a ha => ?_
    have hhead : ∀ b ∈ a.toList, P b := by simpa using ha
    refine after fun _ => ite (fun _ => pure hhead) fun _ => after fun _ => ?_
    refine bind (ih fun a ha => hold a (List.mem_of_mem_tail ha)) fun as has => pure ?_
    exact List.forall_mem_append.mpr ⟨hhead, has⟩

theorem list (hitem : ∀ old, (∀ a ∈ old, P a) → Yields (fun a => ∀ b ∈ a, P b) (item old))
    (hold : ∀ a ∈ old, P a) : Yields (fun as => ∀ a ∈ as, P a) (Source.list item old) := by
  refine deeper (after fun b => ite (fun _ => pure (by simp)) fun _ => ?_)
  refine after fun _ => after fun b => ite (fun _ => pure (by simp)) fun _ => ?_
  exact after fun _ => items hitem _ hold

end Lists

theorem pairItems (fuel : Nat) {old : List (String × String)} (hold : SortedPairs old) :
    Yields SortedPairs (JsonReads.pairItems fuel old) := by
  induction fuel generalizing old with
  | zero => exact refuse _
  | succ fuel ih =>
    refine after fun key => after fun _ => after fun value => ?_
    have hpairs := hold.insertPair (key.getD "") (value.getD "")
    exact after fun _ => ite (fun _ => pure hpairs) fun _ => after fun _ => ih hpairs

theorem pairs {old : List (String × String)} (hold : SortedPairs old) :
    Yields SortedPairs (Source.pairs (m := JsonReads) old) := by
  refine deeper (after fun b => ite (fun _ => pure .nil) fun _ => ?_)
  refine after fun _ => after fun b => ite (fun _ => pure hold) fun _ => ?_
  exact after fun _ => pairItems _ hold

-- ---------------------------------------------------------------------------
-- Single values
-- ---------------------------------------------------------------------------

theorem fits_int64? {cs rest : List Char} {n : Int} (h : int64? cs = some (n, rest)) : Word64.Fits n := by
  have hword : ∀ negative digits, ∀ k ∈ word64? negative digits, Word64.Fits k := by
    intro negative digits k hk
    rw [word64?, Option.mem_def, Option.ite_none_left_eq_some, Option.some.injEq] at hk
    exact hk.2 ▸ Word64.fits_wrap _
  unfold int64? at h
  split at h
  · obtain ⟨k, hk, heq⟩ := Option.map_eq_some_iff.mp h
    exact (Prod.mk.inj heq).1 ▸ hword _ _ k hk
  · obtain ⟨rfl, -⟩ := Prod.mk.inj (Option.some.inj h)
    exact Word64.fits_zero
  · obtain ⟨k, hk, heq⟩ := Option.map_eq_some_iff.mp h
    exact (Prod.mk.inj heq).1 ▸ hword _ _ k hk

theorem int64 : Yields (fun n => ∀ k ∈ n, Word64.Fits k) (JsonReads.unlessNothing int64?) :=
  unlessNothing fun _ _ _ => fits_int64?

theorem int {old : Int} (hold : Word64.Fits old) : Yields Word64.Fits (Reads.int (m := JsonReads) old) := by
  refine bind int64 fun n hn => pure ?_
  cases n with
  | none => exact hold
  | some n => exact hn n rfl

theorem optional {read : Option α → JsonReads (Option α)} {old : Option α}
    (hread : Yields (fun a => ∀ b ∈ a, P b) (read old)) :
    Yields (fun a => ∀ b ∈ a, P b) (Reads.optional read old) :=
  after fun _ => ite (fun _ => pure nofun) fun _ => hread

theorem optionalInt {old : Option Int} (hold : ∀ n ∈ old, Word64.Fits n) :
    Yields (fun n => ∀ k ∈ n, Word64.Fits k) (Reads.optionalInt (m := JsonReads) old) := by
  refine optional (bind int64 fun n hn => pure ?_)
  cases n with
  | none => exact hold
  | some n => exact hn

-- ---------------------------------------------------------------------------
-- Records
-- ---------------------------------------------------------------------------

/-- A part of a record, given how it is read from what is known of it. -/
theorem part {read : β → JsonReads β} {old : β} {set : β → α} (hread : Yields Q (read old))
    (hset : ∀ b, Q b → P (set b)) : Yields P (do
      let b ← read old
      return set b) :=
  bind hread fun b hb => pure (hset b hb)

/-- A part of which nothing has to be known. -/
theorem other {x : JsonReads β} {set : β → α} (hset : ∀ b, P (set b)) : Yields P (do
      let b ← x
      return set b) :=
  after fun b => pure (hset b)

theorem pathEntry {old : PathEntry} (hold : old.Read) :
    Yields PathEntry.Read (Reads.pathEntry (m := JsonReads) old) := by
  refine record ?_ hold
  simp only [Reads.pathEntrySlots, List.forall_mem_cons]
  exact ⟨fun p hp => other fun s => { hp with kind := congrArg Particle.ofText (Particle.text_ofText s) },
    fun p hp => part (int hp.id) fun n hn => { hp with id := hn },
    fun p hp => part (int hp.min) fun n hn => { hp with min := hn },
    fun p hp => part (int hp.max) fun n hn => { hp with max := hn },
    List.forall_mem_nil _⟩

/-- A list of items that are read from what is known of them. -/
theorem plain {read : α → JsonReads α} {zero : α} {old : List α} (hread : ∀ a, P a → Yields P (read a))
    (hzero : P zero) (hold : ∀ a ∈ old, P a) :
    Yields (fun as => ∀ a ∈ as, P a) (Source.list (Reads.plain read zero) old) := by
  refine list (fun a ha => bind (hread _ ?_) fun b hb => pure ?_) hold
  · cases a with
    | none => exact hzero
    | some a => exact ha a rfl
  · rintro c ⟨⟩
    exact hb

/-- A list of items in whose places there may be holes. -/
theorem required {read : α → JsonReads α} {zero : α} {old : List (Option α)}
    (hread : ∀ a, a = zero ∨ P a → Yields P (read a)) (hold : ∀ a, some a ∈ old → P a) :
    Yields (fun as => ∀ a, some a ∈ as → P a) (Source.list (Reads.required read zero) old) := by
  have hlist : Yields (fun as => ∀ a ∈ as, ∀ b ∈ a, P b) (Source.list (Reads.required read zero) old) := by
    refine list (fun a ha => after fun _ => ite (fun _ => pure ?_) fun _ => bind (hread _ ?_) fun b hb => pure ?_)
      fun a ha b hb => hold b (hb ▸ ha)
    · rintro b ⟨⟩
      exact nofun
    · obtain _ | _ | a := a
      · exact .inl rfl
      · exact .inl rfl
      · exact .inr (ha _ rfl a rfl)
    · rintro c ⟨⟩ d ⟨⟩
      exact hb
  exact hlist.mono fun as has a ha => has _ ha a rfl

theorem restrictions {old : Restrictions} (hold : old.Read) :
    Yields Restrictions.Read (Reads.restrictions (m := JsonReads) old) := by
  have hzero : PathEntry.Read {} := ⟨rfl, Word64.fits_zero, Word64.fits_zero, Word64.fits_zero⟩
  refine record ?_ hold
  simp only [Reads.restrictionSlots, List.forall_mem_cons]
  exact ⟨fun r hr => part (optionalInt hr.minOccurs) fun n hn => { hr with minOccurs := hn },
    fun r hr => part (optionalInt hr.maxOccurs) fun n hn => { hr with maxOccurs := hn },
    fun r hr => other fun _ => { hr with },
    fun r hr => other fun _ => { hr with },
    fun r hr => other fun _ => { hr with },
    fun r hr => other fun _ => { hr with },
    fun r hr => part (optionalInt hr.minLength) fun n hn => { hr with minLength := hn },
    fun r hr => part (optionalInt hr.maxLength) fun n hn => { hr with maxLength := hn },
    fun r hr => part (optionalInt hr.length) fun n hn => { hr with length := hn },
    fun r hr => part (optionalInt hr.totalDigits) fun n hn => { hr with totalDigits := hn },
    fun r hr => part (optionalInt hr.fractionDigits) fun n hn => { hr with fractionDigits := hn },
    fun r hr => other fun _ => { hr with },
    fun r hr => other fun _ => { hr with },
    fun r hr => other fun _ => { hr with },
    fun r hr => other fun _ => { hr with },
    fun r hr => other fun _ => { hr with },
    fun r hr => other fun _ => { hr with },
    fun r hr => part (int hr.sequence) fun n hn => { hr with sequence := hn },
    fun r hr => part (int hr.choice) fun n hn => { hr with choice := hn },
    fun r hr => part (int hr.group) fun n hn => { hr with group := hn },
    fun r hr => part (plain (fun _ => pathEntry) hzero hr.path) fun ps hps => { hr with path := hps },
    List.forall_mem_nil _⟩

theorem extension {old : ExtensionDraft} (hold : old.Read) :
    Yields ExtensionDraft.Read (Reads.extension (m := JsonReads) old) := by
  refine record ?_ hold
  simp only [Reads.extensionSlots, List.forall_mem_cons]
  exact ⟨fun d hd => other fun _ => hd, fun d hd => other fun _ => hd,
    fun d hd => part (restrictions hd) fun _ hr => hr, List.forall_mem_nil _⟩

theorem field (depth : Nat) {old : FieldDraft} (hold : old = {} ∨ old.Read depth) :
    Yields (FieldDraft.Read depth) (Reads.field (m := JsonReads) depth old) := by
  induction depth generalizing old with
  | zero => exact refuse _
  | succ depth ih =>
    have hzero : FieldDraft.Read (depth + 1) {} :=
      ⟨Word64.fits_zero, Restrictions.read_zero, fun _ h => absurd h List.not_mem_nil⟩
    refine record ?_ (hold.elim (fun heq => heq ▸ hzero) id)
    simp only [Reads.fieldSlots, List.forall_mem_cons]
    exact ⟨fun d hd => other fun _ => hd,
      fun d hd => other fun _ => hd,
      fun d hd => other fun _ => hd,
      fun d hd => part (int hd.1) fun n hn => ⟨hn, hd.2⟩,
      fun d hd => other fun _ => hd,
      fun d hd => part (required (fun _ => ih) hd.2.2) fun cs hcs => ⟨hd.1, hd.2.1, hcs⟩,
      fun d hd => other fun _ => hd,
      fun d hd => part (restrictions hd.2.1) fun r hr => ⟨hd.1, hr, hd.2.2⟩,
      fun d hd => other fun _ => hd,
      fun d hd => other fun _ => hd,
      fun d hd => other fun _ => hd,
      fun d hd => other fun _ => hd,
      fun d hd => other fun _ => hd,
      fun d hd => other fun _ => hd,
      fun d hd => other fun _ => hd,
      List.forall_mem_nil _⟩

theorem schemaType (depth : Nat) {old : TypeDraft} (hold : old = {} ∨ old.Read depth) :
    Yields (TypeDraft.Read depth) (Reads.schemaType (m := JsonReads) depth old) := by
  induction depth generalizing old with
  | zero => exact refuse _
  | succ depth ih =>
    have hzero : TypeDraft.Read (depth + 1) {} :=
      ⟨.nil, fun _ h => absurd h List.not_mem_nil, fun _ h => absurd h List.not_mem_nil,
        fun _ h => absurd h List.not_mem_nil⟩
    have hextension : ∀ e : ExtensionDraft, e = {} ∨ e.Read →
        Yields ExtensionDraft.Read (Reads.extension (m := JsonReads) e) :=
      fun e he => extension (he.elim (fun heq => heq ▸ Restrictions.read_zero) id)
    refine record ?_ (hold.elim (fun heq => heq ▸ hzero) id)
    simp only [Reads.typeSlots, List.forall_mem_cons]
    exact ⟨fun d hd => other fun _ => hd,
      fun d hd => other fun _ => hd,
      fun d hd => other fun _ => hd,
      fun d hd => other fun _ => hd,
      fun d hd => other fun _ => hd,
      fun d hd => other fun _ => hd,
      fun d hd => other fun _ => hd,
      fun d hd => other fun _ => hd,
      fun d hd => other fun _ => hd,
      fun d hd => other fun _ => hd,
      fun d hd => other fun _ => hd,
      fun d hd => other fun _ => hd,
      fun d hd => other fun _ => hd,
      fun d hd => part (pairs hd.1) fun ps hps => ⟨hps, hd.2⟩,
      fun d hd => part (required (fun _ => field depth) hd.2.1) fun fs hf => ⟨hd.1, hf, hd.2.2⟩,
      fun d hd => part (required hextension hd.2.2.1) fun es he => ⟨hd.1, hd.2.1, he, hd.2.2.2⟩,
      fun d hd => part (required (fun _ => ih) hd.2.2.2) fun ts ht => ⟨hd.1, hd.2.1, hd.2.2.1, ht⟩,
      fun d hd => other fun _ => hd,
      fun d hd => other fun _ => hd,
      fun d hd => other fun _ => hd,
      List.forall_mem_nil _⟩

theorem documentRoots (depth : Nat) : Yields (fun roots => ∀ t, some t ∈ roots → TypeDraft.Read depth t)
    (Reads.documentRoots (m := JsonReads) depth) := by
  refine record ?_ fun _ h => absurd h List.not_mem_nil
  simp only [Reads.documentSlots, List.forall_mem_cons]
  exact ⟨fun roots hroots => required (fun _ => schemaType depth) hroots, List.forall_mem_nil _⟩

/-- What is read of a whole text. -/
theorem run (hx : Yields P x) {s : String} {a : α} (h : (JsonReads.run x s).toOption = some (some a)) : P a := by
  rw [JsonReads.run] at h
  cases hs : skipBlanks (s.toList.takeWhile (· != Char.ofNat 0)) with
  | nil => simp [hs, Except.toOption] at h
  | cons c rest =>
    rw [hs] at h
    dsimp only at h
    generalize (if (c == ',' || c == ':') = true then rest else c :: rest) = cs at h
    by_cases hnul : (skipBlanks cs == "nul".toList) = true
    · rw [if_pos hnul] at h
      simp [Except.toOption] at h
    rw [if_neg hnul] at h
    cases hrun : x { levels := maxLevels, size := s.length } cs with
    | ok p =>
      rw [hrun] at h
      obtain rfl : p.1 = a := Option.some.inj (Option.some.inj h)
      exact hx _ cs _ p.2 (congrArg Except.toOption hrun)
    | error e => simp [hrun, Except.toOption] at h

end Yields

end JsonReads

-- ---------------------------------------------------------------------------
-- Leaves of what has been read
-- ---------------------------------------------------------------------------

/-- What is known of a leaf that has been read. -/
def Leaf.Read : Leaf → Prop
  | number n => Word64.Fits n
  | particle p => Particle.ofText p.text = p
  | pairs ps => SortedPairs ps
  | name _ | text _ | handle _ => True

/-- All leaves are as they have been read. -/
def AllRead (ls : List Leaf) : Prop :=
  ∀ l ∈ ls, l.Read

@[simp] theorem allRead_nil : AllRead [] :=
  fun _ h => absurd h List.not_mem_nil

@[simp] theorem allRead_cons {l : Leaf} {ls : List Leaf} : AllRead (l :: ls) ↔ l.Read ∧ AllRead ls :=
  List.forall_mem_cons

@[simp] theorem allRead_append {ls ls' : List Leaf} : AllRead (ls ++ ls') ↔ AllRead ls ∧ AllRead ls' :=
  List.forall_mem_append

@[simp] theorem allRead_flatMap {α : Type} {f : α → List Leaf} {xs : List α} :
    AllRead (xs.flatMap f) ↔ ∀ x ∈ xs, AllRead (f x) :=
  forall_mem_flatMap_iff

@[simp] theorem read_name (q : QName) : (Leaf.name q).Read :=
  trivial

@[simp] theorem read_number {n : Int} : (Leaf.number n).Read ↔ Word64.Fits n :=
  Iff.rfl

@[simp] theorem read_particle {p : Particle} : (Leaf.particle p).Read ↔ Particle.ofText p.text = p :=
  Iff.rfl

@[simp] theorem read_pairs {ps : List (String × String)} : (Leaf.pairs ps).Read ↔ SortedPairs ps :=
  Iff.rfl

@[simp] theorem read_text (s : String) : (Leaf.text s).Read :=
  trivial

@[simp] theorem read_handle (h : Handle) : (Leaf.handle h).Read :=
  trivial

@[simp] theorem allRead_leafIf_text (s : Option String) : AllRead (leafIf .text s) := by
  cases s <;> simp [leafIf]

theorem allRead_leafIf_number {n : Option Int} : AllRead (leafIf .number n) ↔ ∀ k ∈ n, Word64.Fits k := by
  cases n <;> simp [leafIf]

@[simp] theorem FieldType.allRead (t : FieldType) : AllRead t.leaves := by
  simp [leaves]

@[simp] theorem EnumValue.allRead (v : EnumValue) : AllRead v.leaves := by
  simp [leaves]

theorem PathEntry.Read.allRead {p : PathEntry} (h : p.Read) : AllRead p.leaves := by
  simpa [leaves] using ⟨h.kind, h.id, h.min, h.max⟩

theorem Restrictions.Read.allRead {r : Restrictions} (h : r.Read) : AllRead r.leaves := by
  obtain ⟨hminOccurs, hmaxOccurs, hminLength, hmaxLength, hlength, htotalDigits, hfractionDigits, hsequence,
    hchoice, hgroup, hpath⟩ := h
  have hpaths : ∀ p ∈ r.path, AllRead p.leaves := fun p hp => (hpath p hp).allRead
  simp only [leaves, allRead_append, allRead_flatMap, allRead_cons, allRead_leafIf_text]
  refine ⟨⟨⟨?_, fun _ _ => trivial⟩, trivial, hsequence, hchoice, hgroup, allRead_nil⟩, hpaths⟩
  simp only [List.forall_mem_cons, allRead_leafIf_number]
  exact ⟨hminOccurs, hmaxOccurs, hminLength, hmaxLength, hlength, htotalDigits, hfractionDigits, nofun⟩

theorem filled?_eq_some_iff {α : Type} {items : List (Option α)} {xs : List α} :
    filled? items = some xs ↔ items = xs.map some := by
  induction items generalizing xs with
  | nil => cases xs <;> simp [filled?]
  | cons a items ih =>
    cases a with
    | none => cases xs <;> simp [filled?]
    | some a => cases xs <;> simp [filled?, Option.bind_eq_some_iff, ih, and_comm]

theorem ExtensionDraft.Read.allRead {d : ExtensionDraft} {e : Extension} (h : d.Read)
    (he : d.complete? = some e) : AllRead e.leaves := by
  obtain ⟨t, ht, rfl⟩ := Option.map_eq_some_iff.mp he
  exact allRead_append.mpr ⟨t.allRead, Restrictions.Read.allRead h⟩

theorem FieldDraft.completeAll?_eq (ds : List (Option FieldDraft)) :
    completeAll? ds = ds.mapM (·.bind complete?) := by
  induction ds with
  | nil => rfl
  | cons d ds ih => cases d <;> simp [completeAll?, ih]

theorem TypeDraft.completeAll?_eq (ds : List (Option TypeDraft)) :
    completeAll? ds = ds.mapM (·.bind complete?) := by
  induction ds with
  | nil => rfl
  | cons d ds ih => cases d <;> simp [completeAll?, ih]

/-- What is built from a list of drafts is built from one of them. -/
theorem exists_draft_of_mapM {α β : Type} {f : α → Option β} {ds : List (Option α)} {bs : List β}
    (h : ds.mapM (·.bind f) = some bs) : ∀ b ∈ bs, ∃ d, some d ∈ ds ∧ f d = some b := by
  intro b hb
  obtain ⟨d, hd, hdb⟩ := exists_mem_of_mapM_eq_some h b hb
  obtain ⟨d, rfl, hdb⟩ := Option.bind_eq_some_iff.mp hdb
  exact ⟨d, hd, hdb⟩

theorem FieldDraft.Read.allRead {depth : Nat} {d : FieldDraft} {f : Field} (h : d.Read depth)
    (hf : d.complete? = some f) : AllRead f.leaves := by
  induction depth generalizing d f with
  | zero => exact h.elim
  | succ depth ih =>
    obtain ⟨field, types, choices⟩ := d
    obtain ⟨hindex, hrestrictions, hchoices⟩ := h
    simp only [complete?, Option.bind_eq_bind, Option.pure_def, Option.bind_eq_some_iff, Option.some.injEq,
      filled?_eq_some_iff, completeAll?_eq] at hf
    obtain ⟨ts, rfl, cs, hcs, rfl⟩ := hf
    have hchoices' : ∀ c ∈ cs, AllRead c.leaves := by
      intro c hc
      obtain ⟨d, hd, hdc⟩ := exists_draft_of_mapM hcs c hc
      exact ih (hchoices d hd) hdc
    simpa [Field.leaves, Field.leavesOf_eq] using ⟨hindex, hchoices', hrestrictions.allRead⟩

theorem TypeDraft.Read.allRead {depth : Nat} {d : TypeDraft} {t : SchemaType} (h : d.Read depth)
    (ht : d.complete? = some t) : AllRead t.leaves := by
  induction depth generalizing d t with
  | zero => exact h.elim
  | succ depth ih =>
    obtain ⟨type, fields, extensions, inner⟩ := d
    obtain ⟨hpairs, hfields, hextensions, hinner⟩ := h
    simp only [complete?, Option.bind_eq_bind, Option.pure_def, Option.bind_eq_some_iff, Option.some.injEq,
      filled?_eq_some_iff, completeAll?_eq, FieldDraft.completeAll?_eq] at ht
    obtain ⟨fs, hfs, ds, rfl, es, hes, us, hus, rfl⟩ := ht
    have hfields' : ∀ f ∈ fs, AllRead f.leaves := by
      intro f hf
      obtain ⟨d, hd, hdf⟩ := exists_draft_of_mapM hfs f hf
      exact (hfields d hd).allRead hdf
    have hextensions' : ∀ e ∈ es, AllRead e.leaves := by
      intro e he
      obtain ⟨d, hd, hde⟩ := exists_mem_of_mapM_eq_some hes e he
      exact (hextensions d (List.mem_map_of_mem hd)).allRead hde
    have hinner' : ∀ u ∈ us, AllRead u.leaves := by
      intro u hu
      obtain ⟨d, hd, hdu⟩ := exists_draft_of_mapM hus u hu
      exact ih (hinner d hd) hdu
    have hnames : AllRead (type.substitutions.map .name) := List.forall_mem_map.mpr fun _ _ => trivial
    simpa [SchemaType.leaves, SchemaType.leavesOf_eq] using ⟨hpairs, hnames, hfields', hextensions', hinner'⟩

-- ---------------------------------------------------------------------------
-- Leaves of what has been decoded
-- ---------------------------------------------------------------------------

/-- A leaf after references have been unbound. -/
def Leaf.release : Leaf → Leaf
  | handle _ => handle 0
  | l => l

@[simp] theorem Leaf.release_leafIf_number (n : Option Int) :
    (leafIf .number n).map release = leafIf .number n := by
  cases n <;> rfl

@[simp] theorem Leaf.release_leafIf_text (s : Option String) :
    (leafIf .text s).map release = leafIf .text s := by
  cases s <;> rfl

theorem FieldType.leaves_release (t : FieldType) : t.release.leaves = t.leaves.map Leaf.release :=
  rfl

theorem EnumValue.leaves_release (v : EnumValue) : v.release.leaves = v.leaves.map Leaf.release :=
  rfl

theorem PathEntry.map_release_leaves (p : PathEntry) : p.leaves.map Leaf.release = p.leaves :=
  rfl

theorem Restrictions.map_release_leaves (r : Restrictions) : r.leaves.map Leaf.release = r.leaves := by
  simp [leaves, List.map_flatMap, PathEntry.map_release_leaves, Leaf.release]

mutual

theorem Field.leaves_release : (f : Field) → f.release.leaves = f.leaves.map Leaf.release
  | ⟨tag, name, localName, index, types, choices, ns, restrictions, defaultValue, fixed, mixed, help, wrapper,
      substitutionGroup, defaultEnum⟩ => by
    have hchoices := Field.leavesOf_releaseAll choices
    rw [Field.releaseAll] at hchoices
    simp [Field.release, Field.mapTypes, Field.mapEnums, Field.leaves, hchoices, List.map_flatMap, List.flatMap_map,
      FieldType.leaves_release, Restrictions.map_release_leaves, Leaf.release]
    cases defaultEnum <;> simp [EnumValue.leaves_release]

theorem Field.leavesOf_releaseAll :
    (fs : List Field) → leavesOf (releaseAll fs) = (leavesOf fs).map Leaf.release
  | [] => rfl
  | f :: fs => by
    have hrest := Field.leavesOf_releaseAll fs
    rw [Field.releaseAll] at hrest
    rw [Field.leavesOf, List.map_append, ← Field.leaves_release f, ← hrest]
    rfl

end

mutual

theorem SchemaType.leaves_unbind : (t : SchemaType) → (Document.unbind t).leaves = t.leaves.map Leaf.release
  | ⟨id, qname, tag, location, container, isAbstract, mixed, nillable, localType, status, defaultValue, fixed, help,
      nsMap, fields, extensions, inner, substitutions, package, moduleName⟩ => by
    have hinner := SchemaType.leavesOf_unbind inner
    simp [Document.unbind, SchemaType.unbindOwn_eq, SchemaType.mapTree, SchemaType.leaves, hinner, List.map_flatMap,
      List.flatMap_map, Field.leaves_release, Extension.leaves, FieldType.leaves_release,
      Restrictions.map_release_leaves, Leaf.release, Function.comp_def]

theorem SchemaType.leavesOf_unbind : (ts : List SchemaType) →
    leavesOf (mapTrees Document.unbindOwn ts) = (leavesOf ts).map Leaf.release
  | [] => rfl
  | t :: ts => by
    rw [SchemaType.leavesOf, List.map_append, ← SchemaType.leaves_unbind t, ← SchemaType.leavesOf_unbind ts]
    rfl

end

theorem Leaf.Read.release {l : Leaf} (h : l.Read) : l.release.Read := by
  cases l <;> exact h

namespace Document

theorem AllRead.of_sound {depth i : Nat} {drafts : List (Option TypeDraft)} {ts : List SchemaType}
    (hdrafts : ∀ d, some d ∈ drafts → d.Read depth) (hsound : sound i drafts = .ok ts) :
    ∀ t ∈ ts, AllRead t.leaves := by
  induction drafts generalizing i ts with
  | nil =>
    obtain rfl := Except.ok.inj hsound
    simp
  | cons d drafts ih =>
    cases d with
    | none => simp [sound] at hsound
    | some d =>
      rw [sound] at hsound
      split at hsound
      · cases hsound
      cases hcomplete : d.complete? with
      | none => simp [hcomplete] at hsound
      | some t =>
        cases hrest : sound (i + 1) drafts with
        | error e => simp [hcomplete, hrest, bind, Except.bind] at hsound
        | ok us =>
          have heq : ts = t :: us := by simpa [hcomplete, hrest, bind, Except.bind, eq_comm] using hsound
          rw [heq]
          exact List.forall_mem_cons.mpr ⟨(hdrafts d List.mem_cons_self).allRead hcomplete,
            ih (fun d hd => hdrafts d (List.mem_cons_of_mem _ hd)) hrest⟩

/-- The leaves of decoded types are as they have been read, and their handles are unbound. -/
theorem leaves_of_decode {s : String} {ts : List SchemaType} (h : decode .json s = .ok ts) :
    ∀ t ∈ ts, ∀ l ∈ t.leaves, l.Read ∧ l.release = l := by
  obtain ⟨drafts, us, hrun, hsound, rfl⟩ := decode_json_eq_ok_iff.mp h
  have hread : ∀ d, some d ∈ drafts.getD [] → d.Read (s.length + 1) := by
    cases drafts with
    | none => simp
    | some drafts => exact (Yields.documentRoots _).run hrun
  intro t ht l hl
  obtain ⟨u, hu, rfl⟩ := List.mem_map.mp ht
  rw [SchemaType.leaves_unbind] at hl
  obtain ⟨k, hk, rfl⟩ := List.mem_map.mp hl
  refine ⟨(AllRead.of_sound hread hsound u hu k hk).release, ?_⟩
  cases k <;> rfl

end Document

end Schemata
