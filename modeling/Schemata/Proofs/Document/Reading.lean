import Mathlib.Data.List.Nodup
import Schemata.Document.JsonSource
import Schemata.Document.Tree
import Schemata.Document.Types
import Schemata.Proofs.Json.Printed

/-!
# Reading what is printed

`Reading x v r` says that reading the printed form of the value `v` with `x` comes to `r` wherever the
value stands, as long as it is not nested too deep. Texts and numbers come to themselves; a record comes
to what its members make of it one after another, a list to the list of what its items come to.
-/

namespace Schemata

-- ---------------------------------------------------------------------------
-- Answers
-- ---------------------------------------------------------------------------

open Json

namespace JsonReads

variable {α β : Type} {limits : JsonLimits} {c d : Char} {cs rest : List Char} {level : Nat}
  {x : JsonReads α} {v : Json}

/-- What reading comes to and what remains of the text, unless it fails. -/
def answer (x : JsonReads α) (limits : JsonLimits) (cs : List Char) : Option (α × List Char) :=
  (x limits cs).toOption

@[simp] theorem answer_pure {a : α} : answer (pure a) limits cs = some (a, cs) :=
  rfl

@[simp] theorem answer_refuse {e : ReadError} : answer (refuse e : JsonReads α) limits cs = none :=
  rfl

@[simp] theorem answer_bind {f : α → JsonReads β} :
    answer (x >>= f) limits cs = (answer x limits cs).bind fun p => answer (f p.1) limits p.2 := by
  change ((x limits cs >>= fun p => f p.1 limits p.2) : Except ReadError _).toOption = _
  rw [answer]
  cases x limits cs <;> rfl

@[simp] theorem answer_read : answer (read : JsonReads JsonLimits) limits cs = some (limits, cs) :=
  rfl

theorem answer_deeper (x : JsonReads α) : answer (deeper x) limits cs =
    if 0 < limits.levels then answer x { limits with levels := limits.levels - 1 } cs else none := by
  obtain ⟨levels, size⟩ := limits
  cases levels <;> rfl

theorem answer_take (scan : List Char → Option (α × List Char)) :
    answer (take scan) limits cs = scan (skipBlanks cs) := by
  rw [take, answer_bind]
  change (some (cs, cs)).bind _ = _
  rw [Option.bind_some]
  dsimp only
  cases scan (skipBlanks cs) <;> rfl

theorem answer_takeIf (hcs : skipBlanks cs = c :: rest) :
    answer (takeIf c) limits cs = some (true, rest) := by
  rw [takeIf, answer_take, hcs]
  dsimp only
  rw [beq_self_eq_true, if_pos rfl]

theorem answer_takeIf_of_ne (hcs : skipBlanks cs = d :: rest) (hne : d ≠ c) :
    answer (takeIf c) limits cs = some (false, d :: rest) := by
  rw [takeIf, answer_take, hcs]
  dsimp only
  rw [beq_false_of_ne hne, if_neg Bool.false_ne_true]

theorem answer_expect (hcs : skipBlanks cs = c :: rest) :
    answer (expect c) limits cs = some ((), rest) := by
  rw [expect, answer_bind, answer_takeIf hcs]
  rfl

theorem answer_nothing (hcs : skipBlanks cs = c :: rest) (hc : c ≠ 'n') :
    answer nothing limits cs = some (false, c :: rest) := by
  rw [nothing, answer_take, hcs]
  split
  · rename_i heq
    exact absurd (List.cons.inj heq).1 hc
  · rfl

/-- Between brackets something else may stand, or nothing. -/
theorem answer_brackets {opening closing : Char} (hn : opening ≠ 'n') (hblank : isBlank opening = false)
    (hcs : skipBlanks cs = opening :: rest) (nothing empty : α) (x : JsonReads α) :
    answer (deeper do
      if ← JsonReads.nothing then pure nothing
      else
        expect opening
        if ← takeIf closing then pure empty
        else x) limits cs =
      if 0 < limits.levels then
        answer (do if ← takeIf closing then pure empty else x)
          { limits with levels := limits.levels - 1 } rest
      else none := by
  rw [answer_deeper, answer_bind, answer_nothing hcs hn, Option.bind_some]
  dsimp only
  rw [if_neg Bool.false_ne_true, answer_bind, answer_expect (skipBlanks_cons hblank), Option.bind_some]

/-- A character with which something starts, and not only the word for nothing or the end of a list. -/
def Starts (c : Char) : Prop :=
  c ≠ 'n' ∧ c ≠ ']' ∧ isBlank c = false

instance (c : Char) : Decidable (Starts c) :=
  inferInstanceAs (Decidable (c ≠ 'n' ∧ c ≠ ']' ∧ isBlank c = false))

/-- A value that can be told from nothing by its first character. -/
def Told (v : Json) : Prop :=
  ∀ level, ∃ c cs, printed level v = c :: cs ∧ Starts c

theorem told_text (s : String) : Told (.text s) :=
  fun _ => ⟨'"', _, printed_text, by decide⟩

theorem told_true : Told (.bool true) :=
  fun _ => ⟨'t', ['r', 'u', 'e'], by simp [printed, indented], by decide⟩

theorem starts_of_isDigit (hc : c.isDigit = true) : Starts c := by
  have hne : ∀ d : Char, d.isDigit = false → c ≠ d := by
    rintro d hd rfl
    exact Bool.false_ne_true (hd.symm.trans hc)
  have hblank : isBlank c = false := by
    simp only [isBlank, Bool.or_eq_false_iff, beq_eq_false_iff_ne]
    exact ⟨⟨⟨hne ' ' rfl, hne '\n' rfl⟩, hne '\t' rfl⟩, hne '\r' rfl⟩
  exact ⟨hne 'n' rfl, hne ']' rfl, hblank⟩

theorem told_int (n : Int) : Told (.int n) := by
  intro level
  cases n with
  | ofNat n =>
    obtain ⟨c, cs, hdigits⟩ := List.exists_cons_of_ne_nil (Nat.toDigits_ne_nil (n := n) (b := 10))
    refine ⟨c, cs, ?_, starts_of_isDigit ?_⟩
    · simp [printed, indented, toString, Int.repr, Nat.repr, hdigits]
    · exact Nat.isDigit_of_mem_toDigits (by decide) (by decide) (hdigits ▸ List.mem_cons_self)
  | negSucc n =>
    refine ⟨'-', Nat.toDigits 10 (n + 1), ?_, by decide⟩
    simp [printed, indented, toString, Int.repr, Nat.repr]

theorem told_list (vs : List Json) : Told (.list vs) := by
  intro level
  cases vs with
  | nil => exact ⟨'[', _, printed_list_nil, by decide⟩
  | cons => exact ⟨'[', _, printed_list_cons, by decide⟩

theorem told_object (ms : List (String × Json)) : Told (.object ms) := by
  intro level
  cases ms with
  | nil => exact ⟨'\x7b', _, printed_object_nil, by decide⟩
  | cons => exact ⟨'\x7b', _, printed_object_cons, by decide⟩

-- ---------------------------------------------------------------------------
-- Single values
-- ---------------------------------------------------------------------------

/-- Reading a printed value comes to `r`, wherever the value stands, if there are levels enough. -/
def Reading (x : JsonReads α) (v : Json) (r : Option α) : Prop :=
  ∀ (limits : JsonLimits) (cs rest : List Char) (level : Nat), skipBlanks cs = printed level v ++ rest →
    Ends rest → (printed level v).length ≤ limits.size →
    answer x limits cs = if v.depth ≤ limits.levels then r.map (·, rest) else none

namespace Reading

variable {r : Option α} {s : String}

theorem bind_pure (h : Reading x v r) (f : α → β) : Reading (x >>= fun a => pure (f a)) v (r.map f) := by
  intro limits cs rest level hcs hends hsize
  rw [answer_bind, h limits cs rest level hcs hends hsize]
  split
  · cases r <;> rfl
  · rfl

/-- A value that has no levels. -/
theorem of_depth (hv : v.depth = 0) (h : ∀ limits cs rest level, skipBlanks cs = printed level v ++ rest →
    Ends rest → answer x limits cs = r.map (·, rest)) : Reading x v r := by
  intro limits cs rest level hcs hends _
  rw [h limits cs rest level hcs hends, if_pos (hv ▸ Nat.zero_le _)]

/-- Nothing is looked for first. -/
theorem ite_nothing {y : JsonReads α} (hv : Told v) (h : Reading x v r) :
    Reading (do if ← nothing then y else x) v r := by
  intro limits cs rest level hcs hends hsize
  obtain ⟨c, cs', hprinted, hc, -, hblank⟩ := hv level
  have hstart : skipBlanks cs = c :: (cs' ++ rest) := by rw [hcs, hprinted, List.cons_append]
  rw [answer_bind, answer_nothing hstart hc]
  refine h limits _ rest level ?_ hends hsize
  rw [hprinted, List.cons_append, skipBlanks_cons hblank]

theorem take {scan : List Char → Option (α × List Char)} {a : α} (hdepth : v.depth = 0)
    (hscan : ∀ level rest, Ends rest → scan (printed level v ++ rest) = some (a, rest)) :
    Reading (JsonReads.take scan) v (some a) := by
  refine of_depth hdepth fun limits cs rest level hcs hends => ?_
  rw [answer_take, hcs, hscan level rest hends]
  rfl

theorem unlessNothing {scan : List Char → Option (α × List Char)} {a : α} (hdepth : v.depth = 0)
    (hv : Told v) (hscan : ∀ level rest, Ends rest → scan (printed level v ++ rest) = some (a, rest)) :
    Reading (JsonReads.unlessNothing scan) v (some (some a)) :=
  ite_nothing hv ((take hdepth hscan).bind_pure some)

end Reading

/-- What a text comes back as. -/
def reread (s : String) : String :=
  String.ofList (s.toList.flatMap (spread textRules))

theorem quoted_append (level : Nat) (s : String) (rest : List Char) :
    quoted (printed level (.text s) ++ rest) = some (reread s, rest) := by
  rw [printed_text, List.cons_append, List.append_assoc]
  change (text? textRules (written {} s.toList ++ '"' :: rest) >>= fun p =>
    pure (String.ofList p.1, p.2)) = _
  rw [text?_written]
  rfl

namespace Reading

theorem text (old s : String) : Reading (Reads.text old) (.text s) (some (reread s)) :=
  (unlessNothing rfl (told_text s) fun level rest _ => quoted_append level s rest).bind_pure (·.getD old)

theorem bool (old : Bool) : Reading (Reads.bool old) (.bool true) (some true) :=
  (unlessNothing rfl told_true fun level rest _ => by
    rw [printed, indented, if_pos rfl, bool?, word?, if_pos]
    · rfl
    · exact List.isPrefixOf_iff_prefix.mpr (List.prefix_append _ _)).bind_pure (·.getD old)

theorem unlessNothing_int {n : Int} :
    Reading (JsonReads.unlessNothing int64?) (.int n) ((number? n).map some) := by
  refine ite_nothing (told_int n) (of_depth rfl fun limits cs rest level hcs hends => ?_)
  rw [printed, indented] at hcs
  rw [answer_bind, answer_take, hcs, int64?_toString n hends]
  cases number? n <;> rfl

theorem int (old n : Int) : Reading (Reads.int old) (.int n) (number? n) := by
  have h := (unlessNothing_int (n := n)).bind_pure (·.getD old)
  rwa [Option.map_map, show (Option.getD · old) ∘ some = id from rfl, Option.map_id] at h

theorem optional {read : Option α → JsonReads (Option α)} {old : Option α} {r : Option (Option α)}
    (hv : Told v) (h : Reading (read old) v r) : Reading (Reads.optional read old) v r :=
  ite_nothing hv h

theorem optionalInt (old : Option Int) (n : Int) :
    Reading (Reads.optionalInt old) (.int n) ((number? n).map some) := by
  have h := (unlessNothing_int (n := n)).bind_pure (·.or old)
  rw [Option.map_map] at h
  exact optional (told_int n) h

theorem optionalText (old : Option String) (s : String) :
    Reading (Reads.optionalText old) (.text s) (some (some (reread s))) :=
  optional (told_text s)
    ((unlessNothing rfl (told_text s) fun level rest _ => quoted_append level s rest).bind_pure (·.or old))

theorem word (s : String) : Reading JsonReads.word (.text s) (some (some { line := 1, text := s })) := by
  refine of_depth rfl fun limits cs rest level hcs _ => ?_
  have hvalue : pastValue (printed level (.text s) ++ rest) = some (printed level (.text s), rest) := by
    rw [printed_text, List.cons_append, List.append_assoc]
    change (pastText (written {} s.toList ++ '"' :: rest)).map _ = _
    rw [pastText_written]
    rfl
  have hnull : ¬ (String.ofList (printed level (.text s)) == "null") = true := by
    rw [printed_text, beq_iff_eq, ← String.toList_inj, String.toList_ofList]
    intro heq
    exact absurd (List.cons.inj heq).1 (by decide)
  have hword : wordOf? (printed level (.text s)) = some s := by
    have hunquote : unquote? (printed level (.text s)) = some s.toList := unquote?_quote {} s
    rw [printed_text] at hunquote ⊢
    rw [wordOf?, hunquote, if_neg (by decide), Option.getD_some, String.ofList_toList]
  rw [JsonReads.word, answer_bind, answer_take, hcs, hvalue]
  dsimp only [Option.bind_some]
  rw [if_neg hnull, hword]
  rfl

theorem coded {parse : Reads.Word → Except ReadError α} {reset : α → Except ReadError α} {old : α}
    (s : String) :
    Reading (Reads.coded parse reset old) (.text s) (parse { line := 1, text := s }).toOption := by
  intro limits cs rest level hcs hends hsize
  rw [Reads.coded, answer_bind]
  have hword := word s limits cs rest level hcs hends hsize
  change answer Source.word limits cs = _ at hword
  have hdepth : (Json.text s).depth ≤ limits.levels := Nat.zero_le _
  rw [hword, if_pos hdepth, if_pos hdepth]
  change answer (Reads.settle (parse { line := 1, text := s })) limits rest = _
  cases parse { line := 1, text := s } <;> rfl

end Reading

-- ---------------------------------------------------------------------------
-- Keys
-- ---------------------------------------------------------------------------

open Reads (Keys Slot)

/-- Keys that come back as they are and cannot be taken for one another, whatever their case. -/
def SoundKeys (keys : List String) : Prop :=
  (keys.map folded).Nodup ∧ ∀ key ∈ keys, key ≠ "" ∧ reread key = key ∧
    ∀ key' ∈ keys, key = folded key' → key = key'

instance (keys : List String) : Decidable (SoundKeys keys) :=
  inferInstanceAs (Decidable ((keys.map folded).Nodup ∧ ∀ key ∈ keys, key ≠ "" ∧ reread key = key ∧
    ∀ key' ∈ keys, key = folded key' → key = key'))

variable {slots : List (Slot JsonReads α)} {slot slot' : Slot JsonReads α}

theorem SoundKeys.inj (hslots : SoundKeys (slots.map (·.key))) (hslot : slot ∈ slots)
    (hslot' : slot' ∈ slots) (hkey : folded slot.key = folded slot'.key) : slot = slot' := by
  have hnodup := hslots.1
  rw [List.map_map] at hnodup
  exact List.inj_on_of_nodup_map hnodup hslot hslot' hkey

theorem exactSlot?_key (hslots : SoundKeys (slots.map (·.key))) (hslot : slot ∈ slots) :
    exactSlot? slots slot.key = some slot := by
  rw [exactSlot?]
  cases hfind : slots.find? fun slot' => slot.key == slot'.key || slot.key == folded slot'.key with
  | none => simpa using List.find?_eq_none.mp hfind slot hslot
  | some slot' =>
    have hslot' := List.mem_of_find?_eq_some hfind
    have hkey := List.find?_some hfind
    rw [Bool.or_eq_true, beq_iff_eq, beq_iff_eq] at hkey
    have heq : slot.key = slot'.key := by
      obtain hkey | hkey := hkey
      · exact hkey
      · exact (hslots.2 _ (List.mem_map_of_mem hslot)).2.2 _ (List.mem_map_of_mem hslot') hkey
    rw [hslots.inj hslot hslot' (congrArg folded heq)]

/-- The slots with keys that start with a key, in the order of their keys. -/
def candidates (slots : List (Slot JsonReads α)) (key : String) : List (Slot JsonReads α) :=
  (slots.filter fun slot => (folded key).toList.isPrefixOf (folded slot.key).toList).mergeSort
    fun a b => !decide (folded b.key < folded a.key)

theorem mem_candidates {key : String} : slot ∈ candidates slots key ↔
    slot ∈ slots ∧ (folded key).toList <+: (folded slot.key).toList := by
  rw [candidates, (List.mergeSort_perm ..).mem_iff, List.mem_filter, List.isPrefixOf_iff_prefix]

theorem pairwise_candidates (slots : List (Slot JsonReads α)) (key : String) :
    (candidates slots key).Pairwise fun a b => folded a.key ≤ folded b.key := by
  refine (List.pairwise_mergeSort ?_ ?_ _).imp fun h => ?_
  · intro a b c hab hbc
    simp only [Bool.not_eq_true', decide_eq_false_iff_not, String.not_lt] at hab hbc ⊢
    exact String.le_trans hab hbc
  · intro a b
    simp only [Bool.or_eq_true, Bool.not_eq_true', decide_eq_false_iff_not, String.not_lt]
    exact String.le_total ..
  · simpa only [Bool.not_eq_true', decide_eq_false_iff_not, String.not_lt] using h

theorem looseSlot?_key {width : Nat} (hslots : SoundKeys (slots.map (·.key))) (hslot : slot ∈ slots)
    (hwidth : slot.key.length ≤ width) : looseSlot? slots slot.key width = some slot := by
  have hkey : ¬ (slot.key == "") = true := by
    rw [beq_iff_eq]
    exact (hslots.2 _ (List.mem_map_of_mem hslot)).1
  have hin : slot ∈ candidates slots slot.key := mem_candidates.mpr ⟨hslot, List.prefix_rfl⟩
  have hhead : (candidates slots slot.key).head? = some slot := by
    have hsorted := pairwise_candidates slots slot.key
    have hmem : ∀ slot' ∈ candidates slots slot.key,
        slot' ∈ slots ∧ (folded slot.key).toList <+: (folded slot'.key).toList :=
      fun _ => mem_candidates.mp
    cases hcandidates : candidates slots slot.key with
    | nil => exact absurd (hcandidates ▸ hin) List.not_mem_nil
    | cons first others =>
      rw [hcandidates] at hin hsorted hmem
      obtain ⟨hfirst, hprefix⟩ := hmem first List.mem_cons_self
      obtain rfl | hin := List.mem_cons.mp hin
      · rfl
      -- what has the key for a beginning comes behind it
      have hle := List.rel_of_pairwise_cons hsorted hin
      have hge : folded slot.key ≤ folded first.key :=
        String.not_lt.mp fun hlt => List.not_lt.mpr hprefix.le (String.lt_iff.mp hlt)
      rw [hslots.inj hfirst hslot (String.le_antisymm hle hge), List.head?_cons]
  rw [looseSlot?, if_neg hkey]
  change (candidates slots slot.key).head?.filter _ = _
  rw [hhead, Option.filter_some, if_pos (by simpa using hwidth)]

theorem le_total_width {cs : List Char} {ps : List Piece} (h : List.Forall₂ Piece.Stands cs ps) :
    cs.length ≤ Lists.total (ps.map (·.width)) := by
  induction h with
  | nil => exact Nat.zero_le _
  | cons hp _ ih =>
    have hwidth : ∀ p : Piece, 1 ≤ p.width := fun p => by cases p <;> simp [Piece.width]
    rw [List.length_cons, List.map_cons, Lists.total, Nat.add_comm]
    exact Nat.add_le_add (hwidth _) ih

theorem writtenKey_quote (key : String) (rest : List Char) : ∃ width, key.length ≤ width ∧
    writtenKey ((quote {} key).toList ++ rest) = some ((reread key, width), rest) := by
  obtain ⟨ps, hps, hread⟩ := pieces?_written textRules {} key.toList rest
  refine ⟨Lists.total (ps.map (·.width)), String.length_toList ▸ le_total_width hps, ?_⟩
  rw [toList_quote, List.cons_append, List.append_assoc]
  change (pieces? textRules (written {} key.toList ++ '"' :: rest) >>= _) = _
  rw [hread, reread, ← joined_of_stands hps]
  rfl

-- ---------------------------------------------------------------------------
-- Records
-- ---------------------------------------------------------------------------

/-- What the members of a record make of it one after another. -/
inductive Follows (slots : List (Slot JsonReads α)) : List (String × Json) → α → Option α → Prop
  | nil (a : α) : Follows slots [] a (some a)
  | cons {slot : Slot JsonReads α} {v : Json} {ms : List (String × Json)} {a : α} {x : Option α}
      {k : α → Option α} (hslot : slot ∈ slots) (hv : Told v) (hread : Reading (slot.read a) v x)
      (hrest : ∀ b, x = some b → Follows slots ms b (k b)) :
      Follows slots ((slot.key, v) :: ms) a (x.bind k)

theorem Follows.eq_of_nil {a : α} {r : Option α} (h : Follows slots [] a r) : r = some a := by
  cases h
  rfl

theorem skipBlanks_printed (hv : Told v) :
    skipBlanks (printed level v ++ rest) = printed level v ++ rest := by
  obtain ⟨c, cs, hprinted, -, -, hblank⟩ := hv level
  rw [hprinted, List.cons_append, skipBlanks_cons hblank]

theorem skipBlanks_printedRest_nil {stop : Char} (hstop : isBlank stop = false) :
    skipBlanks (printedRest level stop [] ++ rest) = stop :: rest := by
  rw [printedRest, List.flatMap_nil, List.nil_append, List.append_assoc, skipBlanks_newline]
  exact skipBlanks_cons hstop

theorem skipBlanks_printedRest_cons (level : Nat) (stop : Char) (entry : List Char)
    (entries : List (List Char)) (rest : List Char) :
    skipBlanks (printedRest level stop (entry :: entries) ++ rest) =
      ',' :: ((newline (level + 1)).toList ++ (entry ++ (printedRest level stop entries ++ rest))) := by
  simp only [printedRest, List.flatMap_cons, List.append_assoc, List.cons_append]
  exact skipBlanks_cons rfl

theorem skipBlanks_printedMember {m : String × Json} :
    skipBlanks (printedMember level m ++ rest) = printedMember level m ++ rest := by
  rw [printedMember, toList_quote]
  exact skipBlanks_cons rfl

/-- Reading one member, up to what is printed behind it. -/
theorem answer_member {keys : Keys} {a : α} {x : Option α} (hslots : SoundKeys (slots.map (·.key)))
    (hslot : slot ∈ slots) (hv : Told v) (hread : Reading (slot.read a) v x)
    (hcs : skipBlanks cs = printedMember level (slot.key, v) ++ rest) (hends : Ends rest)
    (hsize : (printed level v).length ≤ limits.size) (fuel : Nat) :
    answer (members keys slots (fuel + 1) a) limits cs =
      if v.depth ≤ limits.levels then x.bind fun b =>
        answer (do
          if ← takeIf '\x7d' then pure b
          else
            expect ','
            members keys slots fuel b) limits rest
      else none := by
  obtain ⟨width, hwidth, hkey⟩ := writtenKey_quote slot.key (':' :: ' ' :: printed level v ++ rest)
  have hmember : skipBlanks cs =
      (quote {} slot.key).toList ++ (':' :: ' ' :: printed level v ++ rest) := by
    rw [hcs, printedMember]
    simp
  have hreread := (hslots.2 _ (List.mem_map_of_mem hslot)).2.1
  have hfound : (if keys.exact then exactSlot? slots slot.key else looseSlot? slots slot.key width) =
      some slot := by
    split
    · exact exactSlot?_key hslots hslot
    · exact looseSlot?_key hslots hslot hwidth
  have hvalue : skipBlanks (' ' :: printed level v ++ rest) = printed level v ++ rest :=
    skipBlanks_printed hv
  have hcolon : skipBlanks (':' :: ' ' :: printed level v ++ rest) = ':' :: (' ' :: printed level v ++ rest) :=
    skipBlanks_cons rfl
  rw [members, answer_bind, answer_take, hmember, hkey, hreread, Option.bind_some]
  dsimp only
  rw [answer_bind, answer_expect hcolon, Option.bind_some]
  dsimp only
  rw [hfound]
  dsimp only
  rw [answer_bind, hread limits _ rest level hvalue hends hsize]
  split
  · cases x <;> rfl
  · rfl

/-- Reading members from the first on, up to what is printed behind the record. -/
theorem answer_members {keys : Keys} (hslots : SoundKeys (slots.map (·.key)))
    {m : String × Json} {ms : List (String × Json)} {a : α} {r : Option α}
    (h : Follows slots (m :: ms) a r) (fuel : Nat) (hfuel : ms.length ≤ fuel)
    (hcs : skipBlanks cs = printedMember (level + 1) m ++
      (printedRest level '\x7d' (ms.map (printedMember (level + 1))) ++ rest))
    (hsize : ∀ m' ∈ m :: ms, (printed (level + 1) m'.2).length ≤ limits.size) :
    answer (members keys slots (fuel + 1) a) limits cs =
      if depthMembers (m :: ms) ≤ limits.levels then r.map (·, rest) else none := by
  induction ms generalizing m a r fuel cs with
  | nil =>
    cases h with
    | @cons slot v _ _ x k hslot hv hread hrest =>
      rw [answer_member hslots hslot hv hread hcs ends_printedRest (hsize _ List.mem_cons_self)]
      simp only [depthMembers, Nat.max_zero]
      split
      · cases x with
        | none => rfl
        | some b =>
          rw [Option.bind_some, Option.bind_some, answer_bind, List.map_nil,
            answer_takeIf (skipBlanks_printedRest_nil rfl), (hrest b rfl).eq_of_nil]
          rfl
      · rfl
  | cons m' ms ih =>
    cases h with
    | @cons slot v _ _ x k hslot hv hread hrest =>
      obtain ⟨fuel, rfl⟩ : ∃ n, fuel = n + 1 := ⟨fuel - 1, by simp at hfuel; omega⟩
      rw [answer_member hslots hslot hv hread hcs ends_printedRest (hsize _ List.mem_cons_self)]
      simp only [depthMembers_cons_le (m := (slot.key, v))]
      by_cases hdepth : v.depth ≤ limits.levels
      · simp only [hdepth, true_and, if_true]
        cases x with
        | none => simp
        | some b =>
          have htext := skipBlanks_printedRest_cons level '\x7d' (printedMember (level + 1) m')
            (ms.map (printedMember (level + 1))) rest
          have hnext := skipBlanks_newline (level + 1) (printedMember (level + 1) m' ++
            (printedRest level '\x7d' (ms.map (printedMember (level + 1))) ++ rest))
          rw [skipBlanks_printedMember] at hnext
          have hmore := ih (hrest b rfl) fuel (Nat.le_of_succ_le_succ hfuel) hnext
            fun m hm => hsize m (List.mem_cons_of_mem _ hm)
          rw [Option.bind_some, answer_bind, List.map_cons, answer_takeIf_of_ne htext (by decide),
            Option.bind_some]
          dsimp only
          rw [if_neg Bool.false_ne_true, answer_bind, answer_expect (skipBlanks_cons rfl),
            Option.bind_some, hmore, Option.bind_some]
      · simp only [hdepth, false_and, if_false]

/-- One level is taken by the value itself. -/
theorem ite_levels {n levels : Nat} (r : Option β) :
    (if 0 < levels then if n ≤ levels - 1 then r else none else none) =
      if n + 1 ≤ levels then r else none := by
  split
  · exact if_congr (by omega) rfl rfl
  · rw [if_neg (by omega)]

namespace Reading

/-- A record comes to what its members make of what is known of it. -/
theorem record {keys : Keys} (hslots : SoundKeys (slots.map (·.key))) {ms : List (String × Json)}
    {old : α} {r : Option α} (h : Follows slots ms old r) :
    Reading (Source.record keys slots old) (.object ms) r := by
  intro limits cs rest level hcs hends hsize
  rw [depth, ← ite_levels]
  cases ms with
  | nil =>
    rw [printed_object_nil, List.cons_append, List.cons_append, List.nil_append] at hcs
    refine (answer_brackets (by decide) rfl hcs ..).trans (if_congr Iff.rfl ?_ rfl)
    rw [answer_bind, answer_takeIf (c := '\x7d') (skipBlanks_cons rfl), h.eq_of_nil, depthMembers,
      if_pos (Nat.zero_le _)]
    rfl
  | cons m ms =>
    obtain ⟨hcount, hlengths⟩ := length_lt_printed_object hsize
    rw [printed_object_cons, List.cons_append, List.append_assoc, List.append_assoc] at hcs
    refine (answer_brackets (by decide) rfl hcs ..).trans (if_congr Iff.rfl ?_ rfl)
    have hnext : ∀ rest, skipBlanks ((newline (level + 1)).toList ++ (printedMember (level + 1) m ++ rest)) =
        printedMember (level + 1) m ++ rest := fun rest => by
      rw [skipBlanks_newline, skipBlanks_printedMember]
    obtain ⟨cs', hquote⟩ : ∃ cs', printedMember (level + 1) m = '"' :: cs' := by
      rw [printedMember, toList_quote]
      exact ⟨_, rfl⟩
    rw [answer_bind, answer_takeIf_of_ne ((hnext _).trans (by rw [hquote, List.cons_append]))
      (by decide), Option.bind_some]
    dsimp only
    rw [if_neg Bool.false_ne_true, answer_bind, answer_read, Option.bind_some]
    refine answer_members hslots h limits.size (Nat.le_of_lt hcount) ?_
      fun m hm => Nat.le_of_lt (hlengths m hm)
    rw [hquote]
    exact skipBlanks_cons rfl

end Reading

-- ---------------------------------------------------------------------------
-- Lists
-- ---------------------------------------------------------------------------

section Items

variable {item : Option α → JsonReads (Option α)} {f : β → Json} {g : β → Option α} {b : β} {bs : List β}

/-- Reading one item, up to what is printed behind it. -/
theorem answer_item {x : Option α} (hread : Reading (item none) v (x.map some))
    (hcs : skipBlanks cs = printed level v ++ rest) (hends : Ends rest)
    (hsize : (printed level v).length ≤ limits.size) (fuel : Nat) :
    answer (items item (fuel + 1) []) limits cs =
      if v.depth ≤ limits.levels then x.bind fun a =>
        answer (do
          if ← takeIf ']' then pure [a]
          else
            expect ','
            return a :: (← items item fuel [])) limits rest
      else none := by
  rw [items, answer_bind, List.head?_nil, hread limits cs rest level hcs hends hsize]
  split
  · cases x <;> rfl
  · rfl

/-- Reading items from the first on, up to what is printed behind the list. -/
theorem answer_items (h : ∀ b' ∈ b :: bs, Told (f b') ∧ Reading (item none) (f b') ((g b').map some))
    (fuel : Nat) (hfuel : bs.length ≤ fuel) (hcs : skipBlanks cs = printed (level + 1) (f b) ++
      (printedRest level ']' ((bs.map f).map (printed (level + 1))) ++ rest))
    (hsize : ∀ b' ∈ b :: bs, (printed (level + 1) (f b')).length ≤ limits.size) :
    answer (items item (fuel + 1) []) limits cs =
      if depthAll ((b :: bs).map f) ≤ limits.levels then ((b :: bs).mapM g).map (·, rest) else none := by
  induction bs generalizing b fuel cs with
  | nil =>
    have hread := (h b List.mem_cons_self).2
    rw [answer_item hread hcs ends_printedRest (hsize b List.mem_cons_self), List.map_cons, List.map_nil,
      List.mapM_cons, List.mapM_nil]
    simp only [depthAll, Nat.max_zero]
    split
    · cases g b with
      | none => rfl
      | some a =>
        rw [Option.bind_some, answer_bind, List.map_nil, answer_takeIf (skipBlanks_printedRest_nil rfl)]
        rfl
    · rfl
  | cons b' bs ih =>
    obtain ⟨fuel, rfl⟩ : ∃ n, fuel = n + 1 := ⟨fuel - 1, by simp at hfuel; omega⟩
    obtain ⟨⟨-, hread⟩, hothers⟩ := List.forall_mem_cons.mp h
    rw [answer_item hread hcs ends_printedRest (hsize b List.mem_cons_self), List.map_cons (l := b' :: bs),
      List.mapM_cons]
    simp only [depthAll_cons_le (v := f b)]
    by_cases hdepth : (f b).depth ≤ limits.levels
    · simp only [hdepth, true_and, if_true]
      cases g b with
      | none => simp
      | some a =>
        have htext := skipBlanks_printedRest_cons level ']' (printed (level + 1) (f b'))
          ((bs.map f).map (printed (level + 1))) rest
        have hnext := skipBlanks_newline (level + 1) (printed (level + 1) (f b') ++
          (printedRest level ']' ((bs.map f).map (printed (level + 1))) ++ rest))
        rw [skipBlanks_printed (hothers b' List.mem_cons_self).1] at hnext
        have hmore := ih hothers fuel (Nat.le_of_succ_le_succ hfuel) hnext
          fun b hb => hsize b (List.mem_cons_of_mem _ hb)
        rw [Option.bind_some, answer_bind, List.map_cons, List.map_cons,
          answer_takeIf_of_ne htext (by decide), Option.bind_some]
        dsimp only
        rw [if_neg Bool.false_ne_true, answer_bind, answer_expect (skipBlanks_cons rfl),
          Option.bind_some, answer_bind, hmore, List.map_cons]
        split
        · cases (b' :: bs).mapM g <;> rfl
        · rfl
    · simp only [hdepth, false_and, if_false]

/-- A list comes to the list of what its items come to. -/
theorem Reading.list (h : ∀ b ∈ bs, Told (f b) ∧ Reading (item none) (f b) ((g b).map some)) :
    Reading (Source.list item []) (.list (bs.map f)) (bs.mapM g) := by
  intro limits cs rest level hcs hends hsize
  rw [depth, ← ite_levels]
  cases bs with
  | nil =>
    rw [List.map_nil, printed_list_nil, List.cons_append, List.cons_append, List.nil_append] at hcs
    refine (answer_brackets (by decide) rfl hcs ..).trans (if_congr Iff.rfl ?_ rfl)
    rw [answer_bind, answer_takeIf (c := ']') (skipBlanks_cons rfl), List.map_nil, depthAll,
      if_pos (Nat.zero_le _)]
    rfl
  | cons b bs =>
    obtain ⟨hcount, hlengths⟩ := length_lt_printed_list hsize
    rw [List.map_cons, printed_list_cons, List.cons_append, List.append_assoc, List.append_assoc] at hcs
    refine (answer_brackets (by decide) rfl hcs ..).trans (if_congr Iff.rfl ?_ rfl)
    obtain ⟨c, cs', hprinted, -, hc, hblank⟩ := (h b List.mem_cons_self).1 (level + 1)
    rw [answer_bind, answer_takeIf_of_ne (d := c) ?_ hc, Option.bind_some]
    · dsimp only
      rw [if_neg Bool.false_ne_true, answer_bind, answer_read, Option.bind_some]
      refine answer_items h limits.size (by simpa using Nat.le_of_lt hcount) ?_
        fun b' hb' => Nat.le_of_lt (hlengths _ (List.mem_map_of_mem hb'))
      rw [hprinted]
      exact skipBlanks_cons hblank
    · rw [skipBlanks_newline, hprinted, List.cons_append, skipBlanks_cons hblank]
      rfl

end Items

-- ---------------------------------------------------------------------------
-- Pairs
-- ---------------------------------------------------------------------------

/-- The pairs that are known when a pair has been read again. -/
def insertReread (found : List (String × String)) (p : String × String) : List (String × String) :=
  insertPair found (reread p.1) (reread p.2)

def textMember (p : String × String) : String × Json :=
  (p.1, .text p.2)

theorem depthMembers_textMember (ps : List (String × String)) : depthMembers (ps.map textMember) = 0 := by
  induction ps with
  | nil => rfl
  | cons p ps ih =>
    rw [List.map_cons, textMember, depthMembers, ih]
    rfl

theorem answer_quoted {s : String} (hcs : skipBlanks cs = (quote {} s).toList ++ rest) :
    answer (unlessNothing quoted) limits cs = some (some (reread s), rest) := by
  have hstart : skipBlanks cs = '"' :: (written {} s.toList ++ ['"'] ++ rest) := by
    rw [hcs, toList_quote, List.cons_append]
  have hquoted := quoted_append 0 s rest
  rw [printed_text, List.cons_append] at hquoted
  rw [unlessNothing, answer_bind, answer_nothing hstart (by decide), Option.bind_some]
  dsimp only
  rw [if_neg Bool.false_ne_true, answer_bind, answer_take, skipBlanks_cons rfl, hquoted]
  rfl

/-- Reading pairs from the first on, up to what is printed behind them. -/
theorem answer_pairItems (level : Nat) {p : String × String} {ps found : List (String × String)} (fuel : Nat)
    (hfuel : ps.length ≤ fuel)
    (hcs : skipBlanks cs = printedMember (level + 1) (textMember p) ++
      (printedRest level '\x7d' ((ps.map textMember).map (printedMember (level + 1))) ++ rest)) :
    answer (pairItems (fuel + 1) found) limits cs = some ((p :: ps).foldl insertReread found, rest) := by
  have hpair : ∀ (p : String × String) cs rest fuel found,
      skipBlanks cs = printedMember (level + 1) (textMember p) ++ rest →
      answer (pairItems (fuel + 1) found) limits cs =
        answer (do
          if ← takeIf '\x7d' then pure (insertReread found p)
          else
            expect ','
            pairItems fuel (insertReread found p)) limits rest := by
    intro p cs rest fuel found hcs
    have hkey : skipBlanks cs =
        (quote {} p.1).toList ++ (':' :: ' ' :: ((quote {} p.2).toList ++ rest)) := by
      rw [hcs, printedMember, textMember, printed_text, toList_quote, toList_quote]
      simp
    have hvalue : skipBlanks (' ' :: ((quote {} p.2).toList ++ rest)) = (quote {} p.2).toList ++ rest := by
      rw [toList_quote]
      exact skipBlanks_cons (c := '"') rfl
    rw [pairItems, answer_bind, answer_quoted hkey, Option.bind_some, answer_bind,
      answer_expect (skipBlanks_cons rfl), Option.bind_some, answer_bind, answer_quoted hvalue]
    rfl
  rw [hpair p _ _ _ _ hcs, List.foldl_cons]
  induction ps generalizing p found fuel cs with
  | nil =>
    rw [List.map_nil, List.map_nil, answer_bind, answer_takeIf (skipBlanks_printedRest_nil rfl)]
    rfl
  | cons p' ps ih =>
    obtain ⟨fuel, rfl⟩ : ∃ n, fuel = n + 1 := ⟨fuel - 1, by simp at hfuel; omega⟩
    have htext := skipBlanks_printedRest_cons level '\x7d' (printedMember (level + 1) (textMember p'))
      ((ps.map textMember).map (printedMember (level + 1))) rest
    have hnext := skipBlanks_newline (level + 1) (printedMember (level + 1) (textMember p') ++
      (printedRest level '\x7d' ((ps.map textMember).map (printedMember (level + 1))) ++ rest))
    rw [skipBlanks_printedMember] at hnext
    rw [answer_bind, List.map_cons, List.map_cons, answer_takeIf_of_ne htext (by decide), Option.bind_some]
    dsimp only
    rw [if_neg Bool.false_ne_true, answer_bind, answer_expect (skipBlanks_cons rfl), Option.bind_some,
      hpair p' _ _ _ _ hnext, List.foldl_cons]
    exact ih fuel (Nat.le_of_succ_le_succ hfuel) hnext

/-- Pairs come to the pairs of what their keys and texts come to, sorted. -/
theorem Reading.pairs (ps : List (String × String)) :
    Reading (Source.pairs []) (.object (ps.map textMember)) (some (ps.foldl insertReread [])) := by
  intro limits cs rest level hcs hends hsize
  rw [depth, ← ite_levels, depthMembers_textMember]
  cases ps with
  | nil =>
    rw [List.map_nil, printed_object_nil, List.cons_append, List.cons_append, List.nil_append] at hcs
    refine (answer_brackets (by decide) rfl hcs ..).trans (if_congr Iff.rfl ?_ rfl)
    rw [answer_bind, answer_takeIf (c := '\x7d') (skipBlanks_cons rfl), if_pos (Nat.zero_le _)]
    rfl
  | cons p ps =>
    obtain ⟨hcount, -⟩ := length_lt_printed_object hsize
    rw [List.map_cons, printed_object_cons, List.cons_append, List.append_assoc, List.append_assoc] at hcs
    refine (answer_brackets (by decide) rfl hcs ..).trans (if_congr Iff.rfl ?_ rfl)
    obtain ⟨cs', hquote⟩ : ∃ cs', printedMember (level + 1) (textMember p) = '"' :: cs' := by
      rw [printedMember, toList_quote]
      exact ⟨_, rfl⟩
    have hstart : ∀ rest, skipBlanks (printedMember (level + 1) (textMember p) ++ rest) =
        '"' :: (cs' ++ rest) := fun rest => by
      rw [skipBlanks_printedMember, hquote, List.cons_append]
    rw [answer_bind, answer_takeIf_of_ne ((skipBlanks_newline ..).trans (hstart _)) (by decide),
      Option.bind_some, if_pos (Nat.zero_le _)]
    dsimp only
    rw [if_neg Bool.false_ne_true, answer_bind, answer_read, Option.bind_some]
    refine answer_pairItems level limits.size (by simpa using Nat.le_of_lt hcount) ?_
    rw [hquote]
    exact skipBlanks_cons rfl

-- ---------------------------------------------------------------------------
-- Members that may be left out
-- ---------------------------------------------------------------------------

/-- What a member makes of a record, or its absence. -/
def Contributes (slots : List (Slot JsonReads α)) (ms : List (String × Json)) (a : α) (x : Option α) : Prop :=
  (ms = [] ∧ x = some a) ∨
    ∃ slot ∈ slots, ∃ v, ms = [(slot.key, v)] ∧ Told v ∧ Reading (slot.read a) v x

namespace Follows

variable {γ : Type} {ms ms' : List (String × Json)} {a : α} {r : Option α} {x : Option γ} {put : γ → α}
  {k : γ → Option α}

theorem bind (h : Contributes slots ms a (x.map put)) (hrest : ∀ y, Follows slots ms' (put y) (k y)) :
    Follows slots (ms ++ ms') a (x.bind k) := by
  obtain ⟨rfl, hx⟩ | ⟨slot, hslot, v, rfl, hv, hread⟩ := h
  · obtain ⟨y, rfl, rfl⟩ := Option.map_eq_some_iff.mp hx
    exact hrest y
  · cases x with
    | none => exact .cons (k := fun _ => none) hslot hv hread (fun _ h => absurd h nofun)
    | some y =>
      refine .cons (k := fun _ => k y) hslot hv hread fun b h => ?_
      rw [← Option.some.inj h]
      exact hrest y

theorem last (h : Contributes slots ms a (x.map put)) :
    Follows slots ms a (x.bind fun y => some (put y)) := by
  have hms := Follows.bind h fun y => .nil (put y)
  rwa [List.append_nil] at hms

end Follows

namespace Contributes

variable {γ : Type} {key : String} {a : α} {get : α → γ} {set : α → γ → α} {x : Option γ}

/-- A member for a slot that changes one part of the record, given what is known of the part. -/
theorem part {read : γ → JsonReads γ} {old : γ} (i : Nat) (hslot : slots[i]? = some ⟨key, fun a => do
      let y ← read (get a)
      return set a y⟩) (hv : Told v) (hread : Reading (read old) v x) (hget : get a = old) :
    Contributes slots [(key, v)] a (x.map (set a)) := by
  subst hget
  exact .inr ⟨_, List.mem_of_getElem? hslot, v, rfl, hv, hread.bind_pure (set a)⟩

theorem member {read : γ → JsonReads γ} (i : Nat) (hslot : slots[i]? = some ⟨key, fun a => do
      let y ← read (get a)
      return set a y⟩) (hv : Told v) (hread : Reading (read (get a)) v x) :
    Contributes slots [(key, v)] a (x.map (set a)) :=
  part i hslot hv hread rfl

theorem leftOut {p : Prop} [Decidable p] {r : Option α} (hp : p → r = some a)
    (h : Contributes slots [(key, v)] a r) : Contributes slots (if p then [] else [(key, v)]) a r := by
  split
  case isTrue htrue => exact .inl ⟨rfl, hp htrue⟩
  case isFalse => exact h

end Contributes

section Kinds

variable {γ : Type} {key : String} {a : α}

theorem Contributes.number {get : α → Int} {set : α → Int → α} (i : Nat)
    (hslot : slots[i]? = some ⟨key, fun a => do
      let y ← Reads.int (get a)
      return set a y⟩) (hset : set a 0 = a) (n : Int) :
    Contributes slots (Tree.number key n) a ((number? n).map (set a)) := by
  refine .leftOut ?_ (.member i hslot (told_int n) (.int _ _))
  rintro rfl
  exact congrArg some hset

theorem Contributes.flag {get : α → Bool} {set : α → Bool → α} (i : Nat)
    (hslot : slots[i]? = some ⟨key, fun a => do
      let y ← Reads.bool (get a)
      return set a y⟩) (hset : set a false = a) (b : Bool) :
    Contributes slots (Tree.flag key b) a ((some b).map (set a)) := by
  cases b with
  | false => exact .inl ⟨rfl, congrArg some hset⟩
  | true => exact .member i hslot told_true (.bool _)

theorem Contributes.word {get : α → String} {set : α → String → α} (i : Nat)
    (hslot : slots[i]? = some ⟨key, fun a => do
      let y ← Reads.text (get a)
      return set a y⟩) (hset : set a "" = a) (s : String) :
    Contributes slots (Tree.word key s) a ((some (reread s)).map (set a)) := by
  refine .leftOut ?_ (.member i hslot (told_text s) (.text _ _))
  rintro rfl
  exact congrArg some hset

theorem Contributes.numberIf {get : α → Option Int} {set : α → Option Int → α} (i : Nat)
    (hslot : slots[i]? = some ⟨key, fun a => do
      let y ← Reads.optionalInt (get a)
      return set a y⟩) (hset : set a none = a) (n : Option Int) :
    Contributes slots (Tree.numberIf key n) a ((n.mapM number?).map (set a)) := by
  cases n with
  | none => exact .inl ⟨rfl, congrArg some hset⟩
  | some n => exact .member i hslot (told_int n) (.optionalInt _ _)

theorem Contributes.wordIf {get : α → Option String} {set : α → Option String → α} (i : Nat)
    (hslot : slots[i]? = some ⟨key, fun a => do
      let y ← Reads.optionalText (get a)
      return set a y⟩) (hset : set a none = a) (s : Option String) :
    Contributes slots (Tree.wordIf key s) a ((some (s.map reread)).map (set a)) := by
  cases s with
  | none => exact .inl ⟨rfl, congrArg some hset⟩
  | some s => exact .member i hslot (told_text s) (.optionalText _ _)

/-- A list is left out when it is empty. -/
theorem Contributes.many {δ : Type} {get : α → List γ} {set : α → List γ → α}
    {item : Option γ → JsonReads (Option γ)} (i : Nat)
    (hslot : slots[i]? = some ⟨key, fun a => do
      let y ← Source.list item (get a)
      return set a y⟩) (hget : get a = []) (hset : set a [] = a) {f : δ → Json} {g : δ → Option γ}
    {bs : List δ} (h : ∀ b ∈ bs, Told (f b) ∧ Reading (item none) (f b) ((g b).map some)) :
    Contributes slots (Tree.many key (bs.map f)) a ((bs.mapM g).map (set a)) := by
  refine .leftOut ?_ (.part i hslot (told_list _) (.list h) hget)
  intro hempty
  rw [List.isEmpty_iff, List.map_eq_nil_iff] at hempty
  subst hempty
  exact congrArg some hset

end Kinds

end JsonReads

end Schemata
