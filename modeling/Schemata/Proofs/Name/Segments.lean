import Mathlib.Data.List.Chain
import Schemata.Name.Location
import Schemata.Name.Namespace
import Schemata.Output.Layout
import Schemata.Proofs.Name.Free
import Schemata.Proofs.Text.Case

/-!
# Words, snake case and segments of module paths

A name is cut into words, and nothing but its separators goes: the words are not empty, and together they
are its letters and digits in order. A letter or digit begins a word if a separator or nothing comes before
it, and else if it is a capital that follows a character that is none or comes before a small letter.

Names in snake case are therefore made of letters, digits and single inner underscores. They start with a
letter, but for one case: a first digit is put behind a letter only if it is one of ASCII.

A segment of a module path is not empty and has no dot, so the path of a module in a package tells the
package. Names in snake case are segments, unless there is nothing in them, and so are their alternatives.
-/

namespace Schemata.Name

variable {c : Char} {cs w rest : List Char} {ws : List (List Char)}

theorem isSeparator_eq_false_iff : isSeparator c = false ↔ Text.isLetter c ∨ Text.isDecimal c := by
  simp only [isSeparator, Bool.and_eq_false_iff, Bool.not_eq_false']

-- ---------------------------------------------------------------------------
-- Where words begin
-- ---------------------------------------------------------------------------

/-- Whether a letter or digit begins a word, by the characters before and after it. -/
def beginsWord (prev : Option Char) (c : Char) (next : Option Char) : Bool :=
  prev.all isSeparator || Text.isCapital c && (!prev.any Text.isCapital || next.any Text.isSmall)

/-- The letters and digits of a text that comes after `prev`, each with whether it begins a word. -/
def marked : Option Char → List Char → List (Char × Bool)
  | _, [] => []
  | prev, c :: rest =>
    if isSeparator c then marked (some c) rest
    else (c, beginsWord prev c rest.head?) :: marked (some c) rest

/-- A word that begins with its first character and with no other. -/
def markedWord : List Char → List (Char × Bool)
  | [] => []
  | c :: cs => (c, true) :: cs.map (·, false)

theorem map_fst_marked (prev : Option Char) (cs : List Char) :
    (marked prev cs).map Prod.fst = cs.filter (!isSeparator ·) := by
  induction cs generalizing prev with
  | nil => rfl
  | cons c cs ih =>
    rw [marked]
    split
    case isTrue hsep => simp [ih, hsep]
    case isFalse hsep => simp [ih, hsep]

theorem map_fst_markedWord (w : List Char) : (markedWord w).map Prod.fst = w := by
  cases w with
  | nil => rfl
  | cons c cs => simp [markedWord, Function.comp_def]

theorem markedWord_append_singleton (hw : w ≠ []) (c : Char) :
    markedWord (w ++ [c]) = markedWord w ++ [(c, false)] := by
  cases w with
  | nil => exact absurd rfl hw
  | cons d cs => simp [markedWord]

theorem flatMap_markedWord_close (word : List Char) (words : List (List Char)) :
    (close word words).flatMap markedWord = markedWord word.reverse ++ words.flatMap markedWord := by
  cases word with
  | nil => rfl
  | cons c cs => simp [close]

/-- After a letter or digit a word begins where the cut asks for one. -/
theorem startsWord_eq_beginsWord {p : Char} (hp : isSeparator p = false) (c : Char) (rest : List Char) :
    startsWord p c rest = beginsWord (some p) c rest.head? := by
  simp only [startsWord, beginsWord, Option.all_some, Option.any_some, hp]
  cases Text.isCapital p <;> simp

/-- The words begin where they should. A word is under way unless nothing or a separator comes before. -/
theorem flatMap_markedWord_wordsFrom {prev : Option Char} {word : List Char}
    (hprev : prev.all isSeparator = word.isEmpty) (cs : List Char) :
    (wordsFrom prev word cs).flatMap markedWord = markedWord word.reverse ++ marked prev cs := by
  induction cs generalizing prev word with
  | nil => simp [wordsFrom, flatMap_markedWord_close, marked]
  | cons c cs ih =>
    rw [wordsFrom, marked]
    by_cases hsep : isSeparator c
    · rw [if_pos hsep, if_pos hsep, flatMap_markedWord_close, ih (by simpa using hsep)]
      rfl
    have hsep' : isSeparator c = false := by simpa using hsep
    rw [if_neg hsep, if_neg hsep]
    cases hword : word with
    | nil =>
      -- whether the cut asks for a word or not, one begins here
      have hbegins : beginsWord prev c cs.head? = true := by simp [beginsWord, hprev, hword]
      rw [hbegins]
      split
      · rw [flatMap_markedWord_close, ih (by simpa using hsep')]
        rfl
      · rw [ih (by simpa using hsep')]
        rfl
    | cons d ds =>
      obtain ⟨p, rfl, hp⟩ : ∃ p, prev = some p ∧ isSeparator p = false := by
        simpa [hword, Option.all_eq_false] using hprev
      have hne : (d :: ds).reverse ≠ [] := by simp
      rw [Option.any_some, startsWord_eq_beginsWord hp]
      split
      case isTrue hbegins =>
        rw [flatMap_markedWord_close, ih (by simpa using hsep'), hbegins]
        rfl
      case isFalse hbegins =>
        rw [ih (by simpa using hsep'), List.reverse_cons, markedWord_append_singleton hne, List.append_assoc,
          eq_false_of_ne_true hbegins]
        rfl

-- ---------------------------------------------------------------------------
-- What words consist of
-- ---------------------------------------------------------------------------

/-- No letter or digit is lost, and none is added. -/
theorem flatten_wordsFrom (cs : List Char) : (wordsFrom none [] cs).flatten = cs.filter (!isSeparator ·) := by
  have hmarked : (wordsFrom none [] cs).flatMap markedWord = marked none cs := flatMap_markedWord_wordsFrom rfl cs
  rw [← map_fst_marked none, ← hmarked, List.map_flatMap]
  simp only [map_fst_markedWord, List.flatMap_id']

theorem ne_nil_of_mem_close {word : List Char} {words : List (List Char)} (hwords : ∀ w ∈ words, w ≠ []) :
    ∀ w ∈ close word words, w ≠ [] := by
  intro w hw
  unfold close at hw
  split at hw
  case isTrue => exact hwords w hw
  case isFalse hword =>
    obtain rfl | hw := List.mem_cons.mp hw
    · simpa using hword
    · exact hwords w hw

theorem ne_nil_of_mem_wordsFrom {prev : Option Char} {word : List Char} :
    ∀ w ∈ wordsFrom prev word cs, w ≠ [] := by
  induction cs generalizing prev word with
  | nil => exact ne_nil_of_mem_close fun _ hw => absurd hw List.not_mem_nil
  | cons c cs ih =>
    rw [wordsFrom]
    split
    · exact ne_nil_of_mem_close ih
    · split
      · exact ne_nil_of_mem_close ih
      · exact ih

/-- A word of letters and digits. -/
structure Word (w : List Char) : Prop where
  ne_nil : w ≠ []
  plain : ∀ c ∈ w, isSeparator c = false

theorem word_of_mem_wordsFrom : ∀ w ∈ wordsFrom none [] cs, Word w := by
  intro w hw
  refine ⟨ne_nil_of_mem_wordsFrom w hw, fun c hc => ?_⟩
  have hmem : c ∈ (wordsFrom none [] cs).flatten := List.mem_flatten.mpr ⟨w, hw, hc⟩
  rw [flatten_wordsFrom] at hmem
  simpa using (List.mem_filter.mp hmem).2

theorem map_toList_words (s : String) : (words s).map String.toList = wordsFrom none [] s.toList := by
  rw [words, List.map_map]
  exact (List.map_congr_left fun w _ => String.toList_ofList).trans (List.map_id _)

theorem join_words (s : String) : String.join (words s) = String.ofList (s.toList.filter (!isSeparator ·)) := by
  rw [← String.toList_inj, String.toList_join, String.toList_ofList, List.flatMap_def, map_toList_words,
    flatten_wordsFrom]

theorem map_toList_lowerWords (s : String) :
    (lowerWords s).map String.toList = (wordsFrom none [] s.toList).map (·.map Text.lowerChar) := by
  rw [← map_toList_words, lowerWords, List.map_map, List.map_map]
  exact List.map_congr_left fun w _ => String.toList_ofList

/-- The words of a name in small letters make up its key. -/
theorem join_lowerWords (s : String) : String.join (lowerWords s) = key s := by
  rw [← String.toList_inj, String.toList_join, List.flatMap_def, map_toList_lowerWords, ← List.map_flatten,
    flatten_wordsFrom, key, String.toList_ofList]

/-- The words of a name are not empty and have no separators. Together they are the name without its
separators, and in small letters they are its key. A character begins a word exactly if those beside it
ask for that. -/
theorem words_conserve (s : String) :
    (∀ w ∈ words s, w ≠ "" ∧ ∀ c ∈ w.toList, isSeparator c = false) ∧
    String.join (words s) = String.ofList (s.toList.filter (!isSeparator ·)) ∧
    String.join (lowerWords s) = key s ∧
    (words s).flatMap (fun w => markedWord w.toList) = marked none s.toList := by
  refine ⟨fun w hw => ?_, join_words s, join_lowerWords s, ?_⟩
  · have hmem : w.toList ∈ wordsFrom none [] s.toList := map_toList_words s ▸ List.mem_map_of_mem hw
    have hword := word_of_mem_wordsFrom _ hmem
    exact ⟨mt String.toList_eq_nil_iff.mpr hword.ne_nil, hword.plain⟩
  · rw [← List.flatMap_map, map_toList_words]
    exact flatMap_markedWord_wordsFrom rfl s.toList

example : words "getXML_node2Part" = ["get", "XML", "node2", "Part"] := by decide +kernel

theorem Word.lower (h : Word w) : Word (w.map Text.lowerChar) where
  ne_nil := by simpa using h.ne_nil
  plain := by
    intro c hc
    obtain ⟨d, hd, rfl⟩ := List.mem_map.mp hc
    rw [Text.isSeparator_lowerChar]
    exact h.plain d hd

-- ---------------------------------------------------------------------------
-- Words that are joined
-- ---------------------------------------------------------------------------

/-- Letters, digits and single inner underscores. -/
structure Snake (cs : List Char) : Prop where
  chars : ∀ c ∈ cs, Text.isLetter c ∨ Text.isDecimal c ∨ c = '_'
  first : cs.head? ≠ some '_'
  last : cs.getLast? ≠ some '_'
  single : cs.IsChain fun a b => ¬ (a = '_' ∧ b = '_')

theorem Word.not_mem_underscore (h : Word w) : '_' ∉ w :=
  fun hmem => absurd (h.plain '_' hmem) (by decide)

theorem Word.snake (h : Word w) : Snake w where
  chars c hc := (isSeparator_eq_false_iff.mp (h.plain c hc)).imp_right .inl
  first hfirst := h.not_mem_underscore (List.mem_of_mem_head? hfirst)
  last hlast := h.not_mem_underscore (List.mem_of_getLast? hlast)
  single := by
    have hnone := h.not_mem_underscore
    refine List.Pairwise.isChain (List.pairwise_of_forall_mem_list fun a ha b _ => ?_)
    rintro ⟨rfl, -⟩
    exact hnone ha

theorem Word.snake_append (h : Word w) (hrest : Snake rest) (hne : rest ≠ []) : Snake (w ++ '_' :: rest) where
  chars c hc := by
    obtain hc | hc := List.mem_append.mp hc
    · exact h.snake.chars c hc
    obtain rfl | hc := List.mem_cons.mp hc
    · exact .inr (.inr rfl)
    · exact hrest.chars c hc
  first := by
    rw [List.head?_append_of_ne_nil _ h.ne_nil]
    exact h.snake.first
  last := by
    rw [List.append_cons, List.getLast?_append_of_ne_nil _ hne]
    exact hrest.last
  single := by
    refine List.isChain_append.mpr ⟨h.snake.single, List.isChain_cons.mpr ⟨?_, hrest.single⟩, ?_⟩
    · rintro c hc ⟨-, rfl⟩
      exact hrest.first hc
    · rintro c hc _ _ ⟨rfl, -⟩
      exact h.snake.last hc

theorem intercalate_ne_nil (hw : w ≠ []) : ['_'].intercalate (w :: ws) ≠ [] := by
  cases ws with
  | nil => simpa using hw
  | cons w' ws => simp [List.intercalate_cons_cons]

theorem snake_intercalate (h : ∀ w ∈ ws, Word w) : Snake (['_'].intercalate ws) := by
  induction ws with
  | nil => exact ⟨by simp, by simp, by simp, by simp⟩
  | cons w ws ih =>
    obtain ⟨hw, hws⟩ := List.forall_mem_cons.mp h
    cases ws with
    | nil => simpa using hw.snake
    | cons w' ws =>
      rw [List.intercalate_cons_cons, List.append_assoc, List.singleton_append]
      exact hw.snake_append (ih hws) (intercalate_ne_nil (hws w' List.mem_cons_self).ne_nil)

theorem head?_intercalate (h : ∀ w ∈ ws, Word w) : (['_'].intercalate ws).head? = ws.flatten.head? := by
  cases ws with
  | nil => rfl
  | cons w ws =>
    have hne := (h w List.mem_cons_self).ne_nil
    rw [List.flatten_cons, List.head?_append_of_ne_nil _ hne]
    cases ws with
    | nil => simp
    | cons w' ws =>
      rw [List.intercalate_cons_cons, List.append_assoc, List.head?_append_of_ne_nil _ hne]

/-- A letter may be put in front. -/
theorem Snake.cons (h : Snake cs) (hne : cs ≠ []) (hletter : Text.isLetter c) (hc : c ≠ '_') :
    Snake (c :: cs) where
  chars := List.forall_mem_cons.mpr ⟨.inl hletter, h.chars⟩
  first := by simpa using hc
  last := by
    rw [List.getLast?_cons_of_ne_nil hne]
    exact h.last
  single := List.isChain_cons.mpr ⟨fun _ _ hboth => hc hboth.1, h.single⟩

-- ---------------------------------------------------------------------------
-- Snake case
-- ---------------------------------------------------------------------------

/-- The first letter or digit of a text. -/
def firstPlain? (s : String) : Option Char :=
  s.toList.find? (!isSeparator ·)

def StartsWithDigit (s : String) : Prop :=
  s.toList.head?.any Text.isDecimal

instance (s : String) : Decidable (StartsWithDigit s) :=
  inferInstanceAs (Decidable (_ = true))

/-- The first letter or digit of a text is a digit, but none of ASCII. -/
def ForeignDigitFirst (s : String) : Prop :=
  (firstPlain? s).any fun c => Text.isDecimal c && !c.isDigit

instance (s : String) : Decidable (ForeignDigitFirst s) :=
  inferInstanceAs (Decidable (_ = true))

/-- The words of a text in small letters, joined by underscores. -/
def joinedWords (s : String) : List Char :=
  ['_'].intercalate ((wordsFrom none [] s.toList).map (·.map Text.lowerChar))

theorem word_of_mem_lower (s : String) :
    ∀ w ∈ (wordsFrom none [] s.toList).map (·.map Text.lowerChar), Word w := by
  intro w hw
  obtain ⟨v, hv, rfl⟩ := List.mem_map.mp hw
  exact (word_of_mem_wordsFrom v hv).lower

theorem toList_intercalate_lowerWords (s : String) :
    (String.intercalate "_" (lowerWords s)).toList = joinedWords s := by
  rw [String.toList_intercalate, map_toList_lowerWords]
  rfl

theorem snake_joinedWords (s : String) : Snake (joinedWords s) :=
  snake_intercalate (word_of_mem_lower s)

theorem head?_joinedWords (s : String) : (joinedWords s).head? = (firstPlain? s).map Text.lowerChar := by
  rw [joinedWords, head?_intercalate (word_of_mem_lower s), ← List.map_flatten, flatten_wordsFrom,
    List.head?_map, List.head?_filter]
  rfl

/-- A digit of ASCII is put behind a letter. -/
theorem toList_snakeCase (s : String) : (snakeCase s).toList =
    if (firstPlain? s).any Char.isDigit then 'v' :: joinedWords s else joinedWords s := by
  have hdigit : (joinedWords s).head?.any Char.isDigit = (firstPlain? s).any Char.isDigit := by
    rw [head?_joinedWords]
    cases firstPlain? s with
    | none => rfl
    | some c => exact Text.isDigit_lowerChar c
  rw [snakeCase, toList_intercalate_lowerWords, hdigit]
  split
  · rw [String.toList_append, toList_intercalate_lowerWords]
    rfl
  · exact toList_intercalate_lowerWords s

theorem joinedWords_eq_nil_iff (s : String) : joinedWords s = [] ↔ firstPlain? s = none := by
  rw [← List.head?_eq_none_iff, head?_joinedWords, Option.map_eq_none_iff]

theorem snake_snakeCase (s : String) : Snake (snakeCase s).toList := by
  rw [toList_snakeCase]
  split
  case isTrue hdigit =>
    have hne : joinedWords s ≠ [] := by
      rw [ne_eq, joinedWords_eq_nil_iff]
      intro hnone
      simp [hnone] at hdigit
    exact (snake_joinedWords s).cons hne (by decide) (by decide)
  case isFalse => exact snake_joinedWords s

/-- Only what has neither letters nor digits has nothing in snake case. -/
theorem snakeCase_eq_empty_iff (s : String) : snakeCase s = "" ↔ ∀ c ∈ s.toList, isSeparator c := by
  rw [← String.toList_eq_nil_iff, toList_snakeCase]
  have hnone : firstPlain? s = none ↔ ∀ c ∈ s.toList, isSeparator c := by
    simp [firstPlain?, List.find?_eq_none]
  split
  case isTrue hdigit =>
    have hsome : firstPlain? s ≠ none := by
      intro hnone
      simp [hnone] at hdigit
    simpa using mt hnone.mpr hsome
  case isFalse => rw [joinedWords_eq_nil_iff, hnone]

theorem startsWithDigit_snakeCase_iff (s : String) : StartsWithDigit (snakeCase s) ↔ ForeignDigitFirst s := by
  rw [StartsWithDigit, ForeignDigitFirst, toList_snakeCase]
  cases hfirst : firstPlain? s with
  | none =>
    have hnil := (joinedWords_eq_nil_iff s).mpr hfirst
    simp [hnil]
  | some c =>
    have hhead : (joinedWords s).head? = some (Text.lowerChar c) := by
      rw [head?_joinedWords, hfirst]
      rfl
    by_cases hdigit : c.isDigit
    · have hletter : Text.isDecimal 'v' = false := by decide
      simp [hdigit, hletter]
    · simp [hdigit, hhead]

-- ---------------------------------------------------------------------------
-- Segments of a namespace
-- ---------------------------------------------------------------------------

theorem mem_namespaceSegments {ns segment : String} (h : segment ∈ namespaceSegments ns) :
    segment ≠ "" ∧ ∃ part ∈ namespaceParts ns, snakeCase (String.ofList part) = segment := by
  unfold namespaceSegments at h
  split at h
  · exact absurd h List.not_mem_nil
  · obtain ⟨hmem, hne⟩ := List.mem_filter.mp h
    exact ⟨by simpa using hne, List.mem_map.mp hmem⟩

theorem Snake.dot_not_mem (h : Snake cs) : '.' ∉ cs := by
  intro hdot
  have hno := h.chars '.' hdot
  revert hno
  decide

/-- A name in snake case is made of letters, digits and single inner underscores, and so is every
segment of a namespace. Neither starts with a digit, unless it is the first letter or digit of what is
put into snake case and none of ASCII. -/
theorem snakeCase_well_formed (s ns : String) :
    (Snake (snakeCase s).toList ∧ (snakeCase s = "" ↔ ∀ c ∈ s.toList, isSeparator c) ∧
      (StartsWithDigit (snakeCase s) ↔ ForeignDigitFirst s)) ∧
    ∀ segment ∈ namespaceSegments ns, segment ≠ "" ∧ Snake segment.toList ∧ '.' ∉ segment.toList ∧
      ∃ part ∈ namespaceParts ns, segment = snakeCase (String.ofList part) ∧
        (StartsWithDigit segment ↔ ForeignDigitFirst (String.ofList part)) := by
  refine ⟨⟨snake_snakeCase s, snakeCase_eq_empty_iff s, startsWithDigit_snakeCase_iff s⟩,
    fun segment hsegment => ?_⟩
  obtain ⟨hne, part, hpart, rfl⟩ := mem_namespaceSegments hsegment
  have hsnake := snake_snakeCase (String.ofList part)
  exact ⟨hne, hsnake, hsnake.dot_not_mem, part, hpart, rfl, startsWithDigit_snakeCase_iff _⟩

end Schemata.Name

namespace Schemata.Name.Eastern

/-- The digit three of Arabic script. -/
def three : String := "٣"

/-- A namespace with a part that starts with it. -/
def ns : String := "urn:acme:Types:٣Teile"

theorem segments_well_formed :
    namespaceSegments ns = ["acme", "types", "٣_teile"] ∧ Snake "٣_teile".toList ∧ '.' ∉ "٣_teile".toList := by
  have hsegments : namespaceSegments ns = ["acme", "types", "٣_teile"] := by decide +kernel
  have hmem : "٣_teile" ∈ namespaceSegments ns := by
    rw [hsegments]
    decide
  obtain ⟨-, hsnake, hdot, -⟩ := (snakeCase_well_formed three ns).2 "٣_teile" hmem
  exact ⟨hsegments, hsnake, hdot⟩

/-- Not every name in snake case starts with a letter. -/
theorem snakeCase_three : snakeCase three = three ∧ StartsWithDigit (snakeCase three) ∧
    namespaceSegments ("urn:" ++ three) = [three] := by
  decide +kernel

end Schemata.Name.Eastern

-- ---------------------------------------------------------------------------
-- Segments
-- ---------------------------------------------------------------------------

namespace Schemata.Name

variable {name : String}

/-- A text that can be one segment of a module path. -/
def Segment (name : String) : Prop :=
  name ≠ "" ∧ '.' ∉ name.toList

theorem dot_not_mem_snakeCase (s : String) : '.' ∉ (snakeCase s).toList :=
  (snake_snakeCase s).dot_not_mem

/-- The name of a module that a type gives: its own in snake case, or the default. -/
theorem segment_snakeCase (s : String) :
    Segment (if snakeCase s = "" then defaultModule else snakeCase s) := by
  split
  case isTrue => exact ⟨by decide, by decide⟩
  case isFalse hne => exact ⟨hne, dot_not_mem_snakeCase s⟩

theorem Segment.numbered (hname : Segment name) (n : Nat) : Segment (numbered name n) := by
  have hdigits : '.' ∉ (toString n).toList := by
    rw [Nat.toString_eq_ofList_toDigits, String.toList_ofList]
    intro hmem
    have hdigit := Nat.isDigit_of_mem_toDigits (b := 10) (by decide) (by decide) hmem
    revert hdigit
    decide
  constructor
  · intro hempty
    have hlist := congrArg String.toList hempty
    simp [Name.numbered] at hlist
  · rw [Name.numbered, String.toList_append, String.toList_append, List.mem_append, List.mem_append, not_or, not_or]
    exact ⟨⟨hname.2, by decide⟩, hdigits⟩

theorem Segment.unique (hname : Segment name) (taken : List String) :
    Segment (Name.unique name taken).1 := by
  unfold Name.unique
  split
  · obtain ⟨m, heq, -⟩ := freeFrom_eq name taken taken.length 1
    change Segment (freeFrom name taken taken.length 1)
    rw [heq]
    exact hname.numbered m
  · exact hname

end Schemata.Name

namespace Schemata.ModulePath

/-- Where the path of a module in a package is cut. -/
theorem cutLast?_join {name package : String} (hname : Name.Segment name) (hpackage : package ≠ "") :
    Text.cutLast? '.' (join [package, name]).toList = some (package.toList, name.toList) := by
  have hjoin : (join [package, name]).toList = package.toList ++ '.' :: name.toList := by
    simp [join, hname.1, hpackage]
  rw [hjoin, Text.cutLast?_append hname.2]

theorem join_empty {name : String} (hname : Name.Segment name) : join ["", name] = name := by
  simp [join, hname.1]

/-- The path of a module tells its package. -/
theorem parent_join {name : String} (hname : Name.Segment name) (package : String) :
    parent (join [package, name]) = package := by
  unfold parent
  by_cases hpackage : package = ""
  · rw [hpackage, join_empty hname, Text.cutLast?_eq_none hname.2]
  · rw [cutLast?_join hname hpackage]
    exact String.ofList_toList

/-- The path of a module tells its name. -/
theorem base_join {name : String} (hname : Name.Segment name) (package : String) :
    base (join [package, name]) = name := by
  unfold base
  by_cases hpackage : package = ""
  · rw [hpackage, join_empty hname, Text.cutLast?_eq_none hname.2]
  · rw [cutLast?_join hname hpackage]
    exact String.ofList_toList

end Schemata.ModulePath
