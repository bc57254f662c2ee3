import Mathlib
import Schemata.Proofs.Document.Accepted

/-!
# Encoding what has been decoded

Types that have been decoded can be encoded, but they do not always come back. Names are kept when their
texts tell them, which the name that is not given does not: it is written as the empty text, and that is
refused. Texts are kept when the replacement character does not stand in them, since reading makes three
of each. Everything else that can be read is kept, down to the nesting that reading allows.
-/

namespace Schemata

open Json JsonReads

-- ---------------------------------------------------------------------------
-- Marks
-- ---------------------------------------------------------------------------

/-- How often the replacement character stands in a text. -/
def marks (s : String) : Nat :=
  s.toList.count Text.replacement

theorem marks_eq_zero_iff {s : String} : marks s = 0 ↔ Text.replacement ∉ s.toList :=
  List.count_eq_zero

/-- Every mark comes back three times. -/
theorem marks_reread (s : String) : marks (reread s) = 3 * marks s := by
  unfold marks reread
  rw [String.toList_ofList]
  induction s.toList with
  | nil => rfl
  | cons c cs ih =>
    rw [List.flatMap_cons, List.count_append, ih, List.count_cons]
    by_cases hc : c = Text.replacement
    · subst hc
      rw [show spread textRules Text.replacement = List.replicate 3 Text.replacement from rfl,
        List.count_replicate_self]
      simp
      omega
    · rw [spread_of_ne hc, List.count_singleton]
      simp [hc]

theorem reread_eq_self_iff {s : String} : reread s = s ↔ marks s = 0 := by
  constructor
  · intro h
    have hmarks := marks_reread s
    rw [h] at hmarks
    omega
  · intro h
    have hspread : s.toList.flatMap (spread textRules) = s.toList.flatMap ([·]) := by
      refine List.flatMap_congr fun c hc => spread_of_ne ?_
      rintro rfl
      exact marks_eq_zero_iff.mp h hc
    rw [reread, hspread, List.flatMap_singleton', String.ofList_toList]

-- ---------------------------------------------------------------------------
-- Pairs
-- ---------------------------------------------------------------------------

/-- A pair that has been written and read. -/
def rereadPair (p : String × String) : String × String :=
  (reread p.1, reread p.2)

theorem mem_foldl_insertReread {found ps : List (String × String)} {p : String × String}
    (hp : p ∈ ps.foldl insertReread found) : p ∈ found ∨ p ∈ ps.map rereadPair := by
  induction ps generalizing found with
  | nil => exact .inl hp
  | cons q ps ih =>
    obtain hmem | hmem := ih hp
    · obtain rfl | hmem := mem_insertPair hmem
      · exact .inr List.mem_cons_self
      · exact .inl hmem
    · exact .inr (List.mem_cons_of_mem _ hmem)

/-- A pair with a greater key is put at the end. -/
theorem insertPair_eq_append {ps : List (String × String)} {p : String × String} (h : ∀ q ∈ ps, q.1 < p.1) :
    insertPair ps p.1 p.2 = ps ++ [p] := by
  induction ps with
  | nil => rfl
  | cons q ps ih =>
    obtain ⟨hq, hps⟩ := List.forall_mem_cons.mp h
    rw [insertPair, if_neg (String.lt_asymm hq), if_neg (String.ne_of_lt hq).symm, ih hps, List.cons_append]

theorem foldl_insertReread_of_marks {found ps : List (String × String)} (hsorted : SortedPairs (found ++ ps))
    (hmarks : ∀ p ∈ ps, marks p.1 = 0 ∧ marks p.2 = 0) : ps.foldl insertReread found = found ++ ps := by
  induction ps generalizing found with
  | nil => exact (List.append_nil _).symm
  | cons p ps ih =>
    obtain ⟨⟨hkey, hvalue⟩, hmarks⟩ := List.forall_mem_cons.mp hmarks
    have hlast : ∀ q ∈ found, q.1 < p.1 := fun q hq =>
      (List.pairwise_append.mp hsorted).2.2 q hq p List.mem_cons_self
    rw [List.foldl_cons, insertReread, reread_eq_self_iff.mpr hkey, reread_eq_self_iff.mpr hvalue,
      insertPair_eq_append hlast, ih (by rwa [List.append_assoc]) hmarks, List.append_assoc]
    rfl

/-- Sorted pairs come back exactly if there are no marks in them: each pair that comes back is one that was
written, so all of them come back, with three marks for each. -/
theorem foldl_insertReread_eq_self_iff {ps : List (String × String)} (hsorted : SortedPairs ps) :
    ps.foldl insertReread [] = ps ↔ ∀ p ∈ ps, marks p.1 = 0 ∧ marks p.2 = 0 := by
  constructor
  · intro h
    have hnodup : ps.Nodup := by
      refine List.Pairwise.imp ?_ hsorted
      rintro p _ hlt rfl
      exact String.lt_irrefl _ hlt
    have hsubset : ps ⊆ ps.map rereadPair := by
      intro p hp
      rw [← h] at hp
      exact (mem_foldl_insertReread hp).resolve_left List.not_mem_nil
    have hperm : ps.Perm (ps.map rereadPair) :=
      (List.subperm_of_subset hnodup hsubset).perm_of_length_le (List.length_map _).le
    have hsum := (hperm.map fun p => marks p.1 + marks p.2).sum_eq
    have hthrice : ((ps.map rereadPair).map fun p => marks p.1 + marks p.2).sum =
        3 * (ps.map fun p => marks p.1 + marks p.2).sum := by
      rw [List.map_map, ← List.sum_map_mul_left ps (fun p => marks p.1 + marks p.2) 3]
      refine congrArg List.sum (List.map_congr_left fun p _ => ?_)
      simp [rereadPair, marks_reread, Nat.mul_add]
    have hzero : (ps.map fun p => marks p.1 + marks p.2).sum = 0 := by omega
    intro p hp
    have hmarks := List.sum_eq_zero_iff_forall_eq_nat.mp hzero _ (List.mem_map_of_mem hp)
    omega
  · exact foldl_insertReread_of_marks hsorted

-- ---------------------------------------------------------------------------
-- Leaves
-- ---------------------------------------------------------------------------

theorem QName.reread_eq_some_iff {q : QName} : q.reread = some q ↔ q.Legible := by
  rw [← parse_text_iff, reread]
  cases parse q.text <;> simp [Except.toOption]

theorem Particle.reread_eq_iff {p : Particle} (h : ofText p.text = p) :
    ofText (JsonReads.reread p.text) = p ↔ marks p.text = 0 := by
  rw [← reread_eq_self_iff]
  constructor
  · intro heq
    rw [← text_ofText (JsonReads.reread p.text), heq]
  · intro heq
    rw [heq, h]

namespace Leaf

/-- A leaf that a document keeps: names are told by their texts, and there are no marks in texts. -/
def Lasting : Leaf → Prop
  | name q => q.Legible
  | text s => marks s = 0
  | particle p => marks p.text = 0
  | pairs ps => ∀ p ∈ ps, marks p.1 = 0 ∧ marks p.2 = 0
  | number _ | handle _ => True

instance : DecidablePred Lasting
  | name q => inferInstanceAs (Decidable q.Legible)
  | text s => inferInstanceAs (Decidable (marks s = 0))
  | particle p => inferInstanceAs (Decidable (marks p.text = 0))
  | pairs ps => inferInstanceAs (Decidable (∀ p ∈ ps, marks p.1 = 0 ∧ marks p.2 = 0))
  | number _ | .handle _ => inferInstanceAs (Decidable True)

/-- Of what has been read, exactly the lasting leaves come back. -/
theorem Read.kept_iff {l : Leaf} (h : l.Read) (hreleased : l.release = l) :
    l.Kept (unbound number?) ↔ l.Lasting := by
  cases l with
  | name q => exact QName.reread_eq_some_iff
  | text s => exact reread_eq_self_iff
  | number n => exact iff_of_true (number?_eq_some_iff.mpr h) trivial
  | handle n =>
    obtain rfl : 0 = n := Leaf.handle.inj hreleased
    exact iff_of_true (show unbound number? 0 = some 0 by decide) trivial
  | particle p => exact Particle.reread_eq_iff h
  | pairs ps => exact foldl_insertReread_eq_self_iff h

end Leaf

-- ---------------------------------------------------------------------------
-- Documents
-- ---------------------------------------------------------------------------

namespace Document

variable {s : String} {ts : List SchemaType}

/-- Types that a document keeps. -/
def Lasting (ts : List SchemaType) : Prop :=
  (value ts).depth ≤ maxLevels ∧ ∀ t ∈ ts, ∀ l ∈ t.leaves, l.Lasting

instance (ts : List SchemaType) : Decidable (Lasting ts) :=
  inferInstanceAs (Decidable ((value ts).depth ≤ maxLevels ∧ ∀ t ∈ ts, ∀ l ∈ t.leaves, l.Lasting))

/-- What has been decoded can be encoded, and decoding that gives the same types exactly if they last. -/
theorem decodeAs_encodeAs_iff_lasting (h : decodeAs "json" s = .ok ts) : ∃ text, encodeAs "json" ts = .ok text ∧
    (decodeAs "json" text = .ok ts ↔ Lasting ts) := by
  refine ⟨encode .json ts, rfl, ?_⟩
  have hleaves := leaves_of_decode (show decode .json s = .ok ts from h)
  change decode .json (encode .json ts) = .ok ts ↔ _
  rw [decode_encode_eq_ok_self_iff, Lasting]
  refine and_congr_right fun _ => forall₂_congr fun t ht => forall₂_congr fun l hl => ?_
  exact (hleaves t ht l hl).1.kept_iff (hleaves t ht l hl).2

/-- A type in a namespace for which there is a prefix, with one attribute. -/
def price : SchemaType where
  qname := ⟨"urn:a", "Price"⟩
  tag := .complexType
  nsMap := [("a", "urn:a")]
  fields := [{ tag := .attr, name := "unit", types := [{ qname := ⟨"urn:a", "Unit"⟩ }] }]

/-- A document that holds `price`. -/
def priceText : String :=
  "\x7b\"types\":[\x7b\"qname\":\"\x7burn:a\x7dPrice\",\"tag\":\"complexType\",\"nsMap\":\x7b\"a\":\"urn:a\"\x7d," ++
    "\"fields\":[\x7b\"tag\":\"attribute\",\"name\":\"unit\",\"types\":[\x7b\"qname\":\"\x7burn:a\x7dUnit\"\x7d]\x7d]\x7d]\x7d"

set_option maxRecDepth 100000 in
theorem price_survives : decodeAs "json" priceText = .ok [price] ∧
    ∃ text, encodeAs "json" [price] = .ok text ∧ decodeAs "json" text = .ok [price] := by
  -- evaluated by equations from all over the library, which is why the whole of it is imported
  have hread : decodeAs "json" priceText = .ok [price] := by cbv
  have hlasting : Lasting [price] := by decide +kernel
  obtain ⟨text, htext, hiff⟩ := decodeAs_encodeAs_iff_lasting hread
  exact ⟨hread, text, htext, hiff.mpr hlasting⟩

/-- A type with a field whose type has no name. -/
def nameless : SchemaType where
  qname := ⟨"", "T"⟩
  tag := .complexType
  fields := [{ tag := .element, name := "a", types := [{}] }]

/-- A document that holds `nameless`. -/
def namelessText : String :=
  "\x7b\"types\":[\x7b\"qname\":\"T\",\"tag\":\"complexType\",\"fields\":[" ++
    "\x7b\"tag\":\"element\",\"name\":\"a\",\"types\":[\x7b\x7d]\x7d]\x7d]\x7d"

set_option maxRecDepth 100000 in
/-- A document with a name that is not given is accepted, but not what is written for it. -/
theorem nameless_lost : decodeAs "json" namelessText = .ok [nameless] ∧
    ∃ text, encodeAs "json" [nameless] = .ok text ∧ ∀ us, decodeAs "json" text ≠ .ok us := by
  have hread : decodeAs "json" namelessText = .ok [nameless] := by cbv
  refine ⟨hread, encode .json [nameless], rfl, fun us h => ?_⟩
  obtain ⟨-, vs, hvs, -⟩ := decode_encode_eq_ok_iff.mp (show decode .json (encode .json [nameless]) = .ok us from h)
  have hnone : [nameless].mapM (SchemaType.reread number?) = none := rfl
  exact Option.some_ne_none vs (hvs.symm.trans hnone)

end Document

end Schemata
