import Schemata.Name.QName
import Schemata.Text.Split

/-!
# Names and their texts

Which names are read from a text, and which names their own texts stand for.
-/

namespace Schemata.QName

variable {s : String} {q : QName}

theorem text_of_ns_eq (h : q.ns = "") : q.text = q.name :=
  if_pos h

theorem toList_text_of_ns_ne (h : q.ns ≠ "") :
    q.text.toList = '\x7b' :: (q.ns.toList ++ '\x7d' :: q.name.toList) := by
  rw [text, if_neg h]
  simp

/-- A text without a leading brace is a name without a namespace; with one it gives the namespace, up to
the first closing brace, and the local name. -/
theorem parse_eq_ok_iff : parse s = .ok q ↔
    (s ≠ "" ∧ s.toList.head? ≠ some '\x7b' ∧ q = ⟨"", s⟩) ∨
      (q.name ≠ "" ∧ '\x7d' ∉ q.ns.toList ∧ s.toList = '\x7b' :: (q.ns.toList ++ '\x7d' :: q.name.toList)) := by
  rw [parse]
  split
  next hs =>
    rw [String.toList_eq_nil_iff] at hs
    simp [hs]
  next rest hs =>
    rw [hs]
    constructor
    · intro h
      split at h
      next ns c cs hcut =>
        obtain ⟨hns, rfl⟩ := Text.cut?_eq_some_iff.mp hcut
        obtain rfl := Except.ok.inj h
        exact .inr ⟨by simp, by simpa using hns, by simp⟩
      next => exact absurd h nofun
    · rintro (⟨-, hhead, -⟩ | ⟨hname, hns, hrest⟩)
      · exact absurd rfl hhead
      · rw [List.tail_eq_of_cons_eq hrest, Text.cut?_append hns]
        cases hcs : q.name.toList with
        | nil => exact absurd (String.toList_eq_nil_iff.mp hcs) hname
        | cons c cs =>
          dsimp only
          rw [← hcs, String.ofList_toList, String.ofList_toList]
  next hempty hbrace =>
    have hne : s ≠ "" := fun h => hempty (String.toList_eq_nil_iff.mpr h)
    have hhead : s.toList.head? ≠ some '\x7b' := by
      cases hs : s.toList with
      | nil => simp
      | cons c cs =>
        rintro ⟨⟩
        exact hbrace cs hs
    have hstart : s.toList ≠ '\x7b' :: (q.ns.toList ++ '\x7d' :: q.name.toList) :=
      fun h => hhead (h ▸ rfl)
    simp only [Except.ok.injEq, ne_eq, hne, hhead, hstart, not_false_eq_true, true_and, and_false, or_false]
    exact eq_comm

theorem name_ne_of_parse (h : parse s = .ok q) : q.name ≠ "" := by
  obtain ⟨hs, -, rfl⟩ | ⟨hname, -⟩ := parse_eq_ok_iff.mp h
  · exact hs
  · exact hname

/-- A name is told apart in its text: without a namespace it does not start with a brace, and no
brace ends its namespace early. -/
def Legible (q : QName) : Prop :=
  q.name ≠ "" ∧ if q.ns = "" then q.name.toList.head? ≠ some '\x7b' else '\x7d' ∉ q.ns.toList

instance (q : QName) : Decidable q.Legible :=
  inferInstanceAs (Decidable (q.name ≠ "" ∧
    if q.ns = "" then q.name.toList.head? ≠ some '\x7b' else '\x7d' ∉ q.ns.toList))

theorem parse_text_iff : parse q.text = .ok q ↔ q.Legible := by
  obtain ⟨ns, name⟩ := q
  rw [parse_eq_ok_iff, Legible]
  by_cases hns : ns = ""
  · subst hns
    rw [text_of_ns_eq rfl, if_pos rfl]
    have hlonger : name.toList ≠ '\x7b' :: '\x7d' :: name.toList := by
      intro h
      have hlength := congrArg List.length h
      rw [List.length_cons, List.length_cons] at hlength
      omega
    simp [hlonger]
  · rw [toList_text_of_ns_ne hns, if_neg hns]
    simp [hns]

theorem legible_iff : q.Legible ↔ q.name ≠ "" ∧
    (q.ns = "" ∧ q.name.toList.head? ≠ some '\x7b' ∨ q.ns ≠ "" ∧ '\x7d' ∉ q.ns.toList) := by
  rw [Legible]
  by_cases hns : q.ns = "" <;> simp [hns]

/-- A name has another text than the one it is read from exactly if that writes an empty namespace out. -/
theorem text_eq_iff_of_parse (h : parse s = .ok q) : q.text = s ↔ ¬ ['\x7b', '\x7d'] <+: s.toList := by
  obtain ⟨-, hhead, rfl⟩ | ⟨-, hns, hs⟩ := parse_eq_ok_iff.mp h
  · have hplain : ¬ ['\x7b', '\x7d'] <+: s.toList := by
      rintro ⟨rest, hrest⟩
      exact hhead (hrest ▸ rfl)
    simp [text_of_ns_eq, hplain]
  · by_cases hempty : q.ns = ""
    · rw [text_of_ns_eq hempty]
      have hwritten : s.toList = '\x7b' :: '\x7d' :: q.name.toList := by
        rw [hs, hempty]
        rfl
      have hprefix : ['\x7b', '\x7d'] <+: s.toList := ⟨q.name.toList, hwritten.symm⟩
      have hlonger : q.name ≠ s := by
        rintro rfl
        have hlength := congrArg List.length hwritten
        rw [List.length_cons, List.length_cons] at hlength
        omega
      simp [hlonger, hprefix]
    · have hsame : q.text = s := by
        rw [← String.toList_inj, toList_text_of_ns_ne hempty, hs]
      have hplain : ¬ ['\x7b', '\x7d'] <+: s.toList := by
        rw [hs]
        cases hcs : q.ns.toList with
        | nil => exact absurd (String.toList_eq_nil_iff.mp hcs) hempty
        | cons c cs =>
          rw [hcs] at hns
          simpa using (List.ne_of_not_mem_cons hns)
      simp [hsame, hplain]

/-- Which names are read back from their texts, and which texts are those of the names read from them. -/
theorem parse_inverts_text (q : QName) (s : String) :
    (parse q.text = .ok q ↔ q.name ≠ "" ∧
      (q.ns = "" ∧ q.name.toList.head? ≠ some '\x7b' ∨ q.ns ≠ "" ∧ '\x7d' ∉ q.ns.toList)) ∧
    ∀ r : QName, parse s = .ok r → (r.text = s ↔ ¬ ['\x7b', '\x7d'] <+: s.toList) :=
  ⟨parse_text_iff.trans legible_iff, fun _ h => text_eq_iff_of_parse h⟩

/-- An empty namespace that is written out is not written again. -/
theorem text_of_braced : parse "\x7b\x7dItem" = .ok ⟨"", "Item"⟩ ∧ QName.text ⟨"", "Item"⟩ ≠ "\x7b\x7dItem" ∧
    parse "\x7burn:a\x7dItem" = .ok ⟨"urn:a", "Item"⟩ ∧ QName.text ⟨"urn:a", "Item"⟩ = "\x7burn:a\x7dItem" := by
  have hempty : parse "\x7b\x7dItem" = .ok ⟨"", "Item"⟩ := rfl
  have hns : parse "\x7burn:a\x7dItem" = .ok ⟨"urn:a", "Item"⟩ := rfl
  exact ⟨hempty, fun heq => ((parse_inverts_text ⟨"", "Item"⟩ _).2 _ hempty).mp heq (by decide), hns,
    ((parse_inverts_text ⟨"urn:a", "Item"⟩ _).2 _ hns).mpr (by decide)⟩

end Schemata.QName
