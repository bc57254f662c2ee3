import Schemata.Choice.Substitutes
import Schemata.Proofs.Step.Ends

/-!
# The expansion of substitution groups comes to an end

A field that stands for a member of a group remembers the heads that it was derived from. No head comes
twice in such a chain, and every head has members, so that no chain is longer than the list of members
of all groups.
-/

namespace Schemata

variable {owner : QName} {substitutes : List (QName × Field)} {d : Derived} {e : Expansion} {head : QName}
  {after : List Derived}

/-- The chain of heads that a field was derived from has no repetition, and the field refers to none of
them. -/
structure Derived.Fresh (substitutes : List (QName × Field)) (d : Derived) : Prop where
  nodup : d.heads.Nodup
  heads : d.heads ⊆ substitutes.map (·.1)
  types : ∀ ft ∈ d.field.types, ft.qname ∉ d.heads

theorem Derived.Fresh.length_heads_le (hd : d.Fresh substitutes) : d.heads.length ≤ substitutes.length := by
  have hle := (List.subperm_of_subset hd.nodup hd.heads).length_le
  rwa [List.length_map] at hle

/-- A field under expansion refers to what it referred to at first, and what has been found is derived
from it. -/
structure Expansion.Expands (substitutes : List (QName × Field)) (d : Derived) (after : List Derived)
    (e : Expansion) : Prop where
  heads : e.current.heads = d.heads
  types : e.current.field.types.map (·.qname) = d.field.types.map (·.qname)
  after : e.after = after
  found : ∀ d' ∈ e.found, d'.Fresh substitutes ∧ d'.heads.length = d.heads.length + 1

namespace Expansion.Expands

theorem addMember (he : e.Expands substitutes d after) (hd : d.Fresh substitutes) {member : Field}
    (hhead : head ∈ d.field.types.map (·.qname)) (hmember : (head, member) ∈ substitutes)
    (htypes : ∃ ft, member.types = [ft]) : (e.addMember owner head member).Expands substitutes d after := by
  unfold Expansion.addMember
  dsimp only
  split
  · exact ⟨he.heads, he.types, he.after, he.found⟩
  case isFalse hnew =>
    refine ⟨he.heads, he.types, he.after, fun d' hd' => ?_⟩
    obtain hd' | hd' := List.mem_append.mp hd'
    · exact he.found d' hd'
    rw [List.mem_singleton.mp hd']
    obtain ⟨ft₀, hft₀, rfl⟩ := List.mem_map.mp hhead
    obtain ⟨ft, hft⟩ := htypes
    simp only [hft, List.headD_cons, not_or, he.heads] at hnew
    refine ⟨⟨?_, ?_, fun a ha => ?_⟩, by simp [he.heads]⟩
    · rw [he.heads]
      exact List.nodup_cons.mpr ⟨hd.types ft₀ hft₀, hd.nodup⟩
    · rw [he.heads]
      exact List.cons_subset.mpr ⟨List.mem_map_of_mem (f := (·.1)) hmember, hd.heads⟩
    · have ha : a ∈ member.types := ha
      rw [hft, List.mem_singleton] at ha
      rw [ha, he.heads]
      simp [hnew.1, hnew.2]

theorem addMembers (hd : d.Fresh substitutes) (hmembers : ∀ p ∈ substitutes, ∃ ft, p.2.types = [ft])
    (hhead : head ∈ d.field.types.map (·.qname)) (members : List Field)
    (hadded : ∀ m ∈ members, (head, m) ∈ substitutes) (he : e.Expands substitutes d after) :
    (members.foldl (Expansion.addMember owner head) e).Expands substitutes d after := by
  induction members generalizing e with
  | nil => exact he
  | cons m members ih =>
    obtain ⟨hm, hadded⟩ := List.forall_mem_cons.mp hadded
    exact ih hadded (he.addMember hd hhead hm (hmembers _ hm))

theorem expandType (hd : d.Fresh substitutes) (hmembers : ∀ p ∈ substitutes, ∃ ft, p.2.types = [ft])
    (he : e.Expands substitutes d after) (k : Nat) :
    (e.expandType owner substitutes k).Expands substitutes d after := by
  unfold Expansion.expandType
  dsimp only
  split
  · exact he
  case h_2 ft hft =>
    have htypes : (e.current.field.types.modify k fun ft => { ft with substituted := true }).map (·.qname) =
        d.field.types.map (·.qname) := by
      rw [← he.types]
      refine List.ext_getElem? fun j => ?_
      rw [List.getElem?_map, List.getElem?_modify, List.getElem?_map, Option.map_eq_map, Option.map_map]
      congr 1
      funext ft
      dsimp only [Function.comp_apply]
      split <;> rfl
    split
    · exact he
    split
    · exact ⟨he.heads, htypes, he.after, he.found⟩
    · refine addMembers hd hmembers ?_ _ (fun m hm => ?_) ⟨he.heads, htypes, he.after, he.found⟩
      · rw [← he.types]
        exact List.mem_map_of_mem (List.mem_of_getElem? hft)
      · obtain ⟨p, hp, rfl⟩ := List.mem_map.mp hm
        obtain ⟨hp, hhead⟩ := List.mem_filter.mp hp
        rwa [← beq_iff_eq.mp hhead]

theorem foldl_expandType (hd : d.Fresh substitutes)
    (hmembers : ∀ p ∈ substitutes, ∃ ft, p.2.types = [ft]) (places : List Nat)
    (he : e.Expands substitutes d after) :
    (places.foldl (Expansion.expandType owner substitutes) e).Expands substitutes d after := by
  induction places generalizing e with
  | nil => exact he
  | cons k places ih => exact ih (he.expandType hd hmembers k)

end Expansion.Expands

/-- From some number of rounds on the expansion of the fields that are left is complete. -/
def Expandable (owner : QName) (substitutes : List (QName × Field)) (ds : List Derived) : Prop :=
  ∀ before warnings, ∃ r, Eventually fun n => expandSubstitutes owner substitutes n before ds warnings = some r

theorem expandable_nil : Expandable owner substitutes [] := by
  intro before warnings
  refine ⟨(before, warnings), .of_forall fun n => ?_⟩
  rw [expandSubstitutes]

/-- By induction on how much longer the chain of heads may get. -/
theorem expandable_cons (hmembers : ∀ p ∈ substitutes, ∃ ft, p.2.types = [ft])
    (hd : d.Fresh substitutes) (hafter : Expandable owner substitutes after) :
    Expandable owner substitutes (d :: after) := by
  induction hroom : substitutes.length - d.heads.length using Nat.strongRecOn generalizing d after with
  | ind room ih =>
    intro before warnings
    by_cases helement : d.field.isElement = true
    case neg =>
      obtain ⟨r, hr⟩ := hafter (before ++ [d.field]) warnings
      refine ⟨r, hr.succ fun n hn => ?_⟩
      rw [expandSubstitutes, if_neg helement, hn]
    have he : ((List.range d.field.types.length).foldl (Expansion.expandType owner substitutes)
        { before, current := d, after, warnings }).Expands substitutes d after :=
      .foldl_expandType hd hmembers _ ⟨rfl, rfl, rfl, by simp⟩
    have hstep : ∀ n, expandSubstitutes owner substitutes (n + 1) before (d :: after) warnings = _ :=
      fun n => by rw [expandSubstitutes, if_pos helement]
    generalize (List.range d.field.types.length).foldl (Expansion.expandType owner substitutes)
      { before, current := d, after, warnings } = e at he hstep
    have hfound : ∀ found : List Derived, (∀ d' ∈ found, d' ∈ e.found) →
        Expandable owner substitutes (found ++ after) := by
      intro found
      induction found with
      | nil => exact fun _ => hafter
      | cons d' found ih' =>
        intro hsub
        obtain ⟨hd', hsub⟩ := List.forall_mem_cons.mp hsub
        obtain ⟨hfresh, hlength⟩ := he.found d' hd'
        have hle := hfresh.length_heads_le
        exact ih _ (by omega) hfresh (ih' hsub) rfl
    obtain ⟨r, hr⟩ := hfound e.found (fun _ hd' => hd') (before ++ [e.current.field]) e.warnings
    refine ⟨r, hr.succ fun n hn => ?_⟩
    simp only [hstep, he.after, hn]

/-- The fields of a type are derived from no head. -/
theorem expandable_fields (owner : QName) (hmembers : ∀ p ∈ substitutes, ∃ ft, p.2.types = [ft])
    (fields : List Field) :
    Expandable owner substitutes (fields.map fun f => { field := f }) := by
  induction fields with
  | nil => exact expandable_nil
  | cons f fields ih => exact expandable_cons hmembers ⟨List.nodup_nil, by simp, by simp⟩ ih

end Schemata
