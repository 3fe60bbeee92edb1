/-
Acatl.Mqtt.FilterOrder — `TopicFilter::operator<` as the comparison of a sort.

The operator says that a filter is less if its string is or if its quality of
service is, so of two filters each can be less than the other.

  `strictWeakOn_iff`   on which filters the operator is an order: on those
                       where both parts agree (`Aligned`).
-/
import Acatl.Lib.Sorting
import Acatl.Mqtt.Topic

namespace Acatl.Mqtt

open Acatl.Lib

/-- `std::string`'s `operator<` is the order of lists. -/
theorem stringLt_iff {a b : Bytes} : stringLt a b = true ↔ a < b := by
  induction a generalizing b with
  | nil => cases b <;> simp [stringLt]
  | cons a as ih =>
    cases b with
    | nil => simp [stringLt]
    | cons b bs =>
      rw [stringLt, List.cons_lt_cons_iff, ← ih]
      by_cases hlt : a < b
      · simp [hlt]
      · by_cases hgt : b < a
        · have hne : a ≠ b := by
            rintro rfl
            exact hlt hgt
          simp [hlt, hgt, hne]
        · have heq : a = b := UInt8.le_antisymm (UInt8.not_lt.mp hgt) (UInt8.not_lt.mp hlt)
          simp [heq]

theorem QoSLevel.value_injective : Function.Injective QoSLevel.value := by
  intro q r h
  cases q <;> cases r <;> first | rfl | simp [QoSLevel.value] at h

namespace TopicFilter

theorem lt_iff {f g : TopicFilter} :
    f.lt g = true ↔ f.filter < g.filter ∨ f.qos.value < g.qos.value := by
  simp [lt, stringLt_iff]

theorem lt_false_iff {f g : TopicFilter} :
    f.lt g = false ↔ g.filter ≤ f.filter ∧ g.qos.value ≤ f.qos.value := by
  rw [← Bool.not_eq_true, lt_iff, not_or, List.not_lt, not_lt]

/-- Filters that are not ordered either way are equal. -/
theorem lt_connected {f g : TopicFilter} (hfg : f.lt g = false) (hgf : g.lt f = false) :
    f = g := by
  rw [lt_false_iff] at hfg hgf
  obtain ⟨f, qf⟩ := f
  obtain ⟨g, qg⟩ := g
  have hfilter : f = g := List.le_antisymm hgf.1 hfg.1
  have hqos : qf = qg := QoSLevel.value_injective (le_antisymm hgf.2 hfg.2)
  rw [hfilter, hqos]

end TopicFilter

/-- A filter with a smaller string has no higher quality of service. -/
def Aligned (filters : TopicFilters) : Prop :=
  ∀ f ∈ filters, ∀ g ∈ filters, stringLt f.filter g.filter = true → f.qos.value ≤ g.qos.value

instance (filters : TopicFilters) : Decidable (Aligned filters) :=
  inferInstanceAs (Decidable (∀ f ∈ filters, ∀ g ∈ filters, _ → _))

section

variable {filters : TopicFilters}

/-- Of aligned filters one is less if its quality of service is, or if that is
the same and its string is. -/
theorem Aligned.lt_iff (h : Aligned filters) {f g : TopicFilter} (hf : f ∈ filters)
    (hg : g ∈ filters) : f.lt g = true ↔
      f.qos.value ≤ g.qos.value ∧ (f.filter < g.filter ∨ f.qos.value < g.qos.value) := by
  rw [TopicFilter.lt_iff]
  constructor
  · intro hlt
    refine ⟨?_, hlt⟩
    rcases hlt with hlt | hlt
    · exact h f hf g hg (stringLt_iff.mpr hlt)
    · exact le_of_lt hlt
  · exact And.right

theorem Aligned.trans (h : Aligned filters) {f g k : TopicFilter} (hf : f ∈ filters)
    (hg : g ∈ filters) (hk : k ∈ filters) (hfg : f.lt g = true) (hgk : g.lt k = true) :
    f.lt k = true := by
  rw [h.lt_iff hf hg] at hfg
  rw [h.lt_iff hg hk] at hgk
  rw [TopicFilter.lt_iff]
  rcases hfg.2 with hstring | hqos
  · rcases hgk.2 with hstring' | hqos'
    · exact .inl (List.lt_trans hstring hstring')
    · exact .inr (lt_of_le_of_lt hfg.1 hqos')
  · exact .inr (lt_of_lt_of_le hqos hgk.1)

/-- **The operator is an order on the aligned filters and on no others.** -/
theorem strictWeakOn_iff : StrictWeakOn TopicFilter.lt filters ↔ Aligned filters := by
  have hirrefl : ∀ f : TopicFilter, f.lt f = false := by
    intro f
    rw [TopicFilter.lt_false_iff]
    exact ⟨List.le_refl _, le_refl _⟩
  constructor
  · intro h f hf g hg hlt
    by_contra hqos
    have hfg : f.lt g = true := TopicFilter.lt_iff.mpr (.inl (stringLt_iff.mp hlt))
    have hgf : g.lt f = true := TopicFilter.lt_iff.mpr (.inr (not_le.mp hqos))
    have hff := h.trans f hf g hg f hf hfg hgf
    rw [hirrefl] at hff
    cases hff
  · intro h
    refine ⟨fun f _ => hirrefl f, fun f hf g hg k hk => h.trans hf hg hk, ?_⟩
    intro f _ g _ k _ hfg hgk
    -- filters that are not comparable are the same
    rw [TopicFilter.lt_connected hfg.1 hfg.2]
    exact hgk

/-- Sorted filters have a quality of service that does not go down. -/
theorem qos_of_sortOf {sorted : TopicFilters} (h : SortOf TopicFilter.lt filters sorted) :
    (sorted.map TopicFilter.qos).Pairwise fun q r => q.value ≤ r.value := by
  rw [List.pairwise_map]
  refine h.ordered.imp ?_
  intro f g hgf
  exact (TopicFilter.lt_false_iff.mp hgf).2

end

end Acatl.Mqtt
