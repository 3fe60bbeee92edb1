/-
Acatl.Mqtt.FilterSorting — what the sort and the removal of repeats in
`SubscribeParser::parse` rest on.

Both need an order of which two filters are equal or one is less than the
other. `operator<` says of `("a", 2)` and `("b", 0)` that each is less than the
other, so that an equal filter may stand on both sides of another one.

  `fitForSort_iff`   the operator is fit for the sort of a list exactly when the
                     list is aligned.
-/
import Acatl.Mqtt.FilterOrder
import Acatl.Mqtt.BodyParsers

namespace Acatl.Mqtt

open Acatl.Lib

/-- The operator is an order of the filters of the list, of two filters neither
is less only if they are equal, and no two equal filters are left over. -/
structure FitForSort (sort : TopicFilters → TopicFilters) (filters : TopicFilters) : Prop where
  strictWeak : StrictWeakOn TopicFilter.lt filters
  asymm : ∀ f ∈ filters, ∀ g ∈ filters, f.lt g = true → g.lt f = false
  equal : ∀ f ∈ filters, ∀ g ∈ filters, (f.lt g = false ∧ g.lt f = false) ↔ f = g
  unique : (SubscribeParser.unique (sort filters)).Nodup

/-- Sorting puts equal filters next to each other. -/
theorem nodup_unique {filters sorted : TopicFilters} (h : SortOf TopicFilter.lt filters sorted) :
    (SubscribeParser.unique sorted).Nodup :=
  nodup_destutter_ne (fun _ _ hgf hfg => TopicFilter.lt_connected hfg hgf) h.ordered

/-- **The operator is fit for the sort of the aligned lists, and of no others.** -/
theorem fitForSort_iff (introsort : TopicFilters → TopicFilters)
    (hsort : SortContract TopicFilter.lt introsort) (filters : TopicFilters) :
    FitForSort (stdSort TopicFilter.lt introsort) filters ↔ Aligned filters := by
  refine ⟨fun h => strictWeakOn_iff.mp h.strictWeak, fun h => ?_⟩
  have hweak := strictWeakOn_iff.mpr h
  refine ⟨hweak, fun f hf g hg => hweak.asymm hf hg, fun f hf g hg => ⟨?_, ?_⟩, ?_⟩
  · exact fun hincomparable => TopicFilter.lt_connected hincomparable.1 hincomparable.2
  · intro heq
    subst heq
    exact ⟨hweak.irrefl f hf, hweak.irrefl f hf⟩
  · exact nodup_unique (stdSort_contract hsort filters hweak)

theorem fitForSort_iff_two :
    SortContract TopicFilter.lt (insertionSort TopicFilter.lt) ∧
    (FitForSort (stdSort TopicFilter.lt (insertionSort TopicFilter.lt))
        [⟨[0x61], .atMostOnce⟩, ⟨[0x62], .atLeastOnce⟩] ↔
      Aligned [⟨[0x61], .atMostOnce⟩, ⟨[0x62], .atLeastOnce⟩]) :=
  ⟨insertionSort_contract, fitForSort_iff _ insertionSort_contract _⟩

/-- Equal filters on both sides of another one. -/
def interleavedFilters : TopicFilters :=
  [⟨[0x61], .exactlyOnce⟩, ⟨[0x62], .atMostOnce⟩, ⟨[0x61], .exactlyOnce⟩]

/-- They stay where they are, whatever is done with longer lists. -/
theorem not_fitForSort :
    ¬ ∃ introsort, ∀ filters, FitForSort (stdSort TopicFilter.lt introsort) filters := by
  intro ⟨introsort, h⟩
  have hunique := (h interleavedFilters).unique
  have hsort : stdSort TopicFilter.lt introsort interleavedFilters = interleavedFilters := by
    rw [stdSort, if_pos (by decide)]
    decide
  rw [hsort] at hunique
  exact absurd hunique (by decide)

end Acatl.Mqtt
