/-
Acatl.Lib.Sorting — sorting with a comparison that need not be an order, and
removing adjacent repeats.

A sort is promised something only of the lists on which the comparison is a
strict weak ordering (`StrictWeakOn`): there the result is a permutation in
which nothing is less than what stands before it (`SortOf`). Of the other
lists nothing is promised, so a sort within its contract may do anything with
them (`contract_exists`).

  `contract_forall_iff`  what holds of every sort within its contract.
  `stdSort_contract`     an insertion sort of the short lists, as the standard
                         library writes it, is within the contract.
  `nodup_destutter_ne`   no repeat is left over in a sorted list.
-/
import Mathlib.Data.List.Destutter
import Mathlib.Data.List.Dedup
import Mathlib.Data.List.Sort

namespace Acatl.Lib

variable {α : Type*}

/-! ## §1 The contract of a sort -/

section

variable (lt : α → α → Bool)

/-- The comparison is a strict weak ordering on the elements of the list. -/
structure StrictWeakOn (l : List α) : Prop where
  irrefl : ∀ a ∈ l, lt a a = false
  trans : ∀ a ∈ l, ∀ b ∈ l, ∀ c ∈ l, lt a b = true → lt b c = true → lt a c = true
  incomp_trans : ∀ a ∈ l, ∀ b ∈ l, ∀ c ∈ l, lt a b = false ∧ lt b a = false →
    lt b c = false ∧ lt c b = false → lt a c = false ∧ lt c a = false

/-- `sorted` is the list, sorted. -/
structure SortOf (l sorted : List α) : Prop where
  perm : sorted.Perm l
  ordered : sorted.Pairwise fun a b => lt b a = false

/-- What a sort is promised to do. -/
def SortContract (sort : List α → List α) : Prop :=
  ∀ l, StrictWeakOn lt l → SortOf lt l (sort l)

end

variable {lt : α → α → Bool}

theorem StrictWeakOn.false_trans {l : List α} (h : StrictWeakOn lt l) {a b c : α} (ha : a ∈ l)
    (hb : b ∈ l) (hc : c ∈ l) (hab : lt a b = false) (hbc : lt b c = false) : lt a c = false := by
  rw [Bool.eq_false_iff]
  intro hac
  -- `b` is comparable neither with `a` nor with `c`
  have hba : lt b a = false := by
    rw [Bool.eq_false_iff]
    intro hba
    rw [h.trans b hb a ha c hc hba hac] at hbc
    cases hbc
  have hcb : lt c b = false := by
    rw [Bool.eq_false_iff]
    intro hcb
    rw [h.trans a ha c hc b hb hac hcb] at hab
    cases hab
  rw [(h.incomp_trans a ha b hb c hc ⟨hab, hba⟩ ⟨hbc, hcb⟩).1] at hac
  cases hac

/-- A list can be sorted. -/
theorem StrictWeakOn.exists_sortOf {l : List α} (h : StrictWeakOn lt l) :
    ∃ sorted, SortOf lt l sorted := by
  let le : {a // a ∈ l} → {a // a ∈ l} → Bool := fun a b => !lt b.1 a.1
  have htrans : ∀ a b c, le a b = true → le b c = true → le a c = true := by
    intro a b c hab hbc
    simp only [le, Bool.not_eq_true'] at hab hbc ⊢
    exact h.false_trans c.2 b.2 a.2 hbc hab
  have htotal : ∀ a b, (le a b || le b a) = true := by
    intro a b
    by_contra hboth
    simp only [le, Bool.or_eq_true, Bool.not_eq_true', not_or, Bool.not_eq_false] at hboth
    have haa := h.trans a.1 a.2 b.1 b.2 a.1 a.2 hboth.2 hboth.1
    rw [h.irrefl a.1 a.2] at haa
    cases haa
  refine ⟨(l.attach.mergeSort le).map Subtype.val, ?_, ?_⟩
  · have hperm := (List.mergeSort_perm l.attach le).map Subtype.val
    rwa [List.attach_map_subtype_val] at hperm
  · rw [List.pairwise_map]
    refine (List.pairwise_mergeSort htrans htotal l.attach).imp ?_
    intro a b hab
    simpa [le] using hab

/-- A sort within its contract, with any result that the contract allows. -/
theorem contract_exists (l result : List α) (h : StrictWeakOn lt l → SortOf lt l result) :
    ∃ sort, SortContract lt sort ∧ sort l = result := by
  classical
  refine ⟨fun l' => if l' = l then result else if hl' : StrictWeakOn lt l' then
    hl'.exists_sortOf.choose else l', fun l' hl' => ?_, if_pos rfl⟩
  dsimp only
  split
  · rename_i heq
    subst heq
    exact h hl'
  · exact hl'.exists_sortOf.choose_spec

/-- **What every sort within its contract achieves**: nothing but what holds of
all lists, unless the comparison is a strict weak ordering. -/
theorem contract_forall_iff {P : List α → Prop} (l : List α) (hsome : ∃ result, ¬ P result) :
    (∀ sort, SortContract lt sort → P (sort l)) ↔
      StrictWeakOn lt l ∧ ∀ sorted, SortOf lt l sorted → P sorted := by
  constructor
  · intro hall
    have hresult : ∀ result, (StrictWeakOn lt l → SortOf lt l result) → P result := by
      intro result hresult
      obtain ⟨sort, hsort, rfl⟩ := contract_exists l result hresult
      exact hall sort hsort
    refine ⟨?_, fun sorted hsorted => hresult sorted fun _ => hsorted⟩
    by_contra hweak
    obtain ⟨result, hP⟩ := hsome
    exact hP (hresult result fun h => absurd h hweak)
  · intro ⟨hweak, hP⟩ sort hsort
    exact hP _ (hsort l hweak)

theorem StrictWeakOn.mono {l l' : List α} (h : StrictWeakOn lt l) (hsub : ∀ a ∈ l', a ∈ l) :
    StrictWeakOn lt l' where
  irrefl a ha := h.irrefl a (hsub a ha)
  trans a ha b hb c hc := h.trans a (hsub a ha) b (hsub b hb) c (hsub c hc)
  incomp_trans a ha b hb c hc := h.incomp_trans a (hsub a ha) b (hsub b hb) c (hsub c hc)

theorem StrictWeakOn.asymm {l : List α} (h : StrictWeakOn lt l) {a b : α} (ha : a ∈ l) (hb : b ∈ l)
    (hab : lt a b = true) : lt b a = false := by
  rw [Bool.eq_false_iff]
  intro hba
  have haa := h.trans a ha b hb a ha hab hba
  rw [h.irrefl a ha] at haa
  cases haa

/-! ## §2 Insertion sort -/

section

variable (lt)

/-- `std::__unguarded_linear_insert`: the value moves past the elements that it
is less than. The elements before it are given from the last to the first;
that there is one on which it stops is the caller's concern. -/
def unguardedLinearInsert (value : α) : List α → List α
  | [] => [value]
  | a :: before => if lt value a then a :: unguardedLinearInsert value before
                   else value :: a :: before

/-- One pass of the loop of `std::__insertion_sort`. -/
def linearInsert (sorted : List α) (value : α) : List α :=
  match sorted with
  | [] => [value]
  | first :: rest =>
    if lt value first then value :: first :: rest
    else (unguardedLinearInsert lt value (first :: rest).reverse).reverse

/-- `std::__insertion_sort`. -/
def insertionSort (l : List α) : List α := l.foldl (linearInsert lt) []

/-- `std::sort`: up to 16 elements are sorted by insertion alone. `introsort` is
what is done with more of them. -/
def stdSort (introsort : List α → List α) (l : List α) : List α :=
  if l.length ≤ 16 then insertionSort lt l else introsort l

end

theorem unguardedLinearInsert_perm (value : α) : ∀ before : List α,
    (unguardedLinearInsert lt value before).Perm (value :: before)
  | [] => List.Perm.refl _
  | a :: before => by
    rw [unguardedLinearInsert]
    split
    · exact ((unguardedLinearInsert_perm value before).cons a).trans (List.Perm.swap value a before)
    · exact List.Perm.refl _

theorem linearInsert_perm (sorted : List α) (value : α) :
    (linearInsert lt sorted value).Perm (value :: sorted) := by
  unfold linearInsert
  split
  · exact List.Perm.refl _
  · split
    · exact List.Perm.refl _
    · refine (List.reverse_perm _).trans ((unguardedLinearInsert_perm value _).trans ?_)
      exact (List.reverse_perm _).cons value

/-- The value is put where it belongs. The order goes down, since the list is
read from its end. -/
theorem unguardedLinearInsert_ordered {value : α} : ∀ {before : List α},
    StrictWeakOn lt (value :: before) → (before.Pairwise fun a b => lt a b = false) →
      (unguardedLinearInsert lt value before).Pairwise fun a b => lt a b = false
  | [], _, _ => by simp [unguardedLinearInsert]
  | a :: before, h, hordered => by
    obtain ⟨ha, hbefore⟩ := List.pairwise_cons.mp hordered
    rw [unguardedLinearInsert]
    split
    · rename_i hlt
      have hrest : StrictWeakOn lt (value :: before) :=
        h.mono fun b hb => by grind
      refine List.pairwise_cons.mpr ⟨fun b hb => ?_, unguardedLinearInsert_ordered hrest hbefore⟩
      cases List.mem_cons.mp ((unguardedLinearInsert_perm value before).mem_iff.mp hb) with
      | inl heq => exact heq ▸ h.asymm (by simp) (by simp) hlt
      | inr hb => exact ha b hb
    · rename_i hlt
      have hlt : lt value a = false := by simpa using hlt
      refine List.pairwise_cons.mpr ⟨fun b hb => ?_, hordered⟩
      cases List.mem_cons.mp hb with
      | inl heq => exact heq ▸ hlt
      | inr hb' => exact h.false_trans (by simp) (by simp) (by simp [hb']) hlt (ha b hb')

theorem linearInsert_ordered {sorted : List α} {value : α} (h : StrictWeakOn lt (value :: sorted))
    (hordered : sorted.Pairwise fun a b => lt b a = false) :
    (linearInsert lt sorted value).Pairwise fun a b => lt b a = false := by
  unfold linearInsert
  split
  · simp
  · rename_i first rest
    split
    · rename_i hlt
      refine List.pairwise_cons.mpr ⟨fun b hb => ?_, hordered⟩
      cases List.mem_cons.mp hb with
      | inl heq => exact heq ▸ h.asymm (by simp) (by simp) hlt
      | inr hb' =>
        -- what is not less than the first element is not less than the value
        have hfirst := (List.pairwise_cons.mp hordered).1 b hb'
        exact h.false_trans (by simp [hb']) (by simp) (by simp) hfirst
          (h.asymm (by simp) (by simp) hlt)
    · rw [List.pairwise_reverse]
      refine unguardedLinearInsert_ordered (h.mono fun b hb => by grind) ?_
      rwa [List.pairwise_reverse]

theorem foldl_linearInsert {rest : List α} : ∀ {sorted : List α},
    StrictWeakOn lt (sorted ++ rest) → (sorted.Pairwise fun a b => lt b a = false) →
      SortOf lt (sorted ++ rest) (rest.foldl (linearInsert lt) sorted) := by
  induction rest with
  | nil => intro sorted _ hordered; exact ⟨by simp, hordered⟩
  | cons value rest ih =>
    intro sorted h hordered
    have hperm : (linearInsert lt sorted value).Perm (value :: sorted) :=
      linearInsert_perm sorted value
    have hall : (linearInsert lt sorted value ++ rest).Perm (sorted ++ value :: rest) :=
      (hperm.append_right rest).trans List.perm_middle.symm
    have hvalue : StrictWeakOn lt (value :: sorted) := h.mono fun b hb => by grind
    have hinsert := linearInsert_ordered hvalue hordered
    obtain ⟨hsorted, hdone⟩ := ih (h.mono fun b hb => hall.mem_iff.mp hb) hinsert
    exact ⟨hsorted.trans hall, hdone⟩

theorem insertionSort_contract : SortContract lt (insertionSort lt) := by
  intro l hl
  have hsort : SortOf lt ([] ++ l) (l.foldl (linearInsert lt) []) :=
    foldl_linearInsert hl List.Pairwise.nil
  exact hsort

/-- **The standard library's sort is within the contract**, if it is for the
lists that are not sorted by insertion. -/
theorem stdSort_contract {introsort : List α → List α} (h : SortContract lt introsort) :
    SortContract lt (stdSort lt introsort) := by
  intro l hl
  unfold stdSort
  split
  · exact insertionSort_contract l hl
  · exact h l hl

/-! ## §3 Adjacent repeats -/

variable [DecidableEq α]

theorem mem_destutter'_ne {a b : α} {l : List α} : a ∈ l.destutter' (· ≠ ·) b ↔ a ∈ b :: l := by
  induction l generalizing b with
  | nil => simp
  | cons c l ih =>
    by_cases hbc : b = c
    · subst hbc
      rw [List.destutter'_cons_neg l (by simp), ih]
      simp
    · rw [List.destutter'_cons_pos l hbc, List.mem_cons, ih, ← List.mem_cons]

/-- No element is lost. -/
theorem mem_destutter_ne {a : α} {l : List α} : a ∈ l.destutter (· ≠ ·) ↔ a ∈ l := by
  cases l with
  | nil => simp
  | cons b l => rw [List.destutter_cons', mem_destutter'_ne]

section

variable {le : α → α → Prop} (hantisymm : ∀ a b, le a b → le b a → a = b)

include hantisymm

theorem nodup_destutter'_ne {b : α} {l : List α} (h : (b :: l).Pairwise le) :
    (l.destutter' (· ≠ ·) b).Nodup := by
  induction l generalizing b with
  | nil => simp
  | cons c l ih =>
    obtain ⟨hb, htail⟩ := List.pairwise_cons.mp h
    by_cases hbc : b = c
    · subst hbc
      rw [List.destutter'_cons_neg l (by simp)]
      exact ih htail
    · rw [List.destutter'_cons_pos l hbc, List.nodup_cons, mem_destutter'_ne, List.mem_cons, not_or]
      -- between two equal elements there are no others
      refine ⟨⟨hbc, fun hmem => hbc ?_⟩, ih htail⟩
      exact hantisymm b c (hb c (by simp)) ((List.pairwise_cons.mp htail).1 b hmem)

/-- **In a sorted list all repeats are adjacent.** -/
theorem nodup_destutter_ne {l : List α} (h : l.Pairwise le) : (l.destutter (· ≠ ·)).Nodup := by
  cases l with
  | nil => simp
  | cons b l =>
    rw [List.destutter_cons']
    exact nodup_destutter'_ne hantisymm h

/-- What is left over of a sorted list, up to the order. -/
theorem destutter_ne_perm_dedup {l l' : List α} (h : l.Pairwise le) (hl : l.Perm l') :
    (l.destutter (· ≠ ·)).Perm l'.dedup := by
  rw [List.perm_ext_iff_of_nodup (nodup_destutter_ne hantisymm h) (List.nodup_dedup l')]
  intro a
  rw [mem_destutter_ne, List.mem_dedup, hl.mem_iff]

end

end Acatl.Lib
