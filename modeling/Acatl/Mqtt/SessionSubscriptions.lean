/-
Acatl.Mqtt.SessionSubscriptions — what a session remembers over the calls of
`Session::addSubscriptions`.

The call takes the difference of two ranges with `std::set_difference`, which
walks along both at once and rests on both being sorted. The filters of the call
are; those of the session are appended in the order in which they come.

  `setDifference_eq`      what the walk leaves over of a sorted range.
  `remembersOnce_iff`     over any calls, every filter is remembered once if and
                          only if no filter of a call is stored behind a greater
                          one.
-/
import Acatl.Lib.Machine
import Acatl.Mqtt.FilterOrder
import Acatl.Mqtt.Sessions
import Mathlib.Data.List.TakeWhile

namespace Acatl.Mqtt

open Acatl.Lib

/-! ## §1 The difference of two ranges -/

section

variable {α : Type} [DecidableEq α] {lt : α → α → Bool} (hirrefl : ∀ a, lt a a = false)
  (hconnected : ∀ a b, lt a b = false → lt b a = false → a = b)
  (htrans : ∀ a b c, lt b a = false → lt c b = false → lt c a = false)

include hirrefl hconnected htrans

/-- Of a sorted range without repeats the walk drops the elements that it finds
in the second range before a greater one. -/
theorem setDifference_eq : ∀ {as : List α}, as.Nodup → (as.Pairwise fun a b => lt b a = false) →
    ∀ bs : List α, setDifference lt as bs = as.filter fun a => a ∉ bs.takeWhile fun b => !lt a b
  | [], _, _, bs => by rw [setDifference]; rfl
  | a :: as, hnodup, hsorted, bs => by
    obtain ⟨hnotMem, hnodup⟩ := List.nodup_cons.mp hnodup
    obtain ⟨ha, hsorted⟩ := List.pairwise_cons.mp hsorted
    have ih := setDifference_eq hnodup hsorted
    rw [setDifference]
    induction bs with
    | nil => simp [differenceFrom]
    | cons b bs ihb =>
      rw [differenceFrom]
      by_cases hab : lt a b = true
      · rw [if_pos hab, ih, List.filter_cons_of_pos (by simp [hab])]
      · have hab : lt a b = false := by simpa using hab
        -- what is behind `a` is not less than `b` either, and `b` is not one of it
        have hskip : ∀ c ∈ as, (c ∉ (b :: bs).takeWhile fun d => !lt c d) ↔
            c ∉ bs.takeWhile fun d => !lt c d := by
          intro c hc
          have hcb : lt c b = false := htrans b a c hab (ha c hc)
          have hne : c ≠ b := by
            intro heq
            have hca := hconnected c a (ha c hc) (heq ▸ hab)
            exact hnotMem (hca ▸ hc)
          simp [hcb, hne]
        have hfilter : (as.filter fun c => c ∉ (b :: bs).takeWhile fun d => !lt c d) =
            as.filter fun c => c ∉ bs.takeWhile fun d => !lt c d :=
          List.filter_congr fun c hc => decide_eq_decide.mpr (hskip c hc)
        rw [if_neg (by simp [hab])]
        by_cases hba : lt b a = true
        · have hne : a ≠ b := by
            intro heq
            rw [heq, hirrefl] at hba
            cases hba
          rw [if_pos hba, ihb, List.filter_cons, List.filter_cons, hfilter]
          simp [hab, hne]
        · have heq : a = b := hconnected a b hab (by simpa using hba)
          rw [if_neg hba, ih, List.filter_cons_of_neg (by simp [hirrefl, heq]), hfilter]

end

theorem TopicFilter.lt_irrefl (f : TopicFilter) : f.lt f = false :=
  lt_false_iff.mpr ⟨List.le_refl _, le_refl _⟩

theorem TopicFilter.lt_false_trans {f g k : TopicFilter} (hgf : g.lt f = false)
    (hkg : k.lt g = false) : k.lt f = false := by
  rw [lt_false_iff] at hgf hkg ⊢
  exact ⟨List.le_trans hgf.1 hkg.1, le_trans hgf.2 hkg.2⟩

/-- Filters as a SUBSCRIBE packet has them: sorted, and none twice. -/
structure Delivered (filters : TopicFilters) : Prop where
  nodup : filters.Nodup
  sorted : filters.Pairwise fun f g => g.lt f = false

/-- Nothing that is stored before a filter of the call is greater than it. -/
def FoundInOrder (stored filters : TopicFilters) : Prop :=
  ∀ f ∈ filters, ∀ before after, stored = before ++ f :: after → ∀ g ∈ before, f.lt g = false

theorem mem_takeWhile_iff {α : Type} {p : α → Bool} {l : List α} {a : α} :
    a ∈ l.takeWhile p ↔
      ∃ before after, l = before ++ a :: after ∧ (∀ b ∈ before, p b = true) ∧ p a = true := by
  constructor
  · intro ha
    obtain ⟨before, after, hcut⟩ := List.append_of_mem ha
    have hall : ∀ b ∈ before ++ a :: after, p b = true := fun b hb =>
      List.mem_takeWhile_imp (hcut ▸ hb)
    refine ⟨before, after ++ l.dropWhile p, ?_, fun b hb => hall b (by simp [hb]), hall a (by simp)⟩
    conv_lhs => rw [← List.takeWhile_append_dropWhile (p := p) (l := l), hcut]
    simp
  · intro ⟨before, after, hl, hbefore, ha⟩
    rw [hl, List.takeWhile_append_of_pos hbefore, List.takeWhile_cons_of_pos ha]
    simp

/-- The filters that are stored are found if nothing greater is before them. -/
theorem foundInOrder_iff {stored : TopicFilters} (hstored : stored.Nodup) {filters : TopicFilters} :
    FoundInOrder stored filters ↔
      ∀ f ∈ filters, f ∈ stored → f ∈ stored.takeWhile fun g => !f.lt g := by
  refine forall₂_congr fun f _ => ?_
  constructor
  · intro h hmem
    obtain ⟨before, after, hcut⟩ := List.append_of_mem hmem
    refine mem_takeWhile_iff.mpr ⟨before, after, hcut, fun g hg => ?_, by simp [f.lt_irrefl]⟩
    simp [h before after hcut g hg]
  · intro h before after hcut g hg
    obtain ⟨before', after', hcut', hall, -⟩ := mem_takeWhile_iff.mp (h (by simp [hcut]))
    -- the filter stands in one place only
    have hsame : before = before' := by
      have hcuts : before ++ f :: after = before' ++ f :: after' := hcut.symm.trans hcut'
      have hnotMem : f ∉ before ∧ f ∉ after := by
        have hmiddle := List.perm_middle.nodup_iff.mp (hcut ▸ hstored)
        simpa using (List.nodup_cons.mp hmiddle).1
      exact ((List.append_cons_inj_of_notMem hnotMem.1 hnotMem.2).mp hcuts).1
    simpa using hall g (hsame ▸ hg)

/-- **The difference with what is stored**, where it is one. -/
theorem findDifference_eq_iff {stored filters : TopicFilters} (hstored : stored.Nodup)
    (h : Delivered filters) :
    findDifference filters stored = (filters.filter fun f => f ∉ stored) ↔
      FoundInOrder stored filters := by
  rw [findDifference, setDifference_eq TopicFilter.lt_irrefl
    (fun _ _ => TopicFilter.lt_connected) (fun _ _ _ => TopicFilter.lt_false_trans) h.nodup
    h.sorted, foundInOrder_iff hstored]
  constructor
  · intro heq f hf hmem
    by_contra hlost
    have hleft : f ∈ filters.filter fun f => f ∉ stored := by
      rw [← heq]
      simp [hf, hlost]
    simp [hmem] at hleft
  · intro hfound
    refine List.filter_congr fun f hf => decide_eq_decide.mpr (not_congr ?_)
    exact ⟨fun hmem => (List.takeWhile_sublist _).subset hmem, hfound f hf⟩

/-! ## §2 The calls of a session -/

/-- The calls of `addSubscriptions`, each with the filters that the handler
gets. -/
abbrev Session.calls : Machine Session TopicFilters TopicFilters := Session.addSubscriptions

/-- The session has stored each filter of the calls once. -/
structure Session.Remembers (session : Session) (calls : List TopicFilters) : Prop where
  nodup : session.subscriptions.Nodup
  mem : ∀ f, f ∈ session.subscriptions ↔ ∃ filters ∈ calls, f ∈ filters

/-- After the call of `filters`, which follows `earlier` calls on `session`, each
filter ever passed is stored once, and the handler was called with those that
had not been passed before. -/
structure Session.RemembersOnce (session : Session) (earlier : List TopicFilters)
    (filters : TopicFilters) : Prop where
  stored : (Session.calls (Session.calls.after session earlier) filters).2.Remembers
    (earlier ++ [filters])
  handled : (Session.calls (Session.calls.after session earlier) filters).1 =
    filters.filter fun f => ∀ passed ∈ earlier, f ∉ passed

/-- The filters of the call are found in what the session has stored. -/
def Session.Finds (session : Session) (filters : TopicFilters) : Prop :=
  FoundInOrder session.subscriptions filters

/-- One call on a session that remembers the calls before. -/
theorem Session.Remembers.call_iff {session : Session} {earlier : List TopicFilters}
    {filters : TopicFilters} (h : (Session.calls.after session earlier).Remembers earlier)
    (hfilters : Delivered filters) :
    session.RemembersOnce earlier filters ↔
      (Session.calls.after session earlier).Finds filters := by
  generalize hbefore : Session.calls.after session earlier = before at h
  have hnew : (filters.filter fun f => ∀ passed ∈ earlier, f ∉ passed) =
      filters.filter fun f => f ∉ before.subscriptions := by
    refine List.filter_congr fun f _ => decide_eq_decide.mpr ?_
    rw [h.mem]
    simp
  rw [Session.Finds, ← findDifference_eq_iff h.nodup hfilters]
  constructor
  · intro hcall
    rw [← hnew, ← hcall.handled, hbefore]
    rfl
  · intro hdifference
    have hcall : Session.calls before filters =
        (filters.filter fun f => f ∉ before.subscriptions,
          { before with subscriptions :=
              before.subscriptions ++ filters.filter fun f => f ∉ before.subscriptions }) := by
      rw [← hdifference]
      rfl
    refine ⟨⟨?_, fun f => ?_⟩, ?_⟩
    · rw [hbefore, hcall]
      refine List.nodup_append.mpr ⟨h.nodup, hfilters.nodup.filter _, fun f hf g hg heq => ?_⟩
      simp [← heq, hf] at hg
    · rw [hbefore, hcall]
      have hmem := h.mem f
      by_cases hstored : f ∈ before.subscriptions
      · have hpassed := hmem.mp hstored
        grind
      · have hpassed := mt hmem.mpr hstored
        grind
    · rw [hbefore, hcall, hnew]

/-- **A session remembers each subscription once**, over any calls, if and only
if each call finds what is stored of its filters. -/
theorem Session.remembersOnce_iff (clientId : Bytes) (handler : ProcessorId)
    (calls : List TopicFilters) (hcalls : ∀ filters ∈ calls, Delivered filters) :
    (∀ earlier filters, earlier ++ [filters] <+: calls →
        Session.RemembersOnce ⟨clientId, handler, none, []⟩ earlier filters) ↔
      Session.calls.Along Session.Finds ⟨clientId, handler, none, []⟩ calls := by
  generalize hnew : (⟨clientId, handler, none, []⟩ : Session) = new
  have hdelivered : ∀ {earlier filters}, earlier ++ [filters] <+: calls → Delivered filters :=
    fun hfront => hcalls _ (hfront.subset (by simp))
  have hfirst : (Session.calls.after new []).Remembers [] := by
    subst hnew
    exact ⟨List.nodup_nil, by simp [Machine.after]⟩
  have hnext : ∀ {earlier filters}, new.RemembersOnce earlier filters →
      (Session.calls.after new (earlier ++ [filters])).Remembers (earlier ++ [filters]) := by
    intro earlier filters hcall
    rw [Machine.after_append]
    exact hcall.stored
  rw [Machine.along_iff_steps]
  constructor
  · intro hall earlier filters hfront
    have hremembers : (Session.calls.after new earlier).Remembers earlier := by
      cases List.eq_nil_or_concat earlier with
      | inl hnil => exact hnil ▸ hfirst
      | inr hcut =>
        obtain ⟨init, last, hcut⟩ := hcut
        rw [List.concat_eq_append] at hcut
        subst hcut
        exact hnext (hall init last ((List.prefix_append _ _).trans hfront))
    exact (hremembers.call_iff (hdelivered hfront)).mp (hall earlier filters hfront)
  · intro hfinds
    have hremembers : ∀ earlier, earlier <+: calls →
        (Session.calls.after new earlier).Remembers earlier := by
      intro earlier
      induction earlier using List.reverseRecOn with
      | nil => exact fun _ => hfirst
      | append_singleton init last ih =>
        intro hfront
        have hinit := ih ((List.prefix_append _ _).trans hfront)
        exact hnext ((hinit.call_iff (hdelivered hfront)).mpr (hfinds init last hfront))
    intro earlier filters hfront
    have hearlier := hremembers earlier ((List.prefix_append _ _).trans hfront)
    exact (hearlier.call_iff (hdelivered hfront)).mpr (hfinds earlier filters hfront)

/-- The filters `a` and `b`. -/
def filterA : TopicFilter := ⟨[0x61], .atMostOnce⟩
def filterB : TopicFilter := ⟨[0x62], .atMostOnce⟩

theorem Session.remembersOnce_iff_three :
    (∀ filters ∈ [[filterA], [filterA, filterB], [filterB]], Delivered filters) ∧
    ((∀ earlier filters, earlier ++ [filters] <+: [[filterA], [filterA, filterB], [filterB]] →
        Session.RemembersOnce ⟨[], 0, none, []⟩ earlier filters) ↔
      Session.calls.Along Session.Finds ⟨[], 0, none, []⟩
        [[filterA], [filterA, filterB], [filterB]]) := by
  have hcalls : ∀ filters ∈ [[filterA], [filterA, filterB], [filterB]], Delivered filters := by
    intro filters hfilters
    simp only [List.mem_cons, List.not_mem_nil, or_false] at hfilters
    rcases hfilters with rfl | rfl | rfl <;> exact ⟨by decide, by decide⟩
  exact ⟨hcalls, Session.remembersOnce_iff [] 0 _ hcalls⟩

/-- After `b` and then `a`, a second `a` is stored again, and reported as new. -/
theorem Session.forgets :
    ¬ ∀ (clientId : Bytes) (handler : ProcessorId) (calls : List TopicFilters),
      (∀ filters ∈ calls, Delivered filters) →
      ∀ earlier filters, earlier ++ [filters] <+: calls →
        Session.RemembersOnce ⟨clientId, handler, none, []⟩ earlier filters := by
  intro h
  have hcalls : ∀ filters ∈ [[filterB], [filterA], [filterA]], Delivered filters := by
    intro filters hfilters
    simp only [List.mem_cons, List.not_mem_nil, or_false] at hfilters
    rcases hfilters with rfl | rfl | rfl <;> exact ⟨by decide, by decide⟩
  have hlast := h [] 0 _ hcalls [[filterB], [filterA]] [filterA] (List.prefix_refl _)
  exact absurd hlast.stored.nodup (by decide)

end Acatl.Mqtt
