/-
Acatl.Mqtt.TreeMatching — what `SubscriptionTree::match` finds in a tree
built by `addFilter` calls.

For a tree with one filter the answer is `Fits` (`single_mem_sessionsFor`).
With several filters it is still what fits (`mem_sessionsFor`), as long as no
two of them cross: when a node has a child for an ordinary level `a` next to
its `"+"` child, walking the first one moves the iterator object the second
one then reads (`Acatl.Mqtt.TreeCrossing`).

  §1  crossing filters, and trees without them;
  §2  what `match` finds in such a tree;
  §3  a tree with one filter, against the rule of the standard.
-/
import Acatl.Mqtt.TreeWalk

namespace Acatl.Mqtt

variable {σ : Type}

/-! ## §1 Crossing filters -/

/-- Filter `f` goes on with `"+"`, `c` and `v` where another filter goes on
with the ordinary level `a`. A `c` that is the final `"#"` does no harm, and a
filter with a level that nothing can match is never missed. -/
structure CrossingAt (filters : List TopicFilter) (f : TopicFilter) (u : List Bytes) (a c : Bytes)
    (v : List Bytes) : Prop where
  mem : f ∈ filters
  levels : f.levels = u ++ plusLevel :: c :: v
  inner : c ≠ hashLevel
  matchable : ∀ l ∈ f.levels, Matchable l
  plain : Plain a
  other : ∃ g ∈ filters, ∃ w, g.levels = u ++ a :: w

/-- Two of the filters part at the same level, one with `"+"` and the other
with an ordinary level. -/
def Crossing (filters : List TopicFilter) : Prop :=
  ∃ f u a c v, CrossingAt filters f u a c v

/-- The same absence, read off a tree: next to a `"+"` child with sessions
further down there is no child for an ordinary level. -/
def SubscriptionNode.NoCrossing (n : SubscriptionNode σ) : Prop :=
  ∀ u a c v x, x ∈ n.sessionsAt (u ++ plusLevel :: c :: v) → c ≠ hashLevel →
    (∀ l ∈ u ++ plusLevel :: c :: v, Matchable l) → Plain a → n.nodeAt (u ++ [a]) = none

open SubscriptionNode

section

variable {kind : NodeKind} {s : Finset σ} {nodes : NodeMap σ}

theorem SubscriptionNode.NoCrossing.child (h : (intermediate kind s nodes).NoCrossing) {k : Bytes}
    {n : SubscriptionNode σ} (hk : Matchable k) (hfind : nodes.find? k = some n) :
    n.NoCrossing := by
  intro u a c v x hx hc hm ha
  have hnode := h (k :: u) a c v x
    (by rw [List.cons_append, sessionsAt_cons_some hfind]; exact hx) hc
    (by simpa using ⟨hk, fun l hl => hm l (by simpa using hl)⟩) ha
  rwa [List.cons_append, nodeAt_cons_some hfind] at hnode

/-- A child walked with the levels that are really left contributes what fits
below its key. -/
theorem child_exact {nodes : NodeMap σ} [DecidableEq σ] {k m : Bytes} {ms : List Bytes} {x : σ}
    (hexact : ∀ n, nodes.find? k = some n →
      (x ∈ (n.walk ⟨m, ms⟩).sessions ↔ ∃ path, x ∈ n.sessionsAt path ∧ Fits path (m :: ms))) :
    x ∈ (nodes.walkAt k ⟨m, ms⟩).sessions ↔
      ∃ path, x ∈ (intermediate kind s nodes).sessionsAt (k :: path) ∧ Fits path (m :: ms) := by
  rw [mem_walkAt]
  constructor
  · rintro ⟨n, hfind, hx⟩
    obtain ⟨path, hstored, hfits⟩ := (hexact n hfind).mp hx
    exact ⟨path, by rwa [sessionsAt_cons_some hfind], hfits⟩
  · rintro ⟨path, hstored, hfits⟩
    obtain ⟨n, hfind, hx⟩ := mem_sessionsAt_cons.mp hstored
    exact ⟨n, hfind, (hexact n hfind).mpr ⟨path, hx, hfits⟩⟩

end

/-! ## §2 Trees without crossing filters -/

/-- The stored paths that fit a topic, by their first level: it is the topic's
own level, `"+"`, or a final `"#"`. -/
theorem exists_fits_cons {stored : List Bytes → Prop} {l : Bytes} {ls : List Bytes} :
    (∃ path, stored path ∧ Fits path (l :: ls)) ↔
      (∃ path, stored (l :: path) ∧ Fits path ls) ∨ stored [hashLevel] ∨
      (∃ path, stored (plusLevel :: path) ∧ Fits path ls) := by
  constructor
  · rintro ⟨path, hstored, hfits⟩
    cases path with
    | nil => exact hfits.elim
    | cons f fs =>
      rcases hfits with ⟨rfl, rfl⟩ | ⟨rfl | rfl, hfits⟩
      · exact .inr (.inl hstored)
      · exact .inr (.inr ⟨fs, hstored, hfits⟩)
      · exact .inl ⟨fs, hstored, hfits⟩
  · rintro (⟨path, hstored, hfits⟩ | hstored | ⟨path, hstored, hfits⟩)
    · exact ⟨_, hstored, .inr ⟨.inr rfl, hfits⟩⟩
    · exact ⟨_, hstored, fits_hash l ls⟩
    · exact ⟨_, hstored, .inr ⟨.inl rfl, hfits⟩⟩

theorem Grown.noCrossing {subs : List (TopicFilter × σ)} {n : SubscriptionNode σ}
    (h : Grown subs n) (hcross : ¬ Crossing (subs.map Prod.fst)) : n.NoCrossing := by
  intro u a c v x hx hc hm ha
  by_contra hnode
  obtain ⟨f, hf, hlevels⟩ := (h.stored _ x).mp hx
  rcases (h.nodes (u ++ [a])).mp (Option.isSome_iff_ne_none.mpr hnode) with
    hnil | ⟨g, y, hg, w, hw⟩
  · simp at hnil
  · exact hcross ⟨f, u, a, c, v,
      { mem := List.mem_map.mpr ⟨_, hf, rfl⟩
        levels := hlevels
        inner := hc
        matchable := hlevels ▸ hm
        plain := ha
        other := ⟨g, List.mem_map.mpr ⟨_, hg, rfl⟩, w, by simpa using hw.symm⟩ }⟩

variable [DecidableEq σ]

/-- Without crossing filters a walk collects exactly what is stored under the
paths that fit. -/
theorem walk_exact (ahead : List Bytes) : ∀ (level : Bytes) (n : SubscriptionNode σ), n.Shaped →
    n.isMulti = false → n.NoCrossing → (∀ l ∈ level :: ahead, Plain l) → ∀ x : σ,
    (x ∈ (n.walk ⟨level, ahead⟩).sessions ↔
      ∃ path, x ∈ n.sessionsAt path ∧ Fits path (level :: ahead)) := by
  induction ahead with
  | nil =>
    intro l n hn hinner _ _ x
    cases n with
    | multiLevelWildCard s => simp at hinner
    | intermediate kind s nodes =>
      rw [mem_walk_end, exists_fits_cons]
      -- with no level left only the empty path fits
      have hend : ∀ k, (∃ path, x ∈ (intermediate kind s nodes).sessionsAt (k :: path) ∧
          Fits path []) ↔ x ∈ (intermediate kind s nodes).sessionsAt [k] := by
        intro k
        constructor
        · rintro ⟨path, hstored, hfits⟩
          cases path with
          | nil => exact hstored
          | cons _ _ => exact hfits.elim
        · exact fun hstored => ⟨[], hstored, trivial⟩
      rw [hend, hend]
  | cons m ms ih =>
    intro l n hn hinner hcross hplain x
    cases n with
    | multiLevelWildCard s => simp at hinner
    | intermediate kind s nodes =>
      have hl : Plain l := hplain l (by simp)
      have hms : ∀ k ∈ m :: ms, Plain k := fun k hk => hplain k (by simp [hk])
      have hchild : ∀ k, k ≠ hashLevel → Matchable k → ∀ n, nodes.find? k = some n →
          (x ∈ (n.walk ⟨m, ms⟩).sessions ↔ ∃ path, x ∈ n.sessionsAt path ∧ Fits path (m :: ms)) :=
        fun k hk hmatchable n hfind => ih m n (hn.child hfind) (hn.not_multi hfind hk)
          (hcross.child hmatchable hfind) hms x
      rw [hn.mem_walk_cons, exists_fits_cons,
        child_exact (hchild l hl.ne_hashLevel hl.matchable)]
      refine or_congr Iff.rfl (or_congr Iff.rfl ?_)
      cases hliteral : nodes.find? l with
      | none =>
        rw [walkAt_none hliteral]
        exact child_exact (hchild plusLevel plusLevel_ne_hashLevel matchable_plus)
      | some a =>
        -- the object has moved on, and below the `"+"` child only `"#"` counts
        have hhash : ∀ path, x ∈ (intermediate kind s nodes).sessionsAt (plusLevel :: path) →
            path ≠ [] → (∀ k ∈ path, Matchable k) → ∃ v, path = hashLevel :: v := by
          intro path hstored hne hm
          cases path with
          | nil => exact absurd rfl hne
          | cons c v =>
            by_cases hc : c = hashLevel
            · exact ⟨v, by rw [hc]⟩
            · have hnone := hcross [] l c v x hstored hc
                (by simpa using ⟨matchable_plus, hm c (by simp), fun k hk => hm k (by simp [hk])⟩)
                hl
              simp [nodeAt_cons, hliteral] at hnone
        constructor
        · intro hx
          obtain ⟨n, hfind, hx⟩ := mem_walkAt.mp hx
          have hsuffix := walkAt_suffix nodes l ⟨m, ms⟩
          obtain ⟨path, hstored, hne, -, hm⟩ := walk_visits n _ (hn.child hfind)
            (hn.not_multi hfind plusLevel_ne_hashLevel) (fun k hk => hms k (hsuffix.subset hk)) hx
          obtain ⟨v, rfl⟩ := hhash path (by rwa [sessionsAt_cons_some hfind]) hne hm
          refine ⟨hashLevel :: v, by rwa [sessionsAt_cons_some hfind], .inl ⟨rfl, ?_⟩⟩
          exact (hn.child hfind).nil_of_hash hstored
        · rintro ⟨path, hstored, hfits⟩
          have hne : path ≠ [] := by rintro rfl; exact hfits.elim
          obtain ⟨v, rfl⟩ := hhash path hstored hne (hfits.matchable hms)
          obtain ⟨n, hfind, hx⟩ := mem_sessionsAt_cons.mp hstored
          obtain rfl := (hn.child hfind).nil_of_hash hx
          exact mem_walkAt.mpr ⟨n, hfind, (hn.child hfind).mem_walk_of_hash hx _⟩

/-- **Without crossing filters `match` finds the subscriptions that fit.** -/
theorem mem_sessionsFor {subs : List (TopicFilter × σ)} {tree : SubscriptionTree σ}
    (h : Grown subs tree.rootNode) (hcross : ¬ Crossing (subs.map Prod.fst)) {t : TopicName}
    (ht : t.Valid) (x : σ) :
    x ∈ tree.sessionsFor t ↔ ∃ f, (f, x) ∈ subs ∧ Fits f.levels t.levels := by
  rw [sessionsFor_eq_walk, walk_exact _ _ _ h.shaped h.inner (h.noCrossing hcross) ht.plain]
  constructor
  · rintro ⟨path, hstored, hfits⟩
    obtain ⟨f, hf, rfl⟩ := (h.stored path x).mp hstored
    exact ⟨f, hf, hfits⟩
  · rintro ⟨f, hf, hfits⟩
    exact ⟨f.levels, (h.stored _ x).mpr ⟨f, hf, rfl⟩, hfits⟩

/-- A filter does not cross itself. -/
theorem not_crossing_single (f : TopicFilter) : ¬ Crossing [f] := by
  rintro ⟨f', u, a, c, v, hcross⟩
  obtain ⟨g, hg, w, hother⟩ := hcross.other
  have hlevels := hcross.levels
  rw [List.mem_singleton.mp hcross.mem] at hlevels
  rw [List.mem_singleton.mp hg, hlevels] at hother
  exact hcross.plain.ne_plusLevel (List.cons.inj (List.append_cancel_left hother)).1.symm

/-- The tree with one subscription. -/
theorem single_mem_sessionsFor {f : TopicFilter} (hf : f.Valid) {t : TopicName} (ht : t.Valid)
    (s : σ) : ∃ tree, SubscriptionTree.new.addFilters [(f, s)] = some tree ∧
      ∀ x, x ∈ tree.sessionsFor t ↔ x = s ∧ Fits f.levels t.levels := by
  have hvalid : ∀ p ∈ [(f, s)], p.1.Valid := by simpa using hf
  obtain ⟨tree, hadd, hgrown⟩ := SubscriptionTree.addFilters_grown hvalid
  refine ⟨tree, hadd, fun x => ?_⟩
  rw [mem_sessionsFor hgrown (not_crossing_single f) ht]
  constructor
  · rintro ⟨g, hg, hfits⟩
    obtain ⟨rfl, rfl⟩ := Prod.mk.inj (List.mem_singleton.mp hg)
    exact ⟨rfl, hfits⟩
  · rintro ⟨rfl, hfits⟩
    exact ⟨f, by simp, hfits⟩

/-! ## §3 Agreement with the standard -/

/-- **A tree with one filter follows the rule of the standard for every topic
but the parent level of a final `"#"`.** -/
theorem single_matches_iff (f : TopicFilter) (t : TopicName) (s : SessionPtr) (hf : f.Valid)
    (ht : t.Valid) :
    (s ∈ (SubscriptionTree.new.addFilter f s none).2.2.sessionsFor t ↔
      Matches f.levels t.levels) ↔ ¬ AtParent f.levels t.levels := by
  obtain ⟨tree, hadd, hiff⟩ := single_mem_sessionsFor hf ht s
  have htree : (SubscriptionTree.new.addFilter f s none).2.2 = tree := by
    rw [SubscriptionTree.addFilters] at hadd
    split at hadd
    · exact Option.some.inj hadd
    · simp at hadd
  rw [htree, hiff, matches_iff]
  constructor
  · intro h hparent
    exact hparent.not_fits (h.mpr (.inr hparent)).2
  · intro hparent
    simp [hparent]

/-- The filter `a/#` and the topic `a/b`. -/
theorem single_matches_iff_below :
    (some 0 ∈ (SubscriptionTree.new.addFilter
        ⟨[0x61, slash, hashSign], .atMostOnce⟩ (some 0) none).2.2.sessionsFor
        ⟨[0x61, slash, 0x62]⟩ ↔
      Matches (TopicFilter.levels ⟨[0x61, slash, hashSign], .atMostOnce⟩)
        (TopicName.levels ⟨[0x61, slash, 0x62]⟩)) ↔
      ¬ AtParent (TopicFilter.levels ⟨[0x61, slash, hashSign], .atMostOnce⟩)
        (TopicName.levels ⟨[0x61, slash, 0x62]⟩) :=
  single_matches_iff _ _ _ (by decide) (by decide)

/-- The filter `a/#` does not find the topic `a`, which it matches. -/
theorem parent_level_not_found :
    TopicFilter.Valid ⟨[0x61, slash, hashSign], .atMostOnce⟩ ∧ TopicName.Valid ⟨[0x61]⟩ ∧
      ¬ (some 0 ∈ (SubscriptionTree.new.addFilter
          ⟨[0x61, slash, hashSign], .atMostOnce⟩ (some 0) none).2.2.sessionsFor ⟨[0x61]⟩ ↔
        Matches (TopicFilter.levels ⟨[0x61, slash, hashSign], .atMostOnce⟩)
          (TopicName.levels ⟨[0x61]⟩)) := by
  decide

end Acatl.Mqtt
