/-
Acatl.Mqtt.TreeCrossing — the trie against filter-by-filter matching.

The combined tree finds the union of what the trees with a single filter
find exactly when no two filters cross (`trie_agrees_iff`). Behind a crossing
the `"+"` child is walked with a level too few, so a session is missed
(`walk_missed`), or found for a topic it never asked for (`walk_spurious`).
-/
import Acatl.Mqtt.TreeMatching

namespace Acatl.Mqtt

variable {σ : Type} [DecidableEq σ]

open SubscriptionNode

/-! ## §1 Crossing filters, and a topic that shows it

The topic fills every `"+"` of the common levels with a level `y` that no
filter has, so that the walk reaches the crossing by one way only. -/

/-- No node of the tree has a child under `y`. -/
def SubscriptionNode.Fresh (n : SubscriptionNode σ) (y : Bytes) : Prop :=
  ∀ u, n.nodeAt (u ++ [y]) = none

omit [DecidableEq σ] in
theorem SubscriptionNode.Fresh.child {kind : NodeKind} {s : Finset σ} {nodes : NodeMap σ}
    {y k : Bytes} {n : SubscriptionNode σ} (h : (intermediate kind s nodes).Fresh y)
    (hfind : nodes.find? k = some n) : n.Fresh y := by
  intro u
  have := h (k :: u)
  rwa [List.cons_append, nodeAt_cons_some hfind] at this

omit [DecidableEq σ] in
theorem SubscriptionNode.Fresh.find? {kind : NodeKind} {s : Finset σ} {nodes : NodeMap σ}
    {y : Bytes} (h : (intermediate kind s nodes).Fresh y) : nodes.find? y = none := by
  have := h []
  rw [List.nil_append, nodeAt_cons] at this
  cases hfind : nodes.find? y with
  | none => rfl
  | some n => simp [hfind] at this

omit [DecidableEq σ] in
theorem SubscriptionNode.nodeAt_append (n : SubscriptionNode σ) (u q : List Bytes) :
    n.nodeAt (u ++ q) = (n.nodeAt u).bind (nodeAt · q) := by
  induction u generalizing n with
  | nil => simp
  | cons k u ih =>
    cases n with
    | multiLevelWildCard s => simp
    | intermediate kind s nodes =>
      rw [List.cons_append, nodeAt_cons, nodeAt_cons]
      cases nodes.find? k with
      | none => rfl
      | some c => exact ih c

section

variable {kind : NodeKind} {s : Finset σ} {nodes : NodeMap σ} {x : σ} {y : Bytes}

/-- One level of the way: where everything `x` is stored under starts with
`l`, only the child for `l` matters, and it is walked with the levels left. -/
theorem walk_through (hn : (intermediate kind s nodes).Shaped)
    (hfresh : (intermediate kind s nodes).Fresh y) {l k : Bytes} {ks : List Bytes}
    (hl : Plain l ∨ l = plusLevel) (hplain : ∀ m ∈ k :: ks, Plain m)
    (honly : ∀ path, x ∈ (intermediate kind s nodes).sessionsAt path → [l] <+: path) :
    x ∈ ((intermediate kind s nodes).walk ⟨fillIn y l, k :: ks⟩).sessions ↔
      x ∈ (nodes.walkAt l ⟨k, ks⟩).sessions := by
  -- a child other than the one for `l` has nothing to collect
  have hother : ∀ (j : Bytes) (cur : Cursor), j ≠ hashLevel → j ≠ l →
      cur.levels <:+ k :: ks → x ∉ (nodes.walkAt j cur).sessions := by
    intro j cur hj hne hsuffix hx
    obtain ⟨n, hfind, hx⟩ := mem_walkAt.mp hx
    obtain ⟨path, hstored, -⟩ := walk_visits n _ (hn.child hfind) (hn.not_multi hfind hj)
      (fun m hm => hplain m (hsuffix.subset hm)) hx
    have hpre := honly (j :: path) (by rwa [sessionsAt_cons_some hfind])
    exact hne (List.cons_prefix_cons.mp hpre).1.symm
  have hhash : x ∉ (intermediate kind s nodes).sessionsAt [hashLevel] := by
    intro hx
    have hpre := (List.cons_prefix_cons.mp (honly _ hx)).1
    rcases hl with hl | rfl
    · exact hl.ne_hashLevel hpre
    · exact plusLevel_ne_hashLevel hpre
  rw [hn.mem_walk_cons]
  rcases hl with hl | rfl
  · have hfill : fillIn y l = l := by simp [fillIn, hl]
    have hplus := hother plusLevel (nodes.walkAt l ⟨k, ks⟩).cursor plusLevel_ne_hashLevel
      hl.ne_plusLevel.symm (walkAt_suffix nodes l ⟨k, ks⟩)
    simp [hfill, hhash, hplus]
  · have hfill : fillIn y plusLevel = y := by
      have : ¬ Plain plusLevel := fun h => h.ne_plusLevel rfl
      simp [fillIn, this]
    simp [hfill, walkAt_none hfresh.find?, hhash]

/-- The whole way down to the node under `u`. -/
theorem walk_along {cur' : Cursor} {n' : SubscriptionNode σ} (hplain : ∀ m ∈ cur'.levels, Plain m)
    (hy : Plain y) (u : List Bytes) : ∀ (n : SubscriptionNode σ) (cur : Cursor), n.Shaped →
    n.Fresh y → (∀ l ∈ u, Plain l ∨ l = plusLevel) → n.nodeAt u = some n' →
    (∀ path, x ∈ n.sessionsAt path → u <+: path) →
    cur.levels = u.map (fillIn y) ++ cur'.levels →
    (x ∈ (n.walk cur).sessions ↔ x ∈ (n'.walk cur').sessions) := by
  induction u with
  | nil =>
    intro n cur _ _ _ hnode _ hcur
    obtain rfl : n = n' := by simpa using hnode
    obtain ⟨hlevel, hahead⟩ := List.cons.inj hcur
    rw [show cur = cur' by cases cur; cases cur'; simp_all]
  | cons l u ih =>
    intro n cur hn hfresh hu hnode honly hcur
    cases n with
    | multiLevelWildCard s => simp at hnode
    | intermediate kind s nodes =>
      obtain ⟨level, ahead⟩ := cur
      obtain ⟨rfl, hahead⟩ := List.cons.inj hcur
      obtain ⟨k, ks, rfl⟩ : ∃ k ks, ahead = k :: ks := by
        cases ahead with
        | nil => simp [Cursor.levels] at hahead
        | cons k ks => exact ⟨k, ks, rfl⟩
      have hks : ∀ m ∈ k :: ks, Plain m := by
        intro m hm
        have hahead : k :: ks = u.map (fillIn y) ++ cur'.levels := hahead
        rw [hahead] at hm
        rcases List.mem_append.mp hm with hm | hm
        · obtain ⟨j, -, rfl⟩ := List.mem_map.mp hm
          exact plain_fillIn hy j
        · exact hplain m hm
      cases hfind : nodes.find? l with
      | none => simp [nodeAt_cons_none hfind] at hnode
      | some child =>
        have hl := hu l (by simp)
        rw [walk_through hn hfresh hl hks fun path hx =>
          (List.cons_prefix_cons.mpr ⟨rfl, List.nil_prefix⟩ : [l] <+: l :: u).trans (honly path hx),
          walkAt_some hfind]
        refine ih child ⟨k, ks⟩ (hn.child hfind) (hfresh.child hfind)
          (fun j hj => hu j (by simp [hj])) (by rwa [nodeAt_cons_some hfind] at hnode) ?_ hahead
        intro path hx
        have := honly (l :: path) (by rwa [sessionsAt_cons_some hfind])
        exact (List.cons_prefix_cons.mp this).2

end

section

variable {n : SubscriptionNode σ} {x : σ} {y a c : Bytes}

/-- Missed: behind the crossing the `"+"` child is walked with fewer levels
than the path to `x` has. -/
theorem walk_missed (hn : n.Shaped) (ha : Plain a) (hnode : (n.nodeAt [a]).isSome = true)
    {v ms : List Bytes} {m m' : Bytes} (hlen : (m' :: ms).length < (c :: v).length)
    (honly : ∀ path, x ∈ n.sessionsAt path → path = plusLevel :: c :: v)
    (hplain : ∀ l ∈ m :: m' :: ms, Plain l) :
    x ∉ (n.walk ⟨a, m :: m' :: ms⟩).sessions := by
  cases n with
  | multiLevelWildCard s => simp at hnode
  | intermediate kind s nodes =>
    cases hliteral : nodes.find? a with
    | none => simp [nodeAt_cons_none hliteral] at hnode
    | some literal =>
      have hadvanced := walk_advances (hn.not_multi hliteral ha.ne_hashLevel) m m' ms
      rw [hn.mem_walk_cons, walkAt_some hliteral]
      rintro (hx | hx | hx)
      · obtain ⟨path, hstored, -⟩ := walk_visits literal ⟨m, m' :: ms⟩ (hn.child hliteral)
          (hn.not_multi hliteral ha.ne_hashLevel) hplain hx
        have hpath := honly (a :: path) (by rwa [sessionsAt_cons_some hliteral])
        exact ha.ne_plusLevel (List.cons.inj hpath).1
      · have hpath := honly _ hx
        simp at hpath
      · obtain ⟨single, hsingle, hx⟩ := mem_walkAt.mp hx
        obtain ⟨path, hstored, -, hshort, -⟩ := walk_visits single _ (hn.child hsingle)
          (hn.not_multi hsingle plusLevel_ne_hashLevel)
          (fun k hk => hplain k (List.mem_cons_of_mem _ (hadvanced.subset hk))) hx
        have hpath := honly (plusLevel :: path) (by rwa [sessionsAt_cons_some hsingle])
        have hpath : path = c :: v := (List.cons.inj hpath).2
        have hfew := hadvanced.length_le
        rw [hpath] at hshort
        omega

/-- Spurious: behind the crossing the `"+"` child is walked without the level
`y` the topic has there. -/
theorem walk_spurious (hn : n.Shaped) (ha : Plain a) (hnode : (n.nodeAt [a]).isSome = true)
    (hc : c ≠ hashLevel) {z : Bytes} (hz : LevelMatches c z)
    (hx : x ∈ n.sessionsAt [plusLevel, c]) : x ∈ (n.walk ⟨a, [y, z]⟩).sessions := by
  cases n with
  | multiLevelWildCard s => simp at hnode
  | intermediate kind s nodes =>
    cases hliteral : nodes.find? a with
    | none => simp [nodeAt_cons_none hliteral] at hnode
    | some literal =>
      have hadvanced := walk_advances (hn.not_multi hliteral ha.ne_hashLevel) y z []
      have hcur : (literal.walk ⟨y, [z]⟩).cursor = ⟨z, []⟩ := by
        rcases List.suffix_cons_iff.mp hadvanced with h | h
        · obtain ⟨hlevel, hahead⟩ := List.cons.inj h
          cases hcursor : (literal.walk ⟨y, [z]⟩).cursor
          simp_all
        · simp [Cursor.levels] at h
      rw [hn.mem_walk_cons, walkAt_some hliteral, hcur]
      refine .inr (.inr (mem_walkAt.mpr ?_))
      obtain ⟨single, hsingle, hx⟩ := mem_sessionsAt_cons.mp hx
      refine ⟨single, hsingle, ?_⟩
      cases single with
      | multiLevelWildCard s' => simp at hx
      | intermediate kind' s' nodes' =>
        rw [mem_walk_end]
        rcases hz with rfl | rfl
        · exact .inr (.inr hx)
        · exact .inl hx

end

omit [DecidableEq σ] in
theorem SubscriptionNode.Shaped.nodeAt {n' : SubscriptionNode σ} (u : List Bytes) :
    ∀ n : SubscriptionNode σ, n.Shaped → n.nodeAt u = some n' → n'.Shaped := by
  induction u with
  | nil =>
    intro n hn hnode
    obtain rfl : n = n' := by simpa using hnode
    exact hn
  | cons k u ih =>
    intro n hn hnode
    cases n with
    | multiLevelWildCard s => simp at hnode
    | intermediate kind s nodes =>
      rw [nodeAt_cons] at hnode
      obtain ⟨c, hfind, hnode⟩ := Option.bind_eq_some_iff.mp hnode
      exact ih c (hn.child hfind) hnode

/-- A level that none of the given ones is. -/
theorem exists_fresh (ls : List Bytes) : ∃ y : Bytes, Plain y ∧ slash ∉ y ∧ y ∉ ls := by
  obtain ⟨N, hN⟩ : ∃ N, ∀ l ∈ ls, l.length ≤ N := by
    induction ls with
    | nil => exact ⟨0, by simp⟩
    | cons l ls ih =>
      obtain ⟨N, hN⟩ := ih
      refine ⟨max l.length N, fun k hk => ?_⟩
      rcases List.mem_cons.mp hk with rfl | hk
      · exact le_max_left _ _
      · exact (hN k hk).trans (le_max_right _ _)
  refine ⟨List.replicate (N + 1) 0x61, ⟨?_, ?_⟩, ?_, fun hmem => ?_⟩
  · simp [List.mem_replicate, plusSign]
  · simp [List.mem_replicate, hashSign]
  · simp [List.mem_replicate, slash]
  · have hlength := hN _ hmem
    rw [List.length_replicate] at hlength
    omega

/-- The sessions of a tree in which only the filters with the given levels
are subscribed by the first session, and all others by the second. -/
def markedSubscriptions (path : List Bytes) (filters : List TopicFilter) :
    List (TopicFilter × SessionPtr) :=
  filters.map fun f => (f, if f.levels = path then some 0 else some 1)

theorem mem_markedSubscriptions {path : List Bytes} {filters : List TopicFilter}
    {f : TopicFilter} :
    (f, some 0) ∈ markedSubscriptions path filters ↔ f ∈ filters ∧ f.levels = path := by
  unfold markedSubscriptions
  rw [List.mem_map]
  constructor
  · rintro ⟨g, hg, heq⟩
    obtain ⟨rfl, hsession⟩ := Prod.mk.inj heq
    by_cases h : g.levels = path
    · exact ⟨hg, h⟩
    · simp [h] at hsession
  · rintro ⟨hf, hlevels⟩
    exact ⟨f, hf, by simp [hlevels]⟩

namespace CrossingAt

variable {filters : List TopicFilter} {f : TopicFilter} {u v : List Bytes} {a c y : Bytes}

/-- No common level is `"#"`, since the filters go on behind them. -/
theorem common (h : CrossingAt filters f u a c v) (hlast : HashLast f.levels) :
    ∀ l ∈ u, Plain l ∨ l = plusLevel := by
  intro l hl
  rcases h.matchable l (by simp [h.levels, hl]) with hl' | hl' | rfl
  · exact .inl hl'
  · exact .inr hl'
  · obtain ⟨u₁, u₂, rfl⟩ := List.append_of_mem hl
    have := hlast u₁ (u₂ ++ plusLevel :: c :: v) (by simp [h.levels])
    simp at this

/-- A topic with the levels `rest` behind the crossing. -/
theorem exists_topic (h : CrossingAt filters f u a c v) (hy : Plain y) (hslash : slash ∉ y)
    {rest : List Bytes} (hplain : ∀ l ∈ rest, Plain l) (hrest : ∀ l ∈ rest, slash ∉ l) :
    ∃ t : TopicName, t.Valid ∧ t.levels = u.map (fillIn y) ++ a :: rest := by
  obtain ⟨g, hg, w, hother⟩ := h.other
  have ha : slash ∉ a := by
    have hmem : a ∈ g.levels := by simp [hother]
    exact slash_notMem_level hmem
  have hu : ∀ l ∈ u, slash ∉ fillIn y l := by
    intro l hl
    have hmem : l ∈ f.levels := by simp [h.levels, hl]
    unfold fillIn
    split
    · exact slash_notMem_level hmem
    · exact hslash
  refine ⟨TopicName.ofLevels (u.map (fillIn y) ++ a :: rest), TopicName.valid_ofLevels ?_,
    TopicName.levels_ofLevels (by simp) ?_⟩
  · intro l hl
    rcases List.mem_append.mp hl with hl | hl
    · obtain ⟨k, -, rfl⟩ := List.mem_map.mp hl
      exact plain_fillIn hy k
    · rcases List.mem_cons.mp hl with rfl | hl
      · exact h.plain
      · exact hplain l hl
  · intro l hl
    rcases List.mem_append.mp hl with hl | hl
    · obtain ⟨k, hk, rfl⟩ := List.mem_map.mp hl
      exact hu k hk
    · rcases List.mem_cons.mp hl with rfl | hl
      · exact ha
      · exact hrest l hl

/-- For such a topic `match` finds what the walk from the crossing collects:
a session that only has filters with the levels of `f` is found there or
not at all. -/
theorem mem_sessionsFor_iff (h : CrossingAt filters f u a c v) (hlast : HashLast f.levels)
    (hy : Plain y) (hnew : y ∉ filters.flatMap TopicFilter.levels) {rest : List Bytes}
    (hplain : ∀ l ∈ rest, Plain l) {t : TopicName} (ht : t.levels = u.map (fillIn y) ++ a :: rest)
    {tree : SubscriptionTree SessionPtr}
    (hgrown : Grown (markedSubscriptions f.levels filters) tree.rootNode) :
    ∃ n : SubscriptionNode SessionPtr, n.Shaped ∧ (n.nodeAt [a]).isSome = true ∧
      (∀ path, some 0 ∈ n.sessionsAt path ↔ path = plusLevel :: c :: v) ∧
      (some 0 ∈ tree.sessionsFor t ↔ some 0 ∈ (n.walk ⟨a, rest⟩).sessions) := by
  have hfresh : tree.rootNode.Fresh y := by
    intro w
    by_contra hnode
    rcases (hgrown.nodes _).mp (Option.isSome_iff_ne_none.mpr hnode) with hnil | ⟨g, x, hg, hpre⟩
    · simp at hnil
    · obtain ⟨k, hk, heq⟩ := List.mem_map.mp hg
      obtain ⟨rfl, -⟩ := Prod.mk.inj heq
      exact hnew (List.mem_flatMap.mpr ⟨k, hk, hpre.subset (by simp)⟩)
  have hstored : ∀ path, some 0 ∈ tree.rootNode.sessionsAt path ↔ path = f.levels := by
    intro path
    rw [hgrown.stored]
    constructor
    · rintro ⟨g, hg, rfl⟩
      exact (mem_markedSubscriptions.mp hg).2
    · rintro rfl
      exact ⟨f, mem_markedSubscriptions.mpr ⟨h.mem, rfl⟩, rfl⟩
  have hcrossing : (tree.rootNode.nodeAt (u ++ [a])).isSome = true := by
    obtain ⟨g, hg, w, hother⟩ := h.other
    refine (hgrown.nodes _).mpr (.inr ⟨g, _, List.mem_map.mpr ⟨g, hg, rfl⟩, w, ?_⟩)
    simp [hother]
  rw [SubscriptionNode.nodeAt_append] at hcrossing
  obtain ⟨n, hn⟩ : ∃ n, tree.rootNode.nodeAt u = some n := by
    cases hu : tree.rootNode.nodeAt u with
    | none => simp [hu] at hcrossing
    | some n => exact ⟨n, rfl⟩
  have hbelow : ∀ path, n.sessionsAt path = tree.rootNode.sessionsAt (u ++ path) := by
    intro path
    simp only [SubscriptionNode.sessionsAt, SubscriptionNode.nodeAt_append, hn, Option.bind_some]
  refine ⟨n, hgrown.shaped.nodeAt u _ hn, by simpa [hn] using hcrossing, fun path => ?_, ?_⟩
  · rw [hbelow, hstored, h.levels, List.append_cancel_left_eq]
  · rw [sessionsFor_eq_walk]
    have hrest : ∀ l ∈ (Cursor.mk a rest).levels, Plain l := by
      simpa [Cursor.levels] using ⟨h.plain, hplain⟩
    refine walk_along hrest hy u _ _ hgrown.shaped hfresh (h.common hlast) hn ?_ ht
    intro path hpath
    rw [(hstored path).mp hpath, h.levels]
    exact List.prefix_append u _

end CrossingAt

/-- **What crossing filters lead to**: some topic for which `match` finds the
session of one of them if and only if the filter does not fit. -/
theorem Crossing.exists_topic {filters : List TopicFilter} (hvalid : ∀ f ∈ filters, f.Valid)
    (hcross : Crossing filters) : ∃ f ∈ filters, ∃ t : TopicName, t.Valid ∧
      ∀ tree : SubscriptionTree SessionPtr,
        Grown (markedSubscriptions f.levels filters) tree.rootNode →
        (some 0 ∈ tree.sessionsFor t ↔ ¬ Fits f.levels t.levels) := by
  obtain ⟨f, u, a, c, v, h⟩ := hcross
  obtain ⟨y, hy, hslash, hnew⟩ := exists_fresh (filters.flatMap TopicFilter.levels)
  have hlast : HashLast f.levels := (hvalid f h.mem).hashLast
  have hmem : ∀ l ∈ c :: v, l ∈ f.levels := by
    intro l hl
    rw [h.levels]
    exact List.mem_append_right _ (List.mem_cons_of_mem _ hl)
  have hfill : ∀ l ∈ f.levels, slash ∉ fillIn y l := by
    intro l hl
    unfold fillIn
    split
    · exact slash_notMem_level hl
    · exact hslash
  refine ⟨f, h.mem, ?_⟩
  cases v with
  | nil =>
    -- one level more than the filter has; the walk skips `y`
    have hplain : ∀ l ∈ [y, fillIn y c], Plain l := by simpa using ⟨hy, plain_fillIn hy c⟩
    have hrest : ∀ l ∈ [y, fillIn y c], slash ∉ l := by
      simpa using ⟨hslash, hfill c (hmem c (by simp))⟩
    obtain ⟨t, ht, hlevels⟩ := h.exists_topic hy hslash hplain hrest
    refine ⟨t, ht, fun tree hgrown => ?_⟩
    obtain ⟨n, hn, hnode, hstored, hiff⟩ :=
      h.mem_sessionsFor_iff hlast hy hnew hplain hlevels hgrown
    have hz : LevelMatches c (fillIn y c) := by
      rcases h.matchable c (hmem c (by simp)) with hc | hc | hc
      · exact .inr (by simp [fillIn, hc])
      · exact .inl hc
      · exact absurd hc h.inner
    rw [hiff]
    refine iff_of_true (walk_spurious hn h.plain hnode h.inner hz ((hstored _).mpr rfl)) ?_
    intro hfits
    have hlen := hfits.length_eq (by rw [h.levels]; simpa using h.inner)
    rw [h.levels, hlevels] at hlen
    simp at hlen
  | cons d v =>
    -- as many levels as the filter has; the walk runs out of them
    have hplain : ∀ l ∈ (c :: d :: v).map (fillIn y), Plain l := by
      intro l hl
      obtain ⟨k, -, rfl⟩ := List.mem_map.mp hl
      exact plain_fillIn hy k
    have hrest : ∀ l ∈ (c :: d :: v).map (fillIn y), slash ∉ l := by
      intro l hl
      obtain ⟨k, hk, rfl⟩ := List.mem_map.mp hl
      exact hfill k (hmem k hk)
    obtain ⟨t, ht, hlevels⟩ := h.exists_topic hy hslash hplain hrest
    refine ⟨t, ht, fun tree hgrown => ?_⟩
    obtain ⟨n, hn, hnode, hstored, hiff⟩ :=
      h.mem_sessionsFor_iff hlast hy hnew hplain hlevels hgrown
    rw [hiff]
    refine iff_of_false
      (walk_missed hn h.plain hnode (by simp) (fun path => (hstored path).mp) hplain) ?_
    rw [not_not, hlevels, h.levels]
    have htail : HashLast (c :: d :: v) := by
      have : HashLast (u ++ [plusLevel] ++ (c :: d :: v)) := by simpa [← h.levels] using hlast
      exact this.append_right
    refine fits_append ?_ (.inr ⟨.inl rfl, fits_fillIn y htail fun l hl => h.matchable l (hmem l hl)⟩)
    exact levelMatches_fillIn (h.common hlast)

/-! ## §2 Agreement with the single filters -/

/-- The combined tree finds the union of what the trees with one subscription
find. -/
def TrieAgrees (subs : List (TopicFilter × SessionPtr)) : Prop :=
  ∀ tree, SubscriptionTree.new.addFilters subs = some tree → ∀ t : TopicName, t.Valid → ∀ x,
    x ∈ tree.sessionsFor t ↔
      ∃ p ∈ subs, ∃ single, SubscriptionTree.new.addFilters [p] = some single ∧
        x ∈ single.sessionsFor t

theorem exists_single_iff {subs : List (TopicFilter × SessionPtr)} (hvalid : ∀ p ∈ subs, p.1.Valid)
    {t : TopicName} (ht : t.Valid) (x : SessionPtr) :
    (∃ p ∈ subs, ∃ single, SubscriptionTree.new.addFilters [p] = some single ∧
      x ∈ single.sessionsFor t) ↔ ∃ f, (f, x) ∈ subs ∧ Fits f.levels t.levels := by
  constructor
  · rintro ⟨⟨f, s⟩, hp, single, hadd, hx⟩
    obtain ⟨single', hadd', hiff⟩ := single_mem_sessionsFor (hvalid _ hp) ht s
    obtain rfl : single = single' := Option.some.inj (hadd.symm.trans hadd')
    obtain ⟨rfl, hfits⟩ := (hiff x).mp hx
    exact ⟨f, hp, hfits⟩
  · rintro ⟨f, hp, hfits⟩
    obtain ⟨single, hadd, hiff⟩ := single_mem_sessionsFor (hvalid _ hp) ht x
    exact ⟨(f, x), hp, single, hadd, (hiff x).mpr ⟨rfl, hfits⟩⟩

/-- **The trie agrees with the single filters, whoever subscribes to them, if
and only if no two of the filters cross.** -/
theorem trie_agrees_iff (filters : List TopicFilter) (hvalid : ∀ f ∈ filters, f.Valid) :
    (∀ subs : List (TopicFilter × SessionPtr), subs.map Prod.fst = filters → TrieAgrees subs) ↔
      ¬ Crossing filters := by
  constructor
  · intro hagrees hcross
    obtain ⟨f, hf, t, ht, hiff⟩ := hcross.exists_topic hvalid
    have hfst : (markedSubscriptions f.levels filters).map Prod.fst = filters := by
      simp [markedSubscriptions, Function.comp_def]
    have hsubs : ∀ p ∈ markedSubscriptions f.levels filters, p.1.Valid := by
      intro p hp
      refine hvalid p.1 ?_
      rw [← hfst]
      exact List.mem_map_of_mem hp
    obtain ⟨tree, hadd, hgrown⟩ := SubscriptionTree.addFilters_grown hsubs
    have hagree := hagrees _ hfst tree hadd t ht (some 0)
    rw [exists_single_iff hsubs ht, hiff tree hgrown] at hagree
    -- the session is subscribed with these levels only
    have hunion : (∃ g, (g, some 0) ∈ markedSubscriptions f.levels filters ∧
        Fits g.levels t.levels) ↔ Fits f.levels t.levels := by
      constructor
      · rintro ⟨g, hg, hfits⟩
        rwa [← (mem_markedSubscriptions.mp hg).2]
      · exact fun hfits => ⟨f, mem_markedSubscriptions.mpr ⟨hf, rfl⟩, hfits⟩
    rw [hunion] at hagree
    tauto
  · rintro hcross subs rfl tree hadd t ht x
    have hsubs : ∀ p ∈ subs, p.1.Valid := fun p hp => hvalid p.1 (List.mem_map_of_mem hp)
    obtain ⟨tree', hadd', hgrown⟩ := SubscriptionTree.addFilters_grown hsubs
    obtain rfl : tree = tree' := Option.some.inj (hadd.symm.trans hadd')
    rw [mem_sessionsFor hgrown hcross ht, exists_single_iff hsubs ht]

/-- The filters `a/b/c` and `+/b/d`. -/
def crossingFilters : List TopicFilter :=
  [⟨[0x61, slash, 0x62, slash, 0x63], .atMostOnce⟩,
    ⟨[plusSign, slash, 0x62, slash, 0x64], .atMostOnce⟩]

theorem trie_agrees_iff_crossingFilters :
    (∀ subs : List (TopicFilter × SessionPtr), subs.map Prod.fst = crossingFilters →
      TrieAgrees subs) ↔ ¬ Crossing crossingFilters :=
  trie_agrees_iff crossingFilters (by decide)

/-- With `a/b/c` subscribed next to `+/b/d`, the topic `a/b/d` finds nobody. -/
theorem trie_disagrees :
    (∀ f ∈ crossingFilters, f.Valid) ∧
      ¬ TrieAgrees (crossingFilters.zip [some 0, some 1]) := by
  refine ⟨by decide, fun h => ?_⟩
  have hfound := (h _ rfl ⟨[0x61, slash, 0x62, slash, 0x64]⟩ (by decide) (some 1)).mpr
    ⟨_, List.mem_cons_of_mem _ List.mem_cons_self, _, rfl, by decide⟩
  exact absurd hfound (by decide)

end Acatl.Mqtt
